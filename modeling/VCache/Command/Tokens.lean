import VCache.Command.Parser

/-!
# Lines that spell tokens

`Spelled tokens text`: the text is the tokens, each after a run of blanks and followed by
another or by the end. A token is spelled bare or as the body of a quoted one.
-/

namespace VCache.CommandParser

open Lib

def Blank (s : Bytes) : Prop := ∀ c ∈ s, isSpace c = true

/-- `body` is a quoted spelling of `token`. -/
def Quotes (body token : Bytes) : Prop :=
  ∀ rest, readQuoted (body ++ Ascii.quote :: rest) = some (token, rest)

/-! ### One item of a quoted token -/

theorem readQuoted_plain {c : UInt8} (hb : c ≠ Ascii.backslash) (hq : c ≠ Ascii.quote)
    (tail : Bytes) : readQuoted (c :: tail) = (readQuoted tail).map fun r => (c :: r.1, r.2) := by
  cases tail with
  | nil => simp [readQuoted, hq]
  | cons d tail => rw [readQuoted.eq_def]; simp only [if_neg hb, if_neg hq]

theorem readQuoted_quote (rest : Bytes) : readQuoted (Ascii.quote :: rest) = some ([], rest) := by
  cases rest with
  | nil => rfl
  | cons c rest => rw [readQuoted.eq_def]; rfl

theorem readQuoted_escape {c : UInt8} (hx : c ≠ 120) (tail : Bytes) :
    readQuoted (Ascii.backslash :: c :: tail)
      = (readQuoted tail).map fun r => (unescape c :: r.1, r.2) := by
  rw [readQuoted.eq_def]
  simp only [if_true, if_neg hx]

theorem readQuoted_hex {high low : UInt8} (hh : isHexDigit high = true) (hl : isHexDigit low = true)
    (tail : Bytes) :
    readQuoted (Ascii.backslash :: 120 :: high :: low :: tail)
      = (readQuoted tail).map fun r => ((hexValue high * 16 + hexValue low) :: r.1, r.2) := by
  rw [readQuoted.eq_def]
  simp only [hh, hl, Bool.and_self, if_true]

def startsHex : Bytes → Bool
  | high :: low :: _ => isHexDigit high && isHexDigit low
  | _ => false

theorem readQuoted_x {tail : Bytes} (h : startsHex tail = false) :
    readQuoted (Ascii.backslash :: 120 :: tail)
      = (readQuoted tail).map fun r => (120 :: r.1, r.2) := by
  rw [readQuoted.eq_def]
  simp only [if_true]
  split
  · rename_i high low tail'
    rw [startsHex] at h
    simp only [h, Bool.false_eq_true, if_false]
  · rfl
  · rfl

/-! ### Tokens -/

inductive Spells : Bytes → Bytes → Prop where
  | bare {c : UInt8} {token : Bytes} : c ≠ Ascii.quote → (∀ b ∈ c :: token, isSpace b = false) →
      Spells (c :: token) (c :: token)
  | quoted {body token : Bytes} : Quotes body token →
      Spells token (Ascii.quote :: body ++ [Ascii.quote])

inductive Spelled : List Bytes → Bytes → Prop where
  | done {blank : Bytes} : Blank blank → Spelled [] blank
  | token {blank token text rest : Bytes} {tokens : List Bytes} : Blank blank → Spells token text →
      rest.head?.all isSpace = true → Spelled tokens rest →
      Spelled (token :: tokens) (blank ++ (text ++ rest))

theorem takeWhile_bare {text rest : Bytes} (h : ∀ b ∈ text, isSpace b = false)
    (hr : rest.head?.all isSpace = true) :
    (text ++ rest).takeWhile (!isSpace ·) = text ∧
      (text ++ rest).dropWhile (!isSpace ·) = rest := by
  induction text with
  | nil =>
    cases rest with
    | nil => simp
    | cons c rest =>
      have hc : isSpace c = true := by simpa using hr
      simp [hc]
  | cons c text ih =>
    obtain ⟨h₁, h₂⟩ := ih fun b hb => h b (.tail _ hb)
    have hc : isSpace c = false := h c (.head _)
    simp [hc, h₁, h₂]

theorem dropWhile_blank {blank rest : Bytes} (h : Blank blank) :
    (blank ++ rest).dropWhile isSpace = rest.dropWhile isSpace :=
  List.dropWhile_append_of_pos h

theorem isSpace_quote : isSpace Ascii.quote = false := by decide

theorem tokenizeLoop_token {blank token text rest : Bytes} (fuel : Nat) (hb : Blank blank)
    (ht : Spells token text) (hr : rest.head?.all isSpace = true) :
    tokenizeLoop (fuel + 1) (blank ++ (text ++ rest))
      = (tokenizeLoop fuel rest).map (token :: ·) := by
  rw [tokenizeLoop, dropWhile_blank hb]
  cases ht with
  | @bare c token hc hs =>
    obtain ⟨h₁, h₂⟩ := takeWhile_bare hs hr
    have hc' : ¬ isSpace c = true := by simp [hs c (.head _)]
    rw [List.cons_append] at h₁ h₂ ⊢
    simp only [List.dropWhile_cons_of_neg hc', if_neg hc, h₁, h₂]
  | @quoted body token hq =>
    simp only [List.cons_append, List.append_assoc, List.nil_append, List.dropWhile_cons,
      isSpace_quote, Bool.false_eq_true, if_false, if_true, hq rest, hr]

theorem Spells.length_pos {token text : Bytes} (h : Spells token text) : 0 < text.length := by
  cases h <;> simp

theorem Spelled.tokenizeLoop_eq {tokens : List Bytes} {text : Bytes} (h : Spelled tokens text) :
    ∀ {fuel : Nat}, text.length < fuel → tokenizeLoop fuel text = .ok tokens := by
  induction h with
  | @done blank hb =>
    intro fuel hf
    obtain ⟨fuel, rfl⟩ : ∃ k, fuel = k + 1 := ⟨fuel - 1, by omega⟩
    rw [tokenizeLoop, ← List.append_nil blank, dropWhile_blank hb]
    rfl
  | @token blank token text rest tokens hb ht hr _ ih =>
    intro fuel hf
    obtain ⟨fuel, rfl⟩ : ∃ k, fuel = k + 1 := ⟨fuel - 1, by omega⟩
    have := ht.length_pos
    rw [List.length_append, List.length_append] at hf
    rw [tokenizeLoop_token fuel hb ht hr, ih (by omega)]
    rfl

/-! ### Line ends -/

def Clean (s : Bytes) : Prop := ∀ c ∈ s.getLast?, isLineEnd c = false

theorem Clean.append {s t : Bytes} (hs : Clean s) (ht : Clean t) : Clean (s ++ t) := by
  intro c hc
  rw [List.getLast?_append] at hc
  cases hl : t.getLast? with
  | none => exact hs c (by simpa [hl] using hc)
  | some b => exact ht c (by simpa [hl] using hc)

theorem clean_of_forall {s : Bytes} (h : ∀ c ∈ s, isLineEnd c = false) : Clean s :=
  fun c hc => h c (List.mem_of_getLast? hc)

theorem isLineEnd_of_isSpace {c : UInt8} (h : isSpace c = true) : isLineEnd c = false := by
  simp only [isSpace, Bool.or_eq_true, beq_iff_eq] at h
  rcases h with rfl | rfl <;> decide

theorem Blank.clean {s : Bytes} (h : Blank s) : Clean s :=
  clean_of_forall fun c hc => isLineEnd_of_isSpace (h c hc)

theorem stripLineEnd_append {content lineEnd : Bytes} (he : ∀ c ∈ lineEnd, isLineEnd c = true)
    (hc : Clean content) : stripLineEnd (content ++ lineEnd) = content := by
  unfold stripLineEnd
  rw [List.reverse_append,
    List.dropWhile_append_of_pos fun c h => he c (List.mem_reverse.1 h)]
  unfold Clean at hc
  rw [← List.head?_reverse] at hc
  generalize hr : content.reverse = r at hc ⊢
  cases r with
  | nil =>
    have := congrArg List.reverse hr
    simpa using this.symm
  | cons c r =>
    have : isLineEnd c = false := hc c rfl
    rw [List.dropWhile_cons, this, if_neg (by decide), ← hr, List.reverse_reverse]

/-! ### Layouts -/

/-- The blanks of a line: `gap i` stands before word `i`, `trail` after the last one. -/
structure Layout where
  gap : Nat → Bytes
  trail : Bytes
  lineEnd : Bytes
  gap_blank : ∀ i, Blank (gap i)
  gap_ne : ∀ i, gap (i + 1) ≠ []
  trail_blank : Blank trail
  lineEnd_spec : ∀ c ∈ lineEnd, isLineEnd c = true

namespace Layout

def join (l : Layout) : Nat → List Bytes → Bytes
  | _, [] => l.trail
  | i, word :: words => l.gap i ++ (word ++ l.join (i + 1) words)

def line (l : Layout) (words : List Bytes) : Bytes := l.join 0 words ++ l.lineEnd

theorem head_join (l : Layout) (i : Nat) (words : List Bytes) :
    (l.join (i + 1) words).head?.all isSpace = true := by
  have key : ∀ {s : Bytes}, Blank s → s.head?.all isSpace = true := by
    intro s hs
    cases s with
    | nil => rfl
    | cons c s => exact hs c (.head _)
  cases words with
  | nil => exact key l.trail_blank
  | cons word words =>
    have := key (l.gap_blank (i + 1))
    rw [join]
    cases hg : l.gap (i + 1) with
    | nil => exact absurd hg (l.gap_ne i)
    | cons c s => simpa [hg] using this

theorem spelled_join (l : Layout) {tokens words : List Bytes}
    (h : List.Forall₂ Spells tokens words) : ∀ i, Spelled tokens (l.join i words) := by
  induction h with
  | nil => exact fun _ => .done l.trail_blank
  | cons hw _ ih => exact fun i => .token (l.gap_blank i) hw (l.head_join i _) (ih (i + 1))

theorem clean_join (l : Layout) : ∀ {words : List Bytes}, (∀ word ∈ words, Clean word) →
    ∀ i, Clean (l.join i words)
  | [], _, _ => l.trail_blank.clean
  | word :: words, h, i => by
    have ih := l.clean_join (fun w hw => h w (.tail _ hw)) (i + 1)
    exact (l.gap_blank i).clean.append ((h word (.head _)).append ih)

theorem tokenize_line (l : Layout) {tokens words : List Bytes}
    (h : List.Forall₂ Spells tokens words) (hc : ∀ word ∈ words, Clean word) :
    tokenize (l.line words) = .ok tokens := by
  unfold tokenize line
  simp only [stripLineEnd_append l.lineEnd_spec (l.clean_join hc 0)]
  exact (l.spelled_join h 0).tokenizeLoop_eq (by omega)

theorem parse_line (l : Layout) {tokens words : List Bytes} (h : List.Forall₂ Spells tokens words)
    (hc : ∀ word ∈ words, Clean word) : parse (l.line words) = parseTokens tokens := by
  unfold parse
  rw [l.tokenize_line h hc]

end Layout

end VCache.CommandParser
