import VCache.Client.Model
import VCache.Command.Grammar

/-!
# One-shot commands

`joinOneShot` of the command-line client: the arguments of the process become one request
line. An argument is put in quotes when it has a blank in it or is empty, and stands bare
otherwise, whatever its bytes are.
-/

namespace VCache.OneShot

open Lib CommandParser

def needsQuotes (part : Bytes) : Bool :=
  part.contains Ascii.space || part.contains Ascii.tab || part.isEmpty

def quotedByte (c : UInt8) : Bytes :=
  if c = Ascii.quote ∨ c = Ascii.backslash then [Ascii.backslash, c] else [c]

def appendPart (line part : Bytes) : Bytes :=
  if !needsQuotes part then line ++ part
  else line ++ [Ascii.quote] ++ part.flatMap quotedByte ++ [Ascii.quote]

def joinLoop : Nat → Bytes → List Bytes → Bytes
  | _, line, [] => line
  | i, line, part :: parts =>
    let line := if i > 0 then line ++ [Ascii.space] else line
    joinLoop (i + 1) (appendPart line part) parts

def joinOneShot (parts : List Bytes) : Bytes := joinLoop 0 [] parts

/-! ### Arguments as words -/

def itemOf (c : UInt8) : Item :=
  if c = Ascii.quote ∨ c = Ascii.backslash then .escape c else .plain c

def wordOf (part : Bytes) : Word :=
  if needsQuotes part then .quoted (part.map itemOf) else .bare part

def tailText (parts : List Bytes) : Bytes := parts.flatMap fun p => Ascii.space :: (wordOf p).text

theorem gap_space : Gap [Ascii.space] := by
  intro c hc
  rw [List.mem_singleton.1 hc]
  decide

theorem tailText_cons (part : Bytes) (parts : List Bytes) :
    tailText (part :: parts) = Ascii.space :: ((wordOf part).text ++ tailText parts) :=
  List.flatMap_cons

theorem needsQuotes_eq_false {part : Bytes} (h : needsQuotes part = false) :
    part ≠ [] ∧ ∀ b ∈ part, isSpace b = false := by
  simp only [needsQuotes, Bool.or_eq_false_iff, List.contains_eq_mem, decide_eq_false_iff_not] at h
  obtain ⟨⟨hs, ht⟩, he⟩ := h
  refine ⟨by simpa using he, fun b hb => ?_⟩
  have h1 : b ≠ Ascii.space := fun e => hs (e ▸ hb)
  have h2 : b ≠ Ascii.tab := fun e => ht (e ▸ hb)
  simp [isSpace, h1, h2]

theorem itemOf_text (c : UInt8) : (itemOf c).text = quotedByte c := by
  unfold itemOf quotedByte
  split <;> rfl

theorem itemOf_value (c : UInt8) : (itemOf c).value = c := by
  unfold itemOf
  split
  · next h => rcases h with rfl | rfl <;> rfl
  · rfl

theorem itemsText_itemOf (part : Bytes) :
    itemsText (part.map itemOf) = part.flatMap quotedByte := by
  unfold itemsText
  rw [List.flatMap_map]
  exact congrArg (List.flatMap · part) (funext itemOf_text)

theorem itemsOk_itemOf : ∀ part : Bytes, ItemsOk (part.map itemOf)
  | [] => trivial
  | c :: part => by
    have ih := itemsOk_itemOf part
    rw [List.map_cons, itemOf]
    split
    · next h =>
      refine ⟨fun e => ?_, ih⟩
      rcases h with rfl | rfl <;> cases e
    · next h => exact ⟨fun e => h (.inl e), fun e => h (.inr e), ih⟩

theorem wordOf_value (part : Bytes) : (wordOf part).value = part := by
  unfold wordOf
  split
  · show (part.map itemOf).map Item.value = part
    rw [List.map_map]
    exact (List.map_congr_left fun c _ => itemOf_value c).trans (List.map_id part)
  · rfl

theorem appendPart_eq (line part : Bytes) : appendPart line part = line ++ (wordOf part).text := by
  unfold appendPart wordOf
  cases needsQuotes part with
  | false => rfl
  | true =>
    show line ++ [Ascii.quote] ++ part.flatMap quotedByte ++ [Ascii.quote] = line ++
      (Ascii.quote :: (itemsText (part.map itemOf) ++ [Ascii.quote]))
    rw [itemsText_itemOf]
    simp

theorem joinLoop_eq : ∀ (parts : List Bytes) (i : Nat) (line : Bytes),
    joinLoop (i + 1) line parts = line ++ tailText parts
  | [], _, line => (List.append_nil line).symm
  | part :: parts, i, line => by
    rw [joinLoop, if_pos (by omega), joinLoop_eq parts, appendPart_eq, tailText_cons]
    simp

theorem joinOneShot_cons (part : Bytes) (parts : List Bytes) :
    joinOneShot (part :: parts) = (wordOf part).text ++ tailText parts := by
  rw [joinOneShot, joinLoop, if_neg (by omega), joinLoop_eq, appendPart_eq, List.nil_append]

theorem mem_wordOf_text {c : UInt8} (hq : c ≠ Ascii.quote) (hb : c ≠ Ascii.backslash)
    {part : Bytes} : c ∈ (wordOf part).text ↔ c ∈ part := by
  unfold wordOf
  split
  · show c ∈ Ascii.quote :: (itemsText (part.map itemOf) ++ [Ascii.quote]) ↔ c ∈ part
    rw [itemsText_itemOf, List.mem_cons, List.mem_append, List.mem_singleton, List.mem_flatMap]
    have hbyte : ∀ d, c ∈ quotedByte d ↔ c = d := by
      intro d
      unfold quotedByte
      split <;> simp [hb]
    simp only [hbyte, exists_eq_right', hq, false_or, or_false]
  · rfl

theorem wordOf_head (part : Bytes) :
    ∃ c rest, (wordOf part).text = c :: rest ∧ isSpace c = false := by
  unfold wordOf
  cases h : needsQuotes part with
  | true => exact ⟨_, _, rfl, isSpace_quote⟩
  | false =>
    obtain ⟨hne, hblank⟩ := needsQuotes_eq_false h
    obtain ⟨c, rest, rfl⟩ := List.exists_cons_of_ne_nil hne
    exact ⟨c, rest, rfl, hblank c (.head _)⟩

theorem mem_joinOneShot {c : UInt8} (hq : c ≠ Ascii.quote) (hb : c ≠ Ascii.backslash)
    (hs : c ≠ Ascii.space) (parts : List Bytes) :
    c ∈ joinOneShot parts ↔ ∃ p ∈ parts, c ∈ p := by
  have htail : ∀ ps : List Bytes, c ∈ tailText ps ↔ ∃ p ∈ ps, c ∈ p := by
    intro ps
    unfold tailText
    simp only [List.mem_flatMap, List.mem_cons, hs, false_or, mem_wordOf_text hq hb]
  cases parts with
  | nil => simp [joinOneShot, joinLoop]
  | cons part parts =>
    rw [joinOneShot_cons, List.mem_append, mem_wordOf_text hq hb, htail]
    simp

theorem joinOneShot_last {parts : List Bytes} {p : Bytes} (h : parts.getLast? = some p) :
    ∃ before, joinOneShot parts = before ++ (wordOf p).text := by
  obtain ⟨init, rfl⟩ := List.getLast?_eq_some_iff.1 h
  cases init with
  | nil => exact ⟨[], by rw [List.nil_append, joinOneShot_cons]; simp [tailText]⟩
  | cons part init =>
    refine ⟨(wordOf part).text ++ (tailText init ++ [Ascii.space]), ?_⟩
    rw [List.cons_append, joinOneShot_cons]
    simp [tailText]

/-! ### What the server makes of the line -/

/-- The line with its separator is one request, and its tokens are the arguments. -/
def Arrives (parts : List Bytes) : Prop :=
  ∃ line, lines Ascii.lf (joinOneShot parts ++ [Ascii.lf]) = [line] ∧
    rest Ascii.lf (joinOneShot parts ++ [Ascii.lf]) = [] ∧ tokenize line = .ok parts

/-- The arguments that get through. -/
structure Safe (parts : List Bytes) : Prop where
  oneLine : ∀ p ∈ parts, Ascii.lf ∉ p
  /-- A bare argument does not begin with a quote. -/
  unquoted : ∀ p ∈ parts, needsQuotes p = false → p.head? ≠ some Ascii.quote
  /-- A bare argument at the end of the line does not end with a CR. -/
  lineEnd : ∀ p, parts.getLast? = some p → needsQuotes p = false → p.getLast? ≠ some Ascii.cr

theorem wordOf_ok {part : Bytes} (h : needsQuotes part = false → part.head? ≠ some Ascii.quote) :
    (wordOf part).Ok := by
  unfold wordOf
  cases hn : needsQuotes part with
  | true => exact itemsOk_itemOf part
  | false =>
    obtain ⟨hne, hblank⟩ := needsQuotes_eq_false hn
    exact ⟨hne, fun b hb => isSpace_eq_false.1 (hblank b hb), h hn⟩

theorem render_tail : ∀ parts : List Bytes,
    render (parts.map fun p => ([Ascii.space], wordOf p)) [] = tailText parts
  | [] => rfl
  | part :: parts => by
    rw [List.map_cons, render, render_tail parts, tailText_cons]
    rfl

theorem exists_sentence {parts : List Bytes}
    (h : ∀ p ∈ parts, needsQuotes p = false → p.head? ≠ some Ascii.quote) :
    ∃ p : Sentence, p.text = joinOneShot parts ∧ p.tokens = parts := by
  cases parts with
  | nil => exact ⟨⟨[], [], (fun w hw => by cases hw), (fun w hw => by cases hw), fun c hc => by
      cases hc⟩, rfl, rfl⟩
  | cons part parts =>
    refine ⟨⟨([], wordOf part) :: parts.map fun p => ([Ascii.space], wordOf p), [], ?_, ?_, fun c hc
      => by cases hc⟩, ?_, ?_⟩
    · intro w hw
      rcases List.mem_cons.1 hw with rfl | hw
      · exact ⟨(fun c hc => by cases hc), wordOf_ok (h part (.head _))⟩
      · obtain ⟨p, hp, rfl⟩ := List.mem_map.1 hw
        exact ⟨gap_space, wordOf_ok (h p (.tail _ hp))⟩
    · intro w hw
      obtain ⟨p, hp, rfl⟩ := List.mem_map.1 hw
      exact List.cons_ne_nil _ _
    · rw [joinOneShot_cons]
      show [] ++ ((wordOf part).text ++ render _ []) = _
      rw [render_tail, List.nil_append]
    · show (wordOf part).value :: (parts.map fun p => ([Ascii.space], wordOf p)).map _ = _
      rw [wordOf_value, List.map_map]
      exact congrArg _ ((List.map_congr_left fun p _ => wordOf_value p).trans (List.map_id parts))

theorem Safe.clean {parts : List Bytes} (h : Safe parts) : Clean (joinOneShot parts) := by
  cases hl : parts.getLast? with
  | none =>
    rw [List.getLast?_eq_none_iff.1 hl]
    intro c hc
    cases hc
  | some p =>
    obtain ⟨before, e⟩ := joinOneShot_last hl
    intro c hc
    obtain ⟨d, rest, hd, -⟩ := wordOf_head p
    have hlast : (wordOf p).text.getLast? = some c := by
      rw [e, List.getLast?_append] at hc
      cases hw : (wordOf p).text.getLast? with
      | none => rw [hd] at hw; simp at hw
      | some b => rw [hw] at hc; exact hc
    unfold wordOf at hlast
    cases hn : needsQuotes p with
    | true =>
      rw [hn, if_pos rfl, Word.text, ← List.cons_append, List.getLast?_concat] at hlast
      obtain rfl := Option.some.inj hlast
      rfl
    | false =>
      rw [hn, if_neg (by decide)] at hlast
      have hcr : c ≠ Ascii.cr := fun e' => h.lineEnd p hl hn (e' ▸ hlast)
      have hlf : c ≠ Ascii.lf := fun e' =>
        h.oneLine p (List.mem_of_getLast? hl) (e' ▸ List.mem_of_getLast? hlast)
      simp [isLineEnd, hcr, hlf]

theorem Safe.arrives {parts : List Bytes} (h : Safe parts) : Arrives parts := by
  have hlf : Ascii.lf ∉ joinOneShot parts := by
    rw [mem_joinOneShot (by decide) (by decide) (by decide)]
    rintro ⟨p, hp, hm⟩
    exact h.oneLine p hp hm
  refine ⟨joinOneShot parts, lines_concat_iff.2 ⟨hlf, rfl⟩, rest_concat _, ?_⟩
  obtain ⟨p, hp, ht⟩ := exists_sentence h.unquoted
  have hstrip : stripLineEnd (joinOneShot parts) = joinOneShot parts := by
    have : stripLineEnd (joinOneShot parts ++ []) = joinOneShot parts :=
      stripLineEnd_append (fun c hc => by cases hc) h.clean
    rwa [List.append_nil] at this
  rw [tokenize_sentence (hp.trans hstrip.symm), ht]

/-! ### What can go wrong -/

theorem space_mem_itemsValue : ∀ {items : List Item}, ItemsOk items →
    Ascii.space ∈ itemsText items → Ascii.space ∈ itemsValue items
  | [], _, h => h
  | item :: items, hok, h => by
    rw [itemsText_cons, List.mem_append] at h
    show Ascii.space ∈ item.value :: itemsValue items
    cases item with
    | plain c =>
      rcases h with h | h
      · rw [List.mem_singleton.1 h]
        exact .head _
      · exact .tail _ (space_mem_itemsValue hok.2.2 h)
    | escape e =>
      rcases h with h | h
      · obtain h | rfl : Ascii.space = Ascii.backslash ∨ Ascii.space = e := by
          simpa [Item.text] using h
        · cases h
        · exact .head _
      · exact .tail _ (space_mem_itemsValue hok.2 h)
    | hex high low =>
      rcases h with h | h
      · obtain h | h | rfl | rfl : Ascii.space = Ascii.backslash ∨ Ascii.space = 120 ∨
            Ascii.space = high ∨ Ascii.space = low := by simpa [Item.text] using h
        · cases h
        · cases h
        · exact absurd hok.1 (by decide)
        · exact absurd hok.2.1 (by decide)
      · exact .tail _ (space_mem_itemsValue hok.2.2 h)

theorem length_itemsValue_le (items : List Item) :
    (itemsValue items).length ≤ (itemsText items).length := by
  induction items with
  | nil => exact Nat.le_refl 0
  | cons item items ih =>
    rw [itemsText_cons, List.length_append]
    have hpos : 0 < item.text.length := by cases item <;> exact Nat.succ_pos _
    show (itemsValue items).length + 1 ≤ _
    omega

/-- A bare argument that the scan takes for a quoted word would have to reach into the next
argument, past the blank between them. -/
theorem bare_not_quoted {part : Bytes} (hn : needsQuotes part = false) {items : List Item}
    (hok : ItemsOk items) (hvalue : itemsValue items = part) (after : Bytes) (parts : List Bytes) :
    (Word.quoted items).text ++ after ≠ part ++ tailText parts := by
  intro e
  obtain ⟨hne, hblank⟩ := needsQuotes_eq_false hn
  obtain ⟨c, tail, rfl⟩ := List.exists_cons_of_ne_nil hne
  have e' : itemsText items ++ Ascii.quote :: after = tail ++ tailText parts := by
    have := (List.cons.inj e).2
    simpa using this
  have hlen := length_itemsValue_le items
  rw [hvalue, List.length_cons] at hlen
  -- the items are longer than what is left of the argument
  obtain ⟨more, hmore⟩ : ∃ more, itemsText items = tail ++ more := by
    rcases List.append_eq_append_iff.1 e' with ⟨a, ha, -⟩ | ⟨a, ha, -⟩
    · rw [ha, List.length_append] at hlen
      omega
    · exact ⟨a, ha⟩
  rw [hmore, List.append_assoc, List.append_cancel_left_eq] at e'
  rw [hmore, List.length_append] at hlen
  cases parts with
  | nil => simp [tailText] at e'
  | cons p parts =>
    obtain ⟨d, more, rfl⟩ := List.exists_cons_of_length_pos (l := more) (by omega)
    rw [tailText_cons, List.cons_append] at e'
    obtain rfl := (List.cons.inj e').1
    have hmem := space_mem_itemsValue hok (by rw [hmore]; simp)
    rw [hvalue] at hmem
    exact absurd (hblank _ hmem) (by decide)

theorem word_step {w : Word} (hw : w.Ok) {part : Bytes} (hv : w.value = part) {after : Bytes}
    {parts : List Bytes} (e : w.text ++ after = (wordOf part).text ++ tailText parts) :
    (needsQuotes part = false → part.head? ≠ some Ascii.quote) ∧ after = tailText parts := by
  cases hn : needsQuotes part with
  | true =>
    refine ⟨(fun h => by cases h), ?_⟩
    rw [wordOf, hn, if_pos rfl] at e
    cases w with
    | bare text =>
      obtain ⟨hne, -, hq⟩ := hw
      obtain ⟨c, tail, rfl⟩ := List.exists_cons_of_ne_nil hne
      have hc : c = Ascii.quote := (List.cons.inj e).1
      rw [hc] at hq
      exact absurd rfl hq
    | quoted items =>
      have e' : itemsText items ++ Ascii.quote :: after =
          itemsText (part.map itemOf) ++ Ascii.quote :: tailText parts := by
        simpa [Word.text] using e
      exact (items_unique hw (itemsOk_itemOf part) e').2
  | false =>
    rw [wordOf, hn, if_neg (by decide)] at e
    cases w with
    | bare text =>
      obtain rfl : text = part := hv
      exact ⟨fun _ => hw.2.2, List.append_cancel_left e⟩
    | quoted items => exact absurd e (bare_not_quoted hn hw hv after parts)

theorem cons_step {gap trail lineEnd : Bytes} {w : Word} {words : List (Bytes × Word)}
    {parts : List Bytes} (hgap : Gap gap) (lead : Bytes) (hlead : Gap lead) (hw : w.Ok)
    (e : render ((gap, w) :: words) trail ++ lineEnd =
      lead ++ ((wordOf w.value).text ++ tailText parts)) :
    (needsQuotes w.value = false → w.value.head? ≠ some Ascii.quote) ∧
      render words trail ++ lineEnd = tailText parts := by
  obtain ⟨c, r, hc, hsp⟩ := hw.head
  obtain ⟨c', r', hc', hsp'⟩ := wordOf_head w.value
  have e₁ : gap ++ c :: (r ++ (render words trail ++ lineEnd)) =
      lead ++ c' :: (r' ++ tailText parts) := by
    rw [render, hc, hc'] at e
    simpa using e
  obtain ⟨-, e₂⟩ := gap_append_inj hgap hlead hsp hsp' e₁
  rw [← List.cons_append, ← List.cons_append, ← hc, ← hc'] at e₂
  exact word_step hw rfl e₂

theorem words_step : ∀ {words : List (Bytes × Word)} {parts : List Bytes} {trail lineEnd : Bytes},
    (∀ w ∈ words, Gap w.1 ∧ w.2.Ok) → words.map (·.2.value) = parts →
    render words trail ++ lineEnd = tailText parts →
    lineEnd = [] ∧ ∀ p ∈ parts, needsQuotes p = false → p.head? ≠ some Ascii.quote
  | [], parts, trail, lineEnd, _, hv, e => by
    obtain rfl : [] = parts := hv
    exact ⟨(List.append_eq_nil_iff.1 e).2, fun p hp => by cases hp⟩
  | (gap, w) :: words, parts, trail, lineEnd, hw, hv, e => by
    obtain ⟨hgap, hok⟩ := hw _ (.head _)
    obtain rfl : w.value :: words.map (·.2.value) = parts := hv
    rw [tailText_cons] at e
    obtain ⟨hhead, e'⟩ := cons_step hgap [Ascii.space] gap_space hok e
    obtain ⟨hend, hrest⟩ := words_step (fun v hv => hw v (.tail _ hv)) rfl e'
    refine ⟨hend, fun p hp => ?_⟩
    rcases List.mem_cons.1 hp with rfl | hp
    · exact hhead
    · exact hrest p hp

/-- A line whose tokens are the arguments has no line end to strip. -/
theorem sentence_step {p : Sentence} {parts : List Bytes} {lineEnd : Bytes}
    (hp : p.tokens = parts) (e : p.text ++ lineEnd = joinOneShot parts) :
    lineEnd = [] ∧ ∀ q ∈ parts, needsQuotes q = false → q.head? ≠ some Ascii.quote := by
  obtain ⟨words, trail, hw, ha, ht⟩ := p
  cases words with
  | nil =>
    obtain rfl : [] = parts := hp
    exact ⟨(List.append_eq_nil_iff.1 e).2, fun q hq => by cases hq⟩
  | cons v words =>
    obtain ⟨gap, w⟩ := v
    obtain rfl : w.value :: words.map (·.2.value) = parts := hp
    obtain ⟨hgap, hok⟩ := hw _ (.head _)
    rw [joinOneShot_cons] at e
    obtain ⟨hhead, e'⟩ := cons_step hgap [] (fun b hb => by cases hb) hok e
    obtain ⟨hend, hrest⟩ := words_step (fun v hv => hw v (.tail _ hv)) rfl e'
    refine ⟨hend, fun q hq => ?_⟩
    rcases List.mem_cons.1 hq with rfl | hq
    · exact hhead
    · exact hrest q hq

theorem Arrives.safe {parts : List Bytes} (h : Arrives parts) : Safe parts := by
  obtain ⟨line, hlines, -, htok⟩ := h
  obtain ⟨hlf, rfl⟩ := lines_concat_iff.1 hlines
  rw [mem_joinOneShot (by decide) (by decide) (by decide)] at hlf
  obtain ⟨lineEnd, hline, -, hclean⟩ := stripLineEnd_spec (joinOneShot parts)
  obtain ⟨p, hp, hpt⟩ : ∃ p : Sentence, p.text = stripLineEnd (joinOneShot parts) ∧
      p.tokens = parts := by
    rcases tokenizeLoop_scanned _ _
      (Nat.lt_succ_self (stripLineEnd (joinOneShot parts)).length) with ⟨p, hp, -⟩ | e
    · rw [tokenize_sentence hp] at htok
      exact ⟨p, hp, Except.ok.inj htok⟩
    · exact absurd (e.symm.trans htok) (by simp)
  obtain ⟨rfl, hheads⟩ := sentence_step hpt (hp ▸ hline.symm)
  rw [List.append_nil] at hline
  refine ⟨fun q hq hm => hlf ⟨q, hq, hm⟩, hheads, fun q hlast hn hcr => ?_⟩
  obtain ⟨before, e⟩ := joinOneShot_last hlast
  rw [wordOf, hn, if_neg (by decide)] at e
  have hend : (joinOneShot parts).getLast? = some Ascii.cr := by
    rw [e, List.getLast?_append, Word.text, hcr]
    rfl
  rw [← hline] at hclean
  exact absurd (hclean _ hend) (by decide)

/-- **The arguments reach the server as given** exactly when none has a line feed in it, no
bare one begins with a quote, and the last one, if it stands bare, does not end with a CR. -/
theorem arrives_iff_safe (parts : List Bytes) : Arrives parts ↔ Safe parts :=
  ⟨Arrives.safe, Safe.arrives⟩

/-- `SET k "v"` with the quotes part of the argument stores `v`, and `GET` with a line feed in
its argument is two requests. -/
theorem not_arrives :
    (lines Ascii.lf (joinOneShot [[83, 69, 84], [107], [34, 118, 34]] ++ [Ascii.lf]) =
        [[83, 69, 84, 32, 107, 32, 34, 118, 34]] ∧
      tokenize [83, 69, 84, 32, 107, 32, 34, 118, 34] = .ok [[83, 69, 84], [107], [118]]) ∧
    lines Ascii.lf (joinOneShot [[71, 69, 84], [107, 10, 75, 69, 89, 83]] ++ [Ascii.lf]) =
      [[71, 69, 84, 32, 107], [75, 69, 89, 83]] :=
  ⟨⟨rfl, rfl⟩, rfl⟩

/-- Blanks, quotes and backslashes inside an argument with a blank in it get through. -/
theorem arrives_iff_safe_quoted : Arrives [[83, 69, 84], [107], [97, 32, 34, 92]] :=
  (arrives_iff_safe _).2 ⟨by decide, by decide, fun p hp hn => by
    obtain rfl := Option.some.inj hp
    cases hn⟩

end VCache.OneShot
