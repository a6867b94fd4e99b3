import Mathlib.Data.List.TakeWhile
import VCache.Command.Tokens

/-!
# The grammar of a request line

A line is words with blanks around them. A word is bare, or quoted and made of items: a
plain byte, an escaped byte, or a byte in hex. `tokenize` accepts the lines of the grammar
and no others, and a line has one decomposition at most.

The grammar has its own tables of blanks, line ends, escapes and hex digits. The tests and
conversions of the tokenizer are compared with them.
-/

namespace VCache.CommandParser

open Lib

/-! ### Tables -/

def blanks : Bytes := bytes " \t"

def lineEnds : Bytes := bytes "\r\n"

/-- The letters behind a backslash that stand for another byte: LF, CR, tab, backspace, bell. -/
def escapes : List (UInt8 × UInt8) := (bytes "nrtba").zip [10, 13, 9, 8, 7]

/-- The hex digits and what they count. -/
def hexDigits : List (UInt8 × UInt8) :=
  (bytes "0123456789abcdef").zip [0, 1, 2, 3, 4, 5, 6, 7, 8, 9, 10, 11, 12, 13, 14, 15] ++
    (bytes "ABCDEF").zip [10, 11, 12, 13, 14, 15]

def IsHex (c : UInt8) : Prop := (hexDigits.lookup c).isSome = true

instance (c : UInt8) : Decidable (IsHex c) := inferInstanceAs (Decidable (_ = true))

def BeginsHex (s : Bytes) : Prop :=
  ∃ high low tail, s = high :: low :: tail ∧ IsHex high ∧ IsHex low

theorem forall_byte {p : UInt8 → Bool} (h : ∀ n < 256, p (UInt8.ofNat n) = true) (c : UInt8) :
    p c = true := by
  have := h c.toNat c.toNat_lt
  rwa [UInt8.ofNat_toNat] at this

theorem isSpace_iff {c : UInt8} : isSpace c = true ↔ c ∈ blanks := by
  simp [isSpace, blanks, bytes]

theorem isLineEnd_iff {c : UInt8} : isLineEnd c = true ↔ c ∈ lineEnds := by
  simp [isLineEnd, lineEnds, bytes, or_comm]

theorem isSpace_eq_false {c : UInt8} : isSpace c = false ↔ c ∉ blanks := by
  rw [← isSpace_iff, Bool.not_eq_true]

theorem escapes_eq : escapes = [(110, 10), (114, 13), (116, 9), (98, 8), (97, 7)] := by decide

theorem hexDigits_eq : hexDigits = [(48, 0), (49, 1), (50, 2), (51, 3), (52, 4), (53, 5), (54, 6),
    (55, 7), (56, 8), (57, 9), (97, 10), (98, 11), (99, 12), (100, 13), (101, 14), (102, 15),
    (65, 10), (66, 11), (67, 12), (68, 13), (69, 14), (70, 15)] := by decide

theorem unescape_eq (c : UInt8) : unescape c = (escapes.lookup c).getD c := by
  refine beq_iff_eq.1 (@forall_byte (fun c => unescape c == (escapes.lookup c).getD c) ?_ c)
  rw [escapes_eq]
  decide +kernel

theorem isHexDigit_iff {c : UInt8} : isHexDigit c = true ↔ IsHex c := by
  rw [IsHex, ← Bool.eq_iff_iff]
  refine beq_iff_eq.1 (@forall_byte (fun c => isHexDigit c == (hexDigits.lookup c).isSome) ?_ c)
  rw [hexDigits_eq]
  decide +kernel

theorem hexValue_eq {c v : UInt8} (h : hexDigits.lookup c = some v) : hexValue c = v := by
  have hall := @forall_byte (fun c => (hexDigits.lookup c).all (hexValue c == ·))
    (by rw [hexDigits_eq]; decide +kernel) c
  rw [h] at hall
  exact beq_iff_eq.1 hall

theorem startsHex_iff {s : Bytes} : startsHex s = true ↔ BeginsHex s := by
  constructor
  · intro h
    unfold startsHex at h
    split at h
    · obtain ⟨hh, hl⟩ := Bool.and_eq_true_iff.1 h
      exact ⟨_, _, _, rfl, isHexDigit_iff.1 hh, isHexDigit_iff.1 hl⟩
    · cases h
  · rintro ⟨high, low, tail, rfl, hh, hl⟩
    rw [startsHex, isHexDigit_iff.2 hh, isHexDigit_iff.2 hl]
    rfl

theorem startsHex_eq_false {s : Bytes} : startsHex s = false ↔ ¬ BeginsHex s := by
  rw [← startsHex_iff, Bool.not_eq_true]

/-! ### Items -/

/-- One item of a quoted word. -/
inductive Item where
  | plain (c : UInt8)
  | escape (escaped : UInt8)
  | hex (high low : UInt8)
deriving DecidableEq, Repr

namespace Item

def text : Item → Bytes
  | .plain c => [c]
  | .escape escaped => [Ascii.backslash, escaped]
  | .hex high low => [Ascii.backslash, 120, high, low]

/-- The byte an item stands for. An escaped byte that is not in the table stands for itself. -/
def value : Item → UInt8
  | .plain c => c
  | .escape escaped => (escapes.lookup escaped).getD escaped
  | .hex high low => (hexDigits.lookup high).getD 0 * 16 + (hexDigits.lookup low).getD 0

end Item

def itemsText (items : List Item) : Bytes := items.flatMap Item.text

def itemsValue (items : List Item) : Bytes := items.map Item.value

/-- Quotes and backslashes only behind a backslash, and an escaped `x` only where it does not
begin a byte in hex. -/
def ItemsOk : List Item → Prop
  | [] => True
  | .plain c :: items => c ≠ Ascii.quote ∧ c ≠ Ascii.backslash ∧ ItemsOk items
  | .escape escaped :: items =>
    (escaped = 120 → ¬ BeginsHex (itemsText items)) ∧ ItemsOk items
  | .hex high low :: items => IsHex high ∧ IsHex low ∧ ItemsOk items

theorem value_hex {high low : UInt8} (hh : IsHex high) (hl : IsHex low) :
    (Item.hex high low).value = hexValue high * 16 + hexValue low := by
  obtain ⟨v, hh⟩ := Option.isSome_iff_exists.1 hh
  obtain ⟨w, hl⟩ := Option.isSome_iff_exists.1 hl
  rw [Item.value, hh, hl, hexValue_eq hh, hexValue_eq hl]
  rfl

theorem itemsText_cons (item : Item) (items : List Item) :
    itemsText (item :: items) = item.text ++ itemsText items := List.flatMap_cons

theorem isHexDigit_quote : isHexDigit Ascii.quote = false := by decide

/-- The closing quote hides what is behind it from the look-ahead. -/
theorem startsHex_quote (s rest : Bytes) :
    startsHex (s ++ Ascii.quote :: rest) = startsHex s := by
  cases s with
  | nil =>
    cases rest with
    | nil => rfl
    | cons c rest => simp [startsHex, isHexDigit_quote]
  | cons c s =>
    cases s with
    | nil => simp [startsHex, isHexDigit_quote]
    | cons d s => rfl

theorem readQuoted_items {items : List Item} (h : ItemsOk items) (rest : Bytes) :
    readQuoted (itemsText items ++ Ascii.quote :: rest) = some (itemsValue items, rest) := by
  induction items with
  | nil => exact readQuoted_quote rest
  | cons item items ih =>
    rw [itemsText_cons, List.append_assoc]
    cases item with
    | plain c =>
      obtain ⟨hq, hb, h⟩ := h
      show readQuoted (c :: (itemsText items ++ Ascii.quote :: rest)) = _
      rw [readQuoted_plain hb hq, ih h]
      rfl
    | escape escaped =>
      obtain ⟨hx, h⟩ := h
      show readQuoted (Ascii.backslash :: escaped :: (itemsText items ++ Ascii.quote :: rest)) = _
      by_cases he : escaped = 120
      · subst he
        rw [readQuoted_x (by rw [startsHex_quote]; exact startsHex_eq_false.2 (hx rfl)), ih h]
        rfl
      · rw [readQuoted_escape he, ih h, unescape_eq]
        rfl
    | hex high low =>
      obtain ⟨hh, hl, h⟩ := h
      show readQuoted
        (Ascii.backslash :: 120 :: high :: low :: (itemsText items ++ Ascii.quote :: rest)) = _
      rw [readQuoted_hex (isHexDigit_iff.2 hh) (isHexDigit_iff.2 hl), ih h, ← value_hex hh hl]
      rfl

theorem readQuoted_cons {i : Item} {s tail token after : Bytes}
    (hs : s = i.text ++ tail)
    (hread : readQuoted s = (readQuoted tail).map fun r => (i.value :: r.1, r.2))
    (h : readQuoted s = some (token, after))
    (ih : ∀ token, readQuoted tail = some (token, after) → ∃ items, ItemsOk items ∧
      tail = itemsText items ++ Ascii.quote :: after ∧ itemsValue items = token)
    (hok : ∀ items, ItemsOk items → tail = itemsText items ++ Ascii.quote :: after →
      ItemsOk (i :: items)) :
    ∃ items, ItemsOk items ∧ s = itemsText items ++ Ascii.quote :: after ∧
      itemsValue items = token := by
  rw [hread] at h
  obtain ⟨⟨token', after'⟩, h', e⟩ := Option.map_eq_some_iff.1 h
  obtain ⟨rfl, rfl⟩ := Prod.mk.inj e
  obtain ⟨items, hitems, htail, rfl⟩ := ih token' h'
  refine ⟨i :: items, hok items hitems htail, ?_, rfl⟩
  rw [hs, itemsText_cons, List.append_assoc, ← htail]

theorem readQuoted_sound : ∀ (s : Bytes) {token after : Bytes},
    readQuoted s = some (token, after) → ∃ items, ItemsOk items ∧
      s = itemsText items ++ Ascii.quote :: after ∧ itemsValue items = token
  | [], token, after, h => by cases h
  | c :: s, token, after, h => by
    by_cases hq : c = Ascii.quote
    · subst hq
      rw [readQuoted_quote] at h
      obtain ⟨rfl, rfl⟩ := Prod.mk.inj (Option.some.inj h)
      exact ⟨[], trivial, rfl, rfl⟩
    by_cases hb : c = Ascii.backslash
    · subst hb
      cases s with
      | nil => cases h
      | cons e s =>
        by_cases hx : e = 120
        · subst hx
          cases hhex : startsHex s with
          | true =>
            obtain ⟨high, low, tail, rfl, hh, hl⟩ := startsHex_iff.1 hhex
            refine readQuoted_cons (i := .hex high low) rfl ?_ h
              (fun token h' => readQuoted_sound tail h') fun items hitems _ => ⟨hh, hl, hitems⟩
            rw [value_hex hh hl]
            exact readQuoted_hex (isHexDigit_iff.2 hh) (isHexDigit_iff.2 hl) tail
          | false =>
            refine readQuoted_cons (i := .escape 120) rfl (readQuoted_x hhex) h
              (fun token h' => readQuoted_sound s h')
              fun items hitems htail => ⟨fun _ => ?_, hitems⟩
            rw [htail, startsHex_quote] at hhex
            exact startsHex_eq_false.1 hhex
        · refine readQuoted_cons (i := .escape e) rfl ?_ h
            (fun token h' => readQuoted_sound s h') fun items hitems _ =>
              ⟨fun he => absurd he hx, hitems⟩
          rw [readQuoted_escape hx s, unescape_eq]
          rfl
    · exact readQuoted_cons (i := .plain c) rfl (readQuoted_plain hb hq s) h
        (fun token h' => readQuoted_sound s h') fun items hitems _ => ⟨hq, hb, hitems⟩
termination_by s => s.length

theorem item_ne_quote {item : Item} {items : List Item} (h : ItemsOk (item :: items))
    {tail rest : Bytes} : item.text ++ tail ≠ Ascii.quote :: rest := by
  intro e
  cases item with
  | plain c => exact h.1 (List.cons.inj e).1
  | escape escaped => exact absurd (List.cons.inj e).1 (by decide)
  | hex high low => exact absurd (List.cons.inj e).1 (by decide)

/-- A hex item and an escaped `x` are told apart by the look-ahead. -/
theorem escape_ne_hex {items : List Item} {rest tail : Bytes} {high low : UInt8}
    (hno : ¬ BeginsHex (itemsText items)) (hh : IsHex high) (hl : IsHex low) :
    itemsText items ++ Ascii.quote :: rest ≠ high :: low :: tail := by
  intro e
  rw [← startsHex_eq_false, ← startsHex_quote _ rest, startsHex_eq_false, e] at hno
  exact hno ⟨high, low, tail, rfl, hh, hl⟩

theorem item_unique {item item' : Item} {items items' : List Item} {rest rest' : Bytes}
    (hok : ItemsOk (item :: items)) (hok' : ItemsOk (item' :: items'))
    (h : item.text ++ (itemsText items ++ Ascii.quote :: rest) =
      item'.text ++ (itemsText items' ++ Ascii.quote :: rest')) :
    item = item' ∧
      itemsText items ++ Ascii.quote :: rest = itemsText items' ++ Ascii.quote :: rest' := by
  cases item with
  | plain c =>
    cases item' with
    | plain c' =>
      obtain ⟨rfl, htail⟩ := List.cons.inj h
      exact ⟨rfl, htail⟩
    | escape e' => exact absurd (List.cons.inj h).1 hok.2.1
    | hex high' low' => exact absurd (List.cons.inj h).1 hok.2.1
  | escape e =>
    cases item' with
    | plain c' => exact absurd (List.cons.inj h).1.symm hok'.2.1
    | escape e' =>
      obtain ⟨rfl, htail⟩ := List.cons.inj (List.cons.inj h).2
      exact ⟨rfl, htail⟩
    | hex high' low' =>
      obtain ⟨he, htail⟩ := List.cons.inj (List.cons.inj h).2
      exact absurd htail (escape_ne_hex (hok.1 he) hok'.1 hok'.2.1)
  | hex high low =>
    cases item' with
    | plain c' => exact absurd (List.cons.inj h).1.symm hok'.2.1
    | escape e' =>
      obtain ⟨he, htail⟩ := List.cons.inj (List.cons.inj h).2
      exact absurd htail.symm (escape_ne_hex (hok'.1 he.symm) hok.1 hok.2.1)
    | hex high' low' =>
      obtain ⟨-, h₁⟩ := List.cons.inj (List.cons.inj h).2
      obtain ⟨rfl, h₂⟩ := List.cons.inj h₁
      obtain ⟨rfl, htail⟩ := List.cons.inj h₂
      exact ⟨rfl, htail⟩

theorem ItemsOk.tail {item : Item} {items : List Item} (h : ItemsOk (item :: items)) :
    ItemsOk items := by
  cases item with
  | plain c => exact h.2.2
  | escape escaped => exact h.2
  | hex high low => exact h.2.2

/-- A quoted word is split into items in one way, and ends in one place. -/
theorem items_unique : ∀ {items items' : List Item} {rest rest' : Bytes}, ItemsOk items →
    ItemsOk items' →
    itemsText items ++ Ascii.quote :: rest = itemsText items' ++ Ascii.quote :: rest' →
    items = items' ∧ rest = rest'
  | [], [], _, _, _, _, h => ⟨rfl, (List.cons.inj h).2⟩
  | [], item' :: items', _, _, _, h', h => by
    rw [itemsText_cons, List.append_assoc] at h
    exact absurd h.symm (item_ne_quote h')
  | item :: items, [], _, _, hok, _, h => by
    rw [itemsText_cons, List.append_assoc] at h
    exact absurd h (item_ne_quote hok)
  | item :: items, item' :: items', rest, rest', hok, hok', h => by
    rw [itemsText_cons, itemsText_cons, List.append_assoc, List.append_assoc] at h
    obtain ⟨rfl, htail⟩ := item_unique hok hok' h
    obtain ⟨rfl, hrest⟩ := items_unique hok.tail hok'.tail htail
    exact ⟨rfl, hrest⟩

/-! ### Words -/

inductive Word where
  | bare (text : Bytes)
  | quoted (items : List Item)
deriving DecidableEq, Repr

namespace Word

def text : Word → Bytes
  | .bare text => text
  | .quoted items => Ascii.quote :: (itemsText items ++ [Ascii.quote])

def value : Word → Bytes
  | .bare text => text
  | .quoted items => itemsValue items

/-- A bare word is not empty, has no blank in it and does not begin with a quote. -/
def Ok : Word → Prop
  | .bare text => text ≠ [] ∧ (∀ b ∈ text, b ∉ blanks) ∧ text.head? ≠ some Ascii.quote
  | .quoted items => ItemsOk items

theorem Ok.spells {w : Word} (h : w.Ok) : Spells w.value w.text := by
  cases w with
  | bare text =>
    obtain ⟨hne, hblank, hq⟩ := h
    obtain ⟨c, rest, rfl⟩ := List.exists_cons_of_ne_nil hne
    exact .bare (fun hc => hq (by rw [hc]; rfl)) fun b hb => isSpace_eq_false.2 (hblank b hb)
  | quoted items => exact .quoted fun rest => readQuoted_items h rest

theorem Ok.head {w : Word} (h : w.Ok) : ∃ c rest, w.text = c :: rest ∧ isSpace c = false := by
  cases w with
  | bare text =>
    obtain ⟨hne, hblank, -⟩ := h
    obtain ⟨c, rest, rfl⟩ := List.exists_cons_of_ne_nil hne
    exact ⟨c, rest, rfl, isSpace_eq_false.2 (hblank c (.head _))⟩
  | quoted items => exact ⟨_, _, rfl, isSpace_quote⟩

/-- Where a word ends is settled by the blank behind it. -/
theorem Ok.unique {w w' : Word} (h : w.Ok) (h' : w'.Ok) {rest rest' : Bytes}
    (hr : rest.head?.all isSpace = true) (hr' : rest'.head?.all isSpace = true)
    (e : w.text ++ rest = w'.text ++ rest') : w = w' ∧ rest = rest' := by
  have bareQuoted : ∀ {text : Bytes} {items : List Item} {r r' : Bytes}, (Word.bare text).Ok →
      text ++ r ≠ Ascii.quote :: (itemsText items ++ [Ascii.quote]) ++ r' := by
    intro text items r r' hbare e
    obtain ⟨hne, -, hq⟩ := hbare
    obtain ⟨c, tail, rfl⟩ := List.exists_cons_of_ne_nil hne
    apply hq
    rw [(List.cons.inj e).1]
    rfl
  cases w with
  | bare text =>
    cases w' with
    | bare text' =>
      obtain ⟨h₁, h₂⟩ := takeWhile_bare (fun b hb => isSpace_eq_false.2 (h.2.1 b hb)) hr
      obtain ⟨h₁', h₂'⟩ := takeWhile_bare (fun b hb => isSpace_eq_false.2 (h'.2.1 b hb)) hr'
      have e' : text ++ rest = text' ++ rest' := e
      rw [e'] at h₁ h₂
      rw [← h₁, ← h₂, h₁', h₂']
      exact ⟨rfl, rfl⟩
    | quoted items' => exact absurd e (bareQuoted h)
  | quoted items =>
    cases w' with
    | bare text' => exact absurd e.symm (bareQuoted h')
    | quoted items' =>
      have e' : itemsText items ++ Ascii.quote :: rest =
          itemsText items' ++ Ascii.quote :: rest' := by
        simpa [text] using e
      obtain ⟨rfl, er⟩ := items_unique h h' e'
      exact ⟨rfl, er⟩

end Word

/-! ### Lines -/

/-- The words with the blanks in front of each, and the blanks behind the last. -/
def render : List (Bytes × Word) → Bytes → Bytes
  | [], trail => trail
  | (gap, word) :: words, trail => gap ++ (word.text ++ render words trail)

def Gap (s : Bytes) : Prop := ∀ c ∈ s, c ∈ blanks

theorem Gap.blank {s : Bytes} (h : Gap s) : Blank s := fun c hc => isSpace_iff.2 (h c hc)

/-- A line of the grammar. -/
structure Sentence where
  words : List (Bytes × Word)
  trail : Bytes
  words_ok : ∀ w ∈ words, Gap w.1 ∧ w.2.Ok
  apart : ∀ w ∈ words.tail, w.1 ≠ []
  trail_blank : Gap trail

namespace Sentence

def text (p : Sentence) : Bytes := render p.words p.trail

def tokens (p : Sentence) : List Bytes := p.words.map (·.2.value)

end Sentence

theorem head_render {words : List (Bytes × Word)} {trail : Bytes} (hw : ∀ w ∈ words, Gap w.1)
    (hgap : ∀ w ∈ words.head?, w.1 ≠ []) (ht : Gap trail) :
    (render words trail).head?.all isSpace = true := by
  cases words with
  | nil =>
    cases trail with
    | nil => rfl
    | cons c trail => exact ht.blank c (.head _)
  | cons w words =>
    obtain ⟨c, gap, hc⟩ := List.exists_cons_of_ne_nil (hgap w rfl)
    have hblank := (hw w (.head _)).blank
    rw [hc] at hblank
    rw [render, hc]
    exact hblank c (.head _)

theorem apart_tail {w : Bytes × Word} {words : List (Bytes × Word)}
    (h : ∀ v ∈ (w :: words).tail, v.1 ≠ []) :
    (∀ v ∈ words.head?, v.1 ≠ []) ∧ ∀ v ∈ words.tail, v.1 ≠ [] :=
  ⟨fun v hv => h v (List.mem_of_mem_head? hv), fun v hv => h v (List.mem_of_mem_tail hv)⟩

theorem spelled_render : ∀ {words : List (Bytes × Word)} {trail : Bytes},
    (∀ w ∈ words, Gap w.1 ∧ w.2.Ok) → (∀ w ∈ words.tail, w.1 ≠ []) → Gap trail →
    Spelled (words.map (·.2.value)) (render words trail)
  | [], _, _, _, ht => .done ht.blank
  | (gap, word) :: words, trail, hw, ha, ht => by
    have hw' := fun v hv => hw v (List.mem_cons_of_mem _ hv)
    obtain ⟨hhead, htail⟩ := apart_tail ha
    obtain ⟨hblank, hok⟩ := hw _ (.head _)
    exact .token hblank.blank hok.spells (head_render (fun v hv => (hw' v hv).1) hhead ht)
      (spelled_render hw' htail ht)

theorem gap_append_inj {g g' s s' : Bytes} {c c' : UInt8} (hg : Gap g) (hg' : Gap g')
    (hc : isSpace c = false) (hc' : isSpace c' = false) (e : g ++ c :: s = g' ++ c' :: s') :
    g = g' ∧ c :: s = c' :: s' := by
  have hd : (g ++ c :: s).dropWhile isSpace = (c :: s).dropWhile isSpace := dropWhile_blank hg.blank
  have hd' : (g' ++ c' :: s').dropWhile isSpace = (c' :: s').dropWhile isSpace :=
    dropWhile_blank hg'.blank
  rw [List.dropWhile_cons_of_neg (by simp [hc])] at hd
  rw [List.dropWhile_cons_of_neg (by simp [hc'])] at hd'
  have hs : c :: s = c' :: s' := by rw [← hd, e, hd']
  rw [hs] at e
  exact ⟨List.append_cancel_right e, hs⟩

theorem render_inj : ∀ {words words' : List (Bytes × Word)} {trail trail' : Bytes},
    (∀ w ∈ words, Gap w.1 ∧ w.2.Ok) → (∀ w ∈ words.tail, w.1 ≠ []) → Gap trail →
    (∀ w ∈ words', Gap w.1 ∧ w.2.Ok) → (∀ w ∈ words'.tail, w.1 ≠ []) → Gap trail' →
    render words trail = render words' trail' → words = words' ∧ trail = trail'
  | [], [], _, _, _, _, _, _, _, _, e => ⟨rfl, e⟩
  | [], (gap', word') :: words', trail, trail', _, _, ht, hw', _, _, e => by
    obtain ⟨c, rest, hc, hsp⟩ := (hw' _ (.head _)).2.head
    have hmem : c ∈ trail := by
      rw [show trail = _ from e]
      simp [render, hc]
    rw [ht.blank c hmem] at hsp
    cases hsp
  | (gap, word) :: words, [], trail, trail', hw, _, _, _, _, ht', e => by
    obtain ⟨c, rest, hc, hsp⟩ := (hw _ (.head _)).2.head
    have hmem : c ∈ trail' := by
      rw [show trail' = _ from e.symm]
      simp [render, hc]
    rw [ht'.blank c hmem] at hsp
    cases hsp
  | (gap, word) :: words, (gap', word') :: words', trail, trail', hw, ha, ht, hw', ha', ht', e => by
    obtain ⟨hgap, hok⟩ := hw _ (.head _)
    obtain ⟨hgap', hok'⟩ := hw' _ (.head _)
    have hws := fun v hv => hw v (List.mem_cons_of_mem _ hv)
    have hws' := fun v hv => hw' v (List.mem_cons_of_mem _ hv)
    obtain ⟨hhead, htail⟩ := apart_tail ha
    obtain ⟨hhead', htail'⟩ := apart_tail ha'
    obtain ⟨c, rest, hc, hsp⟩ := hok.head
    obtain ⟨c', rest', hc', hsp'⟩ := hok'.head
    rw [render, render, hc, hc', List.cons_append, List.cons_append] at e
    obtain ⟨rfl, e₁⟩ := gap_append_inj hgap hgap' hsp hsp' e
    rw [← List.cons_append, ← List.cons_append, ← hc, ← hc'] at e₁
    obtain ⟨rfl, e₂⟩ := hok.unique hok' (head_render (fun v hv => (hws v hv).1) hhead ht)
      (head_render (fun v hv => (hws' v hv).1) hhead' ht') e₁
    obtain ⟨rfl, rfl⟩ := render_inj hws htail ht hws' htail' ht' e₂
    exact ⟨rfl, rfl⟩

/-- **A text is a line of the grammar in one way at most.** -/
theorem Sentence.text_injective : Function.Injective Sentence.text := by
  intro p q h
  obtain ⟨words, trail, hw, ha, ht⟩ := p
  obtain ⟨words', trail', hw', ha', ht'⟩ := q
  obtain ⟨rfl, rfl⟩ := render_inj hw ha ht hw' ha' ht' h
  rfl

/-! ### The scan -/

theorem Sentence.exists_cons (p : Sentence) {gap : Bytes} {word : Word} (hg : Gap gap)
    (hw : word.Ok) (hp : p.text.head?.all isSpace = true) :
    ∃ q : Sentence, q.text = gap ++ (word.text ++ p.text) ∧ q.tokens = word.value :: p.tokens := by
  have hwords : ∀ w ∈ (gap, word) :: p.words, Gap w.1 ∧ w.2.Ok := by
    intro w hmem
    rcases List.mem_cons.1 hmem with rfl | hmem
    · exact ⟨hg, hw⟩
    · exact p.words_ok w hmem
  have hapart : ∀ w ∈ p.words, w.1 ≠ [] := by
    intro w hmem hnil
    have hfirst := p.apart
    rw [Sentence.text] at hp
    cases hwords : p.words with
    | nil => rw [hwords] at hmem; cases hmem
    | cons v words =>
      rw [hwords] at hmem hfirst hp
      rcases List.mem_cons.1 hmem with rfl | hmem
      · -- a word does not begin with a blank itself
        obtain ⟨c, rest, hc, hsp⟩ := (p.words_ok w (by rw [hwords]; exact .head _)).2.head
        rw [render, hnil, hc] at hp
        rw [show isSpace c = true from hp] at hsp
        cases hsp
      · exact hfirst w hmem hnil
  exact ⟨⟨(gap, word) :: p.words, p.trail, hwords, hapart, p.trail_blank⟩, rfl, rfl⟩

/-- How a scan comes out: with the tokens of a line of the grammar or with an error. -/
def Scanned (text : Bytes) (result : Except Bytes (List Bytes)) : Prop :=
  (∃ p : Sentence, p.text = text ∧ result = .ok p.tokens) ∨ result = .error unbalancedQuotes

theorem Scanned.cons {text gap rest : Bytes} {w : Word} {result : Except Bytes (List Bytes)}
    (h : Scanned rest result) (hg : Gap gap) (hw : w.Ok)
    (hr : rest.head?.all isSpace = true) (ht : text = gap ++ (w.text ++ rest)) :
    Scanned text (result.map (w.value :: ·)) := by
  rcases h with ⟨p, rfl, rfl⟩ | rfl
  · obtain ⟨q, hq, hqt⟩ := p.exists_cons hg hw hr
    exact .inl ⟨q, hq.trans ht.symm, by rw [hqt]; rfl⟩
  · exact .inr rfl

theorem bare_ok {c : UInt8} (hc : isSpace c = false) (hq : c ≠ Ascii.quote) (tail : Bytes) :
    (Word.bare ((c :: tail).takeWhile (!isSpace ·))).Ok ∧
      ((c :: tail).dropWhile (!isSpace ·)).head?.all isSpace = true := by
  constructor
  · rw [List.takeWhile_cons_of_pos (by simp [hc])]
    refine ⟨List.cons_ne_nil _ _, fun b hb => ?_, fun e => hq (Option.some.inj e)⟩
    rw [← isSpace_eq_false]
    rcases List.mem_cons.1 hb with rfl | hb
    · exact hc
    · simpa using List.mem_takeWhile_imp hb
  · have := List.head?_dropWhile_not (fun b => !isSpace b) (c :: tail)
    cases hh : ((c :: tail).dropWhile (!isSpace ·)).head? with
    | none => rfl
    | some b => rw [hh] at this; simpa using this

theorem tokenizeLoop_scanned : ∀ (fuel : Nat) (text : Bytes), text.length < fuel →
    Scanned text (tokenizeLoop fuel text)
  | 0, _, h => absurd h (Nat.not_lt_zero _)
  | fuel + 1, text, h => by
    have hsplit : text.takeWhile isSpace ++ text.dropWhile isSpace = text :=
      List.takeWhile_append_dropWhile
    have hgap : Gap (text.takeWhile isSpace) := fun c hc =>
      isSpace_iff.1 (List.mem_takeWhile_imp hc)
    have hlen := congrArg List.length hsplit
    rw [List.length_append] at hlen
    rw [tokenizeLoop]
    cases hd : text.dropWhile isSpace with
    | nil =>
      rw [hd, List.append_nil] at hsplit
      exact .inl
        ⟨⟨[], _, (fun w hw => by cases hw), (fun w hw => by cases hw), hgap⟩, hsplit, rfl⟩
    | cons c tail =>
      rw [hd] at hsplit hlen
      have hc : isSpace c = false := by
        have := List.head?_dropWhile_not isSpace text
        rw [hd] at this
        simpa using this
      dsimp only
      by_cases hq : c = Ascii.quote
      · subst hq
        rw [if_pos rfl]
        cases hr : readQuoted tail with
        | none => exact .inr rfl
        | some r =>
          obtain ⟨items, hitems, htail, hvalue⟩ := readQuoted_sound tail hr
          dsimp only
          cases ha : r.2.head?.all isSpace with
          | false => exact .inr (if_neg (by decide))
          | true =>
            have hshort := congrArg List.length htail
            rw [List.length_append, List.length_cons] at hshort
            rw [List.length_cons] at hlen
            have ih := tokenizeLoop_scanned fuel r.2 (by omega)
            rw [if_pos rfl, ← hvalue]
            refine ih.cons (w := .quoted items) hgap hitems ha (hsplit.symm.trans ?_)
            rw [htail]
            simp [Word.text]
      · rw [if_neg hq]
        obtain ⟨hword, ha⟩ := bare_ok hc hq tail
        have hrest : (c :: tail).takeWhile (!isSpace ·) ++ (c :: tail).dropWhile (!isSpace ·) =
            c :: tail := List.takeWhile_append_dropWhile
        have hpos := List.length_pos_iff.2 hword.1
        have hshort := congrArg List.length hrest
        rw [List.length_append] at hshort
        have ih := tokenizeLoop_scanned fuel ((c :: tail).dropWhile (!isSpace ·)) (by omega)
        exact ih.cons hgap hword ha (hsplit.symm.trans (congrArg _ hrest.symm))

theorem tokenizeLoop_sentence (p : Sentence) {fuel : Nat} (h : p.text.length < fuel) :
    tokenizeLoop fuel p.text = .ok p.tokens :=
  (spelled_render p.words_ok p.apart p.trail_blank).tokenizeLoop_eq h

theorem tokenize_sentence {line : Bytes} {p : Sentence} (hp : p.text = stripLineEnd line) :
    tokenize line = .ok p.tokens := by
  unfold tokenize
  simp only [← hp]
  exact tokenizeLoop_sentence p (by omega)

/-- The line end is the whole trailing run of CR and LF. -/
theorem stripLineEnd_spec (line : Bytes) : ∃ lineEnd, line = stripLineEnd line ++ lineEnd ∧
    (∀ c ∈ lineEnd, c ∈ lineEnds) ∧ ∀ c ∈ (stripLineEnd line).getLast?, c ∉ lineEnds := by
  refine ⟨(line.reverse.takeWhile isLineEnd).reverse, ?_, fun c hc => ?_, fun c hc => ?_⟩
  · rw [stripLineEnd, ← List.reverse_append, List.takeWhile_append_dropWhile, List.reverse_reverse]
  · exact isLineEnd_iff.1 (List.mem_takeWhile_imp (List.mem_reverse.1 hc))
  · rw [stripLineEnd, List.getLast?_reverse] at hc
    have := List.head?_dropWhile_not isLineEnd line.reverse
    rw [show _ = some c from hc] at this
    rw [← isLineEnd_iff]
    simpa using this

/-- **The tokenizer accepts exactly its grammar.** It returns the tokens of the one way to read
the line without its line end as a line of the grammar, and reports an error when there is
none; the scan ends in no more rounds than the line is long. -/
theorem tokenize_iff_grammar (line : Bytes) :
    (∃ lineEnd, line = stripLineEnd line ++ lineEnd ∧ (∀ c ∈ lineEnd, c ∈ lineEnds) ∧
      ∀ c ∈ (stripLineEnd line).getLast?, c ∉ lineEnds) ∧
    (∀ tokens, tokenize line = .ok tokens ↔
      ∃ p : Sentence, p.text = stripLineEnd line ∧ p.tokens = tokens) ∧
    ((¬ ∃ p : Sentence, p.text = stripLineEnd line) → tokenize line = .error unbalancedQuotes) ∧
    (∀ p q : Sentence, p.text = stripLineEnd line → q.text = stripLineEnd line → p = q) ∧
    (∀ fuel, (stripLineEnd line).length < fuel →
      tokenizeLoop fuel (stripLineEnd line) = tokenize line) := by
  have hcases :=
    tokenizeLoop_scanned ((stripLineEnd line).length + 1) (stripLineEnd line) (by omega)
  refine ⟨stripLineEnd_spec line, fun tokens => ⟨fun h => ?_, ?_⟩, fun hno => ?_,
    fun p q hp hq => Sentence.text_injective (hp.trans hq.symm), fun fuel hf => ?_⟩
  · rcases hcases with ⟨p, hp, e⟩ | e
    · have hok : Except.ok p.tokens = Except.ok tokens := (tokenize_sentence hp).symm.trans h
      exact ⟨p, hp, Except.ok.inj hok⟩
    · exact absurd (e.symm.trans h) (by simp)
  · rintro ⟨p, hp, rfl⟩
    exact tokenize_sentence hp
  · rcases hcases with ⟨p, hp, -⟩ | e
    · exact absurd ⟨p, hp⟩ hno
    · exact e
  · rcases tokenizeLoop_scanned fuel _ hf with ⟨p, hp, e⟩ | e
    · rw [e, tokenize_sentence hp]
    · rcases hcases with ⟨p, hp, -⟩ | e'
      · rw [← hp, tokenizeLoop_sentence p (by rw [hp]; exact hf)] at e
        cases e
      · exact e.trans e'.symm

end VCache.CommandParser
