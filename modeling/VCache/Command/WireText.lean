import VCache.Command.Executor
import VCache.Command.Tokens

/-!
# Escaping and parsing

`escapeForWire` writes a quoted spelling of any byte string, so every command has a line
that parses to it.
-/

namespace VCache

namespace CommandExecutor

open CommandParser Lib

/-! ### One byte -/

theorem forall_byte {p : UInt8 → Prop} (h : ∀ n < 256, p (UInt8.ofNat n)) (c : UInt8) : p c := by
  have := h c.toNat c.toNat_lt
  rwa [UInt8.ofNat_toNat] at this

theorem hexDigit_spec (c : UInt8) :
    isHexDigit (hexDigit (c >>> 4)) = true ∧ isHexDigit (hexDigit (c &&& 0x0f)) = true ∧
      hexValue (hexDigit (c >>> 4)) * 16 + hexValue (hexDigit (c &&& 0x0f)) = c := by
  revert c
  exact forall_byte (by decide +kernel)

theorem readQuoted_escapeByte (c : UInt8) (tail : Bytes) :
    readQuoted (escapeByte c ++ tail) = (readQuoted tail).map fun r => (c :: r.1, r.2) := by
  unfold escapeByte
  split
  next h => subst h; exact readQuoted_escape (by decide) tail
  next hb =>
    split
    next h => subst h; exact readQuoted_escape (by decide) tail
    split
    next h => subst h; exact readQuoted_escape (by decide) tail
    split
    next h => subst h; exact readQuoted_escape (by decide) tail
    split
    next h => subst h; exact readQuoted_escape (by decide) tail
    next hq =>
      split
      · obtain ⟨hh, hl, hv⟩ := hexDigit_spec c
        have := readQuoted_hex hh hl tail
        rwa [hv] at this
      · exact readQuoted_plain hb hq tail

/-! ### Byte strings -/

theorem quotes_escapeForWire : ∀ raw : Bytes, Quotes (escapeForWire raw) raw
  | [], rest => by
    exact readQuoted_quote rest
  | c :: raw, rest => by
    show readQuoted ((escapeByte c ++ escapeForWire raw) ++ Ascii.quote :: rest) = _
    rw [List.append_assoc, readQuoted_escapeByte, quotes_escapeForWire raw rest]
    rfl

theorem escapeForWire_injective : Function.Injective escapeForWire := by
  intro a b h
  have ha := quotes_escapeForWire a []
  rw [h, quotes_escapeForWire b []] at ha
  exact (congrArg Prod.fst (Option.some.inj ha)).symm

def isPrintable (c : UInt8) : Bool := 0x20 ≤ c && c ≤ 0x7e

theorem printable_escapeByte (c : UInt8) : (escapeByte c).all isPrintable = true := by
  revert c
  exact forall_byte (by decide +kernel)

theorem printable_escapeForWire {raw : Bytes} : ∀ b ∈ escapeForWire raw, isPrintable b = true := by
  intro b hb
  obtain ⟨c, -, hc⟩ := List.mem_flatMap.1 hb
  exact List.all_eq_true.1 (printable_escapeByte c) b hc

def quoted (raw : Bytes) : Bytes := Ascii.quote :: escapeForWire raw ++ [Ascii.quote]

theorem spells_quoted (raw : Bytes) : Spells raw (quoted raw) ∧ Clean (quoted raw) := by
  refine ⟨.quoted (quotes_escapeForWire raw), fun c hc => ?_⟩
  rw [quoted, List.getLast?_concat, Option.mem_some_iff] at hc
  rw [← hc]
  decide

/-! ### Words -/

/-- `text` is `word`, a word in capitals, in some mix of cases. -/
def CaseOf (word text : Bytes) : Prop :=
  List.Forall₂ (fun w c => c = w ∨ c = w + 32) word text

def isCapital (c : UInt8) : Bool := 65 ≤ c && c ≤ 90

theorem isCapital_spec {w c : UInt8} (hw : isCapital w = true) (h : c = w ∨ c = w + 32) :
    (if 97 ≤ c && c ≤ 122 then c - 97 + 65 else c) = w ∧ isSpace c = false ∧ c ≠ Ascii.quote ∧
      isLineEnd c = false := by
  have key : ∀ w : UInt8, isCapital w = true → ∀ c, c = w ∨ c = w + 32 →
      (if 97 ≤ c && c ≤ 122 then c - 97 + 65 else c) = w ∧ isSpace c = false ∧
        c ≠ Ascii.quote ∧ isLineEnd c = false := by
    intro w
    simp only [forall_eq_or_imp, forall_eq]
    revert w
    exact forall_byte (by decide +kernel)
  exact key w hw c h

theorem CaseOf.toUpperAscii {word text : Bytes} (hw : word.all isCapital = true)
    (h : CaseOf word text) : toUpperAscii text = word := by
  unfold CaseOf at h
  induction h with
  | nil => rfl
  | cons hc _ ih =>
    rw [List.all_cons, Bool.and_eq_true] at hw
    have hd := (isCapital_spec hw.1 hc).1
    have tl := ih hw.2
    unfold CommandParser.toUpperAscii at tl ⊢
    rw [List.map_cons, hd, tl]

theorem CaseOf.letters {word text : Bytes} (hw : word.all isCapital = true) (h : CaseOf word text) :
    ∀ b ∈ text, isSpace b = false ∧ b ≠ Ascii.quote ∧ isLineEnd b = false := by
  unfold CaseOf at h
  induction h with
  | nil => simp
  | cons hc _ ih =>
    rw [List.all_cons, Bool.and_eq_true] at hw
    intro b hb
    rcases List.mem_cons.1 hb with rfl | hb
    · exact (isCapital_spec hw.1 hc).2
    · exact ih hw.2 b hb

theorem spells_self {text : Bytes} (hne : text ≠ [])
    (h : ∀ b ∈ text, isSpace b = false ∧ b ≠ Ascii.quote ∧ isLineEnd b = false) :
    Spells text text ∧ Clean text := by
  refine ⟨?_, clean_of_forall fun c hc => (h c hc).2.2⟩
  cases text with
  | nil => exact absurd rfl hne
  | cons c text => exact .bare (h c (.head _)).2.1 fun b hb => (h b hb).1

theorem CaseOf.spells {word text : Bytes} (hne : word ≠ []) (hw : word.all isCapital = true)
    (h : CaseOf word text) : Spells text text ∧ Clean text := by
  refine spells_self ?_ (h.letters hw)
  unfold CaseOf at h
  rintro rfl
  cases h
  exact hne rfl

/-! ### Numbers -/

theorem isDigit_spec {c : UInt8} (h : isDigit c = true) :
    c ≠ 45 ∧ isSpace c = false ∧ c ≠ Ascii.quote ∧ isLineEnd c = false := by
  have key : ∀ c : UInt8, isDigit c = true →
      c ≠ 45 ∧ isSpace c = false ∧ c ≠ Ascii.quote ∧ isLineEnd c = false :=
    forall_byte (by decide +kernel)
  exact key c h

theorem spells_decimal (n : Nat) : Spells (decimal n) (decimal n) ∧ Clean (decimal n) :=
  spells_self (decimal_ne_nil n) fun _ hc => (isDigit_spec (isDigit_of_mem_decimal hc)).2

theorem parseInt64_decimal {n : Nat} (h : n < 2 ^ 63) :
    parseInt64 (decimal n) = some (n : Int) := by
  have hd : ∀ c ∈ decimal n, isDigit c = true := fun c => isDigit_of_mem_decimal
  have hv := decimalValue_decimal n
  have hall : (decimal n).all isDigit = true := List.all_eq_true.2 hd
  have hneg : ((decimal n).head? == some 45) = false := by
    cases hn : decimal n with
    | nil => rfl
    | cons c text =>
      rw [hn] at hd
      simpa using (isDigit_spec (hd c (.head _))).1
  have hne : (decimal n).isEmpty = false := by simpa using decimal_ne_nil n
  unfold parseInt64
  simp only [hneg, hne, hall, hv, Bool.false_eq_true, if_false, Bool.not_true, Bool.or_self]
  rw [if_pos (by omega)]

/-! ### Commands -/

theorem parse_set (l : Layout) (k v : Bytes) {set : Bytes} (hset : CaseOf (bytes "SET") set) :
    parse (l.line [set, quoted k, quoted v])
      = .ok { type := .set, key := k, value := v, expireSeconds := none } := by
  have hs := hset.spells (by decide) (by decide)
  rw [l.parse_line (.cons hs.1 (.cons (spells_quoted k).1 (.cons (spells_quoted v).1 .nil)))
    (by simp [hs.2, spells_quoted])]
  rw [parseTokens, hset.toUpperAscii (by decide)]
  rfl

theorem parse_set_ex (l : Layout) (k v : Bytes) {n : Nat} (hn : 1 ≤ n)
    (hmax : (n : Int) ≤ kMaxExpireSeconds) {set ex : Bytes} (hset : CaseOf (bytes "SET") set)
    (hex : CaseOf (bytes "EX") ex) :
    parse (l.line [set, quoted k, quoted v, ex, decimal n])
      = .ok { type := .set, key := k, value := v, expireSeconds := some n } := by
  have hs := hset.spells (by decide) (by decide)
  have he := hex.spells (by decide) (by decide)
  rw [l.parse_line (.cons hs.1 (.cons (spells_quoted k).1 (.cons (spells_quoted v).1
    (.cons he.1 (.cons (spells_decimal n).1 .nil))))) (by simp [hs.2, he.2, spells_quoted,
      spells_decimal])]
  have hlt : n < 2 ^ 63 := by
    unfold kMaxExpireSeconds at hmax
    omega
  rw [parseTokens, hset.toUpperAscii (by decide)]
  show parseExpiry [k, v, ex, decimal n] { type := .set, key := k, value := v } = _
  rw [parseExpiry, hex.toUpperAscii (by decide), if_neg (by simp)]
  simp only [parseInt64_decimal hlt]
  rw [if_neg (by omega)]

def keyed : List (Bytes × CommandType) :=
  [(bytes "GET", .get), (bytes "DEL", .del), (bytes "EXISTS", .exists)]

theorem parse_keyed (l : Layout) (k : Bytes) {word verb : Bytes} {type : CommandType}
    (hmem : (word, type) ∈ keyed) (hverb : CaseOf word verb) :
    parse (l.line [verb, quoted k]) = .ok { type := type, key := k } := by
  have hw : word ≠ [] ∧ word.all isCapital = true := by
    have key : ∀ p ∈ keyed, p.1 ≠ [] ∧ p.1.all isCapital = true := by decide
    exact key _ hmem
  have hv := hverb.spells hw.1 hw.2
  rw [l.parse_line (.cons hv.1 (.cons (spells_quoted k).1 .nil)) (by simp [hv.2, spells_quoted])]
  rw [parseTokens, hverb.toUpperAscii hw.2]
  simp only [keyed, List.mem_cons, Prod.mk.injEq, List.not_mem_nil, or_false] at hmem
  rcases hmem with ⟨rfl, rfl⟩ | ⟨rfl, rfl⟩ | ⟨rfl, rfl⟩ <;> rfl

/-- Every `SET`, `GET`, `DEL` and `EXISTS` has a line in every layout and in every mix of
cases that parses to it; what `GET` prints, put back in quotes, is the stored value. -/
theorem wire_text_expresses (l : Layout) (k v : Bytes) {n : Nat} (hn : 1 ≤ n)
    (hmax : (n : Int) ≤ kMaxExpireSeconds) {set ex : Bytes} (hset : CaseOf (bytes "SET") set)
    (hex : CaseOf (bytes "EX") ex) :
    parse (l.line [set, quoted k, quoted v])
      = .ok { type := .set, key := k, value := v, expireSeconds := none } ∧
    parse (l.line [set, quoted k, quoted v, ex, decimal n])
      = .ok { type := .set, key := k, value := v, expireSeconds := some n } ∧
    (∀ word verb type, (word, type) ∈ keyed → CaseOf word verb →
      parse (l.line [verb, quoted k])
        = .ok { type := type, key := k, value := [], expireSeconds := none }) ∧
    (∀ b ∈ escapeForWire k, 0x20 ≤ b ∧ b ≤ 0x7e) ∧
    Function.Injective escapeForWire ∧
    (∀ (db : Database) (env : Env) (get value : Bytes), CaseOf (bytes "GET") get →
      (db.get k (env.now 0)).2 = some value →
      ∃ payload, (execute db (l.line [get, quoted k]) env).2 = some (Protocol.value payload) ∧
        parse (l.line [set, quoted k, Ascii.quote :: payload ++ [Ascii.quote]])
          = .ok { type := .set, key := k, value := value, expireSeconds := none }) := by
  refine ⟨parse_set l k v hset, parse_set_ex l k v hn hmax hset hex,
    fun _ _ _ hmem hverb => parse_keyed l k hmem hverb,
    fun b hb => by simpa [isPrintable] using printable_escapeForWire b hb,
    escapeForWire_injective, fun db env get value hget hv => ?_⟩
  refine ⟨escapeForWire value, ?_, parse_set l k value hset⟩
  unfold execute
  rw [parse_keyed l k (by decide : (bytes "GET", CommandType.get) ∈ keyed) hget]
  simp only [run, request, Database.step, Prod.map, hv, respond]

/-- A tab before the verb, two spaces between words, CR LF at the end. -/
def telnet : Layout where
  gap i := if i = 0 then [Ascii.tab] else [Ascii.space, Ascii.space]
  trail := [Ascii.space]
  lineEnd := [Ascii.cr, Ascii.lf]
  gap_blank i := by
    split
    · exact List.all_eq_true.1 rfl
    · exact List.all_eq_true.1 rfl
  gap_ne i := by simp
  trail_blank := List.all_eq_true.1 rfl
  lineEnd_spec := List.all_eq_true.1 rfl

theorem wire_text_expresses_telnet :
    parse (telnet.line [bytes "sEt", quoted [0, 34, 10], quoted [], bytes "eX", decimal 60])
      = .ok { type := .set, key := [0, 34, 10], value := [], expireSeconds := some 60 } := by
  have hset : CaseOf (bytes "SET") (bytes "sEt") :=
    .cons (by decide) (.cons (by decide) (.cons (by decide) .nil))
  have hex : CaseOf (bytes "EX") (bytes "eX") := .cons (by decide) (.cons (by decide) .nil)
  exact (wire_text_expresses telnet [0, 34, 10] [] (by decide : 1 ≤ 60) (by decide) hset hex).2.1

end CommandExecutor

end VCache
