import Mathlib.Data.List.TakeWhile
import VCache.Command.Parser
import VCache.Server.Start

/-!
# The options of the server

`parseByteSize`, `parseArguments` and the check `main` makes before it starts a server. What
is accepted is said again as a grammar of the command line. The numbers are those of
`std::stoi` and `std::stoll`, which skip blanks and take a sign, and the whole text has to be
one number. An empty interval is accepted too: it throws, and nothing is left over. Seconds
become milliseconds without a check, so an interval of more than 9223372036854775 seconds is
accepted and wraps around.
-/

namespace VCache

open VCache.Lib

namespace ServerMain

/-! ### Numbers -/

def isBlank (c : UInt8) : Bool := c == 32 || (9 ≤ c && c ≤ 13)

/-- The number at the front of a text and how far it goes; `none` without a digit. -/
def readInteger (text : Bytes) : Option (Int × Nat) :=
  let rest := text.dropWhile isBlank
  let unsigned := if rest.head? = some 43 ∨ rest.head? = some 45 then rest.tail else rest
  let digits := unsigned.takeWhile isDigit
  if digits.isEmpty then none
  else
    some (if rest.head? = some 45 then -(decimalValue digits : Int) else decimalValue digits,
      text.length - (unsigned.dropWhile isDigit).length)

/-- `std::stoi` and `std::stoll`, by the bits of their result; `none` where they throw. -/
def stoInteger (bits : Nat) (text : Bytes) : Option (Int × Nat) :=
  match readInteger text with
  | none => none
  | some (value, consumed) =>
    if -2 ^ (bits - 1) ≤ value ∧ value < 2 ^ (bits - 1) then some (value, consumed) else none

def stoi (text : Bytes) : Option (Int × Nat) := stoInteger 32 text

def stoll (text : Bytes) : Option (Int × Nat) := stoInteger 64 text

/-- `std::stoull` of a run of digits. -/
def stoull (digits : Bytes) : Option Nat :=
  if decimalValue digits < 2 ^ 64 then some (decimalValue digits) else none

/-- The suffixes of a size and what they stand for. -/
def multipliers : List (Bytes × Nat) :=
  [(bytes "", 1), (bytes "B", 1), (bytes "K", 1024), (bytes "KB", 1024),
    (bytes "M", 1024 * 1024), (bytes "MB", 1024 * 1024),
    (bytes "G", 1024 * 1024 * 1024), (bytes "GB", 1024 * 1024 * 1024)]

def parseByteSize (text : Bytes) : Option Nat :=
  let digits := text.takeWhile isDigit
  if digits.isEmpty then none
  else
    match multipliers.lookup (CommandParser.toUpperAscii (text.dropWhile isDigit)) with
    | none => none
    | some multiplier =>
      match stoull digits with
      | none => none
      | some number =>
        if number > (2 ^ 64 - 1) / multiplier then none else some (number * multiplier)

/-! ### Options -/

/-- The configuration with what `main` hands on besides. -/
structure Options extends ServerConfig where
  port : Nat := 6379
  threadCount : Nat := 64
  shardCount : Nat := 64

inductive Parsed where
  | options (o : Options)
  | help
  | error (text : Bytes)

def valued : List Bytes :=
  [bytes "--port", bytes "--bind", bytes "--threads", bytes "--dbfile", bytes "--save-interval",
    bytes "--max-memory", bytes "--shards"]

def invalid (argument value : Bytes) : Bytes :=
  bytes "error: invalid value for " ++ argument ++ bytes ": '" ++ value ++ bytes "'"

/-- The number of a port, of threads or of shards. -/
def boundedNumber (argument value : Bytes) (minimum maximum : Nat) : Except Bytes Nat :=
  match stoi value with
  | none => .error (invalid argument value ++ bytes "\n")
  | some (number, consumed) =>
    if consumed ≠ value.length then .error (invalid argument value ++ bytes "\n")
    else if number < minimum ∨ number > maximum then
      .error (bytes "error: " ++ argument ++ bytes " must be between " ++ decimal minimum ++
        bytes " and " ++ decimal maximum ++ bytes "\n")
    else .ok number.toNat

/-- The seconds of an interval. An exception leaves `seconds` and `consumed` zero. -/
def intervalSeconds (value : Bytes) : Option Int :=
  let r := (stoll value).getD (0, 0)
  if r.2 ≠ value.length ∨ r.1 < 0 then none else some r.1

/-- `std::chrono::milliseconds` of `std::chrono::seconds`, in 64 bits. -/
def intervalMillis (seconds : Int) : Int := wrap64 (seconds * 1000)

/-- A value for one of the options that take one. -/
def assign (o : Options) (argument value : Bytes) : Parsed :=
  if argument = bytes "--bind" then .options { o with bindAddress := value }
  else if argument = bytes "--dbfile" then .options { o with snapshotPath := value }
  else if argument = bytes "--max-memory" then
    match parseByteSize value with
    | none => .error (invalid argument value ++
        bytes " (expected e.g. 100MB, 512kb, or a byte count)\n")
    | some size => .options { o with maxMemoryBytes := size }
  else if argument = bytes "--save-interval" then
    match intervalSeconds value with
    | none => .error (invalid argument value ++ bytes "\n")
    | some seconds => .options { o with saveInterval := intervalMillis seconds }
  else if argument = bytes "--port" then
    match boundedNumber argument value 0 65535 with
    | .error text => .error text
    | .ok number => .options { o with port := number }
  else
    match boundedNumber argument value 1 4096 with
    | .error text => .error text
    | .ok number =>
      if argument = bytes "--shards" then .options { o with shardCount := number }
      else .options { o with threadCount := number }

def parseArguments (o : Options) : List Bytes → Parsed
  | [] => .options o
  | argument :: rest =>
    if argument = bytes "--help" ∨ argument = bytes "-h" then .help
    else if argument ∈ valued then
      match rest with
      | [] => .error (bytes "error: " ++ argument ++ bytes " requires a value\n")
      | value :: rest =>
        match assign o argument value with
        | .options o' => parseArguments o' rest
        | p => p
    else .error (bytes "error: unknown option '" ++ argument ++ bytes "'\n\n")

/-- The options with which `main` makes its database and its server. -/
def options (arguments : List Bytes) : Parsed :=
  match parseArguments {} arguments with
  | .options o =>
    if o.saveInterval > 0 ∧ o.snapshotPath = [] then
      .error (bytes "error: --save-interval requires --dbfile\n")
    else .options o
  | p => p

/-! ### The grammar of a number -/

/-- Blanks, a sign or none, and digits. -/
structure Numeral (text : Bytes) (value : Int) : Prop where
  spelled : ∃ blanks sign digits, text = blanks ++ (sign ++ digits) ∧
    (∀ c ∈ blanks, isBlank c = true) ∧ digits ≠ [] ∧ (∀ c ∈ digits, isDigit c = true) ∧
    ((sign = [] ∨ sign = [43]) ∧ value = decimalValue digits ∨
      sign = [45] ∧ value = -(decimalValue digits : Int))

theorem isDigit_iff {c : UInt8} : isDigit c = true ↔ 48 ≤ c.toNat ∧ c.toNat ≤ 57 := by
  simp only [isDigit, Bool.and_eq_true, decide_eq_true_eq, UInt8.le_iff_toNat_le]
  rfl

theorem not_isBlank_of_isDigit {c : UInt8} (h : isDigit c = true) : isBlank c = false := by
  rw [isDigit_iff] at h
  simp only [isBlank, Bool.or_eq_false_iff, beq_eq_false_iff_ne, ne_eq, Bool.and_eq_false_iff,
    decide_eq_false_iff_not, UInt8.le_iff_toNat_le, ← UInt8.toNat_inj]
  have h32 : (32 : UInt8).toNat = 32 := rfl
  have h13 : (13 : UInt8).toNat = 13 := rfl
  omega

theorem takeWhile_all {p : UInt8 → Bool} {l : Bytes} (h : ∀ c ∈ l, p c = true) :
    l.takeWhile p = l ∧ l.dropWhile p = [] := by
  constructor
  · exact List.takeWhile_eq_self_iff.2 h
  · exact List.dropWhile_eq_nil_iff.2 h

theorem signed_cases (rest : Bytes) : ∃ sign,
    rest = sign ++ (if rest.head? = some 43 ∨ rest.head? = some 45 then rest.tail else rest) ∧
      (rest.head? ≠ some 45 ∧ (sign = [] ∨ sign = [43]) ∨ rest.head? = some 45 ∧ sign = [45]) := by
  cases rest with
  | nil => exact ⟨[], rfl, .inl ⟨(fun h => by cases h), .inl rfl⟩⟩
  | cons c rest =>
    by_cases hplus : c = 43
    · subst hplus
      exact ⟨[43], rfl, .inl ⟨(fun h => by cases h), .inr rfl⟩⟩
    · by_cases hminus : c = 45
      · subst hminus
        exact ⟨[45], rfl, .inr ⟨rfl, rfl⟩⟩
      · exact ⟨[], by simp [hplus, hminus], .inl ⟨by simp [hminus], .inl rfl⟩⟩

theorem unsigned_length_le (rest : Bytes) :
    (if rest.head? = some 43 ∨ rest.head? = some 45 then rest.tail else rest).length ≤
      rest.length := by
  split
  · rw [List.length_tail]
    omega
  · exact Nat.le_refl _

theorem readInteger_whole {text : Bytes} {value : Int} :
    readInteger text = some (value, text.length) ↔ Numeral text value := by
  constructor
  · intro h
    obtain ⟨sign, hrest, hsign⟩ := signed_cases (text.dropWhile isBlank)
    have hlen := unsigned_length_le (text.dropWhile isBlank)
    unfold readInteger at h
    dsimp only at h
    generalize (if (text.dropWhile isBlank).head? = some 43 ∨
      (text.dropWhile isBlank).head? = some 45 then (text.dropWhile isBlank).tail
      else text.dropWhile isBlank) = unsigned at h hrest hlen
    split at h
    · cases h
    next hne =>
      simp only [Option.some.injEq, Prod.mk.injEq] at h
      obtain ⟨hvalue, hall⟩ := h
      have hnil : unsigned.dropWhile isDigit = [] := by
        have h1 := List.length_dropWhile_le isBlank text
        have h2 := List.length_dropWhile_le isDigit unsigned
        exact List.length_eq_zero_iff.1 (by omega)
      have hdigits : unsigned.takeWhile isDigit = unsigned := by
        have := List.takeWhile_append_dropWhile (p := isDigit) (l := unsigned)
        rwa [hnil, List.append_nil] at this
      rw [hdigits] at hne hvalue
      refine ⟨text.takeWhile isBlank, sign, unsigned, ?_, fun c hc => List.mem_takeWhile_imp hc,
        fun h => hne (by rw [h]; rfl), List.dropWhile_eq_nil_iff.1 hnil, ?_⟩
      · rw [← hrest, List.takeWhile_append_dropWhile]
      · rcases hsign with ⟨hhead, hsign⟩ | ⟨hhead, hsign⟩
        · rw [if_neg hhead] at hvalue
          exact .inl ⟨hsign, hvalue.symm⟩
        · rw [if_pos hhead] at hvalue
          exact .inr ⟨hsign, hvalue.symm⟩
  · rintro ⟨blanks, sign, digits, rfl, hblanks, hne, hdigits, hsign⟩
    obtain ⟨c, digits', rfl⟩ := List.exists_cons_of_ne_nil hne
    have hc := hdigits c List.mem_cons_self
    have hblank := not_isBlank_of_isDigit hc
    have hhead : c ≠ 43 ∧ c ≠ 45 := by
      constructor <;> rintro rfl <;> exact absurd hc (by decide)
    obtain ⟨htake, hdrop⟩ := takeWhile_all hdigits
    have hrest : (blanks ++ (sign ++ c :: digits')).dropWhile isBlank = sign ++ c :: digits' := by
      rw [List.dropWhile_append_of_pos hblanks]
      rcases hsign with ⟨rfl | rfl, -⟩ | ⟨rfl, -⟩
      · simp [hblank]
      · rfl
      · rfl
    unfold readInteger
    rw [hrest]
    rcases hsign with ⟨rfl | rfl, rfl⟩ | ⟨rfl, rfl⟩
    · simp [hhead.1, hhead.2, htake, hdrop]
    · simp [htake, hdrop]
    · simp [htake, hdrop]

theorem stoInteger_whole {bits : Nat} {text : Bytes} {value : Int} :
    stoInteger bits text = some (value, text.length) ↔
      Numeral text value ∧ -2 ^ (bits - 1) ≤ value ∧ value < 2 ^ (bits - 1) := by
  rw [← readInteger_whole]
  unfold stoInteger
  cases readInteger text with
  | none => simp
  | some r =>
    obtain ⟨v, consumed⟩ := r
    dsimp only
    split
    next h =>
      simp only [Option.some.injEq, Prod.mk.injEq]
      constructor
      · rintro ⟨rfl, rfl⟩
        exact ⟨⟨rfl, rfl⟩, h⟩
      · exact fun h => h.1
    next h =>
      simp only [reduceCtorEq, false_iff, Option.some.injEq, Prod.mk.injEq]
      rintro ⟨⟨rfl, -⟩, hrange⟩
      exact h hrange

/-! ### The grammar of a size -/

/-- Digits and a suffix in any case, for a number of bytes that fits into 64 bits. -/
structure ByteSize (text : Bytes) (size : Nat) : Prop where
  spelled : ∃ digits suffix multiplier, text = digits ++ suffix ∧ digits ≠ [] ∧
    (∀ c ∈ digits, isDigit c = true) ∧
    (CommandParser.toUpperAscii suffix, multiplier) ∈ multipliers ∧
    size = decimalValue digits * multiplier
  fits : size < 2 ^ 64

theorem lookup_multipliers {suffix : Bytes} {multiplier : Nat} :
    multipliers.lookup suffix = some multiplier ↔ (suffix, multiplier) ∈ multipliers := by
  have hall : ∀ x ∈ multipliers, multipliers.lookup x.1 = some x.2 := by decide
  refine ⟨fun h => ?_, hall (suffix, multiplier)⟩
  obtain ⟨before, after, hsplit, -⟩ := List.lookup_eq_some_iff.1 h
  rw [hsplit]
  exact List.mem_append_right _ List.mem_cons_self

theorem multiplier_pos {suffix : Bytes} {multiplier : Nat}
    (h : (suffix, multiplier) ∈ multipliers) : 0 < multiplier := by
  have hall : ∀ x ∈ multipliers, 0 < x.2 := by decide
  exact hall (suffix, multiplier) h

theorem suffix_head {suffix : Bytes} {multiplier : Nat}
    (h : (CommandParser.toUpperAscii suffix, multiplier) ∈ multipliers) :
    ∀ c ∈ suffix.head?, isDigit c = false := by
  have hall : ∀ x ∈ multipliers, x.1.head?.all (fun c => !isDigit c) = true := by decide
  intro c hc
  cases suffix with
  | nil => cases hc
  | cons c' suffix =>
    cases hc
    cases hdigit : isDigit c with
    | false => rfl
    | true =>
      have hupper : (if 97 ≤ c && c ≤ 122 then c - 97 + 65 else c) = c := by
        refine if_neg fun hlower => ?_
        rw [Bool.and_eq_true, decide_eq_true_eq, UInt8.le_iff_toNat_le] at hlower
        have h97 : (97 : UInt8).toNat = 97 := rfl
        have := (isDigit_iff.1 hdigit).2
        omega
      have hnot := hall _ h
      simp only [CommandParser.toUpperAscii, List.map_cons, List.head?_cons, Option.all_some,
        hupper, hdigit] at hnot
      cases hnot

/-- **A size is accepted exactly when it is written as one and fits**, and then as its value. -/
theorem parseByteSize_eq_some {text : Bytes} {size : Nat} :
    parseByteSize text = some size ↔ ByteSize text size := by
  constructor
  · intro h
    unfold parseByteSize at h
    dsimp only at h
    split at h
    · cases h
    next hne =>
      split at h
      · cases h
      next multiplier hm =>
        split at h
        · cases h
        next number hn =>
          split at h
          · cases h
          next hle =>
            cases h
            rw [lookup_multipliers] at hm
            have hpos := multiplier_pos hm
            unfold stoull at hn
            split at hn
            next hfits =>
              cases hn
              refine ⟨⟨text.takeWhile isDigit, text.dropWhile isDigit, multiplier,
                List.takeWhile_append_dropWhile.symm, fun h => hne (by rw [h]; rfl),
                fun c hc => List.mem_takeWhile_imp hc, hm, rfl⟩, ?_⟩
              have := (Nat.le_div_iff_mul_le hpos).1 (Nat.le_of_not_lt hle)
              omega
            next => cases hn
  · rintro ⟨⟨digits, suffix, multiplier, rfl, hne, hdigits, hm, rfl⟩, hfits⟩
    have hpos := multiplier_pos hm
    have hhead := suffix_head hm
    have htake : (digits ++ suffix).takeWhile isDigit = digits := by
      rw [List.takeWhile_append_of_pos hdigits]
      cases suffix with
      | nil => exact List.append_nil _
      | cons c suffix => rw [List.takeWhile_cons, hhead c rfl]; exact List.append_nil _
    have hdrop : (digits ++ suffix).dropWhile isDigit = suffix := by
      rw [List.dropWhile_append_of_pos hdigits]
      cases suffix with
      | nil => rfl
      | cons c suffix => rw [List.dropWhile_cons, hhead c rfl]; rfl
    have hle : decimalValue digits ≤ (2 ^ 64 - 1) / multiplier :=
      (Nat.le_div_iff_mul_le hpos).2 (by omega)
    have hdigit : decimalValue digits < 2 ^ 64 :=
      Nat.lt_of_le_of_lt (Nat.le_mul_of_pos_right _ hpos) hfits
    unfold parseByteSize
    dsimp only
    rw [htake, hdrop, if_neg (by simpa using hne), lookup_multipliers.2 hm]
    simp only [stoull, if_pos hdigit]
    exact if_neg (Nat.not_lt_of_le hle)

/-! ### The grammar of the command line -/

theorem boundedNumber_eq_ok {argument value : Bytes} {minimum maximum n : Nat}
    (hmax : maximum < 2 ^ 31) :
    boundedNumber argument value minimum maximum = .ok n ↔
      Numeral value n ∧ minimum ≤ n ∧ n ≤ maximum := by
  unfold boundedNumber
  constructor
  · intro h
    split at h
    · cases h
    next number consumed hs =>
      split at h
      · cases h
      next hall =>
        split at h
        · cases h
        next hbounds =>
          cases h
          rw [Decidable.not_not.1 hall] at hs
          obtain ⟨hnum, -⟩ := stoInteger_whole.1 hs
          have hnat : ((number.toNat : Nat) : Int) = number := Int.toNat_of_nonneg (by omega)
          rw [hnat]
          exact ⟨hnum, by omega, by omega⟩
  · rintro ⟨hnum, hmin, hle⟩
    have hs : stoi value = some ((n : Int), value.length) :=
      stoInteger_whole.2 ⟨hnum, by omega, by omega⟩
    rw [hs]
    dsimp only
    rw [if_neg (fun h => h rfl), if_neg (by omega)]
    rfl

theorem intervalSeconds_eq_some {value : Bytes} {seconds : Int} :
    intervalSeconds value = some seconds ↔
      0 ≤ seconds ∧ seconds < 2 ^ 63 ∧ (value = [] ∧ seconds = 0 ∨ Numeral value seconds) := by
  unfold intervalSeconds
  dsimp only
  cases hs : stoll value with
  | none =>
    simp only [Option.getD_none]
    constructor
    · intro h
      split at h
      · cases h
      next hok =>
        cases h
        refine ⟨Int.le_refl _, by decide, .inl ⟨?_, rfl⟩⟩
        exact List.length_eq_zero_iff.1 (by omega)
    · rintro ⟨hpos, hlt, ⟨rfl, rfl⟩ | hnum⟩
      · rfl
      · have := (@stoInteger_whole 64 value seconds).2 ⟨hnum, by omega, by omega⟩
        rw [show stoInteger 64 value = none from hs] at this
        cases this
  | some r =>
    obtain ⟨v, consumed⟩ := r
    simp only [Option.getD_some]
    constructor
    · intro h
      split at h
      · cases h
      next hok =>
        cases h
        have hall : consumed = value.length := by omega
        rw [hall] at hs
        obtain ⟨hnum, -, hlt⟩ := stoInteger_whole.1 hs
        exact ⟨by omega, hlt, .inr hnum⟩
    · rintro ⟨hpos, hlt, ⟨rfl, rfl⟩ | hnum⟩
      · cases hs
      · have hs' : stoll value = some (seconds, value.length) :=
          stoInteger_whole.2 ⟨hnum, by omega, by omega⟩
        rw [hs] at hs'
        cases hs'
        rw [if_neg (by omega)]

/-- What one option and its value do to the configuration. -/
inductive Sets : Bytes → Bytes → Options → Options → Prop where
  | bind {value : Bytes} {o : Options} :
      Sets (bytes "--bind") value o { o with bindAddress := value }
  | dbfile {value : Bytes} {o : Options} :
      Sets (bytes "--dbfile") value o { o with snapshotPath := value }
  | maxMemory {value : Bytes} {o : Options} {size : Nat} : ByteSize value size →
      Sets (bytes "--max-memory") value o { o with maxMemoryBytes := size }
  | saveInterval {value : Bytes} {o : Options} {seconds : Nat} {millis : Int} :
      value = [] ∧ seconds = 0 ∨ Numeral value seconds → seconds < 2 ^ 63 →
      millis = intervalMillis seconds →
      Sets (bytes "--save-interval") value o { o with saveInterval := millis }
  | port {value : Bytes} {o : Options} {n : Nat} : Numeral value n → n ≤ 65535 →
      Sets (bytes "--port") value o { o with port := n }
  | shards {value : Bytes} {o : Options} {n : Nat} : Numeral value n → 1 ≤ n → n ≤ 4096 →
      Sets (bytes "--shards") value o { o with shardCount := n }
  | threads {value : Bytes} {o : Options} {n : Nat} : Numeral value n → 1 ≤ n → n ≤ 4096 →
      Sets (bytes "--threads") value o { o with threadCount := n }

theorem Sets.valued {argument value : Bytes} {o o' : Options} (h : Sets argument value o o') :
    argument ∈ ServerMain.valued ∧ argument ≠ bytes "--help" ∧ argument ≠ bytes "-h" := by
  cases h <;> decide

theorem Sets.assign {argument value : Bytes} {o o' : Options} (h : Sets argument value o o') :
    ServerMain.assign o argument value = .options o' := by
  unfold ServerMain.assign
  cases h with
  | bind => rw [if_pos rfl]
  | dbfile => rw [if_neg (by decide), if_pos rfl]
  | maxMemory hsize =>
    rw [if_neg (by decide), if_neg (by decide), if_pos rfl, parseByteSize_eq_some.2 hsize]
  | @saveInterval _ _ seconds millis hnum hlt hmillis =>
    have hread : intervalSeconds value = some (seconds : Int) := by
      refine intervalSeconds_eq_some.2 ⟨Int.natCast_nonneg _, by omega, ?_⟩
      exact hnum.imp_left fun h => ⟨h.1, by rw [h.2]; rfl⟩
    rw [if_neg (by decide), if_neg (by decide), if_neg (by decide), if_pos rfl, hread, hmillis]
  | @port _ _ n hnum hle =>
    have hread := (@boundedNumber_eq_ok (bytes "--port") value 0 65535 n (by decide)).2
      ⟨hnum, Nat.zero_le n, hle⟩
    rw [if_neg (by decide), if_neg (by decide), if_neg (by decide), if_neg (by decide), if_pos rfl,
      hread]
  | @shards _ _ n hnum hge hle =>
    have hread := (@boundedNumber_eq_ok (bytes "--shards") value 1 4096 n (by decide)).2
      ⟨hnum, hge, hle⟩
    rw [if_neg (by decide), if_neg (by decide), if_neg (by decide), if_neg (by decide),
      if_neg (by decide), hread]
    exact if_pos rfl
  | @threads _ _ n hnum hge hle =>
    have hread := (@boundedNumber_eq_ok (bytes "--threads") value 1 4096 n (by decide)).2
      ⟨hnum, hge, hle⟩
    rw [if_neg (by decide), if_neg (by decide), if_neg (by decide), if_neg (by decide),
      if_neg (by decide), hread]
    exact if_neg (by decide)

theorem Sets.of_assign {argument value : Bytes} {o o' : Options}
    (hv : argument ∈ ServerMain.valued) (h : ServerMain.assign o argument value = .options o') :
    Sets argument value o o' := by
  have hnumber : ∀ {minimum maximum : Nat} {f : Nat → Parsed}, maximum < 2 ^ 31 →
      (match boundedNumber argument value minimum maximum with
        | .error text => Parsed.error text
        | .ok number => f number) = .options o' →
      ∃ n : Nat, Numeral value n ∧ minimum ≤ n ∧ n ≤ maximum ∧ f n = .options o' := by
    intro minimum maximum f hmax hf
    split at hf
    · cases hf
    next n hn =>
      obtain ⟨hnum, hge, hle⟩ := (boundedNumber_eq_ok hmax).1 hn
      exact ⟨n, hnum, hge, hle, hf⟩
  unfold ServerMain.assign at h
  simp only [ServerMain.valued, List.mem_cons, List.not_mem_nil, or_false] at hv
  rcases hv with rfl | rfl | rfl | rfl | rfl | rfl | rfl
  · rw [if_neg (by decide), if_neg (by decide), if_neg (by decide), if_neg (by decide),
      if_pos rfl] at h
    obtain ⟨n, hnum, -, hle, h⟩ := hnumber (by decide) h
    cases h
    exact .port hnum hle
  · rw [if_pos rfl] at h
    cases h
    exact .bind
  · rw [if_neg (by decide), if_neg (by decide), if_neg (by decide), if_neg (by decide),
      if_neg (by decide)] at h
    obtain ⟨n, hnum, hge, hle, h⟩ := hnumber (by decide) h
    rw [if_neg (by decide)] at h
    cases h
    exact .threads hnum hge hle
  · rw [if_neg (by decide), if_pos rfl] at h
    cases h
    exact .dbfile
  · rw [if_neg (by decide), if_neg (by decide), if_neg (by decide), if_pos rfl] at h
    split at h
    · cases h
    next seconds hs =>
      obtain ⟨hpos, hlt, hnum⟩ := intervalSeconds_eq_some.1 hs
      obtain ⟨n, rfl⟩ := Int.eq_ofNat_of_zero_le hpos
      cases h
      exact .saveInterval (hnum.imp_left fun h => ⟨h.1, by omega⟩) (by omega) rfl
  · rw [if_neg (by decide), if_neg (by decide), if_pos rfl] at h
    split at h
    · cases h
    next size hs =>
      cases h
      exact .maxMemory (parseByteSize_eq_some.1 hs)
  · rw [if_neg (by decide), if_neg (by decide), if_neg (by decide), if_neg (by decide),
      if_neg (by decide)] at h
    obtain ⟨n, hnum, hge, hle, h⟩ := hnumber (by decide) h
    rw [if_pos rfl] at h
    cases h
    exact .shards hnum hge hle

/-- Options and their values, one after the other; a later one overrides. -/
inductive Spelled : List Bytes → Options → Options → Prop where
  | nil {o : Options} : Spelled [] o o
  | cons {argument value : Bytes} {rest : List Bytes} {o o' o'' : Options} :
      Sets argument value o o' → Spelled rest o' o'' → Spelled (argument :: value :: rest) o o''

theorem Spelled.parse {arguments : List Bytes} {o o' : Options} (h : Spelled arguments o o') :
    parseArguments o arguments = .options o' := by
  induction h with
  | nil => rfl
  | cons hset _ ih =>
    obtain ⟨hv, hhelp, hh⟩ := hset.valued
    unfold parseArguments
    rw [if_neg (by simp [hhelp, hh]), if_pos hv]
    dsimp only
    rw [hset.assign]
    exact ih

theorem Spelled.of_parse : ∀ {arguments : List Bytes} {o o' : Options},
    parseArguments o arguments = .options o' → Spelled arguments o o'
  | [], _, _, h => by
    cases h
    exact .nil
  | [argument], _, _, h => by
    unfold parseArguments at h
    split at h
    · cases h
    · split at h <;> cases h
  | argument :: value :: rest, o, o', h => by
    unfold parseArguments at h
    split at h
    · cases h
    · split at h
      next hv =>
        dsimp only at h
        split at h
        next o₁ hassign => exact .cons (.of_assign hv hassign) (Spelled.of_parse h)
        next hnot => exact absurd h (hnot o')
      next => cases h

/-! ### What a server is started with -/

/-- What every accepted command line comes to. -/
structure Options.Bounded (o : Options) : Prop where
  port : o.port ≤ 65535
  threads : 1 ≤ o.threadCount ∧ o.threadCount ≤ 4096
  shards : 1 ≤ o.shardCount ∧ o.shardCount ≤ 4096
  memory : o.maxMemoryBytes < 2 ^ 64
  interval : ∃ seconds : Nat, seconds < 2 ^ 63 ∧ o.saveInterval = intervalMillis seconds

theorem Sets.bounded {argument value : Bytes} {o o' : Options} (h : Sets argument value o o')
    (hb : o.Bounded) : o'.Bounded := by
  cases h with
  | bind => exact ⟨hb.port, hb.threads, hb.shards, hb.memory, hb.interval⟩
  | dbfile => exact ⟨hb.port, hb.threads, hb.shards, hb.memory, hb.interval⟩
  | maxMemory hsize => exact ⟨hb.port, hb.threads, hb.shards, hsize.fits, hb.interval⟩
  | saveInterval _ hlt hmillis =>
    exact ⟨hb.port, hb.threads, hb.shards, hb.memory, _, hlt, hmillis⟩
  | port _ hle => exact ⟨hle, hb.threads, hb.shards, hb.memory, hb.interval⟩
  | shards _ hge hle => exact ⟨hb.port, hb.threads, ⟨hge, hle⟩, hb.memory, hb.interval⟩
  | threads _ hge hle => exact ⟨hb.port, ⟨hge, hle⟩, hb.shards, hb.memory, hb.interval⟩

theorem Spelled.bounded {arguments : List Bytes} {o o' : Options} (h : Spelled arguments o o')
    (hb : o.Bounded) : o'.Bounded := by
  induction h with
  | nil => exact hb
  | cons hset _ ih => exact ih (hset.bounded hb)

/-- The interval is the one that is spelled as long as its milliseconds fit. -/
theorem intervalMillis_eq_iff {seconds : Nat} :
    intervalMillis seconds = seconds * 1000 ↔ seconds * 1000 < 2 ^ 63 := by
  constructor
  · intro h
    have hrange := isInt64_wrap64 (seconds * 1000)
    rw [show wrap64 (seconds * 1000) = seconds * 1000 from h] at hrange
    unfold IsInt64 at hrange
    omega
  · intro h
    exact wrap64_eq_self ⟨by omega, by omega⟩

theorem options_eq_options {arguments : List Bytes} {o : Options} :
    options arguments = .options o ↔
      Spelled arguments {} o ∧ (0 < o.saveInterval → o.snapshotPath ≠ []) := by
  unfold options
  constructor
  · intro h
    split at h
    next o' hparse =>
      split at h
      · cases h
      next hsave =>
        cases h
        exact ⟨.of_parse hparse, fun hpos hpath => hsave ⟨hpos, hpath⟩⟩
    next hnot => exact absurd h (hnot o)
  · rintro ⟨hspelled, hsave⟩
    rw [hspelled.parse]
    exact if_neg fun h => hsave h.1 h.2

/-- An empty interval is taken for none. -/
example : options [bytes "--save-interval", []] = .options {} := by rfl

/-- Half a billion years are taken for 384 milliseconds. -/
example : intervalMillis 18446744073709552 = 384 := by decide

/-! ### Every configuration can be asked for -/

theorem numeral_decimal (n : Nat) : Numeral (decimal n) n :=
  ⟨[], [], decimal n, rfl, fun c hc => (by cases hc), decimal_ne_nil n,
    fun _ hc => isDigit_of_mem_decimal hc, .inl ⟨.inl rfl, by rw [decimalValue_decimal]⟩⟩

theorem byteSize_decimal {n : Nat} (h : n < 2 ^ 64) : ByteSize (decimal n) n := by
  refine ⟨⟨decimal n, [], 1, (List.append_nil _).symm, decimal_ne_nil n,
    fun _ hc => isDigit_of_mem_decimal hc, by decide, ?_⟩, h⟩
  rw [decimalValue_decimal, Nat.mul_one]

structure Options.InRange (o : Options) : Prop where
  port : o.port ≤ 65535
  threads : 1 ≤ o.threadCount ∧ o.threadCount ≤ 4096
  shards : 1 ≤ o.shardCount ∧ o.shardCount ≤ 4096
  memory : o.maxMemoryBytes < 2 ^ 64
  interval : ∃ seconds : Nat, o.saveInterval = seconds * 1000 ∧ seconds * 1000 < 2 ^ 63

/-- A command line for a configuration. -/
def Options.arguments (o : Options) : List Bytes :=
  [bytes "--port", decimal o.port, bytes "--bind", o.bindAddress,
    bytes "--threads", decimal o.threadCount, bytes "--dbfile", o.snapshotPath,
    bytes "--save-interval", decimal (o.saveInterval.toNat / 1000),
    bytes "--max-memory", decimal o.maxMemoryBytes, bytes "--shards", decimal o.shardCount]

/-- The fields that no option sets are as they are by default. -/
structure Options.Plain (o : Options) : Prop where
  sweepInterval : o.sweepInterval = ({} : ServerConfig).sweepInterval
  restoreOnStart : o.restoreOnStart = ({} : ServerConfig).restoreOnStart

/-- **Every configuration in range can be asked for**, and it is what the server gets. -/
theorem options_arguments {o : Options} (hr : o.InRange) (hplain : o.Plain)
    (hsave : 0 < o.saveInterval → o.snapshotPath ≠ []) :
    options o.arguments = .options o := by
  obtain ⟨seconds, hseconds, hlt⟩ := hr.interval
  have hdiv : o.saveInterval.toNat / 1000 = seconds := by omega
  have hspelled : Spelled o.arguments {} { o with
      sweepInterval := 100, restoreOnStart := true, saveInterval := seconds * 1000 } := by
    unfold Options.arguments
    rw [hdiv]
    exact .cons (.port (numeral_decimal o.port) hr.port) (.cons .bind
      (.cons (.threads (numeral_decimal o.threadCount) hr.threads.1 hr.threads.2) (.cons .dbfile
      (.cons (.saveInterval (.inr (numeral_decimal seconds)) (by omega)
        (intervalMillis_eq_iff.2 hlt).symm)
      (.cons (.maxMemory (byteSize_decimal hr.memory))
      (.cons (.shards (numeral_decimal o.shardCount) hr.shards.1 hr.shards.2) .nil))))))
  have hsame : { o with
      sweepInterval := 100, restoreOnStart := true, saveInterval := seconds * 1000 } = o := by
    rw [← hseconds, show (100 : Int) = o.sweepInterval from hplain.sweepInterval.symm,
      show true = o.restoreOnStart from hplain.restoreOnStart.symm]
  rw [hsame] at hspelled
  exact options_eq_options.2 ⟨hspelled, hsave⟩

/-- Another port and a snapshot every minute. -/
theorem options_arguments_minute :
    options [bytes "--port", bytes "7000", bytes "--bind", bytes "127.0.0.1", bytes "--threads",
        bytes "64", bytes "--dbfile", bytes "dump", bytes "--save-interval", bytes "60",
        bytes "--max-memory", bytes "0", bytes "--shards", bytes "64"] =
      .options { port := 7000, snapshotPath := bytes "dump", saveInterval := 60000 } := by
  refine @options_arguments { port := 7000, snapshotPath := bytes "dump", saveInterval := 60000 }
    ⟨by decide, by decide, by decide, by decide, 60, rfl, by decide⟩ ⟨rfl, rfl⟩ fun _ => ?_
  decide

end ServerMain

end VCache
