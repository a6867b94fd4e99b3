import VCache.Client.Replies

/-!
# Reading a reply

From the first byte of a reply on, `Awaits` says what the client still has to read and what
it will return; reading keeps it until the reply is complete. A call that returns without a
reply leaves nothing behind, whatever the bytes.
-/

namespace VCache

open Lib

/-! ### Counts -/

theorem le_foldl_pushDigit : ∀ (text : Bytes) (value : Nat), value ≤ text.foldl pushDigit value
  | [], _ => Nat.le_refl _
  | c :: text, value => by
    have := le_foldl_pushDigit text (pushDigit value c)
    rw [List.foldl_cons]
    unfold pushDigit at this ⊢
    omega

theorem Protocol.countLoop_eq : ∀ {text : Bytes} {value : Nat}, (∀ c ∈ text, isDigit c = true) →
    text.foldl pushDigit value ≤ 100000000 →
    Protocol.countLoop value text = some (text.foldl pushDigit value)
  | [], _, _, _ => rfl
  | c :: text, value, hd, hle => by
    rw [List.foldl_cons] at hle ⊢
    have hstep := le_foldl_pushDigit text (pushDigit value c)
    have ih := Protocol.countLoop_eq (fun b hb => hd b (.tail _ hb)) hle
    rw [Protocol.countLoop, hd c (.head _), if_neg (by decide), if_neg (by omega), ih]

theorem Protocol.parseCount_decimal {n : Nat} (h : n ≤ 100000000) :
    Protocol.parseCount (decimal n) = some n := by
  have hv : (decimal n).foldl pushDigit 0 = n := decimalValue_decimal n
  have hne : (decimal n).isEmpty = false := by simpa using decimal_ne_nil n
  rw [Protocol.parseCount, hne, if_neg (by decide),
    Protocol.countLoop_eq (fun _ => isDigit_of_mem_decimal) (by omega), hv]

namespace VCacheClient

/-! ### Progress through a reply -/

/-- A client in this phase that reads these lines returns this reply. -/
inductive Awaits : Phase → List Bytes → Reply → Prop where
  | head {lines : List Bytes} {reply : Reply} : ReplyLines lines reply → Awaits .head lines reply
  | elements {partly : Reply} {elements : List Bytes} : elements ≠ [] →
      (∀ element ∈ elements, Ascii.lf ∉ element) →
      Awaits (.elements elements.length partly) (elements.map Protocol.value)
        { partly with delivered := true, elements := partly.elements ++ elements }

variable {c : VCacheClient} {lines : List Bytes} {line future : Bytes} {reply : Reply}

theorem Awaits.not_idle {phase : Phase} (h : Awaits phase lines reply) : phase ≠ .idle := by
  cases h <;> simp

theorem Awaits.reading {phase : Phase} (h : Awaits phase lines reply) :
    phase = .head ∨ ∃ left partly, phase = .elements left partly := by
  cases h with
  | head => exact .inl rfl
  | elements => exact .inr ⟨_, _, rfl⟩

theorem Awaits.exists_line {phase : Phase} (h : Awaits phase lines reply) :
    ∃ line more, lines = line :: more ∧ Ascii.lf ∉ line := by
  cases h with
  | head hl =>
    cases hl with
    | @single type _ hlf _ _ => exact ⟨_, _, rfl, lf_notMem_tag type hlf⟩
    | @array elements _ _ =>
      refine ⟨_, _, rfl, lf_notMem_tag .array fun hm => ?_⟩
      exact absurd (isDigit_of_mem_decimal hm) (by decide)
  | @elements partly elements hne hlf =>
    cases elements with
    | nil => exact absurd rfl hne
    | cons element more => exact ⟨_, _, rfl, lf_notMem_tag .value (hlf element (.head _))⟩

theorem nextElement_spec (partly : Reply) {elements : List Bytes}
    (hlf : ∀ element ∈ elements, Ascii.lf ∉ element) (c : VCacheClient) :
    let reply := { partly with delivered := true, elements := partly.elements ++ elements }
    (elements = [] ∧ c.nextElement elements.length partly = c.finish reply) ∨
      ∃ phase, c.nextElement elements.length partly = { c with phase := phase } ∧
        Awaits phase (elements.map Protocol.value) reply := by
  cases elements with
  | nil => exact .inl ⟨rfl, by simp [nextElement]⟩
  | cons element more =>
    exact .inr ⟨_, by rw [nextElement, if_neg (by simp)], .elements (by simp) hlf⟩

theorem Awaits.onLine {more : List Bytes} (h : Awaits c.phase (line :: more) reply) :
    (more = [] ∧ c.onLine line = c.finish reply) ∨
      ∃ phase, c.onLine line = { c with phase := phase } ∧ Awaits phase more reply := by
  generalize hp : c.phase = phase at h
  generalize hl : line :: more = all at h
  cases h with
  | head hr =>
    cases hr with
    | @single type payload _ hu ha =>
      cases hl
      left
      simp only [onLine, hp, onHead, Protocol.parse_tag hu, if_neg hu, if_neg ha, and_self]
    | @array elements hle hlf =>
      cases hl
      have hc : c.onLine (Protocol.arrayHeader elements.length)
          = c.nextElement elements.length { type := .array } := by
        simp only [onLine, hp, onHead]
        have hparse : Protocol.parse (Protocol.arrayHeader elements.length)
            = { type := .array, payload := decimal elements.length } := rfl
        rw [hparse]
        simp only [Protocol.parseCount_decimal hle]
        rfl
      rw [hc]
      rcases nextElement_spec { type := .array } hlf c with ⟨hnil, hn⟩ | hn
      · exact .inl ⟨by rw [hnil]; rfl, hn⟩
      · exact .inr hn
  | @elements partly elements hne hlf =>
    cases elements with
    | nil => exact absurd rfl hne
    | cons element rest =>
      cases hl
      have hc : c.onLine (Protocol.value element) = c.nextElement rest.length
          { partly with elements := partly.elements ++ [element] } := by
        simp only [onLine, hp, onElement]
        rfl
      rw [hc]
      have hn := nextElement_spec { partly with elements := partly.elements ++ [element] }
        (fun e he => hlf e (.tail _ he)) c
      simp only [List.append_assoc, List.singleton_append] at hn
      rcases hn with ⟨hnil, hn⟩ | hn
      · exact .inl ⟨by rw [hnil]; rfl, hn⟩
      · exact .inr hn

theorem readLines_idle (h : c.phase = .idle) : ∀ fuel, c.readLines fuel = c
  | 0 => rfl
  | fuel + 1 => by rw [readLines, if_pos h]

/-- Reading what there is of a reply: the client has all of it and returns it, or knows what
is missing. -/
theorem Awaits.readLines : ∀ {fuel : Nat} {c : VCacheClient} {lines : List Bytes},
    Awaits c.phase lines reply → c.buffer ++ future = wire lines → c.buffer.length < fuel →
    (c.readLines fuel = finish { c with buffer := [] } reply ∧ future = []) ∨
      ∃ phase buffer lines', c.readLines fuel = { c with phase := phase, buffer := buffer } ∧
        Awaits phase lines' reply ∧ buffer ++ future = wire lines' ∧ Ascii.lf ∉ buffer
  | fuel + 1, c, lines, h, hw, hf => by
    rw [VCacheClient.readLines, if_neg h.not_idle]
    rcases split_first Ascii.lf c.buffer with hn | ⟨line, after, hn, hb⟩
    · simp only [cutFirst_eq_none hn]
      exact .inr ⟨c.phase, c.buffer, lines, rfl, h, hw, hn⟩
    · obtain ⟨line', more, rfl, hlf⟩ := h.exists_line
      obtain ⟨rfl, hmore⟩ : line' = line ∧ after ++ future = wire more := by
        rw [hb, wire_cons, List.append_assoc, List.cons_append] at hw
        have := congrArg (cutFirst Ascii.lf) hw
        rw [cutFirst_line hn, cutFirst_line hlf] at this
        simpa [eq_comm] using this
      have hlen : after.length < fuel := length_after_lt hb hf
      rw [hb]
      simp only [cutFirst_line hn]
      have hline : Awaits ({ c with buffer := after } : VCacheClient).phase (line' :: more) reply :=
        h
      rcases hline.onLine with ⟨rfl, hc⟩ | ⟨phase, hc, hnext⟩
      · obtain ⟨rfl, rfl⟩ := List.append_eq_nil_iff.1 hmore
        rw [hc, readLines_idle rfl]
        exact .inl ⟨rfl, rfl⟩
      · rw [hc]
        exact hnext.readLines hmore hlen

theorem resume_received (h : c.phase = .head ∨ ∃ left partly, c.phase = .elements left partly)
    (chunk : Bytes) : c.resume (.received chunk) = read { c with buffer := c.buffer ++ chunk } := by
  unfold resume
  rcases h with h | ⟨left, partly, h⟩ <;> simp only [h]

/-! ### Calls that fail -/

/-- What a step does to the connection: nothing, unless it ends a call without a reply. Then
the client is disconnected, with nothing in its buffer. -/
def Clears (c c' : VCacheClient) : Prop :=
  (c'.connected = c.connected ∧ c'.replies = c.replies) ∨
    ∃ reply, c'.phase = .idle ∧ c'.replies = c.replies ++ [reply] ∧
      ((c'.connected = c.connected ∧ reply.delivered = true) ∨
        (c'.connected = false ∧ c'.buffer = []))

theorem clears_fail (c : VCacheClient) (reply : Reply) (why : Bytes) :
    c.Clears (c.fail reply why) :=
  .inr ⟨_, rfl, rfl, .inr ⟨rfl, rfl⟩⟩

theorem clears_nextElement (c : VCacheClient) (left : Nat) (reply : Reply) :
    c.Clears (c.nextElement left reply) := by
  unfold nextElement
  split
  · exact .inr ⟨_, rfl, rfl, .inl ⟨rfl, rfl⟩⟩
  · exact .inl ⟨rfl, rfl⟩

theorem clears_onLine (c : VCacheClient) (line : Bytes) : c.Clears (c.onLine line) := by
  unfold onLine
  split
  · unfold onHead
    simp only
    split
    · exact clears_fail _ _ _
    · split
      · split
        · exact clears_fail _ _ _
        · exact clears_nextElement _ _ _
      · exact .inr ⟨_, rfl, rfl, .inl ⟨rfl, rfl⟩⟩
  · unfold onElement
    simp only
    split
    · exact clears_fail _ _ _
    · exact clears_nextElement _ _ _
  · exact .inl ⟨rfl, rfl⟩

theorem clears_readLines : ∀ (fuel : Nat) (c : VCacheClient), c.Clears (c.readLines fuel)
  | 0, _ => .inl ⟨rfl, rfl⟩
  | fuel + 1, c => by
    rw [readLines]
    split
    · exact .inl ⟨rfl, rfl⟩
    · split
      · exact .inl ⟨rfl, rfl⟩
      next line after _ =>
        rcases clears_onLine { c with buffer := after } line with ⟨h₁, h₂⟩ | ⟨reply, hi, h⟩
        · have ih := clears_readLines fuel ({ c with buffer := after }.onLine line)
          unfold Clears at ih
          rwa [h₁, h₂] at ih
        · rw [readLines_idle hi]
          exact .inr ⟨reply, hi, h⟩

theorem clears_resume (c : VCacheClient) (result : SysResult) : c.Clears (c.resume result) := by
  unfold resume
  split
  · exact .inl ⟨rfl, rfl⟩
  · exact .inl ⟨rfl, rfl⟩
  · split
    · exact .inl ⟨rfl, rfl⟩
    · exact clears_readLines _ { c with phase := .head }
  · exact clears_fail _ _ _
  · exact clears_fail _ _ _
  · exact clears_readLines _ { c with buffer := c.buffer ++ _ }
  · exact clears_fail _ _ _
  · exact clears_fail _ _ _
  · exact clears_fail _ _ _
  · exact .inl ⟨rfl, rfl⟩

theorem resume_idle (h : c.phase = .idle) (result : SysResult) : c.resume result = c := by
  unfold resume
  rw [h]

/-- A client on whatever socket: any results, in any order. -/
inductive Run : VCacheClient → Prop where
  | start : Run {}
  | connect {c : VCacheClient} : Run c → c.phase = .idle → Run c.connect
  | disconnect {c : VCacheClient} : Run c → c.phase = .idle → Run c.disconnect
  | command {c : VCacheClient} {line : Bytes} : Run c → c.phase = .idle → Run (c.command line)
  | resume {c : VCacheClient} {result : SysResult} : Run c → Run (c.resume result)

/-- A disconnected client holds no bytes of an earlier reply. -/
theorem Run.disconnected (h : Run c) : c.connected = false → c.buffer = [] ∧ c.phase = .idle := by
  induction h with
  | start => exact fun _ => ⟨rfl, rfl⟩
  | connect => simp [VCacheClient.connect]
  | disconnect _ hi => exact fun _ => ⟨rfl, hi⟩
  | @command c line _ hi ih =>
    unfold VCacheClient.command
    split
    next hc => exact fun _ => ⟨(ih (by simpa using hc)).1, rfl⟩
    next hc =>
      intro hd
      exact absurd hd (by simpa using hc)
  | @resume c result _ ih =>
    intro hd
    by_cases hc : c.connected = false
    · rw [resume_idle (ih hc).2]
      exact ih hc
    · rcases clears_resume c result with ⟨h, _⟩ | ⟨reply, hi, _, ⟨h, _⟩ | h⟩
      · exact absurd (h ▸ hd) hc
      · exact absurd (h ▸ hd) hc
      · exact ⟨h.2, hi⟩

end VCacheClient

end VCache
