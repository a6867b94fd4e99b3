import VCache.Client.Reading
import VCache.Lib.Frames

/-!
# A client and any server

What a connection brings is a stream of bytes. `Reply.take` says what the stream means, without
regard to how it arrives. Whatever the server sends, the replies that `command` delivers on a
connection are the first ones of its stream, one for each call and in their order; a call that
waits does so because its reply is not there yet; and after a call without a reply the connection
is over.
-/

namespace VCache

open Lib

namespace Reply

def takeElements : Nat → Reply → Bytes → Taken Reply UInt8
  | 0, reply, stream => .item { reply with delivered := true } stream
  | left + 1, reply, stream =>
    match cutFirst Ascii.lf stream with
    | none => .more
    | some (line, after) =>
      let element := Protocol.parse line
      if element.type = .unknown then .bad
      else takeElements left { reply with elements := reply.elements ++ [element.payload] } after

def take (stream : Bytes) : Taken Reply UInt8 :=
  match cutFirst Ascii.lf stream with
  | none => .more
  | some (line, after) =>
    let head := Protocol.parse line
    if head.type = .unknown then .bad
    else if head.type = .array then
      match Protocol.parseCount head.payload with
      | none => .bad
      | some count => takeElements count { type := .array } after
    else .item { delivered := true, type := head.type, payload := head.payload } after

theorem cutFirst_append {s line after : Bytes} (h : cutFirst Ascii.lf s = some (line, after))
    (t : Bytes) : cutFirst Ascii.lf (s ++ t) = some (line, after ++ t) := by
  rcases split_first Ascii.lf s with hn | ⟨line', after', hn, rfl⟩
  · rw [cutFirst_eq_none hn] at h
    cases h
  · rw [cutFirst_line hn] at h
    cases h
    rw [List.append_assoc, List.cons_append, cutFirst_line hn]

theorem takeElements_steady (left : Nat) (reply : Reply) : Steady (takeElements left reply) := by
  induction left generalizing reply with
  | zero =>
    intro s i rest h t
    cases h
    rfl
  | succ left ih =>
    intro s i rest h t
    rw [takeElements] at h
    split at h
    next => cases h
    next line after hcut =>
      rw [takeElements, cutFirst_append hcut]
      dsimp only at h ⊢
      split at h
      next => cases h
      next hknown => rw [if_neg hknown, ih _ _ _ _ h]

theorem take_steady : Steady take := by
  intro s i rest h t
  unfold take at h ⊢
  split at h
  next => cases h
  next line after hcut =>
    rw [cutFirst_append hcut]
    dsimp only at h ⊢
    split at h
    next => cases h
    next hknown =>
      rw [if_neg hknown]
      split at h
      next harray =>
        rw [if_pos harray]
        split at h
        next => cases h
        next => exact takeElements_steady _ _ _ _ _ h t
      next harray =>
        rw [if_neg harray]
        cases h
        rfl

end Reply

namespace VCacheClient

/-- What a client makes of the bytes behind the last reply. -/
def Partway (c : VCacheClient) (unread : Bytes) : Prop :=
  match c.phase with
  | .elements left partly => left ≠ 0 ∧ partly.delivered = false ∧
      ∀ t, Reply.take (unread ++ t) = Reply.takeElements left partly (c.buffer ++ t)
  | _ => unread = c.buffer

def Phase.reading : Phase → Bool
  | .head | .elements _ _ => true
  | _ => false

/-- Where the client stands when it has read what there is: it needs more, has a reply, or has
given up. -/
inductive Reads (c : VCacheClient) (unread : Bytes) : VCacheClient → Prop where
  | more {phase : Phase} {buffer : Bytes} : phase.reading = true →
      Partway { c with phase, buffer } unread → Ascii.lf ∉ buffer →
      Reads c unread { c with phase, buffer }
  | reply {reply : Reply} {buffer : Bytes} : reply.delivered = true →
      Reply.take unread = .item reply buffer → Reads c unread (finish { c with buffer } reply)
  | bad {reply : Reply} {why : Bytes} : reply.delivered = false →
      Reply.take unread = .bad → Reads c unread (c.fail reply why)

section

variable {c : VCacheClient} {unread line after : Bytes} {fuel : Nat}

theorem Reads.of_moved {c' : VCacheClient} {phase : Phase} {buffer : Bytes}
    (h : Reads { c with phase, buffer } unread c') : Reads c unread c' := by
  cases h with
  | more hp hpart hn => exact .more hp hpart hn
  | reply hd ht => exact .reply hd ht
  | bad hd ht => exact .bad hd ht

theorem reads_nextElement {left : Nat} {partly : Reply} (hd : partly.delivered = false)
    (h : ∀ t, Reply.take (unread ++ t) = Reply.takeElements left partly (after ++ t))
    (ih : ∀ c : VCacheClient, c.phase.reading = true → c.buffer = after → Partway c unread →
      Reads c unread (c.readLines fuel)) :
    Reads c unread ((nextElement { c with buffer := after } left partly).readLines fuel) := by
  unfold nextElement
  split
  next hz =>
    rw [readLines_idle rfl]
    refine .reply rfl ?_
    have := h []
    rwa [hz, List.append_nil, List.append_nil] at this
  next hne =>
    have hpart : Partway { c with buffer := after, phase := .elements left partly } unread :=
      ⟨hne, hd, h⟩
    exact (ih _ rfl rfl hpart).of_moved

theorem reads_head (hn : Ascii.lf ∉ line)
    (ih : ∀ c : VCacheClient, c.phase.reading = true → c.buffer = after →
      Partway c (line ++ Ascii.lf :: after) →
      Reads c (line ++ Ascii.lf :: after) (c.readLines fuel)) :
    Reads c (line ++ Ascii.lf :: after)
      ((onHead { c with buffer := after } line).readLines fuel) := by
  have htake : ∀ t, Reply.take (line ++ Ascii.lf :: after ++ t) = _ := fun t => by
    rw [List.append_assoc, List.cons_append, Reply.take, cutFirst_line hn]
  unfold onHead
  dsimp only at htake ⊢
  split
  next hu =>
    rw [readLines_idle rfl]
    refine .bad rfl ?_
    have := htake []
    rwa [List.append_nil, if_pos hu] at this
  next hu =>
    split
    next ha =>
      split
      next hcount =>
        rw [readLines_idle rfl]
        refine .bad rfl ?_
        have := htake []
        rwa [List.append_nil, if_neg hu, if_pos ha, hcount] at this
      next count hcount =>
        refine reads_nextElement rfl (fun t => ?_) ih
        rw [htake, if_neg hu, if_pos ha, hcount]
        simp only [ha]
    next ha =>
      rw [readLines_idle rfl]
      refine .reply rfl ?_
      have := htake []
      rwa [List.append_nil, if_neg hu, if_neg ha, List.append_nil] at this

theorem reads_element {left : Nat} {partly : Reply} (hn : Ascii.lf ∉ line) (hne : left ≠ 0)
    (hd : partly.delivered = false)
    (h : ∀ t, Reply.take (unread ++ t) =
      Reply.takeElements left partly (line ++ Ascii.lf :: after ++ t))
    (ih : ∀ c : VCacheClient, c.phase.reading = true → c.buffer = after → Partway c unread →
      Reads c unread (c.readLines fuel)) :
    Reads c unread ((onElement { c with buffer := after } left partly line).readLines fuel) := by
  obtain ⟨left, rfl⟩ := Nat.exists_eq_succ_of_ne_zero hne
  have htake : ∀ t, Reply.take (unread ++ t) = _ := fun t => by
    rw [h t, List.append_assoc, List.cons_append, Reply.takeElements, cutFirst_line hn]
  unfold onElement
  dsimp only at htake ⊢
  split
  next hu =>
    rw [readLines_idle rfl]
    refine .bad hd ?_
    have := htake []
    rwa [List.append_nil, if_pos hu] at this
  next hu =>
    refine reads_nextElement hd (fun t => ?_) ih
    rw [htake, if_neg hu]
    rfl

/-- **Reading is `Reply.take`**, whatever has arrived. -/
theorem reads_readLines (hp : c.phase.reading = true) (h : Partway c unread)
    (hf : c.buffer.length < fuel) : Reads c unread (c.readLines fuel) := by
  induction fuel generalizing c with
  | zero => exact absurd hf (Nat.not_lt_zero _)
  | succ fuel ih =>
    have hidle : c.phase ≠ .idle := fun he => by rw [he] at hp; cases hp
    rw [readLines, if_neg hidle]
    rcases split_first Ascii.lf c.buffer with hn | ⟨line, after, hn, hb⟩
    · rw [cutFirst_eq_none hn]
      exact .more hp h hn
    · have hlen := length_after_lt hb hf
      have hcut : cutFirst Ascii.lf c.buffer = some (line, after) := by rw [hb, cutFirst_line hn]
      rw [hcut]
      dsimp only
      have ih' : ∀ c : VCacheClient, c.phase.reading = true → c.buffer = after →
          Partway c unread → Reads c unread (c.readLines fuel) :=
        fun c hp hb h => ih hp h (hb ▸ hlen)
      unfold Partway at h
      unfold onLine
      dsimp only
      split at h
      next left partly hphase =>
        rw [hphase]
        rw [hb] at h
        exact reads_element hn h.1 h.2.1 h.2.2 ih'
      next hphase =>
        cases hph : c.phase with
        | head =>
          subst h
          rw [hb] at ih' ⊢
          exact reads_head hn ih'
        | elements left partly => exact absurd hph (hphase _ _)
        | idle | sending => rw [hph] at hp; cases hp

theorem take_of_partway (hp : c.phase.reading = true) (h : Partway c unread)
    (hn : Ascii.lf ∉ c.buffer) : Reply.take unread = .more := by
  unfold Partway at h
  cases hphase : c.phase with
  | idle | sending => rw [hphase] at hp; cases hp
  | head =>
    rw [hphase] at h
    obtain rfl : unread = c.buffer := h
    rw [Reply.take, cutFirst_eq_none hn]
  | elements left partly =>
    rw [hphase] at h
    obtain ⟨hne, -, htake⟩ := h
    obtain ⟨left, rfl⟩ := Nat.exists_eq_succ_of_ne_zero hne
    have := htake []
    rwa [List.append_nil, List.append_nil, Reply.takeElements, cutFirst_eq_none hn] at this

end

theorem resume_other (c : VCacheClient) {result : SysResult}
    (hsent : ∀ count, result ≠ .sent count) (hreceived : ∀ chunk, result ≠ .received chunk) :
    c.resume result = c ∨ ∃ reply why, c.resume result = c.fail reply why ∧
      (reply = {} ∨ reply = c.partialReply) := by
  unfold resume
  split
  · exact .inl rfl
  · exact .inl rfl
  · exact absurd rfl (hsent _)
  · exact .inr ⟨_, _, rfl, .inl rfl⟩
  · exact .inr ⟨_, _, rfl, .inl rfl⟩
  · exact absurd rfl (hreceived _)
  · exact .inr ⟨_, _, rfl, .inr rfl⟩
  · exact .inr ⟨_, _, rfl, .inr rfl⟩
  · exact .inr ⟨_, _, rfl, .inr rfl⟩
  · exact .inl rfl

theorem Phase.cases_of_reading {phase : Phase} (h : phase.reading = true) :
    phase = .head ∨ ∃ left partly, phase = .elements left partly := by
  cases phase with
  | head => exact .inl rfl
  | elements left partly => exact .inr ⟨left, partly, rfl⟩
  | idle | sending => cases h

/-! ### Connections -/

def Phase.unsent : Phase → Bytes
  | .sending rest => rest
  | _ => []

theorem Phase.unsent_of_reading {phase : Phase} (h : phase.reading = true) :
    phase.unsent = [] := by
  cases phase with
  | sending rest => cases h
  | idle | head | elements => rfl

end VCacheClient

open VCacheClient

/-- A client with what went over its connection: `before` counts the replies of earlier ones. -/
structure Link where
  client : VCacheClient := {}
  before : Nat := 0
  calls : List Bytes := []
  sent : Bytes := []
  stream : Bytes := []

namespace Link

inductive Step (l : Link) : Link → Prop where
  | connect : l.client.phase = .idle →
      Step l { client := l.client.connect, before := l.client.replies.length }
  | disconnect : l.client.phase = .idle → Step l { l with client := l.client.disconnect }
  | call (line : Bytes) : l.client.phase = .idle →
      Step l { l with client := l.client.command line, calls := l.calls ++ [line] }
  | send {rest : Bytes} {count : Nat} : l.client.phase = .sending rest → count ≤ rest.length →
      Step l { l with client := l.client.resume (.sent count), sent := l.sent ++ rest.take count }
  | receive (chunk : Bytes) : l.client.phase.reading = true →
      Step l { l with client := l.client.resume (.received chunk), stream := l.stream ++ chunk }
  /-- The server closes, a time limit, an error, a signal. -/
  | other {result : SysResult} : (∀ count, result ≠ .sent count) →
      (∀ chunk, result ≠ .received chunk) → Step l { l with client := l.client.resume result }

inductive Reachable : Link → Prop where
  | new : Reachable {}
  | step {l l' : Link} : Reachable l → Step l l' → Reachable l'

/-- The connection has brought the replies `good`, `unread` is behind them, and the calls in
`bad` came back without a reply. -/
structure Explained (l : Link) (good bad : List Reply) (unread : Bytes) : Prop where
  answers : l.client.replies.drop l.before = good ++ bad
  earlier : l.before ≤ l.client.replies.length
  taken : takeMany Reply.take good.length l.stream = some (good, unread)
  given : ∀ r ∈ good, r.delivered = true
  failed : ∀ r ∈ bad, r.delivered = false
  each : good.length + bad.length + (if l.client.phase = .idle then 0 else 1) = l.calls.length
  asked : l.sent <+: wire l.calls
  idle : l.client.connected = false → l.client.phase = .idle
  open_ : l.client.connected = true → bad = [] ∧ Partway l.client unread ∧
    l.sent ++ l.client.phase.unsent = wire l.calls
  quiet : l.client.phase.reading = true → Ascii.lf ∉ l.client.buffer

variable {l l' : Link} {good bad : List Reply} {unread : Bytes}

theorem Explained.connected (h : Explained l good bad unread) (hp : l.client.phase ≠ .idle) :
    l.client.connected = true := by
  cases hc : l.client.connected with
  | true => rfl
  | false => exact absurd (h.idle hc) hp

section

variable {sent stream unread' : Bytes}

theorem Explained.fail (h : Explained l good bad unread) (hp : l.client.phase ≠ .idle)
    (hasked : sent <+: wire l.calls)
    (htaken : takeMany Reply.take good.length stream = some (good, unread'))
    {reply : Reply} (hd : reply.delivered = false) (why : Bytes) : ∃ good bad unread,
      Explained { l with client := l.client.fail reply why, sent, stream } good bad unread := by
  obtain ⟨rfl, -, -⟩ := h.open_ (h.connected hp)
  have heach := h.each
  rw [if_neg hp] at heach
  refine ⟨good, [{ reply with transportError := why }], unread', ?_, ?_, htaken, h.given, ?_,
    heach, hasked, fun _ => rfl, (fun hc => by cases hc), (fun hr => by cases hr)⟩
  · show (l.client.replies ++ _).drop l.before = _
    rw [List.drop_append_of_le_length h.earlier, h.answers, List.append_nil]
  · show l.before ≤ (l.client.replies ++ _).length
    rw [List.length_append]
    exact Nat.le_add_right_of_le h.earlier
  · intro r hr
    rw [List.mem_singleton.1 hr]
    exact hd

theorem Explained.read (h : Explained l good bad unread) (hp : l.client.phase ≠ .idle)
    (hsent : sent = wire l.calls)
    (htaken : takeMany Reply.take good.length stream = some (good, unread'))
    {c' : VCacheClient} (hr : Reads l.client unread' c') :
    ∃ good bad unread, Explained { l with client := c', sent, stream } good bad unread := by
  have hconn := h.connected hp
  have hasked : sent <+: wire l.calls := hsent ▸ List.prefix_rfl
  obtain ⟨rfl, -, -⟩ := h.open_ hconn
  have heach := h.each
  rw [if_neg hp] at heach
  cases hr with
  | @more phase buffer hphase hpart hn =>
    have hidle : phase ≠ .idle := fun he => by rw [he] at hphase; cases hphase
    refine ⟨good, [], unread', h.answers, h.earlier, htaken, h.given, h.failed, ?_, hasked,
      fun hc => ?_, fun _ => ⟨rfl, hpart, ?_⟩, fun _ => hn⟩
    · rw [if_neg hidle]
      exact heach
    · cases hconn.symm.trans hc
    · show sent ++ phase.unsent = _
      rw [Phase.unsent_of_reading hphase, List.append_nil, hsent]
  | @reply reply buffer hd ht =>
    refine ⟨good ++ [reply], [], buffer, ?_, ?_, ?_, ?_, fun r hr => (by cases hr), ?_, hasked,
      fun _ => rfl, fun _ => ⟨rfl, rfl, ?_⟩, (fun hr => by cases hr)⟩
    · show (l.client.replies ++ _).drop l.before = _
      rw [List.drop_append_of_le_length h.earlier, h.answers, List.append_nil, List.append_nil]
    · show l.before ≤ (l.client.replies ++ _).length
      rw [List.length_append]
      exact Nat.le_add_right_of_le h.earlier
    · rw [List.length_append, List.length_singleton]
      exact takeMany_snoc htaken ht
    · intro r hr
      rcases List.mem_append.1 hr with hr | hr
      · exact h.given r hr
      · rw [List.mem_singleton.1 hr]
        exact hd
    · rw [List.length_append]
      exact heach
    · show sent ++ [] = _
      rw [List.append_nil, hsent]
  | bad hd _ => exact h.fail hp hasked htaken hd _

end

theorem wire_concat (calls : List Bytes) (line : Bytes) :
    wire (calls ++ [line]) = wire calls ++ (line ++ [Ascii.lf]) := by
  simp [wire, Server.framed]

theorem Explained.call (h : Explained l good bad unread) (hp : l.client.phase = .idle)
    (line : Bytes) : ∃ good bad unread, Explained
      { l with client := l.client.command line, calls := l.calls ++ [line] } good bad unread := by
  have heach := h.each
  rw [if_pos hp] at heach
  have hasked : l.sent <+: wire (l.calls ++ [line]) := by
    rw [wire_concat]
    exact h.asked.trans (List.prefix_append ..)
  unfold VCacheClient.command
  cases hc : l.client.connected with
  | false =>
    simp only [Bool.not_false, if_true]
    refine ⟨good, bad ++ [{ transportError := bytes "not connected" }], unread, ?_, ?_, h.taken,
      h.given, ?_, ?_, hasked, fun _ => rfl, fun ho => ?_, (fun hr => by cases hr)⟩
    · show (l.client.replies ++ _).drop l.before = _
      rw [List.drop_append_of_le_length h.earlier, h.answers, List.append_assoc]
    · show l.before ≤ (l.client.replies ++ _).length
      rw [List.length_append]
      exact Nat.le_add_right_of_le h.earlier
    · intro r hr
      rcases List.mem_append.1 hr with hr | hr
      · exact h.failed r hr
      · rw [List.mem_singleton.1 hr]
    · rw [List.length_append, List.length_append, ← heach]
      rfl
    · cases hc.symm.trans ho
  | true =>
    simp only [Bool.not_true, Bool.false_eq_true, if_false]
    obtain ⟨rfl, hpart, hsent⟩ := h.open_ hc
    refine ⟨good, [], unread, h.answers, h.earlier, h.taken, h.given, h.failed, ?_, hasked,
      fun ho => ?_, fun _ => ⟨rfl, ?_, ?_⟩, (fun hr => by cases hr)⟩
    · rw [List.length_append, ← heach]
      rfl
    · cases (show true = false from ho)
    · unfold Partway at hpart
      rw [hp] at hpart
      exact hpart
    · rw [hp] at hsent
      rw [wire_concat, ← hsent]
      simp [Phase.unsent]

theorem Explained.send (h : Explained l good bad unread) {rest : Bytes} {count : Nat}
    (hp : l.client.phase = .sending rest) (hle : count ≤ rest.length) : ∃ good bad unread, Explained
      { l with client := l.client.resume (.sent count), sent := l.sent ++ rest.take count }
      good bad unread := by
  have hidle : l.client.phase ≠ .idle := by rw [hp]; simp
  have hconn := h.connected hidle
  obtain ⟨rfl, hpart, hsent⟩ := h.open_ hconn
  have hbuffer : unread = l.client.buffer := by
    unfold Partway at hpart
    rw [hp] at hpart
    exact hpart
  rw [hp] at hsent
  have hjoin : l.sent ++ rest.take count ++ rest.drop count = wire l.calls := by
    rw [List.append_assoc, List.take_append_drop]
    exact hsent
  simp only [VCacheClient.resume, hp]
  by_cases hlt : count < rest.length
  · rw [if_pos hlt]
    have heach := h.each
    rw [if_neg hidle] at heach
    refine ⟨good, [], unread, h.answers, h.earlier, h.taken, h.given, h.failed, heach, ?_,
      fun hc => ?_, fun _ => ⟨rfl, hbuffer, hjoin⟩, (fun hr => by cases hr)⟩
    · rw [← hjoin]
      exact List.prefix_append ..
    · cases hconn.symm.trans hc
  · rw [if_neg hlt]
    rw [List.drop_eq_nil_of_le (by omega), List.append_nil] at hjoin
    have hr : Reads { l.client with phase := .head } unread
        (VCacheClient.read { l.client with phase := .head }) :=
      reads_readLines rfl hbuffer (Nat.lt_succ_self _)
    exact h.read hidle hjoin h.taken hr.of_moved

theorem Explained.receive (h : Explained l good bad unread) (hp : l.client.phase.reading = true)
    (chunk : Bytes) : ∃ good bad unread, Explained
      { l with client := l.client.resume (.received chunk), stream := l.stream ++ chunk }
      good bad unread := by
  have hidle : l.client.phase ≠ .idle := fun he => by rw [he] at hp; cases hp
  obtain ⟨rfl, hpart, hsent⟩ := h.open_ (h.connected hidle)
  rw [Phase.unsent_of_reading hp, List.append_nil] at hsent
  have hpart' : Partway { l.client with buffer := l.client.buffer ++ chunk } (unread ++ chunk) := by
    unfold Partway at hpart ⊢
    cases hphase : l.client.phase with
    | elements left partly =>
      rw [hphase] at hpart
      refine ⟨hpart.1, hpart.2.1, fun t => ?_⟩
      rw [List.append_assoc, hpart.2.2, List.append_assoc]
    | idle | sending | head =>
      rw [hphase] at hpart
      exact congrArg (· ++ chunk) hpart
  have hr : Reads { l.client with buffer := l.client.buffer ++ chunk } (unread ++ chunk) _ :=
    reads_readLines hp hpart' (Nat.lt_succ_self _)
  rw [resume_received (Phase.cases_of_reading hp)]
  exact h.read hidle hsent (takeMany_append Reply.take_steady h.taken chunk) hr.of_moved

theorem Explained.other (h : Explained l good bad unread) {result : SysResult}
    (hsent : ∀ count, result ≠ .sent count) (hreceived : ∀ chunk, result ≠ .received chunk) :
    ∃ good bad unread, Explained { l with client := l.client.resume result } good bad unread := by
  by_cases hidle : l.client.phase = .idle
  · rw [resume_idle hidle]
    exact ⟨good, bad, unread, h⟩
  · have hpartial : l.client.partialReply.delivered = false := by
      unfold partialReply
      cases hphase : l.client.phase with
      | elements left partly =>
        obtain ⟨-, hpart, -⟩ := h.open_ (h.connected hidle)
        unfold Partway at hpart
        rw [hphase] at hpart
        exact hpart.2.1
      | idle | sending | head => rfl
    rcases resume_other l.client hsent hreceived with he | ⟨reply, why, he, hreply⟩
    · rw [he]
      exact ⟨good, bad, unread, h⟩
    · rw [he]
      refine h.fail hidle h.asked h.taken ?_ why
      rcases hreply with rfl | rfl
      · rfl
      · exact hpartial

theorem Step.explained (hs : Step l l') (h : Explained l good bad unread) :
    ∃ good bad unread, Explained l' good bad unread := by
  cases hs with
  | connect hp =>
    have hphase : l.client.connect.phase = .idle := hp
    refine ⟨[], [], [], List.drop_eq_nil_of_le (Nat.le_refl _), Nat.le_refl _, rfl,
      fun r hr => (by cases hr), fun r hr => (by cases hr), ?_, List.prefix_rfl,
      (fun hc => by cases hc), fun _ => ⟨rfl, ?_, ?_⟩, fun _ => List.not_mem_nil⟩
    · show 0 + 0 + (if l.client.connect.phase = .idle then 0 else 1) = 0
      rw [if_pos hphase]
    · unfold Partway
      simp only [hphase]
      rfl
    · show [] ++ l.client.connect.phase.unsent = _
      rw [hphase]
      rfl
  | disconnect hp =>
    exact ⟨good, bad, unread, h.answers, h.earlier, h.taken, h.given, h.failed, h.each, h.asked,
      fun _ => hp, (fun hc => by cases hc), fun _ => List.not_mem_nil⟩
  | call line hp => exact h.call hp line
  | send hp hle => exact h.send hp hle
  | receive chunk hp => exact h.receive hp chunk
  | other hsent hreceived => exact h.other hsent hreceived

theorem Reachable.explained (h : Reachable l) : ∃ good bad unread, Explained l good bad unread := by
  induction h with
  | new =>
    exact ⟨[], [], [], rfl, Nat.le_refl _, rfl, fun r hr => (by cases hr),
      fun r hr => (by cases hr), rfl, List.prefix_rfl, fun _ => rfl, (fun hc => by cases hc),
      fun hr => by cases hr⟩
  | step _ hs ih =>
    obtain ⟨good, bad, unread, hi⟩ := ih
    exact hs.explained hi

/-- **A client takes replies off its connection in order, whatever the server sends.** One
result for each call: first the replies `good`, which are those the stream begins with, however
it was cut into chunks; then, once the connection is over, calls without a reply. While a call
waits to read, the next reply is not there yet. -/
theorem replies_are_taken (h : Reachable l) :
    ∃ good bad unread, l.client.replies.drop l.before = good ++ bad ∧
      takeMany Reply.take good.length l.stream = some (good, unread) ∧
      (∀ r ∈ good, r.delivered = true) ∧ (∀ r ∈ bad, r.delivered = false) ∧
      good.length + bad.length + (if l.client.phase = .idle then 0 else 1) = l.calls.length ∧
      (l.client.connected = true → bad = []) ∧
      (l.client.phase.reading = true → Reply.take unread = .more) := by
  obtain ⟨good, bad, unread, hi⟩ := h.explained
  refine ⟨good, bad, unread, hi.answers, hi.taken, hi.given, hi.failed, hi.each,
    fun hc => (hi.open_ hc).1, fun hp => ?_⟩
  have hidle : l.client.phase ≠ .idle := fun he => by rw [he] at hp; cases hp
  exact take_of_partway hp (hi.open_ (hi.connected hidle)).2.1 (hi.quiet hp)

/-- A list of two, in three chunks: the second element arrives in two of them. -/
theorem replies_are_taken_keys : ∃ l, Reachable l ∧ l.stream = bytes "*2\n$a\n$bc\n_" ∧
    l.client.replies =
      [{ delivered := true, type := .array, elements := [bytes "a", bytes "bc"] }] ∧
    ∃ good bad unread, l.client.replies.drop l.before = good ++ bad ∧
      takeMany Reply.take good.length l.stream = some (good, unread) := by
  have hasked := ((Reachable.new.step (.connect rfl)).step (.call (bytes "KEYS") rfl)).step
    (@Step.send _ (bytes "KEYS\n") 5 rfl (by decide))
  have hr := ((hasked.step (.receive (bytes "*2\n$a\n") rfl)).step
    (.receive (bytes "$b") rfl)).step (.receive (bytes "c\n_") rfl)
  obtain ⟨good, bad, unread, hanswers, htaken, -⟩ := replies_are_taken hr
  exact ⟨_, hr, rfl, by decide +kernel, good, bad, unread, hanswers, htaken⟩

end Link

end VCache
