import VCache.Client.Reading
import VCache.Server.Framing

/-!
# Client and server

A client and the handler of its connection, with the bytes under way in both directions.
Every step is one system call of one party. Between two calls of `command` nothing is under
way; during a call the request is, and after it the reply.
-/

namespace VCache

open Lib Server

/-- `up` and `down` hold the bytes sent and not yet received; `calls` records the lines
given to `command`. -/
structure Session where
  client : VCacheClient
  handler : Handler Database
  up : Bytes := []
  down : Bytes := []
  calls : List Bytes := []

namespace Session

/-- What the client sends: one line, not blank, within the limit of the server. -/
structure Sendable (maxRequestBytes : Nat) (line : Bytes) : Prop where
  oneLine : Ascii.lf ∉ line
  content : hasContent line = true
  length_le : line.length ≤ maxRequestBytes

/-- The `i`-th call of `execute` finds `found i`. -/
def executor (found : Nat → Found) (i : Nat) (_ : Database) (line : Bytes) :
    Database × Option Bytes :=
  (found i).execute line

variable (maxRequestBytes : Nat) (found : Nat → Found)

def serverResume (s : Session) (result : Server.SysResult) : Handler Database :=
  s.handler.resume maxRequestBytes (executor found) result

/-- A system call that moves bytes. -/
inductive Move : Session → Session → Prop where
  | clientSend {s : Session} {rest : Bytes} {count : Nat} : s.client.phase = .sending rest →
      0 < count → count ≤ rest.length →
      Move s { s with client := s.client.resume (.sent count), up := s.up ++ rest.take count }
  | clientReceive {s : Session} {chunk down : Bytes} :
      (s.client.phase = .head ∨ ∃ left reply, s.client.phase = .elements left reply) →
      s.down = chunk ++ down → chunk ≠ [] → chunk.length ≤ VCacheClient.kChunkSize →
      Move s { s with client := s.client.resume (.received chunk), down := down }
  | serverReceive {s : Session} {chunk up : Bytes} : s.handler.phase = .receiving →
      s.up = chunk ++ up → chunk ≠ [] → chunk.length ≤ kReadChunkSize →
      Move s { s with handler := s.serverResume maxRequestBytes found (.received chunk), up := up }
  | serverSend {s : Session} {left : Bytes} {drop : Bool} {count : Nat} :
      s.handler.phase = .sending left drop → 0 < count → count ≤ left.length →
      Move s { s with
        handler := s.serverResume maxRequestBytes found (.accepted count)
        down := s.down ++ left.take count }

inductive Moves : Nat → Session → Session → Prop where
  | refl (s : Session) : Moves 0 s s
  | step {n : Nat} {s s' s'' : Session} : Move maxRequestBytes found s s' → Moves n s' s'' →
      Moves (n + 1) s s''

/-- Calls, moves and interrupted system calls, in any order. -/
inductive Reachable : Session → Prop where
  | start (db : Database) :
      Reachable { client := { connected := true }, handler := { state := db } }
  | call {s : Session} {line : Bytes} : Reachable s → s.client.phase = .idle →
      Sendable maxRequestBytes line →
      Reachable { s with client := s.client.command line, calls := s.calls ++ [line] }
  | move {s s' : Session} : Reachable s → Move maxRequestBytes found s s' → Reachable s'
  | clientInterrupted {s : Session} : Reachable s →
      Reachable { s with client := s.client.resume .interrupted }
  | serverInterrupted {s : Session} : Reachable s →
      Reachable { s with handler := s.serverResume maxRequestBytes found .interrupted }

/-! ### The three states of a session -/

def decodedAll (calls : List Bytes) : List Reply :=
  calls.mapIdx fun i line => (found i).decoded line

structure Between (s : Session) : Prop where
  connected : s.client.connected = true
  phase : s.client.phase = .idle
  buffer : s.client.buffer = []
  replies : s.client.replies = decodedAll found s.calls
  executed : s.handler.executed = s.calls
  handler : s.handler.phase = .receiving
  pending : s.handler.pending = []
  up : s.up = []
  down : s.down = []

/-- The request is under way, `rest` of it still with the client. -/
structure Asking (s : Session) (prev : List Bytes) (line rest : Bytes) : Prop where
  calls : s.calls = prev ++ [line]
  connected : s.client.connected = true
  sendable : Sendable maxRequestBytes line
  phase : (s.client.phase = .sending rest ∧ rest ≠ []) ∨ (s.client.phase = .head ∧ rest = [])
  buffer : s.client.buffer = []
  replies : s.client.replies = decodedAll found prev
  executed : s.handler.executed = prev
  handler : s.handler.phase = .receiving
  pending : Ascii.lf ∉ s.handler.pending
  request : s.handler.pending ++ s.up ++ rest = line ++ [Ascii.lf]
  down : s.down = []

/-- The reply is under way, and `lines` of it are still to be read. -/
structure Answering (s : Session) (prev : List Bytes) (line : Bytes) (lines : List Bytes) :
    Prop where
  calls : s.calls = prev ++ [line]
  connected : s.client.connected = true
  awaits : VCacheClient.Awaits s.client.phase lines ((found prev.length).decoded line)
  buffer : Ascii.lf ∉ s.client.buffer
  replies : s.client.replies = decodedAll found prev
  executed : s.handler.executed = s.calls
  handler : s.handler.phase = .receiving ∨ ∃ left, left ≠ [] ∧ s.handler.phase = .sending left false
  pending : s.handler.pending = []
  up : s.up = []
  reply : s.client.buffer ++ s.down ++ s.handler.phase.unsent = wire lines

/-- The session is in step, and `cost` moves at most lead to the end of the call: a byte of
a request or a reply is sent once and received once. -/
inductive InStep : Session → Nat → Prop where
  | between {s : Session} : Between found s → InStep s 0
  | asking {s : Session} {prev : List Bytes} {line rest reply : Bytes} :
      Asking maxRequestBytes found s prev line rest →
      ((found prev.length).execute line).2 = some reply →
      InStep s (2 * rest.length + s.up.length + 2 * (framed reply).length)
  | answering {s : Session} {prev : List Bytes} {line : Bytes} {lines : List Bytes} :
      Answering found s prev line lines →
      InStep s (2 * s.handler.phase.unsent.length + s.down.length)

/-! ### Steps -/

variable {maxRequestBytes found} {s s' : Session} {prev : List Bytes} {line rest chunk : Bytes}
  {lines : List Bytes}

theorem Between.call (h : Between found s) (hs : Sendable maxRequestBytes line) :
    Asking maxRequestBytes found
      { s with client := s.client.command line, calls := s.calls ++ [line] } s.calls line
      (line ++ [Ascii.lf]) := by
  have hc : s.client.command line = { s.client with phase := .sending (line ++ [Ascii.lf]) } := by
    rw [VCacheClient.command, if_neg (by simp [h.connected])]
  rw [hc]
  refine ⟨rfl, h.connected, hs, .inl ⟨rfl, by simp⟩, h.buffer, h.replies, h.executed, h.handler,
    ?_, ?_, h.down⟩
  · show Ascii.lf ∉ s.handler.pending
    rw [h.pending]
    simp
  · show s.handler.pending ++ s.up ++ (line ++ [Ascii.lf]) = line ++ [Ascii.lf]
    rw [h.pending, h.up]
    rfl

theorem Asking.clientSend {count : Nat} (h : Asking maxRequestBytes found s prev line rest)
    (hphase : s.client.phase = .sending rest) :
    Asking maxRequestBytes found
      { s with client := s.client.resume (.sent count), up := s.up ++ rest.take count } prev line
      (rest.drop count) := by
  obtain ⟨phase, hc, hp⟩ : ∃ phase, s.client.resume (.sent count)
      = { s.client with phase := phase } ∧
        ((phase = .sending (rest.drop count) ∧ rest.drop count ≠ []) ∨
          (phase = .head ∧ rest.drop count = [])) := by
    unfold VCacheClient.resume
    simp only [hphase]
    by_cases hlt : count < rest.length
    · refine ⟨_, by rw [if_pos hlt], .inl ⟨rfl, ?_⟩⟩
      rw [Ne, List.drop_eq_nil_iff]
      omega
    · refine ⟨.head, ?_, .inr ⟨rfl, List.drop_eq_nil_iff.2 (by omega)⟩⟩
      rw [if_neg hlt]
      simp [VCacheClient.read, VCacheClient.readLines, h.buffer, cutFirst]
  rw [hc]
  refine ⟨h.calls, h.connected, h.sendable, hp, h.buffer, h.replies, h.executed, h.handler,
    h.pending, ?_, h.down⟩
  show s.handler.pending ++ (s.up ++ rest.take count) ++ rest.drop count = _
  rw [← List.append_assoc, List.append_assoc, List.take_append_drop]
  exact h.request

/-- A request ends in a newline and has no other: the server has all of it or no newline. -/
theorem split_request {a b line : Bytes} (h : a ++ b = line ++ [Ascii.lf])
    (hlf : Ascii.lf ∉ line) : (b = [] ∧ a = line ++ [Ascii.lf]) ∨
      (Ascii.lf ∉ a ∧ a.length ≤ line.length) := by
  rcases List.eq_nil_or_concat b with rfl | ⟨b, c, rfl⟩
  · exact .inl ⟨rfl, by simpa using h⟩
  · rw [List.concat_eq_append, ← List.append_assoc] at h
    have hab : a ++ b = line := (List.append_inj' h rfl).1
    rw [← hab] at hlf ⊢
    simp only [List.mem_append, not_or] at hlf
    exact .inr ⟨hlf.1, by simp⟩

theorem Asking.serverReceive {up reply : Bytes} (h : Asking maxRequestBytes found s prev line rest)
    (hup : s.up = chunk ++ up) (hr : ((found prev.length).execute line).2 = some reply)
    (hw : framed reply = wire lines) (hl : ReplyLines lines ((found prev.length).decoded line)) :
    let s' := { s with handler := s.serverResume maxRequestBytes found (.received chunk), up := up }
    Asking maxRequestBytes found s' prev line rest ∨
      (Answering found s' prev line lines ∧ s'.handler.phase.unsent = framed reply) := by
  have hreq : (s.handler.pending ++ chunk) ++ (up ++ rest) = line ++ [Ascii.lf] := by
    simpa [hup] using h.request
  simp only [serverResume, resume_received h.handler]
  rcases split_request hreq h.sendable.oneLine with ⟨hnil, hall⟩ | ⟨hn, hle⟩
  · obtain ⟨rfl, rfl⟩ := List.append_eq_nil_iff.1 hnil
    have hr' : (executor found s.handler.executed.length s.handler.state line).2 = some reply := by
      rw [h.executed]
      exact hr
    rw [cut_line (h := { s.handler with pending := s.handler.pending ++ chunk }) hall
      h.sendable.oneLine hr']
    have hphase : s.client.phase = .head := by
      rcases h.phase with ⟨_, hne⟩ | ⟨hp, _⟩
      · exact absurd rfl hne
      · exact hp
    refine .inr ⟨⟨h.calls, h.connected, ?_, ?_, h.replies, ?_, .inr ⟨_, framed_ne_nil _, rfl⟩,
      rfl, rfl, ?_⟩, rfl⟩
    · show VCacheClient.Awaits s.client.phase lines _
      rw [hphase]
      exact .head hl
    · show Ascii.lf ∉ s.client.buffer
      rw [h.buffer]
      simp
    · show s.handler.executed ++ [line] = s.calls
      rw [h.executed, h.calls]
    · show s.client.buffer ++ s.down ++ framed reply = wire lines
      rw [h.buffer, h.down, hw]
      rfl
  · rw [cut_of_notMem (h := { s.handler with pending := s.handler.pending ++ chunk }) hn
      (Nat.le_trans hle h.sendable.length_le)]
    exact .inl ⟨h.calls, h.connected, h.sendable, h.phase, h.buffer, h.replies, h.executed, rfl, hn,
      by simpa using hreq, h.down⟩

theorem Answering.serverSend {left : Bytes} {drop : Bool} (h : Answering found s prev line lines)
    (maxRequestBytes count : Nat) (hphase : s.handler.phase = .sending left drop) :
    let s' := { s with
      handler := s.serverResume maxRequestBytes found (.accepted count)
      down := s.down ++ left.take count }
    Answering found s' prev line lines ∧ s'.handler.phase.unsent = left.drop count := by
  have hdrop : drop = false := by
    rcases h.handler with hr | ⟨_, _, hr⟩ <;> rw [hphase] at hr <;> cases hr
    rfl
  subst hdrop
  have hreply := h.reply
  rw [hphase, Phase.unsent] at hreply
  simp only [serverResume, resume_accepted hphase]
  by_cases hlt : count < left.length
  · rw [if_pos hlt]
    refine ⟨⟨h.calls, h.connected, h.awaits, h.buffer, h.replies, h.executed, .inr ⟨_, ?_, rfl⟩,
      h.pending, h.up, ?_⟩, rfl⟩
    · rw [Ne, List.drop_eq_nil_iff]
      omega
    · simpa [Phase.unsent] using hreply
  · rw [if_neg hlt, if_neg (by decide)]
    have htake : left.take count = left := List.take_of_length_le (by omega)
    rw [cut_of_notMem (by simp [h.pending]) (by simp [h.pending])]
    refine ⟨⟨h.calls, h.connected, h.awaits, h.buffer, h.replies, h.executed, .inl rfl, h.pending,
      h.up, ?_⟩, ?_⟩
    · simpa [Phase.unsent, htake] using hreply
    · exact (List.drop_eq_nil_iff.2 (by omega)).symm

theorem decodedAll_concat (found : Nat → Found) (prev : List Bytes) (line : Bytes) :
    decodedAll found (prev ++ [line])
      = decodedAll found prev ++ [(found prev.length).decoded line] := by
  simp [decodedAll, List.mapIdx_append]

theorem Answering.clientReceive {down : Bytes} (h : Answering found s prev line lines)
    (hdown : s.down = chunk ++ down) :
    let s' := { s with client := s.client.resume (.received chunk), down := down }
    Between found s' ∨ ∃ lines', Answering found s' prev line lines' := by
  have hreply : (s.client.buffer ++ chunk) ++ (down ++ s.handler.phase.unsent) = wire lines := by
    simpa [hdown] using h.reply
  have hawaits : VCacheClient.Awaits
      ({ s.client with buffer := s.client.buffer ++ chunk } : VCacheClient).phase lines _ :=
    h.awaits
  simp only [VCacheClient.resume_received h.awaits.reading]
  rcases hawaits.readLines hreply (Nat.lt_succ_self _) with
    ⟨hc, hnil⟩ | ⟨phase, buffer, lines', hc, hn⟩
  · obtain ⟨rfl, hunsent⟩ := List.append_eq_nil_iff.1 hnil
    have hrecv : s.handler.phase = .receiving := by
      rcases h.handler with hr | ⟨left, hne, hr⟩
      · exact hr
      · rw [hr] at hunsent
        exact absurd hunsent hne
    rw [VCacheClient.read, hc]
    refine .inl ⟨h.connected, rfl, rfl, ?_, h.executed, hrecv, h.pending, h.up, rfl⟩
    show s.client.replies ++ [_] = decodedAll found s.calls
    rw [h.calls, decodedAll_concat, h.replies]
  · obtain ⟨hnext, hrest, hlf⟩ := hn
    rw [VCacheClient.read, hc]
    refine .inr ⟨lines', h.calls, h.connected, hnext, hlf, h.replies, h.executed, h.handler,
      h.pending, h.up, ?_⟩
    simpa using hrest

/-! ### Runs -/

theorem InStep.call {cost : Nat} (hfound : ∀ i, (found i).Tame)
    (h : InStep maxRequestBytes found s cost) (hi : s.client.phase = .idle)
    (hs : Sendable maxRequestBytes line) :
    ∃ cost', InStep maxRequestBytes found
      { s with client := s.client.command line, calls := s.calls ++ [line] } cost' := by
  cases h with
  | between hb =>
    obtain ⟨reply, _, hr, -⟩ := Found.reply_lines (hfound s.calls.length) hs.oneLine hs.content
    exact ⟨_, .asking (hb.call hs) hr⟩
  | asking ha _ =>
    rcases ha.phase with ⟨hp, _⟩ | ⟨hp, _⟩ <;> rw [hi] at hp <;> cases hp
  | answering ha => exact absurd hi ha.awaits.not_idle

theorem InStep.move {cost : Nat} (hfound : ∀ i, (found i).Tame)
    (h : InStep maxRequestBytes found s cost) (hm : Move maxRequestBytes found s s') :
    ∃ cost', cost' < cost ∧ InStep maxRequestBytes found s' cost' := by
  cases hm with
  | @clientSend rest count hphase hpos hle =>
    cases h with
    | between hb => rw [hb.phase] at hphase; cases hphase
    | @asking prev line rest' reply ha hr =>
      have : rest' = rest := by
        rcases ha.phase with ⟨hp, _⟩ | ⟨hp, _⟩ <;> rw [hphase] at hp <;> cases hp
        rfl
      subst this
      refine ⟨_, ?_, .asking (ha.clientSend hphase) hr⟩
      simp only [List.length_append, List.length_take, List.length_drop]
      omega
    | answering ha =>
      rcases ha.awaits.reading with hp | ⟨_, _, hp⟩ <;> rw [hphase] at hp <;> cases hp
  | @clientReceive chunk down hphase hdown hne hle =>
    have hpos := List.length_pos_iff.2 hne
    have hsome : s.down ≠ [] := by simp [hdown, hne]
    cases h with
    | between hb => exact absurd hb.down hsome
    | asking ha _ => exact absurd ha.down hsome
    | answering ha =>
      have hlen : s.down.length = chunk.length + down.length := by simp [hdown]
      rcases ha.clientReceive hdown with hb | ⟨lines', ha'⟩
      · exact ⟨0, by omega, .between hb⟩
      · exact ⟨_, by simp only; omega, .answering ha'⟩
  | @serverReceive chunk up hphase hup hne hle =>
    have hpos := List.length_pos_iff.2 hne
    have hsome : s.up ≠ [] := by simp [hup, hne]
    cases h with
    | between hb => exact absurd hb.up hsome
    | @asking prev line rest reply ha hr =>
      have hlen : s.up.length = chunk.length + up.length := by simp [hup]
      obtain ⟨reply', lines, hr', hw, hl⟩ :=
        Found.reply_lines (hfound prev.length) ha.sendable.oneLine ha.sendable.content
      cases hr.symm.trans hr'
      rcases ha.serverReceive hup hr hw hl with ha' | ⟨ha', hunsent⟩
      · exact ⟨_, by simp only; omega, .asking ha' hr⟩
      · refine ⟨_, ?_, .answering ha'⟩
        rw [hunsent]
        show 2 * (framed reply).length + s.down.length < _
        rw [ha.down, List.length_nil]
        omega
    | answering ha => exact absurd ha.up hsome
  | @serverSend left drop count hphase hpos hle =>
    cases h with
    | between hb => rw [hb.handler] at hphase; cases hphase
    | asking ha _ => rw [ha.handler] at hphase; cases hphase
    | answering ha =>
      have ⟨ha', hunsent⟩ := ha.serverSend maxRequestBytes count hphase
      refine ⟨_, ?_, .answering ha'⟩
      rw [hunsent, hphase]
      simp only [Phase.unsent, List.length_append, List.length_take, List.length_drop]
      omega

theorem InStep.handler_not_finished {cost : Nat} (h : InStep maxRequestBytes found s cost) :
    s.handler.phase ≠ .finished := by
  cases h with
  | between hb => simp [hb.handler]
  | asking ha _ => simp [ha.handler]
  | answering ha => rcases ha.handler with hr | ⟨_, _, hr⟩ <;> simp [hr]

theorem client_resume_interrupted (c : VCacheClient) : c.resume .interrupted = c := by
  unfold VCacheClient.resume
  cases c.phase <;> rfl

theorem Reachable.inStep (hfound : ∀ i, (found i).Tame) (h : Reachable maxRequestBytes found s) :
    ∃ cost, InStep maxRequestBytes found s cost := by
  induction h with
  | start db => exact ⟨0, .between ⟨rfl, rfl, rfl, rfl, rfl, rfl, rfl, rfl, rfl⟩⟩
  | call _ hi hs ih =>
    obtain ⟨cost, ih⟩ := ih
    exact ih.call hfound hi hs
  | move _ hm ih =>
    obtain ⟨cost, ih⟩ := ih
    obtain ⟨cost', -, h'⟩ := ih.move hfound hm
    exact ⟨cost', h'⟩
  | @clientInterrupted s _ ih =>
    rw [client_resume_interrupted]
    exact ih
  | @serverInterrupted s _ ih =>
    obtain ⟨cost, ih⟩ := ih
    rw [serverResume, resume_interrupted ih.handler_not_finished]
    exact ⟨cost, ih⟩

theorem InStep.moves_le (hfound : ∀ i, (found i).Tame) : ∀ {n cost : Nat} {s s' : Session},
    InStep maxRequestBytes found s cost → Moves maxRequestBytes found n s s' → n ≤ cost := by
  intro n cost s s' h hm
  induction hm generalizing cost with
  | refl => exact Nat.zero_le _
  | step hstep _ ih =>
    obtain ⟨cost', hlt, h'⟩ := h.move hfound hstep
    have := ih h'
    omega

/-- A call never gets stuck. -/
theorem InStep.exists_move {cost : Nat} (h : InStep maxRequestBytes found s cost)
    (hi : s.client.phase ≠ .idle) : ∃ s', Move maxRequestBytes found s s' := by
  cases h with
  | between hb => exact absurd hb.phase hi
  | @asking prev line rest reply ha _ =>
    rcases ha.phase with ⟨hp, hne⟩ | ⟨_, rfl⟩
    · exact ⟨_, .clientSend hp Nat.one_pos (List.length_pos_iff.2 hne)⟩
    · cases hup : s.up with
      | nil =>
        have hreq := ha.request
        rw [hup, List.append_nil, List.append_nil] at hreq
        exact absurd (hreq ▸ by simp : Ascii.lf ∈ s.handler.pending) ha.pending
      | cons b up =>
        have hup' : s.up = [b] ++ up := hup
        exact ⟨_, .serverReceive ha.handler hup' (by simp) (by decide : 1 ≤ kReadChunkSize)⟩
  | @answering prev line lines ha =>
    rcases ha.handler with hr | ⟨left, hne, hr⟩
    · cases hdown : s.down with
      | nil =>
        obtain ⟨line, more, rfl, _⟩ := ha.awaits.exists_line
        have hreply : s.client.buffer = line ++ Ascii.lf :: wire more := by
          simpa [hdown, hr, Phase.unsent, wire_cons] using ha.reply
        exact absurd (hreply ▸ by simp : Ascii.lf ∈ s.client.buffer) ha.buffer
      | cons b down =>
        have hdown' : s.down = [b] ++ down := hdown
        exact ⟨_, .clientReceive ha.awaits.reading hdown' (by simp)
          (by decide : 1 ≤ VCacheClient.kChunkSize)⟩
    · exact ⟨_, .serverSend hr Nat.one_pos (List.length_pos_iff.2 hne)⟩

theorem Move.calls_eq (h : Move maxRequestBytes found s s') : s'.calls = s.calls := by
  cases h <;> rfl

theorem Reachable.sendable (h : Reachable maxRequestBytes found s) :
    ∀ line ∈ s.calls, Sendable maxRequestBytes line := by
  induction h with
  | start db => simp
  | @call s line _ _ hs ih =>
    intro l hl
    rcases List.mem_append.1 hl with hl | hl
    · exact ih l hl
    · rw [List.mem_singleton.1 hl]
      exact hs
  | move _ hm ih =>
    rw [hm.calls_eq]
    exact ih
  | clientInterrupted _ ih => exact ih
  | serverInterrupted _ ih => exact ih

theorem delivered_of_mem_decodedAll (hfound : ∀ i, (found i).Tame) {calls : List Bytes}
    (hs : ∀ line ∈ calls, Sendable maxRequestBytes line) :
    ∀ reply ∈ decodedAll found calls, reply.delivered = true := by
  intro reply hr
  obtain ⟨i, hi, rfl⟩ := List.mem_mapIdx.1 hr
  obtain ⟨hlf, hc, -⟩ := hs calls[i] (List.getElem_mem hi)
  obtain ⟨_, _, -, -, hl⟩ := Found.reply_lines (hfound i) hlf hc
  exact hl.delivered

theorem InStep.replies_prefix {cost : Nat} (h : InStep maxRequestBytes found s cost) :
    s.client.connected = true ∧ s.client.replies <+: decodedAll found s.calls := by
  cases h with
  | between hb => exact ⟨hb.connected, hb.replies ▸ List.prefix_refl _⟩
  | asking ha _ =>
    rw [ha.calls, decodedAll_concat, ha.replies]
    exact ⟨ha.connected, List.prefix_append _ _⟩
  | answering ha =>
    rw [ha.calls, decodedAll_concat, ha.replies]
    exact ⟨ha.connected, List.prefix_append _ _⟩

theorem InStep.between_of_idle {cost : Nat} (h : InStep maxRequestBytes found s cost)
    (hi : s.client.phase = .idle) : Between found s := by
  cases h with
  | between hb => exact hb
  | asking ha _ => rcases ha.phase with ⟨hp, _⟩ | ⟨hp, _⟩ <;> rw [hi] at hp <;> cases hp
  | answering ha => exact absurd hi ha.awaits.not_idle

/-- Client and server stay in step. However the bytes travel, each call returns, and the
`i`-th one returns the decoded form of the `i`-th reply of `execute`, with nothing left in
the buffer. And on any socket whatever, a call that returns without a reply leaves the client
disconnected with an empty buffer, and a disconnected client reads nothing. -/
theorem session_stays_in_step (maxRequestBytes : Nat) (found : Nat → Found)
    (hfound : ∀ i, (found i).Tame) :
    (∀ s, Reachable maxRequestBytes found s →
      s.client.connected = true ∧
      s.client.replies <+: decodedAll found s.calls ∧
      (∀ reply ∈ s.client.replies, reply.delivered = true) ∧
      (s.client.phase = .idle → s.client.replies = decodedAll found s.calls ∧
        s.client.buffer = [] ∧ s.handler.executed = s.calls) ∧
      (s.client.phase ≠ .idle → ∃ s', Move maxRequestBytes found s s') ∧
      ∃ bound, ∀ n s', Moves maxRequestBytes found n s s' → n ≤ bound) ∧
    (∀ c, VCacheClient.Run c →
      (∀ line reply, c.phase = .idle → (c.command line).replies = c.replies ++ [reply] →
        reply.delivered = false →
        (c.command line).connected = false ∧ (c.command line).buffer = []) ∧
      (∀ result reply, (c.resume result).replies = c.replies ++ [reply] →
        reply.delivered = false →
        (c.resume result).connected = false ∧ (c.resume result).buffer = []) ∧
      (c.connected = false → c.buffer = [] ∧
        ∀ line, c.command line = c.finish { transportError := bytes "not connected" })) := by
  refine ⟨fun s h => ?_, fun c h => ⟨fun line reply _ hr _ => ?_, fun result reply hr hd => ?_,
    fun hc => ⟨(h.disconnected hc).1, fun line => ?_⟩⟩⟩
  · obtain ⟨cost, hin⟩ := h.inStep hfound
    obtain ⟨hconn, hpre⟩ := hin.replies_prefix
    refine ⟨hconn, hpre, fun reply hr => ?_, fun hi => ?_, hin.exists_move,
      cost, fun n s' => hin.moves_le hfound⟩
    · exact delivered_of_mem_decodedAll hfound h.sendable reply (hpre.subset hr)
    · have hb := hin.between_of_idle hi
      exact ⟨hb.replies, hb.buffer, hb.executed⟩
  · cases hc : c.connected with
    | true =>
      rw [VCacheClient.command, if_neg (by simp [hc])] at hr
      exact absurd hr (by simp)
    | false =>
      rw [VCacheClient.command, if_pos (by simp [hc])]
      exact ⟨hc, (h.disconnected hc).1⟩
  · rcases VCacheClient.clears_resume c result with ⟨_, h⟩ | ⟨reply', _, h, ⟨_, h'⟩ | h'⟩
    · rw [h] at hr
      exact absurd hr (by simp)
    · rw [h] at hr
      have : reply' = reply := by simpa using hr
      rw [← this, h'] at hd
      cases hd
    · exact h'
  · rw [VCacheClient.command, if_pos (by simp [hc])]

/-- Two keys, one of them with a newline in it. -/
def stored : Found where
  db := ((Database.single.set (bytes "k") (bytes "v")).1.set (bytes "a\nb") []).1
  env := ⟨fun _ => 0, none⟩

/-- The reply to a `KEYS` of theirs. -/
def storedKeys : Reply :=
  { delivered := true, type := .array, elements := [bytes "a\\nb", bytes "k"] }

theorem session_stays_in_step_keys : ∃ s, Reachable 16 (fun _ => stored) s ∧
    s.calls = [bytes "KEYS", bytes "GET k"] ∧
    s.client.replies =
      [storedKeys, { delivered := true, type := .value, payload := bytes "v" }] := by
  have hfound : stored.Tame := by
    refine ⟨fun keys hk => ?_, by decide⟩
    cases hk
    decide +kernel
  have h₁ : Reachable 16 (fun _ => stored) ⟨{ connected := true, phase := .head },
      { state := stored.db }, bytes "KEYS\n", [], [bytes "KEYS"]⟩ :=
    (((Reachable.start stored.db).call rfl
      (⟨by decide, by decide, by decide⟩ : Sendable 16 (bytes "KEYS"))).move
      (@Move.clientSend 16 _ _ (bytes "KEYS\n") 2 rfl (by decide) (by decide))).move
      (@Move.clientSend 16 _ _ (bytes "YS\n") 3 rfl (by decide) (by decide))
  have h₂ : Reachable 16 (fun _ => stored) ⟨{ connected := true, phase := .head },
      { state := stored.db, executed := [bytes "KEYS"], sent := bytes "*2\n$a\\nb\n$k\n" },
      [], bytes "*2\n$a\\nb\n$k\n", [bytes "KEYS"]⟩ :=
    (((h₁.move (@Move.serverReceive 16 _ _ (bytes "KEY") (bytes "S\n") rfl rfl (by decide)
      (by decide))).move
      (@Move.serverReceive 16 _ _ (bytes "S\n") [] rfl rfl (by decide) (by decide))).move
      (@Move.serverSend 16 _ _ (bytes "*2\n$a\\nb\n$k\n") false 4 rfl (by decide) (by decide))).move
      (@Move.serverSend 16 _ _ (bytes "a\\nb\n$k\n") false 8 rfl (by decide) (by decide))
  have h₃ : Reachable 16 (fun _ => stored) ⟨{ connected := true, replies := [storedKeys] },
      { state := stored.db, executed := [bytes "KEYS"], sent := bytes "*2\n$a\\nb\n$k\n" },
      [], [], [bytes "KEYS"]⟩ :=
    (h₂.move (@Move.clientReceive 16 _ _ (bytes "*2\n$a\\nb\n$") (bytes "k\n") (.inl rfl) rfl
      (by decide) (by decide))).move
      (@Move.clientReceive 16 _ _ (bytes "k\n") [] (.inr ⟨_, _, rfl⟩) rfl (by decide) (by decide))
  have h₄ := (h₃.call rfl (⟨by decide, by decide, by decide⟩ : Sendable 16 (bytes "GET k"))).move
    (@Move.clientSend 16 _ _ (bytes "GET k\n") 6 rfl (by decide) (by decide))
  have h₅ := (h₄.move
    (@Move.serverReceive 16 _ _ (bytes "GET k\n") [] rfl rfl (by decide) (by decide))).move
    (@Move.serverSend 16 _ _ (bytes "$v\n") false 3 rfl (by decide) (by decide))
  have h₆ := h₅.move
    (@Move.clientReceive 16 _ _ (bytes "$v\n") [] (.inl rfl) rfl (by decide) (by decide))
  obtain ⟨-, -, -, hidle, -⟩ := (session_stays_in_step 16 _ fun _ => hfound).1 _ h₆
  exact ⟨_, h₆, rfl, (hidle rfl).1.trans (by decide +kernel)⟩

end Session

end VCache
