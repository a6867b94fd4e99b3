import VCache.Server.Framing
import VCache.Database.Moments

/-!
# Many connections on one database

Each connection has its own handler and its own executor; what they share is the database.
A command that needs it is a call that goes from critical section to critical section, so the
commands of other connections, sweeps and scheduled snapshots come in between.

What a connection is sent are the replies to its own lines, one for each and in their order.
Each reply is explained by the keyspace as it was at a moment of the command: for a command
on a key the moment it had the shard of the key, for `KEYS` the moments it had the shards.
-/

namespace VCache

open Function Lib Database

open CommandExecutor (request immediate respond)

namespace Server

/-! ### Sessions -/

/-- A line and what came of it: if its command called the database, with the answer, what a
save came to, and the moments at which the call had a shard. -/
structure Exchange where
  line : Bytes
  response : Option Bytes
  answer : Option Answer := none
  saved : SaveOutcome := {}
  moments : List Moment := []

namespace Session

/-- Where a handler is: in `recv`, at the head of the loop over the lines, in a call of the
database, or in a `send`. `moments` are those at which the call had a shard. -/
inductive Phase where
  | receiving
  | cutting
  | executing (line : Bytes) (command : Command) (call : Call) (moments : List Moment)
  | sending (rest : Bytes) (drop : Bool)
  | finished

def Phase.line : Phase → List Bytes
  | .executing line _ _ _ => [line]
  | _ => []

end Session

/-- One connection. `received`, `exchanges` and `sent` record what went over it. -/
structure Session where
  pending : Bytes := []
  phase : Session.Phase := .receiving
  received : Bytes := []
  exchanges : List Exchange := []
  sent : Bytes := []

def tooLarge : Bytes := framed (Protocol.error (bytes "ERR request too large"))

namespace Session

def receive (c : Session) (chunk : Bytes) : Session :=
  { c with
    pending := c.pending ++ chunk
    received := c.received ++ chunk
    phase := .cutting }

/-- A line is done with; without a response the loop goes on. -/
def close (c : Session) (e : Exchange) : Session :=
  { c with
    exchanges := c.exchanges ++ [e]
    phase := match e.response with
      | none => .cutting
      | some response => .sending (framed response) false }

/-- A round of the loop over the lines. -/
def cut (c : Session) (persistent : Bool) (maxRequestBytes shards : Nat) : Session :=
  match cutFirst Ascii.lf c.pending with
  | none =>
    if c.pending.length > maxRequestBytes then { c with phase := .sending tooLarge true }
    else { c with phase := .receiving }
  | some (line, after) =>
    let c := { c with pending := after }
    match CommandParser.parse line with
    | .error error => c.close { line, response := some (Protocol.error error) }
    | .ok command =>
      match request persistent command with
      | none => c.close { line, response := immediate command }
      | some op => { c with phase := .executing line command (Call.of shards op) [] }

def accepted (c : Session) (rest : Bytes) (drop : Bool) (count : Nat) : Session :=
  { c with
    sent := c.sent ++ rest.take count
    phase := if count < rest.length then .sending (rest.drop count) drop
      else if drop then .finished else .cutting }

end Session

/-- The database, whatever else is called on it, and the connections. -/
structure Shared where
  watch : Watched
  sessions : Nat → Session := fun _ => {}

namespace Shared

variable (persistent : Bool) (maxRequestBytes : Nat)

def setSession (s : Shared) (n : Nat) (c : Session) : Shared :=
  { s with sessions := update s.sessions n c }

inductive Step (s : Shared) : Shared → Prop where
  /-- Time passes, or somebody else calls: the sweeper, the scheduler, the program itself. -/
  | background {watch : Watched} : s.watch.Step watch → Step s { s with watch }
  | receive {n : Nat} (chunk : Bytes) : (s.sessions n).phase = .receiving →
      Step s (s.setSession n ((s.sessions n).receive chunk))
  | cut {n : Nat} : (s.sessions n).phase = .cutting →
      Step s (s.setSession n
        ((s.sessions n).cut persistent maxRequestBytes s.watch.sys.db.shards.length))
  | advance {n : Nat} {line : Bytes} {command : Command} {call : Call} {moments : List Moment} :
      (s.sessions n).phase = .executing line command call moments →
      Step s (setSession { s with watch := s.watch.goOn call } n
        { s.sessions n with
          phase := .executing line command (call.advance s.watch.sys.db s.watch.sys.clock).2
            (moments ++ [s.watch.moment]) })
  | answer {n : Nat} {line : Bytes} {command : Command} {a : Answer} {moments : List Moment}
      (saved : SaveOutcome) :
      (s.sessions n).phase = .executing line command (.returned a) moments →
      Step s (s.setSession n ((s.sessions n).close
        ⟨line, some (respond command saved a), some a, saved, moments⟩))
  | send {n : Nat} {rest : Bytes} {drop : Bool} {count : Nat} :
      (s.sessions n).phase = .sending rest drop → count ≤ rest.length →
      Step s (s.setSession n ((s.sessions n).accepted rest drop count))
  /-- The peer is gone, a system call fails, or the server stops. -/
  | hangUp {n : Nat} : (s.sessions n).phase.line = [] →
      Step s (s.setSession n { s.sessions n with phase := .finished })

inductive Reachable : Shared → Prop where
  | new {n shardCount : UInt64} {db : Database} (h : Database.new n shardCount = some db)
      (clock : Int) : Reachable { watch := { sys := { db, clock } } }
  | step {s s' : Shared} : Reachable s → Step persistent maxRequestBytes s s' → Reachable s'

end Shared

/-! ### What a connection has been sent -/

theorem underway_of (route : Bytes → Nat) (limited : Bool) (shards : Nat) {persistent : Bool}
    {command : Command} {op : Op} (h : request persistent command = some op) :
    Underway route limited [] op (Call.of shards op) := by
  obtain ⟨type, key, value, expire⟩ := command
  cases type with
  | empty => cases h
  | set => cases expire <;> cases h <;> exact .key rfl
  | get => cases h; exact .key rfl
  | del => cases h; exact .key rfl
  | «exists» => cases h; exact .key rfl
  | keys => cases h; exact .keys .start
  | save =>
    cases persistent with
    | false => cases h
    | true => cases h; exact .snapshot .start

/-- The reply to a line is the one its command calls for, and the keyspace at its moments
explains it. -/
def Exchange.Explained (persistent limited : Bool) (e : Exchange) : Prop :=
  match CommandParser.parse e.line with
  | .error error => e.response = some (Protocol.error error)
  | .ok command =>
    match request persistent command with
    | none => e.response = immediate command
    | some op => ∃ a, e.answer = some a ∧ e.response = some (respond command e.saved a) ∧
        Database.Explained limited e.moments op a

namespace Session

def replies (c : Session) : Bytes := c.exchanges.flatMap fun e => replyBytes e.response

/-- What has been sent, and what is still to go. -/
def Owes (c : Session) : Prop :=
  match c.phase with
  | .sending rest false => c.sent ++ rest = c.replies
  | .sending rest true => c.sent ++ rest = c.replies ++ tooLarge
  | .finished => c.sent <+: c.replies ++ tooLarge
  | _ => c.sent = c.replies

structure Inv (persistent limited : Bool) (route : Bytes → Nat) (c : Session) : Prop where
  inOrder : c.exchanges.map (·.line) ++ (c.phase.line ++ lines Ascii.lf c.pending) =
    lines Ascii.lf c.received
  remainder : rest Ascii.lf c.pending = rest Ascii.lf c.received
  quiet : c.phase = .receiving → lines Ascii.lf c.pending = []
  owes : c.Owes
  explained : ∀ e ∈ c.exchanges, e.Explained persistent limited
  executing : ∀ line command call moments, c.phase = .executing line command call moments →
    CommandParser.parse line = .ok command ∧ ∃ op, request persistent command = some op ∧
      Underway route limited moments op call

section

variable {persistent limited : Bool} {route : Bytes → Nat} {c : Session}

theorem Inv.start : Inv persistent limited route {} :=
  ⟨rfl, rfl, fun _ => rfl, rfl, fun e he => (by cases he), fun _ _ _ _ h => by cases h⟩

theorem Inv.weaken (h : Inv persistent limited route c) (b : Bool) :
    Inv persistent (limited || b) route c := by
  refine ⟨h.inOrder, h.remainder, h.quiet, h.owes, fun e he => ?_,
    fun line command call moments hp => ?_⟩
  · have hx := h.explained e he
    unfold Exchange.Explained at hx ⊢
    split
    next hparse => rw [hparse] at hx; exact hx
    next command hparse =>
      rw [hparse] at hx
      dsimp only at hx ⊢
      split
      next hr => rw [hr] at hx; exact hx
      next op hr =>
        rw [hr] at hx
        obtain ⟨a, ha, hresp, hx⟩ := hx
        exact ⟨a, ha, hresp, hx.weaken b⟩
  · obtain ⟨hparse, op, hr, hs⟩ := h.executing line command call moments hp
    exact ⟨hparse, op, hr, hs.weaken b⟩

theorem Inv.receive (h : Inv persistent limited route c) (hp : c.phase = .receiving)
    (chunk : Bytes) : Inv persistent limited route (c.receive chunk) := by
  have hnil := h.quiet hp
  have hlines := h.inOrder
  have howes := h.owes
  rw [hp, hnil] at hlines
  unfold Owes at howes
  rw [hp] at howes
  have hrest : rest Ascii.lf c.received = c.pending := by
    rw [← h.remainder, rest_of_lines_eq_nil hnil]
  refine ⟨?_, ?_, fun e => (by cases e), howes, h.explained, fun _ _ _ _ e => by cases e⟩
  · show c.exchanges.map (·.line) ++ ([] ++ lines Ascii.lf (c.pending ++ chunk)) =
      lines Ascii.lf (c.received ++ chunk)
    rw [lines_append c.received chunk, hrest, ← hlines]
    simp [Phase.line]
  · show rest Ascii.lf (c.pending ++ chunk) = rest Ascii.lf (c.received ++ chunk)
    rw [rest_append c.received chunk, hrest]

theorem Inv.close (h : Inv persistent limited route c) (e : Exchange) (after : Bytes)
    (hsent : c.sent = c.replies)
    (hline : c.phase.line ++ lines Ascii.lf c.pending = e.line :: lines Ascii.lf after)
    (hrest : rest Ascii.lf c.pending = rest Ascii.lf after)
    (he : e.Explained persistent limited) :
    Inv persistent limited route (({ c with pending := after } : Session).close e) := by
  refine ⟨?_, hrest.symm.trans h.remainder, fun hp => ?_, ?_, fun e' he' => ?_,
    fun line command call moments hp => ?_⟩
  · have hlines := h.inOrder
    rw [hline] at hlines
    have hnone : (({ c with pending := after } : Session).close e).phase.line = [] := by
      unfold Session.close
      cases e.response <;> rfl
    rw [hnone]
    refine Eq.trans ?_ hlines
    simp [Session.close]
  · unfold Session.close at hp
    cases hr : e.response <;> simp [hr] at hp
  · unfold Owes Session.close replies
    cases hr : e.response with
    | none =>
      simp only [List.flatMap_append, List.flatMap_cons, List.flatMap_nil, hr, replyBytes,
        List.append_nil]
      exact hsent
    | some response =>
      simp only [List.flatMap_append, List.flatMap_cons, List.flatMap_nil, hr, replyBytes,
        List.append_nil]
      rw [hsent]
      rfl
  · rcases List.mem_append.1 he' with he' | he'
    · exact h.explained e' he'
    · exact List.mem_singleton.1 he' ▸ he
  · unfold Session.close at hp
    cases hr : e.response <;> simp [hr] at hp

theorem Inv.cut (h : Inv persistent limited route c) (hp : c.phase = .cutting)
    (maxRequestBytes shards : Nat) :
    Inv persistent limited route (c.cut persistent maxRequestBytes shards) := by
  have hlines := h.inOrder
  have howes := h.owes
  rw [hp] at hlines
  unfold Owes at howes
  rw [hp] at howes
  unfold Session.cut
  rcases split_first Ascii.lf c.pending with hn | ⟨line, after, hn, hpend⟩
  · rw [cutFirst_eq_none hn]
    dsimp only
    split
    · refine ⟨hlines, h.remainder, fun e => (by cases e), ?_, h.explained,
        fun _ _ _ _ e => by cases e⟩
      show c.sent ++ tooLarge = c.replies ++ tooLarge
      rw [show c.sent = c.replies from howes]
    · exact ⟨hlines, h.remainder, fun _ => lines_of_notMem hn, howes, h.explained,
        fun _ _ _ _ e => by cases e⟩
  · have hcut : cutFirst Ascii.lf c.pending = some (line, after) := by
      rw [hpend]
      exact cutFirst_line hn after
    have hl : lines Ascii.lf c.pending = line :: lines Ascii.lf after := by
      rw [hpend, lines_line hn]
    have hr : rest Ascii.lf c.pending = rest Ascii.lf after := by rw [hpend, rest_line hn]
    rw [hcut]
    dsimp only
    split
    next error hparse =>
      refine h.close _ after howes (by rw [hp]; exact hl) hr ?_
      simp only [Exchange.Explained, hparse]
    next command hparse =>
      split
      next hreq =>
        refine h.close _ after howes (by rw [hp]; exact hl) hr ?_
        simp only [Exchange.Explained, hparse, hreq]
      next op hreq =>
        refine ⟨?_, hr.symm.trans h.remainder, fun e => (by cases e), howes, h.explained,
          fun _ _ _ _ e => ?_⟩
        · rw [← hlines, hl]
          rfl
        · cases e
          exact ⟨hparse, op, hreq, underway_of route limited shards hreq⟩

theorem Owes.sent_prefix (h : c.Owes) : c.sent <+: c.replies ++ tooLarge := by
  unfold Owes at h
  split at h
  · rw [← h, List.append_assoc]
    exact List.prefix_append ..
  · rw [← h]
    exact List.prefix_append ..
  · exact h
  · rw [h]
    exact List.prefix_append ..

/-- A connection that is waited on has all its replies. -/
theorem Inv.all_answered (h : Inv persistent limited route c) (hp : c.phase = .receiving) :
    c.exchanges.map (·.line) = lines Ascii.lf c.received ∧ c.sent = c.replies := by
  have hlines := h.inOrder
  have howes := h.owes
  rw [h.quiet hp, hp] at hlines
  unfold Owes at howes
  rw [hp] at howes
  exact ⟨by simpa [Phase.line] using hlines, howes⟩

theorem Inv.accepted (h : Inv persistent limited route c) {left : Bytes} {drop : Bool} {count : Nat}
    (hp : c.phase = .sending left drop) (hle : count ≤ left.length) :
    Inv persistent limited route (c.accepted left drop count) := by
  have hlines := h.inOrder
  have howes := h.owes
  rw [hp] at hlines
  unfold Owes at howes
  rw [hp] at howes
  unfold Session.accepted
  by_cases hlt : count < left.length
  · simp only [if_pos hlt]
    refine ⟨hlines, h.remainder, fun e => (by cases e), ?_, h.explained,
      fun _ _ _ _ e => by cases e⟩
    have hjoin : c.sent ++ left.take count ++ left.drop count = c.sent ++ left := by
      rw [List.append_assoc, List.take_append_drop]
    cases drop with
    | false => exact hjoin.trans howes
    | true => exact hjoin.trans howes
  · have hall : left.take count = left := List.take_of_length_le (by omega)
    simp only [if_neg hlt, hall]
    cases drop with
    | false =>
      exact ⟨hlines, h.remainder, fun e => (by cases e), howes, h.explained,
        fun _ _ _ _ e => by cases e⟩
    | true =>
      refine ⟨hlines, h.remainder, fun e => (by cases e), ?_, h.explained,
        fun _ _ _ _ e => by cases e⟩
      show c.sent ++ left <+: c.replies ++ tooLarge
      rw [show c.sent ++ left = _ from howes]

theorem Inv.hangUp (h : Inv persistent limited route c) (hp : c.phase.line = []) :
    Inv persistent limited route { c with phase := .finished } := by
  have hlines := h.inOrder
  rw [hp] at hlines
  exact ⟨hlines, h.remainder, fun e => (by cases e), h.owes.sent_prefix, h.explained,
    fun _ _ _ _ e => by cases e⟩

section

variable {line : Bytes} {command : Command} {call : Call} {moments : List Moment}

theorem Inv.advance (h : Inv persistent limited route c)
    (hp : c.phase = .executing line command call moments) {call' : Call} {moments' : List Moment}
    (hunder : ∀ op, Underway route limited moments op call →
      Underway route limited moments' op call') :
    Inv persistent limited route { c with phase := .executing line command call' moments' } := by
  obtain ⟨hparse, op, hreq, hs⟩ := h.executing _ _ _ _ hp
  have hlines := h.inOrder
  have howes := h.owes
  rw [hp] at hlines
  unfold Owes at howes
  rw [hp] at howes
  refine ⟨hlines, h.remainder, fun e => (by cases e), howes, h.explained, fun _ _ _ _ e => ?_⟩
  cases e
  exact ⟨hparse, op, hreq, hunder op hs⟩

theorem Inv.answer {a : Answer} (h : Inv persistent limited route c)
    (hp : c.phase = .executing line command (.returned a) moments) (saved : SaveOutcome) :
    Inv persistent limited route
      (c.close ⟨line, some (respond command saved a), some a, saved, moments⟩) := by
  obtain ⟨hparse, op, hreq, hs⟩ := h.executing _ _ _ _ hp
  have howes := h.owes
  unfold Owes at howes
  rw [hp] at howes
  refine h.close _ c.pending howes (by rw [hp]; rfl) rfl ?_
  cases hs with
  | done ha =>
    simp only [Exchange.Explained, hparse, hreq]
    exact ⟨a, rfl, rfl, ha⟩

end

end

end Session

namespace Shared

variable {persistent : Bool} {maxRequestBytes : Nat} {s s' : Shared}

structure Inv (persistent : Bool) (s : Shared) : Prop where
  watch : s.watch.Inv
  session : ∀ n, (s.sessions n).Inv persistent s.watch.limited s.watch.sys.db.shardIndexFor

theorem Inv.setSession (h : Inv persistent s) {n : Nat} {c : Session}
    (hc : c.Inv persistent s.watch.limited s.watch.sys.db.shardIndexFor) :
    Inv persistent (s.setSession n c) := by
  refine ⟨h.watch, fun n' => ?_⟩
  show (update s.sessions n c n').Inv persistent s.watch.limited s.watch.sys.db.shardIndexFor
  by_cases hn : n' = n
  · rw [hn, update_self]
    exact hc
  · rw [update_of_ne hn]
    exact h.session n'

theorem Step.inv (hs : Step persistent maxRequestBytes s s') (h : Inv persistent s) :
    Inv persistent s' := by
  cases hs with
  | @background watch hw =>
    obtain ⟨hroute, b, hl⟩ := hw.shape h.watch
    refine ⟨hw.inv h.watch, fun n => ?_⟩
    show (s.sessions n).Inv persistent watch.limited watch.sys.db.shardIndexFor
    rw [hroute, hl]
    exact (h.session n).weaken b
  | @receive n chunk hp => exact h.setSession ((h.session n).receive hp chunk)
  | @cut n hp => exact h.setSession ((h.session n).cut hp _ _)
  | @advance n line command call moments hp =>
    obtain ⟨-, op, -, hunder⟩ := (h.session n).executing _ _ _ _ hp
    obtain ⟨hmade, hfree⟩ := hunder.made
    have hkeeps := h.watch.keeps_goOn call
    have hmoved : Inv persistent { s with watch := s.watch.goOn call } := by
      refine ⟨h.watch.goOn hmade hfree, fun n => ?_⟩
      show (s.sessions n).Inv persistent s.watch.limited (s.watch.goOn call).sys.db.shardIndexFor
      rw [hkeeps.route]
      exact h.session n
    refine hmoved.setSession ?_
    show Session.Inv persistent s.watch.limited (s.watch.goOn call).sys.db.shardIndexFor _
    rw [hkeeps.route]
    exact (h.session n).advance hp fun op hs => hs.advance h.watch.coherent
  | @answer n line command a moments saved hp => exact h.setSession ((h.session n).answer hp saved)
  | @send n left drop count hp hle => exact h.setSession ((h.session n).accepted hp hle)
  | @hangUp n hp => exact h.setSession ((h.session n).hangUp hp)

theorem Reachable.inv (h : Reachable persistent maxRequestBytes s) : Inv persistent s := by
  induction h with
  | new hnew clock => exact ⟨(Watched.Reachable.new hnew clock).inv, fun _ => .start⟩
  | step _ hs ih => exact hs.inv ih

/-- **Every connection gets the replies to its own lines, in order.** The lines it has sent
and that have been worked off are the first ones it sent; what it was sent is the beginning of
the replies to them; each reply is explained by the keyspace at moments of its own command. A
connection that is waited on has all its replies. -/
theorem replies_in_order (h : Reachable persistent maxRequestBytes s) (n : Nat) :
    (s.sessions n).exchanges.map (·.line) <+: lines Ascii.lf (s.sessions n).received ∧
    (s.sessions n).sent <+: (s.sessions n).replies ++ tooLarge ∧
    (∀ e ∈ (s.sessions n).exchanges, e.Explained persistent s.watch.limited) ∧
    ((s.sessions n).phase = .receiving →
      (s.sessions n).exchanges.map (·.line) = lines Ascii.lf (s.sessions n).received ∧
      (s.sessions n).sent = (s.sessions n).replies) := by
  have hn := h.inv.session n
  exact ⟨hn.inOrder ▸ List.prefix_append .., hn.owes.sent_prefix, hn.explained,
    hn.all_answered⟩

/-- A `GET` of one connection gets in before the `SET` of another that was received first. -/
theorem replies_in_order_two : ∃ s, Reachable false 1024 s ∧
    (s.sessions 0).exchanges.map (·.response) = [some (bytes "+OK")] ∧
    (s.sessions 1).exchanges.map (·.response) = [some (bytes "_")] ∧
    ∀ n, (s.sessions n).exchanges.map (·.line) <+: lines Ascii.lf (s.sessions n).received ∧
      (s.sessions n).sent <+: (s.sessions n).replies ++ tooLarge ∧
      (∀ e ∈ (s.sessions n).exchanges, e.Explained false s.watch.limited) ∧
      ((s.sessions n).phase = .receiving →
        (s.sessions n).exchanges.map (·.line) = lines Ascii.lf (s.sessions n).received ∧
        (s.sessions n).sent = (s.sessions n).replies) := by
  have h0 := @Reachable.new false 1024 1 1 _ rfl 0
  have h1 := h0.step (.receive (n := 0) (bytes "SET k v\n") rfl)
  have h2 := h1.step (.cut (n := 0) rfl)
  have h3 := h2.step (.receive (n := 1) (bytes "GET k\n") rfl)
  have h4 := h3.step (.cut (n := 1) rfl)
  have h5 := h4.step (.advance (n := 1) (rfl : _ = Session.Phase.executing (bytes "GET k")
    { type := .get, key := bytes "k" } (.atKey (.get (bytes "k"))) []))
  have h6 := h5.step (.advance (n := 0) (rfl : _ = Session.Phase.executing (bytes "SET k v")
    { type := .set, key := bytes "k", value := bytes "v" }
    (.atKey (.set (bytes "k") (bytes "v"))) []))
  have h7 := h6.step (.answer (n := 0) (a := .outcome .inserted) {} rfl)
  have h8 := h7.step (.answer (n := 1) (a := .value none) {} rfl)
  exact ⟨_, h8, rfl, rfl, replies_in_order h8⟩

end Shared

end Server

end VCache
