import Mathlib.Data.Prod.Lex
import VCache.Lib.Finish
import VCache.Server.Sessions

/-!
# Every line is answered

A connection whose handler goes on, whose peer reads, and whose saves return is done after
finitely many steps: all its lines are worked off and all replies are sent. How much there is
to send is known only when the database has answered, so there is no bound beforehand. Other
connections, sweeps and whatever else is called on the database come in between as they like.
-/

namespace VCache

open Function Lib Database

namespace Database

/-- The sections that the call of a command has before it, and its return. -/
def Call.left (shards : Nat) : Call → Nat
  | .atKey _ => 1
  | .keys next _ | .snapshot next _ => shards - next + 1
  | _ => 0

theorem Underway.left_lt {route : Bytes → Nat} {limited : Bool} {moments : List Moment} {op : Op}
    {call : Call} (h : Underway route limited moments op call) (hcall : ∀ a, call ≠ .returned a)
    (db : Database) (now : Int) :
    (call.advance db now).2.left db.shards.length < call.left db.shards.length := by
  cases h with
  | key _ => exact Nat.one_pos
  | @keys next es _ =>
    cases hs : db.shards[next]? with
    | none => simp only [Call.advance, hs]; exact Nat.succ_pos _
    | some s =>
      have hlt := (List.getElem?_eq_some_iff.1 hs).1
      simp only [Call.advance, hs, Call.left]
      omega
  | @snapshot next es _ =>
    cases hs : db.shards[next]? with
    | none => simp only [Call.advance, hs]; exact Nat.succ_pos _
    | some s =>
      have hlt := (List.getElem?_eq_some_iff.1 hs).1
      simp only [Call.advance, hs, Call.left]
      omega
  | @done _ a _ => exact absurd rfl (hcall a)

end Database

namespace Server

namespace Session

section

variable {a a' b b' d d' : Nat} {x y : Nat ×ₗ Nat}

theorem lt_of_lines (h : a' < a) : toLex (a', x) < toLex (a, y) :=
  Prod.Lex.toLex_lt_toLex.2 (.inl h)

theorem lt_of_stage (h : b' < b) : toLex (a, toLex (b', d')) < toLex (a, toLex (b, d)) :=
  Prod.Lex.toLex_lt_toLex.2 (.inr ⟨rfl, Prod.Lex.toLex_lt_toLex.2 (.inl h)⟩)

theorem lt_of_left (h : d' < d) : toLex (a, toLex (b, d')) < toLex (a, toLex (b, d)) :=
  Prod.Lex.toLex_lt_toLex.2 (.inr ⟨rfl, Prod.Lex.toLex_lt_toLex.2 (.inr ⟨rfl, h⟩)⟩)

end

/-- The lines to come, where the handler is with one, and how far it has come there. -/
def work (shards : Nat) (c : Session) : Nat ×ₗ (Nat ×ₗ Nat) :=
  match c.phase with
  | .receiving | .finished => toLex (0, toLex (0, 0))
  | .cutting => toLex ((lines Ascii.lf c.pending).length + 1, toLex (0, 0))
  | .executing _ _ call _ =>
    toLex ((lines Ascii.lf c.pending).length + 1, toLex (2, call.left shards))
  | .sending rest drop =>
    toLex (if drop then 0 else (lines Ascii.lf c.pending).length + 1, toLex (1, rest.length))

variable {c : Session} {shards : Nat}

theorem zero_le_work : toLex (0, toLex (0, 0)) ≤ c.work shards := by
  generalize c.work shards = x
  obtain ⟨a, b, d⟩ := x
  refine Prod.Lex.toLex_le_toLex.2 ?_
  rcases Nat.eq_zero_or_pos a with ha | ha
  · refine .inr ⟨ha.symm, Prod.Lex.toLex_le_toLex.2 ?_⟩
    rcases Nat.eq_zero_or_pos b with hb | hb
    · exact .inr ⟨hb.symm, Nat.zero_le d⟩
    · exact .inl hb
  · exact .inl ha

theorem work_cut_lt (hp : c.phase = .cutting) (persistent : Bool) (maxRequestBytes : Nat) :
    (c.cut persistent maxRequestBytes shards).work shards < c.work shards := by
  have hnow : c.work shards = toLex ((lines Ascii.lf c.pending).length + 1, toLex (0, 0)) := by
    rw [work, hp]
  rw [hnow]
  unfold Session.cut
  rcases split_first Ascii.lf c.pending with hn | ⟨line, after, hn, hpend⟩
  · rw [cutFirst_eq_none hn]
    dsimp only
    split <;> exact lt_of_lines (Nat.succ_pos _)
  · have hcut : cutFirst Ascii.lf c.pending = some (line, after) := by
      rw [hpend]
      exact cutFirst_line hn after
    have hlines : (lines Ascii.lf c.pending).length = (lines Ascii.lf after).length + 1 := by
      rw [hpend, lines_line hn]
      rfl
    have hclose : ∀ e : Exchange, (({ c with pending := after } : Session).close e).work shards <
        toLex ((lines Ascii.lf c.pending).length + 1, toLex (0, 0)) := by
      intro e
      rw [hlines]
      unfold Session.close work
      cases e.response <;> exact lt_of_lines (Nat.lt_succ_self _)
    rw [hcut]
    dsimp only
    split
    · exact hclose _
    · split
      · exact hclose _
      · rw [hlines]
        exact lt_of_lines (Nat.lt_succ_self _)

theorem work_accepted_lt {left : Bytes} {drop : Bool} {count : Nat}
    (hp : c.phase = .sending left drop) (hcount : 0 < count ∨ left = []) :
    (c.accepted left drop count).work shards < c.work shards := by
  have hnow : c.work shards = toLex (if drop then 0 else (lines Ascii.lf c.pending).length + 1,
      toLex (1, left.length)) := by
    rw [work, hp]
  rw [hnow]
  unfold Session.accepted
  by_cases hlt : count < left.length
  · simp only [if_pos hlt, work]
    refine lt_of_left ?_
    rw [List.length_drop]
    rcases hcount with hcount | rfl
    · omega
    · exact absurd hlt (Nat.not_lt_zero _)
  · simp only [if_neg hlt, work]
    cases drop <;> exact lt_of_stage Nat.one_pos

theorem work_close_lt {line : Bytes} {command : Command} {call : Call} {moments : List Moment}
    (hp : c.phase = .executing line command call moments) (e : Exchange) :
    (c.close e).work shards < c.work shards := by
  have hnow : c.work shards =
      toLex ((lines Ascii.lf c.pending).length + 1, toLex (2, call.left shards)) := by
    rw [work, hp]
  rw [hnow]
  unfold Session.close work
  cases e.response with
  | none => exact lt_of_stage Nat.two_pos
  | some _ => exact lt_of_stage Nat.one_lt_two

/-- The handler is done: it waits for more, and every line has its reply, or the connection is
closed. -/
def Done (c : Session) : Prop :=
  c.phase = .finished ∨ c.phase = .receiving ∧
    c.exchanges.map (·.line) = lines Ascii.lf c.received ∧ c.sent = c.replies

end Session

namespace Shared

variable {persistent : Bool} {maxRequestBytes : Nat} {s s' : Shared} {n : Nat}

/-- What the handler of a connection does without waiting for its peer to send: a round of the
loop, a section of a call that has not returned, the reply, and a `send` that takes something. -/
inductive Prompt (persistent : Bool) (maxRequestBytes n : Nat) (s : Shared) : Shared → Prop where
  | cut : (s.sessions n).phase = .cutting →
      Prompt persistent maxRequestBytes n s (s.setSession n
        ((s.sessions n).cut persistent maxRequestBytes s.watch.sys.db.shards.length))
  | advance {line : Bytes} {command : Command} {call : Call} {moments : List Moment} :
      (s.sessions n).phase = .executing line command call moments →
      (∀ a, call ≠ .returned a) →
      Prompt persistent maxRequestBytes n s (setSession { s with watch := s.watch.goOn call } n
        { s.sessions n with
          phase := .executing line command (call.advance s.watch.sys.db s.watch.sys.clock).2
            (moments ++ [s.watch.moment]) })
  | answer {line : Bytes} {command : Command} {a : Answer} {moments : List Moment}
      (saved : SaveOutcome) :
      (s.sessions n).phase = .executing line command (.returned a) moments →
      Prompt persistent maxRequestBytes n s (s.setSession n ((s.sessions n).close
        ⟨line, some (CommandExecutor.respond command saved a), some a, saved, moments⟩))
  | send {left : Bytes} {drop : Bool} {count : Nat} :
      (s.sessions n).phase = .sending left drop → count ≤ left.length → 0 < count ∨ left = [] →
      Prompt persistent maxRequestBytes n s
        (s.setSession n ((s.sessions n).accepted left drop count))

/-- Whatever else happens: the connection is left alone, or it is closed. -/
def Others (persistent : Bool) (maxRequestBytes n : Nat) (s s' : Shared) : Prop :=
  Step persistent maxRequestBytes s s' ∧
    (s'.sessions n = s.sessions n ∨ (s'.sessions n).phase = .finished)

theorem Prompt.step (h : Prompt persistent maxRequestBytes n s s') :
    Step persistent maxRequestBytes s s' := by
  cases h with
  | cut hp => exact .cut hp
  | advance hp _ => exact .advance hp
  | answer saved hp => exact .answer saved hp
  | send hp hle _ => exact .send hp hle

theorem Step.count (hs : Step persistent maxRequestBytes s s') (h : Inv persistent s) :
    s'.watch.sys.db.shards.length = s.watch.sys.db.shards.length := by
  cases hs with
  | background hw => exact hw.count h.watch
  | advance _ => exact (h.watch.keeps_goOn _).count
  | _ => rfl

/-- What a connection has before it. -/
def work (n : Nat) (s : Shared) : Nat ×ₗ (Nat ×ₗ Nat) :=
  (s.sessions n).work s.watch.sys.db.shards.length

theorem work_setSession (c : Session) :
    (s.setSession n c).work n = c.work s.watch.sys.db.shards.length := by
  show Session.work _ (update s.sessions n c n) = _
  rw [update_self]
  rfl

theorem Prompt.work_lt (hs : Prompt persistent maxRequestBytes n s s') (h : Inv persistent s) :
    s'.work n < s.work n := by
  cases hs with
  | cut hp =>
    rw [work_setSession]
    exact Session.work_cut_lt hp ..
  | @advance line command call moments hp hcall =>
    obtain ⟨-, op, -, hunder⟩ := (h.session n).executing _ _ _ _ hp
    have hlt := hunder.left_lt hcall s.watch.sys.db s.watch.sys.clock
    rw [work_setSession]
    show Session.work (s.watch.goOn call).sys.db.shards.length _ < _
    rw [(h.watch.keeps_goOn call).count, work, Session.work, Session.work, hp]
    exact Session.lt_of_left hlt
  | answer saved hp =>
    rw [work_setSession]
    exact Session.work_close_lt hp _
  | send hp _ hcount =>
    rw [work_setSession]
    exact Session.work_accepted_lt hp hcount

theorem Others.work_le (hs : Others persistent maxRequestBytes n s s') (h : Inv persistent s) :
    s'.work n ≤ s.work n := by
  obtain ⟨hstep, hsame | hfin⟩ := hs
  · rw [work, work, hsame, hstep.count h]
  · rw [work, Session.work, hfin]
    exact Session.zero_le_work

theorem Inv.prompt (h : Inv persistent s) (hnot : ¬ (s.sessions n).Done) :
    ∃ s', Prompt persistent maxRequestBytes n s s' := by
  cases hp : (s.sessions n).phase with
  | receiving => exact absurd (.inr ⟨hp, (h.session n).all_answered hp⟩) hnot
  | finished => exact absurd (.inl hp) hnot
  | cutting => exact ⟨_, .cut hp⟩
  | executing line command call moments =>
    by_cases hcall : ∃ a, call = .returned a
    · obtain ⟨a, rfl⟩ := hcall
      exact ⟨_, .answer {} hp⟩
    · exact ⟨_, .advance hp fun a ha => hcall ⟨a, ha⟩⟩
  | sending left drop =>
    refine ⟨_, .send hp (le_refl left.length) ?_⟩
    cases left with
    | nil => exact .inr rfl
    | cons => exact .inl (Nat.succ_pos _)

/-- **Every line is answered.** Whatever the others do, and however their steps come in between,
a handler whose steps are not withheld takes finitely many of them; then it waits for its peer,
every line it was sent has been worked off and every reply has been sent, or the connection is
closed. -/
theorem lines_get_answered (h : Reachable persistent maxRequestBytes s) (n : Nat) :
    EndsAmid (Others persistent maxRequestBytes n) (Prompt persistent maxRequestBytes n)
      (fun s => (s.sessions n).Done) s := by
  refine @endsAmid_of_measure _ _ _ _ (Reachable persistent maxRequestBytes) _ _ _ _ (work n)
    (fun s s' hr hs => ?_) (fun s s' hr hs => ?_) (fun s hr hnot => hr.inv.prompt hnot) h
  · exact ⟨hr.step hs.step, hs.work_lt hr.inv⟩
  · exact ⟨hr.step hs.1, hs.work_le hr.inv⟩

/-- Two lines in one chunk, the second without its end. -/
theorem lines_get_answered_chunk : ∃ s, Reachable false 1024 s ∧
    (s.sessions 0).phase = .cutting ∧ (s.sessions 0).received = bytes "KEYS\nGET" ∧
    EndsAmid (Others false 1024 0) (Prompt false 1024 0) (fun s => (s.sessions 0).Done) s := by
  have h0 := @Reachable.new false 1024 1 1 _ rfl 0
  have h1 := h0.step (.receive (n := 0) (bytes "KEYS\nGET") rfl)
  exact ⟨_, h1, rfl, rfl, lines_get_answered h1 0⟩

end Shared

end Server

end VCache
