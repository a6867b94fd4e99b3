import Mathlib.Order.WithBot
import VCache.Lib.Finish

/-!
# A thread on a timer

An object owns a thread that does some work, waits for an interval and starts again. Its
owner starts and stops it. The thread waits on a condition variable with a predicate, so it
can be woken early; `stop` sets the predicate's flag, notifies and joins.

A step is one critical section, one access of an atomic, or one blocking call. What the work
comes to is any result; the counters it is recorded in are updated one at a time.
-/

namespace VCache.Lib.Periodic

variable {κ ρ : Type}

inductive Owner where
  | idle
  /-- Has set `running` and is about to clear the flag. -/
  | arming
  | spawning
  | notifying
  | joining
  | clearing
deriving DecidableEq

inductive Loop (κ : Type) where
  | checking
  | sleeping (notified : Bool)
  | working
  | recording (updates : List (κ → κ))
  | ended

def Loop.notify : Loop κ → Loop κ
  | .sleeping _ => .sleeping true
  | l => l

structure Timer (κ ρ : Type) where
  counters : κ
  running : Bool := false
  stopRequested : Bool := false
  owner : Owner := .idle
  /-- `none` is a thread object that is not joinable. -/
  thread : Option (Loop κ) := none
  /-- A thread object was assigned to while it was joinable, which ends the program. -/
  crashed : Bool := false
  results : List ρ := []

inductive Action (ρ : Type) where
  | start
  | stop
  | owner
  | check
  /-- The thread wakes up, notified or for no reason. -/
  | wake
  | timeout
  | work (r : ρ)
  | record

variable (record : ρ → List (κ → κ))

namespace Timer

/-- The thread finds the flag set and ends, or goes on to `l`. -/
def test (t : Timer κ ρ) (l : Loop κ) : Timer κ ρ :=
  { t with thread := some (if t.stopRequested then .ended else l) }

/-- The owner's next step; `none` at rest and while it waits for the thread to end. -/
def advanceOwner (t : Timer κ ρ) : Option (Timer κ ρ) :=
  match t.owner with
  | .idle => none
  | .arming => some { t with stopRequested := false, owner := .spawning }
  | .spawning =>
    some { t with
           thread := some .checking
           crashed := t.crashed || t.thread.isSome
           owner := .idle }
  | .notifying => some { t with thread := t.thread.map Loop.notify, owner := .joining }
  | .joining =>
    match t.thread with
    | none => some { t with owner := .clearing }
    | some .ended => some { t with thread := none, owner := .clearing }
    | some _ => none
  | .clearing => some { t with running := false, owner := .idle }

def perform (t : Timer κ ρ) : Action ρ → Option (Timer κ ρ)
  | .start =>
    if t.owner = .idle then
      some (if t.running then t else { t with running := true, owner := .arming })
    else none
  | .stop =>
    if t.owner = .idle then some { t with stopRequested := true, owner := .notifying } else none
  | .owner => t.advanceOwner
  | .check =>
    match t.thread with
    | some .checking => some (t.test (.sleeping false))
    | _ => none
  | .wake =>
    match t.thread with
    | some (.sleeping _) => some (t.test (.sleeping false))
    | _ => none
  | .timeout =>
    match t.thread with
    | some (.sleeping _) => some (t.test .working)
    | _ => none
  | .work r =>
    match t.thread with
    | some .working =>
      some { t with thread := some (.recording (record r)), results := t.results ++ [r] }
    | _ => none
  | .record =>
    match t.thread with
    | some (.recording (f :: fs)) =>
      some { t with counters := f t.counters, thread := some (.recording fs) }
    | some (.recording []) => some { t with thread := some .checking }
    | _ => none

end Timer

inductive Reachable (start : κ) : Timer κ ρ → Prop where
  | start : Reachable start { counters := start }
  | step {t t' : Timer κ ρ} (a : Action ρ) : Reachable start t → t.perform record a = some t' →
      Reachable start t'

def applyAll (fs : List (κ → κ)) (k : κ) : κ := fs.foldl (fun k f => f k) k

/-- The counters after all of some results have been recorded. -/
def total (start : κ) (rs : List ρ) : κ := rs.foldl (fun k r => applyAll (record r) k) start

/-- The updates that are still to be made. -/
def Timer.unrecorded (t : Timer κ ρ) : List (κ → κ) :=
  match t.thread with
  | some (.recording fs) => fs
  | _ => []

/-- What the owner knows at each of its steps. -/
def Timer.Agrees (t : Timer κ ρ) : Prop :=
  match t.owner with
  | .idle => if t.running then t.thread.isSome = true ∧ t.stopRequested = false
      else t.thread = none
  | .arming => t.running = true ∧ t.thread = none
  | .spawning => t.running = true ∧ t.thread = none ∧ t.stopRequested = false
  | .notifying => t.stopRequested = true
  -- the wakeup is not lost
  | .joining => t.stopRequested = true ∧ t.thread ≠ some (.sleeping false)
  | .clearing => t.thread = none

structure Inv (start : κ) (t : Timer κ ρ) : Prop where
  agrees : t.Agrees
  safe : t.crashed = false
  told : t.thread = some .ended → t.stopRequested = true
  counted : applyAll t.unrecorded t.counters = total record start t.results

variable {record} {start : κ} {t t' : Timer κ ρ}

/-! ### Steps -/

theorem Inv.thread_moves (h : Inv record start t) {l : Loop κ} (hl : t.thread = some l)
    (l' : Loop κ) (hl' : t'.thread = some l')
    (hsame : t'.owner = t.owner ∧ t'.running = t.running ∧ t'.stopRequested = t.stopRequested ∧
      t'.crashed = t.crashed)
    (hsleep : l' = .sleeping false → t.stopRequested = false)
    (hend : l' = .ended → t.stopRequested = true)
    (hcount : applyAll t'.unrecorded t'.counters = total record start t'.results) :
    Inv record start t' := by
  obtain ⟨e1, e2, e3, e4⟩ := hsame
  refine ⟨?_, e4.trans h.safe, fun he => ?_, hcount⟩
  · have ha := h.agrees
    unfold Timer.Agrees at ha ⊢
    rw [e1, e2, e3, hl']
    rw [hl] at ha
    cases ho : t.owner with
    | idle =>
      rw [ho] at ha
      dsimp only at ha ⊢
      split at ha
      next hr => rw [if_pos hr]; exact ⟨rfl, ha.2⟩
      next => cases ha
    | arming => rw [ho] at ha; exact absurd ha.2 (Option.some_ne_none _)
    | spawning => rw [ho] at ha; exact absurd ha.2.1 (Option.some_ne_none _)
    | notifying => rw [ho] at ha; exact ha
    | joining =>
      rw [ho] at ha
      refine ⟨ha.1, fun hs => ?_⟩
      have := hsleep (Option.some.inj hs)
      rw [show t.stopRequested = true from ha.1] at this
      cases this
    | clearing => rw [ho] at ha; exact absurd ha (Option.some_ne_none _)
  · rw [hl'] at he
    rw [e3]
    exact hend (Option.some.inj he)

theorem Inv.test (h : Inv record start t) {l l' : Loop κ} (hl : t.thread = some l)
    (hquiet : t.unrecorded = []) (hl' : l' ≠ .ended) (hr : ∀ fs, l' ≠ .recording fs) :
    Inv record start (t.test l') := by
  have hcount := h.counted
  rw [hquiet] at hcount
  cases hs : t.stopRequested with
  | true =>
    refine h.thread_moves hl .ended (by simp [Timer.test, hs]) ⟨rfl, rfl, rfl, rfl⟩
      (fun e => by cases e) (fun _ => hs) ?_
    simpa [Timer.unrecorded, Timer.test, hs] using hcount
  | false =>
    refine h.thread_moves hl l' (by simp [Timer.test, hs]) ⟨rfl, rfl, rfl, rfl⟩
      (fun _ => hs) (fun e => absurd e hl') ?_
    have : (t.test l').unrecorded = [] := by
      simp only [Timer.unrecorded, Timer.test, hs, Bool.false_eq_true, if_false]
      cases l' with
      | recording fs => exact absurd rfl (hr fs)
      | _ => rfl
    rw [this]
    exact hcount

theorem Inv.advanceOwner (h : Inv record start t) (hs : t.advanceOwner = some t') :
    Inv record start t' := by
  have ha := h.agrees
  have hc := h.counted
  unfold Timer.Agrees at ha
  unfold Timer.advanceOwner at hs
  cases ho : t.owner with
  | idle => rw [ho] at hs; cases hs
  | arming =>
    rw [ho] at ha hs
    cases hs
    refine ⟨⟨ha.1, ha.2, rfl⟩, h.safe, fun he => ?_, hc⟩
    cases ha.2.symm.trans he
  | spawning =>
    rw [ho] at ha hs
    cases hs
    refine ⟨?_, ?_, fun he => (by cases he), ?_⟩
    · show if t.running then _ else _
      rw [if_pos ha.1]
      exact ⟨rfl, ha.2.2⟩
    · show (t.crashed || t.thread.isSome) = false
      rw [h.safe, ha.2.1]
      rfl
    · simpa [Timer.unrecorded, ha.2.1] using hc
  | notifying =>
    rw [ho] at ha hs
    cases hs
    refine ⟨⟨ha, fun he => ?_⟩, h.safe, fun _ => ha, ?_⟩
    · obtain ⟨l, -, hl⟩ := Option.map_eq_some_iff.1 he
      cases l <;> cases hl
    · unfold Timer.unrecorded at hc ⊢
      cases ht : t.thread with
      | none => simpa [ht] using hc
      | some l => cases l <;> simpa [ht, Loop.notify] using hc
  | joining =>
    rw [ho] at ha hs
    dsimp only at hs
    split at hs
    next hn =>
      cases hs
      exact ⟨hn, h.safe, h.told, hc⟩
    next he =>
      cases hs
      refine ⟨rfl, h.safe, fun e => (by cases e), ?_⟩
      simpa [Timer.unrecorded, he] using hc
    next => cases hs
  | clearing =>
    rw [ho] at ha hs
    cases hs
    exact ⟨ha, h.safe, h.told, hc⟩

theorem Inv.perform {a : Action ρ} (h : Inv record start t) (hs : t.perform record a = some t') :
    Inv record start t' := by
  have hc := h.counted
  cases a with
  | start =>
    simp only [Timer.perform, Option.ite_none_right_eq_some, Option.some.injEq] at hs
    obtain ⟨ho, rfl⟩ := hs
    cases hr : t.running with
    | true => simpa using h
    | false =>
      have ha := h.agrees
      unfold Timer.Agrees at ha
      rw [ho, hr] at ha
      simp only [Bool.false_eq_true, if_false] at ha ⊢
      exact ⟨⟨rfl, ha⟩, h.safe, h.told, hc⟩
  | stop =>
    simp only [Timer.perform, Option.ite_none_right_eq_some, Option.some.injEq] at hs
    obtain ⟨-, rfl⟩ := hs
    exact ⟨rfl, h.safe, fun _ => rfl, hc⟩
  | owner => exact h.advanceOwner hs
  | check =>
    simp only [Timer.perform] at hs
    split at hs
    next ht =>
      cases hs
      exact h.test ht (by simp [Timer.unrecorded, ht]) (by simp) (by simp)
    next => cases hs
  | wake =>
    simp only [Timer.perform] at hs
    split at hs
    next n ht =>
      cases hs
      exact h.test ht (by simp [Timer.unrecorded, ht]) (by simp) (by simp)
    next => cases hs
  | timeout =>
    simp only [Timer.perform] at hs
    split at hs
    next n ht =>
      cases hs
      exact h.test ht (by simp [Timer.unrecorded, ht]) (by simp) (by simp)
    next => cases hs
  | work r =>
    simp only [Timer.perform] at hs
    split at hs
    next ht =>
      cases hs
      refine h.thread_moves ht _ rfl ⟨rfl, rfl, rfl, rfl⟩ (fun e => by cases e)
        (fun e => by cases e) ?_
      have hu : t.unrecorded = [] := by simp [Timer.unrecorded, ht]
      rw [hu] at hc
      show applyAll (record r) t.counters = total record start (t.results ++ [r])
      unfold total at hc ⊢
      rw [List.foldl_append, ← hc]
      rfl
    next => cases hs
  | record =>
    simp only [Timer.perform] at hs
    split at hs
    next f fs ht =>
      cases hs
      refine h.thread_moves ht _ rfl ⟨rfl, rfl, rfl, rfl⟩ (fun e => by cases e)
        (fun e => by cases e) ?_
      have hu : t.unrecorded = f :: fs := by simp [Timer.unrecorded, ht]
      rw [hu] at hc
      exact hc
    next ht =>
      cases hs
      refine h.thread_moves ht _ rfl ⟨rfl, rfl, rfl, rfl⟩ (fun e => by cases e)
        (fun e => by cases e) ?_
      have hu : t.unrecorded = [] := by simp [Timer.unrecorded, ht]
      rw [hu] at hc
      exact hc
    next => cases hs

theorem Reachable.inv (h : Reachable record start t) : Inv record start t := by
  induction h with
  | start => exact ⟨rfl, rfl, fun e => (by cases e), rfl⟩
  | step a _ hs ih => exact ih.perform hs

theorem Inv.working_iff {a : Action ρ} (h : Inv record start t)
    (hs : t.perform record a = some t') (hwork : ∀ r, a ≠ .work r) (htime : a ≠ .timeout) :
    t'.thread = some .working ↔ t.thread = some .working := by
  have hagrees := h.agrees
  unfold Timer.Agrees at hagrees
  cases a with
  | start =>
    simp only [Timer.perform, Option.ite_none_right_eq_some, Option.some.injEq] at hs
    obtain ⟨-, rfl⟩ := hs
    split <;> rfl
  | stop =>
    simp only [Timer.perform, Option.ite_none_right_eq_some, Option.some.injEq] at hs
    obtain ⟨-, rfl⟩ := hs
    rfl
  | owner =>
    simp only [Timer.perform, Timer.advanceOwner] at hs
    cases ho : t.owner <;> rw [ho] at hs hagrees <;> dsimp only at hs
    case idle => cases hs
    case arming => cases hs; rfl
    case spawning => cases hs; simp [hagrees.2.1]
    case notifying =>
      cases hs
      cases ht : t.thread with
      | none => simp
      | some l => cases l <;> simp [Loop.notify]
    case joining =>
      split at hs
      next => cases hs; rfl
      next he => cases hs; simp [he]
      next => cases hs
    case clearing => cases hs; rfl
  | check | wake =>
    simp only [Timer.perform] at hs
    split at hs
    next ht =>
      cases hs
      cases hstop : t.stopRequested <;> simp [Timer.test, ht, hstop]
    next => cases hs
  | timeout => exact absurd rfl htime
  | work r => exact absurd rfl (hwork r)
  | record =>
    simp only [Timer.perform] at hs
    split at hs
    next ht => cases hs; simp [ht]
    next ht => cases hs; simp [ht]
    next => cases hs

theorem results_perform {a : Action ρ} (hs : t.perform record a = some t')
    (hwork : ∀ r, a ≠ .work r) : t'.results = t.results := by
  cases a with
  | start | stop =>
    simp only [Timer.perform, Option.ite_none_right_eq_some, Option.some.injEq] at hs
    obtain ⟨-, rfl⟩ := hs
    first | rfl | (split <;> rfl)
  | owner =>
    simp only [Timer.perform, Timer.advanceOwner] at hs
    split at hs
    case h_5 => split at hs <;> cases hs <;> rfl
    all_goals cases hs
    all_goals rfl
  | work r => exact absurd rfl (hwork r)
  | _ =>
    simp only [Timer.perform] at hs
    split at hs <;> cases hs <;> rfl

/-! ### Runs -/

/-- **Starting and stopping is safe.** A thread object is never assigned to while joinable;
when `stop` has returned, and until the next `start`, there is no thread; between passes the
counters are what the results so far add up to. -/
theorem Reachable.safe (h : Reachable record start t) :
    t.crashed = false ∧ (t.owner = .idle → t.running = false → t.thread = none) ∧
      (t.unrecorded = [] → t.counters = total record start t.results) := by
  have hi := h.inv
  refine ⟨hi.safe, fun ho hr => ?_, fun hu => ?_⟩
  · have ha := hi.agrees
    unfold Timer.Agrees at ha
    rw [ho, hr] at ha
    exact ha
  · have hc := hi.counted
    rw [hu] at hc
    exact hc

/-- What goes on while no time passes and nobody calls. -/
def Timer.Prompt (t : Timer κ ρ) : Action ρ → Prop
  | .owner | .check | .work _ | .record => True
  | .wake => t.thread = some (.sleeping true)
  | .start | .stop | .timeout => False

def Owner.cost : Owner → Nat
  | .idle => 0
  | .clearing => 1
  | .joining => 2
  | .spawning => 3
  | .arming | .notifying => 4

def Loop.cost (longest : Nat) : Option (Loop κ) → Nat
  | none | some .ended | some (.sleeping false) => 0
  | some (.sleeping true) => 1
  | some .checking => 2
  | some (.recording fs) => 3 + fs.length
  | some .working => 4 + longest

def Timer.cost (longest : Nat) (t : Timer κ ρ) : Nat := t.owner.cost + Loop.cost longest t.thread

theorem Timer.cost_test (t : Timer κ ρ) (longest : Nat) :
    (t.test (.sleeping false)).cost longest = t.owner.cost := by
  unfold Timer.cost Timer.test
  cases t.stopRequested <;> rfl

theorem Inv.cost_lt {longest : Nat} (hlong : ∀ r, (record r).length ≤ longest)
    (h : Inv record start t) {a : Action ρ} (hprompt : t.Prompt a)
    (hs : t.perform record a = some t') : t'.cost longest < t.cost longest := by
  have ha := h.agrees
  unfold Timer.Agrees at ha
  cases a with
  | start | stop | timeout => exact hprompt.elim
  | owner =>
    simp only [Timer.perform, Timer.advanceOwner] at hs
    cases ho : t.owner with
    | idle => rw [ho] at hs; cases hs
    | arming =>
      rw [ho] at hs
      cases hs
      simp [Timer.cost, ho, Owner.cost]
    | spawning =>
      rw [ho] at ha hs
      cases hs
      simp [Timer.cost, ho, ha.2.1, Owner.cost, Loop.cost]
    | notifying =>
      rw [ho] at hs
      cases hs
      have hle : Loop.cost longest (t.thread.map Loop.notify) ≤ Loop.cost longest t.thread + 1 := by
        cases t.thread with
        | none => exact Nat.zero_le _
        | some l =>
          cases l with
          | sleeping notified => cases notified <;> simp [Loop.notify, Loop.cost]
          | _ => simp [Loop.notify]
      simp only [Timer.cost, ho, Owner.cost]
      omega
    | joining =>
      rw [ho] at hs
      dsimp only at hs
      split at hs
      next => cases hs; simp [Timer.cost, ho, Owner.cost]
      next he => cases hs; simp [Timer.cost, ho, Owner.cost, he, Loop.cost]
      next => cases hs
    | clearing =>
      rw [ho] at hs
      cases hs
      simp [Timer.cost, ho, Owner.cost]
  | check =>
    simp only [Timer.perform] at hs
    split at hs
    next ht =>
      cases hs
      rw [Timer.cost_test]
      simp [Timer.cost, ht, Loop.cost]
    next => cases hs
  | wake =>
    have ht : t.thread = some (.sleeping true) := hprompt
    simp only [Timer.perform, ht] at hs
    cases hs
    rw [Timer.cost_test]
    simp [Timer.cost, ht, Loop.cost]
  | work r =>
    simp only [Timer.perform] at hs
    split at hs
    next ht =>
      cases hs
      have := hlong r
      simp only [Timer.cost, ht, Loop.cost]
      omega
    next => cases hs
  | record =>
    simp only [Timer.perform] at hs
    split at hs
    next ht => cases hs; simp [Timer.cost, ht, Loop.cost]
    next ht => cases hs; simp [Timer.cost, ht, Loop.cost]
    next => cases hs

/-- What the owner still waits for. -/
def Owner.pending {α : Type} (owner : Owner) (cost : α) : WithBot α :=
  if owner = .idle then ⊥ else ↑cost

theorem Owner.pending_lt {α : Type} [Preorder α] {owner owner' : Owner} {cost cost' : α}
    (ho : owner ≠ .idle) (h : cost' < cost) : owner'.pending cost' < owner.pending cost := by
  unfold Owner.pending
  rw [if_neg ho]
  split
  next => exact WithBot.bot_lt_coe cost
  next => exact WithBot.coe_lt_coe.2 h

theorem Owner.pending_le {α : Type} [Preorder α] {owner owner' : Owner} {cost cost' : α}
    (hrests : owner = .idle → owner' = .idle) (h : owner ≠ .idle → cost' ≤ cost) :
    owner'.pending cost' ≤ owner.pending cost := by
  unfold Owner.pending
  split
  next => exact bot_le
  next ho' =>
    have ho : owner ≠ .idle := fun he => ho' (hrests he)
    rw [if_neg ho]
    exact WithBot.coe_le_coe.2 (h ho)

/-- While the owner is at something, a thread that wakes up ends, on time or not. -/
theorem Inv.elapse {longest : Nat} (h : Inv record start t) (ho : t.owner ≠ .idle)
    {a : Action ρ} (ha : a = .wake ∨ a = .timeout) (hs : t.perform record a = some t') :
    t'.thread = some .ended ∧ t'.cost longest ≤ t.cost longest := by
  suffices hstop : ∀ notified, t.thread = some (.sleeping notified) → t.stopRequested = true by
    rcases ha with rfl | rfl <;>
    · simp only [Timer.perform] at hs
      split at hs
      next notified ht =>
        cases hs
        simp [Timer.cost, Timer.test, hstop notified ht, Loop.cost]
      next => cases hs
  intro notified ht
  have hagrees := h.agrees
  unfold Timer.Agrees at hagrees
  rw [ht] at hagrees
  cases hown : t.owner <;> rw [hown] at hagrees
  case idle => exact absurd hown ho
  case arming => cases hagrees.2
  case spawning => cases hagrees.2.1
  case notifying => exact hagrees
  case joining => exact hagrees.1
  case clearing => cases hagrees

/-- An owner who is not done can go on, or the thread it waits for can, if it is not at work. -/
theorem Inv.prompt (h : Inv record start t) (ho : t.owner ≠ .idle) :
    t.thread = some .working ∨
      ∃ a t', t.Prompt a ∧ (∀ r, a ≠ .work r) ∧ t.perform record a = some t' := by
  have ha := h.agrees
  unfold Timer.Agrees at ha
  have goesOn : ∀ a, t.Prompt a → (∀ r, a ≠ .work r) → (t.perform record a).isSome = true →
      ∃ a t', t.Prompt a ∧ (∀ r, a ≠ .work r) ∧ t.perform record a = some t' := by
    intro a hp hw hs
    obtain ⟨t', ht'⟩ := Option.isSome_iff_exists.1 hs
    exact ⟨a, t', hp, hw, ht'⟩
  cases hown : t.owner with
  | idle => exact absurd hown ho
  | joining =>
    rw [hown] at ha
    cases ht : t.thread with
    | none =>
      exact .inr (goesOn .owner trivial (by simp)
        (by simp only [Timer.perform, Timer.advanceOwner, hown, ht]; rfl))
    | some l =>
      cases l with
      | checking =>
        exact .inr (goesOn .check trivial (by simp) (by simp only [Timer.perform, ht]; rfl))
      | sleeping notified =>
        cases notified with
        | false => exact absurd ht ha.2
        | true => exact .inr (goesOn .wake ht (by simp) (by simp only [Timer.perform, ht]; rfl))
      | working => exact .inl rfl
      | recording fs =>
        refine .inr (goesOn .record trivial (by simp) ?_)
        cases fs <;> simp only [Timer.perform, ht] <;> rfl
      | ended =>
        exact .inr (goesOn .owner trivial (by simp)
          (by simp only [Timer.perform, Timer.advanceOwner, hown, ht]; rfl))
  | _ =>
    exact .inr (goesOn .owner trivial (by simp)
      (by simp only [Timer.perform, Timer.advanceOwner, hown]; rfl))

end VCache.Lib.Periodic
