import Mathlib.Data.List.Basic
import Mathlib.Logic.Function.Basic

/-!
# Objects with atomic operations

Threads call the operations of an object and get answers. Between its call and its return an
operation takes effect once, at one moment. What can be seen from outside is the history of
calls and returns. The log of the effects explains it: replayed one after the other they give
the same answers and the same state, and each lies between its own call and return.

A finer system implements the object if every one of its steps is a step of the object or
leaves it alone.
-/

namespace VCache.Lib.Atomic

open Function

variable {σ Op Env Ans : Type}

inductive Seen (Op Ans : Type) where
  | called (thread : Nat) (op : Op)
  | returned (thread : Nat) (answer : Ans)
deriving DecidableEq

def Seen.thread : Seen Op Ans → Nat
  | .called thread _ => thread
  | .returned thread _ => thread

/-- Where a thread is; `since` is the place of its call in the history. -/
inductive Status (Op Ans : Type) where
  | idle
  | called (op : Op) (since : Nat)
  | answered (op : Op) (since : Nat) (answer : Ans)

/-- An effect, the place of its call, and how much of the history there was before it. -/
structure Effect (Op Env Ans : Type) where
  thread : Nat
  op : Op
  env : Env
  answer : Ans
  called : Nat
  position : Nat

structure Object (σ Op Env Ans : Type) where
  state : σ
  status : Nat → Status Op Ans := fun _ => .idle
  history : List (Seen Op Ans) := []
  log : List (Effect Op Env Ans) := []

variable (apply : Op → Env → σ → σ × Ans)

inductive Step : Object σ Op Env Ans → Object σ Op Env Ans → Prop where
  | call {o : Object σ Op Env Ans} {t : Nat} (op : Op) : o.status t = .idle →
      Step o { o with
        status := update o.status t (.called op o.history.length)
        history := o.history ++ [.called t op] }
  | act {o : Object σ Op Env Ans} {t since : Nat} {op : Op} (env : Env) :
      o.status t = .called op since →
      Step o { o with
        state := (apply op env o.state).1
        status := update o.status t (.answered op since (apply op env o.state).2)
        log := o.log ++ [⟨t, op, env, (apply op env o.state).2, since, o.history.length⟩] }
  | return {o : Object σ Op Env Ans} {t since : Nat} {op : Op} {answer : Ans} :
      o.status t = .answered op since answer →
      Step o { o with
        status := update o.status t .idle
        history := o.history ++ [.returned t answer] }

inductive Reachable (start : σ) : Object σ Op Env Ans → Prop where
  | start : Reachable start { state := start }
  | step {o o' : Object σ Op Env Ans} : Reachable start o → Step apply o o' → Reachable start o'

/-- The effects one after the other, with the answers they are recorded with. -/
def Replays : σ → List (Effect Op Env Ans) → σ → Prop
  | s, [], s' => s = s'
  | s, e :: log, s' => (apply e.op e.env s).2 = e.answer ∧ Replays (apply e.op e.env s).1 log s'

/-- The log explains the history and the state. -/
structure Explains (start : σ) (history : List (Seen Op Ans)) (log : List (Effect Op Env Ans))
    (state : σ) : Prop where
  replays : Replays apply start log state
  ordered : log.Pairwise fun e e' => e.position ≤ e'.position
  once : log.Pairwise fun e e' => e.called ≠ e'.called
  called : ∀ e ∈ log, e.called < e.position ∧ e.position ≤ history.length ∧
    history[e.called]? = some (.called e.thread e.op)
  /-- Every return is that of the last call of its thread, which took effect before it and
  with this answer. -/
  returned : ∀ j t a, history[j]? = some (.returned t a) → ∃ e ∈ log, e.thread = t ∧
    e.answer = a ∧ e.position ≤ j ∧
    ∀ i x, e.called < i → i < j → history[i]? = some x → x.thread ≠ t

/-- Nothing is seen of the thread after the place. -/
def Quiet (history : List (Seen Op Ans)) (t since : Nat) : Prop :=
  ∀ i x, since < i → history[i]? = some x → x.thread ≠ t

/-- What the status of a thread says about the history and the log. -/
def Stands (o : Object σ Op Env Ans) (t : Nat) : Prop :=
  match o.status t with
  | .idle => True
  | .called op since => o.history[since]? = some (.called t op) ∧ Quiet o.history t since ∧
      ∀ e ∈ o.log, e.called ≠ since
  | .answered _ since answer => Quiet o.history t since ∧
      ∃ e ∈ o.log, e.thread = t ∧ e.answer = answer ∧ e.called = since

variable {apply} {start s s' : σ} {o o' : Object σ Op Env Ans} {log : List (Effect Op Env Ans)}
  {history : List (Seen Op Ans)} {seen x : Seen Op Ans} {i t since : Nat}

/-! ### Longer histories and logs -/

theorem replays_concat {e : Effect Op Env Ans} (h : Replays apply s log s')
    (ha : (apply e.op e.env s').2 = e.answer) :
    Replays apply s (log ++ [e]) (apply e.op e.env s').1 := by
  induction log generalizing s with
  | nil =>
    cases h
    exact ⟨ha, rfl⟩
  | cons d log ih => exact ⟨h.1, ih h.2⟩

theorem getElem?_concat_cases (h : (history ++ [seen])[i]? = some x) :
    history[i]? = some x ∨ (i = history.length ∧ x = seen) := by
  rcases Nat.lt_trichotomy i history.length with hi | rfl | hi
  · rw [List.getElem?_append_left hi] at h
    exact .inl h
  · rw [List.getElem?_concat_length] at h
    exact .inr ⟨rfl, (Option.some.inj h).symm⟩
  · rw [List.getElem?_eq_none (by rw [List.length_append, List.length_singleton]; omega)] at h
    cases h

theorem getElem?_concat_of_some (h : history[i]? = some x) : (history ++ [seen])[i]? = some x := by
  rw [List.getElem?_append_left (List.getElem?_eq_some_iff.1 h).1]
  exact h

theorem Quiet.concat (h : Quiet history t since) (ht : seen.thread ≠ t) :
    Quiet (history ++ [seen]) t since := by
  intro i x hi hx
  rcases getElem?_concat_cases hx with hx | ⟨-, rfl⟩
  · exact h i x hi hx
  · exact ht

theorem Quiet.fresh (h : history.length ≤ since + 1) : Quiet history t since := by
  intro i x hi hx
  have := (List.getElem?_eq_some_iff.1 hx).1
  omega

theorem Stands.see {status : Nat → Status Op Ans} (h : Stands o t) (hs : status t = o.status t)
    (ht : seen.thread ≠ t) :
    Stands { o with status, history := o.history ++ [seen] } t := by
  unfold Stands at h ⊢
  simp only [hs]
  cases hst : o.status t with
  | idle => trivial
  | called op since =>
    rw [hst] at h
    exact ⟨getElem?_concat_of_some h.1, h.2.1.concat ht, h.2.2⟩
  | answered op since answer =>
    rw [hst] at h
    exact ⟨h.1.concat ht, h.2⟩

theorem Explains.see (h : Explains apply start history log s)
    (hnew : ∀ t a, seen = .returned t a → ∃ e ∈ log, e.thread = t ∧ e.answer = a ∧
      Quiet history t e.called) :
    Explains apply start (history ++ [seen]) log s where
  replays := h.replays
  ordered := h.ordered
  once := h.once
  called := fun e he => by
    obtain ⟨h1, h2, h3⟩ := h.called e he
    refine ⟨h1, ?_, getElem?_concat_of_some h3⟩
    rw [List.length_append]
    omega
  returned := fun j t a hj => by
    rcases getElem?_concat_cases hj with hj | ⟨rfl, hseen⟩
    · obtain ⟨e, he, h1, h2, h3, h4⟩ := h.returned j t a hj
      have hlt := (List.getElem?_eq_some_iff.1 hj).1
      refine ⟨e, he, h1, h2, h3, fun i x hi hij hx => h4 i x hi hij ?_⟩
      rwa [List.getElem?_append_left (by omega)] at hx
    · obtain ⟨e, he, h1, h2, h3⟩ := hnew t a hseen.symm
      refine ⟨e, he, h1, h2, (h.called e he).2.1, fun i x hi hij hx => h3 i x hi ?_⟩
      rwa [List.getElem?_append_left hij] at hx

/-! ### Steps and runs -/

theorem Step.stands (h : Step apply o o') (he : Explains apply start o.history o.log o.state)
    (hs : ∀ t, Stands o t) (t : Nat) : Stands o' t := by
  cases h with
  | @call t' op hidle =>
    by_cases ht : t = t'
    · subst ht
      simp only [Stands, update_self]
      refine ⟨List.getElem?_concat_length .., Quiet.fresh ?_, fun e hm => ?_⟩
      · rw [List.length_append]
        exact Nat.le_refl _
      · have := he.called e hm
        omega
    · exact (hs t).see (update_of_ne ht ..) (Ne.symm ht)
  | @act t' since op env hcalled =>
    have hown := hs t'
    simp only [Stands, hcalled] at hown
    by_cases ht : t = t'
    · subst ht
      simp only [Stands, update_self]
      exact ⟨hown.2.1, _, List.mem_append_right _ (List.mem_singleton.2 rfl), rfl, rfl, rfl⟩
    · have hother := hs t
      simp only [Stands, update_of_ne ht] at hother ⊢
      cases hst : o.status t with
      | idle => trivial
      | called op' since' =>
        rw [hst] at hother
        refine ⟨hother.1, hother.2.1, fun e hm => ?_⟩
        rcases List.mem_append.1 hm with hm | hm
        · exact hother.2.2 e hm
        · -- the two calls stand at different places of the history
          rw [List.mem_singleton.1 hm]
          rintro rfl
          have := hown.1.symm.trans hother.1
          cases this
          exact ht rfl
      | answered op' since' answer =>
        rw [hst] at hother
        obtain ⟨hq, e, hm, h1⟩ := hother
        exact ⟨hq, e, List.mem_append_left _ hm, h1⟩
  | @«return» t' since op answer hans =>
    by_cases ht : t = t'
    · subst ht
      simp only [Stands, update_self]
    · exact (hs t).see (update_of_ne ht ..) (Ne.symm ht)

theorem Step.explains (h : Step apply o o') (he : Explains apply start o.history o.log o.state)
    (hs : ∀ t, Stands o t) : Explains apply start o'.history o'.log o'.state := by
  cases h with
  | call op hidle => exact he.see fun t a hseen => by cases hseen
  | @act t since op env hcalled =>
    have hown := hs t
    simp only [Stands, hcalled] at hown
    obtain ⟨hcall, -, hnew⟩ := hown
    refine ⟨replays_concat he.replays rfl, ?_, ?_, fun e hm => ?_, fun j t a hj => ?_⟩
    · refine List.pairwise_append.2 ⟨he.ordered, List.pairwise_singleton .., fun e hm e' hm' => ?_⟩
      rw [List.mem_singleton.1 hm']
      exact (he.called e hm).2.1
    · refine List.pairwise_append.2 ⟨he.once, List.pairwise_singleton .., fun e hm e' hm' => ?_⟩
      rw [List.mem_singleton.1 hm']
      exact hnew e hm
    · rcases List.mem_append.1 hm with hm | hm
      · exact he.called e hm
      · rw [List.mem_singleton.1 hm]
        exact ⟨(List.getElem?_eq_some_iff.1 hcall).1, Nat.le_refl _, hcall⟩
    · obtain ⟨e, hm, h1⟩ := he.returned j t a hj
      exact ⟨e, List.mem_append_left _ hm, h1⟩
  | @«return» t since op answer hans =>
    have hown := hs t
    simp only [Stands, hans] at hown
    obtain ⟨hquiet, e, hm, h1, h2, rfl⟩ := hown
    refine he.see fun t' a hseen => ?_
    cases hseen
    exact ⟨e, hm, h1, h2, hquiet⟩

/-- **An atomic object is linearizable.** -/
theorem Reachable.explains (h : Reachable apply start o) :
    Explains apply start o.history o.log o.state := by
  suffices hinv : Explains apply start o.history o.log o.state ∧ ∀ t, Stands o t from hinv.1
  induction h with
  | start =>
    refine ⟨⟨rfl, .nil, .nil, fun e he => (by cases he), fun j t a hj => (by cases hj)⟩,
      fun t => trivial⟩
  | step _ hstep ih => exact ⟨hstep.explains ih.1 ih.2, hstep.stands ih.1 ih.2⟩

end VCache.Lib.Atomic
