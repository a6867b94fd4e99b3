import Mathlib.Data.List.Basic

/-!
# Traces of a step relation

A trace lists the states that a run goes through, the latest first.
-/

namespace VCache.Lib

variable {σ : Type} {Step : σ → σ → Prop} {a s : σ} {seen : List σ}

/-- From `a` to a state through the states `seen`, both ends among them. -/
inductive Trace (Step : σ → σ → Prop) (a : σ) : List σ → σ → Prop where
  | start : Trace Step a [a] a
  | step {seen : List σ} {s s' : σ} : Trace Step a seen s → Step s s' → Trace Step a (s' :: seen) s'

theorem Trace.last_mem (h : Trace Step a seen s) : s ∈ seen := by
  cases h with
  | start => exact List.mem_singleton.2 rfl
  | step => exact List.mem_cons_self

end VCache.Lib
