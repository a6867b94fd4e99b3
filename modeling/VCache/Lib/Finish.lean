import Mathlib.Algebra.BigOperators.Group.Finset.Basic
import Mathlib.Algebra.GroupWithZero.Nat
import Mathlib.Algebra.Order.BigOperators.Group.Finset
import Mathlib.Logic.Relation
import Mathlib.Order.WellFounded

/-!
# Work that comes to an end

A measure that every step lowers bounds the steps there can be. If moreover a state that is
not done always has a step, then whoever takes the steps, and in whatever order, all is done
once there are no more of them. What others do in between does not matter, as long as it does
not add to the work. Where the work has no bound beforehand, the measure is in a well-founded
order.
-/

namespace VCache.Lib

variable {σ : Type}

/-- So many steps from one state to another, and any number of other moves in between. -/
inductive StepsAmid (Other Step : σ → σ → Prop) (s : σ) : Nat → σ → Prop where
  | start : StepsAmid Other Step s 0 s
  | step {n : Nat} {s' s'' : σ} : StepsAmid Other Step s n s' → Step s' s'' →
      StepsAmid Other Step s (n + 1) s''
  | other {n : Nat} {s' s'' : σ} : StepsAmid Other Step s n s' → Other s' s'' →
      StepsAmid Other Step s n s''

/-- Whatever else is done, there are at most so many steps, and where there are no more, `Done`
holds. -/
def FinishesAmid (Other Step : σ → σ → Prop) (Done : σ → Prop) (bound : Nat) (s : σ) : Prop :=
  ∀ n s', StepsAmid Other Step s n s' → n ≤ bound ∧ ((∀ s'', ¬ Step s' s'') → Done s')

variable {Other Step : σ → σ → Prop} {Done I : σ → Prop} {m : σ → Nat} {s : σ}

theorem finishesAmid_of_measure (hstep : ∀ s s', I s → Step s s' → I s' ∧ m s' < m s)
    (hother : ∀ s s', I s → Other s s' → I s' ∧ m s' ≤ m s)
    (hmore : ∀ s, I s → ¬ Done s → ∃ s', Step s s') (hs : I s) :
    FinishesAmid Other Step Done (m s) s := by
  suffices hrun : ∀ n s', StepsAmid Other Step s n s' → I s' ∧ n + m s' ≤ m s by
    intro n s' h
    obtain ⟨hI, hle⟩ := hrun n s' h
    refine ⟨by omega, fun hstuck => by_contra fun hnot => ?_⟩
    obtain ⟨s'', hs''⟩ := hmore s' hI hnot
    exact hstuck s'' hs''
  intro n s' h
  induction h with
  | start => exact ⟨hs, by omega⟩
  | step _ hlast ih =>
    obtain ⟨hI, hlt⟩ := hstep _ _ ih.1 hlast
    exact ⟨hI, by omega⟩
  | other _ hlast ih =>
    obtain ⟨hI, hle⟩ := hother _ _ ih.1 hlast
    exact ⟨hI, by omega⟩

/-- Whatever else is done, there are only finitely many steps, and where there are no more,
`Done` holds. -/
inductive EndsAmid (Other Step : σ → σ → Prop) (Done : σ → Prop) : σ → Prop where
  | intro {s : σ} :
      (∀ s', Relation.ReflTransGen Other s s' → (∀ s'', ¬ Step s' s'') → Done s') →
      (∀ s' s'', Relation.ReflTransGen Other s s' → Step s' s'' → EndsAmid Other Step Done s'') →
      EndsAmid Other Step Done s

/-- The work of a phase, which comes to an end or is left for what is known to end. -/
theorem endsAmid_until {α : Type} [Preorder α] [WellFoundedLT α] {m : σ → α} {Exit : σ → Prop}
    (hexit : ∀ s, Exit s → EndsAmid Other Step Done s)
    (hstep : ∀ s s', I s → Step s s' → Exit s' ∨ I s' ∧ m s' < m s)
    (hother : ∀ s s', I s → Other s s' → I s' ∧ m s' ≤ m s)
    (hmore : ∀ s, I s → ¬ Done s → ∃ s', Step s s') (hs : I s) : EndsAmid Other Step Done s := by
  induction hm : m s using WellFoundedLT.induction generalizing s with
  | ind x ih =>
    have hrun : ∀ s', Relation.ReflTransGen Other s s' → I s' ∧ m s' ≤ m s := by
      intro s' h
      induction h with
      | refl => exact ⟨hs, le_refl _⟩
      | tail _ hlast ih =>
        obtain ⟨hI, hle⟩ := hother _ _ ih.1 hlast
        exact ⟨hI, le_trans hle ih.2⟩
    refine .intro (fun s' h hstuck => by_contra fun hnot => ?_) fun s' s'' h hlast => ?_
    · obtain ⟨s'', hs''⟩ := hmore s' (hrun s' h).1 hnot
      exact hstuck s'' hs''
    · rcases hstep s' s'' (hrun s' h).1 hlast with hleft | ⟨hI, hlt⟩
      · exact hexit s'' hleft
      · exact ih (m s'') (hm ▸ lt_of_lt_of_le hlt (hrun s' h).2) hI rfl

theorem endsAmid_of_measure {α : Type} [Preorder α] [WellFoundedLT α] {m : σ → α}
    (hstep : ∀ s s', I s → Step s s' → I s' ∧ m s' < m s)
    (hother : ∀ s s', I s → Other s s' → I s' ∧ m s' ≤ m s)
    (hmore : ∀ s, I s → ¬ Done s → ∃ s', Step s s') (hs : I s) : EndsAmid Other Step Done s :=
  endsAmid_until (fun _ h => False.elim h) (fun s s' hi h => .inr (hstep s s' hi h)) hother hmore hs

/-! ### Work that many share -/

section

variable {ι π : Type} [DecidableEq ι] {F : Finset ι} {f : ι → π} {t : ι} {p : π}

theorem sum_update_lt {cost : π → Nat} (ht : t ∈ F) (hp : cost p < cost (f t)) :
    ∑ i ∈ F, cost (Function.update f t p i) < ∑ i ∈ F, cost (f i) := by
  refine Finset.sum_lt_sum (fun i _ => ?_) ⟨t, ht, ?_⟩
  · by_cases hi : i = t
    · rw [hi, Function.update_self]
      exact le_of_lt hp
    · rw [Function.update_of_ne hi]
  · rw [Function.update_self]
    exact hp

theorem mem_of_update {q : π} (hF : ∀ i, f i ≠ q → i ∈ F) (ht : t ∈ F) (i : ι)
    (hi : Function.update f t p i ≠ q) : i ∈ F := by
  by_cases h : i = t
  · exact h ▸ ht
  · rw [Function.update_of_ne h] at hi
    exact hF i hi

end

theorem sum_map_modify {α : Type} {cost : α → Nat} {f : α → α} {x : α} {l : List α} {k : Nat}
    (h : l[k]? = some x) :
    ((l.modify k f).map cost).sum + cost x = (l.map cost).sum + cost (f x) := by
  induction l generalizing k with
  | nil => cases h
  | cons y l ih =>
    cases k with
    | zero =>
      cases h
      simp only [List.modify_zero_cons, List.map_cons, List.sum_cons]
      omega
    | succ k =>
      have ih := ih h
      simp only [List.modify_succ_cons, List.map_cons, List.sum_cons]
      omega

end VCache.Lib
