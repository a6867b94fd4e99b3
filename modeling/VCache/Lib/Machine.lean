import Mathlib.Data.List.Basic
import Mathlib.Order.Basic

/-!
# Machines and what they are specified to answer

A machine turns an input into a new state and an answer. A `Spec` is an abstract
machine that only constrains the answers. A simulation relation that each step keeps
makes the specification explain every run. The relation may depend on the latest
reading of a clock that never goes back.
-/

namespace VCache.Lib.Machine

variable {σ τ ι ο : Type}

def run (step : σ → ι → σ × ο) (s : σ) (is : List ι) : σ := is.foldl (fun s i => (step s i).1) s

def answers (step : σ → ι → σ × ο) : σ → List ι → List ο
  | _, [] => []
  | s, i :: is => (step s i).2 :: answers step (step s i).1 is

theorem run_invariant {step : σ → ι → σ × ο} {P : σ → Prop} (h : ∀ s i, P s → P (step s i).1) :
    ∀ (is : List ι) {s : σ}, P s → P (run step s is)
  | [], _, hs => hs
  | i :: is, s, hs => run_invariant h is (h s i hs)

/-- The property holds in every state a run goes through. -/
def Always (step : σ → ι → σ × ο) (P : σ → Prop) : σ → List ι → Prop
  | s, [] => P s
  | s, i :: is => P s ∧ Always step P (step s i).1 is

/-- Every step of a run meets a condition on its input and the state before it. -/
def StepsMeet (step : σ → ι → σ × ο) (C : σ → ι → Prop) : σ → List ι → Prop
  | _, [] => True
  | s, i :: is => C s i ∧ StepsMeet step C (step s i).1 is

/-- If a condition decides whether a step keeps a property, it decides whether a run
does. -/
theorem always_iff_stepsMeet {step : σ → ι → σ × ο} {I P : σ → Prop} {C : σ → ι → Prop}
    (hI : ∀ s i, I s → I (step s i).1) (h : ∀ s i, I s → P s → (P (step s i).1 ↔ C s i)) :
    ∀ (is : List ι) {s : σ}, I s → P s → (Always step P s is ↔ StepsMeet step C s is)
  | [], _, _, hP => ⟨fun _ => trivial, fun _ => hP⟩
  | i :: is, s, hs, hP => by
    have hstep := h s i hs hP
    refine ⟨fun ⟨_, ha⟩ => ?_, fun ⟨hc, hm⟩ => ⟨hP, ?_⟩⟩
    · have hP' : P (step s i).1 := by
        cases is with
        | nil => exact ha
        | cons j js => exact ha.1
      exact ⟨hstep.1 hP', (always_iff_stepsMeet hI h is (hI s i hs) hP').1 ha⟩
    · exact (always_iff_stepsMeet hI h is (hI s i hs) (hstep.2 hc)).2 hm

/-- What a count taken at each step adds up to. -/
def tally (step : σ → ι → σ × ο) (count : σ → ι → Nat) : σ → List ι → Nat
  | _, [] => 0
  | s, i :: is => count s i + tally step count (step s i).1 is

/-- A stock that every step changes by what comes in and what goes out is changed by a run
by what has come in and gone out. -/
theorem tally_balance {step : σ → ι → σ × ο} {I : σ → Prop} {ok : ι → Prop}
    {into out : σ → ι → Nat} (stock : σ → Nat) (hI : ∀ s i, I s → I (step s i).1)
    (h : ∀ s i, I s → ok i → stock (step s i).1 + out s i = stock s + into s i) :
    ∀ (is : List ι) {s : σ}, I s → (∀ i ∈ is, ok i) →
      stock (run step s is) + tally step out s is = stock s + tally step into s is
  | [], _, _, _ => rfl
  | i :: is, s, hs, hok => by
    have h1 := h s i hs (hok i List.mem_cons_self)
    have h2 := tally_balance stock hI h is (hI s i hs) fun j hj => hok j (List.mem_cons_of_mem _ hj)
    show stock (run step (step s i).1 is) + (out s i + tally step out (step s i).1 is) =
      stock s + (into s i + tally step into (step s i).1 is)
    omega

theorem tally_add {step : σ → ι → σ × ο} {f g : σ → ι → Nat} (is : List ι) (s : σ) :
    tally step (fun s i => f s i + g s i) s is = tally step f s is + tally step g s is := by
  induction is generalizing s with
  | nil => rfl
  | cons i is ih =>
    simp only [tally, ih]
    omega

structure Spec (τ ι ο : Type) where
  next : τ → ι → τ
  Allows : τ → ι → ο → Prop

namespace Spec

variable {S : Spec τ ι ο}

variable (S) in
/-- Each answer is one the specification allows where it stands. -/
def Explains : τ → List ι → List ο → Prop
  | _, [], [] => True
  | a, i :: is, o :: os => S.Allows a i o ∧ Explains (S.next a i) is os
  | _, _, _ => False

/-- **Simulation along a clock.** -/
theorem explains_of_simulation {T : Type} [Preorder T] {clock : ι → T} {ok : ι → Prop}
    {step : σ → ι → σ × ο} {R : T → σ → τ → Prop}
    (hstep : ∀ t s a i, R t s a → t ≤ clock i → ok i →
      S.Allows a i (step s i).2 ∧ R (clock i) (step s i).1 (S.next a i)) :
    ∀ (is : List ι) {t : T} {s : σ} {a : τ}, R t s a → (∀ i ∈ is, t ≤ clock i) →
      is.Pairwise (fun i j => clock i ≤ clock j) → (∀ i ∈ is, ok i) →
      S.Explains a is (answers step s is)
  | [], _, _, _, _, _, _, _ => trivial
  | i :: is, t, s, a, hR, ht, hp, hok => by
    obtain ⟨h1, h2⟩ := hstep t s a i hR (ht i List.mem_cons_self) (hok i List.mem_cons_self)
    obtain ⟨hle, hp'⟩ := List.pairwise_cons.1 hp
    exact ⟨h1, explains_of_simulation hstep is h2 hle hp' fun j hj =>
      hok j (List.mem_cons_of_mem _ hj)⟩

/-- The answers to the inputs that pass a test. -/
def seen (vis : ι → Bool) (is : List ι) (os : List ο) : List ο :=
  ((is.zip os).filter fun x => vis x.1).map (·.2)

/-- Inputs that do not move the specification can be left out. -/
theorem Explains.seen {vis : ι → Bool} (h : ∀ a i, vis i = false → S.next a i = a) :
    ∀ {is : List ι} {os : List ο} {a : τ}, S.Explains a is os →
      S.Explains a (is.filter vis) (Spec.seen vis is os)
  | [], [], _, _ => trivial
  | i :: is, o :: os, a, ⟨h1, h2⟩ => by
    have ih := Explains.seen h h2
    unfold Spec.seen at ih ⊢
    cases hv : vis i with
    | false =>
      simp only [List.filter_cons, List.zip_cons_cons, hv, Bool.false_eq_true, if_false]
      rw [h a i hv] at ih; exact ih
    | true =>
      simp only [List.filter_cons, List.zip_cons_cons, hv, if_true, List.map_cons]
      exact ⟨h1, ih⟩

end Spec

end VCache.Lib.Machine
