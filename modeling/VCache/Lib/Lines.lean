import Mathlib.Tactic.Common

/-!
# Cutting a stream at a separator

`lines sep s` are the parts of `s` that a separator ends, without it; `rest sep s` is what
stands after the last separator. `cutFirst` takes one line off the front.
-/

namespace VCache.Lib

variable {α : Type*} [DecidableEq α] (sep : α)

def pushFront (c : α) (r : List (List α) × List α) : List (List α) × List α :=
  if c = sep then ([] :: r.1, r.2)
  else match r.1 with
    | [] => ([], c :: r.2)
    | line :: more => ((c :: line) :: more, r.2)

def cutAll : List α → List (List α) × List α
  | [] => ([], [])
  | c :: s => pushFront sep c (cutAll s)

def lines (s : List α) : List (List α) := (cutAll sep s).1

def rest (s : List α) : List α := (cutAll sep s).2

/-- The first line and what follows its separator. -/
def cutFirst (s : List α) : Option (List α × List α) :=
  match s.dropWhile (· ≠ sep) with
  | [] => none
  | _ :: after => some (s.takeWhile (· ≠ sep), after)

variable {sep}

/-! ### The first line -/

theorem cutFirst_line {line : List α} (h : sep ∉ line) (after : List α) :
    cutFirst sep (line ++ sep :: after) = some (line, after) := by
  have hd : (line ++ sep :: after).dropWhile (· ≠ sep) = sep :: after ∧
      (line ++ sep :: after).takeWhile (· ≠ sep) = line := by
    induction line with
    | nil => simp
    | cons c line ih =>
      have hc : c ≠ sep := fun e => h (e ▸ .head _)
      obtain ⟨h₁, h₂⟩ := ih fun hm => h (.tail _ hm)
      exact ⟨by simpa [hc] using h₁, by simpa [hc] using h₂⟩
  rw [cutFirst, hd.1, hd.2]

theorem cutFirst_eq_none {s : List α} (h : sep ∉ s) : cutFirst sep s = none := by
  have : s.dropWhile (· ≠ sep) = [] := by
    rw [← List.append_nil s, List.dropWhile_append_of_pos, List.dropWhile_nil]
    intro c hc
    have hne : c ≠ sep := fun e => h (e ▸ hc)
    simpa using hne
  rw [cutFirst, this]

theorem split_first (sep : α) (s : List α) :
    sep ∉ s ∨ ∃ line after, sep ∉ line ∧ s = line ++ sep :: after := by
  by_cases h : sep ∈ s
  · obtain ⟨line, after, hs, hl⟩ := List.eq_append_cons_of_mem h
    exact .inr ⟨line, after, hl, hs⟩
  · exact .inl h

theorem length_after_lt {β : Type*} {sep : β} {s line after : List β} {fuel : Nat}
    (hs : s = line ++ sep :: after) (hf : s.length < fuel + 1) : after.length < fuel := by
  rw [hs, List.length_append, List.length_cons] at hf
  omega

/-! ### All lines -/

theorem cutAll_of_notMem : ∀ {s : List α}, sep ∉ s → cutAll sep s = ([], s)
  | [], _ => rfl
  | c :: s, h => by
    have hc : c ≠ sep := fun e => h (e ▸ .head _)
    rw [cutAll, cutAll_of_notMem fun hm => h (.tail _ hm), pushFront, if_neg hc]

theorem cutAll_line : ∀ {line : List α}, sep ∉ line → ∀ after,
    cutAll sep (line ++ sep :: after) = (line :: lines sep after, rest sep after)
  | [], _, after => by
    show pushFront sep sep (cutAll sep after) = _
    rw [pushFront, if_pos rfl]
    rfl
  | c :: line, h, after => by
    have hc : c ≠ sep := fun e => h (e ▸ .head _)
    show pushFront sep c (cutAll sep (line ++ sep :: after)) = _
    rw [cutAll_line fun hm => h (.tail _ hm), pushFront, if_neg hc]

theorem lines_of_notMem {s : List α} (h : sep ∉ s) : lines sep s = [] := by
  rw [lines, cutAll_of_notMem h]

theorem rest_of_notMem {s : List α} (h : sep ∉ s) : rest sep s = s := by
  rw [rest, cutAll_of_notMem h]

theorem lines_line {line : List α} (h : sep ∉ line) (after : List α) :
    lines sep (line ++ sep :: after) = line :: lines sep after := by
  rw [lines, cutAll_line h]

theorem rest_line {line : List α} (h : sep ∉ line) (after : List α) :
    rest sep (line ++ sep :: after) = rest sep after := by
  rw [rest, cutAll_line h]

theorem lines_induction (sep : α) {p : List α → Prop} (tail : ∀ s, sep ∉ s → p s)
    (line : ∀ line after, sep ∉ line → p after → p (line ++ sep :: after)) (s : List α) : p s := by
  rcases split_first sep s with hs | ⟨l, after, hl, hs⟩
  · exact tail s hs
  · have : after.length < s.length := by
      rw [hs, List.length_append, List.length_cons]
      omega
    exact hs ▸ line l after hl (lines_induction sep tail line after)
termination_by s.length

theorem lines_append (s t : List α) :
    lines sep (s ++ t) = lines sep s ++ lines sep (rest sep s ++ t) := by
  induction s using lines_induction sep with
  | tail s h => rw [lines_of_notMem h, rest_of_notMem h, List.nil_append]
  | line l after h ih =>
    rw [List.append_assoc, List.cons_append, lines_line h, lines_line h, rest_line h, ih,
      List.cons_append]

theorem rest_append (s t : List α) : rest sep (s ++ t) = rest sep (rest sep s ++ t) := by
  induction s using lines_induction sep with
  | tail s h => rw [rest_of_notMem h]
  | line l after h ih =>
    rw [List.append_assoc, List.cons_append, rest_line h, rest_line h, ih]

theorem notMem_rest (sep : α) (s : List α) : sep ∉ rest sep s := by
  induction s using lines_induction sep with
  | tail s h => rwa [rest_of_notMem h]
  | line l after h ih => rwa [rest_line h]

theorem rest_of_lines_eq_nil {s : List α} (h : lines sep s = []) : rest sep s = s := by
  rcases split_first sep s with hs | ⟨l, after, hl, rfl⟩
  · exact rest_of_notMem hs
  · rw [lines_line hl] at h
    cases h

theorem lines_concat_ne_nil (s : List α) : lines sep (s ++ [sep]) ≠ [] := by
  rcases split_first sep s with hs | ⟨l, after, hl, rfl⟩
  · rw [lines_line hs]
    exact List.cons_ne_nil _ _
  · rw [List.append_assoc, List.cons_append, lines_line hl]
    exact List.cons_ne_nil _ _

theorem lines_concat_iff {s line : List α} :
    lines sep (s ++ [sep]) = [line] ↔ sep ∉ s ∧ line = s := by
  rcases split_first sep s with hs | ⟨l, after, hl, rfl⟩
  · rw [lines_line hs]
    exact ⟨fun h => ⟨hs, (List.cons.inj h).1.symm⟩, fun h => by rw [h.2]; rfl⟩
  · constructor
    · intro h
      rw [List.append_assoc, List.cons_append, lines_line hl] at h
      exact absurd (List.cons.inj h).2 (lines_concat_ne_nil after)
    · rintro ⟨h, -⟩
      simp at h

theorem rest_concat (s : List α) : rest sep (s ++ [sep]) = [] := by
  induction s using lines_induction sep with
  | tail s h => exact rest_line h []
  | line l after h ih =>
    rw [List.append_assoc, List.cons_append, rest_line h, ih]

theorem length_lt_of_mem_lines {s line : List α} (h : line ∈ lines sep s) :
    line.length < s.length := by
  induction s using lines_induction sep with
  | tail s hs =>
    rw [lines_of_notMem hs] at h
    cases h
  | line l after hl ih =>
    rw [lines_line hl] at h
    rw [List.length_append, List.length_cons]
    rcases List.mem_cons.1 h with rfl | h
    · omega
    · have := ih h
      omega

/-- Each line and the rest are at most `n` long. -/
def Fits (sep : α) (n : Nat) (s : List α) : Prop :=
  (∀ line ∈ lines sep s, line.length ≤ n) ∧ (rest sep s).length ≤ n

/-- The rest of a beginning of the stream becomes part of a line or of the rest. -/
theorem Fits.of_append {n : Nat} {s t : List α} (h : Fits sep n (s ++ t)) : Fits sep n s := by
  obtain ⟨hl, hr⟩ := h
  rw [lines_append] at hl
  rw [rest_append] at hr
  refine ⟨fun line hm => hl line (List.mem_append_left _ hm), ?_⟩
  have hs := notMem_rest sep s
  generalize rest sep s = r at *
  rcases split_first sep t with ht | ⟨l, after, hl', rfl⟩
  · rw [rest_of_notMem (by simp [hs, ht]), List.length_append] at hr
    omega
  · rw [← List.append_assoc, lines_line (by simp [hs, hl'])] at hl
    have := hl (r ++ l) (by simp)
    rw [List.length_append] at this
    omega

end VCache.Lib
