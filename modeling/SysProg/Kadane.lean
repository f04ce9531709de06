import Mathlib.Algebra.BigOperators.Group.List.Basic
import Mathlib.Algebra.Order.Monoid.Defs
import Mathlib.Data.List.Induction
import Mathlib.Order.Bounds.Image

/-!
# SysProg.Kadane

The greatest sum of a block of consecutive elements, element by element.

* `endSums xs`, `blockSums xs`: the sums of the blocks of `xs` that are not empty; the first only of
  those at its end.
* `kadane xs`: two values that are updated with each element.
* `kadane_end`, `kadane_block`: they are the greatest sum of a block at the end, and the greatest of 0
  and the sums of all blocks.
-/

namespace SysProg

variable {α : Type*} [AddCommGroup α]

def endSums (xs : List α) : Set α := {s | ∃ ys, ys ≠ [] ∧ ys <:+ xs ∧ ys.sum = s}

def blockSums (xs : List α) : Set α := {s | ∃ ys, ys ≠ [] ∧ ys <:+: xs ∧ ys.sum = s}

section

variable {xs ys : List α} {x s : α}

theorem endSums_nil : endSums ([] : List α) = ∅ := by
  ext s
  simp only [endSums, Set.mem_ofPred_eq, Set.mem_empty_iff_false, iff_false]
  rintro ⟨ys, hne, hs, -⟩
  exact hne (List.suffix_nil.1 hs)

theorem blockSums_nil : blockSums ([] : List α) = ∅ := by
  ext s
  simp only [blockSums, Set.mem_ofPred_eq, Set.mem_empty_iff_false, iff_false]
  rintro ⟨ys, hne, hs, -⟩
  exact hne (List.infix_nil.1 hs)

theorem endSums_subset : endSums xs ⊆ blockSums xs := by
  rintro s ⟨ys, hne, hs, hsum⟩
  exact ⟨ys, hne, hs.isInfix, hsum⟩

theorem blockSums_mono (h : ys <:+: xs) : blockSums ys ⊆ blockSums xs := by
  rintro s ⟨zs, hne, hs, hsum⟩
  exact ⟨zs, hne, hs.trans h, hsum⟩

/-- A block at the end of `xs ++ [x]` is `x` alone, or a block at the end of `xs` with `x`. -/
theorem endSums_snoc : endSums (xs ++ [x]) = insert x ((· + x) '' endSums xs) := by
  ext s
  simp only [endSums, Set.mem_insert_iff, Set.mem_image, Set.mem_ofPred_eq]
  constructor
  · rintro ⟨ys, hne, hs, rfl⟩
    rcases List.suffix_concat_iff.1 hs with hnil | ⟨zs, rfl, hz⟩
    · exact absurd hnil hne
    · by_cases h0 : zs = []
      · subst h0
        exact .inl (by simp)
      · exact .inr ⟨zs.sum, ⟨zs, h0, hz, rfl⟩, by simp⟩
  · rintro (rfl | ⟨_, ⟨zs, -, hz, rfl⟩, rfl⟩)
    · exact ⟨[s], by simp, List.suffix_append xs [s], by simp⟩
    · exact ⟨zs ++ [x], by simp, List.suffix_concat_iff.2 (.inr ⟨zs, rfl, hz⟩), by simp⟩

theorem blockSums_snoc : blockSums (xs ++ [x]) = blockSums xs ∪ endSums (xs ++ [x]) := by
  ext s
  simp only [blockSums, endSums, Set.mem_union, Set.mem_ofPred_eq]
  constructor
  · rintro ⟨ys, hne, hs, hsum⟩
    rcases List.infix_concat_iff.1 hs with h | h
    · exact .inr ⟨ys, hne, h, hsum⟩
    · exact .inl ⟨ys, hne, h, hsum⟩
  · rintro (⟨ys, hne, hs, hsum⟩ | ⟨ys, hne, hs, hsum⟩)
    · exact ⟨ys, hne, List.infix_concat_iff.2 (.inr hs), hsum⟩
    · exact ⟨ys, hne, List.infix_concat_iff.2 (.inl hs), hsum⟩

variable [LinearOrder α]

/-- The values before and after the element `x`. -/
def kadaneStep (s : α × α) (x : α) : α × α :=
  (max x (s.1 + x), max s.2 (max x (s.1 + x)))

def kadane (xs : List α) : α × α := xs.foldl kadaneStep (0, 0)

theorem kadane_snoc (xs : List α) (x : α) : kadane (xs ++ [x]) = kadaneStep (kadane xs) x := by
  simp [kadane]

variable [IsOrderedAddMonoid α]

theorem kadane_end (h : xs ≠ []) : IsGreatest (endSums xs) (kadane xs).1 := by
  induction xs using List.reverseRecOn with
  | nil => exact absurd rfl h
  | append_singleton xs x ih =>
    rw [kadane_snoc, endSums_snoc]
    by_cases h0 : xs = []
    · subst h0
      rw [endSums_nil]
      simp [kadane, kadaneStep]
    · have hmono : Monotone (· + x) := fun a b hab => add_le_add_left hab x
      exact (hmono.map_isGreatest (ih h0)).insert x

theorem kadane_block (xs : List α) : IsGreatest (insert 0 (blockSums xs)) (kadane xs).2 := by
  induction xs using List.reverseRecOn with
  | nil =>
    rw [blockSums_nil]
    simp [kadane]
  | append_singleton xs x ih =>
    have hend : IsGreatest (endSums (xs ++ [x])) (kadane (xs ++ [x])).1 := kadane_end (by simp)
    rw [blockSums_snoc, ← Set.insert_union, kadane_snoc]
    rw [kadane_snoc] at hend
    exact ih.union hend

end

end SysProg
