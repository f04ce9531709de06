import Mathlib.Data.List.Perm.Basic

/-!
# SysProg.Segment

The part of an array from an index on, read as a list: `Along P i xs` says that cell `i + j` stands
in the relation `P` to the `j`-th element of `xs`.

Rules for the head, for two parts one after the other, for a change of the relation, and for the
exchange of the first cell with another one (`exchange`), which permutes the list.
-/

namespace SysProg

variable {α β : Type*} {P Q : Int → α → Prop} {i : Int} {x : α} {xs ys : List α}

def Along (P : Int → α → Prop) (i : Int) (xs : List α) : Prop :=
  ∀ (j : Nat) x, xs[j]? = some x → P (i + j) x

theorem along_nil : Along P i [] := by
  intro j x h; simp at h

theorem along_cons : Along P i (x :: xs) ↔ P i x ∧ Along P (i + 1) xs := by
  constructor
  · intro h
    refine ⟨by simpa using h 0 x rfl, fun j y hy => ?_⟩
    have := h (j + 1) y (by simpa using hy)
    rwa [show i + ((j + 1 : Nat) : Int) = i + 1 + j by omega] at this
  · rintro ⟨h, hs⟩ j y hy
    cases j with
    | zero =>
      simp only [List.getElem?_cons_zero, Option.some.injEq] at hy
      subst hy
      simpa using h
    | succ j =>
      have := hs j y (by simpa using hy)
      rwa [show i + ((j + 1 : Nat) : Int) = i + 1 + j by omega]

theorem along_append : Along P i (xs ++ ys) ↔ Along P i xs ∧ Along P (i + xs.length) ys := by
  induction xs generalizing i with
  | nil => simp [along_nil]
  | cons x xs ih =>
    rw [List.cons_append, along_cons, along_cons, ih, and_assoc]
    rw [show i + 1 + (xs.length : Int) = i + ((x :: xs).length : Nat) by
      rw [List.length_cons]; omega]

theorem Along.imp (h : Along P i xs)
    (hPQ : ∀ (k : Int) x, i ≤ k → k < i + xs.length → x ∈ xs → P k x → Q k x) : Along Q i xs := by
  intro j x hx
  have hj := (List.getElem?_eq_some_iff.1 hx).1
  exact hPQ _ x (by omega) (by omega) (List.mem_of_getElem? hx) (h j x hx)

theorem along_map {f : β → α} {xs : List β} :
    Along P i (xs.map f) ↔ Along (fun k x => P k (f x)) i xs := by
  constructor
  · intro h j x hx; exact h j (f x) (by simp [hx])
  · intro h j x hx
    rw [List.getElem?_map, Option.map_eq_some_iff] at hx
    obtain ⟨y, hy, rfl⟩ := hx
    exact h j y hy

theorem Along.at (h : Along P i xs) {j : Nat} (hj : j < xs.length) : P (i + j) xs[j] :=
  h j _ (List.getElem?_eq_getElem hj)

/-- The list with its first element and the one at `j` exchanged. -/
def exchange (xs : List α) (j : Nat) (h0 : 0 < xs.length) (h : j < xs.length) : List α :=
  (xs.set 0 xs[j]).set j xs[0]

theorem exchange_perm {j : Nat} (h0 : 0 < xs.length) (h : j < xs.length) :
    (exchange xs j h0 h).Perm xs := List.set_set_perm h0 h

theorem exchange_cons {j : Nat} (h0 : 0 < xs.length) (h : j < xs.length) :
    ∃ rest, exchange xs j h0 h = xs[j] :: rest := by
  cases xs with
  | nil => exact absurd h0 (Nat.lt_irrefl 0)
  | cons x xs =>
    cases j with
    | zero => exact ⟨xs, rfl⟩
    | succ j => exact ⟨xs.set j x, rfl⟩

/-- The cells after the exchange. -/
theorem Along.exchange {j : Nat} (h : Along P i xs) (h0 : 0 < xs.length) (hj : j < xs.length)
    (hfst : Q i xs[j]) (hsnd : Q (i + j) xs[0])
    (hk : ∀ (k : Nat) x, k ≠ 0 → k ≠ j → xs[k]? = some x → P (i + k) x → Q (i + k) x) :
    Along Q i (exchange xs j h0 hj) := by
  intro k x hx
  rw [SysProg.exchange, List.getElem?_set, List.getElem?_set, List.length_set] at hx
  by_cases hkj : j = k
  · subst hkj
    simp only [↓reduceIte, hj, Option.some.injEq] at hx
    rw [← hx]
    exact hsnd
  · by_cases hk0 : 0 = k
    · subst hk0
      simp only [hkj, ↓reduceIte, h0, Option.some.injEq] at hx
      subst hx
      simpa using hfst
    · simp only [hkj, hk0, ↓reduceIte] at hx
      exact hk k x (fun e => hk0 e.symm) (fun e => hkj e.symm) hx (h k x hx)

end SysProg
