import Mathlib.Data.List.Perm.Basic

/-!
# SysProg.ArrayQueue

An array `q : Nat → α` whose first `n` entries are a queue, as the list `entries q n`.

* `push_entries`: the store behind the last entry appends.
* `entries_swapRemove`: overwriting an entry with the last one and shortening the queue removes the
  entry; the list keeps all others (`swapRemove_perm`).
* `pick p i l`: the entries of `l` whose index, counted from `i`, satisfies `p`. A pass that sorts a
  queue into two loses nothing (`pick_perm`).
-/

namespace SysProg

variable {α : Type*}

def upd {ι : Type*} [DecidableEq ι] (q : ι → α) (i : ι) (a : α) : ι → α :=
  fun j => if j = i then a else q j

@[simp] theorem upd_self {ι : Type*} [DecidableEq ι] (q : ι → α) (i : ι) (a : α) :
    upd q i a i = a := if_pos rfl

theorem upd_of_ne {ι : Type*} [DecidableEq ι] {q : ι → α} {i j : ι} {a : α} (h : j ≠ i) :
    upd q i a j = q j := if_neg h

def entries (q : Nat → α) (n : Nat) : List α := (List.range n).map q

@[simp] theorem length_entries (q : Nat → α) (n : Nat) : (entries q n).length = n := by
  simp [entries]

@[simp] theorem entries_zero (q : Nat → α) : entries q 0 = [] := rfl

theorem entries_succ (q : Nat → α) (n : Nat) : entries q (n + 1) = entries q n ++ [q n] := by
  simp [entries, List.range_succ]

@[simp] theorem getElem_entries {q : Nat → α} {n i : Nat} (h : i < (entries q n).length) :
    (entries q n)[i] = q i := by
  simp [entries]

theorem getElem?_entries {q : Nat → α} {n i : Nat} (h : i < n) : (entries q n)[i]? = some (q i) := by
  rw [List.getElem?_eq_getElem (by simpa using h), getElem_entries]

theorem mem_entries {q : Nat → α} {n i : Nat} (h : i < n) : q i ∈ entries q n := by
  simp only [entries, List.mem_map, List.mem_range]
  exact ⟨i, h, rfl⟩

theorem entries_congr {q q' : Nat → α} {n : Nat} (h : ∀ i, i < n → q' i = q i) :
    entries q' n = entries q n := by
  simp only [entries]
  exact List.map_congr_left fun i hi => h i (List.mem_range.1 hi)

theorem entries_upd_of_le {q : Nat → α} {n i : Nat} {a : α} (h : n ≤ i) :
    entries (upd q i a) n = entries q n :=
  entries_congr fun j hj => upd_of_ne (by omega)

theorem push_entries (q : Nat → α) (n : Nat) (a : α) :
    entries (upd q n a) (n + 1) = entries q n ++ [a] := by
  rw [entries_succ, entries_upd_of_le (Nat.le_refl n), upd_self]

theorem entries_upd (q : Nat → α) (n i : Nat) (a : α) :
    entries (upd q i a) n = (entries q n).set i a := by
  refine List.ext_getElem (by simp) fun j h1 h2 => ?_
  rw [List.getElem_set]
  by_cases e : i = j
  · subst e; simp
  · simp [e, upd_of_ne (Ne.symm e)]

theorem dropLast_entries (q : Nat → α) (n : Nat) : (entries q (n + 1)).dropLast = entries q n := by
  rw [entries_succ, List.dropLast_concat]

/-! ## Removing an entry -/

/-- Overwrites entry `i` with the last one and drops the last one. -/
def swapRemove (l : List α) (i : Nat) : List α :=
  match l.getLast? with
  | none => []
  | some a => (l.set i a).dropLast

theorem entries_swapRemove (q : Nat → α) (n i : Nat) :
    entries (upd q i (q n)) n = swapRemove (entries q (n + 1)) i := by
  have hl : (entries q (n + 1)).getLast? = some (q n) := by
    rw [entries_succ, List.getLast?_concat]
  simp only [swapRemove, hl]
  rw [← entries_upd, dropLast_entries]

theorem swapRemove_concat_last (l : List α) (a : α) : swapRemove (l ++ [a]) l.length = l := by
  simp [swapRemove]

theorem swapRemove_concat {l : List α} {i : Nat} (a : α) (h : i < l.length) :
    swapRemove (l ++ [a]) i = l.set i a := by
  simp [swapRemove, h]

theorem swapRemove_perm {l : List α} {i : Nat} (h : i < l.length) :
    l.Perm (l[i] :: swapRemove l i) := by
  obtain ⟨l', a, rfl⟩ : ∃ l' a, l = l' ++ [a] :=
    ⟨l.dropLast, l.getLast (List.ne_nil_of_length_pos (by omega)), (List.dropLast_append_getLast _).symm⟩
  simp only [List.length_append, List.length_singleton] at h
  by_cases e : i = l'.length
  · subst e
    rw [swapRemove_concat_last, List.getElem_concat_length rfl]
    exact List.perm_append_singleton a l'
  · have hi : i < l'.length := by omega
    rw [swapRemove_concat a hi, List.getElem_append_left hi]
    have h1 : (l'.set i a).Perm (a :: l'.eraseIdx i) := List.set_perm_cons_eraseIdx hi a
    have h2 : (l'[i] :: l'.eraseIdx i).Perm l' := List.getElem_cons_eraseIdx_perm hi
    have h3 : (l' ++ [a]).Perm (a :: l'[i] :: l'.eraseIdx i) :=
      (List.perm_append_singleton a l').trans (h2.symm.cons a)
    exact (h3.trans (List.Perm.swap _ _ _)).trans (h1.symm.cons _)

theorem length_swapRemove {l : List α} {i : Nat} (h : i < l.length) :
    (swapRemove l i).length + 1 = l.length := by
  simpa using (swapRemove_perm h).length_eq.symm

/-- Of the other entries only the last one moves, into the place of the removed one. -/
theorem getElem?_swapRemove {l : List α} {i j : Nat} {a : α} (h : i < l.length) (hj : l[j]? = some a)
    (hne : j ≠ i) : (swapRemove l i)[j]? = some a ∨
      (j + 1 = l.length ∧ i < j ∧ (swapRemove l i)[i]? = some a) := by
  obtain ⟨l', b, rfl⟩ : ∃ l' b, l = l' ++ [b] :=
    ⟨l.dropLast, l.getLast (List.ne_nil_of_length_pos (by omega)), (List.dropLast_append_getLast _).symm⟩
  have hlt := (List.getElem?_eq_some_iff.1 hj).1
  simp only [List.length_append, List.length_singleton] at h hlt
  by_cases e : i = l'.length
  · subst e
    rw [List.getElem?_append_left (by omega)] at hj
    rw [swapRemove_concat_last]
    exact .inl hj
  · have hi : i < l'.length := by omega
    rw [swapRemove_concat b hi]
    by_cases hjl : j < l'.length
    · rw [List.getElem?_append_left hjl] at hj
      rw [List.getElem?_set_ne (Ne.symm hne)]
      exact .inl hj
    · have hjl : j = l'.length := by omega
      subst hjl
      rw [List.getElem?_concat_length] at hj
      refine .inr ⟨by simp, hi, ?_⟩
      rw [List.getElem?_set_self hi]
      exact hj

/-! ## Sorting a queue into two -/

def pick (p : Nat → Bool) : Nat → List α → List α
  | _, [] => []
  | i, a :: l => if p i then a :: pick p (i + 1) l else pick p (i + 1) l

@[simp] theorem pick_nil (p : Nat → Bool) (i : Nat) : pick p i ([] : List α) = [] := rfl

theorem pick_perm (p : Nat → Bool) (l : List α) :
    ∀ i, (pick p i l ++ pick (fun j => !p j) i l).Perm l := by
  induction l with
  | nil => intro i; exact .nil
  | cons a l ih =>
    intro i
    cases h : p i with
    | true => simpa [pick, h] using ih (i + 1)
    | false =>
      simp only [pick, h, Bool.not_false, if_true, Bool.false_eq_true, if_false]
      exact List.perm_middle.trans ((ih (i + 1)).cons a)

theorem mem_of_mem_pick {p : Nat → Bool} {a : α} {l : List α} :
    ∀ {i}, a ∈ pick p i l → a ∈ l := by
  induction l with
  | nil => intro i h; cases h
  | cons b l ih =>
    intro i h
    simp only [pick] at h
    split at h
    · rcases List.mem_cons.1 h with rfl | h
      · exact List.mem_cons_self
      · exact List.mem_cons_of_mem _ (ih h)
    · exact List.mem_cons_of_mem _ (ih h)

end SysProg
