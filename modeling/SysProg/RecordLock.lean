import Mathlib.Data.Fintype.Basic
import Mathlib.Logic.Function.Basic

/-!
# SysProg.RecordLock

POSIX record locks on one file, over any set `P` of processes and any set `K` of regions that do
not overlap. A process holds at most one lock on a region; it is owned by the process, so two
requests of one process never conflict.

* `getlk` (`F_GETLK`): the type of a conflicting lock of another process, or `unlck` if a request
  of the given type would be granted.
* `setlk` (`F_SETLK`): grants the request, or changes nothing if another process holds a
  conflicting lock. An unlock is always granted.
* `dropAll`: what the exit of a process does to its locks.
* `Compatible`: no two processes hold conflicting locks. Every operation keeps it.
-/

set_option linter.unusedSectionVars false

namespace SysProg

inductive LockType where
  | unlck
  | rdlck
  | wrlck
  deriving DecidableEq, Repr

def LockType.conflicts : LockType → LockType → Bool
  | .wrlck, .wrlck | .wrlck, .rdlck | .rdlck, .wrlck => true
  | _, _ => false

theorem LockType.conflicts_symm (a b : LockType) : a.conflicts b = b.conflicts a := by
  cases a <;> cases b <;> rfl

@[simp] theorem LockType.unlck_conflicts (a : LockType) : LockType.unlck.conflicts a = false := by
  cases a <;> rfl

@[simp] theorem LockType.conflicts_unlck (a : LockType) : a.conflicts .unlck = false := by
  cases a <;> rfl

/-- The lock each process holds on each region. -/
abbrev LockTable (P K : Type) := K → P → LockType

namespace LockTable

variable {P K : Type} [DecidableEq P] [DecidableEq K] [Fintype P]

/-- No process but `p` holds a lock on `k` that conflicts with `type`. -/
def Grants (t : LockTable P K) (p : P) (k : K) (type : LockType) : Prop :=
  ∀ q, q ≠ p → type.conflicts (t k q) = false

instance (t : LockTable P K) (p : P) (k : K) (type : LockType) : Decidable (t.Grants p k type) :=
  inferInstanceAs (Decidable (∀ q, q ≠ p → type.conflicts (t k q) = false))

def getlk (t : LockTable P K) (p : P) (k : K) (type : LockType) : LockType :=
  if t.Grants p k type then .unlck
  else if ∃ q, q ≠ p ∧ t k q = .wrlck then .wrlck
  else .rdlck

/-- The table after `p` was granted `type` on `k`. -/
def put (t : LockTable P K) (p : P) (k : K) (type : LockType) : LockTable P K :=
  fun k' q => if k' = k ∧ q = p then type else t k' q

def setlk (t : LockTable P K) (p : P) (k : K) (type : LockType) : LockTable P K :=
  if t.Grants p k type then t.put p k type else t

def dropAll (t : LockTable P K) (p : P) : LockTable P K :=
  fun k q => if q = p then .unlck else t k q

def Compatible (t : LockTable P K) : Prop :=
  ∀ k p q, p ≠ q → (t k p).conflicts (t k q) = false

variable {t : LockTable P K} {p q : P} {k k' : K} {type : LockType}

@[simp] theorem put_self : t.put p k type k p = type := by simp [put]

theorem put_of_ne_process (h : q ≠ p) : t.put p k type k' q = t k' q := by simp [put, h]

theorem put_of_ne_region (h : k' ≠ k) : t.put p k type k' q = t k' q := by simp [put, h]

@[simp] theorem dropAll_self : t.dropAll p k p = .unlck := by simp [dropAll]

theorem dropAll_of_ne (h : q ≠ p) : t.dropAll p k q = t k q := by simp [dropAll, h]

theorem grants_unlck : t.Grants p k .unlck := fun _ _ => rfl

theorem setlk_of_grants (h : t.Grants p k type) : t.setlk p k type = t.put p k type := if_pos h

@[simp] theorem setlk_unlck : t.setlk p k .unlck = t.put p k .unlck := setlk_of_grants grants_unlck

theorem setlk_of_ne_process (h : q ≠ p) : t.setlk p k type k' q = t k' q := by
  unfold setlk
  split
  · exact put_of_ne_process h
  · rfl

theorem getlk_eq_unlck : t.getlk p k type = .unlck ↔ t.Grants p k type := by
  unfold getlk
  split
  · simp_all
  · split <;> simp_all

/-- A read request is refused because of a write lock, and that is what `F_GETLK` reports. -/
theorem getlk_rdlck_ne_wrlck : t.getlk p k .rdlck ≠ .wrlck ↔ t.Grants p k .rdlck := by
  have hw : ∀ a : LockType, LockType.rdlck.conflicts a = false ↔ a ≠ .wrlck := by
    intro a; cases a <;> simp [LockType.conflicts]
  unfold getlk
  split
  · rename_i h; simp [h]
  · rename_i h
    have : ∃ q, q ≠ p ∧ t k q = .wrlck := by
      by_contra hn
      exact h fun q hq => (hw _).2 fun e => hn ⟨q, hq, e⟩
    simp [this, h]

theorem put_compatible (hc : t.Compatible) (h : t.Grants p k type) :
    (t.put p k type).Compatible := by
  intro k' a b hab
  by_cases hk : k' = k
  · subst hk
    by_cases ha : a = p
    · subst ha
      rw [put_self, put_of_ne_process (Ne.symm hab)]
      exact h b (Ne.symm hab)
    · by_cases hb : b = p
      · subst hb
        rw [put_self, put_of_ne_process ha, LockType.conflicts_symm]
        exact h a ha
      · rw [put_of_ne_process ha, put_of_ne_process hb]
        exact hc k' a b hab
  · rw [put_of_ne_region hk, put_of_ne_region hk]
    exact hc k' a b hab

theorem setlk_compatible (hc : t.Compatible) : (t.setlk p k type).Compatible := by
  unfold setlk
  split
  · exact put_compatible hc ‹_›
  · exact hc

theorem dropAll_compatible (hc : t.Compatible) : (t.dropAll p).Compatible := by
  intro k a b hab
  by_cases ha : a = p
  · subst ha; simp
  · by_cases hb : b = p
    · subst hb; simp
    · rw [dropAll_of_ne ha, dropAll_of_ne hb]
      exact hc k a b hab

/-- A write lock excludes every lock of another process. -/
theorem Compatible.wrlck_alone (hc : t.Compatible) (h : t k p = .wrlck) (hq : q ≠ p) :
    t k q = .unlck := by
  have := hc k p q (Ne.symm hq)
  rw [h] at this
  cases hx : t k q <;> simp_all [LockType.conflicts]

end LockTable
end SysProg
