import SysProg.RecordLock
import Mathlib.Data.List.Basic

/-!
# SysProg.ByteRange

A file as the bytes it holds, and POSIX record locks as what they are: locks on ranges of bytes.

* `LockTable.getlkRange`, `LockTable.setlkRange`: `F_GETLK` and `F_SETLK` on a range. A request is
  granted on all bytes of the range or on none.
* `Layout`: regions of one length that do not overlap, for keys that are in use. `Covers`: a table of
  bytes that has, on all bytes of a region, the lock of the table of regions. On such tables the
  requests on the range of a region are the requests of `RecordLock` on the region.
* `pread`, `pwrite`: what `read` and `write` do at a position of the file. A range is not touched by
  writes to ranges apart from it.
-/

set_option linter.unusedSectionVars false

namespace SysProg

namespace LockTable

section

variable {P : Type} [DecidableEq P] [Fintype P]

/-- No process but `p` holds a lock on one of the bytes that conflicts with `type`. -/
def GrantsRange (t : LockTable P Nat) (p : P) (start len : Nat) (type : LockType) : Prop :=
  ∀ i, i < len → t.Grants p (start + i) type

instance (t : LockTable P Nat) (p : P) (start len : Nat) (type : LockType) :
    Decidable (t.GrantsRange p start len type) :=
  inferInstanceAs (Decidable (∀ i, i < len → t.Grants p (start + i) type))

/-- The first conflict found from the start of the range. -/
def getlkRange (t : LockTable P Nat) (p : P) (start len : Nat) (type : LockType) : LockType :=
  (((List.range len).map fun i => t.getlk p (start + i) type).find? fun l => l ≠ .unlck).getD .unlck

def putRange (t : LockTable P Nat) (p : P) (start len : Nat) (type : LockType) : LockTable P Nat :=
  fun a q => if (start ≤ a ∧ a < start + len) ∧ q = p then type else t a q

def setlkRange (t : LockTable P Nat) (p : P) (start len : Nat) (type : LockType) : LockTable P Nat :=
  if t.GrantsRange p start len type then t.putRange p start len type else t

end

end LockTable

/-- Where the regions lie. -/
structure Layout (K : Type) where
  start : K → Nat
  len : Nat
  used : K → Prop
  pos : 0 < len
  apart : ∀ k k', used k → used k' → k ≠ k' → start k + len ≤ start k' ∨ start k' + len ≤ start k

section

variable {P K : Type} [DecidableEq P] [DecidableEq K] [Fintype P] {L : Layout K}
  {t : LockTable P Nat} {T : LockTable P K} {p : P} {k : K} {type : LockType}

/-- Each byte of a region has the lock of the region. -/
def Covers (L : Layout K) (t : LockTable P Nat) (T : LockTable P K) : Prop :=
  ∀ k, L.used k → ∀ i, i < L.len → ∀ p, t (L.start k + i) p = T k p

theorem Covers.grants (h : Covers L t T) (hk : L.used k) {i : Nat} (hi : i < L.len) :
    t.Grants p (L.start k + i) type ↔ T.Grants p k type := by
  simp only [LockTable.Grants, h k hk i hi]

theorem Covers.grantsRange (h : Covers L t T) (hk : L.used k) :
    t.GrantsRange p (L.start k) L.len type ↔ T.Grants p k type := by
  constructor
  · intro hg
    exact (h.grants hk L.pos).1 (hg 0 L.pos)
  · intro hg i hi
    exact (h.grants hk hi).2 hg

theorem Covers.getlk (h : Covers L t T) (hk : L.used k) {i : Nat} (hi : i < L.len) :
    t.getlk p (L.start k + i) type = T.getlk p k type := by
  simp only [LockTable.getlk, h.grants hk hi, h k hk i hi]

theorem find?_map_const {α : Type} (f : α → LockType) {l : LockType} {xs : List α} (hne : xs ≠ [])
    (h : ∀ x ∈ xs, f x = l) : ((xs.map f).find? fun l => l ≠ .unlck).getD .unlck = l := by
  induction xs with
  | nil => exact absurd rfl hne
  | cons x xs ih =>
    have hx := h x (List.mem_cons_self ..)
    by_cases hl : l = .unlck
    · subst hl
      rw [List.find?_eq_none.2]
      · rfl
      · intro y hy
        obtain ⟨z, hz, rfl⟩ := List.mem_map.1 hy
        simp [h z hz]
    · simp [hx, hl]

theorem Covers.getlkRange (h : Covers L t T) (hk : L.used k) :
    t.getlkRange p (L.start k) L.len type = T.getlk p k type := by
  refine find?_map_const _ ?_ fun i hi => h.getlk hk (List.mem_range.1 hi)
  simpa using L.pos.ne'

theorem Covers.setlkRange (h : Covers L t T) (hk : L.used k) :
    Covers L (t.setlkRange p (L.start k) L.len type) (T.setlk p k type) := by
  unfold LockTable.setlkRange LockTable.setlk
  by_cases hg : T.Grants p k type
  · rw [if_pos hg, if_pos ((h.grantsRange hk).2 hg)]
    intro k' hk' i hi q
    unfold LockTable.putRange LockTable.put
    by_cases hkk : k' = k
    · subst hkk
      simp [hi, h k' hk' i hi q]
    · have := L.apart k k' hk hk' (Ne.symm hkk)
      rw [if_neg (by omega), if_neg (by simp [hkk]), h k' hk' i hi q]
  · rw [if_neg hg, if_neg (mt (h.grantsRange hk).1 hg)]
    exact h

theorem Covers.dropAll (h : Covers L t T) : Covers L (t.dropAll p) (T.dropAll p) := by
  intro k hk i hi q
  simp only [LockTable.dropAll, h k hk i hi q]

end

/-! ## The bytes of a file -/

section

variable {α : Type} {file bs : List α} {pos q n : Nat}

/-- Up to `n` bytes from position `pos`; fewer at the end of the file. -/
def pread (file : List α) (pos n : Nat) : List α := (file.drop pos).take n

/-- Writes into the file, `pos` being within it. -/
def pwrite (file : List α) (pos : Nat) (bs : List α) : List α :=
  file.take pos ++ bs ++ file.drop (pos + bs.length)

theorem length_pwrite (h : pos + bs.length ≤ file.length) :
    (pwrite file pos bs).length = file.length := by
  simp only [pwrite, List.length_append, List.length_take, List.length_drop]
  omega

theorem getElem?_pwrite (h : pos + bs.length ≤ file.length) (a : Nat) :
    (pwrite file pos bs)[a]? =
      if pos ≤ a ∧ a < pos + bs.length then bs[a - pos]? else file[a]? := by
  have hlen : (file.take pos).length = pos := by rw [List.length_take]; omega
  unfold pwrite
  rw [List.append_assoc]
  by_cases h1 : a < pos
  · rw [List.getElem?_append_left (by omega), List.getElem?_take_of_lt h1, if_neg (by omega)]
  · rw [List.getElem?_append_right (by omega), hlen]
    by_cases h2 : a < pos + bs.length
    · rw [List.getElem?_append_left (by omega), if_pos (by omega)]
    · rw [List.getElem?_append_right (by omega), List.getElem?_drop, if_neg (by omega)]
      congr 1
      omega

theorem getElem?_pread (i : Nat) : (pread file pos n)[i]? = if i < n then file[pos + i]? else none := by
  unfold pread
  split
  · rename_i hi
    rw [List.getElem?_take_of_lt hi, List.getElem?_drop]
  · rename_i hi
    exact List.getElem?_eq_none (by rw [List.length_take]; omega)

theorem length_pread (h : pos + n ≤ file.length) : (pread file pos n).length = n := by
  simp only [pread, List.length_take, List.length_drop]
  omega

theorem pread_pwrite (h : pos + bs.length ≤ file.length) :
    pread (pwrite file pos bs) pos bs.length = bs := by
  apply List.ext_getElem?
  intro i
  rw [getElem?_pread, getElem?_pwrite h]
  by_cases hi : i < bs.length
  · rw [if_pos hi, if_pos (by omega), Nat.add_sub_cancel_left]
  · rw [if_neg hi, List.getElem?_eq_none (by omega)]

theorem pread_pwrite_apart (h : pos + bs.length ≤ file.length)
    (ha : pos + bs.length ≤ q ∨ q + n ≤ pos) :
    pread (pwrite file pos bs) q n = pread file q n := by
  apply List.ext_getElem?
  intro i
  rw [getElem?_pread, getElem?_pread, getElem?_pwrite h]
  by_cases hi : i < n
  · rw [if_pos hi, if_pos hi, if_neg (by omega)]
  · rw [if_neg hi, if_neg hi]

end

end SysProg
