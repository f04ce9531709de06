import Mathlib.Data.Fintype.Basic
import Mathlib.Tactic.FinCases
import SysProg.Tournament.Bracket

/-!
# SysProg.Tournament.Tree

The tree of processes and the parts of the state that belong to a subtree.

* `Below c p`: `p` is `c` or comes after it.
* `snd`, `rcv`: who writes to a channel and who reads from it; into a FIFO writes whoever loses the
  battle it comes from.
* `inside c`: what the processes below `c` change while `c` is not the root.
* `inner c`: what says where they are.
* `own b`: what a battle itself changes.
-/

namespace SysProg.Tournament

abbrev Part := Kahn.Part Proc Chan Flag

/-- The parent and the slot there. -/
def slot : Proc → Option (Battle × Bool)
  | .battle .A => none
  | .battle .B => some (.A, false) | .battle .C => some (.A, true)
  | .battle .D => some (.B, false) | .battle .E => some (.B, true)
  | .battle .F => some (.C, false)
  | .battle .G => some (.D, false) | .battle .H => some (.D, true)
  | .battle .I => some (.E, false) | .battle .J => some (.E, true)
  | .battle .K => some (.F, false) | .battle .L => some (.F, true)
  | .battle .M => some (.K, false) | .battle .N => some (.L, false)
  | .player 0 => some (.G, false) | .player 1 => some (.G, true)
  | .player 2 => some (.H, false) | .player 3 => some (.H, true)
  | .player 4 => some (.I, false) | .player 5 => some (.I, true)
  | .player 6 => some (.J, false) | .player 7 => some (.J, true)
  | .player 8 => some (.M, false) | .player 9 => some (.M, true)
  | .player 10 => some (.K, true)
  | .player 11 => some (.N, false) | .player 12 => some (.N, true)
  | .player 13 => some (.L, true)
  | .player 14 => some (.C, true)

@[simp] theorem slot_child (b : Battle) (i : Bool) : slot (child b i) = some (b, i) := by
  cases b <;> cases i <;> rfl

def parent (p : Proc) : Proc :=
  match slot p with
  | some (b, _) => .battle b
  | none => p

@[simp] theorem parent_child (b : Battle) (i : Bool) : parent (child b i) = .battle b := by
  simp [parent]

theorem child_inj {b b' : Battle} {i i' : Bool} (h : child b i = child b' i') : b = b' ∧ i = i' := by
  have h' := congrArg slot h
  simpa using h'

theorem child_slot (p : Proc) : (slot p).elim (p = .battle .A) fun x => child x.1 x.2 = p := by
  cases p with
  | battle b => cases b <;> rfl
  | player k => fin_cases k <;> rfl

theorem child_cases (p : Proc) : p = .battle .A ∨ ∃ b i, p = child b i := by
  have h := child_slot p
  cases hs : slot p with
  | none => rw [hs] at h; exact .inl h
  | some x => rw [hs] at h; exact .inr ⟨x.1, x.2, h.symm⟩

def depth : Proc → Nat
  | .battle .A => 0
  | .battle .B => 1 | .battle .C => 1
  | .battle .D => 2 | .battle .E => 2 | .battle .F => 2
  | .battle .G => 3 | .battle .H => 3 | .battle .I => 3 | .battle .J => 3
  | .battle .K => 3 | .battle .L => 3
  | .battle .M => 4 | .battle .N => 4
  | .player k => if k = 14 then 2 else if k = 8 ∨ k = 9 ∨ k = 11 ∨ k = 12 then 5 else 4

theorem depth_child (b : Battle) (i : Bool) : depth (child b i) = depth (.battle b) + 1 := by
  cases b <;> cases i <;> rfl

theorem depth_le (p : Proc) : depth p ≤ 5 := by
  cases p with
  | battle b => cases b <;> decide
  | player k => revert k; decide

/-- From the leaves up. -/
theorem tree_induction {P : Proc → Prop} (player : ∀ k, P (.player k))
    (battle : ∀ b, (∀ i, P (child b i)) → P (.battle b)) (p : Proc) : P p := by
  have key : ∀ n p, 5 ≤ depth p + n → P p := by
    intro n
    induction n with
    | zero =>
      intro p hp
      cases p with
      | player k => exact player k
      | battle b =>
        have := depth_le (child b false)
        rw [depth_child] at this
        omega
    | succ n ih =>
      intro p hp
      cases p with
      | player k => exact player k
      | battle b =>
        refine battle b fun i => ih _ ?_
        rw [depth_child]
        omega
  exact key 5 p (by omega)

theorem child_ne (b : Battle) (i : Bool) : child b i ≠ .battle b := by
  intro h
  have := depth_child b i
  rw [h] at this
  omega

theorem child_not_ne (b : Battle) (i : Bool) : child b (!i) ≠ child b i := by
  intro h
  have := (child_inj h).2
  cases i <;> cases this

/-! ## Subtrees -/

inductive Below (c : Proc) : Proc → Prop where
  | refl : Below c c
  | child (b : Battle) (i : Bool) : Below c (.battle b) → Below c (child b i)

theorem below_iff {c p : Proc} : Below c p ↔ p = c ∨ ∃ b i, p = child b i ∧ Below c (.battle b) := by
  constructor
  · intro h
    cases h with
    | refl => exact .inl rfl
    | child b i h => exact .inr ⟨b, i, rfl, h⟩
  · rintro (rfl | ⟨b, i, rfl, h⟩)
    · exact .refl
    · exact .child b i h

theorem Below.trans {c d p : Proc} (h : Below c d) (h' : Below d p) : Below c p := by
  induction h' with
  | refl => exact h
  | child b i _ ih => exact .child b i ih

theorem below_child (b : Battle) (i : Bool) : Below (.battle b) (child b i) := .child b i .refl

theorem Below.child_iff {c : Proc} {b : Battle} {i : Bool} :
    Below c (Tournament.child b i) ↔ c = Tournament.child b i ∨ Below c (.battle b) := by
  rw [below_iff]
  constructor
  · rintro (h | ⟨b', i', h, hb⟩)
    · exact .inl h.symm
    · obtain ⟨rfl, rfl⟩ := child_inj h
      exact .inr hb
  · rintro (h | h)
    · exact .inl h.symm
    · exact .inr ⟨b, i, rfl, h⟩

/-- Those a process is below are below each other. -/
theorem Below.linear {c d p : Proc} (h : Below c p) (h' : Below d p) : Below c d ∨ Below d c := by
  induction h with
  | refl => exact .inr h'
  | child b i h ih =>
    rcases Below.child_iff.1 h' with rfl | h'
    · exact .inl (.child b i h)
    · exact ih h'

theorem Below.depth {c p : Proc} (h : Below c p) : p = c ∨ depth c < depth p := by
  induction h with
  | refl => exact .inl rfl
  | child b i _ ih =>
    right
    rw [depth_child]
    rcases ih with rfl | ih <;> omega

theorem Below.antisymm {c d : Proc} (h : Below c d) (h' : Below d c) : d = c := by
  rcases h.depth with h | h
  · exact h
  · rcases h'.depth with h' | h' 
    · exact h'.symm
    · omega

theorem below_player {k : PlayerId} {p : Proc} (h : Below (.player k) p) : p = .player k := by
  induction h with
  | refl => rfl
  | child b i _ ih => cases ih

theorem not_below_child (b : Battle) (i : Bool) : ¬ Below (child b i) (.battle b) := by
  intro h
  exact child_ne b i (h.antisymm (below_child b i)).symm

theorem not_below_sibling {b : Battle} {i : Bool} {p : Proc} (h : Below (child b i) p) :
    ¬ Below (child b (!i)) p := by
  have key : ∀ j, ¬ Below (child b j) (child b (!j)) := by
    intro j hj
    rcases Below.child_iff.1 hj with hj | hj
    · exact child_not_ne b j hj.symm
    · exact not_below_child b j hj
  intro h'
  rcases h.linear h' with h | h
  · exact key i h
  · have := key (!i)
    rw [Bool.not_not] at this
    exact this h

theorem below_battle_cases {b : Battle} {p : Proc} (h : Below (.battle b) p) :
    p = .battle b ∨ ∃ i, Below (child b i) p := by
  induction h with
  | refl => exact .inl rfl
  | child b' i h ih =>
    right
    rcases ih with ih | ⟨j, ih⟩
    · cases ih
      exact ⟨i, .refl⟩
    · exact ⟨j, .child b' i ih⟩

theorem below_root (p : Proc) : Below (.battle .A) p := by
  have key : ∀ n p, depth p ≤ n → Below (.battle .A) p := by
    intro n
    induction n with
    | zero =>
      intro p hp
      rcases child_cases p with rfl | ⟨b, i, rfl⟩
      · exact .refl
      · rw [depth_child] at hp
        omega
    | succ n ih =>
      intro p hp
      rcases child_cases p with rfl | ⟨b, i, rfl⟩
      · exact .refl
      · rw [depth_child] at hp
        exact .child b i (ih _ (by omega))
  exact key _ p le_rfl

/-- The upper bracket: those who have not lost yet. -/
def upper : Proc → Bool
  | .battle .B | .battle .D | .battle .E | .battle .G | .battle .H | .battle .I | .battle .J => true
  | .battle _ => false
  | .player k => decide (k ≤ 7)

theorem upper_child {b : Battle} {i : Bool} (h : b ≠ .A) : upper (child b i) = upper (.battle b) := by
  cases b <;> cases i <;> first | rfl | exact absurd rfl h

theorem upper_below {b : Battle} {p : Proc} (hb : b ≠ .A) (h : Below (.battle b) p) :
    upper p = upper (.battle b) := by
  induction h with
  | refl => rfl
  | child b' i h ih =>
    rw [upper_child, ih]
    rintro rfl
    have := h.antisymm (below_root _)
    cases this
    exact hb rfl

/-! ## Who uses which channel -/

variable [Arith]

def snd (file : List Line) : Chan → Proc
  | .stdin p => parent p
  | .stdout p => p
  | .fifo k => .player (match feeder k with | some b => (result file b).loser.seat | none => k)

def rcv : Chan → Proc
  | .stdin p => p
  | .stdout p => parent p
  | .fifo k => .player k

/-- The steps lead from `s` to `s'` and change nothing outside `Q`. -/
abbrev Go (file : List Line) (Q : Set Part) (s s' : State) : Prop :=
  Kahn.Go (prog file) (snd file) rcv Q s s'

def inside (c : Proc) : Set Part
  | .proc p => Below c p
  | .queue (.stdin p) => Below c p
  | .queue (.stdout p) => Below c p
  | .flag (.forked p) => Below c p
  | .flag (.exited p) => Below c p
  | _ => False

def inner (c : Proc) : Set Part
  | .proc p => Below c p
  | .queue (.stdin p) => Below c p ∧ p ≠ c
  | .queue (.stdout p) => Below c p ∧ p ≠ c
  | _ => False

def own (b : Battle) : Set Part
  | .proc p => p = .battle b
  | .queue (.stdin p) => p = .battle b ∨ ∃ i, p = child b i
  | .queue (.stdout p) => p = .battle b ∨ ∃ i, p = child b i
  | .flag (.forked p) => ∃ i, p = child b i
  | .flag (.exited p) => p = .battle b
  | _ => False

end SysProg.Tournament
