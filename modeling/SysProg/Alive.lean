import SysProg.ForkJoin

/-!
# SysProg.Alive

How many parts of a program are running side by side.

* `alive`: the parts that have been started and not been joined.
* `Width`: a bound that does not depend on what is in the memory; `Steps.alive_le`.
* `Reaches`: some run gets to so many parts, from every memory; `Reaches.par` adds up two of them.
* `Peak`: the most parts at a time, over all runs.
-/

namespace SysProg.ForkJoin

universe u v

variable {L : Type u} {V : L → Type v} {p p' q k : Prog L V} {m m' : Mem V} {n n' a b : Nat}

def alive : Prog L V → Nat
  | .par p q _ => alive p + alive q
  | _ => 1

def Width (n : Nat) : Prog L V → Prop
  | .done => 1 ≤ n
  | .fail => 1 ≤ n
  | .read _ k => 1 ≤ n ∧ ∀ v, Width n (k v)
  | .write _ _ k => Width n k
  | .par p q k => (∃ a b, a + b ≤ n ∧ Width a p ∧ Width b q) ∧ Width n k

theorem width_done (h : 1 ≤ n) : Width n (.done : Prog L V) := h

theorem Width.pos (h : Width n p) : 1 ≤ n := by
  induction p generalizing n with
  | done => exact h
  | fail => exact h
  | read l k _ => exact h.1
  | write l v k ih => exact ih h
  | par p q k _ _ ihk => exact ihk h.2

theorem Width.alive_le (h : Width n p) : alive p ≤ n := by
  induction p generalizing n with
  | done => exact h
  | fail => exact h
  | read l k _ => exact h.1
  | write l v k _ =>
    have hk : Width n k := h
    exact hk.pos
  | par p q k ihp ihq _ =>
    obtain ⟨⟨a, b, hab, hp, hq⟩, -⟩ := h
    have h₁ := ihp hp
    have h₂ := ihq hq
    rw [alive]
    omega

theorem Width.par (hp : Width a p) (hq : Width b q) (hab : a + b ≤ n) (hk : Width n k) :
    Width n (.par p q k) := ⟨⟨a, b, hab, hp, hq⟩, hk⟩

variable [DecidableEq L]

/-- A part may only become narrower. -/
theorem Step.width (h : Step p m p' m') (hw : Width n p) : Width n p' := by
  induction h generalizing n with
  | read => exact hw.2 _
  | write => exact hw
  | left _ ih =>
    obtain ⟨⟨a, b, hab, hp, hq⟩, hk⟩ := hw
    exact ⟨⟨a, b, hab, ih hp, hq⟩, hk⟩
  | right _ ih =>
    obtain ⟨⟨a, b, hab, hp, hq⟩, hk⟩ := hw
    exact ⟨⟨a, b, hab, hp, ih hq⟩, hk⟩
  | join => exact hw.2

theorem Steps.width (h : Steps p m p' m') (hw : Width n p) : Width n p' := by
  induction h with
  | refl => exact hw
  | tail _ h ih => exact h.width ih

theorem Steps.alive_le (h : Steps p m p' m') (hw : Width n p) : alive p' ≤ n := (h.width hw).alive_le

def Reaches (n : Nat) (p : Prog L V) : Prop := ∀ m, ∃ p' m', Steps p m p' m' ∧ n ≤ alive p'

omit [DecidableEq L] in
theorem alive_pos (p : Prog L V) : 1 ≤ alive p := by
  induction p with
  | done => exact le_refl 1
  | fail => exact le_refl 1
  | read l k _ => exact le_refl 1
  | write l v k _ => exact le_refl 1
  | par p q k ihp _ _ =>
    rw [alive]
    omega

theorem reaches_one (p : Prog L V) : Reaches 1 p := fun m => ⟨p, m, .refl, alive_pos p⟩

theorem Reaches.of_steps (h : Reaches n p') (hs : ∀ m, ∃ m', Steps p m p' m') : Reaches n p := by
  intro m
  obtain ⟨m₁, h₁⟩ := hs m
  obtain ⟨p₂, m₂, h₂, hn⟩ := h m₁
  exact ⟨p₂, m₂, h₁.trans h₂, hn⟩

/-- One part after the other gets there, and the first one stays where it is meanwhile. -/
theorem Reaches.par (hp : Reaches a p) (hq : Reaches b q) : Reaches (a + b) (.par p q k) := by
  intro m
  obtain ⟨p₁, m₁, h₁, ha⟩ := hp m
  obtain ⟨q₂, m₂, h₂, hb⟩ := hq m₁
  refine ⟨.par p₁ q₂ k, m₂, h₁.left.trans h₂.right, ?_⟩
  rw [alive]
  omega

/-- In every run there are at most `n` parts at a time, and in some run there are `n`. -/
structure Peak (p : Prog L V) (m : Mem V) (n : Nat) : Prop where
  bound : ∀ p' m', Steps p m p' m' → alive p' ≤ n
  reached : ∃ p' m', Steps p m p' m' ∧ alive p' = n

theorem peak_of (hw : Width n p) (hr : Reaches n p) (m : Mem V) : Peak p m n := by
  refine ⟨fun p' m' h => h.alive_le hw, ?_⟩
  obtain ⟨p', m', h, hn⟩ := hr m
  exact ⟨p', m', h, le_antisymm (h.alive_le hw) hn⟩

end SysProg.ForkJoin
