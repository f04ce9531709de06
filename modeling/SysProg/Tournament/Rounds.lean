import Mathlib.Data.Bool.Basic
import SysProg.Tournament.Program

/-!
# SysProg.Tournament.Rounds

The rounds of a battle, from any two statuses, without regard to who wins.

* `Played`: what a round can do.
* `rounds`: the two statuses after so many rounds.
* `Live`: as many rounds have not ended the battle; `Over`: the next one does.
* `Standing`: neither has fallen, and somebody can hit. `Decided`: one has fallen.
* `standing_over`: from there a battle ends, also when the numbers overflow.
* `Exact`: the numbers do not overflow; then HP only falls.
* `play_flags`: nobody falls to 0 HP or less without both flags being set.
-/

namespace SysProg.Tournament

open Arith (wrap Fits)

variable [Arith]

/-! ## One round -/

/-- Slot `i` is hit by `y`. -/
def blow (attr : Attribute) (st : Bool → Status) (i : Bool) (y : Status) : Bool → Status :=
  Function.update st i ((st i).hitBy attr y)

/-- Both slots have been hit. -/
def hurt (attr : Attribute) (st : Bool → Status) : Bool → Status :=
  fun i => (st i).hitBy attr (st (!i))

section

variable (attr : Attribute) (st : Bool → Status) (i : Bool) (y : Status)

theorem blow_self : blow attr st i y i = (st i).hitBy attr y := Function.update_self ..

theorem blow_not : blow attr st i y (!i) = st (!i) :=
  Function.update_of_ne (by cases i <;> decide) ..

theorem play_eq : play attr st =
    (let s := blow attr st (!first st) (st (first st))
    if (s (!first st)).HP ≤ 0 then ended s
    else
      let s' := blow attr s (first st) (s (!first st))
      if (s' (first st)).HP ≤ 0 then ended s' else s') := rfl

/-- What a round can do: the second slot falls, the first one falls, or both go on. -/
inductive Played : (Bool → Status) → Prop where
  | once {x : Bool} : (hurt attr st (!x)).HP ≤ 0 →
      Played (ended (Function.update st (!x) (hurt attr st (!x))))
  | twice {x : Bool} : 0 < (hurt attr st (!x)).HP → (hurt attr st x).HP ≤ 0 → Played (ended (hurt attr st))
  | both : (∀ i, 0 < (hurt attr st i).HP) → Played (hurt attr st)

theorem blow_first (x : Bool) :
    blow attr st (!x) (st x) = Function.update st (!x) (hurt attr st (!x)) := by
  rw [blow, hurt, Bool.not_not]

/-- The slot that hits back does so with what it had. -/
theorem blow_second (x : Bool) :
    blow attr (Function.update st (!x) (hurt attr st (!x))) x (hurt attr st (!x)) = hurt attr st := by
  have hne : x ≠ !x := by cases x <;> decide
  funext j
  rcases Bool.eq_or_eq_not j x with rfl | rfl
  · rw [blow_self, Function.update_of_ne hne]
    rfl
  · rw [blow_not, Function.update_self]

theorem play_played : Played attr st (play attr st) := by
  rw [play_eq]
  generalize first st = x
  dsimp only
  rw [blow_first, Function.update_self, blow_second]
  split
  · rename_i h1
    exact .once h1
  · rename_i h1
    split
    · rename_i h2
      exact .twice (by omega) h2
    · rename_i h2
      refine .both fun i => ?_
      rcases Bool.eq_or_eq_not i x with rfl | rfl
      · omega
      · omega

variable {attr} {st}

variable (attr st) in
/-- A slot has been hit or not, and its flag may be set. -/
theorem play_slot (j : Bool) : ∃ hp flag : Int,
    play attr st j = { st j with HP := hp, battleEndedFlag := flag } ∧
      (hp = (st j).HP ∨ hp = (hurt attr st j).HP) := by
  have hp := play_played attr st
  generalize play attr st = s' at *
  cases hp with
  | @once x _ =>
    rcases Bool.eq_or_eq_not j (!x) with rfl | rfl
    · exact ⟨_, 1, by rw [ended, Function.update_self]; rfl, .inr rfl⟩
    · exact ⟨_, 1, by rw [ended, Function.update_of_ne (by cases x <;> decide)], .inl rfl⟩
  | twice => exact ⟨_, _, rfl, .inr rfl⟩
  | both => exact ⟨_, _, rfl, .inr rfl⟩

/-- A round changes nothing but HP and flags. -/
theorem play_keeps {α : Type} (f : Status → α)
    (hf : ∀ (x : Status) (hp flag : Int), f { x with HP := hp, battleEndedFlag := flag } = f x) (j : Bool) :
    f (play attr st j) = f (st j) := by
  obtain ⟨hp, flag, he, -⟩ := play_slot attr st j
  rw [he, hf]

variable (attr st) in
theorem play_flags : (∀ i, (play attr st i).battleEndedFlag = 1) ∨
    ∀ i, (play attr st i).battleEndedFlag = (st i).battleEndedFlag ∧ 0 < (play attr st i).HP := by
  have hp := play_played attr st
  generalize play attr st = s' at *
  cases hp with
  | once => exact .inl fun _ => rfl
  | twice => exact .inl fun _ => rfl
  | both h => exact .inr fun i => ⟨rfl, h i⟩

theorem play_ended {i : Bool} (h : (play attr st i).HP ≤ 0) (j : Bool) :
    (play attr st j).battleEndedFlag = 1 := by
  rcases play_flags attr st with hf | hf
  · exact hf j
  · have := (hf i).2
    omega

theorem play_fits (h : ∀ i, Fits (st i).HP) (i : Bool) : Fits (play attr st i).HP := by
  obtain ⟨hp, flag, he, rfl | rfl⟩ := play_slot attr st i
  · rw [he]
    exact h i
  · rw [he]
    exact Arith.fits_wrap _

/-- A round that does not end the battle hits both. -/
theorem play_hurts (h : (play attr st false).battleEndedFlag ≠ 1) : play attr st = hurt attr st := by
  have hp := play_played attr st
  generalize play attr st = s' at *
  cases hp with
  | once => exact absurd rfl h
  | twice => exact absurd rfl h
  | both => rfl

end

/-! ## Rounds -/

section

variable (attr : Attribute) (st : Bool → Status)

def rounds : Nat → Bool → Status
  | 0 => st
  | k + 1 => play attr (rounds k)

/-- Round `k + 1` is played. -/
def Live (k : Nat) : Prop := ∀ j < k, (rounds attr st (j + 1) false).battleEndedFlag ≠ 1

/-- Round `k + 1` is the last one. -/
def Over (k : Nat) : Prop :=
  Live attr st k ∧ (rounds attr st (k + 1) false).battleEndedFlag = 1

variable {attr st}

theorem live_zero : Live attr st 0 := fun _ h => absurd h (Nat.not_lt_zero _)

theorem live_succ {k : Nat} : Live attr st (k + 1) ↔
    Live attr st k ∧ (rounds attr st (k + 1) false).battleEndedFlag ≠ 1 := by
  constructor
  · intro h
    exact ⟨fun j hj => h j (by omega), h k (by omega)⟩
  · rintro ⟨h, hk⟩ j hj
    by_cases e : j = k
    · rwa [e]
    · exact h j (by omega)

theorem Live.mono {j k : Nat} (h : Live attr st k) (hj : j ≤ k) : Live attr st j :=
  fun i hi => h i (by omega)

theorem Over.not_live {j k : Nat} (h : Over attr st k) (hj : k < j) : ¬ Live attr st j :=
  fun hl => hl k hj h.2

theorem Over.le {j k : Nat} (h : Over attr st k) (hl : Live attr st j) : j ≤ k := by
  by_contra hj
  exact h.not_live (by omega) hl

theorem over_unique {j k : Nat} (h : Over attr st j) (h' : Over attr st k) : j = k := by
  rcases Nat.lt_trichotomy j k with hlt | rfl | hlt
  · exact absurd h'.1 (h.not_live hlt)
  · rfl
  · exact absurd h.1 (h'.not_live hlt)

theorem over_of_not_live {n : Nat} (h : ¬ Live attr st n) : ∃ k < n, Over attr st k := by
  induction n with
  | zero => exact absurd live_zero h
  | succ n ih =>
    by_cases hl : Live attr st n
    · refine ⟨n, Nat.lt_succ_self n, hl, ?_⟩
      by_contra hf
      exact h (live_succ.2 ⟨hl, hf⟩)
    · obtain ⟨k, hk, ho⟩ := ih hl
      exact ⟨k, by omega, ho⟩

theorem rounds_keeps {α : Type} (f : Status → α)
    (hf : ∀ (x : Status) (hp flag : Int), f { x with HP := hp, battleEndedFlag := flag } = f x)
    (k : Nat) (j : Bool) : f (rounds attr st k j) = f (st j) := by
  induction k with
  | zero => rfl
  | succ k ih => rw [rounds, play_keeps f hf, ih]

/-- The two flags stay the same. -/
theorem rounds_flags (h : ∀ i, (st i).battleEndedFlag = 0) (k : Nat) (i j : Bool) :
    (rounds attr st k i).battleEndedFlag = (rounds attr st k j).battleEndedFlag := by
  induction k generalizing i j with
  | zero => rw [rounds, h, h]
  | succ k ih =>
    rcases play_flags attr (rounds attr st k) with hf | hf
    · rw [rounds, hf, hf]
    · rw [rounds, (hf i).1, (hf j).1, ih]

theorem live_flag (h : ∀ i, (st i).battleEndedFlag = 0) {k : Nat} (hl : Live attr st (k + 1))
    (i : Bool) : (rounds attr st (k + 1) i).battleEndedFlag ≠ 1 := by
  rw [rounds_flags h (k + 1) i false]
  exact (live_succ.1 hl).2

theorem over_flag (h : ∀ i, (st i).battleEndedFlag = 0) {k : Nat} (ho : Over attr st k) (i : Bool) :
    (rounds attr st (k + 1) i).battleEndedFlag = 1 := by
  rw [rounds_flags h (k + 1) i false]
  exact ho.2

theorem rounds_play (k : Nat) : rounds attr (play attr st) k = rounds attr st (k + 1) := by
  induction k with
  | zero => rfl
  | succ k ih => rw [rounds, ih, rounds.eq_2 attr st (k + 1)]

theorem over_pred {k : Nat} (hf : (play attr st false).battleEndedFlag ≠ 1) (h : Over attr st k) :
    ∃ j, k = j + 1 ∧ Over attr (play attr st) j := by
  cases k with
  | zero => exact absurd h.2 hf
  | succ k =>
    refine ⟨k, rfl, fun j hj => ?_, ?_⟩
    · rw [rounds_play]
      exact h.1 (j + 1) (by omega)
    · rw [rounds_play]
      exact h.2

end

/-! ## The end of a battle -/

/-- The slot that has won. -/
def winSlot (st : Bool → Status) : Bool := decide ¬ 0 < (st false).HP

/-- Both are up, and one at least can hit. -/
structure Standing (st : Bool → Status) : Prop where
  pos : ∀ i, 0 < (st i).HP
  attack : ∀ i, 0 ≤ (st i).ATK
  hits : ∃ i, 0 < (st i).ATK
  flag : ∀ i, (st i).battleEndedFlag = 0
  /-- They are values of the type. -/
  fits : ∀ i, Fits (st i).HP ∧ Fits (st i).ATK

/-- One has won. -/
structure Decided (st : Bool → Status) : Prop where
  flag : ∀ i, (st i).battleEndedFlag = 1
  winner : 0 < (st (winSlot st)).HP
  loser : (st (!winSlot st)).HP ≤ 0

section

variable {attr : Attribute} {st : Bool → Status} {k : Nat}

omit [Arith] in
theorem decided_ended {st : Bool → Status} {i : Bool} (hi : (st i).HP ≤ 0)
    (hi' : 0 < (st (!i)).HP) : Decided (ended st) := by
  have hw : winSlot (ended st) = !i := by
    cases i with
    | false => simpa [winSlot, ended] using hi
    | true => simpa [winSlot, ended] using hi'
  constructor
  · exact fun _ => rfl
  · rw [hw]; exact hi'
  · rw [hw, Bool.not_not]; exact hi

variable (attr) in
theorem standing_play (h : Standing st) : Decided (play attr st) ∨ Standing (play attr st) := by
  have hp := play_played attr st
  generalize play attr st = s' at *
  cases hp with
  | @once x hx =>
    refine .inl (decided_ended (i := !x) ?_ ?_)
    · rwa [Function.update_self]
    · rw [Bool.not_not, Function.update_of_ne (by cases x <;> decide)]
      exact h.pos x
  | @twice x hy hx => exact .inl (decided_ended hx hy)
  | both hpos =>
    exact .inr ⟨hpos, h.attack, h.hits, h.flag, fun i => ⟨Arith.fits_wrap _, (h.fits i).2⟩⟩

theorem live_standing (h : Standing st) (hl : Live attr st k) : Standing (rounds attr st k) := by
  induction k with
  | zero => exact h
  | succ k ih =>
    obtain ⟨hl, hf⟩ := live_succ.1 hl
    rcases standing_play attr (ih hl) with hd | hd
    · exact absurd (hd.flag false) hf
    · exact hd

theorem over_decided (h : Standing st) (ho : Over attr st k) : Decided (rounds attr st (k + 1)) := by
  rcases standing_play attr (live_standing h ho.1) with hd | hd
  · exact hd
  · have h0 := hd.flag false
    have h1 : (play attr (rounds attr st k) false).battleEndedFlag = 1 := ho.2
    omega

omit [Arith] in
theorem Decided.one_loser (h : Decided st) : ∃! i, (st i).HP ≤ 0 := by
  refine ⟨!winSlot st, h.loser, fun i hi => ?_⟩
  rcases Bool.eq_or_eq_not i (winSlot st) with rfl | rfl
  · have := h.winner
    omega
  · rfl

/-- While the battle lasts, each round costs a player the same. -/
theorem live_HP (hl : Live attr st k) (i : Bool) :
    (rounds attr st k i).HP = (fun x => wrap (x - damage attr (st (!i))))^[k] (st i).HP := by
  induction k with
  | zero => rfl
  | succ k ih =>
    obtain ⟨hl, hf⟩ := live_succ.1 hl
    rw [Function.iterate_succ_apply', ← ih hl, rounds, play_hurts hf]
    have hd : damage attr (rounds attr st k (!i)) = damage attr (st (!i)) :=
      rounds_keeps (damage attr) (fun _ _ _ => rfl) k (!i)
    rw [hurt, Status.hitBy, hd]

/-- How many rounds a battle may last. -/
def lasts (st : Bool → Status) : Nat := Arith.bound (st false).HP + Arith.bound (st true).HP

variable (attr) in
/-- Whoever is hit falls in the end, with or without overflow. -/
theorem standing_over (h : Standing st) : ∃ k ≤ lasts st, Over attr st k := by
  obtain ⟨i, hi⟩ := h.hits
  have hne : damage attr (st i) ≠ 0 ∧ ∃ c, damage attr (st i) = wrap c ∧ 0 < c := by
    rw [damage]
    split
    · exact ⟨Arith.wrap_double (h.fits i).2 hi, _, rfl, by omega⟩
    · rw [Int.mul_one, (h.fits i).2]
      exact ⟨by omega, _, (h.fits i).2.symm, hi⟩
  obtain ⟨hne, c, hc, hc0⟩ := hne
  rw [hc] at hne
  obtain ⟨n, hn, hfall⟩ := Arith.falls (h.fits (!i)).1 (h.pos (!i)) hc0 hne
  have hb : Arith.bound (st (!i)).HP ≤ lasts st := by
    rw [lasts]
    cases i with
    | false => exact Nat.le_add_left ..
    | true => exact Nat.le_add_right ..
  have hdead : ¬ Live attr st n := by
    intro hl
    have hpos := (live_standing h hl).pos (!i)
    rw [live_HP hl (!i), Bool.not_not, hc] at hpos
    exact absurd hfall (Int.not_le.2 hpos)
  obtain ⟨k, hk, ho⟩ := over_of_not_live hdead
  exact ⟨k, by omega, ho⟩

end

/-! ## Without overflow -/

/-- The hardest blow is a value of the type. -/
def Exact (st : Bool → Status) : Prop := ∀ i, Fits ((st i).ATK * 2)

section

variable {attr : Attribute} {st : Bool → Status} {k : Nat}

theorem Exact.damage (hx : Exact st) (h : Standing st) (i : Bool) :
    0 ≤ damage attr (st i) ∧ Fits (damage attr (st i)) := by
  have ha := h.attack i
  rw [Tournament.damage]
  split
  · rw [hx i]
    exact ⟨by omega, hx i⟩
  · rw [Int.mul_one, (h.fits i).2]
    exact ⟨ha, (h.fits i).2⟩

theorem exact_rounds (hx : Exact st) (k : Nat) : Exact (rounds attr st k) := by
  intro i
  rw [rounds_keeps Status.ATK (fun _ _ _ => rfl)]
  exact hx i

theorem hurt_le (hx : Exact st) (h : Standing st) (i : Bool) : (hurt attr st i).HP ≤ (st i).HP := by
  obtain ⟨h0, hd⟩ : 0 ≤ damage attr (st (!i)) ∧ Fits (damage attr (st (!i))) := hx.damage h (!i)
  have hfit : Fits ((st i).HP - damage attr (st (!i))) :=
    (h.fits i).1.sub hd (Int.le_of_lt (h.pos i)) h0
  show wrap _ ≤ _
  rw [hfit]
  omega

/-- A round gives nobody HP. -/
theorem play_le (hx : Exact st) (h : Standing st) (i : Bool) : (play attr st i).HP ≤ (st i).HP := by
  obtain ⟨hp, flag, he, rfl | rfl⟩ := play_slot attr st i
  · rw [he]
  · rw [he]
    exact hurt_le hx h i

theorem live_le (hx : Exact st) (h : Standing st) (hl : Live attr st k) (i : Bool) :
    (rounds attr st (k + 1) i).HP ≤ (rounds attr st k i).HP :=
  play_le (exact_rounds hx k) (live_standing h hl) i

theorem live_le_all (hx : Exact st) (h : Standing st) (hl : Live attr st k) (i : Bool) :
    (rounds attr st (k + 1) i).HP ≤ (st i).HP := by
  induction k with
  | zero => exact live_le hx h hl i
  | succ k ih => exact Int.le_trans (live_le hx h hl i) (ih (hl.mono (Nat.le_succ k)))

end

end SysProg.Tournament
