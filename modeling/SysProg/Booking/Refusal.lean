import Mathlib.Algebra.BigOperators.Fin
import SysProg.Booking.Isolation

/-!
# SysProg.Booking.Refusal

The reason that a refused booking command is given. `handle_read` compares the running total with 15
after every item, so a later item that brings the total down again comes too late.

* `answer_command`: a command is answered with `verdict`, which depends on the record and the
  numbers only, and a refused client is told the reason of that return value.
* `reason_iff`: the reason is the true one in the given order of the items exactly if no total of
  the first items is above 15 alone.
* `refusal_iff`: it is the true one and the same in every order exactly if that holds of every item
  and every two of them.
-/

namespace SysProg.Booking

def newTotal (b nums : Fin 3 → CInt) : Int :=
  newCount b nums 0 + newCount b nums 1 + newCount b nums 2

/-- The return value of a refused command says why it is refused. -/
def TrueReason (b nums : Fin 3 → CInt) (val : Int) : Prop :=
  val ≠ 1 → (val = 2 ↔ 15 < newTotal b nums) ∧
    (val = 3 ↔ newTotal b nums ≤ 15 ∧ ∃ i, newCount b nums i < 0)

/-- The three items, of the record and of the command, in another order. -/
def SameAnswer (b nums : Fin 3 → CInt) : Prop :=
  ∀ σ : Equiv.Perm (Fin 3), verdict (b ∘ σ) (nums ∘ σ) = verdict b nums

section

variable {P : Type} [DecidableEq P] [Fintype P]

/-- The return value of `handle_read` and what `main` then sends. -/
def answer (p : P) (r : ReadResult) (reqP : Request) (sl : SelfLock) (s : Kernel P) :
    Option (Int × Sent) :=
  match ((handleRead .writer r reqP sl).exec p s).1 with
  | .ret val reqP' _ => some (val, (afterRead .writer val reqP').2)
  | .exit => none

theorem afterRead_refused {val : Int} {reqP : Request} {text : Text} (hw : reqP.waitForWrite = false)
    (h1 : val ≠ 1) (h0 : 0 ≤ val) (ht : errorReply val = some text) :
    (afterRead .writer val reqP).2 = send reqP.connFd text := by
  simp only [afterRead, if_neg h1, if_neg (by omega : ¬ val < 0), ht, reply, freeRequest, initRequest,
    hw, Bool.false_eq_true, if_false, send, if_true, List.append_nil]

theorem answer_command {p : P} {r : ReadResult} {reqP : Request} {sl : SelfLock} {s : Kernel P}
    {nums : Fin 3 → CInt} (hc : commandOf .writer reqP r = some nums) :
    ∃ sent, answer p r reqP sl s =
        some (verdict (s.file (reqP.id - HEAD)).bookingState nums, sent) ∧
      (verdict (s.file (reqP.id - HEAD)).bookingState nums = 2 → sent = send reqP.connFd exceedMsg) ∧
      (verdict (s.file (reqP.id - HEAD)).bookingState nums = 3 → sent = send reqP.connFd negativeMsg) := by
  have hw : reqP.waitForWrite = false := by
    simpa [InSession] using (commandOf_some hc).2.1
  obtain ⟨buf, hbuf, hread⟩ := handleRead_command hc sl
  simp only [answer, hread, handleWriterCommand, hbuf, Sys.exec, verdict]
  by_cases ho : overLimit (s.file (reqP.id - HEAD)).bookingState nums = true
  · simp only [ho, if_true, exec_mylockFunction_unlck, Sys.exec]
    refine ⟨_, rfl, fun _ => ?_, by simp⟩
    exact afterRead_refused hw (by decide) (by decide) rfl
  · by_cases hu : underZero (s.file (reqP.id - HEAD)).bookingState nums = true
    · simp only [ho, hu, if_true, Bool.false_eq_true, if_false, exec_mylockFunction_unlck, Sys.exec]
      refine ⟨_, rfl, by simp, fun _ => ?_⟩
      exact afterRead_refused hw (by decide) (by decide) rfl
    · simp only [ho, hu, Bool.false_eq_true, if_false, exec_mylockFunction_unlck, Sys.exec]
      exact ⟨_, rfl, by simp, by simp⟩

end

/-! ## Which commands are refused -/

section

variable {b nums : Fin 3 → CInt}

theorem underZero_of_small (h : GoodCounts b) (hn : ∀ i, (nums i).toInt.natAbs ≤ 2 ^ 29) :
    underZero b nums = true ↔ ∃ i, newCount b nums i < 0 := by
  rw [← Bool.not_eq_false, under_eq_false]
  simp only [not_forall, not_le]
  exact exists_congr fun i => by rw [(toInt_new_of_small h hn i).1]

/-- The three totals that the loop compares with 15. -/
theorem overLimit_of_small (h : GoodCounts b) (hn : ∀ i, (nums i).toInt.natAbs ≤ 2 ^ 29) :
    overLimit b nums = true ↔ 15 < newCount b nums 0 ∨ 15 < newCount b nums 0 + newCount b nums 1 ∨
      15 < newTotal b nums := by
  obtain ⟨e0, l0, u0⟩ := toInt_new_of_small h hn 0
  obtain ⟨e1, l1, u1⟩ := toInt_new_of_small h hn 1
  obtain ⟨e2, l2, u2⟩ := toInt_new_of_small h hn 2
  have a1 := CInt.toInt_add_cases (b 0 + nums 0) (b 1 + nums 1)
  have a2 := CInt.toInt_add_cases (b 0 + nums 0 + (b 1 + nums 1)) (b 2 + nums 2)
  rw [← Bool.not_eq_false, over_eq_false, newTotal]
  omega

theorem reason_iff (h : GoodCounts b) (hn : ∀ i, (nums i).toInt.natAbs ≤ 2 ^ 29) :
    TrueReason b nums (verdict b nums) ↔ 15 < newTotal b nums ∨
      (newCount b nums 0 ≤ 15 ∧ newCount b nums 0 + newCount b nums 1 ≤ 15) := by
  have ho := overLimit_of_small h hn
  have hu := underZero_of_small h hn
  unfold TrueReason verdict
  by_cases h1 : overLimit b nums = true
  · have := ho.1 h1
    simp only [h1, if_true]
    constructor
    · intro hr
      have := (hr (by decide)).1.1 trivial
      exact .inl this
    · intro hr _
      have : 15 < newTotal b nums := by omega
      exact ⟨by simp [this], by simp [this]⟩
  · have hno := mt ho.2 h1
    have hle : newTotal b nums ≤ 15 := by omega
    have hright : 15 < newTotal b nums ∨
        (newCount b nums 0 ≤ 15 ∧ newCount b nums 0 + newCount b nums 1 ≤ 15) := by omega
    simp only [hright, iff_true, h1, Bool.false_eq_true, if_false]
    by_cases h2 : underZero b nums = true
    · intro _
      simp [h2, hle, hu.1 h2]
    · simp [h2]

theorem newCount_comp (σ : Equiv.Perm (Fin 3)) (i : Fin 3) :
    newCount (b ∘ σ) (nums ∘ σ) i = newCount b nums (σ i) := rfl

theorem newTotal_comp (σ : Equiv.Perm (Fin 3)) : newTotal (b ∘ σ) (nums ∘ σ) = newTotal b nums := by
  have h := Equiv.sum_comp σ (newCount b nums)
  simp only [Fin.sum_univ_three] at h
  exact h

theorem GoodCounts.comp (h : GoodCounts b) (σ : Equiv.Perm (Fin 3)) : GoodCounts (b ∘ σ) := by
  refine ⟨fun i => h.1 (σ i), ?_⟩
  have hs := Equiv.sum_comp σ fun i => (b i).toInt
  simp only [Fin.sum_univ_three] at hs
  have := h.2
  simp only [Function.comp]
  omega

/-- No new count and no two of them together are above 15. -/
def PairsWithin (b nums : Fin 3 → CInt) : Prop :=
  (∀ i, newCount b nums i ≤ 15) ∧ ∀ i j, i ≠ j → newCount b nums i + newCount b nums j ≤ 15

theorem PairsWithin.comp (h : PairsWithin b nums) (σ : Equiv.Perm (Fin 3)) :
    PairsWithin (b ∘ σ) (nums ∘ σ) :=
  ⟨fun i => h.1 (σ i), fun i j hij => h.2 (σ i) (σ j) (σ.injective.ne hij)⟩

theorem small_comp (hn : ∀ i, (nums i).toInt.natAbs ≤ 2 ^ 29) (σ : Equiv.Perm (Fin 3)) (i : Fin 3) :
    ((nums ∘ σ) i).toInt.natAbs ≤ 2 ^ 29 := hn (σ i)

theorem verdict_over (h : GoodCounts b) (hn : ∀ i, (nums i).toInt.natAbs ≤ 2 ^ 29)
    (ht : 15 < newTotal b nums) : verdict b nums = 2 := by
  have := (overLimit_of_small h hn).2 (.inr (.inr ht))
  simp [verdict, this]

/-- With no prefix of the items above 15 the loop over the totals decides nothing but the total. -/
theorem verdict_within (h : GoodCounts b) (hn : ∀ i, (nums i).toInt.natAbs ≤ 2 ^ 29)
    (ht : newTotal b nums ≤ 15) (hp : PairsWithin b nums) :
    verdict b nums = if ∃ i, newCount b nums i < 0 then 3 else 1 := by
  have ho : ¬ overLimit b nums = true := by
    have h0 := hp.1 0
    have h01 := hp.2 0 1 (by decide)
    rw [overLimit_of_small h hn]
    omega
  simp only [verdict, ho, if_false, Bool.false_eq_true, underZero_of_small h hn]

theorem sameAnswer_of_over (h : GoodCounts b) (hn : ∀ i, (nums i).toInt.natAbs ≤ 2 ^ 29)
    (ht : 15 < newTotal b nums) : SameAnswer b nums := by
  intro σ
  rw [verdict_over h hn ht, verdict_over (h.comp σ) (small_comp hn σ)]
  rw [newTotal_comp]
  exact ht

theorem sameAnswer_of_within (h : GoodCounts b) (hn : ∀ i, (nums i).toInt.natAbs ≤ 2 ^ 29)
    (ht : newTotal b nums ≤ 15) (hp : PairsWithin b nums) : SameAnswer b nums := by
  intro σ
  have hneg : (∃ i, newCount b nums (σ i) < 0) ↔ ∃ i, newCount b nums i < 0 :=
    σ.exists_congr_left.trans (by simp)
  rw [verdict_within h hn ht hp,
    verdict_within (h.comp σ) (small_comp hn σ) (by rwa [newTotal_comp]) (hp.comp σ)]
  simp only [newCount_comp, hneg]

/-- The order that puts items `i` and `j` first. -/
def firstTwo (i j : Fin 3) : Equiv.Perm (Fin 3) :=
  (Equiv.swap 1 (Equiv.swap 0 i j)).trans (Equiv.swap 0 i)

theorem firstTwo_apply : ∀ i j : Fin 3, i ≠ j → firstTwo i j 0 = i ∧ firstTwo i j 1 = j := by
  decide

/-- In some order, a command that brings one item or two above 15 is refused for the total. -/
theorem exists_over (h : GoodCounts b) (hn : ∀ i, (nums i).toInt.natAbs ≤ 2 ^ 29)
    (hp : ¬ PairsWithin b nums) : ∃ σ : Equiv.Perm (Fin 3), verdict (b ∘ σ) (nums ∘ σ) = 2 := by
  have hover : ∀ σ : Equiv.Perm (Fin 3), 15 < newCount b nums (σ 0) ∨
      15 < newCount b nums (σ 0) + newCount b nums (σ 1) → verdict (b ∘ σ) (nums ∘ σ) = 2 := by
    intro σ hc
    have : overLimit (b ∘ σ) (nums ∘ σ) = true := by
      rw [overLimit_of_small (h.comp σ) (small_comp hn σ)]
      rcases hc with hc | hc
      · exact .inl hc
      · exact .inr (.inl hc)
    simp [verdict, this]
  rw [PairsWithin, not_and_or] at hp
  rcases hp with hp | hp
  · obtain ⟨i, hi⟩ := not_forall.1 hp
    refine ⟨Equiv.swap 0 i, hover _ (.inl ?_)⟩
    rw [Equiv.swap_apply_left]
    omega
  · simp only [not_forall] at hp
    obtain ⟨i, j, hij, hp⟩ := hp
    obtain ⟨h0, h1⟩ := firstTwo_apply i j hij
    refine ⟨firstTwo i j, hover _ (.inr ?_)⟩
    rw [h0, h1]
    omega

variable {P : Type} [DecidableEq P] [Fintype P]

/-- Every call of `handle_read` that gets this command for this record answers with `val`. -/
def AlwaysAnswers (P : Type) [DecidableEq P] [Fintype P] (b nums : Fin 3 → CInt) (val : Int) : Prop :=
  ∀ (p : P) (r : ReadResult) (reqP : Request) (sl : SelfLock) (s : Kernel P),
    commandOf .writer reqP r = some nums → (s.file (reqP.id - HEAD)).bookingState = b →
    ∃ sent, answer p r reqP sl s = some (val, sent) ∧
      (val = 2 → sent = send reqP.connFd exceedMsg) ∧ (val = 3 → sent = send reqP.connFd negativeMsg)

theorem alwaysAnswers_verdict (b nums : Fin 3 → CInt) :
    AlwaysAnswers P b nums (verdict b nums) := by
  rintro p r reqP sl s hc rfl
  exact answer_command hc

/-- For which commands the reason is the true one, whatever the order of the items. -/
theorem refusal_iff (h : GoodCounts b) (hn : ∀ i, (nums i).toInt.natAbs ≤ 2 ^ 29) :
    AlwaysAnswers P b nums (verdict b nums) ∧
      (TrueReason b nums (verdict b nums) ∧ SameAnswer b nums ↔
        15 < newTotal b nums ∨ PairsWithin b nums) := by
  refine ⟨alwaysAnswers_verdict b nums, ?_, ?_⟩
  · rintro ⟨hr, hs⟩
    by_contra hno
    obtain ⟨ht, hp⟩ := not_or.1 hno
    obtain ⟨σ, hσ⟩ := exists_over h hn hp
    have h2 : verdict b nums = 2 := (hs σ).symm.trans hσ
    rw [h2] at hr
    exact ht ((hr (by decide)).1.1 rfl)
  · intro hc
    by_cases ht : 15 < newTotal b nums
    · exact ⟨(reason_iff h hn).2 (.inl ht), sameAnswer_of_over h hn ht⟩
    · have hp := hc.resolve_left ht
      refine ⟨(reason_iff h hn).2 (.inr ⟨hp.1 0, hp.2 0 1 (by decide)⟩), ?_⟩
      exact sameAnswer_of_within h hn (by omega) hp

end

theorem refusal_iff_exceed :
    TrueReason ![1, 2, 3] ![20, -1, 0] (verdict ![1, 2, 3] ![20, -1, 0]) ∧
      SameAnswer ![1, 2, 3] ![20, -1, 0] :=
  (refusal_iff (P := Fin 1) (by decide) (by decide)).2.2 (.inl (by decide))

/-- An open write session on the fourth record of an empty file. -/
def orderAnswer (line : String) : Option (Int × Sent) :=
  answer (0 : Fin 1) (.data line.toList) shownRequest (fun k => if k = 3 then 1 else 0)
    { file := fun _ => ⟨HEAD, fun _ => 0⟩, locks := fun _ _ => .wrlck }

/-- `16 -5 0` would leave 11 items, one count of them negative. -/
theorem refusal_prefix :
    orderAnswer "16 -5 0\r\n" = some (2, [(5, exceedMsg)]) ∧
      orderAnswer "-5 16 0\r\n" = some (3, [(5, negativeMsg)]) ∧
      ¬ ∀ b nums : Fin 3 → CInt, GoodCounts b → (∀ i, (nums i).toInt.natAbs ≤ 2 ^ 29) →
        TrueReason b nums (verdict b nums) ∧ SameAnswer b nums := by
  refine ⟨by decide, by decide, fun hall => ?_⟩
  have hr := (hall (fun _ => 0) ![16, -5, 0] (by decide) (by decide)).1
  have h2 : verdict (fun _ => 0) ![16, -5, 0] = 2 := by decide
  rw [h2] at hr
  exact absurd ((hr (by decide)).1.1 rfl) (by decide)

end SysProg.Booking
