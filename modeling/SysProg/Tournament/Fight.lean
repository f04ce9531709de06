import SysProg.Tournament.Bout

/-!
# SysProg.Tournament.Fight

A whole fight of a battle with two players, from any two statuses of which one at least can hit.

* `Duel`, `duelStep`: the battle's program and those of the two players, in step.
* `duel_rounds`, `duel_over`: the loop of the battle plays `rounds`, since a player sends back what
  it gets as long as the fight lasts.
* `fight_ends`: every fight ends with one loser, and `win` is the other slot.
* `fight_swap`: it does not matter which player is in which slot.

The arithmetic may be that of the integers or that of `int`.
-/

namespace SysProg.Tournament

open Arith (Fits)

/-! ## The battle and its players -/

/-- The battle and the two players, each of which is read from or written to when it is its turn. -/
structure Duel where
  loc : BattleLoc
  player : Bool → PlayerLoc

/-- The slot whose pipe the channel is. -/
def slotOf (b : Battle) (pipe : Proc → Chan) (c : Chan) : Option Bool :=
  if c = pipe (child b false) then some false else if c = pipe (child b true) then some true else none

section

variable {b : Battle} {i : Bool}

theorem slotOf_stdin : slotOf b .stdin (.stdin (child b i)) = some i := by
  have hne : child b true ≠ child b false := child_not_ne b false
  cases i <;> simp [slotOf, hne]

theorem slotOf_stdout : slotOf b .stdout (.stdout (child b i)) = some i := by
  have hne : child b true ≠ child b false := child_not_ne b false
  cases i <;> simp [slotOf, hne]

end

section

variable [Arith]

/-- A read or write of the battle, with the write or read of the player at the other end. -/
def duelStep (file : List Line) (b : Battle) (seat : Bool → PlayerId) (d : Duel) : Option Duel :=
  match battleMain b d.loc with
  | .send c v l =>
    (slotOf b .stdin c).bind fun i =>
      match playerMain file (seat i) (d.player i) with
      | .recv _ k => some ⟨l, Function.update d.player i (k v)⟩
      | _ => none
  | .recv c f =>
    (slotOf b .stdout c).bind fun i =>
      match playerMain file (seat i) (d.player i) with
      | .send _ v l => some ⟨f v, Function.update d.player i l⟩
      | _ => none
  | _ => none

def duelRun (file : List Line) (b : Battle) (seat : Bool → PlayerId) : Nat → Duel → Option Duel
  | 0, d => some d
  | n + 1, d => (duelStep file b seat d).bind (duelRun file b seat n)

/-- Both players are about to announce themselves. -/
def meet (st : Bool → Status) : Duel where
  loc := ⟨.read false, fun _ => Status.zero, false⟩
  player i := ⟨.enter, st i, 0⟩

/-- The statuses as the battle stores them. -/
def entered (b : Battle) (st : Bool → Status) : Bool → Status :=
  fun i => { st i with currentBattleId := b.letter }

variable {file : List Line} {b : Battle} {seat : Bool → PlayerId} {st : Bool → Status} {d d' : Duel}
  {i : Bool}

theorem duelRun_add (m n : Nat) : duelRun file b seat (m + n) d =
    (duelRun file b seat m d).bind (duelRun file b seat n) := by
  induction m generalizing d with
  | zero => rw [Nat.zero_add]; rfl
  | succ m ih =>
    rw [Nat.succ_add, duelRun, duelRun, Option.bind_assoc]
    exact Option.bind_congr fun d' _ => ih

theorem duelStep_write {v : Status} {l : BattleLoc} {m : Status} {o : Int}
    (hb : battleMain b d.loc = .send (.stdin (child b i)) v l) (hp : d.player i = ⟨.read, m, o⟩) :
    duelStep file b seat d =
      some ⟨l, Function.update d.player i (PlayerLoc.received ⟨.read, v, o⟩ (seat i))⟩ := by
  rw [duelStep, hb]
  simp only [slotOf_stdin, Option.bind_some, hp, playerMain]

theorem duelStep_read {f : Status → BattleLoc} {m : Status} {o : Int}
    (hb : battleMain b d.loc = .recv (.stdout (child b i)) f) (hp : d.player i = ⟨.write, m, o⟩) :
    duelStep file b seat d = some ⟨f m, Function.update d.player i ⟨.read, m, o⟩⟩ := by
  rw [duelStep, hb]
  simp only [slotOf_stdout, Option.bind_some, hp, playerMain]

theorem duelStep_enter {f : Status → BattleLoc} {m : Status} {o : Int}
    (hb : battleMain b d.loc = .recv (.stdout (child b i)) f) (hp : d.player i = ⟨.enter, m, o⟩) :
    duelStep file b seat d = some ⟨f m, Function.update d.player i ⟨.read, m, m.HP⟩⟩ := by
  rw [duelStep, hb]
  simp only [slotOf_stdout, Option.bind_some, hp, playerMain]

/-- A player sends a status of a fight that goes on back as it is. -/
theorem received_echo {m : Status} {o : Int} {k : PlayerId} (h : m.battleEndedFlag ≠ 1) :
    PlayerLoc.received ⟨.read, m, o⟩ k = ⟨.write, m, o⟩ := if_neg h

theorem duelRun_two : duelRun file b seat 2 d =
    (duelStep file b seat d).bind (duelStep file b seat) := by
  simp only [duelRun, Option.bind_fun_some]

theorem duel_meet : duelRun file b seat 2 (meet st) =
    some ⟨⟨.write false, play (attrTable b) (entered b st), false⟩,
      fun i => ⟨.read, st i, (st i).HP⟩⟩ := by
  rw [duelRun_two, duelStep_enter (i := false) rfl rfl, Option.bind_some,
    duelStep_enter (i := true) (m := st true) (o := 0) rfl rfl]
  exact congrArg₂ (fun s p => some (⟨⟨.write false, play (attrTable b) s, false⟩, p⟩ : Duel))
    (update_both (g := entered b st))
    (update_both (g := fun i => (⟨.read, st i, (st i).HP⟩ : PlayerLoc)))

variable {s m : Bool → Status} {w : Bool} {o : Bool → Int}

/-- The two writes of a round. -/
theorem duel_writes : duelRun file b seat 2 ⟨⟨.write false, s, w⟩, fun i => ⟨.read, m i, o i⟩⟩ =
    some ⟨BattleLoc.judge ⟨.write true, s, w⟩,
      fun i => PlayerLoc.received ⟨.read, s i, o i⟩ (seat i)⟩ := by
  rw [duelRun_two, duelStep_write (i := false) rfl rfl, Option.bind_some,
    duelStep_write (i := true) (m := m true) (o := o true) rfl rfl]
  exact congrArg (fun p => some (⟨BattleLoc.judge ⟨.write true, s, w⟩, p⟩ : Duel))
    (update_both (g := fun i => PlayerLoc.received ⟨.read, s i, o i⟩ (seat i)))

theorem duel_rereads : duelRun file b seat 2 ⟨⟨.reread false, s, w⟩, fun i => ⟨.write, m i, o i⟩⟩ =
    some ⟨⟨.write false, play (attrTable b) m, w⟩, fun i => ⟨.read, m i, o i⟩⟩ := by
  rw [duelRun_two, duelStep_read (i := false) rfl rfl, Option.bind_some,
    duelStep_read (i := true) (m := m true) (o := o true) rfl rfl]
  exact congrArg₂ (fun s p => some (⟨⟨.write false, play (attrTable b) s, w⟩, p⟩ : Duel))
    (update_both (g := m)) (update_both (g := fun i => (⟨.read, m i, o i⟩ : PlayerLoc)))

theorem duel_round (h : ∀ i, (s i).battleEndedFlag ≠ 1) :
    duelRun file b seat 4 ⟨⟨.write false, s, w⟩, fun i => ⟨.read, m i, o i⟩⟩ =
      some ⟨⟨.write false, play (attrTable b) s, w⟩, fun i => ⟨.read, s i, o i⟩⟩ := by
  rw [duelRun_add 2 2, duel_writes, Option.bind_some, BattleLoc.judge, if_neg (h false)]
  simp only [received_echo (h _)]
  exact duel_rereads

variable (file b seat w m o) in
theorem duel_last (h : (s false).battleEndedFlag = 1) :
    ∃ p, duelRun file b seat 2 ⟨⟨.write false, s, w⟩, fun i => ⟨.read, m i, o i⟩⟩ =
      some ⟨⟨.wait, s, winSlot s⟩, p⟩ := by
  refine ⟨fun i => PlayerLoc.received ⟨.read, s i, o i⟩ (seat i), ?_⟩
  rw [duel_writes, BattleLoc.judge, if_pos h]
  rfl

variable (file seat) in
/-- Round by round. -/
theorem duel_rounds (h : ∀ i, (st i).battleEndedFlag = 0) {k : Nat}
    (hl : Live (attrTable b) (entered b st) k) :
    ∃ m : Bool → Status, duelRun file b seat (4 * k + 2) (meet st) =
      some ⟨⟨.write false, rounds (attrTable b) (entered b st) (k + 1), false⟩,
        fun i => ⟨.read, m i, (st i).HP⟩⟩ := by
  have h' : ∀ i, (entered b st i).battleEndedFlag = 0 := h
  induction k with
  | zero => exact ⟨st, duel_meet⟩
  | succ k ih =>
    obtain ⟨m, hm⟩ := ih (live_succ.1 hl).1
    refine ⟨rounds (attrTable b) (entered b st) (k + 1), ?_⟩
    rw [show 4 * (k + 1) + 2 = 4 * k + 2 + 4 by omega, duelRun_add, hm, Option.bind_some]
    exact duel_round fun i => live_flag h' hl i

variable (file seat) in
theorem duel_over (h : ∀ i, (st i).battleEndedFlag = 0) {k : Nat}
    (ho : Over (attrTable b) (entered b st) k) :
    ∃ p, duelRun file b seat (4 * k + 4) (meet st) =
      some ⟨⟨.wait, rounds (attrTable b) (entered b st) (k + 1),
        winSlot (rounds (attrTable b) (entered b st) (k + 1))⟩, p⟩ := by
  obtain ⟨m, hm⟩ := duel_rounds file seat h ho.1
  obtain ⟨p, hp⟩ := duel_last file b seat m false (fun i => (st i).HP) ho.2
  refine ⟨p, ?_⟩
  rw [show 4 * k + 4 = 4 * k + 2 + 2 by omega, duelRun_add, hm, Option.bind_some, hp]

theorem Standing.entered (h : Standing st) : Standing (entered b st) :=
  ⟨h.pos, h.attack, h.hits, h.flag, h.fits⟩

/-- The fight lasts `k + 1` rounds. -/
theorem fight_ends (file : List Line) (b : Battle) (seat : Bool → PlayerId) (h : Standing st) :
    ∃ k, (∀ j, 0 < j → j ≤ k → ∀ i, 0 < (rounds (attrTable b) (entered b st) j i).HP ∧
        (rounds (attrTable b) (entered b st) j i).battleEndedFlag = 0) ∧
      (∀ i, (rounds (attrTable b) (entered b st) (k + 1) i).battleEndedFlag = 1) ∧
      (∃! i, (rounds (attrTable b) (entered b st) (k + 1) i).HP ≤ 0) ∧
      (∀ j ≤ k, ∃ d, duelRun file b seat (4 * j + 2) (meet st) = some d ∧ d.loc.pc = .write false ∧
        d.loc.status = rounds (attrTable b) (entered b st) (j + 1)) ∧
      ∃ d, duelRun file b seat (4 * k + 4) (meet st) = some d ∧ d.loc.pc = .wait ∧
        d.loc.status = rounds (attrTable b) (entered b st) (k + 1) ∧
        0 < (d.loc.status d.loc.win).HP := by
  have hs : Standing (entered b st) := h.entered
  obtain ⟨k, -, ho⟩ := standing_over (attrTable b) hs
  have hd := over_decided hs ho
  obtain ⟨p, hp⟩ := duel_over file seat h.flag ho
  refine ⟨k, fun j _ hj i => ?_, hd.flag, hd.one_loser, fun j hj => ?_, _, hp, rfl, rfl, hd.winner⟩
  · have := live_standing hs (ho.1.mono hj)
    exact ⟨this.pos i, this.flag i⟩
  · obtain ⟨m, hm⟩ := duel_rounds file seat h.flag (ho.1.mono hj)
    exact ⟨_, hm, rfl, rfl⟩

end

/-- The first player cannot hit. -/
def duellists (atk : Int) (i : Bool) : Status :=
  if i then ⟨1, 5, atk, .FIRE, 'G', 0⟩ else ⟨0, 10, 0, .WATER, 'G', 0⟩

theorem standing_duellists [Arith] {atk : Int} (h : 0 < atk)
    (hf : Fits 5 ∧ Fits 10 ∧ Fits atk) : Standing (duellists atk) := by
  refine ⟨forall_bool false ?_ ?_, forall_bool false ?_ ?_, ⟨true, h⟩, forall_bool false rfl rfl,
    forall_bool false ⟨hf.2.1, Arith.fits_zero⟩ ⟨hf.1, hf.2.2⟩⟩
  · exact (by decide : (0 : Int) < 10)
  · exact (by decide : (0 : Int) < 5)
  · exact Int.le_refl 0
  · exact Int.le_of_lt h

theorem fight_ends_duellists : ∃ k d, @duelRun .integers [] .A (fun i => if i then 1 else 0) (4 * k + 4)
    (meet (duellists 3)) = some d ∧ d.loc.pc = .wait ∧ 0 < (d.loc.status d.loc.win).HP := by
  obtain ⟨k, -, -, -, -, d, hd, hpc, -, hw⟩ := @fight_ends .integers (duellists 3) [] .A
    (fun i => if i then 1 else 0) (@standing_duellists .integers 3 (by decide) ⟨rfl, rfl, rfl⟩)
  exact ⟨k, d, hd, hpc, hw⟩

/-- A blow of 3000000000 gives HP before the sum overflows as well. -/
example : (@duelRun .int [] .A (fun i => if i then 1 else 0) 8 (meet (duellists 1500000000))).map
    (fun d => ((d.loc.status false).HP, (d.loc.status true).HP, d.loc.win)) =
      some (-1705032694, 5, true) := by
  decide +kernel

/-! ## The other way round -/

section

variable {st : Bool → Status}

theorem first_swap (h : (st false).realPlayerId ≠ (st true).realPlayerId) :
    first (st ∘ not) = !first st := by
  simp only [first, Function.comp, Bool.not_false, Bool.not_true, Bool.not_not]
  by_cases h1 : (st false).HP < (st true).HP ∨
      ((st false).HP = (st true).HP ∧ (st false).realPlayerId < (st true).realPlayerId)
  · have h2 : ¬ ((st true).HP < (st false).HP ∨
        ((st true).HP = (st false).HP ∧ (st true).realPlayerId < (st false).realPlayerId)) := by omega
    simp only [h1, h2, decide_true, decide_false, Bool.not_false]
  · have h2 : (st true).HP < (st false).HP ∨
        ((st true).HP = (st false).HP ∧ (st true).realPlayerId < (st false).realPlayerId) := by omega
    simp only [h1, h2, decide_true, decide_false, Bool.not_true]

theorem ended_swap : ended (st ∘ not) = ended st ∘ not := rfl

theorem Decided.winSlot_swap (h : Decided st) : winSlot (st ∘ not) = !winSlot st := by
  have hw := h.winner
  have hl := h.loser
  generalize hx : winSlot st = x at *
  cases x with
  | false => exact (decide_eq_true (by simpa using hl) : winSlot (st ∘ not) = true)
  | true => exact (decide_eq_false (by simpa using hw) : winSlot (st ∘ not) = false)

end

section

variable [Arith] {attr : Attribute} {st : Bool → Status} {i : Bool} {y : Status} {k : Nat}

theorem blow_swap : blow attr (st ∘ not) (!i) y = blow attr st i y ∘ not := by
  funext j
  rcases Bool.eq_or_eq_not j i with rfl | rfl
  · have h := blow_not attr (st ∘ not) (!j) y
    rw [Bool.not_not] at h
    rw [h, Function.comp, Function.comp, blow_not]
  · rw [blow_self, Function.comp, Function.comp, Bool.not_not, blow_self]

theorem play_swap (h : (st false).realPlayerId ≠ (st true).realPlayerId) :
    play attr (st ∘ not) = play attr st ∘ not := by
  rw [play_eq, play_eq, first_swap h]
  generalize first st = x
  have h1 : blow attr (st ∘ not) (!!x) ((st ∘ not) (!x)) = blow attr st (!x) (st x) ∘ not := by
    rw [blow_swap, Function.comp, Bool.not_not]
  rw [h1]
  generalize blow attr st (!x) (st x) = s
  have h2 : blow attr (s ∘ not) (!x) ((s ∘ not) (!!x)) = blow attr s x (s (!x)) ∘ not := by
    rw [blow_swap, Function.comp, Bool.not_not]
  dsimp only
  rw [h2]
  generalize blow attr s x (s (!x)) = s'
  simp only [ended_swap, Function.comp, Bool.not_not]
  split
  · rfl
  · split <;> rfl

theorem rounds_id (k : Nat) (i : Bool) : (rounds attr st k i).realPlayerId = (st i).realPlayerId :=
  rounds_keeps Status.realPlayerId (fun _ _ _ => rfl) k i

theorem rounds_swap (h : (st false).realPlayerId ≠ (st true).realPlayerId) (k : Nat) :
    rounds attr (st ∘ not) k = rounds attr st k ∘ not := by
  induction k with
  | zero => rfl
  | succ k ih =>
    rw [rounds, rounds, ih]
    exact play_swap (by rwa [rounds_id, rounds_id])

theorem Over.swap (h : (st false).realPlayerId ≠ (st true).realPlayerId)
    (hf : ∀ i, (st i).battleEndedFlag = 0) (ho : Over attr st k) : Over attr (st ∘ not) k := by
  have hflag : ∀ j, (rounds attr (st ∘ not) j false).battleEndedFlag =
      (rounds attr st j false).battleEndedFlag := by
    intro j
    rw [rounds_swap h]
    exact rounds_flags hf j true false
  refine ⟨fun j hj => ?_, ?_⟩
  · rw [hflag]
    exact ho.1 j hj
  · rw [hflag]
    exact ho.2

end

section

variable [Arith] {st : Bool → Status}

omit [Arith] in
theorem entered_swap {b : Battle} : entered b (st ∘ not) = entered b st ∘ not := rfl

/-- The same fight with the two players in each other's slots. -/
theorem fight_swap (file : List Line) (b : Battle) (seat : Bool → PlayerId) (h : Standing st)
    (hid : (st false).realPlayerId ≠ (st true).realPlayerId) :
    ∃ k d d', Over (attrTable b) (entered b st) k ∧ Over (attrTable b) (entered b (st ∘ not)) k ∧
      duelRun file b seat (4 * k + 4) (meet st) = some d ∧ d.loc.pc = .wait ∧
      duelRun file b (seat ∘ not) (4 * k + 4) (meet (st ∘ not)) = some d' ∧ d'.loc.pc = .wait ∧
      (∀ i, (d.loc.status i).realPlayerId = (st i).realPlayerId ∧
        d'.loc.status (!i) = d.loc.status i) ∧
      d'.loc.status d'.loc.win = d.loc.status d.loc.win := by
  have hs : Standing (entered b st) := h.entered
  have hid : (entered b st false).realPlayerId ≠ (entered b st true).realPlayerId := hid
  have hf : ∀ i, ((st ∘ not) i).battleEndedFlag = 0 := fun i => h.flag (!i)
  obtain ⟨k, -, ho⟩ := standing_over (attrTable b) hs
  have ho' : Over (attrTable b) (entered b st ∘ not) k := ho.swap hid hs.flag
  rw [← entered_swap] at ho'
  have hd := over_decided hs ho
  have hr : rounds (attrTable b) (entered b (st ∘ not)) (k + 1) =
      rounds (attrTable b) (entered b st) (k + 1) ∘ not := by
    rw [entered_swap]
    exact rounds_swap hid (k + 1)
  have hids : ∀ i, (rounds (attrTable b) (entered b st) (k + 1) i).realPlayerId =
      (entered b st i).realPlayerId := rounds_id (k + 1)
  obtain ⟨p, hp⟩ := duel_over file seat h.flag ho
  obtain ⟨p', hp'⟩ := duel_over file (seat ∘ not) hf ho'
  rw [hr] at hp'
  generalize rounds (attrTable b) (entered b st) (k + 1) = R at *
  rw [hd.winSlot_swap] at hp'
  have hnot : ∀ i, (R ∘ not) (!i) = R i := fun i => congrArg R (Bool.not_not i)
  exact ⟨k, _, _, ho, ho', hp, rfl, hp', rfl, fun i => ⟨hids i, hnot i⟩, hnot (winSlot R)⟩

end

theorem fight_swap_duellists : ∃ k d d',
    @duelRun .int [] .A (fun i => if i then 1 else 0) (4 * k + 4) (meet (duellists 1500000000)) = some d ∧
      @duelRun .int [] .A ((fun i => if i then 1 else 0) ∘ not) (4 * k + 4)
        (meet (duellists 1500000000 ∘ not)) = some d' ∧
      d'.loc.status d'.loc.win = d.loc.status d.loc.win := by
  obtain ⟨k, d, d', -, -, hd, -, hd', -, -, hw⟩ := @fight_swap .int (duellists 1500000000) [] .A
    (fun i => if i then 1 else 0) (@standing_duellists .int 1500000000 (by decide) (by decide)) (by decide)
  exact ⟨k, d, d', hd, hd', hw⟩

end SysProg.Tournament
