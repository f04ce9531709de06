import SysProg.Tournament.Courses

/-!
# SysProg.Tournament.Integrity

What becomes of a status on its way through the tournament.

* `Sound`: a status a player may come to a battle with.
* `Moderate`: no blow overflows.
* `up_sound`: all that comes up is sound.
* `down_wears`, `down_falls`: a round costs HP, and gives none back, as long as no blow overflows.
* `traced`: what a player reads has been written by the battle it is from.
* `Integrity`: all this of a state; `statuses_sound`: it holds in every state.
* `strong_heals`: a blow that overflows gives HP.
-/

namespace SysProg.Tournament

open Arith (Fits)

section

variable [Arith] {file : List Line} {hg : GoodFile file} {s : State} {b : Battle} {p : Proc} {k r : PlayerId}
  {i : Bool} {n : Nat} {o : Int} {u v v' : Status}

/-- Twice the ATK of each player is a value of the type. -/
def Moderate (file : List Line) : Prop := ∀ k : PlayerId, k ≤ 7 → Fits ((readStatus file k).ATK * 2)

/-- Of player `r` of the file, with full HP `o`. -/
structure Sound (file : List Line) (r : PlayerId) (o : Int) (v : Status) : Prop where
  flag : v.battleEndedFlag = 0
  pos : 0 < v.HP
  le : Moderate file → v.HP ≤ o
  id : v.realPlayerId = r.val
  attack : v.ATK = (readStatus file r).ATK
  attr : v.attr = (readStatus file r).attr

structure Integrity (file : List Line) (s : State) : Prop where
  /-- What a player process writes, real or agent. -/
  enters : ∀ k : PlayerId, ∃ r : PlayerId, r ≤ 7 ∧ (k ≤ 7 → r = k) ∧
    ∀ v ∈ Kahn.sent s (.stdout (.player k)), Sound file r (playerLoc s k).originHP v ∧
      (playerLoc s k).originHP = (readStatus file r).HP
  /-- What comes to a battle, from a player or through battles in between. -/
  comes : ∀ b i, ∃ r : PlayerId, r ≤ 7 ∧
    ∀ v ∈ Kahn.sent s (.stdout (child b i)), Sound file r (readStatus file r).HP v
  /-- A round gives no HP. -/
  wears : Moderate file → ∀ (p : Proc) (n : Nat) (u v : Status), (Kahn.sent s (.stdout p))[n]? = some u →
    (Kahn.sent s (.stdin p))[n]? = some v → v.HP ≤ u.HP
  /-- Between two rounds of one fight the status stays the same. -/
  echoes : ∀ (p : Proc) (n : Nat) (u v : Status), (Kahn.sent s (.stdin p))[n]? = some v →
    v.battleEndedFlag ≠ 1 → (Kahn.sent s (.stdout p))[n + 1]? = some u → u = v
  falls : Moderate file → ∀ (p : Proc) (n : Nat) (v v' : Status), (Kahn.sent s (.stdin p))[n]? = some v →
    v.battleEndedFlag ≠ 1 → (Kahn.sent s (.stdin p))[n + 1]? = some v' → v'.HP ≤ v.HP
  /-- Whoever has no HP left, its battle has told both that it has ended. -/
  dead : ∀ c, ∀ v ∈ Kahn.sent s c, v.HP ≤ 0 → v.battleEndedFlag = 1 ∧
    ∃ (b : Battle) (i : Bool) (n : Nat), v.currentBattleId = b.letter ∧
      (Kahn.sent s (.stdin (child b i)))[n]? = some v ∧
      ∀ v' : Status, (Kahn.sent s (.stdin (child b (!i))))[n]? = some v' →
        v'.currentBattleId = b.letter ∧ v'.battleEndedFlag = 1

/-! ## Statuses -/

theorem unhurt_entrant (hg : GoodFile file) (hm : Moderate file) (p : Proc) : (entrant file p).Unhurt := by
  induction p using bracket_induction with
  | first k hk =>
    rw [entrant_first hk]
    exact ⟨Int.le_refl _, hm k (feeder_none.1 hk)⟩
  | agent k b hk ih =>
    rw [entrant_agent hk]
    exact unhurt_reenter (fun i => fit_entrant hg _) ih
  | battle b ih =>
    rw [entrant_battle]
    exact unhurt_winner (fun i => fit_entrant hg _) ih

theorem sound_entrant (hg : GoodFile file) (p : Proc) :
    Sound file (real file (entrant file p).seat) (entrant file p).originHP (entrant file p).status := by
  have hf := fit_entrant hg p
  have hp := person_entrant hg p
  exact ⟨hf.flag, hf.pos, fun hm => (unhurt_entrant hg hm p).le, hp.id, hp.attack, hp.attr⟩

theorem opened_exact (hg : GoodFile file) (hm : Moderate file) (b : Battle) : Exact (opened file b) :=
  exact_opening fun i => unhurt_entrant hg hm (child b i)

/-- After a round the status is still that of the player. -/
theorem Sound.turn {w : Status} (h : Sound file r o (entrant file (child b i)).status)
    (hw : ∃ hp flag, w = { turn file b n i with HP := hp, battleEndedFlag := flag })
    (hflag : w.battleEndedFlag = 0) (hpos : 0 < w.HP) (hle : Moderate file → w.HP ≤ o) :
    Sound file r o w := by
  obtain ⟨hp, flag, rfl⟩ := hw
  exact ⟨hflag, hpos, hle, (rounds_keeps Status.realPlayerId (fun _ _ _ => rfl) n i).trans h.id,
    (rounds_keeps Status.ATK (fun _ _ _ => rfl) n i).trans h.attack,
    (rounds_keeps Status.attr (fun _ _ _ => rfl) n i).trans h.attr⟩

/-- The answer to a status that does not end the part of the player. -/
theorem answer_sound (hg : GoodFile file) (h : Lasts file b n) (i : Bool)
    (ha : Alive (turn file b (n + 1) i)) :
    Sound file (real file (entrant file (child b i)).seat) (entrant file (child b i)).originHP
      (answer (entrant file (child b i)).originHP (turn file b (n + 1) i)) := by
  have hs := opened_standing hg b
  have hfit := fit_entrant hg (child b i)
  have hx := sound_entrant hg (child b i)
  have hle : Moderate file → (turn file b (n + 1) i).HP ≤ (entrant file (child b i)).originHP :=
    fun hm => Int.le_trans (live_le_all (opened_exact hg hm b) hs h i) (hx.le hm)
  rw [answer]
  split
  · have hturn : Fits (turn file b (n + 1) i).HP :=
      play_fits (fun i => ((live_standing hs h).fits i).1) i
    obtain ⟨-, -, hpos, hheal⟩ := Status.heal_eq ha.1 hfit.full hturn hfit.fitsFull
    exact hx.turn ⟨_, _, rfl⟩ rfl hpos fun hm => hheal (hle hm)
  · rename_i hf
    have hl : Lasts file b (n + 1) := by
      refine live_succ.2 ⟨h, ?_⟩
      rwa [rounds_flags (opened_flag hg b) (n + 1) false i]
    exact hx.turn (n := n + 1) ⟨_, _, rfl⟩ ((live_standing hs hl).flag i) ha.1 hle

theorem up_sound (hg : GoodFile file) (h : Up file p n v) :
    Sound file (real file (entrant file p).seat) (entrant file p).originHP v := by
  cases n with
  | zero =>
    have h : v = (entrant file p).status := h
    rw [h]
    exact sound_entrant hg p
  | succ n =>
    obtain ⟨w, hw, ha, rfl⟩ := h
    obtain ⟨b, i, m, hl, rfl, hs, ho⟩ := down_origin hg hw
    rw [← hs, ← ho]
    exact answer_sound hg hl i ha

/-! ## Rounds -/

theorem down_wears (hg : GoodFile file) (hm : Moderate file) (h : Down file p n v) (hu : Up file p n u) :
    v.HP ≤ u.HP := by
  induction h with
  | @round b n i hl =>
    have hle := live_le (opened_exact hg hm b) (opened_standing hg b) hl i
    cases n with
    | zero =>
      have hu : u = (entrant file (child b i)).status := hu
      rw [hu]
      exact hle
    | succ n =>
      rw [(says_fought hg b).echo hl hu]
      exact hle
  | @pass b k j v hA he hd ih => exact ih (((says_fought hg b).relays hA he).up hu)

theorem down_falls (hg : GoodFile file) (hm : Moderate file) (h : Down file p n v)
    (hf : v.battleEndedFlag ≠ 1) (h' : Down file p (n + 1) v') : v'.HP ≤ v.HP := by
  induction h with
  | @round b n i hl =>
    have hl' : Lasts file b (n + 1) := by
      refine live_succ.2 ⟨hl, ?_⟩
      rwa [rounds_flags (opened_flag hg b) (n + 1) false i]
    rw [down_of_live hl' h']
    exact live_le (opened_exact hg hm b) (opened_standing hg b) hl' i
  | @pass b k j v hA he hd ih => exact ih hf (down_of_over he h')

/-! ## In a state -/

section

variable (h : (script file hg).Holds s)

include h

/-- What is relayed has been written by the battle it is from. -/
theorem traced (hd : Down file p n v) (hv : n < Kahn.written s (.stdin p)) : ∃ b i m,
    Lasts file b m ∧ v = turn file b (m + 1) i ∧ (Kahn.sent s (.stdin (child b i)))[m]? = some v := by
  induction hd with
  | @round b n i hl =>
    have hget := List.getElem?_eq_getElem hv
    refine ⟨b, i, n, hl, rfl, hget.trans (congrArg some ?_)⟩
    exact down_of_live hl (h.msg hget)
  | @pass b k j v hA he hd ih =>
    obtain ⟨-, -, hpassed⟩ := battleAt_even (h.part (.battle b)) (winSlot (turn file b (k + 1)))
    have hle := hpassed k he
    refine ih ?_
    have hrec := Kahn.received_le s (.stdin (.battle b))
    simp only [tally] at hle
    omega

theorem dead_in {c : Chan} (hv : v ∈ Kahn.sent s c) (h0 : v.HP ≤ 0) : ∃ p n, Down file p n v ∧
    n < Kahn.written s (.stdin p) := by
  obtain ⟨n, hn⟩ := List.getElem?_of_mem hv
  have hsay := h.msg hn
  cases c with
  | stdin p => exact ⟨p, n, hsay, (List.getElem?_eq_some_iff.1 hn).1⟩
  | stdout p => exact absurd h0 (Int.not_le.2 (up_sound hg hsay).pos)
  | fifo k =>
    obtain ⟨-, -, rfl⟩ := hsay
    exact absurd h0 (Int.not_le.2 (fit_entrant hg _).pos)

theorem dead_ends {c : Chan} (hv : v ∈ Kahn.sent s c) (h0 : v.HP ≤ 0) : v.battleEndedFlag = 1 ∧
    ∃ (b : Battle) (i : Bool) (n : Nat), v.currentBattleId = b.letter ∧
      (Kahn.sent s (.stdin (child b i)))[n]? = some v ∧
      ∀ v' : Status, (Kahn.sent s (.stdin (child b (!i))))[n]? = some v' →
        v'.currentBattleId = b.letter ∧ v'.battleEndedFlag = 1 := by
  obtain ⟨p, n, hd, hn⟩ := dead_in h hv h0
  have hflag := down_flag hd h0
  obtain ⟨b, i, m, hl, hturn, hget⟩ := traced h hd hn
  refine ⟨hflag, b, i, m, ?_, hget, fun v' hv' => ?_⟩
  · rw [hturn]
    exact turn_letter file b _ i
  · have hv' := down_of_live hl (h.msg hv')
    have hf : (turn file b (m + 1) (!i)).battleEndedFlag = 1 := by
      rw [rounds_flags (opened_flag hg b) (m + 1) (!i) i]
      exact (congrArg Status.battleEndedFlag hturn).symm.trans hflag
    rw [hv']
    exact ⟨turn_letter file b _ _, hf⟩

theorem sent_sound {v : Status} (hv : v ∈ Kahn.sent s (.stdout p)) :
    Sound file (real file (entrant file p).seat) (entrant file p).originHP v := by
  obtain ⟨n, hn⟩ := List.getElem?_of_mem hv
  exact up_sound hg (h.msg hn)

theorem integrity : Integrity file s where
  enters k := by
    refine ⟨real file k, real_le k, real_first, fun v hv => ?_⟩
    have hs := sent_sound h hv
    have ho := (person_entrant hg (.player k)).originHP
    rw [seat_player] at hs ho
    have hO : (playerLoc s k).originHP = (entrant file (.player k)).originHP :=
      playerAt_origin (h.part (.player k)) (Nat.ne_of_gt (List.length_pos_of_mem hv))
    rw [hO]
    exact ⟨hs, ho⟩
  comes b i := by
    refine ⟨real file (entrant file (child b i)).seat, real_le _, fun v hv => ?_⟩
    rw [← (person_entrant hg (child b i)).originHP]
    exact sent_sound h hv
  wears hm p n u v hu hv := down_wears hg hm (h.msg hv) (h.msg hu)
  echoes p n u v hv hf hu := by
    obtain ⟨w, hw, -, rfl⟩ := h.msg hu
    rw [down_unique hw (h.msg hv)]
    exact if_neg hf
  falls hm p n v v' hv hf hv' := down_falls hg hm (h.msg hv) hf (h.msg hv')
  dead c v hv h0 := dead_ends h hv h0

end

/-- Whatever the eight players bring, in every state of every run. -/
theorem statuses_sound (file : List Line) (hg : GoodFile file) (s : State)
    (hr : Reachable (step file) start s) : Integrity file s := integrity (reachable_holds hg hr)

end

theorem statusFile_moderate : @Moderate .int statusFile := by
  unfold Moderate
  decide +kernel

theorem statuses_sound_statusFile :
    @Integrity .int statusFile (stateAfter statusFile downToG) ∧ @Moderate .int statusFile := by
  refine ⟨?_, statusFile_moderate⟩
  have h : runEvents (@step .int statusFile) start downToG = some (stateAfter statusFile downToG) := rfl
  exact @statuses_sound .int statusFile statusFile_good _ (reachable_runEvents h)

/-- In `G`, player 0 hits with `-2`. -/
def strongFile : List Line :=
  [⟨7, 2147483647, "FIRE".toList, 'G', 0⟩, ⟨9, 3, "GRASS".toList, 'G', 0⟩] ++ statusFile.drop 2

/-- Through the three rounds of `G`, until player 1 has answered that it is healed. -/
def throughG : List Event :=
  downToG ++ [.act (.battle .G), .act (.player 1), .act (.player 1), .act (.battle .G), .act (.battle .G)] ++
    (List.replicate 2 [.act (.battle .G), .act (.battle .G), .act (.player 0), .act (.player 0),
      .act (.player 1), .act (.player 1), .act (.battle .G), .act (.battle .G)]).flatten ++
    [.act (.battle .G), .act (.battle .G), .act (.player 1), .act (.player 1)]

/-- What player 1 is told in `G`: HP and flag. -/
theorem strong_told : (Kahn.sent (stateAfter strongFile throughG) (.stdin (.player 1))).map
    (fun v => (v.HP, v.battleEndedFlag)) = [(11, 0), (13, 0), (15, 1)] := by
  decide +kernel

theorem strong_answers : (Kahn.sent (stateAfter strongFile throughG) (.stdout (.player 1))).map
    Status.HP = [9, 11, 13, 12] ∧ (playerLoc (stateAfter strongFile throughG) 1).originHP = 9 := by
  decide +kernel

theorem strong_heals : ∃ s, @GoodFile .int strongFile ∧ Reachable (@step .int strongFile) start s ∧
    (∃ (p : Proc) (n : Nat) (u v : Status), (Kahn.sent s (.stdout p))[n]? = some u ∧
      (Kahn.sent s (.stdin p))[n]? = some v ∧ v.battleEndedFlag = 0 ∧ u.HP < v.HP) ∧
    ∃ k, ∃ v ∈ Kahn.sent s (.stdout (.player k)), (playerLoc s k).originHP < v.HP := by
  have hr : runEvents (@step .int strongFile) start throughG = some (stateAfter strongFile throughG) := by
    have : (runEvents (@step .int strongFile) start throughG).isSome = true := by decide +kernel
    exact Option.eq_some_of_isSome this
  have ht := strong_told
  obtain ⟨hw, ho⟩ := strong_answers
  refine ⟨stateAfter strongFile throughG, ?_, reachable_runEvents hr, ?_, 1, ?_⟩
  · unfold GoodFile
    decide +kernel
  · obtain ⟨v, vs, hv, hv', -⟩ := List.map_eq_cons_iff.1 ht
    obtain ⟨u, us, hu, hu', -⟩ := List.map_eq_cons_iff.1 hw
    rw [Prod.mk.injEq] at hv'
    refine ⟨.player 1, 0, u, v, ?_, ?_, hv'.2, ?_⟩
    · rw [hu]; rfl
    · rw [hv]; rfl
    · rw [hu', hv'.1]
      decide
  · have h12 : (12 : Int) ∈ (Kahn.sent (stateAfter strongFile throughG) (.stdout (.player 1))).map
        Status.HP := by
      rw [hw]
      decide
    obtain ⟨v, hv, hv'⟩ := List.mem_map.1 h12
    refine ⟨v, hv, ?_⟩
    rw [ho, hv']
    decide

end SysProg.Tournament
