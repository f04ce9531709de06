import SysProg.Tournament.Rounds

/-!
# SysProg.Tournament.Bracket

The double-elimination bracket, played one battle after the other.

* `fight`: rounds of `play` until the battle has ended; `fight_over`: as many as it lasts.
* `bout`: a battle between two entrants; the winner comes out healed by half of its loss.
* `reenter`: a loser as an agent, with its full HP.
* `result`, `champion`: the battles in order.
* `Fit`: what an entrant brings to a battle: HP, full HP and ATK above 0, flag 0.
* `Unhurt`: besides, its HP is not above its full HP; so it stays where no blow overflows.
-/

namespace SysProg.Tournament

open Arith (wrap Fits)

variable [Arith]

/-- Somebody in the tournament: on which seat, with which full HP. -/
structure Entrant where
  seat : PlayerId
  originHP : Int
  status : Status
deriving DecidableEq, Repr

/-- At most `n` rounds. -/
def fight (attr : Attribute) : Nat → (Bool → Status) → Bool → Status
  | 0, st => st
  | n + 1, st =>
    if (play attr st false).battleEndedFlag = 1 then play attr st else fight attr n (play attr st)

structure Result where
  winner : Entrant
  loser : Entrant

/-- What the two slots hold when the battle begins. -/
def opening (b : Battle) (x : Bool → Entrant) : Bool → Status :=
  fun i => { (x i).status with currentBattleId := b.letter }

/-- What they hold when it has ended. -/
def closing (b : Battle) (x : Bool → Entrant) : Bool → Status :=
  fight (attrTable b) (lasts (opening b x) + 1) (opening b x)

def bout (b : Battle) (x : Bool → Entrant) : Result :=
  let st := closing b x
  let w := winSlot st
  { winner := { x w with status := (st w).heal (x w).originHP }
    loser := { x (!w) with status := st (!w) } }

def versus (x y : Entrant) : Bool → Entrant
  | false => x
  | true => y

def reenter (k : PlayerId) (x : Entrant) : Entrant where
  seat := k
  originHP := x.originHP
  status := { x.status with HP := x.originHP, battleEndedFlag := 0 }

section

variable (file : List Line)

def player (k : PlayerId) : Entrant := ⟨k, (readStatus file k).HP, readStatus file k⟩

def resultG : Result := bout .G (versus (player file 0) (player file 1))
def resultH : Result := bout .H (versus (player file 2) (player file 3))
def resultI : Result := bout .I (versus (player file 4) (player file 5))
def resultJ : Result := bout .J (versus (player file 6) (player file 7))
def resultD : Result := bout .D (versus (resultG file).winner (resultH file).winner)
def resultE : Result := bout .E (versus (resultI file).winner (resultJ file).winner)
def resultB : Result := bout .B (versus (resultD file).winner (resultE file).winner)
def resultM : Result := bout .M (versus (reenter 8 (resultG file).loser) (reenter 9 (resultI file).loser))
def resultN : Result := bout .N (versus (reenter 11 (resultH file).loser) (reenter 12 (resultJ file).loser))
def resultK : Result := bout .K (versus (resultM file).winner (reenter 10 (resultD file).loser))
def resultL : Result := bout .L (versus (resultN file).winner (reenter 13 (resultE file).loser))
def resultF : Result := bout .F (versus (resultK file).winner (resultL file).winner)
def resultC : Result := bout .C (versus (resultF file).winner (reenter 14 (resultB file).loser))
def resultA : Result := bout .A (versus (resultB file).winner (resultC file).winner)

def champion : Int := (resultA file).winner.status.realPlayerId

def result : Battle → Result
  | .A => resultA file | .B => resultB file | .C => resultC file | .D => resultD file
  | .E => resultE file | .F => resultF file | .G => resultG file | .H => resultH file
  | .I => resultI file | .J => resultJ file | .K => resultK file | .L => resultL file
  | .M => resultM file | .N => resultN file

/-- The battle whose loser becomes the agent. -/
def feeder (k : PlayerId) : Option Battle :=
  match k with
  | 8 => some .G
  | 9 => some .I
  | 10 => some .D
  | 11 => some .H
  | 12 => some .J
  | 13 => some .E
  | 14 => some .B
  | _ => none

/-- Who comes to the next battle from there. -/
def entrant : Proc → Entrant
  | .battle b => (result file b).winner
  | .player k =>
    match feeder k with
    | some b => reenter k (result file b).loser
    | none => player file k

theorem result_eq (b : Battle) : result file b = bout b fun i => entrant file (child b i) := by
  have h : ∀ x : Bool → Entrant, versus (x false) (x true) = x := by
    intro x
    funext i
    cases i <;> rfl
  rw [← h fun i => entrant file (child b i)]
  cases b <;> rfl

end

/-! ## Bouts -/

section

variable {attr : Attribute} {st : Bool → Status}

theorem fight_over {n k : Nat} (ho : Over attr st k) (hk : k < n) :
    fight attr n st = rounds attr st (k + 1) := by
  induction n generalizing st k with
  | zero => omega
  | succ n ih =>
    rw [fight]
    split
    · rename_i hf
      cases over_unique ho ⟨live_zero, hf⟩
      rfl
    · rename_i hf
      obtain ⟨j, rfl, hj⟩ := over_pred hf ho
      rw [ih hj (by omega), rounds_play]

end

structure Entrant.Fit (x : Entrant) : Prop where
  pos : 0 < x.status.HP
  full : 0 < x.originHP
  attack : 0 < x.status.ATK
  flag : x.status.battleEndedFlag = 0
  fits : Fits x.status.HP ∧ Fits x.status.ATK
  fitsFull : Fits x.originHP

/-- Nobody has given it HP, and its blows do not overflow. -/
structure Entrant.Unhurt (x : Entrant) : Prop where
  le : x.status.HP ≤ x.originHP
  exact : Fits (x.status.ATK * 2)

/-- The winner is healed to somewhere between what it has and its full HP. -/
theorem Status.heal_eq {m : Status} {o : Int} (hm : 0 < m.HP) (ho : 0 < o) (hfm : Fits m.HP)
    (hfo : Fits o) : (m.heal o).HP = (o - m.HP).tdiv 2 + m.HP ∧ Fits (m.heal o).HP ∧
      0 < (m.heal o).HP ∧ (m.HP ≤ o → (m.heal o).HP ≤ o) := by
  have hsub : Fits (o - m.HP) := hfo.sub hfm (Int.le_of_lt ho) (Int.le_of_lt hm)
  have hmid : 0 < (o - m.HP).tdiv 2 + m.HP ∧ (m.HP ≤ o → (o - m.HP).tdiv 2 + m.HP ≤ o) ∧
      (o ≤ m.HP → (o - m.HP).tdiv 2 + m.HP ≤ m.HP) := by
    rcases Int.le_total m.HP o with h | h
    · rw [Int.tdiv_eq_ediv_of_nonneg (by omega)]
      omega
    · have hneg : o - m.HP = -(m.HP - o) := by omega
      rw [hneg, Int.neg_tdiv, Int.tdiv_eq_ediv_of_nonneg (by omega)]
      omega
  obtain ⟨hpos, hle, hge⟩ := hmid
  have hfit : Fits ((o - m.HP).tdiv 2 + m.HP) := by
    rcases Int.le_total m.HP o with h | h
    · exact hfo.of_le (Int.le_of_lt hpos) (hle h)
    · exact hfm.of_le (Int.le_of_lt hpos) (hge h)
  have heq : (m.heal o).HP = (o - m.HP).tdiv 2 + m.HP := by
    rw [heal, hsub, hfit]
  rw [heq]
  exact ⟨rfl, hfit, hpos, hle⟩

section

variable {b : Battle} {x : Bool → Entrant}

theorem standing_opening (h : ∀ i, (x i).Fit) : Standing (opening b x) :=
  ⟨fun i => (h i).pos, fun i => Int.le_of_lt (h i).attack, ⟨false, (h false).attack⟩,
    fun i => (h i).flag, fun i => (h i).fits⟩

theorem closing_over (h : ∀ i, (x i).Fit) :
    ∃ k ≤ lasts (opening b x), Over (attrTable b) (opening b x) k ∧
      closing b x = rounds (attrTable b) (opening b x) (k + 1) := by
  obtain ⟨k, hk, ho⟩ := standing_over (attrTable b) (standing_opening (b := b) h)
  exact ⟨k, hk, ho, fight_over ho (by omega)⟩

theorem closing_decided (h : ∀ i, (x i).Fit) : Decided (closing b x) := by
  obtain ⟨k, -, ho, hc⟩ := closing_over (b := b) h
  rw [hc]
  exact over_decided (standing_opening h) ho

theorem closing_keeps {α : Type} (h : ∀ i, (x i).Fit) (f : Status → α)
    (hf : ∀ (x : Status) (hp flag : Int), f { x with HP := hp, battleEndedFlag := flag } = f x)
    (i : Bool) : f (closing b x i) = f (opening b x i) := by
  obtain ⟨k, -, -, hc⟩ := closing_over (b := b) h
  rw [hc, rounds_keeps f hf]

theorem closing_fits (h : ∀ i, (x i).Fit) (i : Bool) :
    Fits (closing b x i).HP := by
  obtain ⟨k, -, ho, hc⟩ := closing_over (b := b) h
  rw [hc]
  exact play_fits (fun i => ((live_standing (standing_opening h) ho.1).fits i).1) i

theorem fit_winner (h : ∀ i, (x i).Fit) : (bout b x).winner.Fit := by
  have hd := closing_decided (b := b) h
  have hw := h (winSlot (closing b x))
  have hATK := closing_keeps (b := b) h Status.ATK (fun _ _ _ => rfl) (winSlot (closing b x))
  obtain ⟨-, hfit, hpos, -⟩ := Status.heal_eq hd.winner hw.full (closing_fits h _) hw.fitsFull
  refine ⟨hpos, hw.full, ?_, rfl, ⟨hfit, ?_⟩, hw.fitsFull⟩
  · show 0 < (closing b x _).ATK
    rw [hATK]
    exact hw.attack
  · show Fits (closing b x _).ATK
    rw [hATK]
    exact hw.fits.2

theorem fit_reenter {k : PlayerId} (h : ∀ i, (x i).Fit) : (reenter k (bout b x).loser).Fit := by
  have hl := h (!winSlot (closing b x))
  have hATK := closing_keeps (b := b) h Status.ATK (fun _ _ _ => rfl) (!winSlot (closing b x))
  refine ⟨hl.full, hl.full, ?_, rfl, ⟨hl.fitsFull, ?_⟩, hl.fitsFull⟩
  · show 0 < (closing b x _).ATK
    rw [hATK]
    exact hl.attack
  · show Fits (closing b x _).ATK
    rw [hATK]
    exact hl.fits.2

theorem closing_letter (h : ∀ i, (x i).Fit) (i : Bool) :
    (closing b x i).currentBattleId = b.letter :=
  closing_keeps h Status.currentBattleId (fun _ _ _ => rfl) i

/-! ## Without overflow -/

theorem exact_opening (hu : ∀ i, (x i).Unhurt) : Exact (opening b x) := fun i => (hu i).exact

theorem unhurt_winner (h : ∀ i, (x i).Fit) (hu : ∀ i, (x i).Unhurt) : (bout b x).winner.Unhurt := by
  have hw := h (winSlot (closing b x))
  obtain ⟨k, -, ho, hc⟩ := closing_over (b := b) h
  have hle : (closing b x (winSlot (closing b x))).HP ≤ (x (winSlot (closing b x))).originHP := by
    rw [hc]
    exact Int.le_trans (live_le_all (exact_opening hu) (standing_opening h) ho.1 _) (hu _).le
  obtain ⟨-, -, -, hheal⟩ := Status.heal_eq (closing_decided (b := b) h).winner hw.full
    (closing_fits h _) hw.fitsFull
  refine ⟨hheal hle, ?_⟩
  show Fits ((closing b x _).ATK * 2)
  rw [closing_keeps h Status.ATK fun _ _ _ => rfl]
  exact (hu _).exact

theorem unhurt_reenter {k : PlayerId} (h : ∀ i, (x i).Fit) (hu : ∀ i, (x i).Unhurt) :
    (reenter k (bout b x).loser).Unhurt := by
  refine ⟨Int.le_refl _, ?_⟩
  show Fits ((closing b x _).ATK * 2)
  rw [closing_keeps h Status.ATK fun _ _ _ => rfl]
  exact (hu _).exact

end

end SysProg.Tournament
