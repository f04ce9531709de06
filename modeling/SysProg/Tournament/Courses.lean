import SysProg.Tournament.Roles
import SysProg.Tournament.Seats

/-!
# SysProg.Tournament.Courses

What is written to each channel of the tournament, in whatever order the processes go on.

* `Down p n v`: the `n`-th status written to `p` from above is `v`. It comes from a round of the battle
  above, or has been relayed by it.
* `Up p n v`: the `n`-th status that comes up from `p`.
* `Says`: the same for all channels, also the FIFOs.
* `script`: battles and players keep to it.
-/

namespace SysProg.Tournament

variable [Arith]

section

variable (file : List Line)

/-- The two slots of a battle when it begins. -/
def opened (b : Battle) : Bool → Status := opening b fun i => entrant file (child b i)

/-- After `n` rounds. -/
abbrev turn (b : Battle) (n : Nat) : Bool → Status := rounds (attrTable b) (opened file b) n

abbrev Lasts (b : Battle) (n : Nat) : Prop := Live (attrTable b) (opened file b) n

abbrev Ends (b : Battle) (n : Nat) : Prop := Over (attrTable b) (opened file b) n

inductive Down : Proc → Nat → Status → Prop where
  | round {b : Battle} {n : Nat} (i : Bool) : Lasts file b n → Down (child b i) n (turn file b (n + 1) i)
  | pass {b : Battle} {n j : Nat} {v : Status} : b ≠ .A → Ends file b n → Down (.battle b) j v →
      Down (child b (winSlot (turn file b (n + 1)))) (n + 1 + j) v

def Up (p : Proc) : Nat → Status → Prop
  | 0, v => v = (entrant file p).status
  | n + 1, v => ∃ w, Down file p n w ∧ Alive w ∧ v = answer (entrant file p).originHP w

def Says : Chan → Nat → Status → Prop
  | .stdin p, n, v => Down file p n v
  | .stdout p, n, v => Up file p n v
  | .fifo k, n, v => n = 0 ∧ feeder k ≠ none ∧ v = (entrant file (.player k)).status

/-- Player `k` is to write to agent `i`. -/
def Sends (k i : PlayerId) : Prop := ∃ b, feeder i = some b ∧ (result file b).loser.seat = k

end

variable {file : List Line} {b : Battle} {p : Proc} {k q : PlayerId} {i : Bool} {n j : Nat} {v w : Status}

/-! ## Battles -/

theorem opened_standing (hg : GoodFile file) (b : Battle) : Standing (opened file b) :=
  standing_opening fun i => fit_entrant hg (child b i)

theorem opened_flag (hg : GoodFile file) (b : Battle) (i : Bool) :
    (opened file b i).battleEndedFlag = 0 := (opened_standing hg b).flag i

theorem turn_closing (hg : GoodFile file) (h : Ends file b n) :
    turn file b (n + 1) = closing b fun i => entrant file (child b i) := by
  obtain ⟨k, -, ho, hk⟩ := closing_over (b := b) fun i => fit_entrant hg (child b i)
  cases over_unique h ho
  exact hk.symm

theorem winSlot_turn (hg : GoodFile file) (h : Ends file b n) :
    winSlot (turn file b (n + 1)) = wins file b := by
  rw [turn_closing hg h]
  rfl

variable (file) in
theorem turn_letter (b : Battle) (n : Nat) (i : Bool) : (turn file b n i).currentBattleId = b.letter :=
  rounds_keeps Status.currentBattleId (fun _ _ _ => rfl) n i

/-! ## What comes from above -/

theorem down_cases (h : Down file (child b i) n v) :
    (Lasts file b n ∧ v = turn file b (n + 1) i) ∨
      ∃ k j, b ≠ .A ∧ Ends file b k ∧ i = winSlot (turn file b (k + 1)) ∧ n = k + 1 + j ∧
        Down file (.battle b) j v := by
  generalize hc : child b i = c at h
  cases h with
  | @round b' n i' hl =>
    obtain ⟨rfl, rfl⟩ := child_inj hc
    exact .inl ⟨hl, rfl⟩
  | @pass b' k j v hA he hd =>
    obtain ⟨rfl, rfl⟩ := child_inj hc
    exact .inr ⟨k, j, hA, he, rfl, rfl, hd⟩

theorem down_of_live (hl : Lasts file b n) (h : Down file (child b i) n v) :
    v = turn file b (n + 1) i := by
  rcases down_cases h with ⟨-, hv⟩ | ⟨k, j, -, he, -, rfl, -⟩
  · exact hv
  · exact absurd hl (he.not_live (by omega))

theorem down_of_over {k : Nat} (he : Ends file b k) (h : Down file (child b i) (k + 1 + j) v) :
    Down file (.battle b) j v := by
  rcases down_cases h with ⟨hl, -⟩ | ⟨k', j', -, he', -, hn, hd⟩
  · exact absurd hl (he.not_live (by omega))
  · cases over_unique he he'
    cases Nat.add_left_cancel hn
    exact hd

theorem down_unique (h : Down file p n v) (h' : Down file p n w) : v = w := by
  induction h with
  | round i hl => exact (down_of_live hl h').symm
  | pass hA he hd ih => exact ih (down_of_over he h')

theorem down_flag (h : Down file p n v) : v.HP ≤ 0 → v.battleEndedFlag = 1 := by
  induction h with
  | round i _ => exact fun hv => play_ended hv i
  | pass _ _ _ ih => exact ih

/-- It has been written by a battle to who comes from there. -/
theorem down_origin (hg : GoodFile file) (h : Down file p n v) : ∃ b i k, Lasts file b k ∧
    v = turn file b (k + 1) i ∧ (entrant file (child b i)).seat = (entrant file p).seat ∧
    (entrant file (child b i)).originHP = (entrant file p).originHP := by
  induction h with
  | @round b n i hl => exact ⟨b, i, n, hl, rfl, rfl, rfl⟩
  | @pass b k j v hA he hd ih =>
    obtain ⟨b', i, k', hl, hv, hs, ho⟩ := ih
    rw [winSlot_turn hg he]
    refine ⟨b', i, k', hl, hv, hs.trans (seat_battle b), ho.trans ?_⟩
    rw [entrant_battle]
    rfl

/-- The last one of a player. -/
theorem down_last (hg : GoodFile file) (h : Down file p n v) (hd : ¬ Alive v) : ∃ b i,
    v = closing b (fun i => entrant file (child b i)) i ∧ (i = wins file b → b = .A) ∧
      (entrant file (child b i)).seat = (entrant file p).seat ∧
      (entrant file (child b i)).originHP = (entrant file p).originHP := by
  have hfin := (dead_iff (down_flag h)).1 hd
  obtain ⟨b, i, k, hl, hv, hs, ho⟩ := down_origin hg h
  have he : Ends file b k := by
    refine ⟨hl, ?_⟩
    rw [rounds_flags (opened_flag hg b) (k + 1) false i]
    exact (congrArg Status.battleEndedFlag hv).symm.trans hfin.1
  have hv' := hv
  rw [turn_closing hg he] at hv'
  refine ⟨b, i, hv', fun hw => ?_, hs, ho⟩
  have hd := closing_decided (b := b) fun i => fit_entrant hg (child b i)
  have hpos : 0 < v.HP := by
    rw [hv', hw]
    exact hd.winner
  by_contra hA
  refine letter_ne hA ?_
  rw [← turn_letter file b (k + 1) i, ← hv]
  exact hfin.2.resolve_left (by omega)

/-! ## Who loses -/

/-- The player has been told that it has lost, and hands over. -/
theorem down_loser (hg : GoodFile file) (h : Down file (.player q) n v) (ho : handsOver v q) :
    ∃ b, b ≠ .A ∧ (result file b).loser.seat = q ∧ (result file b).loser.status = v ∧
      (result file b).loser.originHP = (entrant file (.player q)).originHP := by
  have hdead : ¬ Alive v := fun ha => absurd ha.1 (Int.not_lt.2 ho.1)
  obtain ⟨b, i, hv, hA, hs, hO⟩ := down_last hg h hdead
  have hfit : ∀ i, (entrant file (child b i)).Fit := fun i => fit_entrant hg _
  have hd := closing_decided (b := b) hfit
  have hlost : i = !wins file b := by
    rcases Bool.eq_or_eq_not i (wins file b) with hw | hw
    · have hpos : 0 < v.HP := by
        rw [hv, hw]
        exact hd.winner
      exact absurd ho.1 (Int.not_le.2 hpos)
    · exact hw
  subst hlost
  refine ⟨b, ?_, ?_, ?_, ?_⟩
  · rintro rfl
    refine ho.2.1 ?_
    rw [hv, closing_letter hfit]
    rfl
  · rw [seat_loser, hs, seat_player]
  · rw [result_eq, hv]
    rfl
  · rw [result_eq, ← hO]
    rfl

theorem down_heir (hg : GoodFile file) (h : Down file (.player q) n v) (hh : heir v q = some k) :
    Sends file q k ∧ legacy v (entrant file (.player q)).originHP = (entrant file (.player k)).status := by
  have ho : handsOver v q := by
    by_contra ho
    rw [heir, if_neg ho] at hh
    cases hh
  obtain ⟨b, hA, hs, hv, hO⟩ := down_loser hg h ho
  have hfit : ∀ i, (entrant file (child b i)).Fit := fun i => fit_entrant hg _
  rw [← hs, ← hv, result_eq] at hh
  have hk := (heir_loser hA hfit fun i => seat_below _).1 hh
  refine ⟨⟨b, hk, hs⟩, ?_⟩
  rw [entrant_agent hk, ← result_eq, ← hO, ← hv]
  rfl

/-- There is an agent for it. -/
theorem down_heir_ne (hg : GoodFile file) (h : Down file (.player q) n v) (ho : handsOver v q) :
    heir v q ≠ none := by
  obtain ⟨b, hA, hs, hv, -⟩ := down_loser hg h ho
  have hfit : ∀ i, (entrant file (child b i)).Fit := fun i => fit_entrant hg _
  rw [← hs, ← hv, result_eq] at ho ⊢
  exact heir_loser_ne hA hfit (fun i => seat_below _) ho

theorem down_keep (hg : GoodFile file) (h : Down file (.player q) n v) (hd : ¬ Alive v)
    (hk : Sends file q k) : heir v q = some k := by
  obtain ⟨b, hb, hs⟩ := hk
  obtain ⟨b', i, hv, hA, hs', -⟩ := down_last hg h hd
  rw [seat_player] at hs'
  have hfit : ∀ i, (entrant file (child b i)).Fit := fun i => fit_entrant hg _
  rcases lost_once hs hs' with ⟨rfl, rfl⟩ | ⟨hw, hbelow⟩
  · have hv' : v = (result file b').loser.status := by
      rw [hv, result_eq]
      rfl
    rw [hv', ← hs, result_eq]
    exact (heir_loser (ne_root_of_feeder hb) hfit fun i => seat_below _).2 hb
  · cases hA hw
    exact absurd hbelow (not_below_root _ _)

/-! ## The parts -/

theorem says_fought (hg : GoodFile file) (b : Battle) : Fought (Says file) b (opened file b) where
  opening {i v} hv := by
    have hv : v = (entrant file (child b i)).status := hv
    rw [hv]
    rfl
  round i hl := .round i hl
  echo {k i v} hl hv := by
    obtain ⟨w, hw, -, rfl⟩ := hv
    rw [down_of_live (hl.mono (Nat.le_succ k)) hw]
    exact if_neg (live_flag (opened_flag hg b) hl i)
  relays hA {k} he :=
    { up := fun {j v} hv => by
        rw [show k + 1 + j = k + j + 1 by omega] at hv
        obtain ⟨w, hw, ha, rfl⟩ := hv
        have ho : (entrant file (.battle b)).originHP =
            (entrant file (child b (winSlot (turn file b (k + 1))))).originHP := by
          rw [winSlot_turn hg he, entrant_battle]
          rfl
        cases j with
        | zero =>
          show _ = (entrant file (.battle b)).status
          rw [down_of_live he.1 hw, winSlot_turn hg he, answer, if_pos (over_flag (opened_flag hg b) he _),
            entrant_battle, turn_closing hg he]
          rfl
        | succ j =>
          rw [show k + (j + 1) = k + 1 + j by omega] at hw
          exact ⟨w, down_of_over he hw, ha, by rw [ho]⟩
      down := fun hv => .pass hA he hv }

theorem says_plays (hg : GoodFile file) (k : PlayerId) :
    Plays (Says file) k (entrant file (.player k)).originHP (Sends file k) where
  sound hv := down_flag hv
  reply hv ha := ⟨_, hv, ha, rfl⟩
  hand {n v i} hv _ hh := by
    obtain ⟨hs, hl⟩ := down_heir hg hv hh
    obtain ⟨b, hb, -⟩ := id hs
    exact ⟨hs, rfl, by rw [hb]; simp, hl⟩
  keep hv hd hk := down_keep hg hv hd hk

variable (file) in
theorem enters_entrant (k : PlayerId) :
    Enters (Says file) k (entrant file (.player k)).originHP (entrant file (.player k)).status := by
  refine ⟨rfl, ?_⟩
  cases hf : feeder k with
  | none => rw [entrant_first hf]; rfl
  | some b => rw [entrant_agent hf]; rfl

def Playing (file : List Line) : (p : Proc) → Loc p → (Chan → Nat) → (Chan → Nat) → Prop
  | .battle b, l, τ, ν => BattleAt (Says file) b (opened file b) l (tally b τ ν)
  | .player k, l, τ, ν => PlayerAt file (Says file) k (entrant file (.player k)).originHP (Sends file k) l
      (playerTally k τ ν)

theorem playing_frame {l : Loc p} {τ τ' ν ν' : Chan → Nat} (hτ : ∀ c, rcv c = p → τ' c = τ c)
    (hν : ∀ c, snd file c = p → ν' c = ν c) (h : Playing file p l τ ν) : Playing file p l τ' ν' := by
  cases p with
  | battle b =>
    have ht : tally b τ' ν' = tally b τ ν :=
      tally_congr (fun i => hτ _ (parent_child b i)) (fun i => hν _ (parent_child b i)) (hν _ rfl)
        (hτ _ rfl)
    rw [Playing, ht]
    exact h
  | player k =>
    refine PlayerAt.congr h (hτ _ rfl) (hν _ rfl) (hτ _ rfl) fun a ha => hν _ ?_
    obtain ⟨b, hb, hs⟩ := ha
    rw [snd, hb]
    exact congrArg Proc.player hs

theorem playing_owns {l : Loc p} {τ ν : Chan → Nat} (h : Playing file p l τ ν) :
    Kahn.Owns (snd file) rcv p (prog file p l) := by
  cases p with
  | battle b => exact battle_owns (parent_child b) rfl (parent_child b) rfl l
  | player k =>
    refine player_owns h rfl rfl rfl fun a ha => ?_
    obtain ⟨b, hb, hs⟩ := ha
    rw [snd, hb]
    exact congrArg Proc.player hs

theorem playing_follows (hg : GoodFile file) {l : Loc p} {τ ν : Chan → Nat}
    (h : Playing file p l τ ν) : (prog file p l).Follows (Says file) (Playing file p) τ ν := by
  cases p with
  | battle b => exact battle_follows (says_fought hg b) h
  | player k => exact player_follows (says_plays hg k) h

def script (file : List Line) (hg : GoodFile file) : Kahn.Script (prog file) (snd file) rcv where
  msg := Says file
  part := Playing file
  owns := playing_owns
  follows := playing_follows hg
  frame := playing_frame

theorem start_holds (hg : GoodFile file) : (script file hg).Holds start := by
  refine ⟨fun p => ?_, fun {c n v} hv => by cases hv⟩
  cases p with
  | battle b => exact ⟨rfl, rfl, rfl, rfl, rfl, rfl⟩
  | player k =>
    have he := enters_entrant file k
    refine ⟨rfl, rfl, rfl, fun _ _ => rfl, fun hk => ?_, ?_⟩
    · have hf := feeder_none.2 hk
      rw [entrant_first hf] at he ⊢
      exact he
    · rintro hk v ⟨-, -, rfl⟩
      exact he

theorem reachable_holds (hg : GoodFile file) {s : State} (hr : Reachable (step file) start s) :
    (script file hg).Holds s := (script file hg).reachable (start_holds hg) (reachable_act hr)

end SysProg.Tournament
