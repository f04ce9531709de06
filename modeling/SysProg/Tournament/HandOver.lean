import SysProg.Tournament.Courses

/-!
# SysProg.Tournament.HandOver

From the upper bracket to the lower one.

* `Beaten`: a player has been told that it has lost a battle.
* `handed`: what it leaves to the agent.
* `LostBy`: a battle has kept the status its loser was left with.
* `HandedOver`: what holds of the FIFOs and of the battles; `losers_hand_over`: in every state.
-/

namespace SysProg.Tournament

section

variable [Arith] {file : List Line} {hg : GoodFile file} {s s' : State} {b : Battle} {p : Proc}
  {k q r : PlayerId} {i : Bool} {n : Nat} {v w : Status}

/-- The last thing player `q` has read is that it has lost battle `b`. -/
def Beaten (s : State) (b : Battle) (q : PlayerId) : Prop :=
  ∃ w, (s.taken (.stdin (.player q))).getLast? = some w ∧ w.realPlayerId = q.val ∧
    w.currentBattleId = b.letter ∧ w.HP ≤ 0 ∧ w.battleEndedFlag = 1

/-- As in the file, but for the battle it comes from. -/
def handed (file : List Line) (q : PlayerId) (b : Battle) : Status :=
  { readStatus file q with currentBattleId := b.letter, battleEndedFlag := 0 }

/-- Real player `r` has lost battle `b`: the slot that has not won says so. -/
def LostBy (s : State) (b : Battle) (r : PlayerId) : Prop :=
  let v := (battleLoc s b).status (!(battleLoc s b).win)
  v.realPlayerId = r.val ∧ v.currentBattleId = b.letter ∧ v.HP ≤ 0 ∧ v.battleEndedFlag = 1

/-- In the fight. -/
def BattlePc.fights : BattlePc → Bool
  | .write _ | .reread _ | .wait => true
  | _ => false

structure HandedOver (file : List Line) (s : State) : Prop where
  once : ∀ k, (Kahn.sent s (.fifo k)).length ≤ 1
  completed : (∀ p, exited s p = true) → ∀ k b, feeder k = some b →
    (Kahn.sent s (.fifo k)).length = 1
  content : ∀ k, ∀ v ∈ Kahn.sent s (.fifo k), ∃ b q, feeder k = some b ∧ q ≤ 7 ∧ Beaten s b q ∧
    v = handed file q b
  sender : ∀ p s' k, step file s (.act p) = some s' → Kahn.sent s' (.fifo k) ≠ Kahn.sent s (.fifo k) →
    ∃ b q, feeder k = some b ∧ q ≤ 7 ∧ p = .player q ∧ Beaten s b q ∧
      Kahn.sent s' (.fifo k) = [handed file q b]
  /-- `which_agent` knows the battle. -/
  known : ∀ q, (playerLoc s q).pc ≠ .stray
  rivals : ∀ b, (battleLoc s b).pc.fights = true →
    ((battleLoc s b).status false).realPlayerId ≠ ((battleLoc s b).status true).realPlayerId
  /-- Who does not come to the final has lost two battles. -/
  twice : (∀ p, exited s p = true) → ∀ r : PlayerId, r ≤ 7 →
    (∀ i, ((battleLoc s .A).status i).realPlayerId ≠ r.val) →
    ∃ b₁ b₂, b₁ ≠ b₂ ∧ ∀ b, LostBy s b r ↔ b = b₁ ∨ b = b₂

/-! ## In the bracket -/

theorem agent_status (hg : GoodFile file) (h : feeder k = some b) :
    (entrant file (.player k)).status = handed file (result file b).loser.seat b := by
  have hp := person_entrant hg (.player k)
  rw [seat_player, real_agent h] at hp
  have hO := hp.originHP
  have hid := hp.id
  have hatk := hp.attack
  have hattr := hp.attr
  have hfit : ∀ i, (entrant file (child b i)).Fit := fun i => fit_entrant hg _
  have hl : (result file b).loser.status.currentBattleId = b.letter := by
    rw [result_eq]
    exact closing_letter hfit _
  rw [entrant_agent h, ← result_eq] at *
  rw [handed, Status.mk.injEq]
  exact ⟨hid.trans (readStatus_id _).symm, hO, hatk, hattr, hl, rfl⟩

theorem loser_person (hg : GoodFile file) (b : Battle) :
    Person file (real file (result file b).loser.seat) (result file b).loser := by
  rw [seat_loser, result_eq]
  exact (person_entrant hg (child b (!wins file b))).closing (x := fun i => entrant file (child b i))
    (fun i => fit_entrant hg _) ⟨_, _, rfl⟩

theorem turn_id (hg : GoodFile file) (b : Battle) (n : Nat) (i : Bool) :
    (turn file b n i).realPlayerId = (real file (entrant file (child b i)).seat).val :=
  (rounds_keeps Status.realPlayerId (fun _ _ _ => rfl) n i).trans (person_entrant hg (child b i)).id

theorem turn_rivals (hg : GoodFile file) (b : Battle) (n : Nat) :
    (turn file b n false).realPlayerId ≠ (turn file b n true).realPlayerId := by
  rw [turn_id hg, turn_id hg]
  intro he
  exact real_rivals b (Fin.ext (by exact_mod_cast he))

/-! ## In a state -/

section

variable (h : (script file hg).Holds s)

include h

theorem battleAt (b : Battle) : BattleAt (Says file) b (opened file b) (battleLoc s b)
    (tally b (Kahn.received s) (Kahn.written s)) := h.part (.battle b)

theorem playerAt (k : PlayerId) : PlayerAt file (Says file) k (entrant file (.player k)).originHP
    (Sends file k) (playerLoc s k) (playerTally k (Kahn.received s) (Kahn.written s)) :=
  h.part (.player k)

theorem fifo_once (k : PlayerId) : (Kahn.sent s (.fifo k)).length ≤ 1 := by
  by_contra hlt
  have hget := h.msg (List.getElem?_eq_getElem (show 1 < (Kahn.sent s (.fifo k)).length by omega))
  exact absurd hget.1 Nat.one_ne_zero

theorem not_stray (q : PlayerId) : (playerLoc s q).pc ≠ .stray := by
  intro hpc
  have hp := playerAt h q
  generalize playerLoc s q = l at *
  obtain ⟨pc, m, o⟩ := l
  cases hpc
  obtain ⟨n, v, hout, ho, hh⟩ := hp
  exact down_heir_ne hg hout.last ho hh

/-- Who is out has read that it has lost. -/
theorem out_beaten {l : PlayerLoc} {o : Int}
    (hout : Out (Says file) q o n v l (playerTally q (Kahn.received s) (Kahn.written s)))
    (hk : Sends file q k) : ∃ b, feeder k = some b ∧ (result file b).loser.seat = q ∧ Beaten s b q := by
  have hh := down_keep hg hout.last hout.dead hk
  have ho : handsOver v q := by
    by_contra ho
    rw [heir, if_neg ho] at hh
    cases hh
  obtain ⟨b, hb, hs⟩ := hk
  obtain ⟨b', hA, hs', hv, -⟩ := down_loser hg hout.last ho
  cases loser_unique hs hs'
  refine ⟨b, hb, hs, v, ?_, ?_, ?_, ho.1, ((dead_iff (down_flag hout.last)).1 hout.dead).1⟩
  · have hlen : (s.taken (.stdin (.player q))).length = n + 1 := hout.fromParent
    have hget : (s.taken (.stdin (.player q)))[n]? = some ((s.taken (.stdin (.player q)))[n]) :=
      List.getElem?_eq_getElem (by omega)
    rw [List.getLast?_eq_getElem?, hlen, Nat.add_sub_cancel, hget]
    exact congrArg some (down_unique (h.msg (Kahn.taken_get hget)) hout.last)
  · rw [← hv, (loser_person hg b).id, hs, real_first]
    rw [← hs]
    exact loser_le hb
  · rw [← hv, result_eq]
    exact closing_letter (fun i => fit_entrant hg _) _

theorem loser_sent (hb : feeder k = some b) (hne : 0 < Kahn.written s (.fifo k)) :
    Beaten s b (result file b).loser.seat := by
  have hk : Sends file (result file b).loser.seat k := ⟨b, hb, rfl⟩
  have hzero : ¬ ∀ i, Sends file (result file b).loser.seat i →
      (playerTally (result file b).loser.seat (Kahn.received s) (Kahn.written s)).toFifo i = 0 :=
    fun h0 => absurd (h0 k hk) (Nat.ne_of_gt hne)
  rcases playerAt_cases (playerAt h (result file b).loser.seat) with ⟨-, -, -, h0⟩ | ⟨-, -, h0, -⟩ |
    ⟨-, -, h0, -⟩ | ⟨-, n, v, hout⟩
  · exact absurd h0 hzero
  · exact absurd h0 hzero
  · exact absurd h0 hzero
  · obtain ⟨b', hb', -, hbeaten⟩ := out_beaten h hout hk
    cases Option.some.inj (hb.symm.trans hb')
    exact hbeaten

theorem fifo_content (hv : v ∈ Kahn.sent s (.fifo k)) : ∃ b q, feeder k = some b ∧ q ≤ 7 ∧
    Beaten s b q ∧ v = handed file q b := by
  obtain ⟨n, hn⟩ := List.getElem?_of_mem hv
  obtain ⟨-, hne, hstat⟩ := h.msg hn
  obtain ⟨b, hb⟩ := Option.ne_none_iff_exists'.1 hne
  refine ⟨b, (result file b).loser.seat, hb, loser_le hb, loser_sent h hb ?_, ?_⟩
  · exact List.length_pos_of_mem hv
  · rw [hstat, agent_status hg hb]

theorem fifo_sender (hs : Kahn.step (prog file) s p = some s')
    (hne : Kahn.sent s' (.fifo k) ≠ Kahn.sent s (.fifo k)) :
    ∃ b q, feeder k = some b ∧ q ≤ 7 ∧ p = .player q ∧ Beaten s b q ∧
      Kahn.sent s' (.fifo k) = [handed file q b] := by
  obtain ⟨v, l, hsend, hsent⟩ := Kahn.sent_step hs hne
  cases p with
  | battle b =>
    have hsend : battleMain b (battleLoc s b) = .send (.fifo k) v l := hsend
    generalize battleLoc s b = l' at hsend
    obtain ⟨pc, st, w⟩ := l'
    cases pc with
    | fork i => cases i <;> cases hsend
    | read i => cases i <;> cases hsend
    | write i => cases i <;> cases hsend
    | reread i => cases i <;> cases hsend
    | _ => cases hsend
  | player q =>
    have hsend : playerMain file q (playerLoc s q) = .send (.fifo k) v l := hsend
    have hp := playerAt h q
    generalize playerLoc s q = l' at *
    obtain ⟨pc, m, o⟩ := l'
    cases pc with
    | writeFifo a =>
      cases hsend
      obtain ⟨n, w, hout, h0, hk, hh, hm⟩ := hp
      obtain ⟨b, hb, hseat, hbeaten⟩ := out_beaten h hout hk
      have hnil : Kahn.sent s (.fifo k) = [] := List.length_eq_zero_iff.1 (h0 k hk)
      refine ⟨b, q, hb, ?_, rfl, hbeaten, ?_⟩
      · rw [← hseat]
        exact loser_le hb
      · have hm : m = legacy w (entrant file (.player q)).originHP := hm
        rw [hsent, hnil, hm, (down_heir hg hout.last hh).2, agent_status hg hb, hseat]
        rfl
    | _ => cases hsend

/-! ## At the end -/

theorem fifo_completed (hex : ∀ p, exited s p = true) (hb : feeder k = some b) :
    (Kahn.sent s (.fifo k)).length = 1 := by
  have hpc : (playerLoc s (result file b).loser.seat).pc = .done :=
    of_decide_eq_true (hex (.player (result file b).loser.seat))
  have hp := playerAt h (result file b).loser.seat
  generalize playerLoc s (result file b).loser.seat = l at *
  obtain ⟨pc, m, o⟩ := l
  cases hpc
  obtain ⟨n, v, -, h1⟩ := hp
  exact h1 k ⟨b, hb, rfl⟩

theorem completed_kept (hex : ∀ p, exited s p = true) (b : Battle) : ∃ n,
    Kept b (opened file b) n (battleLoc s b) (tally b (Kahn.received s) (Kahn.written s)) ∧
      (b = .A → (battleLoc s b).status = turn file b (n + 1)) := by
  have hpc : (battleLoc s b).pc = .done := of_decide_eq_true (hex (.battle b))
  have ht := battleAt h b
  generalize battleLoc s b = l at *
  obtain ⟨pc, st, w⟩ := l
  cases hpc
  obtain ⟨n, hk, hrest⟩ := ht
  refine ⟨n, hk, fun hA => ?_⟩
  rw [if_pos hA] at hrest
  exact hrest.1.1

/-- Each battle has kept what the bracket says of its loser. -/
theorem completed_loser (hex : ∀ p, exited s p = true) (b : Battle) :
    (battleLoc s b).status (!(battleLoc s b).win) = (result file b).loser.status := by
  obtain ⟨n, hk, -⟩ := completed_kept h hex b
  have hw : (battleLoc s b).win = wins file b := hk.win.trans (winSlot_turn hg hk.ended)
  have hst := hk.status
  rw [hw] at hst ⊢
  rw [hst, result_eq]
  exact congrFun (turn_closing hg hk.ended) _

theorem lostBy_iff (hex : ∀ p, exited s p = true) :
    LostBy s b r ↔ real file (result file b).loser.seat = r := by
  have hfit : ∀ i, (entrant file (child b i)).Fit := fun i => fit_entrant hg _
  have hid := (loser_person hg b).id
  rw [LostBy, completed_loser h hex b]
  constructor
  · rintro ⟨hr, -⟩
    exact Fin.ext (by exact_mod_cast hid.symm.trans hr)
  · intro hr
    have hd := closing_decided (b := b) hfit
    rw [hr] at hid
    refine ⟨hid, ?_⟩
    rw [result_eq]
    exact ⟨closing_letter hfit _, hd.loser, hd.flag _⟩

theorem completed_twice (hex : ∀ p, exited s p = true) (hr : r ≤ 7)
    (hfinal : ∀ i, ((battleLoc s .A).status i).realPlayerId ≠ r.val) :
    ∃ b₁ b₂, b₁ ≠ b₂ ∧ ∀ b, LostBy s b r ↔ b = b₁ ∨ b = b₂ := by
  obtain ⟨n, hk, hst⟩ := completed_kept h hex .A
  obtain ⟨b₁, b₂, hne, hb⟩ := lost_twice file hr fun i hi => by
    refine hfinal i ?_
    rw [hst rfl, turn_id hg, hi]
  exact ⟨b₁, b₂, hne, fun b => (lostBy_iff h hex).trans (hb b)⟩

theorem fight_rivals (hf : (battleLoc s b).pc.fights = true) :
    ((battleLoc s b).status false).realPlayerId ≠ ((battleLoc s b).status true).realPlayerId := by
  have ht := battleAt h b
  generalize battleLoc s b = l at *
  obtain ⟨pc, st, w⟩ := l
  have key : ∀ {n}, st = turn file b n → (st false).realPlayerId ≠ (st true).realPlayerId := by
    rintro n rfl
    exact turn_rivals hg b n
  cases pc with
  | write i =>
    cases i with
    | false => obtain ⟨n, -, hst, -⟩ := ht; exact key hst
    | true => obtain ⟨n, -, hst, -⟩ := ht; exact key hst
  | reread i =>
    cases i with
    | false => obtain ⟨n, -, hst, -⟩ := ht; exact key hst
    | true => obtain ⟨n, -, hst, -⟩ := ht; exact key hst
  | wait => obtain ⟨n, -, hst, -⟩ := ht; exact key hst
  | _ => cases hf

theorem handed_over : HandedOver file s where
  once k := fifo_once h k
  completed hex _ _ hb := fifo_completed h hex hb
  content _ _ hv := fifo_content h hv
  sender _ _ _ hs hne := fifo_sender h hs hne
  known q := not_stray h q
  rivals _ hf := fight_rivals h hf
  twice hex _ hr hfinal := completed_twice h hex hr hfinal

end

/-- Whatever the eight players bring, in every state of every run. -/
theorem losers_hand_over (file : List Line) (hg : GoodFile file) (s : State)
    (hr : Reachable (step file) start s) : HandedOver file s := handed_over (reachable_holds hg hr)

end

theorem losers_hand_over_statusFile : @HandedOver .int statusFile (stateAfter statusFile downToG) := by
  have h : runEvents (@step .int statusFile) start downToG = some (stateAfter statusFile downToG) := rfl
  exact @losers_hand_over .int statusFile statusFile_good _ (reachable_runEvents h)

end SysProg.Tournament
