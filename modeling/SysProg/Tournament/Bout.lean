import SysProg.Tournament.Leave

/-!
# SysProg.Tournament.Bout

A battle process from its first read to its relay loop.

* `Ready s c x`: `x` has come up to `c` and its status waits to be read.
* `read_both`, `write_both`, `reread_both`, `reply_both`: the two slots together.
* `fight_run`: the loop of a battle comes to where `fight` does.
* `bout_run`: from two entrants to the winner, who waits to be read in turn.
* `final_run`: the same for the root, where all ends.
-/

namespace SysProg.Tournament

open Kahn (Part)

variable {file : List Line} {s s' : State} {b : Battle} {x : Bool → Entrant} {st : Bool → Status}
  {w : Bool} {m : Bool → Status}

/-- What a battle leaves as it is: its pipes to and from its parent. -/
def Upward (b : Battle) (s s' : State) : Prop :=
  s'.queue (.stdin (.battle b)) = s.queue (.stdin (.battle b)) ∧
    s'.queue (.stdout (.battle b)) = s.queue (.stdout (.battle b))

theorem Upward.trans {s'' : State} (h : Upward b s s') (h' : Upward b s' s'') : Upward b s s'' :=
  ⟨h'.1.trans h.1, h'.2.trans h.2⟩

theorem forall_bool {P : Bool → Prop} (i : Bool) (h : P i) (h' : P (!i)) : ∀ j, P j := by
  intro j
  rcases Bool.eq_or_eq_not j i with rfl | rfl
  · exact h
  · exact h'

theorem update_both {α : Type} {f g : Bool → α} :
    Function.update (Function.update f false (g false)) true (g true) = g := by
  funext i
  cases i <;> rfl

theorem inside_child (b : Battle) (i : Bool) : Part.proc (.battle b) ∉ inside (child b i) ∧
    ∀ p, p = .battle b ∨ p = child b (!i) →
      Part.queue (.stdin p) ∉ inside (child b i) ∧ Part.queue (.stdout p) ∉ inside (child b i) := by
  have key : ∀ p, p = .battle b ∨ p = child b (!i) → ¬ Below (child b i) p := by
    rintro p (rfl | rfl)
    · exact not_below_child b i
    · exact fun h => not_below_sibling h .refl
  exact ⟨key _ (.inl rfl), fun p hp => ⟨key p hp, key p hp⟩⟩

theorem inside_gate (b : Battle) (i : Bool) (j : Option PlayerId) :
    Part.proc (.battle b) ∉ inside (child b i) ∪ gate j ∧ ∀ p, p = .battle b ∨ p = child b (!i) →
      Part.queue (.stdin p) ∉ inside (child b i) ∪ gate j ∧
        Part.queue (.stdout p) ∉ inside (child b i) ∪ gate j := by
  have h := inside_child b i
  exact ⟨not_or_intro h.1 id, fun p hp => ⟨not_or_intro (h.2 p hp).1 id, not_or_intro (h.2 p hp).2 id⟩⟩

theorem inner_sibling_gate (b : Battle) (i : Bool) (j : Option PlayerId) :
    ∀ r ∈ inner (child b (!i)), r ∉ inside (child b i) ∪ gate j :=
  fun r hr => not_or_intro (inner_sibling b i r hr) (inner_gate r hr)

variable [Arith]

structure Ready (s : State) (c : Proc) (x : Entrant) : Prop where
  fit : x.Fit
  idle : Idle s c x.seat x.originHP
  stdin : s.queue (.stdin c) = []
  stdout : s.queue (.stdout c) = [x.status]

/-! ## Both slots -/

theorem write_both (hl : battleLoc s b = ⟨.write false, st, w⟩)
    (hin : ∀ i, s.queue (.stdin (child b i)) = []) :
    ∃ s', Go file (own b) s s' ∧ battleLoc s' b = (⟨.write true, st, w⟩ : BattleLoc).judge ∧
      (∀ i, s'.queue (.stdin (child b i)) = [st i]) ∧
      (∀ i, s'.queue (.stdout (child b i)) = s.queue (.stdout (child b i))) ∧ Upward b s s' := by
  have hne := child_ne b
  have hne' : child b true ≠ child b false := child_not_ne b false
  obtain ⟨s₁, g₁, l₁, q₁, o₁, -⟩ := battle_send file hl rfl (parent_child b _) (.inr ⟨_, rfl⟩)
  obtain ⟨s₂, g₂, l₂, q₂, o₂, -⟩ := battle_send file l₁ rfl (parent_child b _) (.inr ⟨_, rfl⟩)
  refine ⟨s₂, g₁.trans g₂, l₂, forall_bool false ?_ ?_, fun i => ?_, ?_, ?_⟩
  · rw [o₂ (.stdin (child b false)) (by simp [hne'.symm]), q₁, hin]
    rfl
  · rw [Bool.not_false, q₂, o₁ (.stdin (child b true)) (by simp [hne']), hin]
    rfl
  · rw [o₂ (.stdout _) nofun, o₁ (.stdout _) nofun]
  · rw [o₂ (.stdin (.battle b)) (by simp [(hne _).symm]),
      o₁ (.stdin (.battle b)) (by simp [(hne _).symm])]
  · rw [o₂ (.stdout _) nofun, o₁ (.stdout _) nofun]

theorem recv_both {l : BattleLoc} {f : Status → BattleLoc} {g : Status → Status → BattleLoc}
    (hl : battleLoc s b = l) (hf : battleMain b l = .recv (.stdout (child b false)) f)
    (hg : ∀ v, battleMain b (f v) = .recv (.stdout (child b true)) (g v))
    (hout : ∀ i, s.queue (.stdout (child b i)) = [m i]) :
    ∃ s', Go file (own b) s s' ∧ battleLoc s' b = g (m false) (m true) ∧
      (∀ i, s'.queue (.stdin (child b i)) = s.queue (.stdin (child b i))) ∧
      (∀ i, s'.queue (.stdout (child b i)) = []) ∧ Upward b s s' := by
  have hne := child_ne b
  have hne' : child b true ≠ child b false := child_not_ne b false
  obtain ⟨s₁, g₁, l₁, q₁, o₁, -⟩ := battle_recv file hl hf (hout false) (parent_child b _)
    (.inr ⟨_, rfl⟩)
  have hout₁ : s₁.queue (.stdout (child b true)) = [m true] := by
    rw [o₁ (.stdout (child b true)) (by simp [hne']), hout]
  obtain ⟨s₂, g₂, l₂, q₂, o₂, -⟩ := battle_recv file l₁ (hg _) hout₁ (parent_child b _)
    (.inr ⟨_, rfl⟩)
  refine ⟨s₂, g₁.trans g₂, l₂, fun i => ?_, forall_bool false ?_ q₂, ?_, ?_⟩
  · rw [o₂ (.stdin _) nofun, o₁ (.stdin _) nofun]
  · rw [o₂ (.stdout (child b false)) (by simp [hne'.symm]), q₁]
  · rw [o₂ (.stdin _) nofun, o₁ (.stdin _) nofun]
  · rw [o₂ (.stdout (.battle b)) (by simp [(hne _).symm]),
      o₁ (.stdout (.battle b)) (by simp [(hne _).symm])]

theorem read_both (hl : battleLoc s b = ⟨.read false, st, w⟩)
    (hout : ∀ i, s.queue (.stdout (child b i)) = [m i]) :
    ∃ s', Go file (own b) s s' ∧ battleLoc s' b =
        ⟨.write false, play (attrTable b) fun i => { m i with currentBattleId := b.letter }, w⟩ ∧
      (∀ i, s'.queue (.stdin (child b i)) = s.queue (.stdin (child b i))) ∧
      (∀ i, s'.queue (.stdout (child b i)) = []) ∧ Upward b s s' := by
  obtain ⟨s', g, l, h⟩ := recv_both hl rfl (fun _ => rfl) hout
  refine ⟨s', g, l.trans ?_, h⟩
  exact congrArg (fun st => (⟨.write false, play (attrTable b) st, w⟩ : BattleLoc))
    (update_both (g := fun i => ({ m i with currentBattleId := b.letter } : Status)))

theorem reread_both (hl : battleLoc s b = ⟨.reread false, st, w⟩)
    (hout : ∀ i, s.queue (.stdout (child b i)) = [m i]) :
    ∃ s', Go file (own b) s s' ∧ battleLoc s' b = ⟨.write false, play (attrTable b) m, w⟩ ∧
      (∀ i, s'.queue (.stdin (child b i)) = s.queue (.stdin (child b i))) ∧
      (∀ i, s'.queue (.stdout (child b i)) = []) ∧ Upward b s s' := by
  obtain ⟨s', g, l, h⟩ := recv_both hl rfl (fun _ => rfl) hout
  refine ⟨s', g, l.trans ?_, h⟩
  exact congrArg (fun st => (⟨.write false, play (attrTable b) st, w⟩ : BattleLoc)) update_both

/-- The run of one subtree as the battle above it sees it. -/
theorem Go.child_frame {i : Bool} {Q : Set Part} (h : Go file Q s s')
    (hd : .proc (.battle b) ∉ Q ∧ ∀ p, p = .battle b ∨ p = child b (!i) →
      .queue (.stdin p) ∉ Q ∧ .queue (.stdout p) ∉ Q) :
    battleLoc s' b = battleLoc s b ∧ Upward b s s' ∧
      s'.queue (.stdin (child b (!i))) = s.queue (.stdin (child b (!i))) ∧
      s'.queue (.stdout (child b (!i))) = s.queue (.stdout (child b (!i))) := by
  have h₁ := hd.2 _ (.inl rfl)
  have h₂ := hd.2 _ (.inr rfl)
  exact ⟨by rw [battleLoc, h.loc _ hd.1]; rfl, ⟨h.queue _ h₁.1, h.queue _ h₁.2⟩, h.queue _ h₂.1,
    h.queue _ h₂.2⟩

/-- Each of the two is written to and answers. -/
theorem reply_both (hi : ∀ i, Idle s (child b i) (x i).seat (x i).originHP)
    (hin : ∀ i, s.queue (.stdin (child b i)) = [m i])
    (hout : ∀ i, s.queue (.stdout (child b i)) = []) (hm : ∀ i, Alive (m i)) :
    ∃ s', Go file (inside (.battle b)) s s' ∧ battleLoc s' b = battleLoc s b ∧
      (∀ i, Idle s' (child b i) (x i).seat (x i).originHP) ∧
      (∀ i, s'.queue (.stdin (child b i)) = []) ∧
      (∀ i, s'.queue (.stdout (child b i)) = [answer (x i).originHP (m i)]) ∧ Upward b s s' := by
  obtain ⟨s₁, g₁, i₁, q₁, r₁⟩ := reply (hi false) (hin false) (hout false) (hm false)
  obtain ⟨l₁, u₁, q₁', r₁'⟩ := g₁.child_frame (inside_child b false)
  have i₁' := (hi true).frame g₁ (inner_sibling b false)
  obtain ⟨s₂, g₂, i₂, q₂, r₂⟩ := reply i₁' (q₁'.trans (hin true))
    (r₁'.trans (hout true)) (hm true)
  obtain ⟨l₂, u₂, q₂', r₂'⟩ := g₂.child_frame (inside_child b true)
  refine ⟨s₂, (g₁.widen (inside_mono (below_child b _))).trans
    (g₂.widen (inside_mono (below_child b _))), l₂.trans l₁, forall_bool true i₂
      (i₁.frame g₂ (inner_sibling b true)), forall_bool true q₂ (q₂'.trans q₁),
    forall_bool true r₂ (r₂'.trans r₁), u₁.trans u₂⟩

/-! ## The fight -/

theorem fight_run {n k : Nat} (hf : Standing st) (ho : Over (attrTable b) st k) (hk : k < n)
    (hl : battleLoc s b = ⟨.write false, play (attrTable b) st, w⟩)
    (hi : ∀ i, Idle s (child b i) (x i).seat (x i).originHP)
    (hin : ∀ i, s.queue (.stdin (child b i)) = [])
    (hout : ∀ i, s.queue (.stdout (child b i)) = []) :
    ∃ s', Go file (inside (.battle b)) s s' ∧ battleLoc s' b =
        ⟨.wait, fight (attrTable b) n st, winSlot (fight (attrTable b) n st)⟩ ∧
      (∀ i, Idle s' (child b i) (x i).seat (x i).originHP) ∧
      (∀ i, s'.queue (.stdin (child b i)) = [fight (attrTable b) n st i]) ∧
      (∀ i, s'.queue (.stdout (child b i)) = []) ∧ Upward b s s' := by
  induction n generalizing s st k with
  | zero => omega
  | succ n ih =>
    obtain ⟨s₁, g₁, l₁, q₁, r₁, u₁⟩ := write_both hl hin
    have i₁ : ∀ i, Idle s₁ (child b i) (x i).seat (x i).originHP :=
      fun i => (hi i).frame g₁ (inner_own b i)
    have g₁' := g₁.widen own_subset_inside
    rw [fight]
    rcases standing_play (attrTable b) hf with hd | hd
    · rw [BattleLoc.judge, if_pos (hd.flag false)] at l₁
      rw [if_pos (hd.flag false)]
      exact ⟨s₁, g₁', l₁, i₁, q₁, fun i => (r₁ i).trans (hout i), u₁⟩
    · have hflag : ∀ i, (play (attrTable b) st i).battleEndedFlag ≠ 1 := by
        intro i
        rw [hd.flag i]
        decide
      obtain ⟨k, rfl, ho'⟩ := over_pred (hflag false) ho
      rw [BattleLoc.judge, if_neg (hflag false)] at l₁
      rw [if_neg (hflag false)]
      obtain ⟨s₂, g₂, l₂, i₂, q₂, r₂, u₂⟩ := reply_both i₁ q₁
        (fun i => (r₁ i).trans (hout i)) fun i => ⟨hd.pos i, fun h => absurd h (hflag i)⟩
      have r₂' : ∀ i, s₂.queue (.stdout (child b i)) = [play (attrTable b) st i] := by
        intro i
        rw [r₂ i, answer, if_neg (hflag i)]
      obtain ⟨s₃, g₃, l₃, q₃, r₃, u₃⟩ := reread_both (l₂.trans l₁) r₂'
      obtain ⟨s₄, g₄, l₄, i₄, q₄, r₄, u₄⟩ := ih hd ho' (by omega) l₃
        (fun i => (i₂ i).frame g₃ (inner_own b i)) (fun i => (q₃ i).trans (q₂ i)) r₃
      exact ⟨s₄, ((g₁'.trans g₂).trans (g₃.widen own_subset_inside)).trans g₄, l₄, i₄, q₄, r₄,
        ((u₁.trans u₂).trans u₃).trans u₄⟩

/-- Up to the end of the fight. -/
theorem closing_run (hx : ∀ i, Ready s (child b i) (x i)) (hl : battleLoc s b = ⟨.read false, st, w⟩) :
    ∃ s', Go file (inside (.battle b)) s s' ∧ battleLoc s' b =
        ⟨.wait, closing b x, winSlot (closing b x)⟩ ∧
      (∀ i, Idle s' (child b i) (x i).seat (x i).originHP) ∧
      (∀ i, s'.queue (.stdin (child b i)) = [closing b x i]) ∧
      (∀ i, s'.queue (.stdout (child b i)) = []) ∧ Upward b s s' := by
  have hf := standing_opening (b := b) fun i => (hx i).fit
  obtain ⟨k, hk, ho⟩ := standing_over (attrTable b) hf
  obtain ⟨s₁, g₁, l₁, q₁, r₁, u₁⟩ := read_both hl fun i => (hx i).stdout
  obtain ⟨s₂, g₂, l₂, i₂, q₂, r₂, u₂⟩ := fight_run hf ho (Nat.lt_succ_of_le hk) l₁
    (fun i => (hx i).idle.frame g₁ (inner_own b i)) (fun i => (q₁ i).trans (hx i).stdin) r₁
  exact ⟨s₂, (g₁.widen own_subset_inside).trans g₂, l₂, i₂, q₂, r₂, u₁.trans u₂⟩

/-! ## After the fight -/

omit [Arith] in
theorem letter_ne (hb : b ≠ .A) : b.letter ≠ 'A' := by
  cases b <;> first | exact absurd rfl hb | decide

/-- One side leaves; the battle and the other side stay as they are. -/
theorem leave_side {i : Bool} (hi : ∀ i, Idle s (child b i) (x i).seat (x i).originHP)
    (hin : ∀ i, s.queue (.stdin (child b i)) = [m i])
    (hout : ∀ i, s.queue (.stdout (child b i)) = []) (hm : Final (m i))
    (hs : handsOver (m i) (x i).seat → heir (m i) (x i).seat ≠ none)
    (ha : ∀ j, heir (m i) (x i).seat = some j → Awaits file s j (x i).seat) :
    ∃ s', Go file (inside (child b i) ∪ gate (heir (m i) (x i).seat)) s s' ∧
      battleLoc s' b = battleLoc s b ∧ Gone s' (child b i) ∧
      Idle s' (child b (!i)) (x (!i)).seat (x (!i)).originHP ∧
      s'.queue (.stdin (child b (!i))) = [m (!i)] ∧ s'.queue (.stdout (child b (!i))) = [] ∧
      Upward b s s' ∧
      ∀ j, heir (m i) (x i).seat = some j → Handed s' j (legacy (m i) (x i).originHP) := by
  obtain ⟨s', g, hg, hh⟩ := leave (hi i) (child_ne_root b i) (hin i) hm hs ha
  obtain ⟨l, u, q, r⟩ := g.child_frame (inside_gate b i _)
  exact ⟨s', g, l, hg, (hi _).frame g (inner_sibling_gate b i _), q.trans (hin _), r.trans (hout _), u,
    hh⟩

/-- The winner's answer comes up. -/
theorem promote_run {k : PlayerId} {o : Int} (hb : b ≠ .A) (hl : battleLoc s b = ⟨.wait, st, w⟩)
    (hg : Gone s (child b (!w))) (hi : Idle s (child b w) k o)
    (hcin : s.queue (.stdin (child b w)) = [st w]) (hcout : s.queue (.stdout (child b w)) = [])
    (hin : s.queue (.stdin (.battle b)) = []) (hout : s.queue (.stdout (.battle b)) = [])
    (hv : Alive (st w)) :
    ∃ s', Go file (inside (.battle b)) s s' ∧ Idle s' (.battle b) k o ∧
      s'.queue (.stdin (.battle b)) = [] ∧ s'.queue (.stdout (.battle b)) = [answer o (st w)] := by
  have hne := child_ne b w
  have hex : ∃ f ∈ [Flag.exited (child b false), .exited (child b true)], s.up f = true := by
    refine ⟨_, ?_, hg.1⟩
    cases w <;> simp
  obtain ⟨s₁, g₁, l₁, q₁, -⟩ := battle_await file (Q := own b) hl rfl (by simpa using hex) rfl
  rw [if_neg hb] at l₁
  obtain ⟨s₂, g₂, i₂, q₂, r₂⟩ := reply (hi.frame g₁ (inner_own b w))
    (by rw [q₁]; exact hcin) (by rw [q₁]; exact hcout) hv
  obtain ⟨l₂, u₂, -⟩ := g₂.child_frame (inside_child b w)
  obtain ⟨s₃, g₃, l₃, q₃, o₃, -⟩ := battle_recv file (l₂.trans l₁) rfl r₂ (parent_child b w)
    (.inr ⟨w, rfl⟩)
  obtain ⟨s₄, g₄, l₄, q₄, o₄, -⟩ := battle_send file l₃ rfl rfl (.inl rfl)
  have hg₄ := (((hg.frame g₁ (inner_own b _)).frame g₂ (inner_sibling b w)).frame g₃
    (inner_own b _)).frame g₄ (inner_own b _)
  refine ⟨s₄, (((g₁.widen own_subset_inside).trans (g₂.widen (inside_mono (below_child b w)))).trans
    (g₃.widen own_subset_inside)).trans (g₄.widen own_subset_inside),
    .battle b _ w k o l₄ ?_ ?_ ((i₂.frame g₃ (inner_own b w)).frame g₄ (inner_own b w)) hg₄, ?_, ?_⟩
  · rw [o₄ (.stdin _) nofun, o₃ (.stdin _) nofun, q₂]
  · rw [o₄ (.stdout (child b w)) (by simp [hne]), q₃]
  · rw [o₄ (.stdin _) nofun, o₃ (.stdin _) nofun, u₂.1, q₁, hin]
  · rw [q₄, o₃ (.stdout (.battle b)) (by simp [hne.symm]), u₂.2, q₁, hout]
    simp [BattleLoc.store]

theorem bout_run (hb : b ≠ .A) (hx : ∀ i, Ready s (child b i) (x i))
    (hl : battleLoc s b = ⟨.read false, st, w⟩) (hin : s.queue (.stdin (.battle b)) = [])
    (hout : s.queue (.stdout (.battle b)) = [])
    (hs : handsOver (bout b x).loser.status (bout b x).loser.seat →
      heir (bout b x).loser.status (bout b x).loser.seat ≠ none)
    (ha : ∀ j, heir (bout b x).loser.status (bout b x).loser.seat = some j →
      Awaits file s j (bout b x).loser.seat) :
    ∃ s', Go file (inside (.battle b) ∪ gate (heir (bout b x).loser.status (bout b x).loser.seat)) s s' ∧
      Ready s' (.battle b) (bout b x).winner ∧
      ∀ j, heir (bout b x).loser.status (bout b x).loser.seat = some j →
        Handed s' j (reenter j (bout b x).loser).status := by
  have hfit := fun i => (hx i).fit
  have hd := closing_decided (b := b) hfit
  obtain ⟨s₁, g₁, l₁, i₁, q₁, r₁, u₁⟩ := closing_run hx hl
  obtain ⟨s₂, g₂, l₂, h₂, i₂, q₂, r₂, u₂, hh₂⟩ := leave_side
    (i := !winSlot (closing b x)) i₁ q₁ r₁ ⟨hd.flag _, .inl hd.loser⟩ hs
    fun j hj => (ha j hj).frame g₁ id
  rw [Bool.not_not] at i₂ q₂ r₂
  have hv : Alive (closing b x (winSlot (closing b x))) :=
    ⟨hd.winner, fun _ => by rw [closing_letter hfit]; exact letter_ne hb⟩
  obtain ⟨s₃, g₃, i₃, q₃, r₃⟩ := promote_run hb (l₂.trans l₁) h₂ i₂ q₂ r₂
    ((u₁.trans u₂).1.trans hin) ((u₁.trans u₂).2.trans hout) hv
  rw [answer, if_pos (hd.flag _)] at r₃
  refine ⟨s₃, ((g₁.widen Set.subset_union_left).trans (g₂.widen ?_)).trans
    (g₃.widen Set.subset_union_left), ⟨fit_winner hfit, i₃, q₃, r₃⟩,
    fun j hj => (hh₂ j hj).frame g₃ id⟩
  exact Set.union_subset_union_left _ (inside_mono (below_child b _))

/-! ## The final -/

omit [Arith] in
theorem heir_final {v : Status} {k : PlayerId} (hv : v.currentBattleId = 'A') :
    ¬ handsOver v k ∧ heir v k = none := by
  have h : ¬ handsOver v k := fun h => h.2.1 hv
  exact ⟨h, if_neg h⟩

omit [Arith] in
theorem gate_none : gate none = ∅ := by
  ext r
  constructor
  · intro h
    match r with
    | .queue (.fifo i) => cases h
    | .flag (.writing i) => cases h
  · exact False.elim

theorem final_run (hx : ∀ i, Ready s (child .A i) (x i)) (hl : battleLoc s .A = ⟨.read false, st, w⟩) :
    ∃ s', Go file (inside (.battle .A) ∪ {.flag (.champion (bout .A x).winner.status.realPlayerId)}) s s' ∧
      (∀ p, exited s' p = true) ∧
      s'.up (.champion (bout .A x).winner.status.realPlayerId) = true := by
  have hfit := fun i => (hx i).fit
  have hd := closing_decided (b := .A) hfit
  have hA : ∀ i, (closing .A x i).currentBattleId = 'A' := fun i => closing_letter hfit i
  have hfin : ∀ i, Final (closing .A x i) := fun i => ⟨hd.flag i, .inr (hA i)⟩
  have hn := fun i k => heir_final (k := k) (hA i)
  obtain ⟨s₁, g₁, l₁, i₁, q₁, r₁, -⟩ := closing_run hx hl
  obtain ⟨s₂, g₂, l₂, h₂, i₂, q₂, -⟩ := leave_side (i := false) i₁ q₁ r₁ (hfin _)
    (fun h => absurd h (hn _ _).1) fun j hj => by rw [(hn _ _).2] at hj; cases hj
  obtain ⟨s₃, g₃, h₃, -⟩ := leave i₂ (child_ne_root _ _) q₂ (hfin _)
    (fun h => absurd h (hn _ _).1) fun j hj => by rw [(hn _ _).2] at hj; cases hj
  rw [(hn _ _).2, gate_none, Set.union_empty] at g₂ g₃
  have hall : ∀ i, Gone s₃ (child .A i) :=
    forall_bool true h₃ (h₂.frame g₃ (inner_sibling .A true))
  have l₃ := (g₃.child_frame (inside_child .A true)).1.trans (l₂.trans l₁)
  obtain ⟨s₄, g₄, l₄, -⟩ := battle_await file (Q := own .A) l₃ rfl
    (by simpa using .inl (hall false).1) rfl
  obtain ⟨s₅, g₅, l₅, -⟩ := battle_await file (Q := own .A) l₄ rfl
    (by simpa using ⟨g₄.mono _ (hall false).1, g₄.mono _ (hall true).1⟩) rfl
  let c : Set Part := {.flag (.champion (bout .A x).winner.status.realPlayerId)}
  obtain ⟨s₆, g₆, l₆, -, u₆⟩ := battle_raise file (Q := own .A ∪ c) l₅ rfl (.inl rfl) (.inr rfl)
  obtain ⟨s₇, g₇, l₇, -, -⟩ := battle_raise file (Q := own .A) l₆ rfl rfl rfl
  have hsub : inside (.battle .A) ⊆ inside (.battle .A) ∪ c := Set.subset_union_left
  have hown : own .A ⊆ inside (.battle .A) ∪ c := own_subset_inside.trans hsub
  have hin : ∀ i, inside (child .A i) ⊆ inside (.battle .A) ∪ c :=
    fun i => (inside_mono (below_child .A i)).trans hsub
  have g := ((((g₁.widen hsub).trans (g₂.widen (hin _))).trans (g₃.widen (hin _))).trans
    (g₄.widen hown)).trans (g₅.widen hown)
  refine ⟨s₇, (g.trans (g₆.widen (Set.union_subset_union_left _ own_subset_inside))).trans
    (g₇.widen hown), fun p => ?_, g₇.mono _ u₆⟩
  have hinner : ∀ i, ∀ r ∈ inner (child .A i), r ∉ own .A ∪ c := by
    rintro i r hr (hr' | rfl)
    · exact inner_own .A i r hr hr'
    · exact hr
  rcases below_battle_cases (below_root p) with rfl | ⟨i, hp⟩
  · rw [exited, l₇]
    rfl
  · have h₅ := ((hall i).frame g₄ (inner_own .A i)).frame g₅ (inner_own .A i)
    exact ((h₅.frame g₆ (hinner i)).frame g₇ (inner_own .A i)).2 p hp

end SysProg.Tournament
