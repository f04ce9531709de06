import SysProg.Tournament.Relay

/-!
# SysProg.Tournament.Leave

The end of a subtree: the last status goes down to the player, the player leaves, and the battles
above it leave after it.

* `Final`: a status that ends the player's part.
* `heir`, `legacy`: the agent the player writes to before it leaves, and what it writes.
* `leave`: after a final status all processes of the subtree exit.
-/

namespace SysProg.Tournament

open Kahn (Part)

variable [Arith]

variable {file : List Line} {s s' : State} {b : Battle} {c : Proc} {k : PlayerId} {o : Int}
  {v : Status} {j : Option PlayerId}

/-- It ends the part of the player who gets it. -/
def Final (v : Status) : Prop := v.battleEndedFlag = 1 ∧ (v.HP ≤ 0 ∨ v.currentBattleId = 'A')

def handsOver (v : Status) (k : PlayerId) : Prop := v.HP ≤ 0 ∧ v.currentBattleId ≠ 'A' ∧ k ≤ 7

instance : Decidable (handsOver v k) := inferInstanceAs (Decidable (_ ∧ _ ∧ _))

/-- The agent to write to after the last status `v`. -/
def heir (v : Status) (k : PlayerId) : Option PlayerId :=
  if handsOver v k then whichAgent v.currentBattleId else none

/-- What is written to the agent. -/
def legacy (v : Status) (o : Int) : Status := { v with HP := o, battleEndedFlag := 0 }

/-- What the hand-over changes outside the subtree. -/
def gate (j : Option PlayerId) : Set Part
  | .queue (.fifo i) => j = some i
  | .flag (.writing i) => j = some i
  | _ => False

/-- Agent `i` has opened its FIFO and waits for player `k`. -/
structure Awaits (file : List Line) (s : State) (i k : PlayerId) : Prop where
  made : s.up (.made i) = true
  reading : s.up (.reading i) = true
  empty : s.queue (.fifo i) = []
  sender : snd file (.fifo i) = .player k

structure Handed (s : State) (i : PlayerId) (v : Status) : Prop where
  writing : s.up (.writing i) = true
  fifo : s.queue (.fifo i) = [v]

theorem Awaits.frame {i : PlayerId} {Q : Set Part} (h : Go file Q s s')
    (hq : .queue (.fifo i) ∉ Q) (ha : Awaits file s i k) : Awaits file s' i k where
  made := h.mono _ ha.made
  reading := h.mono _ ha.reading
  empty := by rw [h.queue _ hq]; exact ha.empty
  sender := ha.sender

theorem Handed.frame {i : PlayerId} {Q : Set Part} (h : Go file Q s s')
    (hq : .queue (.fifo i) ∉ Q) (ha : Handed s i v) : Handed s' i v where
  writing := h.mono _ ha.writing
  fifo := by rw [h.queue _ hq]; exact ha.fifo

omit [Arith] in
theorem inner_gate : ∀ r ∈ inner c, r ∉ gate j := by
  intro r hr hr'
  match r with
  | .proc p => exact hr'
  | .queue (.stdin p) => exact hr'
  | .queue (.stdout p) => exact hr'

/-! ## The player -/

theorem received_none {l : PlayerLoc} (hv : Final l.mystatus) (hk : heir l.mystatus k = none)
    (hs : handsOver l.mystatus k → heir l.mystatus k ≠ none) :
    l.received k = { l with pc := .exit } := by
  have hn : ¬ handsOver l.mystatus k := fun h => hs h hk
  rw [PlayerLoc.received, if_pos hv.1]
  split
  · rename_i h0
    rw [PlayerLoc.leave, if_neg]
    exact fun h => hn ⟨h0, h⟩
  · rename_i h0
    rw [if_pos (hv.2.resolve_left h0)]

theorem received_some {l : PlayerLoc} {i : PlayerId} (hv : Final l.mystatus)
    (hk : heir l.mystatus k = some i) :
    l.received k = { l with mystatus := legacy l.mystatus l.originHP, pc := .openWrite i } := by
  rw [heir] at hk
  split at hk
  · rename_i hn
    rw [PlayerLoc.received, if_pos hv.1, if_pos hn.1, PlayerLoc.leave, if_pos hn.2, hk]
    rfl
  · cases hk

theorem player_gone {m : Status} {Q : Set Part} (hl : playerLoc s k = ⟨.exit, m, o⟩)
    (hQ : inside (.player k) ⊆ Q) : ∃ s', Go file Q s s' ∧ Gone s' (.player k) ∧ s'.queue = s.queue := by
  obtain ⟨s₁, g₁, l₁, q₁, u₁⟩ := player_raise file (Q := Q) hl rfl (hQ .refl) (hQ .refl)
  refine ⟨s₁, g₁, ⟨u₁, fun p hp => ?_⟩, q₁⟩
  rw [below_player hp, exited, l₁]
  rfl

theorem player_leave {m : Status} (hl : playerLoc s k = ⟨.read, m, o⟩)
    (hin : s.queue (.stdin (.player k)) = [v]) (hv : Final v)
    (hs : handsOver v k → heir v k ≠ none) (ha : ∀ i, heir v k = some i → Awaits file s i k) :
    ∃ s', Go file (inside (.player k) ∪ gate (heir v k)) s s' ∧ Gone s' (.player k) ∧
      ∀ i, heir v k = some i → Handed s' i (legacy v o) := by
  generalize hQ : inside (.player k) ∪ gate (heir v k) = Q
  have hsub : inside (.player k) ⊆ Q := by rw [← hQ]; exact Set.subset_union_left
  have hgate : gate (heir v k) ⊆ Q := by rw [← hQ]; exact Set.subset_union_right
  have hk : .proc (.player k) ∈ Q := hsub .refl
  obtain ⟨s₁, g₁, l₁, q₁, o₁, -⟩ := player_recv file (Q := Q) hl rfl hin rfl hk (hsub .refl)
  cases hj : heir v k with
  | none =>
    rw [received_none (by exact hv) (by exact hj) (by exact hs)] at l₁
    obtain ⟨s₂, g₂, h₂, -⟩ := player_gone l₁ hsub
    exact ⟨s₂, g₁.trans g₂, h₂, nofun⟩
  | some i =>
    have ha := ha i hj
    rw [hj] at hgate
    rw [received_some (by exact hv) (by exact hj)] at l₁
    obtain ⟨s₂, g₂, l₂, q₂, -⟩ := player_await file (Q := Q) l₁ rfl
      (by simpa using g₁.mono _ ha.made) hk
    obtain ⟨s₃, g₃, l₃, q₃, u₃⟩ := player_raise file (Q := Q) l₂ rfl hk (hgate rfl)
    have g := (g₁.trans g₂).trans g₃
    obtain ⟨s₄, g₄, l₄, q₄, -⟩ := player_await file (Q := Q) l₃ rfl
      (by simpa using g.mono _ ha.reading) hk
    obtain ⟨s₅, g₅, l₅, q₅, -⟩ := player_send file (Q := Q) l₄ rfl ha.sender hk (hgate rfl)
    obtain ⟨s₆, g₆, h₆, q₆⟩ := player_gone l₅ hsub
    refine ⟨s₆, ((g.trans g₄).trans g₅).trans g₆, h₆, ?_⟩
    rintro _ ⟨⟩
    constructor
    · exact g₆.mono _ (g₅.mono _ (g₄.mono _ u₃))
    · rw [q₆, q₅, q₄, q₃, q₂, o₁ (.fifo i) nofun, ha.empty]
      rfl

/-! ## The battles above -/

omit [Arith] in
theorem relayed_final {l : BattleLoc} (hv : Final (l.status l.win)) :
    l.relayed = { l with pc := .waitLast } := by
  rw [BattleLoc.relayed, if_pos]
  exact hv.2.imp_right fun h => ⟨h, hv.1⟩

/-- Both children have exited. -/
theorem battle_gone {st : Bool → Status} {w : Bool} (hb : b ≠ .A)
    (hl : battleLoc s b = ⟨.waitLast, st, w⟩) (hg : ∀ i, Gone s (child b i)) :
    ∃ s', Go file (own b) s s' ∧ Gone s' (.battle b) := by
  obtain ⟨s₁, g₁, l₁, q₁, u₁⟩ := battle_await file (Q := own b) hl rfl
    (by simpa using ⟨(hg false).1, (hg true).1⟩) rfl
  rw [if_neg hb] at l₁
  obtain ⟨s₂, g₂, l₂, q₂, u₂⟩ := battle_raise file (Q := own b) l₁ rfl rfl rfl
  refine ⟨s₂, g₁.trans g₂, u₂, fun p hp => ?_⟩
  rcases below_battle_cases hp with rfl | ⟨i, hp⟩
  · rw [exited, l₂]
    rfl
  · exact (((hg i).frame g₁ (inner_own b i)).frame g₂ (inner_own b i)).2 p hp

omit [Arith] in
theorem child_ne_root (b : Battle) (i : Bool) : child b i ≠ .battle .A := by
  intro h
  have := slot_child b i
  rw [h] at this
  cases this

/-- After its last status nobody is left below `c`. -/
theorem leave (h : Idle s c k o) (hc : c ≠ .battle .A) (hin : s.queue (.stdin c) = [v])
    (hv : Final v) (hs : handsOver v k → heir v k ≠ none)
    (ha : ∀ i, heir v k = some i → Awaits file s i k) :
    ∃ s', Go file (inside c ∪ gate (heir v k)) s s' ∧ Gone s' c ∧
      ∀ i, heir v k = some i → Handed s' i (legacy v o) := by
  induction c using tree_induction generalizing s with
  | player j =>
    cases h with
    | player _ m _ hl => exact player_leave hl hin hv hs ha
  | battle b ih =>
    cases h with
    | battle _ st w _ _ hl hcin hcout hi hg =>
    have hne := child_ne b w
    obtain ⟨s₁, g₁, (l₁ : battleLoc s₁ b = ⟨.relayWrite, Function.update st w v, w⟩), q₁, o₁, -⟩ :=
      battle_recv file hl rfl hin rfl (.inl rfl)
    obtain ⟨s₂, g₂, l₂, q₂, o₂, -⟩ :=
      battle_send file l₁ rfl (parent_child b w) (.inr ⟨w, rfl⟩)
    rw [o₁ (.stdin (child b w)) (by simp [hne]), hcin] at q₂
    rw [relayed_final (by simp [hv])] at l₂
    obtain ⟨s₃, g₃, h₃, hh₃⟩ := ih w
      ((hi.frame g₁ (inner_own b w)).frame g₂ (inner_own b w)) (child_ne_root b w)
      (by rw [q₂]; simp) fun i hi => ((ha i hi).frame g₁ id).frame g₂ id
    have l₃ : battleLoc s₃ b = ⟨.waitLast, Function.update st w v, w⟩ := by
      rw [battleLoc, g₃.loc _ (not_or_intro (not_below_child b w) id)]
      exact l₂
    have hg₃ : Gone s₃ (child b (!w)) := by
      refine ((hg.frame g₁ (inner_own b _)).frame g₂ (inner_own b _)).frame g₃ fun r hr => ?_
      rintro (hr' | hr')
      · exact inner_sibling b w r hr hr'
      · exact inner_gate r hr hr'
    have hall : ∀ i, Gone s₃ (child b i) := by
      intro i
      rcases Bool.eq_or_eq_not i w with rfl | rfl
      · exact h₃
      · exact hg₃
    obtain ⟨s₄, g₄, h₄⟩ := battle_gone (by rintro rfl; exact hc rfl) l₃ hall
    have hs₁ : own b ⊆ inside (.battle b) ∪ gate (heir v k) :=
      own_subset_inside.trans Set.subset_union_left
    have hs₂ : inside (child b w) ∪ gate (heir v k) ⊆ inside (.battle b) ∪ gate (heir v k) :=
      Set.union_subset_union_left _ (inside_mono (below_child b w))
    exact ⟨s₄, (((g₁.trans g₂).widen hs₁).trans (g₃.widen hs₂)).trans (g₄.widen hs₁), h₄,
      fun i hi => (hh₃ i hi).frame g₄ id⟩

end SysProg.Tournament
