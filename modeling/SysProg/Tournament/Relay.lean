import SysProg.Tournament.Tree

/-!
# SysProg.Tournament.Relay

A battle that is over passes on what its parent and its winner write to each other.

* `Idle s c k o`: below `c` all is relayed to player `k`, who waits for the next status; `o` is the
  full HP it has.
* `Gone s c`: the processes below `c` have exited.
* `reply`: a status that does not end the player's part is answered, by the status itself or, when
  the battle has ended, by the winner healed.
-/

namespace SysProg.Tournament

open Kahn (Part)

/-! ## Membership in the parts -/

section

variable {b : Battle} {c p : Proc}

@[simp] theorem proc_mem_inside : Part.proc p ∈ inside c ↔ Below c p := Iff.rfl
@[simp] theorem stdin_mem_inside : Part.queue (.stdin p) ∈ inside c ↔ Below c p := Iff.rfl
@[simp] theorem stdout_mem_inside : Part.queue (.stdout p) ∈ inside c ↔ Below c p := Iff.rfl
@[simp] theorem exited_mem_inside : Part.flag (.exited p) ∈ inside c ↔ Below c p := Iff.rfl

@[simp] theorem proc_mem_own : Part.proc p ∈ own b ↔ p = .battle b := Iff.rfl
@[simp] theorem stdin_mem_own :
    Part.queue (.stdin p) ∈ own b ↔ p = .battle b ∨ ∃ i, p = child b i := Iff.rfl
@[simp] theorem stdout_mem_own :
    Part.queue (.stdout p) ∈ own b ↔ p = .battle b ∨ ∃ i, p = child b i := Iff.rfl

theorem inside_mono {d : Proc} (h : Below c d) : inside d ⊆ inside c := by
  intro r hr
  match r with
  | .proc p => exact h.trans hr
  | .queue (.stdin p) => exact h.trans hr
  | .queue (.stdout p) => exact h.trans hr
  | .flag (.forked p) => exact h.trans hr
  | .flag (.exited p) => exact h.trans hr

theorem own_subset_inside : own b ⊆ inside (.battle b) := by
  have key : ∀ p, p = .battle b ∨ (∃ i, p = child b i) → Below (.battle b) p := by
    rintro p (rfl | ⟨i, rfl⟩)
    · exact .refl
    · exact below_child b i
  intro r hr
  match r with
  | .proc p => exact key p (.inl hr)
  | .queue (.stdin p) => exact key p hr
  | .queue (.stdout p) => exact key p hr
  | .flag (.forked p) => exact key p (.inr hr)
  | .flag (.exited p) => exact key p (.inl hr)

theorem inner_own (b : Battle) (i : Bool) : ∀ r ∈ inner (child b i), r ∉ own b := by
  have key : ∀ p, Below (child b i) p → p ≠ child b i → ¬ (p = .battle b ∨ ∃ j, p = child b j) := by
    rintro p hp hne (rfl | ⟨j, rfl⟩)
    · exact not_below_child b i hp
    · rcases Below.child_iff.1 hp with h | h
      · exact hne h.symm
      · exact not_below_child b i h
  intro r hr hr'
  match r with
  | .proc p =>
    cases hr'
    exact not_below_child b i hr
  | .queue (.stdin p) => exact key p hr.1 hr.2 hr'
  | .queue (.stdout p) => exact key p hr.1 hr.2 hr'

theorem inner_sibling (b : Battle) (i : Bool) : ∀ r ∈ inner (child b (!i)), r ∉ inside (child b i) := by
  intro r hr hr'
  match r with
  | .proc p => exact not_below_sibling hr' hr
  | .queue (.stdin p) => exact not_below_sibling hr' hr.1
  | .queue (.stdout p) => exact not_below_sibling hr' hr.1

theorem inner_mono (b : Battle) (i : Bool) : inner (child b i) ⊆ inner (.battle b) := by
  have key : ∀ p, Below (child b i) p → Below (.battle b) p ∧ p ≠ .battle b := by
    intro p hp
    refine ⟨(below_child b i).trans hp, ?_⟩
    rintro rfl
    exact not_below_child b i hp
  intro r hr
  match r with
  | .proc p => exact (key p hr).1
  | .queue (.stdin p) => exact key p hr.1
  | .queue (.stdout p) => exact key p hr.1

end

/-! ## What is left of a subtree -/

def Gone (s : State) (c : Proc) : Prop :=
  s.up (.exited c) = true ∧ ∀ p, Below c p → exited s p = true

inductive Idle (s : State) : Proc → PlayerId → Int → Prop where
  | player (k : PlayerId) (m : Status) (o : Int) : playerLoc s k = ⟨.read, m, o⟩ →
      Idle s (.player k) k o
  | battle (b : Battle) (st : Bool → Status) (w : Bool) (k : PlayerId) (o : Int) :
      battleLoc s b = ⟨.relayDown, st, w⟩ → s.queue (.stdin (child b w)) = [] →
      s.queue (.stdout (child b w)) = [] → Idle s (child b w) k o →
      Gone s (child b (!w)) → Idle s (.battle b) k o

variable {file : List Line} {s s' : State} {c : Proc} {k : PlayerId} {o : Int} {Q : Set Part}

theorem exited_congr {p : Proc} (h : s'.loc p = s.loc p) : exited s' p = exited s p := by
  cases p with
  | battle b => rw [exited, battleLoc, h]; rfl
  | player k => rw [exited, playerLoc, h]; rfl

theorem Idle.below_player (h : Idle s c k o) : Below c (.player k) := by
  induction h with
  | player k m o _ => exact .refl
  | battle b st w k o _ _ _ _ _ ih => exact (below_child b w).trans ih

variable [Arith]

section

variable (h : Go file Q s s')

include h

theorem Gone.frame (hd : ∀ r ∈ inner c, r ∉ Q) (hg : Gone s c) : Gone s' c := by
  refine ⟨h.mono _ hg.1, fun p hp => ?_⟩
  rw [exited_congr (h.loc p (hd (.proc p) hp))]
  exact hg.2 p hp

theorem Idle.frame (hd : ∀ r ∈ inner c, r ∉ Q) (hi : Idle s c k o) : Idle s' c k o := by
  induction hi with
  | player k m o hl =>
    refine .player k m o ?_
    rw [playerLoc, h.loc _ (hd (.proc _) .refl)]
    exact hl
  | battle b st w k o hl hin hout _ hg ih =>
    have hdi : ∀ i, ∀ r ∈ inner (child b i), r ∉ Q := fun i r hr => hd r (inner_mono b i hr)
    have hb := below_child b w
    refine .battle b st w k o ?_ ?_ ?_ (ih (hdi _)) (hg.frame h (hdi _))
    · rw [battleLoc, h.loc _ (hd (.proc _) .refl)]
      exact hl
    · rw [h.queue _ (hd (.queue (.stdin _)) ⟨hb, child_ne b _⟩)]
      exact hin
    · rw [h.queue _ (hd (.queue (.stdout _)) ⟨hb, child_ne b _⟩)]
      exact hout

end

/-! ## Steps of a battle -/

section

variable (file) {b : Battle} {l l' : BattleLoc} {ch : Chan} {v : Status} {vs : List Status}
  {f : Status → BattleLoc} {need : List (List Flag)} {fl : Flag}

theorem battle_send (hl : battleLoc s b = l) (ha : battleMain b l = .send ch v l')
    (hc : snd file ch = .battle b) (hQ : .queue ch ∈ own b) :
    ∃ s', Go file (own b) s s' ∧ battleLoc s' b = l' ∧ s'.queue ch = s.queue ch ++ [v] ∧
      (∀ c, c ≠ ch → s'.queue c = s.queue c) ∧ s'.up = s.up := by
  have hp : prog file (.battle b) (s.loc (.battle b)) = .send ch v l' := by rw [← ha, ← hl]; rfl
  exact Kahn.Go.send hp hc rfl hQ

theorem battle_recv (hl : battleLoc s b = l) (ha : battleMain b l = .recv ch f)
    (hv : s.queue ch = v :: vs) (hc : rcv ch = .battle b) (hQ : .queue ch ∈ own b) :
    ∃ s', Go file (own b) s s' ∧ battleLoc s' b = f v ∧ s'.queue ch = vs ∧
      (∀ c, c ≠ ch → s'.queue c = s.queue c) ∧ s'.up = s.up := by
  have hp : prog file (.battle b) (s.loc (.battle b)) = .recv ch f := by rw [← ha, ← hl]; rfl
  exact Kahn.Go.recv hp hv hc rfl hQ

theorem battle_await (hl : battleLoc s b = l) (ha : battleMain b l = .await need l')
    (hn : ∀ fs ∈ need, ∃ f ∈ fs, s.up f = true) (hb : .proc (.battle b) ∈ Q) :
    ∃ s', Go file Q s s' ∧ battleLoc s' b = l' ∧ s'.queue = s.queue ∧ s'.up = s.up := by
  have hp : prog file (.battle b) (s.loc (.battle b)) = .await need l' := by rw [← ha, ← hl]; rfl
  exact Kahn.Go.await hp hn hb

theorem battle_raise (hl : battleLoc s b = l) (ha : battleMain b l = .raise fl l')
    (hb : .proc (.battle b) ∈ Q) (hf : .flag fl ∈ Q) :
    ∃ s', Go file Q s s' ∧ battleLoc s' b = l' ∧ s'.queue = s.queue ∧ s'.up fl = true := by
  have hp : prog file (.battle b) (s.loc (.battle b)) = .raise fl l' := by rw [← ha, ← hl]; rfl
  exact Kahn.Go.raise hp hb hf

end

/-! ## Steps of a player -/

section

variable (file) {l l' : PlayerLoc} {ch : Chan} {v : Status} {vs : List Status} {f : Status → PlayerLoc}
  {need : List (List Flag)} {fl : Flag}

theorem player_send (hl : playerLoc s k = l) (ha : playerMain file k l = .send ch v l')
    (hc : snd file ch = .player k) (hk : .proc (.player k) ∈ Q) (hQ : .queue ch ∈ Q) :
    ∃ s', Go file Q s s' ∧ playerLoc s' k = l' ∧ s'.queue ch = s.queue ch ++ [v] ∧
      (∀ c, c ≠ ch → s'.queue c = s.queue c) ∧ s'.up = s.up := by
  have hp : prog file (.player k) (s.loc (.player k)) = .send ch v l' := by rw [← ha, ← hl]; rfl
  exact Kahn.Go.send hp hc hk hQ

theorem player_recv (hl : playerLoc s k = l) (ha : playerMain file k l = .recv ch f)
    (hv : s.queue ch = v :: vs) (hc : rcv ch = .player k) (hk : .proc (.player k) ∈ Q)
    (hQ : .queue ch ∈ Q) :
    ∃ s', Go file Q s s' ∧ playerLoc s' k = f v ∧ s'.queue ch = vs ∧
      (∀ c, c ≠ ch → s'.queue c = s.queue c) ∧ s'.up = s.up := by
  have hp : prog file (.player k) (s.loc (.player k)) = .recv ch f := by rw [← ha, ← hl]; rfl
  exact Kahn.Go.recv hp hv hc hk hQ

theorem player_await (hl : playerLoc s k = l) (ha : playerMain file k l = .await need l')
    (hn : ∀ fs ∈ need, ∃ f ∈ fs, s.up f = true) (hk : .proc (.player k) ∈ Q) :
    ∃ s', Go file Q s s' ∧ playerLoc s' k = l' ∧ s'.queue = s.queue ∧ s'.up = s.up := by
  have hp : prog file (.player k) (s.loc (.player k)) = .await need l' := by rw [← ha, ← hl]; rfl
  exact Kahn.Go.await hp hn hk

theorem player_raise (hl : playerLoc s k = l) (ha : playerMain file k l = .raise fl l')
    (hk : .proc (.player k) ∈ Q) (hf : .flag fl ∈ Q) :
    ∃ s', Go file Q s s' ∧ playerLoc s' k = l' ∧ s'.queue = s.queue ∧ s'.up fl = true := by
  have hp : prog file (.player k) (s.loc (.player k)) = .raise fl l' := by rw [← ha, ← hl]; rfl
  exact Kahn.Go.raise hp hk hf

end

/-! ## Answers -/

/-- It does not end the part of the player who gets it. -/
def Alive (v : Status) : Prop := 0 < v.HP ∧ (v.battleEndedFlag = 1 → v.currentBattleId ≠ 'A')

def answer (o : Int) (v : Status) : Status := if v.battleEndedFlag = 1 then v.heal o else v

theorem received_alive {l : PlayerLoc} (hv : Alive l.mystatus) : l.received k =
    { l with mystatus := answer l.originHP l.mystatus, pc := .write } := by
  simp only [PlayerLoc.received, answer]
  split
  · rename_i hf
    have := hv.1
    rw [if_neg (by omega), if_neg (hv.2 hf)]
  · rfl

omit [Arith] in
theorem relayed_alive {l : BattleLoc} (hv : Alive (l.status l.win)) :
    l.relayed = { l with pc := .relayRead } := by
  rw [BattleLoc.relayed, if_neg]
  rintro (h | ⟨h, h'⟩)
  · have := hv.1
    omega
  · exact hv.2 h' h

theorem player_reply {m v : Status} (hl : playerLoc s k = ⟨.read, m, o⟩)
    (hin : s.queue (.stdin (.player k)) = [v]) (hout : s.queue (.stdout (.player k)) = [])
    (hv : Alive v) : ∃ s', Go file (inside (.player k)) s s' ∧
      playerLoc s' k = ⟨.read, answer o v, o⟩ ∧ s'.queue (.stdin (.player k)) = [] ∧
      s'.queue (.stdout (.player k)) = [answer o v] := by
  obtain ⟨s₁, g₁, l₁, q₁, o₁, -⟩ := player_recv file (Q := inside (.player k)) hl rfl hin
    rfl .refl .refl
  rw [received_alive (by exact hv)] at l₁
  obtain ⟨s₂, g₂, l₂, q₂, o₂, -⟩ := player_send file (Q := inside (.player k)) l₁ rfl rfl
    .refl .refl
  refine ⟨s₂, g₁.trans g₂, l₂, ?_, ?_⟩
  · rw [o₂ (.stdin _) nofun, q₁]
  · rw [q₂, o₁ (.stdout _) nofun, hout]
    rfl

/-- A status that does not end the player's part goes down to the player and its answer comes up. -/
theorem reply {v : Status} (h : Idle s c k o) (hin : s.queue (.stdin c) = [v])
    (hout : s.queue (.stdout c) = []) (hv : Alive v) :
    ∃ s', Go file (inside c) s s' ∧ Idle s' c k o ∧ s'.queue (.stdin c) = [] ∧
      s'.queue (.stdout c) = [answer o v] := by
  induction c using tree_induction generalizing s k o v with
  | player j =>
    cases h with
    | player _ m _ hl =>
      obtain ⟨s', g, l', hq⟩ := player_reply hl hin hout hv
      exact ⟨s', g, .player _ _ _ l', hq⟩
  | battle b ih =>
    cases h with
    | battle _ st w _ _ hl hcin hcout hi hg =>
    have hne := child_ne b w
    obtain ⟨s₁, g₁, (l₁ : battleLoc s₁ b = ⟨.relayWrite, Function.update st w v, w⟩), q₁, o₁, -⟩ :=
      battle_recv file hl rfl hin rfl (.inl rfl)
    obtain ⟨s₂, g₂, l₂, q₂, o₂, -⟩ :=
      battle_send file l₁ rfl (parent_child b w) (.inr ⟨w, rfl⟩)
    rw [o₁ (.stdin (child b w)) (by simp [hne]), hcin] at q₂
    rw [relayed_alive (by simp [hv])] at l₂
    have i₂ := (hi.frame g₁ (inner_own b w)).frame g₂ (inner_own b w)
    obtain ⟨s₃, g₃, i₃, q₃, r₃⟩ := ih w i₂ (by rw [q₂]; simp)
      (by rw [o₂ (.stdout _) nofun, o₁ (.stdout _) nofun, hcout]) hv
    have l₃ : battleLoc s₃ b = ⟨.relayRead, Function.update st w v, w⟩ := by
      rw [battleLoc, g₃.loc _ (not_below_child b w)]
      exact l₂
    obtain ⟨s₄, g₄, l₄, q₄, o₄, -⟩ := battle_recv file l₃ rfl r₃ (parent_child b w)
      (.inr ⟨w, rfl⟩)
    obtain ⟨s₅, g₅, l₅, q₅, o₅, -⟩ := battle_send file l₄ rfl rfl (.inl rfl)
    have hnb : ¬ Below (child b w) (.battle b) := not_below_child b w
    have hs₁ : own b ⊆ inside (.battle b) := own_subset_inside
    have hs₂ : inside (child b w) ⊆ inside (.battle b) := inside_mono (below_child b w)
    have hg₃ := ((hg.frame g₁ (inner_own b _)).frame g₂ (inner_own b _)).frame g₃ (inner_sibling b w)
    refine ⟨s₅, ((((g₁.trans g₂).widen hs₁).trans (g₃.widen hs₂)).trans ((g₄.trans g₅).widen hs₁)),
      .battle b _ w k o l₅ ?_ ?_ ((i₃.frame g₄ (inner_own b w)).frame g₅ (inner_own b w))
        ((hg₃.frame g₄ (inner_own b _)).frame g₅ (inner_own b _)), ?_, ?_⟩
    · rw [o₅ (.stdin _) nofun, o₄ (.stdin _) nofun, q₃]
    · rw [o₅ (.stdout (child b w)) (by simp [hne]), q₄]
    · rw [o₅ (.stdin _) nofun, o₄ (.stdin _) nofun, g₃.queue (.stdin (.battle b)) hnb,
        o₂ (.stdin (.battle b)) (by simp [hne.symm]), q₁]
    · rw [q₅, o₄ (.stdout (.battle b)) (by simp [hne.symm]), g₃.queue (.stdout (.battle b)) hnb,
        o₂ (.stdout _) nofun, o₁ (.stdout _) nofun, hout]
      simp [BattleLoc.store]

end SysProg.Tournament
