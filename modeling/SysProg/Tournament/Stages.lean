import SysProg.Tournament.Bout

/-!
# SysProg.Tournament.Stages

The bracket, battle by battle, as a run of the processes.

* `Stage D s`: the battles of `D` are over and the others have not begun; whoever has come to one of
  them is `Ready`, and the other agents wait at their FIFOs.
* `stage_bout`: one battle more.
* `stage_run`: all battles of a list, if each comes after those it gets its entrants from.
-/

namespace SysProg.Tournament

open Kahn (Part)

variable {file : List Line} {s s' : State} {b : Battle} {c p : Proc} {k : PlayerId} {D : List Battle}

/-- All but the announcement of the champion. -/
def quiet : Set Part := {r | ∀ k, r ≠ .flag (.champion k)}

/-- The battle has not begun. -/
structure Fresh (s : State) (b : Battle) : Prop where
  loc : ∃ st w, battleLoc s b = ⟨.read false, st, w⟩
  stdin : s.queue (.stdin (.battle b)) = []
  stdout : s.queue (.stdout (.battle b)) = []

/-- The agent waits for somebody to open its FIFO. -/
structure Waiting (s : State) (k : PlayerId) : Prop where
  loc : ∃ m o, playerLoc s k = ⟨.opening, m, o⟩
  made : s.up (.made k) = true
  reading : s.up (.reading k) = true
  fifo : s.queue (.fifo k) = []
  stdin : s.queue (.stdin (.player k)) = []
  stdout : s.queue (.stdout (.player k)) = []

/-- Somebody has come there when the battles of `D` are over. -/
def Come (D : List Battle) : Proc → Prop
  | .battle b => b ∈ D
  | .player k => ∀ b ∈ feeder k, b ∈ D

instance (D : List Battle) (p : Proc) : Decidable (Come D p) :=
  match p with
  | .battle b => inferInstanceAs (Decidable (b ∈ D))
  | .player k => inferInstanceAs (Decidable (∀ b ∈ feeder k, b ∈ D))

structure Stage [Arith] (file : List Line) (D : List Battle) (s : State) : Prop where
  fresh : ∀ b, b ∉ D → Fresh s b
  ready : ∀ b i, b ∉ D → Come D (child b i) → Ready s (child b i) (entrant file (child b i))
  waiting : ∀ k, ∀ b ∈ feeder k, b ∉ D → Waiting s k

/-! ## Frames -/

/-- Nothing of `p` is in `Q`. -/
structure Clear (Q : Set Part) (p : Proc) : Prop where
  proc : .proc p ∉ Q
  stdin : .queue (.stdin p) ∉ Q
  stdout : .queue (.stdout p) ∉ Q

section

variable [Arith] {Q : Set Part} (h : Go file Q s s')

include h

theorem Ready.frame {x : Entrant} (hd : ∀ p, Below c p → Clear Q p) (hr : Ready s c x) :
    Ready s' c x where
  fit := hr.fit
  idle := by
    refine hr.idle.frame h fun r hr => ?_
    match r with
    | .proc p => exact (hd p hr).proc
    | .queue (.stdin p) => exact (hd p hr.1).stdin
    | .queue (.stdout p) => exact (hd p hr.1).stdout
  stdin := (h.queue _ (hd c .refl).stdin).trans hr.stdin
  stdout := (h.queue _ (hd c .refl).stdout).trans hr.stdout

theorem Fresh.frame (hd : Clear Q (.battle b)) (hf : Fresh s b) : Fresh s' b where
  loc := by rw [battleLoc, h.loc _ hd.proc]; exact hf.loc
  stdin := (h.queue _ hd.stdin).trans hf.stdin
  stdout := (h.queue _ hd.stdout).trans hf.stdout

theorem Waiting.frame (hd : Clear Q (.player k)) (hq : .queue (.fifo k) ∉ Q) (hw : Waiting s k) :
    Waiting s' k where
  loc := by rw [playerLoc, h.loc _ hd.proc]; exact hw.loc
  made := h.mono _ hw.made
  reading := h.mono _ hw.reading
  fifo := (h.queue _ hq).trans hw.fifo
  stdin := (h.queue _ hd.stdin).trans hw.stdin
  stdout := (h.queue _ hd.stdout).trans hw.stdout

end

/-! ## What is over stays over -/

def Closed (D : List Battle) : Prop := ∀ b ∈ D, ∀ i, Come D (child b i)

theorem Closed.come (h : Closed D) (hc : Come D c) (hp : Below c p) : Come D p := by
  induction hp with
  | refl => exact hc
  | child b i _ ih => exact h b ih i

theorem Closed.below (h : Closed D) (hb : ∀ i, Come D (child b i)) (hp : Below (.battle b) p) :
    p = .battle b ∨ Come D p := by
  rcases below_battle_cases hp with rfl | ⟨i, hp⟩
  · exact .inl rfl
  · exact .inr (h.come (hb i) hp)

theorem Come.cons (h : Come D c) : Come (b :: D) c := by
  cases c with
  | battle b' => exact List.mem_cons_of_mem _ h
  | player k => exact fun b' hb' => List.mem_cons_of_mem _ (h b' hb')

theorem Closed.cons (h : Closed D) (hb : ∀ i, Come D (child b i)) : Closed (b :: D) := by
  intro b' hb' i
  rcases List.mem_cons.1 hb' with rfl | hb'
  · exact (hb i).cons
  · exact (h b' hb' i).cons

/-! ## Feeders -/

theorem feeder_iff {j : PlayerId} : whichAgent b.letter = some j ↔ feeder j = some b := by
  cases b <;> revert j <;> decide

theorem upper_feeder (h : feeder k = some b) : upper (.battle b) = true ∧ upper (.player k) = false := by
  revert h
  cases b <;> revert k <;> decide

theorem whichAgent_upper (h : upper (.battle b) = true) : whichAgent b.letter ≠ none := by
  cases b <;> first | decide | cases h

theorem ne_root_of_feeder (h : feeder k = some b) : b ≠ .A := by
  rintro rfl
  have := (upper_feeder h).1
  cases this

theorem not_below_feeder (h : feeder k = some b) : ¬ Below (.battle b) (.player k) := by
  intro hb
  have h₁ := upper_below (ne_root_of_feeder h) hb
  rw [(upper_feeder h).1, (upper_feeder h).2] at h₁
  cases h₁

/-! ## The loser -/

section

variable [Arith] {x : Bool → Entrant} (hb : b ≠ .A) (hfit : ∀ i, (x i).Fit)
  (hseat : ∀ i, Below (child b i) (.player (x i).seat))

include hb hfit hseat

theorem handsOver_loser : handsOver (bout b x).loser.status (bout b x).loser.seat ↔
    upper (.battle b) = true := by
  have hd := closing_decided (b := b) hfit
  have hu := upper_below hb ((below_child b _).trans (hseat (!winSlot (closing b x))))
  have hA : (bout b x).loser.status.currentBattleId ≠ 'A' := by
    rw [show (bout b x).loser.status.currentBattleId = b.letter from closing_letter hfit _]
    exact letter_ne hb
  rw [← hu]
  constructor
  · exact fun h => decide_eq_true h.2.2
  · exact fun h => ⟨hd.loser, hA, of_decide_eq_true h⟩

theorem heir_loser {j : PlayerId} :
    heir (bout b x).loser.status (bout b x).loser.seat = some j ↔ feeder j = some b := by
  have hl : (bout b x).loser.status.currentBattleId = b.letter := closing_letter hfit _
  rw [heir, hl, ← feeder_iff]
  constructor
  · intro h
    split at h
    · exact h
    · cases h
  · intro h
    rw [if_pos ((handsOver_loser hb hfit hseat).2 (upper_feeder (feeder_iff.1 h)).1), h]

theorem heir_loser_ne (h : handsOver (bout b x).loser.status (bout b x).loser.seat) :
    heir (bout b x).loser.status (bout b x).loser.seat ≠ none := by
  have hl : (bout b x).loser.status.currentBattleId = b.letter := closing_letter hfit _
  rw [heir, if_pos h, hl]
  exact whichAgent_upper ((handsOver_loser hb hfit hseat).1 h)

end

/-! ## One battle more -/

/-- What changes when the battle is played. -/
def area (b : Battle) : Set Part :=
  {r | r ∈ inside (.battle b) ∨ ∃ j, feeder j = some b ∧ r ∈ inside (.player j) ∪ gate (some j)}

theorem clear_inside (hp : ¬ Below c p) (j : Option PlayerId) : Clear (inside c ∪ gate j) p :=
  ⟨not_or_intro hp id, not_or_intro hp id, not_or_intro hp id⟩

theorem clear_player {j : PlayerId} (hp : p ≠ .player j) :
    Clear (inside (.player j) ∪ gate (some j)) p :=
  clear_inside (fun h => hp (below_player h)) _

theorem clear_area (hp : ¬ Below (.battle b) p) (hj : ∀ j, feeder j = some b → p ≠ .player j) :
    Clear (area b) p := by
  have h₁ := clear_inside hp none
  have h₂ := fun j h => clear_player (hj j h)
  constructor
  · rintro (h | ⟨j, hj, h⟩)
    · exact h₁.proc (.inl h)
    · exact (h₂ j hj).proc h
  · rintro (h | ⟨j, hj, h⟩)
    · exact h₁.stdin (.inl h)
    · exact (h₂ j hj).stdin h
  · rintro (h | ⟨j, hj, h⟩)
    · exact h₁.stdout (.inl h)
    · exact (h₂ j hj).stdout h

theorem area_quiet : area b ⊆ quiet := by
  rintro r hr k rfl
  rcases hr with h | ⟨j, -, h | h⟩
  · exact h
  · exact h
  · exact h

theorem gate_subset_area {j : PlayerId} (hj : feeder j = some b) :
    inside (.player j) ∪ gate (some j) ⊆ area b := fun _ hr => .inr ⟨j, hj, hr⟩

theorem Come.of_cons (h : Come (b :: D) c) (hb : c ≠ .battle b)
    (hj : ∀ j, feeder j = some b → c ≠ .player j) : Come D c := by
  cases c with
  | battle b' =>
    rcases List.mem_cons.1 h with rfl | h
    · exact absurd rfl hb
    · exact h
  | player k =>
    intro b' hb'
    rcases List.mem_cons.1 (h b' hb') with rfl | h
    · exact absurd rfl (hj k hb')
    · exact h

theorem fifo_notMem_area (hk : feeder k ≠ some b) : .queue (.fifo k) ∉ area b := by
  rintro (h | ⟨j, hj, h | h⟩)
  · exact h
  · exact h
  · cases h
    exact hk hj

variable [Arith]

/-- The agent reads who it is and goes to its battle. -/
theorem agent_run {j : PlayerId} {y : Entrant} (hl : ∃ m o, playerLoc s j = ⟨.opening, m, o⟩)
    (hh : Handed s j (reenter j y).status) (hin : s.queue (.stdin (.player j)) = [])
    (hout : s.queue (.stdout (.player j)) = []) (hf : (reenter j y).Fit) :
    ∃ s', Go file (inside (.player j) ∪ gate (some j)) s s' ∧ Ready s' (.player j) (reenter j y) := by
  obtain ⟨m, o, hl⟩ := hl
  generalize hQ : inside (.player j) ∪ gate (some j) = Q
  have hk : .proc (.player j) ∈ Q := by rw [← hQ]; exact .inl .refl
  obtain ⟨s₁, g₁, l₁, q₁, -⟩ := player_await file (Q := Q) hl rfl (by simpa using hh.writing) hk
  obtain ⟨s₂, g₂, l₂, q₂, o₂, -⟩ := player_recv file (Q := Q) l₁ rfl (by rw [q₁]; exact hh.fifo) rfl hk
    (by rw [← hQ]; exact .inr rfl)
  obtain ⟨s₃, g₃, l₃, q₃, o₃, -⟩ := player_send file (Q := Q) l₂ rfl rfl hk
    (by rw [← hQ]; exact .inl .refl)
  refine ⟨s₃, (g₁.trans g₂).trans g₃, hf, .player _ _ _ l₃, ?_, ?_⟩
  · rw [o₃ (.stdin _) nofun, o₂ (.stdin _) nofun, q₁, hin]
  · rw [q₃, o₂ (.stdout _) nofun, q₁, hout]
    rfl

theorem entrant_battle (b : Battle) :
    entrant file (.battle b) = (bout b fun i => entrant file (child b i)).winner := by
  rw [entrant, result_eq]

theorem entrant_agent (h : feeder k = some b) :
    entrant file (.player k) = reenter k (bout b fun i => entrant file (child b i)).loser := by
  rw [entrant, h, ← result_eq]

theorem snd_fifo (h : feeder k = some b) :
    snd file (.fifo k) = .player (bout b fun i => entrant file (child b i)).loser.seat := by
  rw [snd, h, ← result_eq]

theorem stage_bout (h : Stage file D s) (hb : b ∉ D) (hA : b ≠ .A) (hc : ∀ i, Come D (child b i)) :
    ∃ s', Go file (area b) s s' ∧ Ready s' (.battle b) (entrant file (.battle b)) ∧
      ∀ j, feeder j = some b → Ready s' (.player j) (entrant file (.player j)) := by
  have hx := fun i => h.ready b i hb (hc i)
  have hfit := fun i => (hx i).fit
  have hseat := fun i => (hx i).idle.below_player
  have hf := h.fresh b hb
  have hw := fun k hk => h.waiting k b hk hb
  obtain ⟨st, w, hl⟩ := hf.loc
  obtain ⟨s₁, g₁, r₁, h₁⟩ := bout_run hA hx hl hf.stdin hf.stdout
    (heir_loser_ne hA hfit hseat) fun j hj => by
      have hj := (heir_loser hA hfit hseat).1 hj
      exact ⟨(hw j hj).made, (hw j hj).reading, (hw j hj).fifo, snd_fifo hj⟩
  rw [← entrant_battle] at r₁
  have hj := fun j => heir_loser hA hfit hseat (j := j)
  generalize heir _ _ = i at g₁ h₁ hj
  cases i with
  | none =>
    refine ⟨s₁, g₁.widen ?_, r₁, fun j hj' => by cases (hj j).2 hj'⟩
    rw [gate_none, Set.union_empty]
    exact fun r hr => .inl hr
  | some j =>
    have hfj := (hj j).1 rfl
    have hd : Clear (inside (.battle b) ∪ gate (some j)) (.player j) :=
      clear_inside (not_below_feeder hfj) _
    have hwj := hw j hfj
    obtain ⟨s₂, g₂, r₂⟩ := agent_run (j := j) (s := s₁)
      (by rw [playerLoc, g₁.loc _ hd.proc]; exact hwj.loc) (h₁ j rfl)
      ((g₁.queue _ hd.stdin).trans hwj.stdin) ((g₁.queue _ hd.stdout).trans hwj.stdout)
      (fit_reenter hfit)
    rw [← entrant_agent hfj] at r₂
    have hsub : inside (.battle b) ∪ gate (some j) ⊆ area b := by
      rintro r (hr | hr)
      · exact .inl hr
      · exact gate_subset_area hfj (.inr hr)
    refine ⟨s₂, (g₁.widen hsub).trans (g₂.widen (gate_subset_area hfj)), r₁.frame g₂ fun p hp => ?_, ?_⟩
    · apply clear_player
      rintro rfl
      exact not_below_feeder hfj hp
    · intro j' hj'
      cases (hj j').2 hj'
      exact r₂

theorem stage_cons (h : Stage file D s) (hD : Closed D) (hb : b ∉ D) (hA : b ≠ .A)
    (hc : ∀ i, Come D (child b i)) : ∃ s', Go file (area b) s s' ∧ Stage file (b :: D) s' := by
  obtain ⟨s', g, r, rj⟩ := stage_bout h hb hA hc
  refine ⟨s', g, fun b' hb' => ?_, fun b' i hb' hc' => ?_, fun k b' hk hb' => ?_⟩
  · have hne := List.not_mem_of_not_mem_cons hb'
    refine (h.fresh b' hne).frame g (clear_area (fun hp => ?_) fun _ _ => nofun)
    rcases hD.below hc hp with hp | hp
    · cases hp
      exact hb' List.mem_cons_self
    · exact hne hp
  · have hne := List.not_mem_of_not_mem_cons hb'
    by_cases hcb : child b' i = .battle b
    · rw [hcb]
      exact r
    by_cases hcj : ∃ j, feeder j = some b ∧ child b' i = .player j
    · obtain ⟨j, hj, hcj⟩ := hcj
      rw [hcj]
      exact rj j hj
    have hcD : Come D (child b' i) := hc'.of_cons hcb fun j hj hcj' => hcj ⟨j, hj, hcj'⟩
    refine (h.ready b' i hne hcD).frame g fun p hp => clear_area (fun hp' => ?_) fun j hj hpj => ?_
    · rcases hp.linear hp' with hl | hl
      · exact hb (hD.come hcD hl)
      · rcases Below.child_iff.1 hl with hl | hl
        · exact hcb hl.symm
        · rcases hD.below hc hl with hl | hl
          · cases hl
            exact hb' List.mem_cons_self
          · exact hne hl
    · rw [hpj] at hp
      exact hb (hD.come hcD hp b hj)
  · have hne := List.not_mem_of_not_mem_cons hb'
    have hkb : feeder k ≠ some b := by
      intro hkb
      rw [hk] at hkb
      cases hkb
      exact hb' List.mem_cons_self
    refine (h.waiting k b' hk hne).frame g (clear_area (fun hp => ?_) fun j hj hkj => ?_)
      (fifo_notMem_area hkb)
    · rcases hD.below hc hp with hp | hp
      · cases hp
      · exact hne (hp b' hk)
    · cases hkj
      exact hkb hj

/-! ## All battles but the final -/

/-- Latest battle first. -/
def playable : List Battle → Bool
  | [] => true
  | b :: D => playable D && b ∉ D && b ≠ .A && Come D (child b false) && Come D (child b true)

theorem stage_run (h : Stage file [] s) (hD : playable D = true) :
    Closed D ∧ ∃ s', Go file quiet s s' ∧ Stage file D s' := by
  induction D with
  | nil => exact ⟨fun b hb => absurd hb List.not_mem_nil, s, .refl, h⟩
  | cons b D ih =>
    simp only [playable, Bool.and_eq_true, decide_eq_true_eq] at hD
    obtain ⟨⟨⟨⟨hD, hb⟩, hA⟩, h₀⟩, h₁⟩ := hD
    have hc : ∀ i, Come D (child b i) := forall_bool false h₀ h₁
    obtain ⟨hcl, s₁, g₁, hs₁⟩ := ih hD
    obtain ⟨s₂, g₂, hs₂⟩ := stage_cons hs₁ hcl hb hA hc
    exact ⟨hcl.cons hc, s₂, g₁.trans (g₂.widen area_quiet), hs₂⟩

def order : List Battle := [.C, .B, .F, .L, .K, .N, .M, .E, .D, .J, .I, .H, .G]

omit [Arith] in
theorem playable_order : playable order = true := by decide

end SysProg.Tournament
