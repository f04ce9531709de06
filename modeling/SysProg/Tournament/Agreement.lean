import SysProg.Tournament.Stages

/-!
# SysProg.Tournament.Agreement

Every schedule of the 29 processes announces the champion of the bracket.

* `boot_run`: all processes are started and stand where they wait for their first status.
* `complete_run`: the bracket, battle by battle, is one complete run of the processes.
* `tournament_agrees`: so any reachable state agrees with it, and none is stuck.
-/

namespace SysProg.Tournament

open Kahn (Part)
open Arith (Fits)

section

variable [Arith] {file : List Line} {s s' : State} {b : Battle} {c p : Proc} {k : PlayerId} {L : List Proc}

/-- What the players read of `player_status.txt`. -/
def GoodFile (file : List Line) : Prop :=
  ∀ k : PlayerId, k ≤ 7 → 0 < (readStatus file k).HP ∧ 0 < (readStatus file k).ATK ∧
    (readStatus file k).battleEndedFlag = 0

theorem foldl_scan_fits (xs : List Line) {m : Status} (h : Fits m.HP ∧ Fits m.ATK) :
    Fits (xs.foldl Status.scan m).HP ∧ Fits (xs.foldl Status.scan m).ATK := by
  induction xs generalizing m with
  | nil => exact h
  | cons x xs ih => exact ih ⟨Arith.fits_wrap _, Arith.fits_wrap _⟩

variable (file) in
theorem readStatus_fits (k : PlayerId) : Fits (readStatus file k).HP ∧ Fits (readStatus file k).ATK :=
  foldl_scan_fits _ ⟨Arith.fits_zero, Arith.fits_zero⟩

theorem fit_player (hg : GoodFile file) (hk : k ≤ 7) : (player file k).Fit := by
  obtain ⟨hp, ha, h0⟩ := hg k hk
  have hf := readStatus_fits file k
  exact ⟨hp, hp, ha, h0, hf, hf.1⟩

/-! ## Starting the processes -/

/-- Not forked yet. -/
def Asleep (s : State) : Proc → Prop
  | .battle b => (∃ st w, battleLoc s b = ⟨.start, st, w⟩) ∧
      s.queue (.stdin (.battle b)) = [] ∧ s.queue (.stdout (.battle b)) = []
  | .player k => (∃ m o, playerLoc s k = ⟨.start, m, o⟩) ∧ s.queue (.fifo k) = [] ∧
      s.queue (.stdin (.player k)) = [] ∧ s.queue (.stdout (.player k)) = []

def Settled (file : List Line) (s : State) : Proc → Prop
  | .battle b => Fresh s b
  | .player k => if feeder k = none then Ready s (.player k) (entrant file (.player k)) else Waiting s k

def bootArea (c : Proc) : Set Part
  | .proc p => p = c
  | .queue (.stdout p) => p = c
  | .flag (.forked _) => True
  | .flag (.made _) => True
  | .flag (.reading _) => True
  | _ => False

omit [Arith] in
theorem bootArea_quiet : bootArea c ⊆ quiet := by
  rintro r hr k rfl
  exact hr

omit [Arith] in
theorem clear_bootArea (hp : p ≠ c) : Clear (bootArea c) p := ⟨hp, id, hp⟩

theorem Settled.frame (h : Go file (bootArea c) s s') (hp : p ≠ c) (hs : Settled file s p) :
    Settled file s' p := by
  have hc := clear_bootArea hp
  cases p with
  | battle b => exact Fresh.frame h hc hs
  | player k =>
    simp only [Settled] at hs ⊢
    split at hs
    · rename_i hk
      rw [if_pos hk]
      refine hs.frame h fun p hp => ?_
      rw [below_player hp]
      exact hc
    · rename_i hk
      rw [if_neg hk]
      exact hs.frame h hc id

theorem Asleep.frame (h : Go file (bootArea c) s s') (hp : p ≠ c) (hs : Asleep s p) : Asleep s' p := by
  have hc := clear_bootArea hp
  cases p with
  | battle b =>
    simp only [Asleep, battleLoc] at hs ⊢
    rw [h.loc _ hc.proc, h.queue _ hc.stdin, h.queue _ hc.stdout]
    exact hs
  | player k =>
    simp only [Asleep, playerLoc] at hs ⊢
    rw [h.loc _ hc.proc, h.queue _ hc.stdin, h.queue _ hc.stdout, h.queue (.fifo k) id]
    exact hs

theorem battle_boot (h : Asleep s (.battle b)) (hf : s.up (.forked (.battle b)) = true) :
    ∃ s', Go file (bootArea (.battle b)) s s' ∧ Fresh s' b ∧
      ∀ i, s'.up (.forked (child b i)) = true := by
  obtain ⟨⟨st, w, hl⟩, hin, hout⟩ := h
  obtain ⟨s₁, g₁, l₁, q₁, -⟩ := battle_await file (Q := bootArea (.battle b)) hl rfl
    (by simpa using hf) rfl
  obtain ⟨s₂, g₂, l₂, q₂, u₂⟩ := battle_raise file (Q := bootArea (.battle b)) l₁ rfl rfl trivial
  obtain ⟨s₃, g₃, l₃, q₃, u₃⟩ := battle_raise file (Q := bootArea (.battle b)) l₂ rfl rfl trivial
  refine ⟨s₃, (g₁.trans g₂).trans g₃, ⟨⟨_, _, l₃⟩, ?_, ?_⟩, forall_bool true u₃ (g₃.mono _ u₂)⟩
  · rw [q₃, q₂, q₁, hin]
  · rw [q₃, q₂, q₁, hout]

omit [Arith] in
theorem feeder_none : feeder k = none ↔ k ≤ 7 := by
  revert k
  decide

theorem player_boot (hg : GoodFile file) (h : Asleep s (.player k))
    (hf : s.up (.forked (.player k)) = true) :
    ∃ s', Go file (bootArea (.player k)) s s' ∧ Settled file s' (.player k) := by
  obtain ⟨⟨m, o, hl⟩, hq, hin, hout⟩ := h
  obtain ⟨s₁, g₁, l₁, q₁, -⟩ := player_await file (Q := bootArea (.player k)) hl rfl
    (by simpa using hf) rfl
  by_cases hk : feeder k = none
  · have hk' := feeder_none.1 hk
    rw [if_pos hk'] at l₁
    obtain ⟨s₂, g₂, l₂, q₂, o₂, -⟩ := player_send file (Q := bootArea (.player k)) l₁ rfl rfl rfl rfl
    refine ⟨s₂, g₁.trans g₂, ?_⟩
    have he : entrant file (.player k) = player file k := by rw [entrant, hk]
    rw [Settled, if_pos hk, he]
    refine ⟨fit_player hg hk', .player _ _ _ l₂, ?_, ?_⟩
    · rw [o₂ (.stdin _) (by simp), q₁, hin]
    · rw [q₂, q₁, hout]
      rfl
  · have hk' : ¬ k ≤ 7 := fun h => hk (feeder_none.2 h)
    rw [if_neg hk'] at l₁
    obtain ⟨s₂, g₂, l₂, q₂, u₂⟩ := player_raise file (Q := bootArea (.player k)) l₁ rfl rfl trivial
    obtain ⟨s₃, g₃, l₃, q₃, u₃⟩ := player_raise file (Q := bootArea (.player k)) l₂ rfl rfl trivial
    refine ⟨s₃, (g₁.trans g₂).trans g₃, ?_⟩
    rw [Settled, if_neg hk]
    refine ⟨⟨_, _, l₃⟩, g₃.mono _ u₂, u₃, ?_, ?_, ?_⟩
    · rw [q₃, q₂, q₁, hq]
    · rw [q₃, q₂, q₁, hin]
    · rw [q₃, q₂, q₁, hout]

/-- The processes of `L` have been started. -/
structure Booted (file : List Line) (L : List Proc) (s : State) : Prop where
  settled : ∀ p ∈ L, Settled file s p
  asleep : ∀ p, p ∉ L → Asleep s p
  forked : ∀ b i, .battle b ∈ L → s.up (.forked (child b i)) = true
  root : s.up (.forked (.battle .A)) = true

theorem booted_start : Booted file [] start where
  settled p hp := absurd hp List.not_mem_nil
  asleep p _ := by
    cases p with
    | battle b => exact ⟨⟨_, _, rfl⟩, rfl, rfl⟩
    | player k => exact ⟨⟨_, _, rfl⟩, rfl, rfl, rfl⟩
  forked b i hb := absurd hb List.not_mem_nil
  root := rfl

theorem booted_cons (hg : GoodFile file) (h : Booted file L s) (hc : c ∉ L)
    (hf : s.up (.forked c) = true) : ∃ s', Go file (bootArea c) s s' ∧ Booted file (c :: L) s' := by
  obtain ⟨s', g, hs, hu⟩ : ∃ s', Go file (bootArea c) s s' ∧ Settled file s' c ∧
      ∀ b i, c = .battle b → s'.up (.forked (child b i)) = true := by
    cases c with
    | battle b =>
      obtain ⟨s', g, hs, hu⟩ := battle_boot (h.asleep _ hc) hf
      refine ⟨s', g, hs, ?_⟩
      rintro _ i ⟨⟩
      exact hu i
    | player k =>
      obtain ⟨s', g, hs⟩ := player_boot hg (h.asleep _ hc) hf
      exact ⟨s', g, hs, nofun⟩
  refine ⟨s', g, fun p hp => ?_, fun p hp => ?_, fun b i hb => ?_, g.mono _ h.root⟩
  · by_cases e : p = c
    · subst e
      exact hs
    · exact (h.settled p (List.mem_of_ne_of_mem e hp)).frame g e
  · exact (h.asleep p (List.not_mem_of_not_mem_cons hp)).frame g (List.ne_of_not_mem_cons hp)
  · rcases List.mem_cons.1 hb with hb | hb
    · exact hu b i hb.symm
    · exact g.mono _ (h.forked b i hb)

/-- Each after its parent; latest process first. -/
def spawnable : List Proc → Bool
  | [] => true
  | c :: L => spawnable L && c ∉ L && (c = .battle .A || parent c ∈ L)

theorem boot_run (hg : GoodFile file) (hL : spawnable L = true) :
    ∃ s, Go file quiet start s ∧ Booted file L s := by
  induction L with
  | nil => exact ⟨start, .refl, booted_start⟩
  | cons c L ih =>
    simp only [spawnable, Bool.and_eq_true, Bool.or_eq_true, decide_eq_true_eq] at hL
    obtain ⟨⟨hL, hc⟩, hp⟩ := hL
    obtain ⟨s₁, g₁, h₁⟩ := ih hL
    have hf : s₁.up (.forked c) = true := by
      rcases hp with rfl | hp
      · exact h₁.root
      · rcases child_cases c with rfl | ⟨b, i, rfl⟩
        · exact h₁.root
        · rw [parent_child] at hp
          exact h₁.forked b i hp
    obtain ⟨s₂, g₂, h₂⟩ := booted_cons hg h₁ hc hf
    exact ⟨s₂, g₁.trans (g₂.widen bootArea_quiet), h₂⟩

def spawnOrder : List Proc :=
  [14, 13, 12, 11, 10, 9, 8, 7, 6, 5, 4, 3, 2, 1, 0].map .player ++
    [.N, .M, .L, .K, .J, .I, .H, .G, .F, .E, .D, .C, .B, .A].map .battle

omit [Arith] in
theorem spawnable_spawnOrder : spawnable spawnOrder = true := by decide

omit [Arith] in
theorem mem_spawnOrder (p : Proc) : p ∈ spawnOrder := by
  cases p with
  | battle b => cases b <;> decide
  | player k => revert k; decide

theorem Booted.stage (h : Booted file L s) (hL : ∀ p, p ∈ L) : Stage file [] s where
  fresh b _ := h.settled (.battle b) (hL _)
  ready b i _ hc := by
    have hs := h.settled (child b i) (hL _)
    generalize child b i = p at hc hs
    cases p with
    | battle b' => cases hc
    | player k =>
      have hk : feeder k = none := by
        cases hf : feeder k with
        | none => rfl
        | some b' => cases hc b' hf
      rw [Settled, if_pos hk] at hs
      exact hs
  waiting k b hk _ := by
    have hs := h.settled (.player k) (hL _)
    rw [Settled, if_neg (by rw [Option.mem_def.1 hk]; nofun)] at hs
    exact hs

/-! ## The complete run -/

theorem halt_of_exited (h : exited s p = true) : prog file p (s.loc p) = .halt := by
  cases p with
  | battle b =>
    have hpc : (battleLoc s b).pc = .done := of_decide_eq_true h
    show battleMain b (battleLoc s b) = _
    rw [battleMain, hpc]
  | player k =>
    have hpc : (playerLoc s k).pc = .done := of_decide_eq_true h
    show playerMain file k (playerLoc s k) = _
    rw [playerMain, hpc]

theorem complete_run (hg : GoodFile file) : ∃ t n,
    Kahn.Completes (prog file) (snd file) rcv start t n ∧ (∀ p, exited t p = true) ∧
      t.up (.champion (champion file)) = true ∧
      ∀ k, t.up (.champion k) = true → k = champion file := by
  obtain ⟨s₁, g₁, h₁⟩ := boot_run hg spawnable_spawnOrder
  obtain ⟨-, s₂, g₂, h₂⟩ := stage_run (h₁.stage mem_spawnOrder) playable_order
  have hA : Battle.A ∉ order := by decide
  have hc : ∀ i, Come order (child .A i) := by decide
  obtain ⟨st, w, hl⟩ := (h₂.fresh .A hA).loc
  obtain ⟨t, g₃, hex, hch⟩ := final_run (fun i => h₂.ready .A i hA (hc i)) hl
  rw [← result_eq] at g₃ hch
  obtain ⟨n, hn⟩ := ((g₁.path.trans g₂.path).trans g₃.path).completes fun p => halt_of_exited (hex p)
  refine ⟨t, n, hn, hex, hch, fun k hk => ?_⟩
  by_contra hne
  have hq : Part.flag (Flag.champion k) ∉ (quiet : Set Part) := fun h => h k rfl
  have h₀ : t.up (.champion k) = start.up (.champion k) := by
    rw [g₃.up _ (by rintro (h | h); exact h; cases h; exact hne rfl), g₂.up _ hq, g₁.up _ hq]
  rw [hk] at h₀
  cases h₀

/-! ## Every run -/

theorem reachable_act (h : Reachable (step file) start s) :
    Reachable (Kahn.step (prog file)) start s := by
  refine Reachable.invariant (I := Reachable (Kahn.step (prog file)) start) ?_ h .refl
  intro s e s' hs he
  cases e with
  | act p => exact hs.tail he
  | retry p =>
    simp only [step] at he
    split at he
    · cases he
      exact hs
    · cases he

theorem tournament_agrees (file : List Line) (hg : GoodFile file) (s : State)
    (hr : Reachable (step file) start s) :
    (∀ k, s.up (.champion k) = true → k = champion file) ∧
      ((∃ p s', step file s (.act p) = some s') ∨
        (s.up (.champion (champion file)) = true ∧ ∀ p, exited s p = true)) := by
  have hr' := reachable_act hr
  obtain ⟨t, n, hn, hex, hch, hone⟩ := complete_run hg
  constructor
  · intro k hk
    obtain ⟨m, hm⟩ := hn.of_reachable hr'
    exact hone k (hm.up hk)
  · rcases hn.progress hr' with rfl | h
    · exact .inr ⟨hch, hex⟩
    · exact .inl h

end

/-- The `player_status.txt` of the repository. -/
def statusFile : List Line :=
  [⟨7, 2, "FIRE".toList, 'G', 0⟩, ⟨8, 3, "GRASS".toList, 'G', 0⟩, ⟨4, 4, "FIRE".toList, 'H', 0⟩,
    ⟨1, 4, "GRASS".toList, 'H', 0⟩, ⟨12, 2, "WATER".toList, 'I', 0⟩, ⟨3, 4, "GRASS".toList, 'I', 0⟩,
    ⟨7, 3, "WATER".toList, 'J', 0⟩, ⟨10, 2, "WATER".toList, 'J', 0⟩]

theorem statusFile_good : @GoodFile .int statusFile := by
  unfold GoodFile
  decide +kernel

/-- Down to battle `G`, where player 0 is the first to write. -/
def downToG : List Event :=
  [.act (.battle .A), .act (.battle .A), .act (.battle .B), .act (.battle .B), .act (.battle .D),
    .act (.battle .D), .act (.battle .G), .act (.battle .G), .act (.player 0), .act (.player 0)]

/-- The state after these events. -/
def stateAfter (file : List Line) (evs : List Event) : State :=
  (runEvents (@step .int file) start evs).getD start

theorem tournament_agrees_statusFile :
    (∀ k, (stateAfter statusFile downToG).up (.champion k) = true → k = @champion .int statusFile) ∧
    ((∃ p s', @step .int statusFile (stateAfter statusFile downToG) (.act p) = some s') ∨
      ((stateAfter statusFile downToG).up (.champion (@champion .int statusFile)) = true ∧
        ∀ p, exited (stateAfter statusFile downToG) p = true)) := by
  have h : runEvents (@step .int statusFile) start downToG = some (stateAfter statusFile downToG) := rfl
  exact @tournament_agrees .int statusFile statusFile_good _ (reachable_runEvents h)

example : @champion .int statusFile = 0 := by decide +kernel

end SysProg.Tournament
