import Mathlib.Algebra.BigOperators.Group.Finset.Basic
import SysProg.Tournament.Roles

/-!
# SysProg.Tournament.Chain

A battle `X` with a chain of any number of relaying battles below each slot and a player at the end
of each chain, cut out of the tournament.

* `Chain`: the battles and the players; it need not be a piece of the tree that is really built.
* `Link`: a pipe of the chain. Link `j` of a side is the `j`-th pair of pipes, seen from `X`.
* `Chain.prog`: `battle.c` and `player.c`, on the pipes of the chain.
* `Chain.Start`: the last player waits to be heard, all pipes are empty.
* `chain_relays`: what holds in every state that can be reached.
-/

namespace SysProg.Tournament

open Kahn (Action)

inductive Station where
  | top
  | relay (i : Bool) (j : Nat)
  | player (i : Bool)
deriving DecidableEq, Repr

inductive Link where
  | up (i : Bool) (j : Nat)
  | down (i : Bool) (j : Nat)
  /-- What leads out of the chain. -/
  | other (p : Station) (c : Chan)
deriving DecidableEq, Repr

inductive Mark where
  /-- The process below link `j` has exited. -/
  | exited (i : Bool) (j : Nat)
  | other (p : Station) (f : Flag)
deriving DecidableEq, Repr

structure Chain where
  top : Battle
  depth : Bool → Nat
  battle : Bool → Nat → Battle
  /-- The slot of the winner. -/
  win : Bool → Nat → Bool
  player : Bool → PlayerId
  relays : ∀ i j, battle i j ≠ .A

/-- In the forwarding loop. -/
def BattlePc.forwards : BattlePc → Bool
  | .relayRead | .relayUp | .relayDown | .relayWrite => true
  | _ => false

namespace Chain

variable (C : Chain)

def topLink (c : Chan) : Link :=
  if c = .stdout (child C.top false) then .up false 0
  else if c = .stdout (child C.top true) then .up true 0
  else if c = .stdin (child C.top false) then .down false 0
  else if c = .stdin (child C.top true) then .down true 0
  else .other .top c

def topMark (f : Flag) : Mark :=
  if f = .exited (child C.top false) then .exited false 0
  else if f = .exited (child C.top true) then .exited true 0
  else .other .top f

variable (i : Bool) (j : Nat)

def relayLink (c : Chan) : Link :=
  if c = .stdout (child (C.battle i j) (C.win i j)) then .up i (j + 1)
  else if c = .stdin (child (C.battle i j) (C.win i j)) then .down i (j + 1)
  else if c = .stdout (.battle (C.battle i j)) then .up i j
  else if c = .stdin (.battle (C.battle i j)) then .down i j
  else .other (.relay i j) c

def relayMark (f : Flag) : Mark :=
  if f = .exited (child (C.battle i j) (C.win i j)) then .exited i (j + 1)
  else if f = .exited (.battle (C.battle i j)) then .exited i j
  else .other (.relay i j) f

def playerLink (c : Chan) : Link :=
  if c = .stdout (.player (C.player i)) then .up i (C.depth i)
  else if c = .stdin (.player (C.player i)) then .down i (C.depth i)
  else .other (.player i) c

def playerMark (f : Flag) : Mark :=
  if f = .exited (.player (C.player i)) then .exited i (C.depth i) else .other (.player i) f

abbrev Loc : Station → Type
  | .top => BattleLoc
  | .relay _ _ => BattleLoc
  | .player _ => PlayerLoc

abbrev State := Kahn.State Station Link Mark Status Loc

def prog [Arith] (file : List Line) : (p : Station) → Loc p → Action Link Mark Status (Loc p)
  | .top, l => (battleMain C.top l).rename C.topLink C.topMark
  | .relay i j, l =>
    if j < C.depth i then (battleMain (C.battle i j) l).rename (C.relayLink i j) (C.relayMark i j)
    else .halt
  | .player i, l => (playerMain file (C.player i) l).rename (C.playerLink i) (C.playerMark i)

def above : Nat → Station
  | 0 => .top
  | j + 1 => .relay i j

def below : Station := if j < C.depth i then .relay i j else .player i

def snd : Link → Station
  | .up i j => C.below i j
  | .down i j => above i j
  | .other p _ => p

def rcv : Link → Station
  | .up i j => above i j
  | .down i j => C.below i j
  | .other p _ => p

def topLoc (s : State) : BattleLoc := s.loc .top

def relayLoc (s : State) : BattleLoc := s.loc (.relay i j)

def playerLoc (s : State) : PlayerLoc := s.loc (.player i)

/-- The last player of side `i` is about to write `m i`: its status after the fight before, or the
first one it writes. -/
structure Start (m : Bool → Status) (s : State) : Prop where
  top : (topLoc s).pc = .read false
  relay : ∀ i j, j < C.depth i → (relayLoc i j s).pc = .relayRead ∧ (relayLoc i j s).win = C.win i j
  player : ∀ i, (playerLoc i s).pc ∈ [.enter, .write] ∧ (playerLoc i s).mystatus = m i
  queue : ∀ c, s.queue c = []
  taken : ∀ c, s.taken c = []

/-! ## The pipes of the chain -/

section

theorem topLink_out : C.topLink (.stdout (child C.top i)) = .up i 0 := by
  have := child_not_ne C.top false
  cases i <;> simp_all [topLink]

theorem topLink_in : C.topLink (.stdin (child C.top i)) = .down i 0 := by
  have := child_not_ne C.top false
  cases i <;> simp_all [topLink]

theorem topLink_up : C.topLink (.stdout (.battle C.top)) = .other .top (.stdout (.battle C.top)) := by
  simp [topLink, (child_ne C.top _).symm]

theorem topLink_down : C.topLink (.stdin (.battle C.top)) = .other .top (.stdin (.battle C.top)) := by
  simp [topLink, (child_ne C.top _).symm]

theorem topLink_injective : Function.Injective C.topLink := by
  intro c c' h
  simp only [topLink] at h
  split_ifs at h <;> simp_all

theorem relayLink_out :
    C.relayLink i j (.stdout (child (C.battle i j) (C.win i j))) = .up i (j + 1) := by
  simp [relayLink]

theorem relayLink_in :
    C.relayLink i j (.stdin (child (C.battle i j) (C.win i j))) = .down i (j + 1) := by
  simp [relayLink]

theorem relayLink_up : C.relayLink i j (.stdout (.battle (C.battle i j))) = .up i j := by
  simp [relayLink, (child_ne (C.battle i j) _).symm]

theorem relayLink_down : C.relayLink i j (.stdin (.battle (C.battle i j))) = .down i j := by
  simp [relayLink, (child_ne (C.battle i j) _).symm]

theorem relayLink_lost_out : C.relayLink i j (.stdout (child (C.battle i j) (!C.win i j))) =
    .other (.relay i j) (.stdout (child (C.battle i j) (!C.win i j))) := by
  simp [relayLink, child_ne, child_not_ne]

theorem relayLink_lost_in : C.relayLink i j (.stdin (child (C.battle i j) (!C.win i j))) =
    .other (.relay i j) (.stdin (child (C.battle i j) (!C.win i j))) := by
  simp [relayLink, child_ne, child_not_ne]

theorem relayLink_injective : Function.Injective (C.relayLink i j) := by
  intro c c' h
  simp only [relayLink] at h
  split_ifs at h <;> simp_all

theorem playerLink_out : C.playerLink i (.stdout (.player (C.player i))) = .up i (C.depth i) := by
  simp [playerLink]

theorem playerLink_in : C.playerLink i (.stdin (.player (C.player i))) = .down i (C.depth i) := by
  simp [playerLink]

theorem playerLink_fifo (k : PlayerId) : C.playerLink i (.fifo k) = .other (.player i) (.fifo k) := by
  simp [playerLink]

theorem playerLink_injective : Function.Injective (C.playerLink i) := by
  intro c c' h
  simp only [playerLink] at h
  split_ifs at h <;> simp_all

end

/-! ## Who writes what -/

section

variable [Arith] (m : Bool → Status) (o : Bool → Int)

/-- What the two slots of `X` hold when it begins. -/
def opening : Bool → Status := fun i => { m i with currentBattleId := C.top.letter }

/-- The two slots after `n` rounds. -/
def after (n : Nat) : Bool → Status := rounds (attrTable C.top) (C.opening m) n

/-- Link `j` carries the same messages for each `j`. -/
def Says : Link → Nat → Status → Prop
  | .up i _, 0, v => v = m i
  | .up i _, n + 1, v => Live (attrTable C.top) (C.opening m) n ∧ Alive (C.after m (n + 1) i) ∧
      v = answer (o i) (C.after m (n + 1) i)
  | .down i _, n, v => Live (attrTable C.top) (C.opening m) n ∧ v = C.after m (n + 1) i
  | .other _ (.stdin _), _, _ => False
  | .other _ _, _, _ => True

/-- The agent the player writes to when it has lost. -/
def Heir (i : Bool) (a : PlayerId) : Prop := ∃ n, Over (attrTable C.top) (C.opening m) n ∧
  ¬ Alive (C.after m (n + 1) i) ∧ heir (C.after m (n + 1) i) (C.player i) = some a

def Part (file : List Line) : (p : Station) → Loc p → (Link → Nat) → (Link → Nat) → Prop
  | .top, l, τ, ν => BattleAt (fun c => C.Says m o (C.topLink c)) C.top (C.opening m) l
      (tally C.top (τ ∘ C.topLink) (ν ∘ C.topLink))
  | .relay i j, l, τ, ν => j < C.depth i →
      RelayAt (fun c => C.Says m o (C.relayLink i j c)) (C.battle i j) 0 l
        (tally (C.battle i j) (τ ∘ C.relayLink i j) (ν ∘ C.relayLink i j)) ∧ l.win = C.win i j
  | .player i, l, τ, ν => PlayerAt file (fun c => C.Says m o (C.playerLink i c)) (C.player i) (o i)
      (C.Heir m i) l (playerTally (C.player i) (τ ∘ C.playerLink i) (ν ∘ C.playerLink i))

end

section

variable [Arith] {C} {m : Bool → Status} {o : Bool → Int} (hm : ∀ i, (m i).battleEndedFlag = 0)

theorem over_of_dead {n : Nat} {i : Bool} (hm : ∀ i, (m i).battleEndedFlag = 0)
    (hl : Live (attrTable C.top) (C.opening m) n) (hd : ¬ Alive (C.after m (n + 1) i)) :
    Over (attrTable C.top) (C.opening m) n := by
  have hf := (dead_iff fun h => play_ended h i).1 hd
  have hst : ∀ i, (C.opening m i).battleEndedFlag = 0 := hm
  refine ⟨hl, ?_⟩
  rw [rounds_flags hst (n + 1) false i]
  exact hf.1

theorem answer_live {n : Nat} {i : Bool} (hm : ∀ i, (m i).battleEndedFlag = 0)
    (hl : Live (attrTable C.top) (C.opening m) (n + 1)) :
    answer (o i) (C.after m (n + 1) i) = C.after m (n + 1) i := by
  have hst : ∀ i, (C.opening m i).battleEndedFlag = 0 := hm
  exact if_neg (live_flag hst hl i)

include hm

theorem fought : Fought (fun c => C.Says m o (C.topLink c)) C.top (C.opening m) where
  opening {i v} hv := by
    have hv : C.Says m o (C.topLink _) 0 v := hv
    rw [topLink_out] at hv
    cases hv
    rfl
  round i hl := by
    show C.Says m o (C.topLink _) _ _
    rw [topLink_in]
    exact ⟨hl, rfl⟩
  echo {k i v} hl hv := by
    have hv : C.Says m o (C.topLink _) (k + 1) v := hv
    rw [topLink_out] at hv
    exact hv.2.2.trans (answer_live hm hl)
  relays _ _ _ :=
    { up := fun _ => by
        rw [topLink_up]
        exact True.intro
      down := fun h => by
        rw [topLink_down] at h
        exact h.elim }

omit hm in
theorem relays_says (i : Bool) (j : Nat) :
    Relays (fun c => C.Says m o (C.relayLink i j c)) (C.battle i j) 0 (C.win i j) where
  up {n v} h := by
    rw [relayLink_out, Nat.zero_add] at h
    rw [relayLink_up]
    cases n <;> exact h
  down {n v} h := by
    rw [relayLink_down] at h
    rw [relayLink_in, Nat.zero_add]
    exact h

theorem plays (i : Bool) :
    Plays (fun c => C.Says m o (C.playerLink i c)) (C.player i) (o i) (C.Heir m i) where
  sound {n v} hv h := by
    rw [playerLink_in] at hv
    obtain ⟨-, rfl⟩ := hv
    exact play_ended h i
  reply {n v} hv ha := by
    rw [playerLink_in] at hv
    rw [playerLink_out]
    obtain ⟨hl, rfl⟩ := hv
    exact ⟨hl, ha, rfl⟩
  hand {n v a} hv hd hh := by
    rw [playerLink_in] at hv
    rw [playerLink_fifo]
    obtain ⟨hl, rfl⟩ := hv
    exact ⟨⟨n, over_of_dead hm hl hd, hd, hh⟩, trivial⟩
  keep {n v a} hv hd ha := by
    rw [playerLink_in] at hv
    obtain ⟨hl, rfl⟩ := hv
    obtain ⟨n', ho, -, hh⟩ := ha
    rwa [over_unique (over_of_dead hm hl hd) ho]

end

/-! ## Each process does its part -/

section

variable {C}

theorem below_of_lt {i : Bool} {j : Nat} (h : j < C.depth i) : C.below i j = .relay i j := if_pos h

theorem below_depth (i : Bool) : C.below i (C.depth i) = .player i := if_neg (Nat.lt_irrefl _)

variable [Arith] {m : Bool → Status} {o : Bool → Int} {file : List Line}

theorem part_frame {p : Station} {l : Loc p} {τ τ' ν ν' : Link → Nat}
    (hτ : ∀ c, C.rcv c = p → τ' c = τ c) (hν : ∀ c, C.snd c = p → ν' c = ν c)
    (h : C.Part m o file p l τ ν) : C.Part m o file p l τ' ν' := by
  cases p with
  | top =>
    have ht : tally C.top (τ' ∘ C.topLink) (ν' ∘ C.topLink) =
        tally C.top (τ ∘ C.topLink) (ν ∘ C.topLink) := by
      refine tally_congr (fun i => hτ _ ?_) (fun i => hν _ ?_) (hν _ ?_) (hτ _ ?_)
      · rw [topLink_out]; rfl
      · rw [topLink_in]; rfl
      · rw [topLink_up]; rfl
      · rw [topLink_down]; rfl
    rw [Part, ht]
    exact h
  | relay i j =>
    intro hj
    have ht : tally (C.battle i j) (τ' ∘ C.relayLink i j) (ν' ∘ C.relayLink i j) =
        tally (C.battle i j) (τ ∘ C.relayLink i j) (ν ∘ C.relayLink i j) := by
      refine tally_congr (fun i' => hτ _ ?_) (fun i' => hν _ ?_) (hν _ ?_) (hτ _ ?_)
      · rcases Bool.eq_or_eq_not i' (C.win i j) with rfl | rfl
        · rw [relayLink_out]; rfl
        · rw [relayLink_lost_out]; rfl
      · rcases Bool.eq_or_eq_not i' (C.win i j) with rfl | rfl
        · rw [relayLink_in]; rfl
        · rw [relayLink_lost_in]; rfl
      · rw [relayLink_up]; exact below_of_lt hj
      · rw [relayLink_down]; exact below_of_lt hj
    rw [ht]
    exact h hj
  | player i =>
    refine PlayerAt.congr h (hτ _ ?_) (hν _ ?_) (hτ _ ?_) fun a _ => hν _ ?_
    · rw [playerLink_in]; exact below_depth i
    · rw [playerLink_out]; exact below_depth i
    · rw [playerLink_fifo]; rfl
    · rw [playerLink_fifo]; rfl

theorem part_owns {p : Station} {l : Loc p} {τ ν : Link → Nat} (h : C.Part m o file p l τ ν) :
    Kahn.Owns C.snd C.rcv p (C.prog file p l) := by
  cases p with
  | top =>
    refine Kahn.Owns.rename (battle_owns (fun i => ?_) ?_ (fun i => ?_) ?_ l)
    · exact congrArg C.snd (C.topLink_in i)
    · exact congrArg C.snd C.topLink_up
    · exact congrArg C.rcv (C.topLink_out i)
    · exact congrArg C.rcv C.topLink_down
  | relay i j =>
    rw [prog]
    split
    · rename_i hj
      obtain ⟨hr, hw⟩ := h hj
      refine Kahn.Owns.rename (relay_owns hr ?_ ?_ ?_ ?_)
      · rw [hw]
        exact congrArg C.snd (C.relayLink_in i j)
      · exact (congrArg C.snd (C.relayLink_up i j)).trans (below_of_lt hj)
      · rw [hw]
        exact congrArg C.rcv (C.relayLink_out i j)
      · exact (congrArg C.rcv (C.relayLink_down i j)).trans (below_of_lt hj)
    · trivial
  | player i =>
    refine Kahn.Owns.rename (player_owns h ?_ ?_ ?_ fun a _ => ?_)
    · exact (congrArg C.snd (C.playerLink_out i)).trans (below_depth i)
    · exact (congrArg C.rcv (C.playerLink_in i)).trans (below_depth i)
    · exact congrArg C.rcv (C.playerLink_fifo i _)
    · exact congrArg C.snd (C.playerLink_fifo i a)

/-- A relay goes on with the same winner. -/
theorem relay_next {b : Battle} {M : Chan → Nat → Status → Prop} {n : Nat} {l : BattleLoc} {t : Tally}
    (h : RelayAt M b n l t) : (battleMain b l).Next fun l' => l'.win = l.win := by
  obtain ⟨pc, status, w⟩ := l
  cases pc with
  | relayRead => exact fun _ => rfl
  | relayUp => exact rfl
  | relayDown => exact fun _ => rfl
  | relayWrite => exact (relayed_eq _).1
  | waitLast => exact rfl
  | exit => exact rfl
  | done => trivial
  | _ => exact h.elim

theorem part_follows (hm : ∀ i, (m i).battleEndedFlag = 0) {p : Station} {l : Loc p}
    {τ ν : Link → Nat} (h : C.Part m o file p l τ ν) :
    (C.prog file p l).Follows (C.Says m o) (C.Part m o file p) τ ν := by
  cases p with
  | top => exact (battle_follows (fought hm) h).rename C.topLink_injective
  | relay i j =>
    rw [prog]
    split
    · rename_i hj
      obtain ⟨hr, hw⟩ := h hj
      have hrel := relays_says (C := C) (m := m) (o := o) i j
      rw [← hw] at hrel
      have hf := (relay_follows (C.relays i j) hrel hr).next (relay_next hr)
        fun l' τ ν hr' hn => (⟨hr', hn.trans hw⟩ : _ ∧ l'.win = C.win i j)
      exact (hf.rename (C.relayLink_injective i j)).mono fun l' τ ν h _ => h
    · trivial
  | player i => exact (player_follows (plays hm i) h).rename (C.playerLink_injective i)

def script (C : Chain) (file : List Line) (m : Bool → Status) (o : Bool → Int)
    (hm : ∀ i, (m i).battleEndedFlag = 0) : Kahn.Script (C.prog file) C.snd C.rcv where
  msg := C.Says m o
  part := C.Part m o file
  owns := part_owns
  follows := part_follows hm
  frame := part_frame

end

/-! ## The first state -/

section

variable [Arith] {C} {m : Bool → Status} {file : List Line} {s : State}

/-- The full HP of the player, also if it is yet to be set. -/
def origin (s : State) (i : Bool) : Int :=
  if (playerLoc i s).pc = .enter then (playerLoc i s).mystatus.HP else (playerLoc i s).originHP

theorem battleAt_read {M : Chan → Nat → Status → Prop} {b : Battle} {st : Bool → Status}
    {l : BattleLoc} {t : Tally} (hl : l.pc = .read false) (ht : t.Is 0 0 0 0 0 0) :
    BattleAt M b st l t := by
  obtain ⟨pc, status, w⟩ := l
  cases hl
  exact ht

omit [Arith] in
theorem relayAt_read {M : Chan → Nat → Status → Prop} {b : Battle} {l : BattleLoc} {t : Tally}
    (hl : l.pc = .relayRead) (ht : t.Passed l.win 0 0 0 0) : RelayAt M b 0 l t := by
  obtain ⟨pc, status, w⟩ := l
  cases hl
  exact ⟨0, ht, .inl rfl⟩

theorem Start.holds (hs : C.Start m s) (hm : ∀ i, (m i).battleEndedFlag = 0) :
    (script C file m (origin s) hm).Holds s := by
  have hτ : Kahn.received s = fun _ => 0 := by
    funext c
    rw [Kahn.received, hs.taken]
    rfl
  have hsent : ∀ c, Kahn.sent s c = [] := by
    intro c
    rw [Kahn.sent, hs.taken, hs.queue]
    rfl
  have hν : Kahn.written s = fun _ => 0 := by
    funext c
    rw [Kahn.written, hsent]
    rfl
  constructor
  · intro p
    rw [hτ, hν]
    cases p with
    | top => exact battleAt_read hs.top ⟨rfl, rfl, rfl, rfl, rfl, rfl⟩
    | relay i j =>
      intro hj
      obtain ⟨hpc, hw⟩ := hs.relay i j hj
      exact ⟨relayAt_read hpc ⟨rfl, rfl, rfl, rfl⟩, hw⟩
    | player i =>
      obtain ⟨hpc, hst⟩ := hs.player i
      have hsay : C.Says m (origin s) (C.playerLink i (.stdout (.player (C.player i)))) 0
          (playerLoc i s).mystatus := by
        rw [playerLink_out]
        exact hst
      have ho : origin s i = if (playerLoc i s).pc = .enter then (playerLoc i s).mystatus.HP
        else (playerLoc i s).originHP := rfl
      show PlayerAt _ _ _ _ _ (playerLoc i s) _
      generalize playerLoc i s = l at *
      obtain ⟨pc, v, q⟩ := l
      simp only [List.mem_cons, List.not_mem_nil, or_false] at hpc
      rcases hpc with rfl | rfl
      · exact ⟨rfl, rfl, fun _ _ => rfl, hsay, ho.symm⟩
      · exact ⟨0, rfl, rfl, fun _ _ => rfl, hsay, ho.symm⟩
  · intro c n v hv
    rw [hsent] at hv
    cases hv

theorem reachable_holds (hm : ∀ i, (m i).battleEndedFlag = 0) (hs : C.Start m s) {s' : State}
    (hr : Reachable (Kahn.step (C.prog file)) s s') : (script C file m (origin s) hm).Holds s' :=
  (script C file m (origin s) hm).reachable (hs.holds hm) hr

end

/-! ## Counting along the chain -/

/-- How many messages pass along side `i`. -/
structure Flow (C : Chain) (i : Bool) (s : State) : Prop where
  behind : Kahn.written s (.down i 0) ≤ Kahn.received s (.up i 0)
  ahead : Kahn.received s (.up i 0) ≤ Kahn.written s (.down i 0) + 1
  relay : ∀ j < C.depth i, Kahn.written s (.up i j) + Kahn.written s (.down i (j + 1)) ≤
    Kahn.received s (.up i (j + 1)) + Kahn.received s (.down i j)
  up : ∀ j < C.depth i, Kahn.written s (.up i j) ≤ Kahn.received s (.up i (j + 1))
  down : ∀ j < C.depth i, Kahn.written s (.down i (j + 1)) ≤ Kahn.received s (.down i j)
  reply : Kahn.received s (.down i (C.depth i)) ≤ Kahn.written s (.up i (C.depth i))
  wait : Kahn.written s (.up i (C.depth i)) ≤ Kahn.received s (.down i (C.depth i)) + 1

section

variable {C} {i : Bool} {j k : Nat} {s : State}

/-- The messages on their way between `X` and link `k`. -/
theorem Flow.transit_to (h : C.Flow i s) (hk : k ≤ C.depth i) :
    ∑ j ∈ Finset.range (k + 1), ((s.queue (.up i j)).length + (s.queue (.down i j)).length) +
        Kahn.received s (.up i 0) + Kahn.received s (.down i k) ≤
      Kahn.written s (.up i k) + Kahn.written s (.down i 0) := by
  induction k with
  | zero =>
    rw [Finset.sum_range_one]
    have hu := Kahn.queue_length s (.up i 0)
    have hd := Kahn.queue_length s (.down i 0)
    omega
  | succ k ih =>
    rw [Finset.sum_range_succ]
    have hr := h.relay k hk
    have hu := Kahn.queue_length s (.up i (k + 1))
    have hd := Kahn.queue_length s (.down i (k + 1))
    have := ih (by omega)
    omega

theorem Flow.transit (h : C.Flow i s) : ∑ j ∈ Finset.range (C.depth i + 1),
    ((s.queue (.up i j)).length + (s.queue (.down i j)).length) ≤ 1 := by
  have := h.transit_to (Nat.le_refl _)
  have hb := h.behind
  have hw := h.wait
  omega

theorem Flow.down_le (h : C.Flow i s) (hjk : j ≤ k) (hk : k ≤ C.depth i) :
    Kahn.written s (.down i k) ≤ Kahn.written s (.down i j) := by
  induction k, hjk using Nat.le_induction with
  | base => exact Nat.le_refl _
  | succ k _ ih =>
    calc Kahn.written s (.down i (k + 1)) ≤ Kahn.received s (.down i k) := h.down k hk
      _ ≤ Kahn.written s (.down i k) := Kahn.received_le s _
      _ ≤ Kahn.written s (.down i j) := ih (by omega)

theorem Flow.up_le (h : C.Flow i s) (hjk : j ≤ k) (hk : k ≤ C.depth i) :
    Kahn.written s (.up i j) ≤ Kahn.written s (.up i k) := by
  induction k, hjk using Nat.le_induction with
  | base => exact Nat.le_refl _
  | succ k _ ih =>
    calc Kahn.written s (.up i j) ≤ Kahn.written s (.up i k) := ih (by omega)
      _ ≤ Kahn.received s (.up i (k + 1)) := h.up k hk
      _ ≤ Kahn.written s (.up i (k + 1)) := Kahn.received_le s _

end

section

variable [Arith] {C} {m : Bool → Status} {o : Bool → Int} {file : List Line} {s : State} {i : Bool}
  {j n g : Nat} {hm : ∀ i, (m i).battleEndedFlag = 0} (h : (script C file m o hm).Holds s)

include h

theorem topAt : BattleAt (fun c => C.Says m o (C.topLink c)) C.top (C.opening m) (topLoc s)
    (tally C.top (Kahn.received s ∘ C.topLink) (Kahn.written s ∘ C.topLink)) := h.part .top

theorem relayAt (hj : j < C.depth i) :
    RelayAt (fun c => C.Says m o (C.relayLink i j c)) (C.battle i j) 0 (relayLoc i j s)
        (tally (C.battle i j) (Kahn.received s ∘ C.relayLink i j) (Kahn.written s ∘ C.relayLink i j)) ∧
      (relayLoc i j s).win = C.win i j := h.part (.relay i j) hj

theorem playerAt : PlayerAt file (fun c => C.Says m o (C.playerLink i c)) (C.player i) (o i)
    (C.Heir m i) (playerLoc i s)
    (playerTally (C.player i) (Kahn.received s ∘ C.playerLink i) (Kahn.written s ∘ C.playerLink i)) :=
  h.part (.player i)

theorem flow (i : Bool) : C.Flow i s := by
  have hrelay : ∀ j < C.depth i, Kahn.written s (.up i j) + Kahn.written s (.down i (j + 1)) ≤
      Kahn.received s (.up i (j + 1)) + Kahn.received s (.down i j) ∧
      Kahn.written s (.up i j) ≤ Kahn.received s (.up i (j + 1)) ∧
      Kahn.written s (.down i (j + 1)) ≤ Kahn.received s (.down i j) := by
    intro j hj
    obtain ⟨hr, hw⟩ := relayAt h hj
    obtain ⟨hflow, hup, hdown, -⟩ := relayAt_counts hr
    simp only [tally, Function.comp_apply, hw, relayLink_out, relayLink_in, relayLink_up,
      relayLink_down, Nat.zero_add] at hflow hup hdown
    exact ⟨hflow, hup, hdown⟩
  obtain ⟨hbehind, hahead, -⟩ := battleAt_even (topAt h) i
  simp only [tally, Function.comp_apply, topLink_out, topLink_in] at hbehind hahead
  have hplayer := playerAt_counts (playerAt (i := i) h)
  simp only [playerTally, Function.comp_apply, playerLink_out, playerLink_in] at hplayer
  exact ⟨hbehind, hahead, fun j hj => (hrelay j hj).1, fun j hj => (hrelay j hj).2.1,
    fun j hj => (hrelay j hj).2.2, hplayer.1, hplayer.2⟩

end

/-! ## Until the last message -/

section

variable [Arith] (m : Bool → Status)

/-- None of the first `g` statuses ends the part of the player on side `i`. -/
def Ongoing (g : Nat) (i : Bool) : Prop := g = 0 ∨ Alive (C.after m g i)

/-- The first `g` statuses that `X` writes to side `i`. -/
def stages (g : Nat) (i : Bool) : List Status := (List.range g).map fun n => C.after m (n + 1) i

variable {C} {m} {i : Bool}

theorem stages_last (g : Nat) :
    (C.stages m (g + 1) i).getLast? = some (C.after m (g + 1) i) := by
  rw [stages, List.range_succ, List.map_append, List.map_singleton, List.getLast?_concat]

theorem last_final (g : Nat) : (∃ v, (C.stages m g i).getLast? = some v ∧ Final v) ↔
    ¬ C.Ongoing m g i := by
  cases g with
  | zero =>
    constructor
    · rintro ⟨v, hv, -⟩
      cases hv
    · exact fun h => absurd (.inl rfl) h
  | succ g =>
    have hd : ¬ Alive (C.after m (g + 1) i) ↔ Final (C.after m (g + 1) i) :=
      dead_iff fun h => play_ended h i
    rw [stages_last, Ongoing, not_or, hd]
    constructor
    · rintro ⟨v, hv, hf⟩
      cases hv
      exact ⟨Nat.succ_ne_zero g, hf⟩
    · rintro ⟨-, hf⟩
      exact ⟨_, rfl, hf⟩

theorem take_stages {g n : Nat} (h : n ≤ g) : (C.stages m g i).take n = C.stages m n i := by
  rw [stages, ← List.map_take, List.take_range, Nat.min_eq_left h]
  rfl

end

section

variable [Arith] {C} {m : Bool → Status} {o : Bool → Int} {file : List Line} {s : State} {i : Bool}
  {j n g : Nat} {v : Status} {hm : ∀ i, (m i).battleEndedFlag = 0}

/-- Who has written to `X` so often plays on. -/
theorem ongoing_of_up (h : C.Says m o (.up i j) n v) : C.Ongoing m n i := by
  cases n with
  | zero => exact .inl rfl
  | succ n => exact .inr h.2.1

variable (h : (script C file m o hm).Holds s)

include h

theorem up_ongoing (hn : n < Kahn.written s (.up i j)) : C.Ongoing m n i :=
  ongoing_of_up (h.msg (List.getElem?_eq_getElem hn))

theorem down_live (hn : n < Kahn.written s (.down i j)) : Live (attrTable C.top) (C.opening m) n :=
  (h.msg (List.getElem?_eq_getElem hn)).1

theorem sent_down : Kahn.sent s (.down i j) = C.stages m (Kahn.written s (.down i j)) i := by
  refine List.ext_getElem (by simp [Kahn.written, stages]) fun n hn hn' => ?_
  have hv : C.Says m o (.down i j) n _ := h.msg (List.getElem?_eq_getElem hn)
  rw [hv.2]
  simp only [stages, List.getElem_map, List.getElem_range]

theorem taken_down : s.taken (.down i j) = C.stages m (Kahn.received s (.down i j)) i := by
  have ht : s.taken (.down i j) = (Kahn.sent s (.down i j)).take (Kahn.received s (.down i j)) := by
    rw [Kahn.sent, Kahn.received, List.take_left]
  rw [ht, sent_down h, take_stages (Kahn.received_le s _)]

/-- After a final status there is no other. -/
theorem written_of_ended (hg : ¬ C.Ongoing m g i) (hle : g ≤ Kahn.written s (.down i 0)) :
    Kahn.written s (.down i 0) = g := by
  rw [Ongoing, not_or] at hg
  obtain ⟨n, rfl⟩ := Nat.exists_eq_succ_of_ne_zero hg.1
  have ho := over_of_dead hm (down_live h hle) hg.2
  by_contra hne
  exact ho.not_live (Nat.lt_succ_self n) (down_live h (j := 0) (i := i) (by omega))

theorem forwards_iff (hj : j < C.depth i) : (relayLoc i j s).pc.forwards = true ↔
    C.Ongoing m (Kahn.written s (.down i (j + 1))) i := by
  obtain ⟨hr, hw⟩ := relayAt h hj
  have hup : ∀ n, Kahn.received s (.up i (j + 1)) = n + 1 → C.Ongoing m n i := fun n hn =>
    up_ongoing h (Nat.lt_of_lt_of_le (by omega) (Kahn.received_le s (.up i (j + 1))))
  have hsay : ∀ {n v}, C.Says m o (C.relayLink i j (.stdin (child (C.battle i j) (C.win i j)))) n v →
      v = C.after m (n + 1) i := by
    intro n v hv
    rw [relayLink_in] at hv
    exact hv.2
  have htally : ∀ {f u d g}, (tally (C.battle i j) (Kahn.received s ∘ C.relayLink i j)
      (Kahn.written s ∘ C.relayLink i j)).Passed (C.win i j) f u d g →
      Kahn.received s (.up i (j + 1)) = f ∧ Kahn.written s (.down i (j + 1)) = g := by
    rintro f u d g ⟨hf, -, -, hg⟩
    simp only [tally, Function.comp_apply, relayLink_out, relayLink_in] at hf hg
    exact ⟨hf, hg⟩
  have hend : ∀ {n v}, Kahn.written s (.down i (j + 1)) = 0 + n + 1 →
      C.Says m o (C.relayLink i j (.stdin (child (C.battle i j) (C.win i j)))) (0 + n) v →
      ¬ Alive v → ¬ C.Ongoing m (Kahn.written s (.down i (j + 1))) i := by
    intro n v hg hv hd
    rw [hg, Ongoing, not_or, ← hsay hv]
    exact ⟨Nat.succ_ne_zero _, hd⟩
  generalize relayLoc i j s = l at *
  obtain ⟨pc, status, w⟩ := l
  dsimp only at hw
  subst hw
  cases pc with
  | relayRead =>
    obtain ⟨n, ht, hv⟩ := hr
    refine ⟨fun _ => ?_, fun _ => rfl⟩
    rw [(htally ht).2]
    rcases hv with rfl | ⟨n', v, hn', hv, ha⟩
    · exact .inl rfl
    · rw [← hn']
      exact .inr (hsay hv ▸ ha)
  | relayUp =>
    obtain ⟨n, ht, -⟩ := hr
    rw [(htally ht).2]
    exact ⟨fun _ => hup _ (htally ht).1, fun _ => rfl⟩
  | relayDown =>
    obtain ⟨n, ht⟩ := hr
    rw [(htally ht).2]
    exact ⟨fun _ => hup _ (htally ht).1, fun _ => rfl⟩
  | relayWrite =>
    obtain ⟨n, ht, -⟩ := hr
    rw [(htally ht).2]
    exact ⟨fun _ => hup _ (htally ht).1, fun _ => rfl⟩
  | waitLast =>
    obtain ⟨n, ht, v, hv, hd⟩ := hr
    exact ⟨(absurd · Bool.false_ne_true), fun h => absurd h (hend (htally ht).2 hv hd)⟩
  | exit =>
    obtain ⟨n, ht, v, hv, hd⟩ := hr
    exact ⟨(absurd · Bool.false_ne_true), fun h => absurd h (hend (htally ht).2 hv hd)⟩
  | done =>
    obtain ⟨n, ht, v, hv, hd⟩ := hr
    exact ⟨(absurd · Bool.false_ne_true), fun h => absurd h (hend (htally ht).2 hv hd)⟩
  | _ => exact hr.elim

theorem out_iff : (playerLoc i s).pc.out = true ↔
    ¬ C.Ongoing m (Kahn.received s (.down i (C.depth i))) i := by
  rcases playerAt_cases (playerAt (i := i) h) with ⟨hpc, hf, -⟩ | ⟨hpc, -, -, hv, hf⟩ |
    ⟨hpc, -, -, hu⟩ | ⟨hpc, n, v, hf, -, hv, hd, -⟩
  · simp only [playerTally, Function.comp_apply, playerLink_in] at hf
    rw [hpc, hf]
    exact ⟨(absurd · Bool.false_ne_true), fun hn => absurd (.inl rfl) hn⟩
  · simp only [playerTally, Function.comp_apply, playerLink_in, playerLink_out] at hv hf
    rw [hpc, hf]
    exact ⟨(absurd · Bool.false_ne_true), fun hn => absurd (ongoing_of_up hv) hn⟩
  · simp only [playerTally, Function.comp_apply, playerLink_in, playerLink_out] at hu
    rw [hpc]
    refine ⟨(absurd · Bool.false_ne_true), fun hn => absurd (up_ongoing h (j := C.depth i) ?_) hn⟩
    omega
  · simp only [playerTally, Function.comp_apply, playerLink_in] at hf hv
    rw [hpc, hf, Ongoing, not_or, ← hv.2]
    exact ⟨fun _ => ⟨Nat.succ_ne_zero n, hd⟩, fun _ => rfl⟩

/-- Who is not reading has answered all. -/
theorem idle_or_read : (playerLoc i s).pc = .read ∨ (playerLoc i s).pc.out = true ∨
    Kahn.written s (.up i (C.depth i)) = Kahn.received s (.down i (C.depth i)) := by
  rcases playerAt_cases (playerAt (i := i) h) with ⟨-, hf, hu, -⟩ | ⟨-, -, -, -, hf⟩ | ⟨hpc, -⟩ |
    ⟨hpc, -⟩
  · simp only [playerTally, Function.comp_apply, playerLink_in, playerLink_out] at hf hu
    exact .inr (.inr (hu.trans hf.symm))
  · simp only [playerTally, Function.comp_apply, playerLink_in, playerLink_out] at hf
    exact .inr (.inr hf.symm)
  · exact .inl hpc
  · exact .inr (.inl hpc)

theorem read_first (hpc : (topLoc s).pc = .read i) : Kahn.received s (.up i 0) = 0 := by
  have ht := topAt h
  generalize topLoc s = l at *
  obtain ⟨pc, status, w⟩ := l
  cases hpc
  cases i with
  | false =>
    have hf := Tally.Is.from₀ ht
    simp only [tally, Function.comp_apply, topLink_out] at hf
    exact hf
  | true =>
    have hf := ht.1.from₁
    simp only [tally, Function.comp_apply, topLink_out] at hf
    exact hf

theorem reread_round (hpc : (topLoc s).pc = .reread i) : ∃ k,
    Live (attrTable C.top) (C.opening m) (k + 1) ∧ Kahn.received s (.up i 0) = k + 1 ∧
      Kahn.written s (.down i 0) = k + 1 := by
  have ht := topAt h
  generalize topLoc s = l at *
  obtain ⟨pc, status, w⟩ := l
  cases hpc
  cases i with
  | false =>
    obtain ⟨k, hl, -, ht⟩ := ht
    have hf := ht.from₀
    have hg := ht.to₀
    simp only [tally, Function.comp_apply, topLink_out, topLink_in] at hf hg
    exact ⟨k, hl, hf, hg⟩
  | true =>
    obtain ⟨k, hl, -, ht⟩ := ht
    have hf := ht.from₁
    have hg := ht.to₁
    simp only [tally, Function.comp_apply, topLink_out, topLink_in] at hf hg
    exact ⟨k, hl, hf, hg⟩

end

/-! ## Relaying -/

/-- Side `i` as `X` and the player see it. -/
structure Faithful [Arith] (C : Chain) (m : Bool → Status) (i : Bool) (s : State) : Prop where
  first : (topLoc s).pc = .read i → ∀ v, (s.queue (.up i 0)).head? = some v → v = m i
  /-- What `X` reads next is what it wrote last. -/
  echo : (topLoc s).pc = .reread i → ∀ v, (s.queue (.up i 0)).head? = some v →
    (Kahn.sent s (.down i 0)).getLast? = some v
  transit : ∑ j ∈ Finset.range (C.depth i + 1),
    ((s.queue (.up i j)).length + (s.queue (.down i j)).length) ≤ 1
  /-- A relay has left its loop if the last it has written is final. -/
  left : ∀ j < C.depth i, (relayLoc i j s).pc.forwards = false ↔
    ∃ v, (Kahn.sent s (.down i (j + 1))).getLast? = some v ∧ Final v
  /-- The player has left its loop if the last it has read is final. -/
  out : (playerLoc i s).pc.out = true ↔
    ∃ v, (s.taken (.down i (C.depth i))).getLast? = some v ∧ Final v
  leftAll : ∀ j < C.depth i, (relayLoc i j s).pc.forwards = false →
    Kahn.sent s (.down i (j + 1)) = Kahn.sent s (.down i 0)
  outAll : (playerLoc i s).pc.out = true →
    s.taken (.down i (C.depth i)) = Kahn.sent s (.down i 0)
  /-- No relay waits for a player that is out. -/
  noWait : (playerLoc i s).pc.out = true → ∀ j < C.depth i, (relayLoc i j s).pc.forwards = false
  /-- No player is to write to a relay that has left. -/
  noWrite : ∀ j < C.depth i, (relayLoc i j s).pc.forwards = false →
    (playerLoc i s).pc = .read ∨ (playerLoc i s).pc.out = true

section

variable [Arith] {C} {m : Bool → Status} {o : Bool → Int} {file : List Line} {s : State}
  {hm : ∀ i, (m i).battleEndedFlag = 0} (h : (script C file m o hm).Holds s)

include h

theorem left_iff {i : Bool} {j : Nat} (hj : j < C.depth i) :
    (relayLoc i j s).pc.forwards = false ↔ ¬ C.Ongoing m (Kahn.written s (.down i (j + 1))) i := by
  rw [← forwards_iff h hj, Bool.not_eq_true]

theorem written_of_left {i : Bool} {j : Nat} (hj : j < C.depth i)
    (hl : (relayLoc i j s).pc.forwards = false) :
    Kahn.written s (.down i 0) = Kahn.written s (.down i (j + 1)) :=
  written_of_ended h ((left_iff h hj).1 hl) ((flow h i).down_le (Nat.zero_le _) hj)

theorem written_of_out {i : Bool} (ho : (playerLoc i s).pc.out = true) :
    Kahn.written s (.down i 0) = Kahn.received s (.down i (C.depth i)) :=
  written_of_ended h ((out_iff h).1 ho)
    ((Kahn.received_le s _).trans ((flow h i).down_le (Nat.zero_le _) (Nat.le_refl _)))

theorem left_of_out {i : Bool} {j : Nat} (hj : j < C.depth i) (ho : (playerLoc i s).pc.out = true) :
    (relayLoc i j s).pc.forwards = false := by
  have hw := written_of_out h ho
  have h1 := (flow h i).down_le (Nat.zero_le (j + 1)) hj
  have h2 := (flow h i).down_le (j := j + 1) hj (Nat.le_refl _)
  have h3 := Kahn.received_le s (.down i (C.depth i))
  have heq : Kahn.written s (.down i (j + 1)) = Kahn.received s (.down i (C.depth i)) := by omega
  rw [left_iff h hj, heq]
  exact (out_iff h).1 ho

theorem read_of_left {i : Bool} {j : Nat} (hj : j < C.depth i)
    (hl : (relayLoc i j s).pc.forwards = false) :
    (playerLoc i s).pc = .read ∨ (playerLoc i s).pc.out = true := by
  rcases idle_or_read (i := i) h with hr | ho | heq
  · exact .inl hr
  · exact .inr ho
  · obtain ⟨hr, hw⟩ := relayAt h hj
    have hahead := (relayAt_counts hr).2.2.2.1
    simp only [tally, Function.comp_apply, hw, relayLink_out, relayLink_in] at hahead
    have hg : Kahn.written s (.down i (j + 1)) = Kahn.received s (.down i (C.depth i)) := by
      refine Nat.le_antisymm ?_ ?_
      · calc Kahn.written s (.down i (j + 1)) ≤ Kahn.received s (.up i (j + 1)) := hahead
          _ ≤ Kahn.written s (.up i (j + 1)) := Kahn.received_le s _
          _ ≤ Kahn.written s (.up i (C.depth i)) := (flow h i).up_le hj (Nat.le_refl _)
          _ = Kahn.received s (.down i (C.depth i)) := heq
      · calc Kahn.received s (.down i (C.depth i)) ≤ Kahn.written s (.down i (C.depth i)) :=
              Kahn.received_le s _
          _ ≤ Kahn.written s (.down i (j + 1)) := (flow h i).down_le hj (Nat.le_refl _)
    refine .inr ((out_iff h).2 ?_)
    rw [← hg]
    exact (left_iff h hj).1 hl

theorem faithful (i : Bool) : C.Faithful m i s where
  first hpc v hv := by
    have hget := Kahn.head_get hv
    rw [read_first h hpc] at hget
    exact h.msg hget
  echo hpc v hv := by
    obtain ⟨k, hl, hf, hg⟩ := reread_round h hpc
    have hget := Kahn.head_get hv
    rw [hf] at hget
    have hsay : C.Says m o (.up i 0) (k + 1) v := h.msg hget
    rw [sent_down h, hg, stages_last, hsay.2.2, answer_live hm hl]
  transit := (flow h i).transit
  left j hj := by rw [left_iff h hj, sent_down h, last_final]
  out := by rw [out_iff h, taken_down h, last_final]
  leftAll j hj hl := by rw [sent_down h, sent_down h, written_of_left h hj hl]
  outAll ho := by rw [taken_down h, sent_down h, written_of_out h ho]
  noWait ho j hj := left_of_out h hj ho
  noWrite j hj hl := read_of_left h hj hl

end

/-- In every interleaving, for chains of every length on the two sides. -/
theorem chain_relays [Arith] (C : Chain) (file : List Line) (m : Bool → Status)
    (hm : ∀ i, (m i).battleEndedFlag = 0) (s : State) (hs : C.Start m s) (s' : State)
    (hr : Reachable (Kahn.step (C.prog file)) s s') (i : Bool) : C.Faithful m i s' :=
  faithful (reachable_holds hm hs hr) i

/-- Battle `B` between player 0, who has won `G` and `D`, and player 4, who has won `I` and `E`. -/
def semifinal : Chain where
  top := .B
  depth _ := 2
  battle
    | false, 0 => .D
    | false, _ => .G
    | true, 0 => .E
    | true, _ => .I
  win _ _ := false
  player i := if i then 4 else 0
  relays i j := by
    cases i <;> cases j <;> simp

def semifinalStatus (i : Bool) : Status :=
  if i then ⟨4, 9, 2, .WATER, 'E', 0⟩ else ⟨0, 6, 2, .FIRE, 'D', 0⟩

def semifinalStart : State where
  loc
    | .top => (⟨.read false, fun _ => Status.zero, false⟩ : BattleLoc)
    | .relay _ _ => (⟨.relayRead, fun _ => Status.zero, false⟩ : BattleLoc)
    | .player i => (⟨.write, semifinalStatus i, 12⟩ : PlayerLoc)
  queue _ := []
  taken _ := []
  up _ := false

/-- Player 0 is heard first; both get the statuses of the first round. -/
def firstRound : List Station :=
  [.player false, .relay false 1, .relay false 1, .relay false 0, .relay false 0, .top, .player true,
    .relay true 1, .relay true 1, .relay true 0, .relay true 0, .top, .top, .top, .relay false 0,
    .relay false 0, .relay true 0]

theorem chain_relays_semifinal : @Faithful .int semifinal semifinalStatus false
    ((runEvents (Kahn.step (@prog semifinal .int [])) semifinalStart firstRound).getD semifinalStart) := by
  have h : runEvents (Kahn.step (@prog semifinal .int [])) semifinalStart firstRound =
      some ((runEvents (Kahn.step (@prog semifinal .int [])) semifinalStart firstRound).getD
        semifinalStart) := rfl
  refine @chain_relays .int semifinal [] semifinalStatus (fun i => ?_) semifinalStart ?_ _
    (reachable_runEvents h) false
  · cases i <;> rfl
  · exact ⟨rfl, fun _ _ _ => ⟨rfl, rfl⟩, fun i => ⟨by simp [playerLoc, semifinalStart], rfl⟩,
      fun _ => rfl, fun _ => rfl⟩

end Chain

end SysProg.Tournament
