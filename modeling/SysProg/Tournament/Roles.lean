import SysProg.Script
import SysProg.Tournament.Leave

/-!
# SysProg.Tournament.Roles

What a battle and a player do, told by what they have received and sent so far.

`M c n v` says that the `n`-th message of channel `c` may be `v`.

* `Tally`, `PlayerTally`: how many messages a process has received from and sent to each side.
* `RelayAt`: a battle that relays, and what it has relayed.
* `BattleAt`, `battle_follows`: a battle plays its rounds and relays afterwards.
* `PlayerAt`, `player_follows`: a player answers until it is out.
-/

namespace SysProg.Tournament

open Kahn (Action)

/-! ## Counting messages -/

structure Tally where
  fromChild : Bool → Nat
  toChild : Bool → Nat
  toParent : Nat
  fromParent : Nat

/-- By what has been received (`τ`) and sent (`ν`). -/
def tally (b : Battle) (τ ν : Chan → Nat) : Tally where
  fromChild i := τ (.stdout (child b i))
  toChild i := ν (.stdin (child b i))
  toParent := ν (.stdout (.battle b))
  fromParent := τ (.stdin (.battle b))

section

variable (b : Battle) (i : Bool) (n : Nat) (τ ν : Chan → Nat)

theorem child_eq_child {b : Battle} {i j : Bool} : child b i = child b j ↔ i = j :=
  ⟨fun h => (child_inj h).2, fun h => h ▸ rfl⟩

theorem tally_recv_child : tally b (Function.update τ (.stdout (child b i)) n) ν =
    { tally b τ ν with fromChild := Function.update (tally b τ ν).fromChild i n } := by
  simp only [tally, Tally.mk.injEq, true_and]
  constructor
  · funext j
    simp only [Function.update_apply, Chan.stdout.injEq, child_eq_child]
  · exact Function.update_of_ne (by simp) ..

theorem tally_send_child : tally b τ (Function.update ν (.stdin (child b i)) n) =
    { tally b τ ν with toChild := Function.update (tally b τ ν).toChild i n } := by
  simp only [tally, Tally.mk.injEq, and_true, true_and]
  constructor
  · funext j
    simp only [Function.update_apply, Chan.stdin.injEq, child_eq_child]
  · exact Function.update_of_ne (by simp) ..

theorem tally_send_parent : tally b τ (Function.update ν (.stdout (.battle b)) n) =
    { tally b τ ν with toParent := n } := by
  simp only [tally, Tally.mk.injEq, and_true, true_and]
  constructor
  · funext j
    exact Function.update_of_ne (by simp) ..
  · exact Function.update_self ..

theorem tally_recv_parent : tally b (Function.update τ (.stdin (.battle b)) n) ν =
    { tally b τ ν with fromParent := n } := by
  simp only [tally, Tally.mk.injEq, true_and]
  constructor
  · funext j
    exact Function.update_of_ne (by simp) ..
  · exact Function.update_self ..

theorem tally_congr {b : Battle} {τ τ' ν ν' : Chan → Nat}
    (hf : ∀ i, τ' (.stdout (child b i)) = τ (.stdout (child b i)))
    (hg : ∀ i, ν' (.stdin (child b i)) = ν (.stdin (child b i)))
    (hu : ν' (.stdout (.battle b)) = ν (.stdout (.battle b)))
    (hd : τ' (.stdin (.battle b)) = τ (.stdin (.battle b))) : tally b τ' ν' = tally b τ ν := by
  simp only [tally, hf, hg, hu, hd]

variable {b} {i} {n} {τ} {ν} {M : Chan → Nat → Status → Prop} {P : BattleLoc → Tally → Prop}
  {f : Status → BattleLoc} {l : BattleLoc} {v : Status}

theorem follows_recv_child (hn : (tally b τ ν).fromChild i = n)
    (h : ∀ v, M (.stdout (child b i)) n v → P (f v)
      { tally b τ ν with fromChild := Function.update (tally b τ ν).fromChild i (n + 1) }) :
    (Action.recv (.stdout (child b i)) f : Action Chan Flag Status BattleLoc).Follows M
      (fun l τ ν => P l (tally b τ ν)) τ ν := by
  subst hn
  intro v hv
  show P (f v) (tally b _ ν)
  rw [tally_recv_child]
  exact h v hv

theorem follows_send_child (hn : (tally b τ ν).toChild i = n) (hv : M (.stdin (child b i)) n v)
    (h : P l { tally b τ ν with toChild := Function.update (tally b τ ν).toChild i (n + 1) }) :
    (Action.send (.stdin (child b i)) v l : Action Chan Flag Status BattleLoc).Follows M
      (fun l τ ν => P l (tally b τ ν)) τ ν := by
  subst hn
  refine ⟨hv, ?_⟩
  show P l (tally b τ _)
  rw [tally_send_child]
  exact h

theorem follows_send_parent (hn : (tally b τ ν).toParent = n) (hv : M (.stdout (.battle b)) n v)
    (h : P l { tally b τ ν with toParent := n + 1 }) :
    (Action.send (.stdout (.battle b)) v l : Action Chan Flag Status BattleLoc).Follows M
      (fun l τ ν => P l (tally b τ ν)) τ ν := by
  subst hn
  refine ⟨hv, ?_⟩
  show P l (tally b τ _)
  rw [tally_send_parent]
  exact h

theorem follows_recv_parent (hn : (tally b τ ν).fromParent = n)
    (h : ∀ v, M (.stdin (.battle b)) n v → P (f v) { tally b τ ν with fromParent := n + 1 }) :
    (Action.recv (.stdin (.battle b)) f : Action Chan Flag Status BattleLoc).Follows M
      (fun l τ ν => P l (tally b τ ν)) τ ν := by
  subst hn
  intro v hv
  show P (f v) (tally b _ ν)
  rw [tally_recv_parent]
  exact h v hv

end

namespace Tally

/-- Received from the two children, sent to them, sent to the parent and received from it. -/
structure Is (t : Tally) (f₀ f₁ g₀ g₁ u d : Nat) : Prop where
  from₀ : t.fromChild false = f₀
  from₁ : t.fromChild true = f₁
  to₀ : t.toChild false = g₀
  to₁ : t.toChild true = g₁
  up : t.toParent = u
  down : t.fromParent = d

section

variable {t : Tally} {f₀ f₁ g₀ g₁ u d n : Nat} (h : t.Is f₀ f₁ g₀ g₁ u d)

include h

theorem Is.recv₀ : Is { t with fromChild := Function.update t.fromChild false n } n f₁ g₀ g₁ u d where
  from₀ := by simp
  from₁ := by simpa using h.from₁
  to₀ := h.to₀
  to₁ := h.to₁
  up := h.up
  down := h.down

theorem Is.recv₁ : Is { t with fromChild := Function.update t.fromChild true n } f₀ n g₀ g₁ u d where
  from₀ := by simpa using h.from₀
  from₁ := by simp
  to₀ := h.to₀
  to₁ := h.to₁
  up := h.up
  down := h.down

theorem Is.send₀ : Is { t with toChild := Function.update t.toChild false n } f₀ f₁ n g₁ u d where
  from₀ := h.from₀
  from₁ := h.from₁
  to₀ := by simp
  to₁ := by simpa using h.to₁
  up := h.up
  down := h.down

theorem Is.send₁ : Is { t with toChild := Function.update t.toChild true n } f₀ f₁ g₀ n u d where
  from₀ := h.from₀
  from₁ := h.from₁
  to₀ := by simpa using h.to₀
  to₁ := by simp
  up := h.up
  down := h.down

end

/-- The same for the winner only. -/
structure Passed (t : Tally) (w : Bool) (f u d g : Nat) : Prop where
  fromChild : t.fromChild w = f
  up : t.toParent = u
  down : t.fromParent = d
  toChild : t.toChild w = g

end Tally

/-! ## Battles -/

section

variable [Arith] (M : Chan → Nat → Status → Prop) (b : Battle)

/-- A battle that has written to the winner `n` times before it relays. -/
def RelayAt (n : Nat) (l : BattleLoc) (t : Tally) : Prop :=
  match l.pc with
  | .relayRead => ∃ j, t.Passed l.win (n + j) j j (n + j) ∧
      (j = 0 ∨ ∃ i v, i + 1 = n + j ∧ M (.stdin (child b l.win)) i v ∧ Alive v)
  | .relayUp => ∃ j, t.Passed l.win (n + j + 1) j j (n + j) ∧
      M (.stdout (child b l.win)) (n + j) (l.status l.win)
  | .relayDown => ∃ j, t.Passed l.win (n + j + 1) (j + 1) j (n + j)
  | .relayWrite => ∃ j, t.Passed l.win (n + j + 1) (j + 1) (j + 1) (n + j) ∧
      M (.stdin (.battle b)) j (l.status l.win)
  | .waitLast | .exit | .done => ∃ j, t.Passed l.win (n + j + 1) (j + 1) (j + 1) (n + j + 1) ∧
      ∃ v, M (.stdin (child b l.win)) (n + j) v ∧ ¬ Alive v
  | _ => False

/-- What the winner and the parent write to each other after message `n`. -/
structure Relays (n : Nat) (w : Bool) : Prop where
  up : ∀ {j v}, M (.stdout (child b w)) (n + j) v → M (.stdout (.battle b)) j v
  down : ∀ {j v}, M (.stdin (.battle b)) j v → M (.stdin (child b w)) (n + j) v

variable (st : Bool → Status)

/-- Battle `b` is fought from `st` on. -/
structure Fought : Prop where
  opening : ∀ {i v}, M (.stdout (child b i)) 0 v → st i = { v with currentBattleId := b.letter }
  round : ∀ {k} i, Live (attrTable b) st k → M (.stdin (child b i)) k (rounds (attrTable b) st (k + 1) i)
  echo : ∀ {k i v}, Live (attrTable b) st (k + 1) → M (.stdout (child b i)) (k + 1) v →
    v = rounds (attrTable b) st (k + 1) i
  relays : b ≠ .A → ∀ {k}, Over (attrTable b) st k →
    Relays M b (k + 1) (winSlot (rounds (attrTable b) st (k + 1)))

/-- The fight has ended with round `k + 1`; what the loser was left with stays. -/
structure Kept (k : Nat) (l : BattleLoc) (t : Tally) : Prop where
  ended : Over (attrTable b) st k
  win : l.win = winSlot (rounds (attrTable b) st (k + 1))
  status : l.status (!l.win) = rounds (attrTable b) st (k + 1) (!l.win)
  fromChild : t.fromChild (!l.win) = k + 1
  toChild : t.toChild (!l.win) = k + 1

/-- And nothing has been relayed. -/
def Stays (k : Nat) (l : BattleLoc) (t : Tally) : Prop :=
  l.status = rounds (attrTable b) st (k + 1) ∧ t.Passed l.win (k + 1) 0 0 (k + 1)

def BattleAt (l : BattleLoc) (t : Tally) : Prop :=
  match l.pc with
  | .start | .fork _ | .read false => t.Is 0 0 0 0 0 0
  | .read true => t.Is 1 0 0 0 0 0 ∧ l.status false = st false
  | .write false => ∃ k, Live (attrTable b) st k ∧ l.status = rounds (attrTable b) st (k + 1) ∧
      t.Is (k + 1) (k + 1) k k 0 0
  | .write true => ∃ k, Live (attrTable b) st k ∧ l.status = rounds (attrTable b) st (k + 1) ∧
      t.Is (k + 1) (k + 1) (k + 1) k 0 0
  | .reread false => ∃ k, Live (attrTable b) st (k + 1) ∧
      l.status = rounds (attrTable b) st (k + 1) ∧ t.Is (k + 1) (k + 1) (k + 1) (k + 1) 0 0
  | .reread true => ∃ k, Live (attrTable b) st (k + 1) ∧
      l.status = rounds (attrTable b) st (k + 1) ∧ t.Is (k + 2) (k + 1) (k + 1) (k + 1) 0 0
  | .wait => ∃ k, Kept b st k l t ∧ Stays b st k l t
  | pc => ∃ k, Kept b st k l t ∧
      if b = .A then Stays b st k l t ∧ pc ∈ [.waitLast, .report, .exit, .done]
      else RelayAt M b (k + 1) l t

end

section

variable [Arith] {M : Chan → Nat → Status → Prop} {b : Battle} {st : Bool → Status} {l : BattleLoc}
  {τ ν : Chan → Nat} {n : Nat}

omit [Arith] in
theorem relayed_dead {l : BattleLoc} (hv : ¬ Alive (l.status l.win)) :
    l.relayed = { l with pc := .waitLast } := by
  rw [BattleLoc.relayed, if_pos]
  by_contra h
  rw [not_or, not_le, not_and] at h
  exact hv ⟨h.1, fun hf ha => h.2 ha hf⟩

/-- The invariant of the relay loop is kept by one action. -/
theorem relay_follows (hb : b ≠ .A) (hr : Relays M b n l.win) (h : RelayAt M b n l (tally b τ ν)) :
    (battleMain b l).Follows M (fun l τ ν => RelayAt M b n l (tally b τ ν)) τ ν := by
  obtain ⟨pc, status, w⟩ := l
  cases pc with
  | relayRead =>
    obtain ⟨j, ⟨hf, hu, hd, hg⟩, -⟩ := h
    refine follows_recv_child hf fun v hv => ⟨j, ⟨Function.update_self .., hu, hd, hg⟩, ?_⟩
    show M (.stdout (child b w)) (n + j) (Function.update status w v w)
    rwa [Function.update_self]
  | relayUp =>
    obtain ⟨j, ⟨hf, hu, hd, hg⟩, hv⟩ := h
    exact follows_send_parent hu (hr.up hv) ⟨j, hf, rfl, hd, hg⟩
  | relayDown =>
    obtain ⟨j, hf, hu, hd, hg⟩ := h
    refine follows_recv_parent hd fun v hv => ⟨j, ⟨hf, hu, rfl, hg⟩, ?_⟩
    show M (.stdin (.battle b)) j (Function.update status w v w)
    rwa [Function.update_self]
  | relayWrite =>
    obtain ⟨j, ⟨hf, hu, hd, hg⟩, hv⟩ := h
    have hsent := hr.down hv
    refine follows_send_child hg hsent ?_
    by_cases ha : Alive (status w)
    · rw [relayed_alive (by exact ha)]
      exact ⟨j + 1, ⟨hf, hu, hd, Function.update_self ..⟩, .inr ⟨n + j, _, rfl, hsent, ha⟩⟩
    · rw [relayed_dead (by exact ha)]
      exact ⟨j, ⟨hf, hu, hd, Function.update_self ..⟩, _, hsent, ha⟩
  | waitLast =>
    show RelayAt M b n ⟨if b = .A then .report else .exit, status, w⟩ _
    rw [if_neg hb]
    exact h
  | exit => exact h
  | done => trivial
  | start => exact h.elim
  | fork i => exact h.elim
  | read i => exact h.elim
  | write i => exact h.elim
  | reread i => exact h.elim
  | wait => exact h.elim
  | report => exact h.elim

omit [Arith] in
theorem Tally.Is.each {t : Tally} {f g u d : Nat} (h : t.Is f f g g u d) (i : Bool) :
    t.Passed i f u d g := by
  cases i with
  | false => exact ⟨h.from₀, h.up, h.down, h.to₀⟩
  | true => exact ⟨h.from₁, h.up, h.down, h.to₁⟩

/-- After the two writes of round `k + 1`. -/
theorem battleAt_judge {k : Nat} {t : Tally} (hl : Live (attrTable b) st k)
    (hst : l.status = rounds (attrTable b) st (k + 1))
    (ht : t.Is (k + 1) (k + 1) (k + 1) (k + 1) 0 0) : BattleAt M b st l.judge t := by
  rw [BattleLoc.judge]
  split
  · rename_i hf
    rw [hst] at hf
    refine ⟨k, ⟨⟨hl, hf⟩, ?_, ?_, (ht.each _).fromChild, (ht.each _).toChild⟩, hst, ht.each _⟩
    · show decide (¬ 0 < (l.status false).HP) = _
      rw [hst]
      rfl
    · show l.status _ = _
      rw [hst]
  · rename_i hf
    rw [hst] at hf
    exact ⟨k, live_succ.2 ⟨hl, hf⟩, hst, ht⟩

theorem Kept.congr {k : Nat} {l' : BattleLoc} {t t' : Tally} (h : Kept b st k l t)
    (hw : l'.win = l.win) (hs : l'.status (!l.win) = l.status (!l.win))
    (hf : t'.fromChild (!l.win) = t.fromChild (!l.win))
    (hg : t'.toChild (!l.win) = t.toChild (!l.win)) : Kept b st k l' t' where
  ended := h.ended
  win := hw.trans h.win
  status := by rw [hw, hs]; exact h.status
  fromChild := by rw [hw, hf]; exact h.fromChild
  toChild := by rw [hw, hg]; exact h.toChild

omit [Arith] in
theorem relayed_eq (l : BattleLoc) : l.relayed.win = l.win ∧ l.relayed.status = l.status := by
  rw [BattleLoc.relayed]
  split <;> exact ⟨rfl, rfl⟩

/-- To relay leaves the loser alone. -/
theorem kept_relay {k : Nat} (h : Kept b st k l (tally b τ ν)) (hr : RelayAt M b n l (tally b τ ν))
    (hrel : Relays M b n l.win) :
    (battleMain b l).Follows M (fun l τ ν => Kept b st k l (tally b τ ν)) τ ν := by
  obtain ⟨pc, status, w⟩ := l
  have hne : (!w) ≠ w := by cases w <;> decide
  cases pc with
  | relayRead =>
    obtain ⟨j, ⟨hf, -, -, -⟩, -⟩ := hr
    exact follows_recv_child hf fun v _ =>
      h.congr rfl (Function.update_of_ne hne ..) (Function.update_of_ne hne ..) rfl
  | relayUp =>
    obtain ⟨j, ⟨-, hu, -, -⟩, hv⟩ := hr
    exact follows_send_parent hu (hrel.up hv) (h.congr rfl rfl rfl rfl)
  | relayDown =>
    obtain ⟨j, -, -, hd, -⟩ := hr
    exact follows_recv_parent hd fun v _ => h.congr rfl (Function.update_of_ne hne ..) rfl rfl
  | relayWrite =>
    obtain ⟨j, ⟨-, -, -, hg⟩, hv⟩ := hr
    have hl := relayed_eq ⟨.relayWrite, status, w⟩
    refine follows_send_child hg (hrel.down hv) (h.congr hl.1 ?_ rfl (Function.update_of_ne hne ..))
    rw [hl.2]
  | waitLast =>
    show Kept b st k ⟨if b = .A then .report else .exit, status, w⟩ _
    exact h.congr rfl rfl rfl rfl
  | exit => exact h.congr rfl rfl rfl rfl
  | done => trivial
  | start => exact hr.elim
  | fork i => exact hr.elim
  | read i => exact hr.elim
  | write i => exact hr.elim
  | reread i => exact hr.elim
  | wait => exact hr.elim
  | report => exact hr.elim

theorem battleAt_relay {k : Nat} {t : Tally} (hb : b ≠ .A) (hr : RelayAt M b (k + 1) l t)
    (h : Kept b st k l t) : BattleAt M b st l t := by
  obtain ⟨pc, status, w⟩ := l
  have key : ∃ k, Kept b st k ⟨pc, status, w⟩ t ∧
      if b = .A then Stays b st k ⟨pc, status, w⟩ t ∧ pc ∈ [.waitLast, .report, .exit, .done]
      else RelayAt M b (k + 1) ⟨pc, status, w⟩ t := by
    refine ⟨k, h, ?_⟩
    rw [if_neg hb]
    exact hr
  cases pc with
  | start => exact hr.elim
  | fork i => exact hr.elim
  | read i => exact hr.elim
  | write i => exact hr.elim
  | reread i => exact hr.elim
  | wait => exact hr.elim
  | _ => exact key

theorem battleAt_final {k : Nat} {t : Tally} (hb : b = .A) (h : Kept b st k l t)
    (hs : Stays b st k l t) (hpc : l.pc ∈ [.waitLast, .report, .exit, .done]) :
    BattleAt M b st l t := by
  obtain ⟨pc, status, w⟩ := l
  have key : ∃ k, Kept b st k ⟨pc, status, w⟩ t ∧
      if b = .A then Stays b st k ⟨pc, status, w⟩ t ∧ pc ∈ [.waitLast, .report, .exit, .done]
      else RelayAt M b (k + 1) ⟨pc, status, w⟩ t := by
    refine ⟨k, h, ?_⟩
    rw [if_pos hb]
    exact ⟨hs, hpc⟩
  simp only [List.mem_cons, List.not_mem_nil, or_false] at hpc
  rcases hpc with rfl | rfl | rfl | rfl
  · exact key
  · exact key
  · exact key
  · exact key

/-- After the fight. -/
theorem rest_follows (hs : Fought M b st) {k : Nat} (hk : Kept b st k l (tally b τ ν))
    (h : if b = .A then Stays b st k l (tally b τ ν) ∧ l.pc ∈ [.waitLast, .report, .exit, .done]
      else RelayAt M b (k + 1) l (tally b τ ν)) :
    (battleMain b l).Follows M (fun l τ ν => BattleAt M b st l (tally b τ ν)) τ ν := by
  split at h
  · rename_i hb
    obtain ⟨pc, status, w⟩ := l
    obtain ⟨hstay, hpc⟩ := h
    have hnext : ∀ pc', pc' ∈ [.waitLast, .report, .exit, .done] →
        BattleAt M b st ⟨pc', status, w⟩ (tally b τ ν) :=
      fun pc' hpc' => battleAt_final hb (hk.congr rfl rfl rfl rfl) hstay hpc'
    simp only [List.mem_cons, List.not_mem_nil, or_false] at hpc
    rcases hpc with rfl | rfl | rfl | rfl
    · show BattleAt M b st ⟨if b = .A then .report else .exit, status, w⟩ _
      rw [if_pos hb]
      exact hnext .report (by simp)
    · exact hnext .exit (by simp)
    · exact hnext .done (by simp)
    · trivial
  · rename_i hb
    have hrel := hs.relays hb hk.ended
    rw [← hk.win] at hrel
    exact (relay_follows hb hrel h).both (kept_relay hk h hrel)
      fun l τ ν hr hk => battleAt_relay hb hr hk

theorem battle_follows (hs : Fought M b st) (h : BattleAt M b st l (tally b τ ν)) :
    (battleMain b l).Follows M (fun l τ ν => BattleAt M b st l (tally b τ ν)) τ ν := by
  obtain ⟨pc, status, w⟩ := l
  cases pc with
  | start => exact h
  | fork i => cases i <;> exact h
  | read i =>
    cases i with
    | false =>
      have ht : (tally b τ ν).Is 0 0 0 0 0 0 := h
      refine follows_recv_child ht.from₀ fun v hv => ⟨ht.recv₀, ?_⟩
      show Function.update status false _ false = _
      rw [Function.update_self]
      exact (hs.opening hv).symm
    | true =>
      obtain ⟨ht, h0⟩ := h
      refine follows_recv_child ht.from₁ fun v hv => ⟨0, live_zero, ?_, ht.recv₁⟩
      have hopen : Function.update status true { v with currentBattleId := b.letter } = st := by
        funext i
        cases i with
        | false => rw [Function.update_of_ne (by simp)]; exact h0
        | true => rw [Function.update_self]; exact (hs.opening hv).symm
      show play (attrTable b) (Function.update status true _) = play (attrTable b) st
      rw [hopen]
  | write i =>
    cases i with
    | false =>
      obtain ⟨k, hl, hst, ht⟩ := h
      have hst : status = rounds (attrTable b) st (k + 1) := hst
      refine follows_send_child ht.to₀ ?_ ⟨k, hl, hst, ht.send₀⟩
      rw [hst]
      exact hs.round false hl
    | true =>
      obtain ⟨k, hl, hst, ht⟩ := h
      have hst : status = rounds (attrTable b) st (k + 1) := hst
      refine follows_send_child ht.to₁ ?_ (battleAt_judge hl hst ht.send₁)
      rw [hst]
      exact hs.round true hl
  | reread i =>
    cases i with
    | false =>
      obtain ⟨k, hl, hst, ht⟩ := h
      have hst : status = rounds (attrTable b) st (k + 1) := hst
      refine follows_recv_child ht.from₀ fun v hv => ⟨k, hl, ?_, ht.recv₀⟩
      show Function.update status false v = _
      rw [hs.echo hl hv, hst, Function.update_eq_self]
    | true =>
      obtain ⟨k, hl, hst, ht⟩ := h
      have hst : status = rounds (attrTable b) st (k + 1) := hst
      refine follows_recv_child ht.from₁ fun v hv => ⟨k + 1, hl, ?_, ht.recv₁⟩
      show play (attrTable b) (Function.update status true v) = _
      rw [hs.echo hl hv, hst, Function.update_eq_self]
      rfl
  | wait =>
    obtain ⟨k, ⟨ho, hw, hst, hf, hg⟩, hstay⟩ := h
    show BattleAt M b st ⟨if b = .A then .waitLast else .relayRead, status, w⟩ (tally b τ ν)
    split
    · rename_i hb
      refine ⟨k, ⟨ho, hw, hst, hf, hg⟩, ?_⟩
      rw [if_pos hb]
      exact ⟨hstay, by simp⟩
    · rename_i hb
      refine ⟨k, ⟨ho, hw, hst, hf, hg⟩, ?_⟩
      rw [if_neg hb]
      exact ⟨0, hstay.2, .inl rfl⟩
  | relayRead => obtain ⟨k, hk, h⟩ := h; exact rest_follows hs hk h
  | relayUp => obtain ⟨k, hk, h⟩ := h; exact rest_follows hs hk h
  | relayDown => obtain ⟨k, hk, h⟩ := h; exact rest_follows hs hk h
  | relayWrite => obtain ⟨k, hk, h⟩ := h; exact rest_follows hs hk h
  | waitLast => obtain ⟨k, hk, h⟩ := h; exact rest_follows hs hk h
  | report => obtain ⟨k, hk, h⟩ := h; exact rest_follows hs hk h
  | exit => obtain ⟨k, hk, h⟩ := h; exact rest_follows hs hk h
  | done => trivial

end

/-! ## Players -/

/-- Behind the loop of a player. -/
def PlayerPc.out : PlayerPc → Bool
  | .openWrite _ | .found _ | .openingWrite _ | .writeFifo _ | .stray | .exit | .done => true
  | _ => false

structure PlayerTally where
  fromParent : Nat
  toParent : Nat
  fromFifo : Nat
  toFifo : PlayerId → Nat

def playerTally (k : PlayerId) (τ ν : Chan → Nat) : PlayerTally where
  fromParent := τ (.stdin (.player k))
  toParent := ν (.stdout (.player k))
  fromFifo := τ (.fifo k)
  toFifo i := ν (.fifo i)

section

variable [Arith] (file : List Line) (M : Chan → Nat → Status → Prop) (k : PlayerId) (o : Int)
  (own : PlayerId → Prop)

/-- The statuses of a player with full HP `o` who is to write to the agents of `own` when it has
lost. -/
structure Plays : Prop where
  sound : ∀ {n v}, M (.stdin (.player k)) n v → v.HP ≤ 0 → v.battleEndedFlag = 1
  reply : ∀ {n v}, M (.stdin (.player k)) n v → Alive v → M (.stdout (.player k)) (n + 1) (answer o v)
  hand : ∀ {n v i}, M (.stdin (.player k)) n v → ¬ Alive v → heir v k = some i →
    own i ∧ M (.fifo i) 0 (legacy v o)
  keep : ∀ {n v i}, M (.stdin (.player k)) n v → ¬ Alive v → own i → heir v k = some i

/-- `v` may be the first status of the player. -/
def Enters (v : Status) : Prop := M (.stdout (.player k)) 0 v ∧ v.HP = o

/-- The player has got the status that ends its part. -/
structure Out (n : Nat) (v : Status) (l : PlayerLoc) (t : PlayerTally) : Prop where
  fromParent : t.fromParent = n + 1
  toParent : t.toParent = n + 1
  last : M (.stdin (.player k)) n v
  dead : ¬ Alive v
  origin : l.originHP = o

def PlayerAt (l : PlayerLoc) (t : PlayerTally) : Prop :=
  match l.pc with
  | .start => t.fromParent = 0 ∧ t.toParent = 0 ∧ t.fromFifo = 0 ∧ (∀ i, own i → t.toFifo i = 0) ∧
      (k ≤ 7 → Enters M k o (readStatus file k)) ∧
      (¬ k ≤ 7 → ∀ v, M (.fifo k) 0 v → Enters M k o v)
  | .mkfifo | .openRead | .opening | .readFifo => t.fromParent = 0 ∧ t.toParent = 0 ∧
      t.fromFifo = 0 ∧ (∀ i, own i → t.toFifo i = 0) ∧ ∀ v, M (.fifo k) 0 v → Enters M k o v
  | .enter => t.fromParent = 0 ∧ t.toParent = 0 ∧ (∀ i, own i → t.toFifo i = 0) ∧
      Enters M k o l.mystatus
  | .write => ∃ n, t.fromParent = n ∧ t.toParent = n ∧ (∀ i, own i → t.toFifo i = 0) ∧
      M (.stdout (.player k)) n l.mystatus ∧ l.originHP = o
  | .read => ∃ n, t.fromParent = n ∧ t.toParent = n + 1 ∧ (∀ i, own i → t.toFifo i = 0) ∧
      l.originHP = o
  | .openWrite i | .found i | .openingWrite i | .writeFifo i => ∃ n v, Out M k o n v l t ∧
      (∀ i, own i → t.toFifo i = 0) ∧ own i ∧ heir v k = some i ∧ l.mystatus = legacy v o
  | .stray => ∃ n v, Out M k o n v l t ∧ handsOver v k ∧ heir v k = none
  | .exit | .done => ∃ n v, Out M k o n v l t ∧ ∀ i, own i → t.toFifo i = 1

end

section

variable {file : List Line} {M : Chan → Nat → Status → Prop} {k : PlayerId} {o : Int}
  {own : PlayerId → Prop} {l : PlayerLoc} {τ ν : Chan → Nat} {n : Nat} {v : Status}

theorem playerTally_recv (n : Nat) : playerTally k (Function.update τ (.stdin (.player k)) n) ν =
    { playerTally k τ ν with fromParent := n } := by
  simp only [playerTally, PlayerTally.mk.injEq, and_true, true_and]
  exact ⟨Function.update_self .., Function.update_of_ne (by simp) ..⟩

theorem playerTally_send (n : Nat) : playerTally k τ (Function.update ν (.stdout (.player k)) n) =
    { playerTally k τ ν with toParent := n } := by
  simp only [playerTally, PlayerTally.mk.injEq, true_and]
  refine ⟨Function.update_self .., ?_⟩
  funext i
  exact Function.update_of_ne (by simp) ..

theorem playerTally_recvFifo (n : Nat) : playerTally k (Function.update τ (.fifo k) n) ν =
    { playerTally k τ ν with fromFifo := n } := by
  simp only [playerTally, PlayerTally.mk.injEq, and_true, true_and]
  exact ⟨Function.update_of_ne (by simp) .., Function.update_self ..⟩

theorem playerTally_sendFifo (i : PlayerId) (n : Nat) :
    playerTally k τ (Function.update ν (.fifo i) n) =
      { playerTally k τ ν with toFifo := Function.update (playerTally k τ ν).toFifo i n } := by
  simp only [playerTally, PlayerTally.mk.injEq, true_and]
  refine ⟨Function.update_of_ne (by simp) .., ?_⟩
  funext j
  simp only [Function.update_apply, Chan.fifo.injEq]

theorem dead_iff (hs : v.HP ≤ 0 → v.battleEndedFlag = 1) : ¬ Alive v ↔ Final v := by
  rw [Alive, Final, not_and_or]
  constructor
  · rintro (h | h)
    · exact ⟨hs (by omega), .inl (by omega)⟩
    · rw [Classical.not_imp, not_not] at h
      exact ⟨h.1, .inr h.2⟩
  · rintro ⟨hf, h | h⟩
    · exact .inl (by omega)
    · exact .inr fun hn => hn hf h

variable [Arith]

/-- What the player makes of a status it gets. -/
theorem playerAt_received {t : PlayerTally} (hp : Plays M k o own) (hf : t.fromParent = n + 1)
    (hu : t.toParent = n + 1) (hown : ∀ i, own i → t.toFifo i = 0) (ho : l.originHP = o)
    (hv : M (.stdin (.player k)) n l.mystatus) : PlayerAt file M k o own (l.received k) t := by
  by_cases ha : Alive l.mystatus
  · rw [received_alive ha]
    refine ⟨n + 1, hf, hu, hown, ?_, ho⟩
    show M _ _ (answer l.originHP l.mystatus)
    rw [ho]
    exact hp.reply hv ha
  · have hfin := (dead_iff (hp.sound hv)).1 ha
    cases hh : heir l.mystatus k with
    | some i =>
      rw [received_some hfin hh]
      obtain ⟨hi, -⟩ := hp.hand hv ha hh
      refine ⟨n, l.mystatus, ⟨hf, hu, hv, ha, ho⟩, hown, hi, hh, ?_⟩
      rw [ho]
    | none =>
      by_cases hover : handsOver l.mystatus k
      · have hstray : l.received k = { l with pc := .stray } := by
          have hw : whichAgent l.mystatus.currentBattleId = none := by
            rwa [heir, if_pos hover] at hh
          rw [PlayerLoc.received, if_pos hfin.1, if_pos hover.1, PlayerLoc.leave, if_pos hover.2, hw]
        rw [hstray]
        exact ⟨n, l.mystatus, ⟨hf, hu, hv, ha, ho⟩, hover, hh⟩
      · rw [received_none hfin hh fun h => absurd h hover]
        refine ⟨n, l.mystatus, ⟨hf, hu, hv, ha, ho⟩, fun i hi => ?_⟩
        have := hp.keep hv ha hi
        rw [hh] at this
        cases this

theorem player_follows (hp : Plays M k o own) (h : PlayerAt file M k o own l (playerTally k τ ν)) :
    (playerMain file k l).Follows M
      (fun l τ ν => PlayerAt file M k o own l (playerTally k τ ν)) τ ν := by
  obtain ⟨pc, m, q⟩ := l
  cases pc with
  | start =>
    obtain ⟨h1, h2, h3, h4, h5, h6⟩ := h
    show PlayerAt file M k o own (if k ≤ 7 then ⟨.enter, readStatus file k, q⟩ else ⟨.mkfifo, m, q⟩) _
    split
    · rename_i hk
      exact ⟨h1, h2, h4, h5 hk⟩
    · rename_i hk
      exact ⟨h1, h2, h3, h4, h6 hk⟩
  | mkfifo => exact h
  | openRead => exact h
  | opening => exact h
  | readFifo =>
    obtain ⟨h1, h2, h3, h4, h5⟩ := h
    have h3 : τ (.fifo k) = 0 := h3
    intro v hv
    rw [h3] at hv
    show PlayerAt file M k o own ⟨.enter, v, q⟩ (playerTally k _ ν)
    rw [playerTally_recvFifo]
    exact ⟨h1, h2, h4, h5 v hv⟩
  | enter =>
    obtain ⟨h1, h2, h3, h4, h5⟩ := h
    have h2 : ν (.stdout (.player k)) = 0 := h2
    refine ⟨by rw [h2]; exact h4, ?_⟩
    show PlayerAt file M k o own ⟨.read, m, m.HP⟩ (playerTally k τ _)
    rw [playerTally_send, h2]
    exact ⟨0, h1, rfl, h3, h5⟩
  | read =>
    obtain ⟨n, h1, h2, h3, h4⟩ := h
    have h1 : τ (.stdin (.player k)) = n := h1
    intro v hv
    rw [h1] at hv
    show PlayerAt file M k o own (PlayerLoc.received ⟨.read, v, q⟩ k) (playerTally k _ ν)
    rw [playerTally_recv, h1]
    exact playerAt_received hp rfl h2 h3 h4 hv
  | write =>
    obtain ⟨n, h1, h2, h3, h4, h5⟩ := h
    have h2 : ν (.stdout (.player k)) = n := h2
    refine ⟨by rw [h2]; exact h4, ?_⟩
    show PlayerAt file M k o own ⟨.read, m, q⟩ (playerTally k τ _)
    rw [playerTally_send, h2]
    exact ⟨n, h1, rfl, h3, h5⟩
  | openWrite i =>
    obtain ⟨n, v, ⟨h1, h2, h3, h4, h5⟩, h⟩ := h
    exact ⟨n, v, ⟨h1, h2, h3, h4, h5⟩, h⟩
  | found i =>
    obtain ⟨n, v, ⟨h1, h2, h3, h4, h5⟩, h⟩ := h
    exact ⟨n, v, ⟨h1, h2, h3, h4, h5⟩, h⟩
  | openingWrite i =>
    obtain ⟨n, v, ⟨h1, h2, h3, h4, h5⟩, h⟩ := h
    exact ⟨n, v, ⟨h1, h2, h3, h4, h5⟩, h⟩
  | writeFifo i =>
    obtain ⟨n, v, ⟨h1, h2, h3, h4, h5⟩, hown, hi, hh, rfl⟩ := h
    have h0 : ν (.fifo i) = 0 := hown i hi
    refine ⟨by rw [h0]; exact (hp.hand h3 h4 hh).2, ?_⟩
    show PlayerAt file M k o own ⟨.exit, _, q⟩ (playerTally k τ _)
    rw [playerTally_sendFifo, h0]
    refine ⟨n, v, ⟨h1, h2, h3, h4, h5⟩, fun j hj => ?_⟩
    obtain rfl : j = i := Option.some.inj ((hp.keep h3 h4 hj).symm.trans hh)
    exact Function.update_self ..
  | stray => exact h
  | exit =>
    obtain ⟨n, v, ⟨h1, h2, h3, h4, h5⟩, h⟩ := h
    exact ⟨n, v, ⟨h1, h2, h3, h4, h5⟩, h⟩
  | done => trivial

theorem PlayerAt.congr {t t' : PlayerTally} (h : PlayerAt file M k o own l t)
    (hf : t'.fromParent = t.fromParent) (hu : t'.toParent = t.toParent)
    (hq : t'.fromFifo = t.fromFifo) (hown : ∀ i, own i → t'.toFifo i = t.toFifo i) :
    PlayerAt file M k o own l t' := by
  have hzero : (∀ i, own i → t.toFifo i = 0) → ∀ i, own i → t'.toFifo i = 0 :=
    fun h i hi => (hown i hi).trans (h i hi)
  have hout : ∀ {n v}, Out M k o n v l t → Out M k o n v l t' :=
    fun h => ⟨hf.trans h.fromParent, hu.trans h.toParent, h.last, h.dead, h.origin⟩
  obtain ⟨pc, m, q⟩ := l
  cases pc with
  | start =>
    obtain ⟨h1, h2, h3, h4, h5⟩ := h
    exact ⟨hf.trans h1, hu.trans h2, hq.trans h3, hzero h4, h5⟩
  | mkfifo =>
    obtain ⟨h1, h2, h3, h4, h5⟩ := h
    exact ⟨hf.trans h1, hu.trans h2, hq.trans h3, hzero h4, h5⟩
  | openRead =>
    obtain ⟨h1, h2, h3, h4, h5⟩ := h
    exact ⟨hf.trans h1, hu.trans h2, hq.trans h3, hzero h4, h5⟩
  | opening =>
    obtain ⟨h1, h2, h3, h4, h5⟩ := h
    exact ⟨hf.trans h1, hu.trans h2, hq.trans h3, hzero h4, h5⟩
  | readFifo =>
    obtain ⟨h1, h2, h3, h4, h5⟩ := h
    exact ⟨hf.trans h1, hu.trans h2, hq.trans h3, hzero h4, h5⟩
  | enter =>
    obtain ⟨h1, h2, h3, h4⟩ := h
    exact ⟨hf.trans h1, hu.trans h2, hzero h3, h4⟩
  | write =>
    obtain ⟨n, h1, h2, h3, h4⟩ := h
    exact ⟨n, hf.trans h1, hu.trans h2, hzero h3, h4⟩
  | read =>
    obtain ⟨n, h1, h2, h3, h4⟩ := h
    exact ⟨n, hf.trans h1, hu.trans h2, hzero h3, h4⟩
  | openWrite i => obtain ⟨n, v, h1, h2, h3⟩ := h; exact ⟨n, v, hout h1, hzero h2, h3⟩
  | found i => obtain ⟨n, v, h1, h2, h3⟩ := h; exact ⟨n, v, hout h1, hzero h2, h3⟩
  | openingWrite i => obtain ⟨n, v, h1, h2, h3⟩ := h; exact ⟨n, v, hout h1, hzero h2, h3⟩
  | writeFifo i => obtain ⟨n, v, h1, h2, h3⟩ := h; exact ⟨n, v, hout h1, hzero h2, h3⟩
  | stray => obtain ⟨n, v, h1, h2⟩ := h; exact ⟨n, v, hout h1, h2⟩
  | exit => obtain ⟨n, v, h1, h2⟩ := h; exact ⟨n, v, hout h1, fun i hi => (hown i hi).trans (h2 i hi)⟩
  | done => obtain ⟨n, v, h1, h2⟩ := h; exact ⟨n, v, hout h1, fun i hi => (hown i hi).trans (h2 i hi)⟩

end

/-! ## How far one side is ahead of the other -/

section

variable [Arith] {M : Chan → Nat → Status → Prop} {b : Battle} {st : Bool → Status} {l : BattleLoc}
  {t : Tally}
  {k n : Nat}

omit [Arith] in
theorem relayAt_counts (h : RelayAt M b n l t) :
    t.toParent + t.toChild l.win ≤ t.fromChild l.win + t.fromParent ∧
      t.toParent ≤ t.fromChild l.win ∧ t.toChild l.win ≤ n + t.fromParent ∧
      t.toChild l.win ≤ t.fromChild l.win ∧ t.fromChild l.win ≤ t.toChild l.win + 1 := by
  obtain ⟨pc, status, w⟩ := l
  cases pc with
  | relayRead => obtain ⟨j, ⟨hf, hu, hd, hg⟩, -⟩ := h; omega
  | relayUp => obtain ⟨j, ⟨hf, hu, hd, hg⟩, -⟩ := h; omega
  | relayDown => obtain ⟨j, hf, hu, hd, hg⟩ := h; omega
  | relayWrite => obtain ⟨j, ⟨hf, hu, hd, hg⟩, -⟩ := h; omega
  | waitLast => obtain ⟨j, ⟨hf, hu, hd, hg⟩, -⟩ := h; omega
  | exit => obtain ⟨j, ⟨hf, hu, hd, hg⟩, -⟩ := h; omega
  | done => obtain ⟨j, ⟨hf, hu, hd, hg⟩, -⟩ := h; omega
  | _ => exact h.elim

/-- What a battle has written to a child: one for each that it has read but for the last, and after
its last round only what it has got from its parent. -/
def Even (b : Battle) (st : Bool → Status) (t : Tally) (i : Bool) : Prop :=
  t.toChild i ≤ t.fromChild i ∧ t.fromChild i ≤ t.toChild i + 1 ∧
    ∀ k, Over (attrTable b) st k → t.toChild i ≤ k + 1 + t.fromParent

theorem even_passed (ho : Over (attrTable b) st k) {i : Bool} {f u d g : Nat} (h : t.Passed i f u d g)
    (hg : g ≤ f) (hf : f ≤ g + 1) (hd : g ≤ k + 1 + d) : Even b st t i := by
  obtain ⟨rfl, rfl, rfl, rfl⟩ := h
  refine ⟨hg, hf, fun k' ho' => ?_⟩
  rw [over_unique ho' ho]
  exact hd

theorem even_is (hl : Live (attrTable b) st n) {f₀ f₁ g₀ g₁ u d : Nat} (h : t.Is f₀ f₁ g₀ g₁ u d)
    (h₀ : g₀ ≤ f₀ ∧ f₀ ≤ g₀ + 1 ∧ g₀ ≤ n + 1) (h₁ : g₁ ≤ f₁ ∧ f₁ ≤ g₁ + 1 ∧ g₁ ≤ n + 1) (i : Bool) :
    Even b st t i := by
  cases i with
  | false =>
    rw [Even, h.from₀, h.to₀]
    exact ⟨h₀.1, h₀.2.1, fun k ho => by have := ho.le hl; omega⟩
  | true =>
    rw [Even, h.from₁, h.to₁]
    exact ⟨h₁.1, h₁.2.1, fun k ho => by have := ho.le hl; omega⟩

theorem even_kept (hk : Kept b st k l t) : Even b st t (!l.win) := by
  refine ⟨by rw [hk.fromChild, hk.toChild], by rw [hk.fromChild, hk.toChild]; omega, fun k' ho' => ?_⟩
  rw [hk.toChild, over_unique ho' hk.ended]
  omega

theorem even_rest (hk : Kept b st k l t)
    (h : if b = .A then Stays b st k l t ∧ l.pc ∈ [.waitLast, .report, .exit, .done]
      else RelayAt M b (k + 1) l t) (i : Bool) : Even b st t i := by
  rcases Bool.eq_or_eq_not i l.win with rfl | rfl
  · split at h
    · obtain ⟨⟨-, ht⟩, -⟩ := h
      exact even_passed hk.ended ht (by omega) (by omega) (by omega)
    · obtain ⟨-, -, hd, hg, hf⟩ := relayAt_counts h
      exact even_passed hk.ended ⟨rfl, rfl, rfl, rfl⟩ hg hf hd
  · exact even_kept hk

theorem battleAt_even (h : BattleAt M b st l t) (i : Bool) : Even b st t i := by
  obtain ⟨pc, status, w⟩ := l
  cases pc with
  | start => exact even_is live_zero h (by omega) (by omega) i
  | fork i' => exact even_is live_zero h (by omega) (by omega) i
  | read i' =>
    cases i' with
    | false => exact even_is live_zero h (by omega) (by omega) i
    | true => exact even_is live_zero h.1 (by omega) (by omega) i
  | write i' =>
    cases i' with
    | false => obtain ⟨k, hl, -, ht⟩ := h; exact even_is hl ht (by omega) (by omega) i
    | true => obtain ⟨k, hl, -, ht⟩ := h; exact even_is hl ht (by omega) (by omega) i
  | reread i' =>
    cases i' with
    | false => obtain ⟨k, hl, -, ht⟩ := h; exact even_is hl ht (by omega) (by omega) i
    | true => obtain ⟨k, hl, -, ht⟩ := h; exact even_is hl ht (by omega) (by omega) i
  | wait =>
    obtain ⟨k, hk, -, ht⟩ := h
    rcases Bool.eq_or_eq_not i w with rfl | rfl
    · exact even_passed hk.ended ht (by omega) (by omega) (by omega)
    · exact even_kept hk
  | relayRead => obtain ⟨k, hk, h⟩ := h; exact even_rest hk h i
  | relayUp => obtain ⟨k, hk, h⟩ := h; exact even_rest hk h i
  | relayDown => obtain ⟨k, hk, h⟩ := h; exact even_rest hk h i
  | relayWrite => obtain ⟨k, hk, h⟩ := h; exact even_rest hk h i
  | waitLast => obtain ⟨k, hk, h⟩ := h; exact even_rest hk h i
  | report => obtain ⟨k, hk, h⟩ := h; exact even_rest hk h i
  | exit => obtain ⟨k, hk, h⟩ := h; exact even_rest hk h i
  | done => obtain ⟨k, hk, h⟩ := h; exact even_rest hk h i

section

variable {file : List Line} {k : PlayerId} {o : Int} {own : PlayerId → Prop} {l : PlayerLoc}
  {t : PlayerTally}

/-- Before its first status, about to answer, waiting for one, or behind its loop. -/
theorem playerAt_cases (h : PlayerAt file M k o own l t) :
    (l.pc.out = false ∧ t.fromParent = 0 ∧ t.toParent = 0 ∧ ∀ i, own i → t.toFifo i = 0) ∨
      (l.pc = .write ∧ l.originHP = o ∧ (∀ i, own i → t.toFifo i = 0) ∧
        M (.stdout (.player k)) t.toParent l.mystatus ∧ t.fromParent = t.toParent) ∨
      (l.pc = .read ∧ l.originHP = o ∧ (∀ i, own i → t.toFifo i = 0) ∧
        t.toParent = t.fromParent + 1) ∨
      (l.pc.out = true ∧ ∃ n v, Out M k o n v l t) := by
  obtain ⟨pc, v, q⟩ := l
  cases pc with
  | start => exact .inl ⟨rfl, h.1, h.2.1, h.2.2.2.1⟩
  | mkfifo => exact .inl ⟨rfl, h.1, h.2.1, h.2.2.2.1⟩
  | openRead => exact .inl ⟨rfl, h.1, h.2.1, h.2.2.2.1⟩
  | opening => exact .inl ⟨rfl, h.1, h.2.1, h.2.2.2.1⟩
  | readFifo => exact .inl ⟨rfl, h.1, h.2.1, h.2.2.2.1⟩
  | enter => exact .inl ⟨rfl, h.1, h.2.1, h.2.2.1⟩
  | write =>
    obtain ⟨n, hf, rfl, h0, hv, ho⟩ := h
    exact .inr (.inl ⟨rfl, ho, h0, hv, hf⟩)
  | read =>
    obtain ⟨n, rfl, hu, h0, ho⟩ := h
    exact .inr (.inr (.inl ⟨rfl, ho, h0, hu⟩))
  | openWrite a => obtain ⟨n, v, hout, -⟩ := h; exact .inr (.inr (.inr ⟨rfl, n, v, hout⟩))
  | found a => obtain ⟨n, v, hout, -⟩ := h; exact .inr (.inr (.inr ⟨rfl, n, v, hout⟩))
  | openingWrite a => obtain ⟨n, v, hout, -⟩ := h; exact .inr (.inr (.inr ⟨rfl, n, v, hout⟩))
  | writeFifo a => obtain ⟨n, v, hout, -⟩ := h; exact .inr (.inr (.inr ⟨rfl, n, v, hout⟩))
  | stray => obtain ⟨n, v, hout, -⟩ := h; exact .inr (.inr (.inr ⟨rfl, n, v, hout⟩))
  | exit => obtain ⟨n, v, hout, -⟩ := h; exact .inr (.inr (.inr ⟨rfl, n, v, hout⟩))
  | done => obtain ⟨n, v, hout, -⟩ := h; exact .inr (.inr (.inr ⟨rfl, n, v, hout⟩))

theorem playerAt_counts (h : PlayerAt file M k o own l t) :
    t.fromParent ≤ t.toParent ∧ t.toParent ≤ t.fromParent + 1 := by
  rcases playerAt_cases h with ⟨-, hf, hu, -⟩ | ⟨-, -, -, -, heq⟩ | ⟨-, -, -, heq⟩ | ⟨-, n, v, hout⟩
  · omega
  · omega
  · omega
  · have hf := hout.fromParent
    have hu := hout.toParent
    omega

/-- Who has written has set its full HP. -/
theorem playerAt_origin (h : PlayerAt file M k o own l t) (hu : t.toParent ≠ 0) : l.originHP = o := by
  rcases playerAt_cases h with ⟨-, -, h0, -⟩ | ⟨-, ho, -⟩ | ⟨-, ho, -⟩ | ⟨-, n, v, hout⟩
  · exact absurd h0 hu
  · exact ho
  · exact ho
  · exact hout.origin

end

end

/-! ## Whose channels they use -/

section

variable [Arith] {ι : Type} {snd rcv : Chan → ι} {p : ι}

theorem battle_owns {b : Battle} (hs : ∀ i, snd (.stdin (child b i)) = p)
    (hs' : snd (.stdout (.battle b)) = p) (hr : ∀ i, rcv (.stdout (child b i)) = p)
    (hr' : rcv (.stdin (.battle b)) = p) (l : BattleLoc) :
    Kahn.Owns snd rcv p (battleMain b l) := by
  obtain ⟨pc, status, w⟩ := l
  cases pc with
  | fork i => cases i <;> trivial
  | read i => cases i <;> exact hr _
  | write i => cases i <;> exact hs _
  | reread i => cases i <;> exact hr _
  | relayRead => exact hr w
  | relayUp => exact hs'
  | relayDown => exact hr'
  | relayWrite => exact hs w
  | start => trivial
  | wait => trivial
  | waitLast => trivial
  | report => trivial
  | exit => trivial
  | done => trivial

/-- Who relays uses the channels of the winner only. -/
theorem relay_owns {b : Battle} {M : Chan → Nat → Status → Prop} {n : Nat} {l : BattleLoc} {t : Tally}
    (h : RelayAt M b n l t) (hs : snd (.stdin (child b l.win)) = p)
    (hs' : snd (.stdout (.battle b)) = p) (hr : rcv (.stdout (child b l.win)) = p)
    (hr' : rcv (.stdin (.battle b)) = p) : Kahn.Owns snd rcv p (battleMain b l) := by
  obtain ⟨pc, status, w⟩ := l
  cases pc with
  | relayRead => exact hr
  | relayUp => exact hs'
  | relayDown => exact hr'
  | relayWrite => exact hs
  | waitLast => trivial
  | exit => trivial
  | done => trivial
  | _ => exact h.elim

theorem player_owns {file : List Line} {M : Chan → Nat → Status → Prop} {k : PlayerId} {o : Int}
    {own : PlayerId → Prop} {l : PlayerLoc} {t : PlayerTally} (h : PlayerAt file M k o own l t)
    (hs : snd (.stdout (.player k)) = p) (hr : rcv (.stdin (.player k)) = p)
    (hq : rcv (.fifo k) = p) (hown : ∀ i, own i → snd (.fifo i) = p) :
    Kahn.Owns snd rcv p (playerMain file k l) := by
  obtain ⟨pc, m, q⟩ := l
  cases pc with
  | readFifo => exact hq
  | enter => exact hs
  | read => exact hr
  | write => exact hs
  | writeFifo i =>
    obtain ⟨n, v, -, -, hi, -⟩ := h
    exact hown i hi
  | _ => trivial

end

end SysProg.Tournament
