import SysProg.Booking.Effect

/-!
# SysProg.Booking.Sessions

The invariant of the servers when a call of `handle_read` is one step. It ties together, for each
process and each record, the slots with a session on the record, the entry of `self_lock` and the
lock the process holds:

* the number of sessions is at most `self_lock[k]`, and a write server never counts beyond 1;
* the process holds the lock of its build exactly while `self_lock[k]` is positive.

The two can differ (a session may be `lost` without an unlock), but only to the safe side.
`step_cases` says once what a step can do; `Inv.step` derives the invariant from it. `selfLock_le`: the
`int` of the code counts as far as the model does.
-/

set_option linter.unusedSectionVars false

namespace SysProg.Booking

open LockType

/-- The slots with a session on record `k`. -/
def Server.shown (b : Build) (sv : Server) (k : CInt) : Finset Nat :=
  (Finset.range MAXFD).filter fun fd => sv.Session b fd k

structure Server.Slots (b : Build) (sv : Server) : Prop where
  range : ∀ fd, (sv.requestP fd).connFd ≠ -1 → listenFd < fd ∧ fd < MAXFD
  slot : ∀ fd, (sv.requestP fd).connFd ≠ -1 → SlotOk b (sv.requestP fd)
  free : ∀ fd, (sv.requestP fd).connFd = -1 → (sv.requestP fd).id = 0

/-- The bookkeeping of the locks; `row k` is the lock the process holds on record `k`. -/
structure Server.Counts (b : Build) (sv : Server) (row : CInt → LockType) : Prop where
  count : ∀ k, ((sv.shown b k).card : Int) ≤ sv.selfLock k
  single : b = .writer → ∀ k, sv.selfLock k ≤ 1
  held : ∀ k, row k = if 0 < sv.selfLock k then b.lockType else unlck

/-- The invariant of a running process. -/
structure Server.Inv (b : Build) (sv : Server) (row : CInt → LockType) : Prop extends
  sv.Slots b, sv.Counts b row

structure Inv {P : Type} (build : P → Build) (w : World P) : Prop where
  compatible : w.kernel.locks.Compatible
  dead : ∀ p k, (w.server p).alive = false → w.kernel.locks k p = unlck
  alive : ∀ p, (w.server p).alive = true → (w.server p).Inv (build p) fun k => w.kernel.locks k p

/-! ## The slots with a session -/

section Shown

variable {b : Build} {sv sv' : Server} {fd : Nat} {k : CInt}

theorem mem_shown : fd ∈ sv.shown b k ↔ fd < MAXFD ∧ sv.Session b fd k := by
  simp [Server.shown]

theorem session_congr (ha : sv'.alive = sv.alive) (hr : sv'.requestP fd = sv.requestP fd) :
    sv'.Session b fd k ↔ sv.Session b fd k := by
  unfold Server.Session
  rw [ha, hr]

theorem shown_congr (ha : sv'.alive = sv.alive)
    (hr : ∀ j, j ≠ fd → sv'.requestP j = sv.requestP j)
    (h : sv'.Session b fd k ↔ sv.Session b fd k) : sv'.shown b k = sv.shown b k := by
  ext j
  rw [mem_shown, mem_shown]
  by_cases hj : j = fd
  · rw [hj, h]
  · rw [session_congr ha (hr j hj)]

theorem shown_open (ha : sv'.alive = sv.alive)
    (hr : ∀ j, j ≠ fd → sv'.requestP j = sv.requestP j) (hfd : fd < MAXFD)
    (h : ¬ sv.Session b fd k) (h' : sv'.Session b fd k) :
    (sv'.shown b k).card = (sv.shown b k).card + 1 := by
  have e : sv'.shown b k = insert fd (sv.shown b k) := by
    ext j
    rw [Finset.mem_insert, mem_shown, mem_shown]
    by_cases hj : j = fd
    · subst hj; simp [h', hfd]
    · rw [session_congr ha (hr j hj)]; simp [hj]
  rw [e, Finset.card_insert_of_notMem]
  rw [mem_shown]; exact fun hm => h hm.2

theorem shown_close (ha : sv'.alive = sv.alive)
    (hr : ∀ j, j ≠ fd → sv'.requestP j = sv.requestP j) (hfd : fd < MAXFD)
    (h : sv.Session b fd k) (h' : ¬ sv'.Session b fd k) :
    (sv'.shown b k).card + 1 = (sv.shown b k).card :=
  (shown_open ha.symm (fun j hj => (hr j hj).symm) hfd h' h).symm

theorem Session.unique {k' : CInt} (h : sv.Session b fd k) (h' : sv.Session b fd k') : k = k' := by
  have e : HEAD + k = HEAD + k' := h.2.2.2.symm.trans h'.2.2.2
  have := congrArg (fun i => i - HEAD) e
  simpa [BitVec.add_comm HEAD] using this

theorem not_session_of_closed (h : (sv.requestP fd).connFd = -1) : ¬ sv.Session b fd k :=
  fun hs => hs.2.1 h

theorem not_session_of_idle (h : InSession b (sv.requestP fd) = false) : ¬ sv.Session b fd k := by
  intro hs
  rw [hs.2.2.1] at h
  cases h

end Shown

/-! ## What a step can do -/

section Step

variable {P : Type} [DecidableEq P] [Fintype P] {build : P → Build} {w w' : World P}

theorem canServe_iff {sv : Server} {fd : Nat} :
    sv.canServe fd = true ↔
      sv.alive = true ∧ listenFd < fd ∧ fd < MAXFD ∧ (sv.requestP fd).connFd ≠ -1 := by
  simp [Server.canServe, and_assoc]

theorem canAccept_iff {sv : Server} {fd : Nat} :
    sv.canAccept fd = true ↔
      sv.alive = true ∧ listenFd < fd ∧ fd < MAXFD ∧ (sv.requestP fd).connFd = -1 := by
  simp [Server.canAccept, and_assoc]

/-- What step `e` of process `p` does to `p` itself and to the kernel. -/
inductive StepCase (build : P → Build) (w : World P) (p : P) : Event P → Server → Kernel P → Prop where
  | accept {fd : Nat} : (w.server p).canAccept fd = true →
      StepCase build w p (.accept p fd) ((w.server p).accept (build p) fd) w.kernel
  | exit {fd : Nat} {r : ReadResult} : (w.server p).canServe fd = true →
      ¬ Lost (build p) r → commandOf (build p) ((w.server p).requestP fd) r = none →
      StepCase build w p (.recv p fd r) { w.server p with alive := false }
        { w.kernel with locks := w.kernel.locks.dropAll p }
  | served {fd : Nat} {r : ReadResult} {sv : Server} {s : Kernel P} :
      (w.server p).canServe fd = true →
      Effect (build p) p ((w.server p).requestP fd) (w.server p).selfLock w.kernel r
        (sv.requestP fd) sv.selfLock s →
      sv.alive = true → (∀ j, j ≠ fd → sv.requestP j = (w.server p).requestP j) →
      StepCase build w p (.recv p fd r) sv s

theorem setServer_self {p : P} {sv : Server} : (w.setServer p sv).server p = sv := by
  simp [World.setServer]

@[simp] theorem setServer_kernel {p : P} {sv : Server} : (w.setServer p sv).kernel = w.kernel := rfl

theorem setServer_of_ne {p q : P} {sv : Server} (h : q ≠ p) :
    (w.setServer p sv).server q = w.server q := by simp [World.setServer, h]

/-- The process that takes the step, and the one inversion of `World.step`. -/
theorem step_cases (hi : Inv build w) {e : Event P} (h : w.step build e = some w') :
    ∃ p, StepCase build w p e (w'.server p) w'.kernel ∧ ∀ q, q ≠ p → w'.server q = w.server q := by
  cases e with
  | accept p fd =>
    simp only [World.step] at h
    split at h
    · rename_i hc
      cases h
      refine ⟨p, ?_, fun q hq => setServer_of_ne hq⟩
      rw [setServer_self]
      exact .accept hc
    · cases h
  | recv p fd r =>
    simp only [World.step] at h
    split at h
    · rename_i hc
      obtain ⟨hal, _, _, hconn⟩ := canServe_iff.1 hc
      cases hx : w.handle build p fd r with
      | mk out s =>
        rw [hx] at h
        simp only [Option.some.injEq] at h
        subst h
        refine ⟨p, ?_, fun q hq => setServer_of_ne hq⟩
        rw [setServer_self]
        have heff := handle_effect ((hi.alive p hal).slot fd hconn) hx
        cases out with
        | exit =>
          simp only [EffectOut] at heff
          obtain ⟨rfl, hlost, hcmd⟩ := heff
          exact .exit hc hlost hcmd
        | ret val reqP sl =>
          refine .served hc ?_ hal fun j hj => ?_
          · simpa [Server.finish, Kernel.finish, EffectOut] using heff
          · simp [Server.finish, hj]
    · cases h

theorem StepCase.locks_other {p : P} {e : Event P} {sv : Server} {s : Kernel P}
    (h : StepCase build w p e sv s) {q : P} (hq : q ≠ p) (k : CInt) :
    s.locks k q = w.kernel.locks k q := by
  rcases h with _ | _ | ⟨_, heff, _, _⟩
  · rfl
  · exact LockTable.dropAll_of_ne hq
  · exact heff.locks_other hq k

theorem StepCase.compatible {p : P} {e : Event P} {sv : Server} {s : Kernel P}
    (h : StepCase build w p e sv s) (hc : w.kernel.locks.Compatible) : s.locks.Compatible := by
  rcases h with _ | _ | ⟨_, heff, _, _⟩
  · exact hc
  · exact LockTable.dropAll_compatible hc
  · exact heff.compatible hc

end Step

/-! ## The invariant of one process -/

section Inv

variable {b : Build} {sv sv' : Server} {fd : Nat}

theorem Server.Slots.update (h : sv.Slots b) (hr : ∀ j, j ≠ fd → sv'.requestP j = sv.requestP j)
    (hfd : listenFd < fd ∧ fd < MAXFD)
    (hopen : (sv'.requestP fd).connFd ≠ -1 → SlotOk b (sv'.requestP fd))
    (hfree : (sv'.requestP fd).connFd = -1 → (sv'.requestP fd).id = 0) : sv'.Slots b := by
  constructor
  · intro j hj
    by_cases e : j = fd
    · subst e; exact hfd
    · rw [hr j e] at hj; exact h.range j hj
  · intro j hj
    by_cases e : j = fd
    · subst e; exact hopen hj
    · rw [hr j e] at hj ⊢; exact h.slot j hj
  · intro j hj
    by_cases e : j = fd
    · subst e; exact hfree hj
    · rw [hr j e] at hj ⊢; exact h.free j hj

/-- What one call of `handle_read` does to the books of its process: `lost` says that it ends a
session without unlocking. -/
inductive Bookkeeping (b : Build) (sv sv' : Server) (row row' : CInt → LockType) (lost : Prop) :
    Prop where
  | keep : ¬ lost → sv'.selfLock = sv.selfLock → row' = row → (∀ k, sv'.shown b k = sv.shown b k) →
      Bookkeeping b sv sv' row row' lost
  | lose {k : CInt} : lost → sv'.selfLock = sv.selfLock → row' = row →
      (sv'.shown b k).card + 1 = (sv.shown b k).card →
      (∀ k', k' ≠ k → sv'.shown b k' = sv.shown b k') → Bookkeeping b sv sv' row row' lost
  | start {k : CInt} : ¬ lost → (b = .writer → sv.selfLock k ≠ 1) →
      sv'.selfLock = updLock sv.selfLock k (b.taken (sv.selfLock k)) →
      row' k = b.lockType → (∀ k', k' ≠ k → row' k' = row k') →
      (sv'.shown b k).card = (sv.shown b k).card + 1 →
      (∀ k', k' ≠ k → sv'.shown b k' = sv.shown b k') → Bookkeeping b sv sv' row row' lost
  | stop {k : CInt} : ¬ lost → sv'.selfLock = updLock sv.selfLock k (b.given (sv.selfLock k)) →
      (row' k = if b = .reader ∧ sv.selfLock k - 1 ≠ 0 then row k else unlck) →
      (∀ k', k' ≠ k → row' k' = row k') →
      (sv'.shown b k).card + 1 = (sv.shown b k).card →
      (∀ k', k' ≠ k → sv'.shown b k' = sv.shown b k') → Bookkeeping b sv sv' row row' lost

theorem updLock_self {sl : SelfLock} {k : CInt} {v : Int} : updLock sl k v k = v := if_pos rfl

theorem updLock_of_ne {sl : SelfLock} {k k' : CInt} {v : Int} (h : k' ≠ k) :
    updLock sl k v k' = sl k' := if_neg h

theorem Server.Counts.step {row row' : CInt → LockType} {lost : Prop} (h : sv.Counts b row)
    (hb : Bookkeeping b sv sv' row row' lost) : sv'.Counts b row' := by
  cases hb with
  | keep _ hsl hrow hk =>
    refine ⟨fun k => ?_, fun hw k => ?_, fun k => ?_⟩
    · rw [hk k, hsl]; exact h.count k
    · rw [hsl]; exact h.single hw k
    · rw [hsl, hrow]; exact h.held k
  | @lose k _ hsl hrow hk hk' =>
    refine ⟨fun k' => ?_, fun hw k' => ?_, fun k' => ?_⟩
    rotate_left
    · rw [hsl]; exact h.single hw k'
    · rw [hsl, hrow]; exact h.held k'
    have := h.count k'
    rw [hsl]
    by_cases e : k' = k
    · subst e; omega
    · rw [hk' k' e]; exact this
  | @start k _ hne hsl hrow hrow' hk hk' =>
    have hcount := h.count k
    have htaken : ((sv'.shown b k).card : Int) ≤ b.taken (sv.selfLock k) := by
      cases b with
      | reader => simp only [Build.taken]; omega
      | writer =>
        have := h.single rfl k
        have := hne rfl
        simp only [Build.taken]
        omega
    refine ⟨fun k' => ?_, fun hw k' => ?_, fun k' => ?_⟩
    · by_cases e : k' = k
      · rw [e, hsl, updLock_self]; exact htaken
      · rw [hk' k' e, hsl, updLock_of_ne e]; exact h.count k'
    · by_cases e : k' = k
      · rw [e, hsl, updLock_self, hw]; exact le_refl 1
      · rw [hsl, updLock_of_ne e]; exact h.single hw k'
    · by_cases e : k' = k
      · rw [e, hrow, hsl, updLock_self, if_pos (by omega)]
      · rw [hrow' k' e, hsl, updLock_of_ne e]; exact h.held k'
  | @stop k _ hsl hrow hrow' hk hk' =>
    have hcount := h.count k
    have hgiven : ((sv'.shown b k).card : Int) ≤ b.given (sv.selfLock k) := by
      cases b with
      | reader => simp only [Build.given]; omega
      | writer =>
        have := h.single rfl k
        simp only [Build.given]
        omega
    refine ⟨fun k' => ?_, fun hw k' => ?_, fun k' => ?_⟩
    · by_cases e : k' = k
      · rw [e, hsl, updLock_self]; exact hgiven
      · rw [hk' k' e, hsl, updLock_of_ne e]; exact h.count k'
    · by_cases e : k' = k
      · rw [e, hsl, updLock_self, hw]; exact zero_le_one
      · rw [hsl, updLock_of_ne e]; exact h.single hw k'
    · by_cases e : k' = k
      · rw [e, hrow, hsl, updLock_self, h.held k]
        cases b with
        | reader =>
          have hpos : 0 < sv.selfLock k := by omega
          by_cases h1 : sv.selfLock k - 1 = 0
          · simp [Build.given, h1]
          · have hlt : 1 < sv.selfLock k := by omega
            simp [Build.given, h1, hpos, hlt]
        | writer => simp [Build.given]
      · rw [hrow' k' e, hsl, updLock_of_ne e]; exact h.held k'

/-- The counter of record `k` counts its sessions. -/
def Server.Exact (b : Build) (sv : Server) : Prop :=
  ∀ k, ((sv.shown b k).card : Int) = sv.selfLock k

theorem Server.Exact.step {row row' : CInt → LockType} {lost : Prop} (h : sv.Exact b)
    (hi : sv.Counts b row) (hb : Bookkeeping b sv sv' row row' lost) : sv'.Exact b ↔ ¬ lost := by
  cases hb with
  | keep hl hsl _ hk =>
    simp only [hl, not_false_eq_true, iff_true]
    intro k
    rw [hk k, hsl]
    exact h k
  | @lose k hl hsl _ hk _ =>
    have h1 := h k
    simp only [hl, not_true_eq_false, iff_false]
    intro h'
    have h2 := h' k
    rw [hsl] at h2
    omega
  | @start k hl hne hsl _ _ hk hk' =>
    simp only [hl, not_false_eq_true, iff_true]
    intro k'
    by_cases e : k' = k
    · rw [e, hsl, updLock_self, hk]
      have h1 := h k
      cases b with
      | reader => simp only [Build.taken]; omega
      | writer =>
        have := hi.single rfl k
        have := hne rfl
        simp only [Build.taken]
        omega
    · rw [hk' k' e, hsl, updLock_of_ne e]; exact h k'
  | @stop k hl hsl _ _ hk hk' =>
    simp only [hl, not_false_eq_true, iff_true]
    intro k'
    by_cases e : k' = k
    · rw [e, hsl, updLock_self]
      have h1 := h k
      cases b with
      | reader => simp only [Build.given]; omega
      | writer =>
        have := hi.single rfl k
        simp only [Build.given]
        omega
    · rw [hk' k' e, hsl, updLock_of_ne e]; exact h k'

variable {P : Type} [DecidableEq P] [Fintype P] {p : P} {s s' : Kernel P} {r : ReadResult}

/-- The end of a session, whatever the code did with the lock. -/
theorem shown_stop {k : CInt} (ha : sv'.alive = sv.alive)
    (hr : ∀ j, j ≠ fd → sv'.requestP j = sv.requestP j) (hfd : fd < MAXFD)
    (hk : sv.Session b fd k) (hcl : Closed (sv'.requestP fd)) :
    (sv'.shown b k).card + 1 = (sv.shown b k).card ∧
      ∀ k', k' ≠ k → sv'.shown b k' = sv.shown b k' := by
  refine ⟨shown_close ha hr hfd hk (not_session_of_closed hcl.1), fun k' hk' => ?_⟩
  refine shown_congr ha hr ⟨fun h => (not_session_of_closed hcl.1 h).elim, fun h => ?_⟩
  exact (hk' (Session.unique h hk)).elim

/-- The chunk ends a session without unlocking. -/
def Loses (b : Build) (reqP : Request) (r : ReadResult) : Prop :=
  InSession b reqP = true ∧ Lost b r

section Effect

variable (hi : sv.Slots b) (ha : sv.alive = true) (ha' : sv'.alive = true)
  (hr : ∀ j, j ≠ fd → sv'.requestP j = sv.requestP j) (hopen : (sv.requestP fd).connFd ≠ -1)
  (he : Effect b p (sv.requestP fd) sv.selfLock s r (sv'.requestP fd) sv'.selfLock s')

include hi ha ha' hr hopen he

theorem Effect.slots : sv'.Slots b := by
  have hfd := hi.range fd hopen
  have hclosed : Closed (sv'.requestP fd) → sv'.Slots b := fun hcl =>
    hi.update hr hfd (fun h => (h hcl.1).elim) fun _ => hcl.2
  generalize hq : sv'.requestP fd = q at he hclosed
  generalize hsl : sv'.selfLock = sl at he
  cases he with
  | failed _ =>
    exact hi.update hr hfd (fun _ => hq ▸ hi.slot fd hopen) fun h => (hopen (hq ▸ h)).elim
  | refused _ hcl => exact hclosed hcl
  | lost _ _ hcl => exact hclosed hcl
  | opened _ hoff _ _ hconn hid hbusy _ =>
    refine hi.update hr hfd (fun _ => hq ▸ ⟨fun h => ?_, fun _ => ?_⟩) fun h => ?_
    · rw [hbusy] at h; cases h
    · rw [hid, BitVec.add_comm, BitVec.add_sub_cancel]; exact hoff
    · rw [hq, hconn] at h; exact (hopen h).elim
  | released _ _ _ hcl _ => exact hclosed hcl
  | booked _ _ _ hcl _ _ _ => exact hclosed hcl

theorem Effect.bookkeeping : Bookkeeping b sv sv' (fun k => s.locks k p) (fun k => s'.locks k p)
    (Loses b (sv.requestP fd) r) := by
  have hfd := (hi.range fd hopen).2
  have haa : sv'.alive = sv.alive := by rw [ha, ha']
  have hend : ∀ {k}, InSession b (sv.requestP fd) = true → (sv.requestP fd).id = HEAD + k →
      Closed (sv'.requestP fd) → (sv'.shown b k).card + 1 = (sv.shown b k).card ∧
        ∀ k', k' ≠ k → sv'.shown b k' = sv.shown b k' := fun hbusy hk hcl =>
    shown_stop haa hr hfd ⟨ha, hopen, hbusy, hk⟩ hcl
  generalize hq : sv'.requestP fd = q at he hend
  generalize hsl : sv'.selfLock = sl at he
  cases he with
  | failed h =>
    have hsame : ∀ j, sv'.requestP j = sv.requestP j := by
      intro j
      by_cases e : j = fd
      · rw [e, hq]
      · exact hr j e
    exact .keep (fun hl => by rw [h] at hl; exact hl.2) hsl rfl fun k =>
      shown_congr haa hr (session_congr haa (hsame fd))
  | refused hidle hcl =>
    refine .keep (fun hl => ?_) hsl rfl fun k => shown_congr haa hr ?_
    · have := hl.1; rw [hidle] at this; cases this
    · exact ⟨fun h => (not_session_of_closed (hq ▸ hcl.1) h).elim,
        fun h => (not_session_of_idle hidle h).elim⟩
  | lost hbusy hl hcl =>
    obtain ⟨h1, h2⟩ := hend hbusy (sub_add_head _) hcl
    exact .lose ⟨hbusy, hl⟩ hsl rfl h1 h2
  | @opened _ k hidle _ hg hne hconn hid hbusy _ =>
    have hs' : sv'.Session b fd k :=
      ⟨ha', by rw [hq, hconn]; exact hopen, by rw [hq]; exact hbusy, by rw [hq]; exact hid⟩
    refine .start (fun hl => ?_) hne hsl LockTable.put_self
      (fun k' hk' => LockTable.put_of_ne_region hk')
      (shown_open haa hr hfd (not_session_of_idle hidle) hs') fun k' hk' => shown_congr haa hr ?_
    · have := hl.1; rw [hidle] at this; cases this
    · exact ⟨fun h => (hk' (Session.unique h hs')).elim,
        fun h => (not_session_of_idle hidle h).elim⟩
  | @released _ k hbusy hk hnl hcl _ =>
    obtain ⟨h1, h2⟩ := hend hbusy hk hcl
    refine .stop (fun hl => hnl hl.2) hsl ?_ (fun k' hk' => unlock_of_ne_region hk') h1 h2
    simp only [unlock]
    split
    · rfl
    · exact LockTable.put_self
  | @booked _ k _ hw hbusy hk hcl hcmd _ _ =>
    subst hw
    obtain ⟨h1, h2⟩ := hend hbusy hk hcl
    refine .stop (fun hl => ?_) hsl ?_ (fun k' hk' => LockTable.put_of_ne_region hk') h1 h2
    · have hl := hl.2
      unfold Lost at hl
      split at hl
      · exact hl
      · cases hcmd
      · cases hl.1
    · simp

end Effect

theorem Server.Slots.accept (hi : sv.Slots b) (hc : sv.canAccept fd = true) :
    (sv.accept b fd).Slots b ∧ ∀ k, (sv.accept b fd).shown b k = sv.shown b k := by
  obtain ⟨_, hlo, hhi, hfree⟩ := canAccept_iff.1 hc
  have hr : ∀ j, j ≠ fd → (sv.accept b fd).requestP j = sv.requestP j := by
    intro j hj; simp [Server.accept, hj]
  have hq : (sv.accept b fd).requestP fd = acceptRequest b fd (sv.requestP fd) := by
    simp [Server.accept]
  have hidle : InSession b ((sv.accept b fd).requestP fd) = false := by
    rw [hq]; cases b <;> simp [InSession, acceptRequest]
  have haa : (sv.accept b fd).alive = sv.alive := rfl
  refine ⟨hi.update hr ⟨hlo, hhi⟩ (fun _ => ⟨fun _ => ?_, fun h => ?_⟩) (fun h => ?_), fun k => ?_⟩
  · rw [hq]; exact hi.free fd hfree
  · rw [hidle] at h; cases h
  · rw [hq] at h; simp [acceptRequest] at h
  · refine shown_congr haa hr ?_
    exact ⟨fun h => (not_session_of_idle hidle h).elim,
      fun h => (not_session_of_closed hfree h).elim⟩

theorem Server.Slots.accept_bookkeeping (hi : sv.Slots b) (hc : sv.canAccept fd = true)
    (row : CInt → LockType) : Bookkeeping b sv (sv.accept b fd) row row False :=
  .keep not_false rfl rfl (hi.accept hc).2

theorem Server.Inv.accept {row : CInt → LockType} (hi : sv.Inv b row)
    (hc : sv.canAccept fd = true) : (sv.accept b fd).Inv b row :=
  ⟨(hi.toSlots.accept hc).1, hi.toCounts.step (hi.toSlots.accept_bookkeeping hc row)⟩

end Inv

/-! ## The invariant of all processes -/

section World

variable {P : Type} [DecidableEq P] [Fintype P] {build : P → Build} {w w' : World P}

theorem StepCase.inv {p : P} {e : Event P} {sv : Server} {s : Kernel P} (hi : Inv build w)
    (h : StepCase build w p e sv s) (ha : sv.alive = true) : sv.Inv (build p) fun k => s.locks k p := by
  cases h with
  | accept hc => exact (hi.alive p (canAccept_iff.1 hc).1).accept hc
  | exit => cases ha
  | served hc heff ha' hr =>
    obtain ⟨hal, _, _, hopen⟩ := canServe_iff.1 hc
    have hp := hi.alive p hal
    exact ⟨heff.slots hp.toSlots hal ha' hr hopen,
      hp.toCounts.step (heff.bookkeeping hp.toSlots hal ha' hr hopen)⟩

theorem StepCase.dead {p : P} {e : Event P} {sv : Server} {s : Kernel P}
    (h : StepCase build w p e sv s) (hd : sv.alive = false) (k : CInt) : s.locks k p = unlck := by
  cases h with
  | accept hc =>
    have : (w.server p).alive = false := hd
    rw [(canAccept_iff.1 hc).1] at this
    cases this
  | exit => exact LockTable.dropAll_self
  | served _ _ ha' _ => rw [ha'] at hd; cases hd

theorem Inv.step (hi : Inv build w) {e : Event P} (h : w.step build e = some w') : Inv build w' := by
  obtain ⟨p, hp, hother⟩ := step_cases hi h
  refine ⟨hp.compatible hi.compatible, fun q k hd => ?_, fun q ha => ?_⟩
  · by_cases e : q = p
    · subst e; exact hp.dead hd k
    · rw [hother q e] at hd
      rw [hp.locks_other e]; exact hi.dead q k hd
  · by_cases e : q = p
    · subst e; exact hp.inv hi ha
    · rw [hother q e] at ha ⊢
      have hrow : (fun k => w'.kernel.locks k q) = fun k => w.kernel.locks k q := by
        funext k; exact hp.locks_other e k
      rw [hrow]; exact hi.alive q ha

theorem shown_fresh {b : Build} {sv : Server} (h : sv.Fresh) (k : CInt) : sv.shown b k = ∅ := by
  ext fd
  rw [mem_shown]
  simp only [Finset.notMem_empty, iff_false, not_and]
  exact fun _ => not_session_of_closed (h.connFd fd)

theorem World.Init.inv (h : w.Init) : Inv build w := by
  refine ⟨fun k p q _ => ?_, fun p k _ => h.locks k p, fun p _ => ⟨⟨?_, ?_, ?_⟩, ⟨?_, ?_, ?_⟩⟩⟩
  · rw [h.locks]; rfl
  · intro fd hc; exact (hc ((h.fresh p).connFd fd)).elim
  · intro fd hc; exact (hc ((h.fresh p).connFd fd)).elim
  · intro fd _; exact (h.fresh p).id fd
  · intro k; rw [shown_fresh (h.fresh p), (h.fresh p).selfLock]; rfl
  · intro _ k; rw [(h.fresh p).selfLock]; decide
  · intro k; rw [h.locks, (h.fresh p).selfLock]; simp

theorem reachable_inv {w0 : World P} (h0 : w0.Init) (h : Reachable (World.step build) w0 w) :
    Inv build w :=
  h.invariant (fun _ _ _ hi hs => hi.step hs) h0.inv

/-! ## How far self_lock counts -/

theorem Effect.selfLock_le {b : Build} {p : P} {reqP q : Request} {sl sl' : SelfLock} {s s' : Kernel P}
    {r : ReadResult} (h : Effect b p reqP sl s r q sl' s') {k : CInt} (h0 : 0 ≤ sl k) :
    sl' k ≤ sl k + 1 := by
  have hput : ∀ (k' : CInt) (v : Int), v ≤ sl k' + 1 ∨ v ≤ 1 → updLock sl k' v k ≤ sl k + 1 := by
    intro k' v hv
    rw [updLock]
    split
    · rename_i hk
      subst hk
      omega
    · omega
  cases h with
  | failed | refused | lost => omega
  | @opened _ k' _ _ _ _ _ _ _ _ =>
    refine hput k' _ ?_
    cases b with
    | reader => exact .inl (Int.le_refl _)
    | writer => exact .inr (Int.le_refl _)
  | @released _ k' _ _ _ _ _ =>
    refine hput k' _ ?_
    cases b with
    | reader => exact .inl (by simp only [Build.given]; omega)
    | writer => exact .inr (by decide : (0 : Int) ≤ 1)
  | @booked _ k' _ _ _ _ _ _ _ _ => exact hput k' 0 (.inr (by decide))

theorem StepCase.selfLock {p : P} {e : Event P} {sv : Server} {s : Kernel P} (hi : Inv build w)
    (h : StepCase build w p e sv s) {k : CInt} (h0 : 0 ≤ (w.server p).selfLock k) :
    0 ≤ sv.selfLock k ∧ sv.selfLock k ≤ (w.server p).selfLock k + 1 := by
  have hinv := h.inv hi
  cases h with
  | accept => exact ⟨h0, Int.le_add_of_nonneg_right (by decide)⟩
  | exit => exact ⟨h0, Int.le_add_of_nonneg_right (by decide)⟩
  | served _ heff hal _ =>
    exact ⟨Int.le_trans (Int.natCast_nonneg _) ((hinv hal).count k), heff.selfLock_le h0⟩

/-- The `int` of the code holds what the model counts, in every run of less than 2^31 steps. -/
theorem selfLock_le {w0 : World P} {tr : List (World P × Event P)} (h0 : w0.Init)
    (h : Run (World.step build) w0 tr w) (p : P) (k : CInt) :
    0 ≤ (w.server p).selfLock k ∧ (w.server p).selfLock k ≤ tr.length := by
  induction h with
  | nil =>
    rw [(h0.fresh p).selfLock]
    exact ⟨Int.le_refl 0, Int.natCast_nonneg _⟩
  | @snoc w1 w2 tr e hr hs ih =>
    obtain ⟨q, hcase, hother⟩ := step_cases (reachable_inv h0 ⟨tr, hr⟩) hs
    rw [List.length_append, List.length_singleton]
    push_cast
    by_cases hq : p = q
    · subst hq
      have := hcase.selfLock (reachable_inv h0 ⟨tr, hr⟩) ih.1
      omega
    · rw [hother p hq]
      omega

end World

end SysProg.Booking
