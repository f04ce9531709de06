import SysProg.Booking.Sessions

/-!
# SysProg.Booking.Release

When do the servers give back the locks they take? `exact_step`: from a state in which every
counter is exact, a step keeps them exact unless it ends a session without unlocking.

* The write server misses the unlock when `read` returns 0 on a connection that waits for its
  command (`writer_released_iff`).
* The read server misses it when `read` returns 0 on a connection that was shown a record, and
  when such a connection sends a line other than `Exit` (`reader_exact_iff`).
-/

set_option linter.unusedSectionVars false

namespace SysProg.Booking

open LockType

section

variable {P : Type} [DecidableEq P] [Fintype P] {build : P → Build} {w w' : World P}

/-- The counters of the running processes of build `b` are exact. -/
def World.Exact (build : P → Build) (b : Build) (w : World P) : Prop :=
  ∀ p, build p = b → (w.server p).alive = true → (w.server p).Exact b

/-- The event ends a session of a process of build `b` without unlocking. -/
def LosesAt (build : P → Build) (b : Build) (w : World P) : Event P → Prop
  | .accept _ _ => False
  | .recv p fd r => build p = b ∧ Loses b ((w.server p).requestP fd) r

theorem StepCase.alive {p : P} {e : Event P} {sv : Server} {s : Kernel P}
    (h : StepCase build w p e sv s) : (w.server p).alive = true := by
  rcases h with hc | ⟨hc, _, _⟩ | ⟨hc, _, _, _⟩
  · exact (canAccept_iff.1 hc).1
  · exact (canServe_iff.1 hc).1
  · exact (canServe_iff.1 hc).1

theorem StepCase.exact_iff {p : P} {e : Event P} {sv : Server} {s : Kernel P} (hi : Inv build w)
    (h : StepCase build w p e sv s) {b : Build} (hb : build p = b) (hx : (w.server p).Exact b) :
    (sv.alive = true → sv.Exact b) ↔ ¬ LosesAt build b w e := by
  subst hb
  have hp := hi.alive p h.alive
  cases h with
  | accept hc =>
    have hx' := (hx.step hp.toCounts (hp.toSlots.accept_bookkeeping hc _)).2 not_false
    exact ⟨fun _ hl => hl, fun _ _ => hx'⟩
  | exit _ hlost _ => exact ⟨fun _ hl => hlost hl.2.2, fun _ ha => by cases ha⟩
  | served hc heff ha' hr =>
    obtain ⟨hal, _, _, hopen⟩ := canServe_iff.1 hc
    have := hx.step hp.toCounts (heff.bookkeeping hp.toSlots hal ha' hr hopen)
    simpa [LosesAt, ha'] using this

/-- An event for another build is none of `b`'s business. -/
theorem StepCase.not_losesAt {p : P} {e : Event P} {sv : Server} {s : Kernel P}
    (h : StepCase build w p e sv s) {b : Build} (hb : build p ≠ b) : ¬ LosesAt build b w e := by
  rcases h with _ | _ | _
  · exact not_false
  · exact fun hl => hb hl.1
  · exact fun hl => hb hl.1

theorem exact_step {b : Build} {e : Event P} (hi : Inv build w) (hx : w.Exact build b)
    (h : w.step build e = some w') : w'.Exact build b ↔ ¬ LosesAt build b w e := by
  obtain ⟨p, hp, hother⟩ := step_cases hi h
  have hrest : ∀ q, q ≠ p → build q = b → (w'.server q).alive = true → (w'.server q).Exact b := by
    intro q hq hb ha
    rw [hother q hq] at ha ⊢
    exact hx q hb ha
  by_cases hb : build p = b
  · rw [← hp.exact_iff hi hb (hx p hb hp.alive)]
    constructor
    · intro h' ha; exact h' p hb ha
    · intro h' q hq ha
      by_cases e : q = p
      · subst e; exact h' ha
      · exact hrest q e hq ha
  · refine ⟨fun _ => hp.not_losesAt hb, fun _ q hq ha => hrest q ?_ hq ha⟩
    rintro rfl; exact hb hq

theorem World.Init.exact {b : Build} (h : w.Init) : w.Exact build b := by
  intro p _ _ k
  rw [shown_fresh (h.fresh p), (h.fresh p).selfLock]
  rfl

/-! ## A concrete run -/

/-- The world before any event: empty records, one server for each process. -/
def freshWorld (P : Type) : World P where
  kernel := { file := fun _ => ⟨0, fun _ => 0⟩, locks := fun _ _ => unlck }
  server _ :=
    { alive := true
      selfLock := fun _ => 0
      requestP := fun _ => ⟨-1, [], 0, false, false⟩
      sent := [] }

theorem freshWorld_init (P : Type) : (freshWorld P).Init :=
  ⟨fun _ => ⟨rfl, fun _ => rfl, fun _ => rfl, fun _ => rfl, rfl⟩, fun _ _ => rfl⟩

/-- A client connects and sends the id of the first record. -/
def visit {P : Type} (p : P) (fd : Nat) : List (Event P) :=
  [.accept p fd, .recv p fd (.data "902001\r\n".toList)]

/-- The state after a client sent its id to the only server. -/
def visited (b : Build) : World (Fin 1) :=
  (runEvents (World.step fun _ => b) (freshWorld (Fin 1)) (visit 0 5)).getD (freshWorld (Fin 1))

theorem visited_reachable (b : Build) :
    Reachable (World.step fun _ => b) (freshWorld (Fin 1)) (visited b) := by
  have h : runEvents (World.step fun _ => b) (freshWorld (Fin 1)) (visit 0 5) = some (visited b) := by
    cases b <;> rfl
  exact reachable_runEvents h

/-! ## The write server -/

/-- `self_lock[k]` is 1 exactly when one connection waits for its command on record `k`, and the
process holds the lock only then. -/
def WriterReleased (build : P → Build) (w : World P) : Prop :=
  ∀ p, build p = .writer → (w.server p).alive = true → ∀ k,
    ((w.server p).selfLock k = 1 ↔ ∃! fd, WriteSession build w p fd k) ∧
    (w.kernel.locks k p = wrlck → ∃ fd, WriteSession build w p fd k)

/-- `read` returns 0 on a connection of a write server that waits for its command. -/
def WriterHangUp (build : P → Build) (w : World P) : Event P → Prop
  | .accept _ _ => False
  | .recv p fd r => build p = .writer ∧ ((w.server p).requestP fd).waitForWrite = false ∧
      r = .data []

instance (e : Event P) : Decidable (WriterHangUp build w e) := by
  cases e <;> unfold WriterHangUp <;> infer_instance

theorem losesAt_writer {e : Event P} : LosesAt build .writer w e ↔ WriterHangUp build w e := by
  cases e with
  | accept _ _ => rfl
  | recv p fd r =>
    have hlost : Lost .writer r ↔ r = .data [] := by
      unfold Lost
      split <;> simp_all
    simp [LosesAt, WriterHangUp, Loses, InSession, hlost]

theorem Server.Inv.mem_shown_iff {b : Build} {sv : Server} {row : CInt → LockType}
    (hi : sv.Inv b row) {fd : Nat} {k : CInt} : fd ∈ sv.shown b k ↔ sv.Session b fd k := by
  rw [mem_shown]
  exact ⟨fun h => h.2, fun h => ⟨(hi.range fd h.2.1).2, h⟩⟩

theorem Server.Inv.card_eq_one {b : Build} {sv : Server} {row : CInt → LockType}
    (hi : sv.Inv b row) {k : CInt} : (sv.shown b k).card = 1 ↔ ∃! fd, sv.Session b fd k := by
  rw [Finset.card_eq_one]
  constructor
  · rintro ⟨fd, hfd⟩
    have hmem : ∀ j, sv.Session b j k ↔ j = fd := by
      intro j; rw [← hi.mem_shown_iff, hfd, Finset.mem_singleton]
    exact ⟨fd, (hmem fd).2 rfl, fun j hj => (hmem j).1 hj⟩
  · rintro ⟨fd, hs, huniq⟩
    refine ⟨fd, ?_⟩
    ext j
    rw [hi.mem_shown_iff, Finset.mem_singleton]
    exact ⟨huniq j, fun e => e ▸ hs⟩

theorem writerReleased_iff_exact (hi : Inv build w) :
    WriterReleased build w ↔ w.Exact build .writer := by
  refine forall_congr' fun p => forall_congr' fun hb => forall_congr' fun ha => ?_
  have hp := hi.alive p ha
  rw [hb] at hp
  have hws : ∀ {fd k}, WriteSession build w p fd k ↔ (w.server p).Session .writer fd k := by
    simp [WriteSession, hb]
  constructor
  · intro h k
    have hone := (h k).1
    simp only [hws] at hone
    rw [← hp.card_eq_one] at hone
    have := hp.count k
    have := hp.single rfl k
    omega
  · intro h k
    have hk := h k
    refine ⟨?_, fun hl => ?_⟩
    · simp only [hws]
      rw [← hp.card_eq_one]
      omega
    · rw [hp.held k] at hl
      have hpos : 0 < ((w.server p).shown .writer k).card := by
        by_contra hn
        rw [if_neg (by omega)] at hl
        cases hl
      obtain ⟨fd, hfd⟩ := Finset.card_pos.1 hpos
      exact ⟨fd, hws.2 (hp.mem_shown_iff.1 hfd)⟩

theorem writerReleased_step {e : Event P} (hi : Inv build w) (hr : WriterReleased build w)
    (h : w.step build e = some w') : WriterReleased build w' ↔ ¬ WriterHangUp build w e := by
  rw [writerReleased_iff_exact (hi.step h), ← losesAt_writer]
  exact exact_step hi ((writerReleased_iff_exact hi).1 hr) h

/-- Every session of a write server gives its lock back, unless the client hangs up between its
id and its command. -/
theorem writer_released_iff {w0 : World P} {tr : List (World P × Event P)} (h0 : w0.Init)
    (h : Run (World.step build) w0 tr w) :
    Always (WriterReleased build) tr w ↔ Meets (fun w e => ¬ WriterHangUp build w e) tr :=
  h.forall_iff (J := Inv build) (fun _ _ _ hi hs => hi.step hs)
    (fun _ _ _ hi hr hs => writerReleased_step hi hr hs) h0.inv
    ((writerReleased_iff_exact h0.inv).2 h0.exact)

theorem writer_released_iff_booked :
    Always (WriterReleased fun _ => .writer)
      (traceOf (World.step fun _ => .writer) (freshWorld (Fin 1))
        (visit 0 5 ++ [.recv 0 5 (.data "1 2 3\r\n".toList)]))
      ((runEvents (World.step fun _ => .writer) (freshWorld (Fin 1))
        (visit 0 5 ++ [.recv 0 5 (.data "1 2 3\r\n".toList)])).getD (freshWorld (Fin 1))) :=
  (writer_released_iff (freshWorld_init _) (run_traceOf rfl)).2 (by decide)

/-- After the hang-up the lock of the first record stays, with no connection that could use it. -/
theorem writer_hangUp_keeps_lock :
    ¬ ∀ w0 w : World (Fin 1), w0.Init → Reachable (World.step fun _ => .writer) w0 w →
      WriterReleased (fun _ => .writer) w := by
  intro hall
  have hr := visited_reachable .writer
  have hi := reachable_inv (freshWorld_init _) hr
  obtain ⟨w', hw'⟩ : ∃ w', (visited .writer).step (fun _ => .writer) (.recv 0 5 (.data [])) = some w' :=
    Option.isSome_iff_exists.1 (by decide)
  have hrel := hall _ _ (freshWorld_init _) hr
  have hrel' := hall _ _ (freshWorld_init _) (hr.tail hw')
  exact (writerReleased_step hi hrel hw').1 hrel' (by decide)

/-! ## The read server -/

/-- `self_lock[k]` is the number of connections that were shown record `k` and have not left, and
the process holds the lock on the record exactly when there are any. -/
def ReaderExact (build : P → Build) (w : World P) : Prop :=
  ∀ p, build p = .reader → (w.server p).alive = true → ∀ k,
    (w.server p).selfLock k = ((w.server p).shown .reader k).card ∧
    (w.kernel.locks k p = rdlck ↔ 0 < ((w.server p).shown .reader k).card)

/-- On a connection of a read server that was shown a record, `read` returns 0 or a line other
than `Exit`. -/
def ReaderLeaves (build : P → Build) (w : World P) : Event P → Prop
  | .accept _ _ => False
  | .recv p fd r => build p = .reader ∧ ((w.server p).requestP fd).done = true ∧ Lost .reader r

instance (e : Event P) : Decidable (ReaderLeaves build w e) := by
  cases e <;> unfold ReaderLeaves <;> infer_instance

theorem losesAt_reader {e : Event P} : LosesAt build .reader w e ↔ ReaderLeaves build w e := by
  cases e <;> rfl

theorem readerExact_iff_exact (hi : Inv build w) :
    ReaderExact build w ↔ w.Exact build .reader := by
  refine forall_congr' fun p => forall_congr' fun hb => forall_congr' fun ha => ?_
  have hp := hi.alive p ha
  rw [hb] at hp
  refine forall_congr' fun k => ⟨fun h => h.1.symm, fun h => ⟨h.symm, ?_⟩⟩
  rw [hp.held k]
  by_cases hpos : 0 < (w.server p).selfLock k
  · simp only [if_pos hpos, Build.lockType, true_iff]
    omega
  · simp only [if_neg hpos, reduceCtorEq, false_iff]
    omega

theorem readerExact_step {e : Event P} (hi : Inv build w) (hr : ReaderExact build w)
    (h : w.step build e = some w') : ReaderExact build w' ↔ ¬ ReaderLeaves build w e := by
  rw [readerExact_iff_exact (hi.step h), ← losesAt_reader]
  exact exact_step hi ((readerExact_iff_exact hi).1 hr) h

/-- The counter of a read server is exact, unless a client that was shown a record leaves by
hanging up or with a line other than `Exit`. -/
theorem reader_exact_iff {w0 : World P} {tr : List (World P × Event P)} (h0 : w0.Init)
    (h : Run (World.step build) w0 tr w) :
    Always (ReaderExact build) tr w ↔ Meets (fun w e => ¬ ReaderLeaves build w e) tr :=
  h.forall_iff (J := Inv build) (fun _ _ _ hi hs => hi.step hs)
    (fun _ _ _ hi hr hs => readerExact_step hi hr hs) h0.inv
    ((readerExact_iff_exact h0.inv).2 h0.exact)

theorem reader_exact_iff_exit :
    Always (ReaderExact fun _ => .reader)
      (traceOf (World.step fun _ => .reader) (freshWorld (Fin 1))
        (visit 0 5 ++ [.recv 0 5 (.data "Exit\r\n".toList)]))
      ((runEvents (World.step fun _ => .reader) (freshWorld (Fin 1))
        (visit 0 5 ++ [.recv 0 5 (.data "Exit\r\n".toList)])).getD (freshWorld (Fin 1))) :=
  (reader_exact_iff (freshWorld_init _) (run_traceOf rfl)).2 (by decide)

/-- After the hang-up the counter of the first record stays at 1. -/
theorem reader_hangUp_keeps_count :
    ¬ ∀ w0 w : World (Fin 1), w0.Init → Reachable (World.step fun _ => .reader) w0 w →
      ReaderExact (fun _ => .reader) w := by
  intro hall
  have hr := visited_reachable .reader
  have hi := reachable_inv (freshWorld_init _) hr
  obtain ⟨w', hw'⟩ : ∃ w', (visited .reader).step (fun _ => .reader) (.recv 0 5 (.data [])) = some w' :=
    Option.isSome_iff_exists.1 (by decide)
  have hrel := hall _ _ (freshWorld_init _) hr
  have hrel' := hall _ _ (freshWorld_init _) (hr.tail hw')
  exact (readerExact_step hi hrel hw').1 hrel' (by decide)

end

end SysProg.Booking
