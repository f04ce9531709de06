import SysProg.Booking.Isolation

/-!
# SysProg.Booking.Pipes

Writes to clients that are gone. `server.c` leaves SIGPIPE at its default, so such a write may end the
process, after `handle_read` has come back and between two writes of one answer.

* `World.kill`: the process ends, and the kernel drops its locks; `World.cutShort`: between two writes.
* `Attempt`: an event, and which of the writes it leads to raises the signal, if one does.
* `World.attempt`: the step of the event up to there. A write that fails without the signal is like one
  that succeeds, since nobody looks at the result.
* `Inv.kill`, `Shows.kill`: the end of a process leaves the others as they are.
* `reachable_attempt`: so the invariants hold in every run.
-/

set_option linter.unusedSectionVars false

namespace SysProg.Booking

open LockType

section

variable {P : Type} [DecidableEq P]

/-- Process `p` ends, having written `sent`. -/
def World.kill (w : World P) (p : P) (sent : Sent) : World P :=
  { w with kernel := w.kernel.finish p .exit }.setServer p { w.server p with alive := false, sent := sent }

/-- From `w` to `w'`, but process `p` has ended after `n` of its writes. -/
def World.cutShort (w w' : World P) (p : P) (n : Nat) : World P :=
  w'.kill p ((w'.server p).sent.take ((w.server p).sent.length + n))

structure Attempt (P : Type) where
  event : Event P
  /-- How many writes of the step come before the one that raises SIGPIPE. -/
  broken : Option Nat

variable [Fintype P]

def World.attempt (build : P → Build) (w : World P) (a : Attempt P) : Option (World P) :=
  (w.step build a.event).bind fun w' =>
    match a.broken with
    | none => some w'
    | some n =>
      let p := a.event.process
      if (w.server p).sent.length + n < (w'.server p).sent.length then
        some (w.cutShort w' p n)
      else none

variable {build : P → Build} {w w' : World P} {p q : P} {sent : Sent} {a : Attempt P} {e : Event P}

/-! ## The end of a process -/

@[simp] theorem kill_file : (w.kill p sent).kernel.file = w.kernel.file := rfl

theorem kill_self : (w.kill p sent).server p = { w.server p with alive := false, sent := sent } :=
  setServer_self

theorem kill_of_ne (h : q ≠ p) : (w.kill p sent).server q = w.server q := setServer_of_ne h

theorem kill_alive (h : ((w.kill p sent).server q).alive = true) :
    q ≠ p ∧ (w.kill p sent).server q = w.server q := by
  have hq : q ≠ p := by
    rintro rfl
    rw [kill_self] at h
    cases h
  exact ⟨hq, kill_of_ne hq⟩

theorem kill_request (fd : Nat) : ((w.kill p sent).server q).requestP fd = (w.server q).requestP fd := by
  by_cases h : q = p
  · subst h
    rw [kill_self]
  · rw [kill_of_ne h]

theorem kill_locks_of_ne (h : q ≠ p) (k : CInt) :
    (w.kill p sent).kernel.locks k q = w.kernel.locks k q := LockTable.dropAll_of_ne h

theorem Inv.kill (hi : Inv build w) (p : P) (sent : Sent) : Inv build (w.kill p sent) where
  compatible := LockTable.dropAll_compatible hi.compatible
  dead q k hd := by
    by_cases h : q = p
    · subst h
      exact LockTable.dropAll_self
    · rw [kill_of_ne h] at hd
      rw [kill_locks_of_ne h]
      exact hi.dead q k hd
  alive q ha := by
    obtain ⟨h, hsv⟩ := kill_alive ha
    have hrow : (fun k => (w.kill p sent).kernel.locks k q) = fun k => w.kernel.locks k q :=
      funext (kill_locks_of_ne h)
    rw [hsv] at ha ⊢
    rw [hrow]
    exact hi.alive q ha

theorem Shows.kill (hs : Shows build w) (p : P) (sent : Sent) : Shows build (w.kill p sent) where
  conn q fd := by
    rw [kill_request]
    exact hs.conn q fd
  shown q fd k hw := by
    have hsv := (kill_alive hw.2.1).2
    rw [WriteSession, hsv] at hw
    rw [hsv]
    exact hs.shown q fd k hw

/-! ## One step -/

theorem attempt_none : w.attempt build ⟨e, none⟩ = w.step build e := by
  rw [World.attempt]
  exact Option.bind_fun_some _

/-- The step is the one of the event, unless a write ends the process. -/
theorem attempt_cases (h : w.attempt build a = some w') :
    (a.broken = none ∧ w.step build a.event = some w') ∨
      ∃ n w1, a.broken = some n ∧ w.step build a.event = some w1 ∧
        (w.server a.event.process).sent.length + n < (w1.server a.event.process).sent.length ∧
        w' = w.cutShort w1 a.event.process n := by
  obtain ⟨w1, hs, hw'⟩ := Option.bind_eq_some_iff.1 h
  cases hb : a.broken with
  | none =>
    rw [hb] at hw'
    cases hw'
    exact .inl ⟨rfl, hs⟩
  | some n =>
    simp only [hb] at hw'
    split at hw'
    · rename_i hlt
      cases hw'
      exact .inr ⟨n, w1, rfl, hs, hlt, rfl⟩
    · cases hw'

/-- SIGPIPE ends the process of the step. -/
theorem attempt_broken (h : w.attempt build a = some w') (hb : a.broken ≠ none) :
    (w'.server a.event.process).alive = false := by
  rcases attempt_cases h with ⟨hn, -⟩ | ⟨n, w1, -, -, -, rfl⟩
  · exact absurd hn hb
  · rw [World.cutShort, kill_self]

/-! ## Runs -/

theorem reachable_attempt {w0 : World P} (h0 : w0.Init) (h : Reachable (World.attempt build) w0 w) :
    Inv build w ∧ Shows build w := by
  refine h.invariant (I := fun w => Inv build w ∧ Shows build w) ?_ ⟨h0.inv, h0.shows⟩
  rintro w a w' ⟨hi, hs⟩ hw'
  rcases attempt_cases hw' with ⟨-, hw'⟩ | ⟨n, w1, -, hw1, -, rfl⟩
  · exact ⟨hi.step hw', shows_step hi hs hw'⟩
  · exact ⟨(hi.step hw1).kill _ _, (shows_step hi hs hw1).kill _ _⟩

/-- As long as all clients are there, the servers do what they do without the signal. -/
theorem attempt_of_reachable {w0 : World P} (h : Reachable (World.step build) w0 w) :
    Reachable (World.attempt build) w0 w := by
  refine h.invariant (I := Reachable (World.attempt build) w0) (fun w e w' hr hw' => ?_) .refl
  exact hr.tail (e := ⟨e, none⟩) (attempt_none.trans hw')

end

end SysProg.Booking
