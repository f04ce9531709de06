import SysProg.Runs
import SysProg.Booking.Server
import Mathlib.Data.Finset.Card
import Mathlib.Data.Finset.Range

/-!
# SysProg.Booking.World

Any number of booking servers on one record file. `build p` says which build process `p` runs.

* `World.step`: a call of `handle_read` together with what `main` does with its result is one
  atomic step. A connection is accepted on any descriptor that is free.
* `Inter.step`: the same servers with every system call of `handle_read` a step of its own, in any
  order between the processes.
* `WriteSession`, `ReadSession`: an id was accepted on the connection and its record shown; the
  command (for a reader: the line that ends the session) has not come yet.
-/

namespace SysProg.Booking

structure Server where
  alive : Bool
  selfLock : SelfLock
  requestP : Nat → Request
  sent : Sent

structure World (P : Type) where
  kernel : Kernel P
  server : P → Server

inductive Event (P : Type) where
  | accept (p : P) (fd : Nat)
  /-- `read` on the connection in slot `fd` of process `p` returns `r`. -/
  | recv (p : P) (fd : Nat) (r : ReadResult)

section

variable {P : Type} [DecidableEq P]

/-- The slot is free: a descriptor `accept` may return. -/
def Server.canAccept (sv : Server) (fd : Nat) : Bool :=
  sv.alive && decide (listenFd < fd) && decide (fd < MAXFD) && decide ((sv.requestP fd).connFd = -1)

/-- The loop of `main` serves the slot. -/
def Server.canServe (sv : Server) (fd : Nat) : Bool :=
  sv.alive && decide (listenFd < fd) && decide (fd < MAXFD) && decide ((sv.requestP fd).connFd ≠ -1)

def Server.accept (b : Build) (fd : Nat) (sv : Server) : Server :=
  { sv with
    requestP := fun j => if j = fd then acceptRequest b fd (sv.requestP fd) else sv.requestP j
    sent := sv.sent ++ send fd promptMsg }

/-- What `main` does with the outcome of `handle_read`. -/
def Server.finish (b : Build) (fd : Nat) (sv : Server) : Outcome → Server
  | .exit => { sv with alive := false }
  | .ret val reqP selfLock =>
    let (reqP', sent') := afterRead b val reqP
    { sv with
      selfLock := selfLock
      requestP := fun j => if j = fd then reqP' else sv.requestP j
      sent := sv.sent ++ sent' }

/-- The kernel drops the locks of a process that exits. -/
def Kernel.finish (p : P) (s : Kernel P) : Outcome → Kernel P
  | .exit => { s with locks := s.locks.dropAll p }
  | .ret _ _ _ => s

def World.setServer (w : World P) (p : P) (sv : Server) : World P :=
  { w with server := fun q => if q = p then sv else w.server q }

variable [Fintype P]

/-- The call of `handle_read` the event leads to: its outcome and the kernel after it. -/
def World.handle (build : P → Build) (w : World P) (p : P) (fd : Nat) (r : ReadResult) :
    Outcome × Kernel P :=
  (handleRead (build p) r ((w.server p).requestP fd) (w.server p).selfLock).exec p w.kernel

def World.step (build : P → Build) (w : World P) : Event P → Option (World P)
  | .accept p fd =>
    if (w.server p).canAccept fd then
      some (w.setServer p ((w.server p).accept (build p) fd))
    else none
  | .recv p fd r =>
    if (w.server p).canServe fd then
      let (out, s) := w.handle build p fd r
      some ({ w with kernel := s.finish p out }.setServer p ((w.server p).finish (build p) fd out))
    else none

end

/-- A process that has just run `init_server`. What `malloc` leaves in `buf` and `wait_for_write`
is arbitrary. -/
structure Server.Fresh (sv : Server) : Prop where
  alive : sv.alive = true
  selfLock : ∀ k, sv.selfLock k = 0
  connFd : ∀ fd, (sv.requestP fd).connFd = -1
  id : ∀ fd, (sv.requestP fd).id = 0
  sent : sv.sent = []

structure World.Init {P : Type} (w : World P) : Prop where
  fresh : ∀ p, (w.server p).Fresh
  locks : ∀ k p, w.kernel.locks k p = .unlck

/-! ## Sessions -/

/-- For an open connection: the id was accepted. -/
def InSession (b : Build) (reqP : Request) : Bool :=
  match b with
  | .writer => !reqP.waitForWrite
  | .reader => reqP.done

/-- The connection in slot `fd` has a session on record `k`. -/
def Server.Session (b : Build) (sv : Server) (fd : Nat) (k : CInt) : Prop :=
  sv.alive = true ∧ (sv.requestP fd).connFd ≠ -1 ∧ InSession b (sv.requestP fd) = true ∧
    (sv.requestP fd).id = HEAD + k

instance (b : Build) (sv : Server) (fd : Nat) (k : CInt) : Decidable (sv.Session b fd k) :=
  inferInstanceAs (Decidable (_ ∧ _ ∧ _ ∧ _))

def WriteSession {P : Type} (build : P → Build) (w : World P) (p : P) (fd : Nat) (k : CInt) : Prop :=
  build p = .writer ∧ (w.server p).Session .writer fd k

def ReadSession {P : Type} (build : P → Build) (w : World P) (p : P) (fd : Nat) (k : CInt) : Prop :=
  build p = .reader ∧ (w.server p).Session .reader fd k

/-! ## System call by system call -/

/-- A world in which a process may be inside `handle_read` for one of its slots. -/
structure Inter (P : Type) extends World P where
  running : P → Option (Nat × Sys Outcome)

inductive InterEvent (P : Type) where
  | accept (p : P) (fd : Nat)
  /-- `read` on the connection returns `r`; `handle_read` starts. -/
  | recv (p : P) (fd : Nat) (r : ReadResult)
  /-- The next system call of `handle_read`; after the last one, `main` handles the result. -/
  | call (p : P)

def Event.process {P : Type} : Event P → P
  | .accept p _ => p
  | .recv p _ _ => p

def InterEvent.process {P : Type} : InterEvent P → P
  | .accept p _ => p
  | .recv p _ _ => p
  | .call p => p

/-- The event of `World.step` that this one is the start of. -/
def InterEvent.event {P : Type} : InterEvent P → Option (Event P)
  | .accept p fd => some (.accept p fd)
  | .recv p fd r => some (.recv p fd r)
  | .call _ => none

/-- The connections accepted and the calls of `handle_read` started along a trace. -/
def starts {P σ : Type} (tr : List (σ × InterEvent P)) : List (Event P) :=
  tr.filterMap fun x => x.2.event

section

variable {P : Type} [DecidableEq P] [Fintype P]

def Inter.setRunning (w : Inter P) (p : P) (run : Option (Nat × Sys Outcome)) : Inter P :=
  { w with running := fun q => if q = p then run else w.running q }

def Inter.step (build : P → Build) (w : Inter P) : InterEvent P → Option (Inter P)
  | .accept p fd =>
    match w.running p with
    | none =>
      if (w.server p).canAccept fd then
        some { w with toWorld := w.toWorld.setServer p ((w.server p).accept (build p) fd) }
      else none
    | some _ => none
  | .recv p fd r =>
    match w.running p with
    | none =>
      if (w.server p).canServe fd then
        some (w.setRunning p
          (some (fd, handleRead (build p) r ((w.server p).requestP fd) (w.server p).selfLock)))
      else none
    | some _ => none
  | .call p =>
    match w.running p with
    | none => none
    | some (fd, .done out) =>
      some ({ w with
        toWorld := { w.toWorld with kernel := w.kernel.finish p out }.setServer p
          ((w.server p).finish (build p) fd out) }.setRunning p none)
    | some (fd, prog) =>
      let (prog', s) := prog.step p w.kernel
      some ({ w with kernel := s }.setRunning p (some (fd, prog')))

end

end SysProg.Booking
