import SysProg.Runs
import SysProg.ArrayQueue

/-!
# SysProg.Threads.Scheduler

The thread scheduler (`HW3/scheduler.c` and the queue macros of `HW3/threadtools.h`).

* A `Ptr` is the address of a `struct tcb`; `live p` holds from its `malloc` to its `free`.
* The two queues are arrays of `bound` entries. Every access checks its index against `bound` and
  every dereference that the `tcb` is live; if a check fails, the mode becomes `fault`.
* `enter` is one entry of `scheduler` through `longjmp(sched_buf, type)`, up to the `longjmp` to the
  next thread, the `return`, or the first round of the loop that polls until a thread is ready.
  `pollAgain` is one round of that loop.
* `polls i` is the answer of the `i`-th `poll` of a pass over the waiting queue.
-/

namespace SysProg.Threads

abbrev Ptr := Nat

def THREAD_MAX : Nat := 16

inductive Entry where
  | yield
  | read
  | exit
  deriving DecidableEq

inductive Mode where
  /-- A thread was resumed. -/
  | running
  /-- In the loop `while (rq_size == 0)`. -/
  | polling
  /-- `scheduler` has returned. -/
  | returned
  | fault
  deriving DecidableEq

structure Sched where
  readyQueue : Nat → Ptr
  waitingQueue : Nat → Ptr
  rqSize : Nat
  rqCurrent : Nat
  wqSize : Nat
  live : Ptr → Bool
  mode : Mode

namespace Sched

/-- `RUNNING`. -/
def running (s : Sched) : Ptr := s.readyQueue s.rqCurrent

def ready (s : Sched) : List Ptr := entries s.readyQueue s.rqSize

def waiting (s : Sched) : List Ptr := entries s.waitingQueue s.wqSize

def readyAt (bound : Nat) (s : Sched) (i : Nat) : Option Ptr :=
  if i < bound then some (s.readyQueue i) else none

def waitingAt (bound : Nat) (s : Sched) (i : Nat) : Option Ptr :=
  if i < bound then some (s.waitingQueue i) else none

def setReady (bound : Nat) (s : Sched) (i : Nat) (p : Ptr) : Option Sched :=
  if i < bound then some { s with readyQueue := upd s.readyQueue i p } else none

def setWaiting (bound : Nat) (s : Sched) (i : Nat) (p : Ptr) : Option Sched :=
  if i < bound then some { s with waitingQueue := upd s.waitingQueue i p } else none

/-! ## The start -/

/-- The queue part of `thread_setup`; `p` is the result of `malloc`. -/
def threadSetup (bound : Nat) (s : Sched) (p : Ptr) : Option Sched :=
  (s.setReady bound s.rqSize p).map fun s =>
    { s with rqSize := s.rqSize + 1, live := upd s.live p true }

/-- The global variables before any thread is created. -/
def empty : Sched where
  readyQueue _ := 0
  waitingQueue _ := 0
  rqSize := 0
  rqCurrent := 0
  wqSize := 0
  live _ := false
  mode := .returned

/-- `longjmp(RUNNING->environment, 4)`. -/
def jump (bound : Nat) (s : Sched) : Option Sched :=
  (s.readyAt bound s.rqCurrent).bind fun p =>
    if s.live p then some { s with mode := .running } else none

def orFault (s : Sched) : Option Sched → Sched
  | some s' => s'
  | none => { s with mode := .fault }

/-- The threads `ps` are set up, and `scheduler` is called for the first time. -/
def start (bound : Nat) (ps : List Ptr) : Sched :=
  empty.orFault ((ps.foldlM (threadSetup bound) empty).bind (jump bound))

/-! ## An entry -/

/-- The `for` loop that polls the waiting queue, with `k` entries left from index `i` on. -/
def sweepLoop (bound : Nat) (polls : Nat → Bool) : Nat → Nat → Nat → Sched → Option (Sched × Nat)
  | 0, _, newWqSize, s => some (s, newWqSize)
  | k + 1, i, newWqSize, s =>
    (s.waitingAt bound i).bind fun p =>
      if s.live p then
        if polls i then
          (s.setReady bound s.rqSize p).bind fun s =>
            sweepLoop bound polls k (i + 1) newWqSize { s with rqSize := s.rqSize + 1 }
        else
          (s.setWaiting bound newWqSize p).bind fun s =>
            sweepLoop bound polls k (i + 1) (newWqSize + 1) s
      else none

def sweep (bound : Nat) (polls : Nat → Bool) (s : Sched) : Option Sched :=
  (sweepLoop bound polls s.wqSize 0 0 s).map fun r => { r.1 with wqSize := r.2 }

/-- `ready_queue[rq_current] = ready_queue[rq_size - 1]; rq_size--;` -/
def removeRunning (bound : Nat) (s : Sched) : Option Sched :=
  match s.rqSize with
  | 0 => none
  | m + 1 =>
    (s.readyAt bound m).bind fun p =>
      (s.setReady bound s.rqCurrent p).map fun s => { s with rqSize := m }

def dispatch (bound : Nat) (type : Entry) (s : Sched) : Option Sched :=
  match type with
  | .yield => some { s with rqCurrent := s.rqCurrent + 1 }
  | .read =>
    (s.readyAt bound s.rqCurrent).bind fun p =>
      (s.setWaiting bound s.wqSize p).bind fun s =>
        removeRunning bound { s with wqSize := s.wqSize + 1 }
  | .exit =>
    (s.readyAt bound s.rqCurrent).bind fun p =>
      if s.live p then removeRunning bound { s with live := upd s.live p false } else none

def resume (bound : Nat) (s : Sched) : Option Sched :=
  jump bound (if s.rqCurrent = s.rqSize then { s with rqCurrent := 0 } else s)

def settle (bound : Nat) (s : Sched) : Option Sched :=
  if s.rqSize = 0 then
    if s.wqSize = 0 then some { s with mode := .returned } else some { s with mode := .polling }
  else resume bound s

def enter (bound : Nat) (type : Entry) (polls : Nat → Bool) (s : Sched) : Option Sched :=
  (sweep bound polls s).bind fun s => (dispatch bound type s).bind (settle bound)

def pollAgain (bound : Nat) (polls : Nat → Bool) (s : Sched) : Option Sched :=
  (sweep bound polls s).bind fun s => if s.rqSize = 0 then some s else resume bound s

end Sched

inductive SchedEvent where
  /-- The running thread enters the scheduler. -/
  | enter (type : Entry) (polls : Nat → Bool)
  | poll (polls : Nat → Bool)

def Sched.step (bound : Nat) (s : Sched) : SchedEvent → Option Sched
  | .enter type polls =>
    if s.mode = .running then some (s.orFault (s.enter bound type polls)) else none
  | .poll polls =>
    if s.mode = .polling then some (s.orFault (s.pollAgain bound polls)) else none

end SysProg.Threads
