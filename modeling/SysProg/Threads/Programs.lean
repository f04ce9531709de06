import SysProg.CLib
import SysProg.Threads.Scheduler

/-!
# SysProg.Threads.Programs

The thread functions (`HW3/threads.c`) on top of the scheduler.

* A thread runs from one point where it can be left to the next (`Code.run`): the end of
  `thread_setup`, the call of `thread_yield`, the `read` of `async_read`. In between it reads and
  writes only the `tcb` that `RUNNING` points to, its FIFO and the output.
* `Env` is what `setjmp` saves: the place in the code, and `owner`, the thread whose activation it
  is. A thread never names itself: it writes to `RUNNING`, whoever that is.
* `World.step`: the running thread goes on to its next point and, if it leaves, through one entry of
  the scheduler; a round of the polling loop; or the arrival of an item in a FIFO. `poll` reports a
  FIFO only if it holds an item.
* A FIFO holds items of 5 bytes. Every thread has one of its own, and its descriptor is the thread.
* What `malloc` leaves in `i` and `buf` is arbitrary. The calls of `sleep`, `close` and `unlink` are
  left out.
-/

namespace SysProg.Threads

/-- A place in a thread function where `setjmp` was called. -/
inductive Code where
  | fibonacciStart
  | fibonacciYield
  | collatzStart
  | collatzYield
  | subarrayStart
  | subarrayRead
  | subarrayYield
  deriving DecidableEq

inductive Func where
  | fibonacci
  | collatz
  | maxSubarray
  deriving DecidableEq

def Func.start : Func → Code
  | .fibonacci => .fibonacciStart
  | .collatz => .collatzStart
  | .maxSubarray => .subarrayStart

structure Env where
  code : Code
  owner : Ptr

/-- The fields of `struct tcb` that the thread functions use. -/
structure Vars where
  id : CInt
  arg : CInt
  fd : Nat
  buf : Text
  i : CInt
  x : CInt
  y : CInt

structure Tcb extends Vars where
  environment : Env

abbrev Item := { bytes : Text // bytes.length = 5 }

/-- Where a thread leaves: at `thread_yield`, at `async_read`, at `thread_exit`, or by falling off
the end of its function. -/
inductive Stop where
  | yield (code : Code)
  | read (code : Code)
  | exit
  | fell

structure Segment where
  vars : Vars
  fifo : List Item
  line : Option Text
  stop : Stop

/-! ## The thread functions -/

/-- `printf("%d %d\n", RUNNING->id, v)`. -/
def printed (id v : CInt) : Text := decimal id ++ [' '] ++ decimal v ++ ['\n']

/-- The body of the loop of `fibonacci`. -/
def fibonacciBody (t : Vars) (fifo : List Item) : Segment :=
  let t := if t.i.toInt ≤ 2 then { t with x := 1, y := 1 } else { t with x := t.y, y := t.x + t.y }
  { vars := t
    fifo := fifo
    line := some (printed t.id t.y)
    stop := if t.i = t.arg then .exit else .yield .fibonacciYield }

/-- The loop of `collatz`, from its test on. -/
def collatzLoop (t : Vars) (fifo : List Item) : Segment :=
  if t.arg ≠ 1 then
    let t := { t with arg := if t.arg.srem 2 = 0 then t.arg.sdiv 2 else t.arg * 3 + 1 }
    { vars := t
      fifo := fifo
      line := some (printed t.id t.arg)
      stop := if t.arg = 1 then .exit else .yield .collatzYield }
  else { vars := t, fifo := fifo, line := none, stop := .fell }

def cmax (a b : CInt) : CInt := if b.toInt < a.toInt then a else b

/-- `read(RUNNING->fd, RUNNING->buf, 5)`, which leaves `buf` alone when the FIFO is empty. -/
def readItem (t : Vars) (fifo : List Item) : Vars × List Item :=
  match fifo with
  | [] => (t, [])
  | item :: rest => ({ t with buf := item.val ++ t.buf.drop 5 }, rest)

/-- The loop of `max_subarray`, from the return of `async_read` on. -/
def maxSubarrayBody (t : Vars) (fifo : List Item) : Segment :=
  let r := readItem t fifo
  let t := { r.1 with buf := r.1.buf.set 4 '\x00' }
  let val := atoi (cstr t.buf)
  let t := { t with x := cmax val (t.x + val) }
  let t := { t with y := cmax t.y t.x }
  { vars := t
    fifo := r.2
    line := some (printed t.id t.y)
    stop := if t.i = t.arg then .exit else .yield .subarrayYield }

def Code.run (code : Code) (t : Vars) (fifo : List Item) : Segment :=
  match code with
  | .fibonacciStart => fibonacciBody { t with i := 1 } fifo
  | .fibonacciYield => fibonacciBody { t with i := t.i + 1 } fifo
  | .collatzStart => collatzLoop t fifo
  | .collatzYield => collatzLoop t fifo
  | .subarrayStart => ⟨{ t with i := 1 }, fifo, none, .read .subarrayRead⟩
  | .subarrayRead => maxSubarrayBody t fifo
  | .subarrayYield => ⟨{ t with i := t.i + 1 }, fifo, none, .read .subarrayRead⟩

/-! ## The process -/

structure World where
  sched : Sched
  tcb : Ptr → Tcb
  /-- The code that is being executed. -/
  current : Env
  fifo : Nat → List Item
  /-- What was printed, with the thread that printed it, or `none` for the signal handler. -/
  out : List (Option Ptr × Text)

/-- The signals that are pending when a thread calls `thread_yield`. -/
structure Pending where
  tstp : Bool
  alrm : Bool

/-- What the handler prints before it jumps to the scheduler. `thread_yield` lets `SIGTSTP` in
first. -/
def Pending.caught (pending : Pending) : Option Text :=
  if pending.tstp then some "caught SIGTSTP\n".toList
  else if pending.alrm then some "caught SIGALRM\n".toList
  else none

inductive WorldEvent where
  /-- The running thread goes on to the next point where it can be left. -/
  | run (pending : Pending) (polls : Nat → Bool)
  | poll (polls : Nat → Bool)
  | arrive (fd : Nat) (item : Item)

namespace World

def segment (w : World) : Segment :=
  w.current.code.run (w.tcb w.sched.running).toVars (w.fifo (w.tcb w.sched.running).fd)

/-- After the segment; `env` is what `RUNNING->environment` holds then. -/
def finish (w : World) (env : Env) : World :=
  { w with
    tcb := upd w.tcb w.sched.running { toVars := w.segment.vars, environment := env }
    fifo := upd w.fifo (w.tcb w.sched.running).fd w.segment.fifo
    out := w.out ++ (w.segment.line.map fun text => (some w.current.owner, text)).toList }

/-- `poll` reports only a FIFO that holds an item. -/
def pollsOk (w : World) (polls : Nat → Bool) : Bool :=
  (List.range w.sched.wqSize).all fun i =>
    !polls i || !(w.fifo (w.tcb (w.sched.waitingQueue i)).fd).isEmpty

/-- The scheduler has done its work; if it jumps to a thread, that thread's code goes on. -/
def switch (w : World) (s : Sched) : World :=
  { w with
    sched := s
    current := if s.mode = .running then (w.tcb s.running).environment else w.current }

def schedule (bound : Nat) (w : World) (e : SchedEvent) (polls : Nat → Bool) : Option World :=
  if w.pollsOk polls then (w.sched.step bound e).map w.switch else none

def step (bound : Nat) (w : World) : WorldEvent → Option World
  | .run pending polls =>
    if w.sched.mode = .running then
      match w.segment.stop with
      | .yield code =>
        let w' := w.finish ⟨code, w.current.owner⟩
        match pending.caught with
        | none => some { w' with current := ⟨code, w.current.owner⟩ }
        | some text =>
          { w' with out := w'.out ++ [(none, text)] }.schedule bound (.enter .yield polls) polls
      | .read code =>
        (w.finish ⟨code, w.current.owner⟩).schedule bound (.enter .read polls) polls
      | .exit =>
        (w.finish (w.tcb w.sched.running).environment).schedule bound (.enter .exit polls) polls
      | .fell =>
        let w' := w.finish (w.tcb w.sched.running).environment
        some { w' with sched := { w'.sched with mode := .fault } }
    else none
  | .poll polls => w.schedule bound (.poll polls) polls
  | .arrive fd item => some { w with fifo := upd w.fifo fd (w.fifo fd ++ [item]) }

end World

/-! ## The start -/

/-- A thread to be created. `i` and `buf` are what `malloc` leaves there. -/
structure Thread where
  ptr : Ptr
  func : Func
  id : CInt
  arg : CInt
  i : CInt
  buf : Text

/-- The `tcb` after `thread_setup`. -/
def Thread.setup (th : Thread) : Tcb where
  id := th.id
  arg := th.arg
  fd := th.ptr
  buf := th.buf
  i := th.i
  x := 0
  y := 0
  environment := ⟨th.func.start, th.ptr⟩

/-- The heap after `thread_setup` of all threads, one after the other. -/
def setupAll (heap : Ptr → Tcb) (ths : List Thread) : Ptr → Tcb :=
  ths.foldl (fun heap th => upd heap th.ptr th.setup) heap

/-- The state in which the first thread is about to run; `heap` is the memory before. -/
def World.start (bound : Nat) (heap : Ptr → Tcb) (ths : List Thread) : World :=
  let s := Sched.start bound (ths.map (·.ptr))
  { sched := s
    tcb := setupAll heap ths
    current := (setupAll heap ths s.running).environment
    fifo := fun _ => []
    out := [] }

end SysProg.Threads
