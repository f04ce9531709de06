import SysProg.CLib
import SysProg.RecordLock
import Mathlib.Data.Fin.VecNotation

/-!
# SysProg.Booking.Server

The booking server (`HW1/server.c`), in its two builds. `handleRead` reads one chunk from a client
and works on the record file; `afterRead` is what `main` does with its result.

`handleRead` is a program over the system calls it makes on the record file (`Sys`): `F_GETLK` and
`F_SETLK` on a record, and `read` and `write` of a record after `lseek`. So it can be run in one
go (`Sys.exec`) or call by call between those of other processes (`Sys.step`).

* An index `id - HEAD` is the 32-bit difference, as the code computes it.
* `selfLock` is an `Int` for each record, and never more than the number of steps taken: as long as a run
  has less than 2^31, the `int` of the code is the same.
* `connFd` is `-1` for a free slot. `done` and `waitForWrite` are the flags `== 1`.
* The fields `host` and `buf_len`, which nothing reads back, and the messages on `stdout` and
  `stderr` are left out.
-/

namespace SysProg.Booking

/-- Which of `READ_SERVER` and `WRITE_SERVER` is defined. -/
inductive Build where
  | reader
  | writer
  deriving DecidableEq

def HEAD : CInt := 902001

def MAXFD : Nat := 1024

/-- The descriptors below are `stdin`, `stdout`, `stderr` and the record file. -/
def listenFd : Nat := 4

def IAC_IP : Text := ['\xff', '\xf4']

-- The numerals of `Fin n`, for the numbers of items and of processes below.
scoped instance neZero_one : NeZero 1 := ⟨by decide⟩
scoped instance neZero_two : NeZero 2 := ⟨by decide⟩
scoped instance neZero_three : NeZero 3 := ⟨by decide⟩

structure Record where
  id : CInt
  bookingState : Fin 3 → CInt

structure Request where
  connFd : Int
  buf : Text
  id : CInt
  done : Bool
  waitForWrite : Bool

/-- The result of `read` on a connection: `-1`, or the bytes read (none: end of file). -/
inductive ReadResult where
  | error
  | data (bytes : Text)
  deriving DecidableEq

abbrev SelfLock := CInt → Int

/-- What `handleRead` ends with: its return value, the request and the table `self_lock`; or the
exit of the process (`ERR_EXIT`). -/
inductive Outcome where
  | ret (val : Int) (reqP : Request) (selfLock : SelfLock)
  | exit

/-! ## Programs over the system calls -/

inductive Sys (α : Type) where
  | done (a : α)
  | getlk (k : CInt) (type : LockType) (cont : LockType → Sys α)
  | setlk (k : CInt) (type : LockType) (cont : Sys α)
  | readRec (k : CInt) (cont : Record → Sys α)
  | writeRec (k : CInt) (r : Record) (cont : Sys α)

/-- What the kernel keeps: the record file by record index, and the locks on it. -/
structure Kernel (P : Type) where
  file : CInt → Record
  locks : LockTable P CInt

section Kernel

variable {P α : Type} [DecidableEq P] [Fintype P]

/-- Executes the first system call of the program for process `p`. -/
def Sys.step (p : P) : Sys α → Kernel P → Sys α × Kernel P
  | .done a, s => (.done a, s)
  | .getlk k type cont, s => (cont (s.locks.getlk p k type), s)
  | .setlk k type cont, s => (cont, { s with locks := s.locks.setlk p k type })
  | .readRec k cont, s => (cont (s.file k), s)
  | .writeRec k r cont, s => (cont, { s with file := fun k' => if k' = k then r else s.file k' })

/-- Executes the whole program for process `p`. -/
def Sys.exec (p : P) : Sys α → Kernel P → α × Kernel P
  | .done a, s => (a, s)
  | .getlk k type cont, s => (cont (s.locks.getlk p k type)).exec p s
  | .setlk k type cont, s => cont.exec p { s with locks := s.locks.setlk p k type }
  | .readRec k cont, s => (cont (s.file k)).exec p s
  | .writeRec k r cont, s =>
    cont.exec p { s with file := fun k' => if k' = k then r else s.file k' }

end Kernel

/-! ## The requests -/

def initRequest (reqP : Request) : Request := { reqP with connFd := -1, id := 0, done := false }

def freeRequest (reqP : Request) : Request := initRequest reqP

/-! ## myatoi -/

/-- The loop of `myatoi` on the rest of the line; `nums` holds the `idx` numbers stored so far.
`none` is the return value 0. -/
def myatoiLoop : Text → CInt → CInt → List CInt → Option (List CInt)
  | [], _, _, _ => none
  | c :: cs, niga, sum, nums =>
    if c.isAlpha then none
    else if c = '-' then
      if sum ≠ 0 then none else myatoiLoop cs (-1) sum nums
    else if c.isDigit then myatoiLoop cs niga (sum * 10 + BitVec.ofNat 32 (digitVal c)) nums
    else if nums.length + 1 ≥ 3 then some (nums ++ [sum * niga])
    else myatoiLoop cs 1 0 (nums ++ [sum * niga])

def myatoi (buf : Text) : Option (Fin 3 → CInt) :=
  (myatoiLoop buf 1 0 []).map fun nums i => nums.getD i 0

/-! ## The locks -/

def updLock (selfLock : SelfLock) (k : CInt) (v : Int) : SelfLock :=
  fun k' => if k' = k then v else selfLock k'

def mylockFunction {α : Type} (b : Build) (reqP : Request) (selfLock : SelfLock) (type : LockType)
    (cont : SelfLock → Sys α) : Sys α :=
  let k := reqP.id - HEAD
  match b with
  | .writer => .setlk k type (cont (updLock selfLock k (if type = .unlck then 0 else 1)))
  | .reader =>
    match type with
    | .rdlck => .setlk k type (cont (updLock selfLock k (selfLock k + 1)))
    | .unlck =>
      if selfLock k - 1 = 0 then .setlk k type (cont (updLock selfLock k (selfLock k - 1)))
      else cont (updLock selfLock k (selfLock k - 1))
    | .wrlck => cont selfLock

def mylockCheck {α : Type} (reqP : Request) (type : LockType) (cont : LockType → Sys α) : Sys α :=
  .getlk (reqP.id - HEAD) type cont

/-! ## handle_read -/

/-- The test `offset >= 20 || offset < 0`. -/
def badOffset (offset : CInt) : Bool := decide (20 ≤ offset.toInt) || decide (offset.toInt < 0)

/-- The listing both servers send after an id; the update message ends one line earlier. -/
def bookings (b : Fin 3 → CInt) : Text :=
  "Food: ".toList ++ decimal (b 0) ++ " booked\nConcert: ".toList ++ decimal (b 1) ++
    " booked\nElectronics: ".toList ++ decimal (b 2) ++ " booked\n".toList

def listing (b : Fin 3 → CInt) : Text := bookings b ++ ['\n']

/-- `handle_read` of the read server, after a line was read. -/
def handleReader (buf : Text) (reqP : Request) (selfLock : SelfLock) : Sys Outcome :=
  if reqP.done then
    if buf.take 4 = ['E', 'x', 'i', 't'] then
      mylockFunction .reader reqP selfLock .unlck fun selfLock =>
        .done (.ret 1 { reqP with buf := ['E', 'x', 'i', 't'] } selfLock)
    else .done (.ret 0 reqP selfLock)
  else
    let reqP := { reqP with id := atoi buf }
    let offset := reqP.id - HEAD
    if badOffset offset then .done (.ret 0 reqP selfLock)
    else mylockCheck reqP .rdlck fun result =>
      if result = .wrlck then .done (.ret 4 reqP selfLock)
      else mylockFunction .reader reqP selfLock .rdlck fun selfLock =>
        .readRec offset fun temp =>
          .done (.ret 1 { reqP with buf := listing temp.bookingState } selfLock)

/-- `handle_read` of the write server, on the line with the id. -/
def handleWriterId (buf : Text) (reqP : Request) (selfLock : SelfLock) : Sys Outcome :=
  let reqP := { reqP with id := atoi buf }
  let offset := reqP.id - HEAD
  if badOffset offset then .done (.ret 0 reqP selfLock)
  else mylockCheck reqP .wrlck fun result =>
    if result ≠ .unlck ∨ selfLock offset = 1 then .done (.ret 4 reqP selfLock)
    else mylockFunction .writer reqP selfLock .wrlck fun selfLock =>
      .readRec offset fun temp =>
        .done (.ret 1 { reqP with buf := listing temp.bookingState } selfLock)

/-- The loop over the items that tests the running total against 15 after each. -/
def overLoop (b nums : Fin 3 → CInt) : List (Fin 3) → CInt → Bool
  | [], _ => false
  | i :: is, total =>
    let total := total + b i + nums i
    if 15 < total.toInt then true else overLoop b nums is total

def overLimit (b nums : Fin 3 → CInt) : Bool := overLoop b nums [0, 1, 2] 0

/-- The loop over the items that looks for a negative new count. -/
def underZero (b nums : Fin 3 → CInt) : Bool := [0, 1, 2].any fun i => decide ((b i + nums i).toInt < 0)

/-- `handle_read` of the write server, on the line with the booking command. -/
def handleWriterCommand (buf : Text) (reqP : Request) (selfLock : SelfLock) : Sys Outcome :=
  match myatoi buf with
  | none => mylockFunction .writer reqP selfLock .unlck fun selfLock => .done (.ret 0 reqP selfLock)
  | some nums =>
    let offset := reqP.id - HEAD
    .readRec offset fun temp =>
      if overLimit temp.bookingState nums then
        mylockFunction .writer reqP selfLock .unlck fun selfLock => .done (.ret 2 reqP selfLock)
      else if underZero temp.bookingState nums then
        mylockFunction .writer reqP selfLock .unlck fun selfLock => .done (.ret 3 reqP selfLock)
      else
        .writeRec offset { temp with bookingState := fun i => temp.bookingState i + nums i } <|
          .readRec offset fun temp =>
            mylockFunction .writer reqP selfLock .unlck fun selfLock =>
              .done (.ret 1 { reqP with buf := bookings temp.bookingState } selfLock)

/-- `handle_read` on the string in `buf`. -/
def handleLine (b : Build) (buf : Text) (reqP : Request) (selfLock : SelfLock) : Sys Outcome :=
  if !strstr buf ['\r', '\n'] && !strstr buf ['\n'] then
    if buf.take 2 = IAC_IP then
      -- the client pressed Ctrl-C
      if reqP.id ≠ 0 then
        mylockFunction b reqP selfLock .unlck fun selfLock => .done (.ret 5 reqP selfLock)
      else .done (.ret 5 reqP selfLock)
    else .done .exit
  else
    match b with
    | .reader => handleReader buf reqP selfLock
    | .writer =>
      if reqP.waitForWrite then handleWriterId buf reqP selfLock
      else handleWriterCommand buf reqP selfLock

def handleRead (b : Build) (r : ReadResult) (reqP : Request) (selfLock : SelfLock) : Sys Outcome :=
  match r with
  | .error => .done (.ret (-1) reqP selfLock)
  | .data [] => .done (.ret 0 reqP selfLock)
  | .data bytes => handleLine b (cstr (bytes.take 512)) reqP selfLock

/-! ## main -/

/-- What was written to the connections, in order. -/
abbrev Sent := List (Int × Text)

/-- `write(fd, text, strlen(text))`, which fails without effect on descriptor -1. Whether it succeeds on
an open connection is not looked at; if it raises SIGPIPE, the process ends there: `World.attempt`. -/
def send (fd : Int) (text : Text) : Sent := if fd = -1 then [] else [(fd, text)]

def failedMsg : Text := "[Error] Operation failed. Please try again.\n".toList

def exceedMsg : Text := "[Error] Sorry, but you cannot book more than 15 items in total.\n".toList

def negativeMsg : Text := "[Error] Sorry, but you cannot book less than 0 items.\n".toList

def lockedMsg : Text := "Locked.\n".toList

def exitMsg : Text := "(Type Exit to leave...)\n".toList

def commandMsg : Text :=
  ("Please input your booking command. (Food, Concert, Electronics. " ++
    "Positive/negative value increases/decreases the booking amount.):\n").toList

def updatedMsg (id : CInt) : Text :=
  "Bookings for user ".toList ++ decimal id ++ " are updated, the new booking state is:\n".toList

def promptMsg : Text := "Please enter your id (to check your booking state):\n".toList

/-- The message for a return value other than 1; none after Ctrl-C. -/
def errorReply (ret : Int) : Option Text :=
  if ret = 0 then some failedMsg
  else if ret = 2 then some exceedMsg
  else if ret = 3 then some negativeMsg
  else if ret = 4 then some lockedMsg
  else none

/-- The part of the loop body after the test of `ret`, which is also run when the connection has
just been closed. -/
def reply (b : Build) (reqP : Request) : Request × Sent :=
  match b with
  | .reader =>
    if reqP.buf = ['E', 'x', 'i', 't'] then (freeRequest reqP, [])
    else ({ reqP with done := true }, send reqP.connFd reqP.buf ++ send reqP.connFd exitMsg)
  | .writer =>
    if reqP.waitForWrite then
      ({ reqP with waitForWrite := false }, send reqP.connFd reqP.buf ++ send reqP.connFd commandMsg)
    else (freeRequest reqP, send reqP.connFd (updatedMsg reqP.id) ++ send reqP.connFd reqP.buf)

def afterRead (b : Build) (ret : Int) (reqP : Request) : Request × Sent :=
  if ret = 1 then reply b reqP
  else if ret < 0 then (reqP, [])
  else
    let sent := match errorReply ret with
      | some text => send reqP.connFd text
      | none => []
    let (reqP', sent') := reply b (freeRequest reqP)
    (reqP', sent ++ sent')

/-- The slot of a connection that was just accepted on descriptor `fd`. -/
def acceptRequest (b : Build) (fd : Nat) (reqP : Request) : Request :=
  { reqP with
    waitForWrite := if b = .writer then true else reqP.waitForWrite
    connFd := fd
    done := false }

end SysProg.Booking
