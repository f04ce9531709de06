import SysProg.ByteRange
import SysProg.Booking.Indices
import Mathlib.Data.List.GetD

/-!
# SysProg.Booking.Bytes

The record file as bytes: `lseek`, `read` and `write` at `sizeof(record) * offset` and locks on the 16
bytes there, each a step of its own.

* `encode`, `decode`: a record in memory, four little-endian words.
* `FileSys`: programs over the calls on the file. `Sys.lower` is `handleRead` with the calls that the
  code makes. A call with a negative start fails, and a short `read` leaves the rest of the buffer.
* `Disk.step`: the servers on the bytes. `Holds`: the bytes hold the records, and the locks on them.
* `disk_refines`: every run on the bytes has a run of `Inter.step` beside it, with the same
  connections and calls, whose records the bytes hold. What follows the 20 records in the file stays.
-/

set_option linter.unusedSectionVars false

namespace SysProg.Booking

open LockType

abbrev Byte := BitVec 8

/-! ## Records in memory -/

def wordBytes (w : CInt) : List Byte :=
  [.ofNat 8 w.toNat, .ofNat 8 (w.toNat / 256), .ofNat 8 (w.toNat / 65536),
    .ofNat 8 (w.toNat / 16777216)]

def byteAt (bs : List Byte) (i : Nat) : Nat := (bs.getD i 0).toNat

def wordAt (bs : List Byte) (i : Nat) : CInt :=
  .ofNat 32 (byteAt bs i + 256 * byteAt bs (i + 1) + 65536 * byteAt bs (i + 2) +
    16777216 * byteAt bs (i + 3))

/-- `sizeof(record)` -/
def recordSize : Nat := 16

def encode (r : Record) : List Byte :=
  wordBytes r.id ++ (wordBytes (r.bookingState 0) ++ (wordBytes (r.bookingState 1) ++
    wordBytes (r.bookingState 2)))

def decode (bs : List Byte) : Record :=
  ⟨wordAt bs 0, fun i => wordAt bs (4 + 4 * i.val)⟩

@[simp] theorem length_wordBytes (w : CInt) : (wordBytes w).length = 4 := rfl

@[simp] theorem length_encode (r : Record) : (encode r).length = recordSize := rfl

theorem wordAt_wordBytes (w : CInt) (bs : List Byte) : wordAt (wordBytes w ++ bs) 0 = w := by
  apply BitVec.eq_of_toNat_eq
  have hw := w.isLt
  simp [wordAt, byteAt, wordBytes]
  omega

theorem wordAt_skip (w : CInt) (bs : List Byte) (i : Nat) :
    wordAt (wordBytes w ++ bs) (4 + i) = wordAt bs i := by
  have hb : ∀ j, byteAt (wordBytes w ++ bs) (4 + j) = byteAt bs j := by
    intro j
    unfold byteAt
    rw [Nat.add_comm]
    rfl
  have h0 := hb i
  simp only [wordAt, h0, Nat.add_assoc, hb]

theorem wordAt_last (w : CInt) : wordAt (wordBytes w) 0 = w := by
  have h := wordAt_wordBytes w []
  rwa [List.append_nil] at h

theorem decode_encode (r : Record) : decode (encode r) = r := by
  obtain ⟨id, b⟩ := r
  unfold decode encode
  congr 1
  · exact wordAt_wordBytes ..
  · funext i
    match i with
    | 0 => exact (wordAt_skip _ _ 0).trans (wordAt_wordBytes ..)
    | 1 => exact (wordAt_skip _ _ 4).trans ((wordAt_skip _ _ 0).trans (wordAt_wordBytes ..))
    | 2 =>
      exact (wordAt_skip _ _ 8).trans ((wordAt_skip _ _ 4).trans ((wordAt_skip _ _ 0).trans
        (wordAt_last _)))

theorem decode_append {bs : List Byte} (h : recordSize ≤ bs.length) (xs : List Byte) :
    decode (bs ++ xs) = decode bs := by
  have hb : ∀ i, i < recordSize → byteAt (bs ++ xs) i = byteAt bs i := by
    intro i hi
    unfold byteAt
    rw [List.getD_append _ _ _ _ (by omega)]
  have hw : ∀ i, i + 3 < recordSize → wordAt (bs ++ xs) i = wordAt bs i := by
    intro i hi
    simp only [wordAt, hb i (by omega), hb (i + 1) (by omega), hb (i + 2) (by omega),
      hb (i + 3) (by omega)]
  unfold decode
  congr 1
  · exact hw 0 (by decide)
  · funext i
    refine hw _ ?_
    have := i.isLt
    simp only [recordSize]
    omega

/-! ## The calls on the file -/

/-- Programs over `fcntl`, `lseek`, `read` and `write` on the record file. -/
inductive FileSys (α : Type) where
  | done (a : α)
  | getlk (start : Int) (len : Nat) (type : LockType) (cont : LockType → FileSys α)
  | setlk (start : Int) (len : Nat) (type : LockType) (cont : FileSys α)
  | lseek (offset : Int) (cont : FileSys α)
  | read (n : Nat) (cont : List Byte → FileSys α)
  | write (bytes : List Byte) (cont : FileSys α)

/-- `sizeof(record) * offset` as an `off_t` -/
def recordOffset (k : CInt) : Int := recordSize * k.toInt

/-- `temp` after a `read` that returned `bs`, from what it held before. -/
def filled (old bs : List Byte) : List Byte := bs ++ old.drop bs.length

/-- The program with the calls that the code makes for it. -/
def Sys.lower {α : Type} (old : List Byte) : Sys α → FileSys α
  | .done a => .done a
  | .getlk k type cont => .getlk (recordOffset k) recordSize type fun t => (cont t).lower old
  | .setlk k type cont => .setlk (recordOffset k) recordSize type (cont.lower old)
  | .readRec k cont => .lseek (recordOffset k) <|
      .read recordSize fun bs => (cont (decode (filled old bs))).lower old
  | .writeRec k r cont => .lseek (recordOffset k) <| .write (encode r) (cont.lower old)

/-- The record file, the locks on its bytes, and the position of each process in it. -/
structure FileKernel (P : Type) where
  bytes : List Byte
  locks : LockTable P Nat
  pos : P → Nat

section

variable {P α : Type} [DecidableEq P] [Fintype P]

def FileKernel.setPos (s : FileKernel P) (p : P) (pos : Nat) : FileKernel P :=
  { s with pos := fun q => if q = p then pos else s.pos q }

/-- Executes the first call of the program for process `p`. -/
def FileSys.step (p : P) : FileSys α → FileKernel P → FileSys α × FileKernel P
  | .done a, s => (.done a, s)
  | .getlk start len type cont, s =>
    if start < 0 then (cont type, s) else (cont (s.locks.getlkRange p start.toNat len type), s)
  | .setlk start len type cont, s =>
    if start < 0 then (cont, s)
    else (cont, { s with locks := s.locks.setlkRange p start.toNat len type })
  | .lseek offset cont, s => if offset < 0 then (cont, s) else (cont, s.setPos p offset.toNat)
  | .read n cont, s =>
    let bs := pread s.bytes (s.pos p) n
    (cont bs, s.setPos p (s.pos p + bs.length))
  | .write bs cont, s =>
    (cont, { s with bytes := pwrite s.bytes (s.pos p) bs }.setPos p (s.pos p + bs.length))

def FileKernel.finish (p : P) (s : FileKernel P) : Outcome → FileKernel P
  | .exit => { s with locks := s.locks.dropAll p }
  | .ret _ _ _ => s

end

/-! ## The servers on the bytes -/

structure Disk (P : Type) where
  kernel : FileKernel P
  server : P → Server
  running : P → Option (Nat × FileSys Outcome)

section

variable {P : Type} [DecidableEq P] [Fintype P]

def Disk.setServer (d : Disk P) (p : P) (sv : Server) : Disk P :=
  { d with server := fun q => if q = p then sv else d.server q }

def Disk.setRunning (d : Disk P) (p : P) (run : Option (Nat × FileSys Outcome)) : Disk P :=
  { d with running := fun q => if q = p then run else d.running q }

/-- As `Inter.step`, with every call on the file a step of its own. -/
def Disk.step (build : P → Build) (old : List Byte) (d : Disk P) : InterEvent P → Option (Disk P)
  | .accept p fd =>
    match d.running p with
    | none =>
      if (d.server p).canAccept fd then some (d.setServer p ((d.server p).accept (build p) fd))
      else none
    | some _ => none
  | .recv p fd r =>
    match d.running p with
    | none =>
      if (d.server p).canServe fd then
        some (d.setRunning p (some (fd,
          (handleRead (build p) r ((d.server p).requestP fd) (d.server p).selfLock).lower old)))
      else none
    | some _ => none
  | .call p =>
    match d.running p with
    | none => none
    | some (fd, .done out) =>
      some (({ d with kernel := d.kernel.finish p out }.setServer p
        ((d.server p).finish (build p) fd out)).setRunning p none)
    | some (fd, prog) =>
      let (prog', s) := prog.step p d.kernel
      some ({ d with kernel := s }.setRunning p (some (fd, prog')))

/-- The servers have just started, on a file that holds at least the 20 records. -/
structure Disk.Init (d : Disk P) : Prop where
  fresh : ∀ p, (d.server p).Fresh
  locks : ∀ a p, d.kernel.locks a p = .unlck
  running : ∀ p, d.running p = none
  size : 20 * recordSize ≤ d.kernel.bytes.length

def Disk.record (d : Disk P) (k : CInt) : Record :=
  decode (pread d.kernel.bytes (recordOffset k).toNat recordSize)

/-- The servers as `Inter` sees them, when no process is inside `handle_read`. -/
def Disk.start (d : Disk P) : Inter P :=
  { kernel := ⟨d.record, fun _ _ => .unlck⟩, server := d.server, running := fun _ => none }

/-! ## The records on the bytes -/

theorem recordOffset_nonneg {k : CInt} (hk : RecordIndex k) : ¬ recordOffset k < 0 := by
  obtain ⟨h, -⟩ := hk
  simp only [recordOffset, recordSize]
  omega

def recordLayout : Layout CInt where
  start := fun k => (recordOffset k).toNat
  len := recordSize
  used := RecordIndex
  pos := by decide
  apart := by
    rintro k k' ⟨h0, h20⟩ ⟨h0', h20'⟩ hne
    have : k.toInt ≠ k'.toInt := fun h => hne (BitVec.eq_of_toInt_eq h)
    simp only [recordOffset, recordSize]
    omega

/-- The servers and, on the bytes of the 20 records, the records and locks of `i`. -/
structure Holds (d : Disk P) (i : Inter P) : Prop where
  server : d.server = i.server
  locks : Covers recordLayout d.kernel.locks i.kernel.locks
  file : ∀ k, RecordIndex k → d.record k = i.kernel.file k

/-- What is left of a call: the lowered program, or the access that comes after `lseek`. -/
inductive Lowered (old : List Byte) (pos : Nat) : Sys Outcome → FileSys Outcome → Prop where
  | same (prog : Sys Outcome) : Lowered old pos prog (prog.lower old)
  | reading {k : CInt} {cont : Record → Sys Outcome} : pos = (recordOffset k).toNat →
      Lowered old pos (.readRec k cont)
        (.read recordSize fun bs => (cont (decode (filled old bs))).lower old)
  | writing {k : CInt} {r : Record} {cont : Sys Outcome} : pos = (recordOffset k).toNat →
      Lowered old pos (.writeRec k r cont) (.write (encode r) (cont.lower old))

/-- The call that process `p` is in, in both systems. -/
inductive LoweredCall (old : List Byte) (d : Disk P) (i : Inter P) (p : P) : Prop where
  | none : d.running p = none → i.running p = none → LoweredCall old d i p
  | some {fd : Nat} {prog : Sys Outcome} {fprog : FileSys Outcome} :
      d.running p = some (fd, fprog) → i.running p = some (fd, prog) →
      Lowered old (d.kernel.pos p) prog fprog → LoweredCall old d i p

/-- `rest` is what follows the records in the file. -/
structure OnDisk (build : P → Build) (old rest : List Byte) (d : Disk P) (i : Inter P) : Prop
    extends Holds d i where
  calls : ∀ p, LoweredCall old d i p
  sound : ∀ p, Sound build i p
  size : 20 * recordSize ≤ d.kernel.bytes.length
  rest : d.kernel.bytes.drop (20 * recordSize) = rest

variable {build : P → Build} {old rest : List Byte} {d d' : Disk P} {i i' : Inter P} {p q : P}

theorem loweredCall_congr (h : LoweredCall old d i p) (hd : d'.running p = d.running p)
    (hi : i'.running p = i.running p) (hpos : d'.kernel.pos p = d.kernel.pos p) :
    LoweredCall old d' i' p := by
  cases h with
  | none h1 h2 => exact .none (hd.trans h1) (hi.trans h2)
  | some h1 h2 h3 => exact .some (hd.trans h1) (hi.trans h2) (hpos.symm ▸ h3)

/-- `Inter` can follow a step on the bytes. -/
def Keeps (build : P → Build) (old rest : List Byte) (d' : Disk P) (i : Inter P)
    (e : InterEvent P) : Prop :=
  ∃ more i', Run (Inter.step build) i more i' ∧ OnDisk build old rest d' i' ∧
    starts more = e.event.toList

theorem Keeps.step {e : InterEvent P} (hi : ∀ p, Sound build i p) (hs : i.step build e = some i')
    (h : (∀ p, Sound build i' p) → OnDisk build old rest d' i') : Keeps build old rest d' i e := by
  refine ⟨[(i, e)], i', .snoc .nil hs, h (sound_step hi hs), ?_⟩
  cases e <;> rfl

theorem keeps_accept {fd : Nat} (h : OnDisk build old rest d i) (hrun : d.running p = none)
    (hc : (d.server p).canAccept fd = true) : Keeps build old rest
      (d.setServer p ((d.server p).accept (build p) fd)) i (.accept p fd) := by
  have hirun : i.running p = none := by
    cases h.calls p with
    | none _ hi => exact hi
    | some hd => rw [hrun] at hd; cases hd
  rw [h.server] at hc
  have hs : i.step build (.accept p fd) = some
      { i with toWorld := i.toWorld.setServer p ((i.server p).accept (build p) fd) } := by
    simp only [Inter.step, hirun, hc, if_true]
  refine .step h.sound hs fun hsound => ⟨⟨?_, h.locks, h.file⟩, fun q => ?_, hsound, h.size, h.rest⟩
  · simp only [Disk.setServer, World.setServer, h.server]
  · exact loweredCall_congr (h.calls q) rfl rfl rfl

theorem keeps_recv {fd : Nat} {r : ReadResult} (h : OnDisk build old rest d i)
    (hrun : d.running p = none) (hc : (d.server p).canServe fd = true) : Keeps build old rest
      (d.setRunning p (some (fd,
        (handleRead (build p) r ((d.server p).requestP fd) (d.server p).selfLock).lower old))) i
      (.recv p fd r) := by
  have hirun : i.running p = none := by
    cases h.calls p with
    | none _ hi => exact hi
    | some hd => rw [hrun] at hd; cases hd
  rw [h.server] at hc ⊢
  have hs : i.step build (.recv p fd r) = some (i.setRunning p (some (fd,
      handleRead (build p) r ((i.server p).requestP fd) (i.server p).selfLock))) := by
    simp only [Inter.step, hirun, hc, if_true]
  refine .step h.sound hs fun hsound => ⟨⟨h.server, h.locks, h.file⟩, fun q => ?_, hsound, h.size, h.rest⟩
  by_cases hq : q = p
  · subst hq
    exact .some (by simp [Disk.setRunning]) setRunning_self (.same _)
  · exact loweredCall_congr (h.calls q) (by simp [Disk.setRunning, hq]) (setRunning_of_ne hq) rfl

theorem keeps_finish {fd : Nat} {out : Outcome} (h : OnDisk build old rest d i)
    (hd : d.running p = some (fd, .done out)) (hi : i.running p = some (fd, .done out)) :
    Keeps build old rest (({ d with kernel := d.kernel.finish p out }.setServer p
      ((d.server p).finish (build p) fd out)).setRunning p none) i (.call p) := by
  have hs : i.step build (.call p) = some (Inter.setRunning { i with
      toWorld := { i.toWorld with kernel := i.kernel.finish p out }.setServer p
        ((i.server p).finish (build p) fd out) } p none) := by
    simp only [Inter.step, hi]
  refine .step h.sound hs fun hsound => ⟨⟨?_, ?_, ?_⟩, fun q => ?_, hsound, ?_, ?_⟩
  · simp only [Disk.setRunning, Disk.setServer, Inter.setRunning, World.setServer, h.server]
  · cases out with
    | exit => exact h.locks.dropAll
    | ret => exact h.locks
  · cases out <;> exact h.file
  · by_cases hq : q = p
    · subst hq
      exact .none (by simp [Disk.setRunning]) setRunning_self
    · refine loweredCall_congr (h.calls q) (by simp [Disk.setRunning, Disk.setServer, hq])
        (setRunning_of_ne hq) ?_
      cases out <;> rfl
  · cases out <;> exact h.size
  · cases out <;> exact h.rest

/-- One call of process `p` on the bytes, which leaves `prog'` of the call of `handle_read`. -/
theorem OnDisk.call {fd : Nat} {prog' : Sys Outcome} {fprog' : FileSys Outcome} {s : FileKernel P}
    (h : OnDisk build old rest d i) (hrun : i'.running p = some (fd, prog'))
    (hother : ∀ q, q ≠ p → i'.running q = i.running q) (hserver : i'.server = i.server)
    (hpos : ∀ q, q ≠ p → s.pos q = d.kernel.pos q)
    (hlocks : Covers recordLayout s.locks i'.kernel.locks)
    (hfile : ∀ k, RecordIndex k →
      decode (pread s.bytes (recordOffset k).toNat recordSize) = i'.kernel.file k)
    (hsize : s.bytes.length = d.kernel.bytes.length)
    (hrest : s.bytes.drop (20 * recordSize) = d.kernel.bytes.drop (20 * recordSize))
    (hlow : Lowered old (s.pos p) prog' fprog') (hsound : ∀ q, Sound build i' q) :
    OnDisk build old rest (Disk.setRunning { d with kernel := s } p (some (fd, fprog'))) i' := by
  refine ⟨⟨h.server.trans hserver.symm, hlocks, hfile⟩, fun q => ?_, hsound, ?_, hrest.trans h.rest⟩
  · by_cases hq : q = p
    · subst hq
      exact .some (by simp [Disk.setRunning]) hrun hlow
    · exact loweredCall_congr (h.calls q) (by simp [Disk.setRunning, hq]) (hother q hq) (hpos q hq)
  · exact hsize.symm ▸ h.size

theorem inter_call {fd : Nat} {prog : Sys Outcome} (hrun : i.running p = some (fd, prog))
    (hne : ∀ out, prog ≠ .done out) : i.step build (.call p) =
      some (Inter.setRunning { i with kernel := (prog.step p i.kernel).2 } p
        (some (fd, (prog.step p i.kernel).1))) := by
  cases prog with
  | done out => exact absurd rfl (hne out)
  | getlk => simp only [Inter.step, hrun]
  | setlk => simp only [Inter.step, hrun]
  | readRec => simp only [Inter.step, hrun]
  | writeRec => simp only [Inter.step, hrun]

theorem disk_call {fd : Nat} {fprog : FileSys Outcome} (hrun : d.running p = some (fd, fprog))
    (hne : ∀ out, fprog ≠ .done out) : d.step build old (.call p) =
      some (Disk.setRunning { d with kernel := (fprog.step p d.kernel).2 } p
        (some (fd, (fprog.step p d.kernel).1))) := by
  cases fprog with
  | done out => exact absurd rfl (hne out)
  | getlk => simp only [Disk.step, hrun]
  | setlk => simp only [Disk.step, hrun]
  | lseek => simp only [Disk.step, hrun]
  | read => simp only [Disk.step, hrun]
  | write => simp only [Disk.step, hrun]

section Calls

variable {fd : Nat} {k : CInt}

theorem setPos_pos_of_ne {s : FileKernel P} {pos : Nat} (hq : q ≠ p) :
    (s.setPos p pos).pos q = s.pos q := by simp [FileKernel.setPos, hq]

theorem setPos_pos_self {s : FileKernel P} {pos : Nat} : (s.setPos p pos).pos p = pos := by
  simp [FileKernel.setPos]

theorem keeps_getlk {type : LockType} {cont : LockType → Sys Outcome}
    (h : OnDisk build old rest d i) (hi : i.running p = some (fd, .getlk k type cont))
    (hk : RecordIndex k) : Keeps build old rest (Disk.setRunning d p (some (fd,
      (cont (d.kernel.locks.getlkRange p (recordOffset k).toNat recordSize type)).lower old))) i
      (.call p) := by
  have hget : d.kernel.locks.getlkRange p (recordOffset k).toNat recordSize type =
      i.kernel.locks.getlk p k type := h.locks.getlkRange (L := recordLayout) hk
  rw [hget]
  refine .step h.sound (inter_call hi (by simp)) fun hsound => ?_
  exact h.call setRunning_self (fun q hq => setRunning_of_ne hq) rfl (fun _ _ => rfl) h.locks h.file
    rfl rfl (.same _) hsound

theorem keeps_setlk {type : LockType} {cont : Sys Outcome}
    (h : OnDisk build old rest d i) (hi : i.running p = some (fd, .setlk k type cont))
    (hk : RecordIndex k) : Keeps build old rest (Disk.setRunning { d with kernel := { d.kernel with
      locks := d.kernel.locks.setlkRange p (recordOffset k).toNat recordSize type } } p
      (some (fd, cont.lower old))) i (.call p) := by
  refine .step h.sound (inter_call hi (by simp)) fun hsound => ?_
  exact h.call setRunning_self (fun q hq => setRunning_of_ne hq) rfl (fun _ _ => rfl)
    (h.locks.setlkRange (L := recordLayout) hk) h.file rfl rfl (.same _) hsound

/-- `lseek` on its own is no step of `Inter`. -/
theorem keeps_lseek {prog : Sys Outcome} {fprog : FileSys Outcome}
    (h : OnDisk build old rest d i) (hi : i.running p = some (fd, prog))
    (hlow : Lowered old (recordOffset k).toNat prog fprog) : Keeps build old rest
      (Disk.setRunning { d with kernel := d.kernel.setPos p (recordOffset k).toNat } p
        (some (fd, fprog))) i (.call p) := by
  refine ⟨[], i, .nil, ?_, rfl⟩
  refine h.call hi (fun _ _ => rfl) rfl (fun q hq => setPos_pos_of_ne hq) h.locks h.file rfl rfl ?_
    h.sound
  rw [setPos_pos_self]
  exact hlow

theorem range_le (hk : RecordIndex k) : (recordOffset k).toNat + recordSize ≤ 20 * recordSize := by
  obtain ⟨h0, h20⟩ := hk
  simp only [recordOffset, recordSize]
  omega

theorem keeps_read {cont : Record → Sys Outcome} (h : OnDisk build old rest d i)
    (hi : i.running p = some (fd, .readRec k cont)) (hk : RecordIndex k)
    (hpos : d.kernel.pos p = (recordOffset k).toNat) : Keeps build old rest
      (Disk.setRunning { d with kernel := d.kernel.setPos p (d.kernel.pos p +
          (pread d.kernel.bytes (d.kernel.pos p) recordSize).length) } p
        (some (fd, (cont (decode (filled old
          (pread d.kernel.bytes (d.kernel.pos p) recordSize)))).lower old))) i (.call p) := by
  have hlen : (pread d.kernel.bytes (recordOffset k).toNat recordSize).length = recordSize :=
    length_pread (le_trans (range_le hk) h.size)
  have hval : decode (filled old (pread d.kernel.bytes (d.kernel.pos p) recordSize)) =
      i.kernel.file k := by
    rw [hpos, ← h.file k hk]
    exact decode_append hlen.ge _
  rw [hval]
  refine .step h.sound (inter_call hi (by simp)) fun hsound => ?_
  exact h.call setRunning_self (fun q hq => setRunning_of_ne hq) rfl
    (fun q hq => setPos_pos_of_ne hq) h.locks h.file rfl rfl (.same _) hsound

theorem keeps_write {r : Record} {cont : Sys Outcome} (h : OnDisk build old rest d i)
    (hi : i.running p = some (fd, .writeRec k r cont)) (hk : RecordIndex k)
    (hpos : d.kernel.pos p = (recordOffset k).toNat) : Keeps build old rest
      (Disk.setRunning { d with
        kernel := { d.kernel with
          bytes := pwrite d.kernel.bytes (d.kernel.pos p) (encode r) }.setPos p
            (d.kernel.pos p + (encode r).length) } p (some (fd, cont.lower old))) i (.call p) := by
  have hroom : (recordOffset k).toNat + (encode r).length ≤ d.kernel.bytes.length :=
    le_trans (range_le hk) h.size
  rw [hpos]
  refine .step h.sound (inter_call hi (by simp)) fun hsound => ?_
  refine h.call setRunning_self (fun q hq => setRunning_of_ne hq) rfl
    (fun q hq => setPos_pos_of_ne hq) h.locks (fun k' hk' => ?_) (length_pwrite hroom) ?_ (.same _)
    hsound
  · change decode (pread (pwrite _ _ _) _ _) = if k' = k then r else i.kernel.file k'
    by_cases hkk : k' = k
    · subst hkk
      rw [if_pos rfl]
      exact (congrArg decode (pread_pwrite hroom)).trans (decode_encode r)
    · have hapart : (recordOffset k).toNat + recordSize ≤ (recordOffset k').toNat ∨
          (recordOffset k').toNat + recordSize ≤ (recordOffset k).toNat :=
        recordLayout.apart k k' hk hk' (Ne.symm hkk)
      rw [if_neg hkk, pread_pwrite_apart hroom hapart]
      exact h.file k' hk'
  · change (pwrite _ _ _).drop _ = _
    apply List.ext_getElem?
    intro a
    have hr : (recordOffset k).toNat + (encode r).length ≤ 20 * recordSize := range_le hk
    rw [List.getElem?_drop, List.getElem?_drop, getElem?_pwrite hroom, if_neg (by omega)]

end Calls

theorem keeps_call (h : OnDisk build old rest d i) (hs : d.step build old (.call p) = some d') :
    Keeps build old rest d' i (.call p) := by
  cases h.calls p with
  | none hd _ => simp only [Disk.step, hd] at hs; cases hs
  | @some fd prog fprog hd hi hlow =>
    have hin := ((h.sound p).serving fd prog hi).inRange
    cases hlow with
    | same =>
      cases prog with
      | done out =>
        have hd' : d.running p = some (fd, .done out) := hd
        simp only [Disk.step, hd'] at hs
        cases hs
        exact keeps_finish h hd hi
      | getlk k type cont =>
        rw [disk_call hd (by simp [Sys.lower])] at hs
        simp only [Sys.lower, FileSys.step, recordOffset_nonneg hin.1, if_false] at hs
        cases hs
        exact keeps_getlk h hi hin.1
      | setlk k type cont =>
        rw [disk_call hd (by simp [Sys.lower])] at hs
        simp only [Sys.lower, FileSys.step, recordOffset_nonneg hin.1, if_false] at hs
        cases hs
        exact keeps_setlk h hi hin.1
      | readRec k cont =>
        rw [disk_call hd (by simp [Sys.lower])] at hs
        simp only [Sys.lower, FileSys.step, recordOffset_nonneg hin.1, if_false] at hs
        cases hs
        exact keeps_lseek h hi (.reading rfl)
      | writeRec k r cont =>
        rw [disk_call hd (by simp [Sys.lower])] at hs
        simp only [Sys.lower, FileSys.step, recordOffset_nonneg hin.1, if_false] at hs
        cases hs
        exact keeps_lseek h hi (.writing rfl)
    | reading hpos =>
      rw [disk_call hd (by simp)] at hs
      cases hs
      exact keeps_read h hi hin.1 hpos
    | writing hpos =>
      rw [disk_call hd (by simp)] at hs
      cases hs
      exact keeps_write h hi hin.1 hpos

theorem OnDisk.step {e : InterEvent P} (h : OnDisk build old rest d i)
    (hs : d.step build old e = some d') : Keeps build old rest d' i e := by
  cases e with
  | accept p fd =>
    simp only [Disk.step] at hs
    split at hs
    · split at hs
      · cases hs
        exact keeps_accept h ‹_› ‹_›
      · cases hs
    · cases hs
  | recv p fd r =>
    simp only [Disk.step] at hs
    split at hs
    · split at hs
      · cases hs
        exact keeps_recv h ‹_› ‹_›
      · cases hs
    · cases hs
  | call p => exact keeps_call h hs

theorem Disk.Init.onDisk (h : d.Init) :
    OnDisk build old (d.kernel.bytes.drop (20 * recordSize)) d d.start := by
  have hinit : d.start.Init := ⟨⟨h.fresh, fun _ _ => rfl⟩, fun _ => rfl⟩
  exact ⟨⟨rfl, fun k hk j hj p => h.locks _ p, fun _ _ => rfl⟩, fun p => .none (h.running p) rfl,
    hinit.sound, h.size, rfl⟩

theorem starts_append {σ : Type} (tr more : List (σ × InterEvent P)) :
    starts (tr ++ more) = starts tr ++ starts more := List.filterMap_append

/-- Every run on the bytes shows a run on the records, with the same connections and calls in the same
order, and leaves what follows the records in the file. -/
theorem disk_refines {d0 : Disk P} {tr : List (Disk P × InterEvent P)} (h0 : d0.Init)
    (h : Run (Disk.step build old) d0 tr d) :
    ∃ tr' i, Run (Inter.step build) d0.start tr' i ∧ Holds d i ∧
      starts tr' = starts tr ∧
      d.kernel.bytes.drop (20 * recordSize) = d0.kernel.bytes.drop (20 * recordSize) := by
  obtain ⟨tr', i, hr, ⟨hon, hev⟩, _⟩ := h.simulated (C := fun _ _ => True)
    (R := fun tr d tr' i =>
      OnDisk build old (d0.kernel.bytes.drop (20 * recordSize)) d i ∧ starts tr' = starts tr)
    (fun tr d e d' tr' i _ _ hrel _ hs => by
      obtain ⟨more, i', hmore, hon', hev'⟩ := hrel.1.step hs
      refine ⟨more, i', hmore, hon', ?_⟩
      rw [starts_append, starts_append, hrel.2, hev']
      cases he : e.event <;> simp [starts, he])
    ⟨h0.onDisk, rfl⟩ fun _ _ => trivial
  exact ⟨tr', i, hr, hon.toHolds, hev, hon.rest⟩

end

/-- A file of 20 empty records and one more byte. -/
def freshDisk (P : Type) : Disk P where
  kernel := ⟨List.replicate 321 0, fun _ _ => .unlck, fun _ => 0⟩
  server := (freshWorld P).server
  running := fun _ => none

theorem freshDisk_init (P : Type) : (freshDisk P).Init :=
  ⟨(freshWorld_init P).fresh, fun _ _ => rfl, fun _ => rfl,
    (by decide : 320 ≤ 321).trans List.length_replicate.ge⟩

/-- A client of a write server books in the first record. -/
def bookFirst : List (InterEvent (Fin 1)) :=
  arrive 0 ++ List.replicate 5 (.call 0) ++ [.recv 0 5 (.data "1 2 3\r\n".toList)] ++
    List.replicate 8 (.call 0)

theorem disk_refines_book : ∃ d tr' i,
    runEvents (Disk.step (fun _ => .writer) []) (freshDisk (Fin 1)) bookFirst = some d ∧
      Run (Inter.step fun _ => .writer) (freshDisk (Fin 1)).start tr' i ∧ Holds d i := by
  obtain ⟨d, hd⟩ : ∃ d, runEvents (Disk.step (fun _ => .writer) []) (freshDisk (Fin 1)) bookFirst =
      some d := ⟨_, rfl⟩
  obtain ⟨tr', i, hr, hshow, _⟩ := disk_refines (freshDisk_init (Fin 1)) (run_traceOf hd)
  exact ⟨d, tr', i, hd, hr, hshow⟩

end SysProg.Booking
