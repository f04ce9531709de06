import SysProg.Booking.Limit

/-!
# SysProg.Booking.Interleave

The servers with every system call a step of its own. `mylock_check` and `mylock_function` are two
steps then, and other processes run between them; `mylock_function` does not look at the result of
`F_SETLK`.

* `Sys.Safe`: what a program does to the locks of its own process, as long as its requests are
  granted, whatever `F_GETLK` answers and whatever the records hold.
* `handleRead_safe`: at every point of `handle_read` the sessions of the process hold their locks,
  and at its end the books are as `Effect` says.
* `inter_cases`: what a step can do.
* `exclusive_of_granted`: in a run in which no `F_SETLK` fails, a write session excludes all other
  sessions on its record.
* `two_writers`: without that, two write servers open a session on one record.
-/

set_option linter.unusedSectionVars false

namespace SysProg.Booking

open LockType

/-- The lock one process holds on each record. -/
abbrev Row := CInt → LockType

def Row.put (row : Row) (k : CInt) (type : LockType) : Row := fun k' => if k' = k then type else row k'

/-- `J` holds of the own locks before every call, and `Q` at the end. -/
def Sys.Safe {α : Type} (J : Row → Prop) (Q : Row → α → Prop) : Sys α → Row → Prop
  | .done a, row => Q row a
  | .getlk _ _ cont, row => J row ∧ ∀ type, (cont type).Safe J Q row
  | .setlk k type cont, row => J row ∧ cont.Safe J Q (row.put k type)
  | .readRec _ cont, row => J row ∧ ∀ r, (cont r).Safe J Q row
  | .writeRec _ _ cont, row => J row ∧ cont.Safe J Q row

/-- Every session of the process holds its lock. -/
def Server.Guarded (b : Build) (sv : Server) (row : Row) : Prop :=
  ∀ fd k, sv.Session b fd k → row k = b.lockType

theorem Server.Inv.guarded {b : Build} {sv : Server} {row : Row} (hi : sv.Inv b row) :
    sv.Guarded b row := by
  intro fd k hs
  have hpos : 0 < (sv.shown b k).card := Finset.card_pos.2 ⟨fd, hi.mem_shown_iff.2 hs⟩
  have := hi.count k
  rw [hi.held k, if_pos (by omega)]

theorem Server.Guarded.put {b : Build} {sv : Server} {row : Row} (h : sv.Guarded b row) (k : CInt) :
    sv.Guarded b (row.put k b.lockType) := by
  intro fd k' hs
  unfold Row.put
  split
  · rfl
  · exact h fd k' hs

/-- The locks of a process, as the table of a kernel with no other process. -/
def Row.table (row : Row) : LockTable Unit CInt := fun k _ => row k

/-- The outcome changes slot, table and locks as one of the cases of `Effect`. -/
def Books (b : Build) (reqP : Request) (sl : SelfLock) (r : ReadResult) (row row' : Row) :
    Outcome → Prop
  | .exit => True
  | .ret val reqP' sl' => ∃ file file', Effect b () reqP sl ⟨file, row.table⟩ r
      (afterRead b val reqP').1 sl' ⟨file', row'.table⟩

/-! ## handle_read -/

def emptyFile : CInt → Record := fun _ => ⟨0, fun _ => 0⟩

section

variable {α : Type} {b : Build} {reqP : Request} {sl : SelfLock} {r : ReadResult} {row : Row}
  {J : Row → Prop} {Q : Row → Outcome → Prop}

theorem mylockFunction_unlck_safe {cont : SelfLock → Sys Outcome} (hJ : J row)
    (h : ∀ row' : Row, row'.table = unlock b row.table () (reqP.id - HEAD) (sl (reqP.id - HEAD)) →
      (cont (updLock sl (reqP.id - HEAD) (b.given (sl (reqP.id - HEAD))))).Safe J Q row') :
    (mylockFunction b reqP sl unlck cont).Safe J Q row := by
  cases b with
  | writer =>
    refine ⟨hJ, h _ ?_⟩
    funext k u
    simp [Row.table, Row.put, unlock, LockTable.put]
  | reader =>
    simp only [mylockFunction]
    split
    · rename_i h1
      refine ⟨hJ, h _ ?_⟩
      funext k u
      simp [Row.table, Row.put, unlock, LockTable.put, h1]
    · rename_i h1
      refine h row ?_
      simp [unlock, h1]

theorem mylockFunction_lock_safe {cont : SelfLock → Sys Outcome} (hJ : J row)
    (h : (cont (updLock sl (reqP.id - HEAD) (b.taken (sl (reqP.id - HEAD))))).Safe J Q
      (row.put (reqP.id - HEAD) b.lockType)) :
    (mylockFunction b reqP sl b.lockType cont).Safe J Q row := by
  cases b with
  | writer => exact ⟨hJ, h⟩
  | reader => exact ⟨hJ, h⟩

/-- The end of a session, with the unlock as the last call. -/
theorem released_safe {val : Int} {q : Request} (hJ : J row) (hid : q.id = reqP.id)
    (hbusy : InSession b reqP = true) (hl : ¬ Lost b r)
    (hcl : Closed (afterRead b val q).1) (file : CInt → Record)
    (hcmd : ∀ nums, commandOf b reqP r = some nums →
      overLimit (file (reqP.id - HEAD)).bookingState nums = true ∨
        underZero (file (reqP.id - HEAD)).bookingState nums = true) :
    (mylockFunction b q sl unlck fun sl => .done (.ret val q sl)).Safe J
      (Books b reqP sl r row) row := by
  refine mylockFunction_unlck_safe hJ fun row' hrow' => ⟨file, file, ?_⟩
  rw [hrow', hid]
  exact .released hbusy (sub_add_head _) hl hcl hcmd

theorem idle_safe {val : Int} {q : Request} (hidle : InSession b reqP = false)
    (h1 : val ≠ 1 := by decide) (h0 : 0 ≤ val := by decide) :
    (Sys.done (Outcome.ret val q sl)).Safe J (Books b reqP sl r row) row :=
  ⟨emptyFile, _, .refused hidle (afterRead_closed b q h1 h0)⟩

theorem lost_safe {q : Request} (hbusy : InSession b reqP = true) (hl : Lost b r) :
    (Sys.done (Outcome.ret 0 q sl)).Safe J (Books b reqP sl r row) row :=
  ⟨emptyFile, _, .lost hbusy hl (afterRead_closed b q)⟩

theorem grants_alone {k : CInt} {type : LockType} : row.table.Grants () k type :=
  fun _ hq => (hq rfl).elim

/-- The start of a session: the record is read with the lock taken. -/
theorem opened_safe {q : Request} {cont : Record → Request} (hJ : J row)
    (hJ' : J (row.put (q.id - HEAD) b.lockType)) (hidle : InSession b reqP = false)
    (hoff : badOffset (q.id - HEAD) = false) (hfree : b = .writer → sl (q.id - HEAD) ≠ 1)
    (hq : ∀ temp, (afterRead b 1 (cont temp)).1.connFd = reqP.connFd ∧
      (afterRead b 1 (cont temp)).1.id = q.id ∧ InSession b (afterRead b 1 (cont temp)).1 = true ∧
      (afterRead b 1 (cont temp)).1.buf = listing temp.bookingState) :
    (mylockFunction b q sl b.lockType fun sl =>
      .readRec (q.id - HEAD) fun temp => .done (.ret 1 (cont temp) sl)).Safe J
      (Books b reqP sl r row) row := by
  refine mylockFunction_lock_safe hJ ⟨hJ', fun temp => ⟨fun _ => temp, fun _ => temp, ?_⟩⟩
  obtain ⟨hconn, hid, hbusy, hbuf⟩ := hq temp
  have htable : (row.put (q.id - HEAD) b.lockType).table =
      row.table.put () (q.id - HEAD) b.lockType := by
    funext k u
    simp [Row.table, Row.put, LockTable.put]
  rw [htable]
  exact .opened hidle hoff grants_alone hfree hconn (hid.trans (sub_add_head q.id)) hbusy hbuf

theorem handleReader_safe (buf : Text) (hJ : J row) (hJ' : ∀ k, J (row.put k rdlck))
    (hl : reqP.done = true → (buf.take 4 ≠ ['E', 'x', 'i', 't'] ↔ Lost .reader r)) :
    (handleReader buf reqP sl).Safe J (Books .reader reqP sl r row) row := by
  unfold handleReader
  split
  · rename_i hd
    split
    · rename_i he
      refine mylockFunction_unlck_safe hJ fun row' hrow' =>
        ⟨emptyFile, emptyFile, ?_⟩
      rw [hrow']
      refine .released hd (sub_add_head _) (fun hlost => (hl hd).2 hlost he) ?_ ?_
      · simp [afterRead_one, reply, Closed, freeRequest, initRequest]
      · intro nums hc
        have := (commandOf_some hc).1
        cases this
    · rename_i he
      exact lost_safe hd ((hl hd).1 he)
  · rename_i hd
    have hidle : InSession .reader reqP = false := by simpa [InSession] using hd
    simp only []
    split
    · exact idle_safe hidle
    · rename_i hoff
      refine ⟨hJ, fun result => ?_⟩
      simp only []
      split
      · exact idle_safe hidle
      · refine opened_safe (b := .reader) hJ (hJ' _) hidle (by simpa using hoff) (by simp)
          fun temp => ?_
        simp [afterRead_one, reply, listing_ne_exit, InSession]

theorem handleWriterId_safe (buf : Text) (hJ : J row) (hJ' : ∀ k, J (row.put k wrlck))
    (hw : reqP.waitForWrite = true) :
    (handleWriterId buf reqP sl).Safe J (Books .writer reqP sl r row) row := by
  have hidle : InSession .writer reqP = false := by simp [InSession, hw]
  unfold handleWriterId
  simp only []
  split
  · exact idle_safe hidle
  · rename_i hoff
    refine ⟨hJ, fun result => ?_⟩
    simp only []
    split
    · exact idle_safe hidle
    · rename_i hc
      simp only [ne_eq, not_or, not_not] at hc
      refine opened_safe (b := .writer) hJ (hJ' _) hidle (by simpa using hoff) (fun _ => hc.2)
        fun temp => ?_
      simp [afterRead_one, reply, hw, InSession]

theorem handleWriterCommand_safe (buf : Text) (hJ : J row) (hw : reqP.waitForWrite = false)
    (hl : ¬ Lost .writer r) (hc : commandOf .writer reqP r = myatoi buf) :
    (handleWriterCommand buf reqP sl).Safe J (Books .writer reqP sl r row) row := by
  have hbusy : InSession .writer reqP = true := by simp [InSession, hw]
  unfold handleWriterCommand
  split
  · rename_i hnone
    exact released_safe hJ rfl hbusy hl (afterRead_closed _ _) emptyFile
      (by rw [hc, hnone]; simp)
  · rename_i nums hsome
    refine ⟨hJ, fun temp => ?_⟩
    have hcmd : commandOf .writer reqP r = some nums := by rw [hc, hsome]
    simp only []
    split
    · rename_i ho
      refine released_safe hJ rfl hbusy hl (afterRead_closed _ _) (fun _ => temp) ?_
      intro nums' hn
      rw [hcmd] at hn; cases hn
      exact .inl ho
    · rename_i ho
      split
      · rename_i hu
        refine released_safe hJ rfl hbusy hl (afterRead_closed _ _) (fun _ => temp) ?_
        intro nums' hn
        rw [hcmd] at hn; cases hn
        exact .inr hu
      · rename_i hu
        refine ⟨hJ, hJ, fun temp' => mylockFunction_unlck_safe hJ fun row' hrow' =>
          ⟨fun _ => temp, fun k => if k = reqP.id - HEAD then
            { temp with bookingState := fun i => temp.bookingState i + nums i } else temp, ?_⟩⟩
        rw [hrow']
        refine .booked rfl hbusy (sub_add_head _) ?_ hcmd (by simpa using ho) (by simpa using hu)
        simp [afterRead_one, reply, hw, Closed, freeRequest, initRequest]

theorem handleRead_safe (hs : SlotOk b reqP) (hJ : J row) (hJ' : ∀ k, J (row.put k b.lockType)) :
    (handleRead b r reqP sl).Safe J (Books b reqP sl r row) row := by
  have hcase := handleRead_case b r reqP sl
  generalize handleRead b r reqP sl = prog at hcase
  cases hcase with
  | failed hr =>
    refine ⟨emptyFile, emptyFile, ?_⟩
    rw [afterRead_failed]
    exact .failed hr
  | ended hr =>
    cases hi : InSession b reqP with
    | false => exact idle_safe hi
    | true => exact lost_safe hi (hr ▸ trivial)
  | @line bytes _ hne hr hline =>
    subst hr
    cases hline with
    | part => exact trivial
    | interrupt hl _ hid =>
      exact released_safe hJ rfl (hs.busy_of_id hid) (by simp [lost_data hne, hl])
        (afterRead_closed _ _) emptyFile (by simp [commandOf_data hne, hl])
    | interruptIdle _ _ hid => exact idle_safe (hs.idle_of_id hid)
    | reader hl hb =>
      subst hb
      exact handleReader_safe _ hJ hJ' (by simp [lost_data hne, hl])
    | writerId _ hb hw =>
      subst hb
      exact handleWriterId_safe _ hJ hJ' hw
    | writerCommand hl hb hw =>
      subst hb
      exact handleWriterCommand_safe _ hJ hw (by simp [lost_data hne])
        (by simp [commandOf_data hne, hw, hl])

end

/-! ## The sessions between two calls -/

section

variable {P : Type} [DecidableEq P] [Fintype P] {build : P → Build} {w w' : Inter P}

/-- The server as it is once a call of `handle_read` that has made its last system call is over. -/
def Inter.settled (build : P → Build) (w : Inter P) (p : P) : Server :=
  match w.running p with
  | some (fd, .done out) => (w.server p).finish (build p) fd out
  | _ => w.server p

/-- A write session is the only session on its record. -/
def Exclusive (build : P → Build) (w : Inter P) : Prop :=
  ∀ p fd k, build p = .writer → (w.settled build p).Session .writer fd k →
    ∀ q fd', (w.settled build q).Session (build q) fd' k → p = q ∧ fd = fd'

/-- If the next call of the event is an `F_SETLK`, no other process holds a conflicting lock. -/
def Granted (w : Inter P) : InterEvent P → Prop
  | .call p =>
    match w.running p with
    | some (_, .setlk k type _) => w.kernel.locks.Grants p k type
    | _ => True
  | _ => True

instance (e : InterEvent P) : Decidable (Granted w e) := by
  unfold Granted
  split
  · split <;> infer_instance
  · infer_instance

structure Inter.Init (w : Inter P) : Prop where
  init : w.toWorld.Init
  running : ∀ p, w.running p = none

def Inter.row (w : Inter P) (p : P) : Row := fun k => w.kernel.locks k p

/-- What holds of process `p`: between two calls of `handle_read` the invariant of `Sessions`;
inside one, the rest of the program is safe for the books as they were when it started. -/
def Ready (build : P → Build) (w : Inter P) (p : P) : Prop :=
  match w.running p with
  | none => (w.server p).alive = true → (w.server p).Inv (build p) (w.row p)
  | some (fd, prog) => ∃ row r, (w.server p).canServe fd = true ∧ (w.server p).Inv (build p) row ∧
      prog.Safe ((w.server p).Guarded (build p))
        (Books (build p) ((w.server p).requestP fd) (w.server p).selfLock r row) (w.row p)

structure InterInv (build : P → Build) (w : Inter P) : Prop where
  compatible : w.kernel.locks.Compatible
  ready : ∀ p, Ready build w p

theorem ready_congr {p : P} (h : Ready build w p) (hr : w'.running p = w.running p)
    (hs : w'.server p = w.server p) (hrow : w'.row p = w.row p) : Ready build w' p := by
  unfold Ready at h ⊢
  rw [hr, hs, hrow]
  exact h

theorem finish_requestP_of_ne {b : Build} {sv : Server} {fd j : Nat} {out : Outcome} (hj : j ≠ fd) :
    (sv.finish b fd out).requestP j = sv.requestP j := by
  cases out with
  | exit => rfl
  | ret val q sl => simp [Server.finish, hj]

theorem effect_finish {b : Build} {sv : Server} {fd : Nat} {r : ReadResult} {row row' : Row}
    {val : Int} {q : Request} {sl : SelfLock}
    (h : Books b (sv.requestP fd) sv.selfLock r row row' (.ret val q sl)) :
    ∃ file file', Effect b () (sv.requestP fd) sv.selfLock ⟨file, row.table⟩ r
      ((sv.finish b fd (.ret val q sl)).requestP fd) (sv.finish b fd (.ret val q sl)).selfLock
      ⟨file', row'.table⟩ := by
  obtain ⟨file, file', heff⟩ := h
  exact ⟨file, file', by simpa [Server.finish] using heff⟩

/-- The end of a call of `handle_read` brings the process back to the invariant of `Sessions`. -/
theorem inv_finish {b : Build} {sv : Server} {fd : Nat} {r : ReadResult} {row row' : Row}
    {out : Outcome} (hi : sv.Inv b row) (hc : sv.canServe fd = true)
    (h : Books b (sv.requestP fd) sv.selfLock r row row' out)
    (ha : (sv.finish b fd out).alive = true) : (sv.finish b fd out).Inv b row' := by
  obtain ⟨hal, _, _, hopen⟩ := canServe_iff.1 hc
  cases out with
  | exit => cases ha
  | ret val q sl =>
    obtain ⟨file, file', heff⟩ := effect_finish h
    have hr : ∀ j, j ≠ fd → (sv.finish b fd (.ret val q sl)).requestP j = sv.requestP j :=
      fun j hj => finish_requestP_of_ne hj
    exact ⟨heff.slots hi.toSlots hal ha hr hopen,
      hi.toCounts.step (heff.bookkeeping hi.toSlots hal ha hr hopen)⟩

theorem Sys.Safe.now {α : Type} {J : Row → Prop} {Q : Row → α → Prop} {prog : Sys α} {row : Row}
    (h : prog.Safe J Q row) : J row ∨ ∃ a, prog = .done a := by
  cases prog with
  | done a => exact .inr ⟨a, rfl⟩
  | getlk => exact .inl h.1
  | setlk => exact .inl h.1
  | readRec => exact .inl h.1
  | writeRec => exact .inl h.1

/-- Seen from outside, a process always obeys the invariant of `Sessions`, up to a lock it has just
taken, and its sessions hold their locks. -/
theorem Ready.settled {p : P} (h : Ready build w p) (ha : (w.settled build p).alive = true) :
    (w.settled build p).Guarded (build p) (w.row p) ∧
      ∃ row, (w.settled build p).Inv (build p) row := by
  unfold Ready at h
  unfold Inter.settled at ha ⊢
  cases hrun : w.running p with
  | none =>
    simp only [hrun] at h ha ⊢
    exact ⟨(h ha).guarded, _, h ha⟩
  | some x =>
    obtain ⟨fd, prog⟩ := x
    simp only [hrun] at h ha ⊢
    obtain ⟨row, r, hc, hi, hsafe⟩ := h
    rcases hsafe.now with hJ | ⟨out, rfl⟩
    · cases prog with
      | done out =>
        have := inv_finish hi hc hsafe ha
        exact ⟨this.guarded, _, this⟩
      | getlk => exact ⟨hJ, _, hi⟩
      | setlk => exact ⟨hJ, _, hi⟩
      | readRec => exact ⟨hJ, _, hi⟩
      | writeRec => exact ⟨hJ, _, hi⟩
    · have := inv_finish hi hc hsafe ha
      exact ⟨this.guarded, _, this⟩

theorem InterInv.exclusive (hi : InterInv build w) : Exclusive build w := by
  intro p fd k hb hs q fd' hs'
  obtain ⟨hg, row, hinv⟩ := (hi.ready p).settled hs.1
  have hlock : w.kernel.locks k p = wrlck := by
    rw [hb] at hg
    exact hg fd k hs
  have hpq : p = q := by
    by_contra hne
    have hfree := hi.compatible.wrlck_alone hlock (Ne.symm hne)
    have := ((hi.ready q).settled hs'.1).1 fd' k hs'
    simp only [Inter.row, hfree] at this
    cases hbq : build q <;> rw [hbq] at this <;> cases this
  subst hpq
  rw [hb] at hinv hs'
  have hcard : ((w.settled build p).shown .writer k).card ≤ 1 := by
    have := hinv.count k
    have := hinv.single rfl k
    omega
  exact ⟨rfl, Finset.card_le_one.1 hcard fd (hinv.mem_shown_iff.2 hs) fd' (hinv.mem_shown_iff.2 hs')⟩

/-! ## Steps -/

theorem setRunning_self {p : P} {run : Option (Nat × Sys Outcome)} :
    (w.setRunning p run).running p = run := by simp [Inter.setRunning]

theorem setRunning_of_ne {p q : P} {run : Option (Nat × Sys Outcome)} (h : q ≠ p) :
    (w.setRunning p run).running q = w.running q := by simp [Inter.setRunning, h]

/-- What a step can do. -/
inductive InterCase (build : P → Build) (w : Inter P) : InterEvent P → Inter P → Prop where
  | accept {p : P} {fd : Nat} : w.running p = none → (w.server p).canAccept fd = true →
      InterCase build w (.accept p fd)
        { w with toWorld := w.toWorld.setServer p ((w.server p).accept (build p) fd) }
  | recv {p : P} {fd : Nat} {r : ReadResult} : w.running p = none →
      (w.server p).canServe fd = true →
      InterCase build w (.recv p fd r) (w.setRunning p
        (some (fd, handleRead (build p) r ((w.server p).requestP fd) (w.server p).selfLock)))
  | finish {p : P} {fd : Nat} {out : Outcome} : w.running p = some (fd, .done out) →
      InterCase build w (.call p) (Inter.setRunning { w with
        toWorld := { w.toWorld with kernel := w.kernel.finish p out }.setServer p
          ((w.server p).finish (build p) fd out) } p none)
  | call {p : P} {fd : Nat} {prog : Sys Outcome} : w.running p = some (fd, prog) →
      InterCase build w (.call p) (Inter.setRunning { w with kernel := (prog.step p w.kernel).2 } p
        (some (fd, (prog.step p w.kernel).1)))

theorem inter_cases {e : InterEvent P} (h : w.step build e = some w') : InterCase build w e w' := by
  cases e with
  | accept p fd =>
    simp only [Inter.step] at h
    split at h
    · split at h
      · cases h
        exact .accept ‹_› ‹_›
      · cases h
    · cases h
  | recv p fd r =>
    simp only [Inter.step] at h
    split at h
    · split at h
      · cases h
        exact .recv ‹_› ‹_›
      · cases h
    · cases h
  | call p =>
    simp only [Inter.step] at h
    split at h
    · cases h
    · cases h
      exact .finish ‹_›
    · cases h
      exact .call ‹_›

theorem interInv_accept {p : P} {fd : Nat} (hi : InterInv build w) (hrun : w.running p = none)
    (hc : (w.server p).canAccept fd = true) : InterInv build
      { w with toWorld := w.toWorld.setServer p ((w.server p).accept (build p) fd) } := by
  refine ⟨hi.compatible, fun q => ?_⟩
  by_cases hq : q = p
  · subst hq
    have := hi.ready q
    simp only [Ready, hrun] at this ⊢
    intro _
    rw [setServer_self]
    exact (this (canAccept_iff.1 hc).1).accept hc
  · exact ready_congr (hi.ready q) rfl (setServer_of_ne hq) rfl

theorem interInv_recv {p : P} {fd : Nat} (r : ReadResult) (hi : InterInv build w)
    (hrun : w.running p = none) (hc : (w.server p).canServe fd = true) :
    InterInv build (w.setRunning p
      (some (fd, handleRead (build p) r ((w.server p).requestP fd) (w.server p).selfLock))) := by
  refine ⟨hi.compatible, fun q => ?_⟩
  by_cases hq : q = p
  · subst hq
    have hinv := hi.ready q
    simp only [Ready, hrun] at hinv
    obtain ⟨hal, _, _, hopen⟩ := canServe_iff.1 hc
    have hinv := hinv hal
    simp only [Ready, setRunning_self]
    exact ⟨w.row q, r, hc, hinv,
      handleRead_safe (hinv.slot fd hopen) hinv.guarded fun k => hinv.guarded.put k⟩
  · exact ready_congr (hi.ready q) (setRunning_of_ne hq) rfl rfl

/-- A call that changes at most the own locks, in step with the program. -/
theorem interInv_call_of {p : P} {fd : Nat} {prog prog' : Sys Outcome} {s : Kernel P}
    (hi : InterInv build w) (hrun : w.running p = some (fd, prog))
    (hcomp : s.locks.Compatible) (hother : ∀ q, q ≠ p → ∀ k, s.locks k q = w.kernel.locks k q)
    (hsafe : ∀ J Q, prog.Safe J Q (w.row p) → prog'.Safe J Q fun k => s.locks k p) :
    InterInv build (Inter.setRunning { w with kernel := s } p (some (fd, prog'))) := by
  refine ⟨hcomp, fun q => ?_⟩
  by_cases hq : q = p
  · subst hq
    have := hi.ready q
    simp only [Ready, hrun] at this
    obtain ⟨row, r, hc, hinv, hs⟩ := this
    simp only [Ready, setRunning_self]
    exact ⟨row, r, hc, hinv, hsafe _ _ hs⟩
  · exact ready_congr (hi.ready q) (setRunning_of_ne hq) rfl (funext fun k => hother q hq k)

theorem interInv_finish {p : P} {fd : Nat} {out : Outcome} (hi : InterInv build w)
    (hrun : w.running p = some (fd, .done out)) :
    InterInv build (Inter.setRunning { w with
      toWorld := { w.toWorld with kernel := w.kernel.finish p out }.setServer p
        ((w.server p).finish (build p) fd out) } p none) := by
  have hp := hi.ready p
  simp only [Ready, hrun] at hp
  obtain ⟨row, r, hc, hinv, hs⟩ := hp
  refine ⟨?_, fun q => ?_⟩
  · cases out with
    | exit => exact LockTable.dropAll_compatible hi.compatible
    | ret => exact hi.compatible
  · by_cases hq : q = p
    · subst hq
      simp only [Ready, setRunning_self]
      intro ha
      have ha : ((w.server q).finish (build q) fd out).alive = true := by
        simpa [Inter.setRunning, World.setServer] using ha
      have hfin := inv_finish hinv hc hs ha
      cases out with
      | exit => cases ha
      | ret val q' sl =>
        change Server.Inv _ ((World.setServer _ q _).server q) (w.row q)
        rw [setServer_self]
        exact hfin
    · refine ready_congr (hi.ready q) (setRunning_of_ne hq) (setServer_of_ne hq) ?_
      funext k
      cases out with
      | exit => exact LockTable.dropAll_of_ne hq
      | ret => rfl

theorem interInv_call {p : P} {fd : Nat} {prog : Sys Outcome} (hi : InterInv build w)
    (hg : Granted w (.call p)) (hrun : w.running p = some (fd, prog)) :
    InterInv build (Inter.setRunning { w with kernel := (prog.step p w.kernel).2 } p
      (some (fd, (prog.step p w.kernel).1))) := by
  cases prog with
  | done out => exact interInv_call_of hi hrun hi.compatible (fun _ _ _ => rfl) fun _ _ hs => hs
  | getlk k type cont =>
    exact interInv_call_of hi hrun hi.compatible (fun _ _ _ => rfl) fun J Q hs => hs.2 _
  | setlk k type cont =>
    have hgr : w.kernel.locks.Grants p k type := by
      simpa only [Granted, hrun] using hg
    refine interInv_call_of hi hrun (LockTable.setlk_compatible hi.compatible)
      (fun q hq k' => LockTable.setlk_of_ne_process hq) fun J Q hs => ?_
    have hrow : (fun k' => w.kernel.locks.setlk p k type k' p) = (w.row p).put k type := by
      funext k'
      rw [LockTable.setlk_of_grants hgr]
      simp [LockTable.put, Row.put, Inter.row]
    simp only [Sys.step, hrow]
    exact hs.2
  | readRec k cont =>
    exact interInv_call_of hi hrun hi.compatible (fun _ _ _ => rfl) fun J Q hs => hs.2 _
  | writeRec k rec cont =>
    exact interInv_call_of hi hrun hi.compatible (fun _ _ _ => rfl) fun J Q hs => hs.2

theorem InterInv.step {e : InterEvent P} (hi : InterInv build w) (hg : Granted w e)
    (h : w.step build e = some w') : InterInv build w' := by
  cases inter_cases h with
  | accept hrun hc => exact interInv_accept hi hrun hc
  | recv hrun hc => exact interInv_recv _ hi hrun hc
  | finish hrun => exact interInv_finish hi hrun
  | call hrun => exact interInv_call hi hg hrun

theorem Inter.Init.inv (h : w.Init) : InterInv build w := by
  have hi : Inv build w.toWorld := h.init.inv
  refine ⟨hi.compatible, fun p => ?_⟩
  simp only [Ready, h.running p]
  exact hi.alive p

/-- As long as no `F_SETLK` fails, a write session excludes every other session on its record. -/
theorem exclusive_of_granted {w0 : Inter P} {tr : List (Inter P × InterEvent P)} (h0 : w0.Init)
    (h : Run (Inter.step build) w0 tr w) (hg : Meets Granted tr) :
    Always (Exclusive build) tr w := by
  obtain ⟨ha, hw⟩ := h.invariant_of_meets (I := InterInv build) (C := Granted)
    (fun _ _ _ hi hc hs => hi.step hc hs) h0.inv hg
  exact ⟨fun x hx => (ha x hx).exclusive, hw.exclusive⟩

end

/-! ## Concrete runs -/

def freshInter (P : Type) : Inter P := { freshWorld P with running := fun _ => none }

theorem freshInter_init (P : Type) : (freshInter P).Init := ⟨freshWorld_init P, fun _ => rfl⟩

/-- A client connects to process `p` and sends the id of the first record. -/
def arrive {P : Type} (p : P) : List (InterEvent P) :=
  [.accept p 5, .recv p 5 (.data "902001\r\n".toList)]

/-- Two write servers, one after the other: the second finds the record locked. -/
theorem exclusive_of_granted_two :
    Always (Exclusive fun _ => .writer)
      (traceOf (Inter.step fun _ => .writer) (freshInter (Fin 2))
        (arrive 0 ++ [.call 0, .call 0, .call 0, .call 0] ++ arrive 1 ++ [.call 1, .call 1]))
      ((runEvents (Inter.step fun _ => .writer) (freshInter (Fin 2))
        (arrive 0 ++ [.call 0, .call 0, .call 0, .call 0] ++ arrive 1 ++
          [.call 1, .call 1])).getD (freshInter (Fin 2))) :=
  exclusive_of_granted (freshInter_init _) (run_traceOf rfl) (by decide)

/-- Both ask with `F_GETLK` before either takes the lock; the second `F_SETLK` fails unnoticed. -/
def race : List (InterEvent (Fin 2)) :=
  arrive 0 ++ arrive 1 ++ [.call 0, .call 1, .call 0, .call 1, .call 0, .call 1, .call 0, .call 1]

theorem two_writers :
    ¬ ∀ w0 w : Inter (Fin 2), w0.Init → Reachable (Inter.step fun _ => .writer) w0 w →
      Exclusive (fun _ => .writer) w := by
  intro hall
  obtain ⟨w, hw⟩ : ∃ w, runEvents (Inter.step fun _ => .writer) (freshInter (Fin 2)) race = some w :=
    ⟨_, rfl⟩
  have hx := hall _ w (freshInter_init _) (reachable_runEvents hw)
  cases hw
  have := hx 0 5 0 rfl (by decide) 1 5 (by decide)
  exact absurd this.1 (by decide)

end SysProg.Booking
