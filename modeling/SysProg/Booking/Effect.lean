import SysProg.Booking.World

/-!
# SysProg.Booking.Effect

What one call of `handle_read`, with what `main` does after it, can change. `Effect` lists the
cases for both builds at once; `handle_effect` shows that there are no others. The invariants of
the servers are proved from these cases, never from the code of `handleRead`. `ReadCase` and
`LineCase` tell which part of `handleRead` runs.

* `refused`: a connection without a session is closed; nothing else changes.
* `opened`: a session starts, with the lock and with the listing of the record in `buf`.
* `released`: a session ends and gives its lock back, and the record is as before.
* `booked`: a session ends with an accepted command.
* `lost`: a session ends, and the lock stays.
-/

set_option linter.unusedSectionVars false

namespace SysProg.Booking

open LockType

def Build.lockType : Build → LockType
  | .writer => wrlck
  | .reader => rdlck

/-- `self_lock` of a record after `mylock_function` took its lock, from the value before. -/
def Build.taken : Build → Int → Int
  | .writer, _ => 1
  | .reader, v => v + 1

/-- `self_lock` of a record after `mylock_function` with `F_UNLCK`. -/
def Build.given : Build → Int → Int
  | .writer, _ => 0
  | .reader, v => v - 1

def unlock {P : Type} [DecidableEq P] (b : Build) (t : LockTable P CInt) (p : P) (k : CInt)
    (v : Int) : LockTable P CInt :=
  if b = .reader ∧ v - 1 ≠ 0 then t else t.put p k unlck

/-- The string that `handle_read` finds in its buffer. -/
def lineOf (bytes : Text) : Text := cstr (bytes.take 512)

def isLine (buf : Text) : Bool := strstr buf ['\r', '\n'] || strstr buf ['\n']

/-- The command that the chunk submits, when `handle_read` of the write server parses one. -/
def commandOf (b : Build) (reqP : Request) : ReadResult → Option (Fin 3 → CInt)
  | .error => none
  | .data [] => none
  | .data bytes =>
    if b = .writer ∧ reqP.waitForWrite = false ∧ isLine (lineOf bytes) = true then
      myatoi (lineOf bytes)
    else none

/-- A chunk that ends a session without giving the lock back: the end of the stream, or, in the
read server, a line other than `Exit`. -/
def Lost (b : Build) : ReadResult → Prop
  | .error => False
  | .data [] => True
  | .data bytes => b = .reader ∧ isLine (lineOf bytes) = true ∧
      (lineOf bytes).take 4 ≠ ['E', 'x', 'i', 't']

instance (b : Build) (r : ReadResult) : Decidable (Lost b r) := by
  unfold Lost; split <;> infer_instance

def Closed (reqP : Request) : Prop := reqP.connFd = -1 ∧ reqP.id = 0

/-- An open slot: without a session its `id` is 0, in a session it is the id of a record. -/
structure SlotOk (b : Build) (reqP : Request) : Prop where
  idle : InSession b reqP = false → reqP.id = 0
  busy : InSession b reqP = true → badOffset (reqP.id - HEAD) = false

inductive Effect {P : Type} [DecidableEq P] [Fintype P] (b : Build) (p : P) (reqP : Request)
    (sl : SelfLock) (s : Kernel P) (r : ReadResult) : Request → SelfLock → Kernel P → Prop where
  | failed : r = .error → Effect b p reqP sl s r reqP sl s
  | refused {reqP' : Request} : InSession b reqP = false → Closed reqP' →
      Effect b p reqP sl s r reqP' sl s
  | lost {reqP' : Request} : InSession b reqP = true → Lost b r → Closed reqP' →
      Effect b p reqP sl s r reqP' sl s
  | opened {reqP' : Request} {k : CInt} : InSession b reqP = false → badOffset k = false →
      s.locks.Grants p k b.lockType → (b = .writer → sl k ≠ 1) →
      reqP'.connFd = reqP.connFd → reqP'.id = HEAD + k → InSession b reqP' = true →
      reqP'.buf = listing (s.file k).bookingState →
      Effect b p reqP sl s r reqP' (updLock sl k (b.taken (sl k)))
        { s with locks := s.locks.put p k b.lockType }
  | released {reqP' : Request} {k : CInt} : InSession b reqP = true → reqP.id = HEAD + k →
      ¬ Lost b r → Closed reqP' →
      (∀ nums, commandOf b reqP r = some nums →
        overLimit (s.file k).bookingState nums = true ∨ underZero (s.file k).bookingState nums = true) →
      Effect b p reqP sl s r reqP' (updLock sl k (b.given (sl k)))
        { s with locks := unlock b s.locks p k (sl k) }
  | booked {reqP' : Request} {k : CInt} {nums : Fin 3 → CInt} : b = .writer →
      InSession b reqP = true → reqP.id = HEAD + k → Closed reqP' →
      commandOf b reqP r = some nums → overLimit (s.file k).bookingState nums = false →
      underZero (s.file k).bookingState nums = false →
      Effect b p reqP sl s r reqP' (updLock sl k 0)
        { file := fun k' => if k' = k then
            { s.file k with bookingState := fun i => (s.file k).bookingState i + nums i }
            else s.file k'
          locks := s.locks.put p k unlck }

section

variable {P : Type} [DecidableEq P] [Fintype P] {b : Build} {p : P} {reqP reqP' : Request}
  {sl sl' : SelfLock} {s s' : Kernel P} {r : ReadResult}

theorem unlock_of_ne_process {t : LockTable P CInt} {q : P} {k k' : CInt} {v : Int} (hq : q ≠ p) :
    unlock b t p k v k' q = t k' q := by
  unfold unlock
  split
  · rfl
  · exact LockTable.put_of_ne_process hq

theorem unlock_of_ne_region {t : LockTable P CInt} {q : P} {k k' : CInt} {v : Int} (hk : k' ≠ k) :
    unlock b t p k v k' q = t k' q := by
  unfold unlock
  split
  · rfl
  · exact LockTable.put_of_ne_region hk

theorem Effect.locks_other (h : Effect b p reqP sl s r reqP' sl' s') {q : P} (hq : q ≠ p)
    (k : CInt) : s'.locks k q = s.locks k q := by
  cases h with
  | failed _ => rfl
  | refused _ _ => rfl
  | lost _ _ _ => rfl
  | opened => exact LockTable.put_of_ne_process hq
  | released => exact unlock_of_ne_process hq
  | booked => exact LockTable.put_of_ne_process hq

theorem Effect.compatible (h : Effect b p reqP sl s r reqP' sl' s') (hc : s.locks.Compatible) :
    s'.locks.Compatible := by
  cases h with
  | failed _ => exact hc
  | refused _ _ => exact hc
  | lost _ _ _ => exact hc
  | opened _ _ hg => exact LockTable.put_compatible hc hg
  | released =>
    simp only [unlock]
    split
    · exact hc
    · exact LockTable.put_compatible hc LockTable.grants_unlck
  | booked => exact LockTable.put_compatible hc LockTable.grants_unlck

end

/-! ## main -/

theorem reply_closed (b : Build) {reqP : Request} (h : Closed reqP) : Closed (reply b reqP).1 := by
  have hfree : Closed (freeRequest reqP) := ⟨rfl, rfl⟩
  cases b with
  | reader =>
    simp only [reply]
    by_cases hb : reqP.buf = ['E', 'x', 'i', 't']
    · rw [if_pos hb]; exact hfree
    · rw [if_neg hb]; exact h
  | writer =>
    simp only [reply]
    by_cases hw : reqP.waitForWrite = true
    · rw [if_pos hw]; exact h
    · rw [if_neg hw]; exact hfree

theorem afterRead_closed (b : Build) {val : Int} (reqP : Request) (h1 : val ≠ 1 := by decide)
    (h0 : 0 ≤ val := by decide) : Closed (afterRead b val reqP).1 := by
  simp only [afterRead, if_neg h1, if_neg (by omega : ¬ val < 0)]
  exact reply_closed b ⟨rfl, rfl⟩

theorem afterRead_failed (b : Build) (reqP : Request) : (afterRead b (-1) reqP).1 = reqP := by
  simp [afterRead]

theorem afterRead_one (b : Build) (reqP : Request) : afterRead b 1 reqP = reply b reqP := by
  simp [afterRead]

theorem listing_ne_exit (b : Fin 3 → CInt) : listing b ≠ ['E', 'x', 'i', 't'] := by
  have hf : "Food: ".toList = ['F', 'o', 'o', 'd', ':', ' '] := by decide
  unfold listing bookings
  rw [hf]
  intro h
  cases h

/-! ## The locks -/

section

variable {P : Type} [DecidableEq P] [Fintype P] {α : Type}

theorem exec_mylockFunction_unlck (b : Build) (reqP : Request) (sl : SelfLock)
    (cont : SelfLock → Sys α) (p : P) (s : Kernel P) :
    (mylockFunction b reqP sl unlck cont).exec p s =
      (cont (updLock sl (reqP.id - HEAD) (b.given (sl (reqP.id - HEAD))))).exec p
        { s with locks := unlock b s.locks p (reqP.id - HEAD) (sl (reqP.id - HEAD)) } := by
  cases b
  · by_cases h : sl (reqP.id - HEAD) - 1 = 0
    · simp [mylockFunction, unlock, Build.given, h, Sys.exec]
    · simp [mylockFunction, unlock, Build.given, h]
  · simp [mylockFunction, unlock, Build.given, Sys.exec]

theorem exec_mylockFunction_lock (b : Build) (reqP : Request) (sl : SelfLock)
    (cont : SelfLock → Sys α) (p : P) (s : Kernel P)
    (h : s.locks.Grants p (reqP.id - HEAD) b.lockType) :
    (mylockFunction b reqP sl b.lockType cont).exec p s =
      (cont (updLock sl (reqP.id - HEAD) (b.taken (sl (reqP.id - HEAD))))).exec p
        { s with locks := s.locks.put p (reqP.id - HEAD) b.lockType } := by
  cases b with
  | reader =>
    simp only [Build.lockType] at h
    simp only [mylockFunction, Build.lockType, Build.taken, Sys.exec, LockTable.setlk_of_grants h]
  | writer =>
    simp only [Build.lockType] at h
    simp only [mylockFunction, Build.lockType, Build.taken, Sys.exec, LockTable.setlk_of_grants h,
      reduceCtorEq, if_false]

end

theorem sub_add_head (i : CInt) : i = HEAD + (i - HEAD) := by
  rw [BitVec.add_comm]; exact (BitVec.sub_add_cancel i HEAD).symm

/-! ## Which part of handle_read runs -/

/-- `handleLine`, by what is in `buf` and the phase of the request. -/
inductive LineCase (b : Build) (buf : Text) (reqP : Request) (sl : SelfLock) : Sys Outcome → Prop where
  | part : isLine buf = false → buf.take 2 ≠ IAC_IP → LineCase b buf reqP sl (.done .exit)
  | interrupt : isLine buf = false → buf.take 2 = IAC_IP → reqP.id ≠ 0 →
      LineCase b buf reqP sl (mylockFunction b reqP sl unlck fun sl => .done (.ret 5 reqP sl))
  | interruptIdle : isLine buf = false → buf.take 2 = IAC_IP → reqP.id = 0 →
      LineCase b buf reqP sl (.done (.ret 5 reqP sl))
  | reader : isLine buf = true → b = .reader → LineCase b buf reqP sl (handleReader buf reqP sl)
  | writerId : isLine buf = true → b = .writer → reqP.waitForWrite = true →
      LineCase b buf reqP sl (handleWriterId buf reqP sl)
  | writerCommand : isLine buf = true → b = .writer → reqP.waitForWrite = false →
      LineCase b buf reqP sl (handleWriterCommand buf reqP sl)

inductive ReadCase (b : Build) (r : ReadResult) (reqP : Request) (sl : SelfLock) :
    Sys Outcome → Prop where
  | failed : r = .error → ReadCase b r reqP sl (.done (.ret (-1) reqP sl))
  | ended : r = .data [] → ReadCase b r reqP sl (.done (.ret 0 reqP sl))
  | line {bytes : Text} {prog : Sys Outcome} : bytes ≠ [] → r = .data bytes →
      LineCase b (lineOf bytes) reqP sl prog → ReadCase b r reqP sl prog

section

variable {b : Build} {reqP : Request} {sl : SelfLock} {bytes : Text}

theorem handleLine_case (b : Build) (buf : Text) (reqP : Request) (sl : SelfLock) :
    LineCase b buf reqP sl (handleLine b buf reqP sl) := by
  have hnl : (!strstr buf ['\r', '\n'] && !strstr buf ['\n']) = !isLine buf := (Bool.not_or ..).symm
  unfold handleLine
  rw [hnl]
  cases hl : isLine buf with
  | false =>
    rw [if_pos Bool.not_false]
    split
    · split
      · exact .interrupt hl ‹_› ‹_›
      · exact .interruptIdle hl ‹_› (not_not.1 ‹_›)
    · exact .part hl ‹_›
  | true =>
    rw [if_neg (by simp)]
    cases b with
    | reader => exact .reader hl rfl
    | writer =>
      simp only []
      split
      · exact .writerId hl rfl ‹_›
      · rename_i hw
        exact .writerCommand hl rfl (by simpa using hw)

theorem handleRead_data (hne : bytes ≠ []) :
    handleRead b (.data bytes) reqP sl = handleLine b (lineOf bytes) reqP sl := by
  cases bytes with
  | nil => exact (hne rfl).elim
  | cons c cs => rfl

theorem handleRead_case (b : Build) (r : ReadResult) (reqP : Request) (sl : SelfLock) :
    ReadCase b r reqP sl (handleRead b r reqP sl) := by
  cases r with
  | error => exact .failed rfl
  | data bytes =>
    by_cases hne : bytes = []
    · subst hne
      exact .ended rfl
    · rw [handleRead_data hne]
      exact .line hne rfl (handleLine_case _ _ _ _)

theorem commandOf_data (hne : bytes ≠ []) : commandOf b reqP (.data bytes) =
    if b = .writer ∧ reqP.waitForWrite = false ∧ isLine (lineOf bytes) = true then
      myatoi (lineOf bytes)
    else none := by
  cases bytes with
  | nil => exact (hne rfl).elim
  | cons c cs => rfl

theorem lost_data (hne : bytes ≠ []) : Lost b (.data bytes) ↔ b = .reader ∧
    isLine (lineOf bytes) = true ∧ (lineOf bytes).take 4 ≠ ['E', 'x', 'i', 't'] := by
  cases bytes with
  | nil => exact (hne rfl).elim
  | cons c cs => exact Iff.rfl

theorem SlotOk.busy_of_id (h : SlotOk b reqP) (hid : reqP.id ≠ 0) : InSession b reqP = true := by
  cases hi : InSession b reqP with
  | true => rfl
  | false => exact absurd (h.idle hi) hid

theorem SlotOk.idle_of_id (h : SlotOk b reqP) (hid : reqP.id = 0) : InSession b reqP = false := by
  cases hi : InSession b reqP with
  | false => rfl
  | true =>
    have hoff := h.busy hi
    rw [hid] at hoff
    exact absurd hoff (by decide)

end

/-! ## The cases of handle_read -/

section

variable {P : Type} [DecidableEq P] [Fintype P] {p : P} {reqP : Request} {sl : SelfLock}
  {s s' : Kernel P} {r : ReadResult} {out : Outcome}

/-- What the outcome of `handle_read` makes of the slot, the table and the locks. -/
def EffectOut (b : Build) (p : P) (reqP : Request) (sl : SelfLock) (s : Kernel P) (r : ReadResult) :
    Outcome → Kernel P → Prop
  | .exit, s' => s' = s ∧ ¬ Lost b r ∧ commandOf b reqP r = none
  | .ret val reqP' sl', s' => Effect b p reqP sl s r (afterRead b val reqP').1 sl' s'

theorem handleReader_effect (buf : Text)
    (hl : reqP.done = true → (buf.take 4 ≠ ['E', 'x', 'i', 't'] ↔ Lost .reader r))
    (h : (handleReader buf reqP sl).exec p s = (out, s')) :
    EffectOut .reader p reqP sl s r out s' := by
  unfold handleReader at h
  split at h
  · rename_i hd
    split at h
    · rename_i he
      rw [exec_mylockFunction_unlck] at h
      simp only [Sys.exec, Prod.mk.injEq] at h
      obtain ⟨rfl, rfl⟩ := h
      refine .released hd (sub_add_head reqP.id) (fun hlost => (hl hd).2 hlost he) ?_ ?_
      · simp [afterRead_one, reply, Closed, freeRequest, initRequest]
      · intro nums hc; cases r with
        | error => cases hc
        | data bytes => cases bytes <;> simp [commandOf] at hc
    · rename_i he
      simp only [Sys.exec, Prod.mk.injEq] at h
      obtain ⟨rfl, rfl⟩ := h
      exact .lost hd ((hl hd).1 he) (afterRead_closed _ _)
  · rename_i hd
    have hidle : InSession .reader reqP = false := by simpa [InSession] using hd
    simp only [] at h
    split at h
    · simp only [Sys.exec, Prod.mk.injEq] at h
      obtain ⟨rfl, rfl⟩ := h
      exact .refused hidle (afterRead_closed _ _)
    · rename_i hoff
      simp only [mylockCheck, Sys.exec] at h
      split at h
      · simp only [Sys.exec, Prod.mk.injEq] at h
        obtain ⟨rfl, rfl⟩ := h
        exact .refused hidle (afterRead_closed _ _)
      · rename_i hw
        have hg := LockTable.getlk_rdlck_ne_wrlck.1 hw
        rw [show rdlck = Build.lockType .reader from rfl, exec_mylockFunction_lock _ _ _ _ _ _ hg] at h
        simp only [Sys.exec, Prod.mk.injEq] at h
        obtain ⟨rfl, rfl⟩ := h
        simp only [EffectOut, afterRead_one, reply, if_neg (listing_ne_exit _)]
        exact .opened hidle (by simpa using hoff) hg (by simp) rfl (sub_add_head _) rfl rfl

theorem handleWriterId_effect (buf : Text) (hw : reqP.waitForWrite = true)
    (h : (handleWriterId buf reqP sl).exec p s = (out, s')) :
    EffectOut .writer p reqP sl s r out s' := by
  have hidle : InSession .writer reqP = false := by simp [InSession, hw]
  unfold handleWriterId at h
  simp only [] at h
  split at h
  · simp only [Sys.exec, Prod.mk.injEq] at h
    obtain ⟨rfl, rfl⟩ := h
    exact .refused hidle (afterRead_closed _ _)
  · rename_i hoff
    simp only [mylockCheck, Sys.exec] at h
    split at h
    · simp only [Sys.exec, Prod.mk.injEq] at h
      obtain ⟨rfl, rfl⟩ := h
      exact .refused hidle (afterRead_closed _ _)
    · rename_i hc
      simp only [ne_eq, not_or, not_not] at hc
      have hg := LockTable.getlk_eq_unlck.1 hc.1
      rw [show wrlck = Build.lockType .writer from rfl, exec_mylockFunction_lock _ _ _ _ _ _ hg] at h
      simp only [Sys.exec, Prod.mk.injEq] at h
      obtain ⟨rfl, rfl⟩ := h
      simp only [EffectOut, afterRead_one, reply, hw, if_true]
      exact .opened hidle (by simpa using hoff) hg (fun _ => hc.2) rfl (sub_add_head _) rfl rfl

theorem handleWriterCommand_effect (buf : Text) (hw : reqP.waitForWrite = false)
    (hl : ¬ Lost .writer r) (hc : commandOf .writer reqP r = myatoi buf)
    (h : (handleWriterCommand buf reqP sl).exec p s = (out, s')) :
    EffectOut .writer p reqP sl s r out s' := by
  have hbusy : InSession .writer reqP = true := by simp [InSession, hw]
  have hid := sub_add_head reqP.id
  unfold handleWriterCommand at h
  split at h
  · rename_i hnone
    rw [exec_mylockFunction_unlck] at h
    simp only [Sys.exec, Prod.mk.injEq] at h
    obtain ⟨rfl, rfl⟩ := h
    exact .released hbusy hid hl (afterRead_closed _ _)
      (by rw [hc, hnone]; simp)
  · rename_i nums hsome
    simp only [Sys.exec] at h
    have hcmd : commandOf .writer reqP r = some nums := by rw [hc, hsome]
    split at h
    · rename_i ho
      rw [exec_mylockFunction_unlck] at h
      simp only [Sys.exec, Prod.mk.injEq] at h
      obtain ⟨rfl, rfl⟩ := h
      refine .released hbusy hid hl (afterRead_closed _ _) ?_
      intro nums' hn
      rw [hcmd] at hn; cases hn
      exact .inl ho
    · rename_i ho
      split at h
      · rename_i hu
        rw [exec_mylockFunction_unlck] at h
        simp only [Sys.exec, Prod.mk.injEq] at h
        obtain ⟨rfl, rfl⟩ := h
        refine .released hbusy hid hl (afterRead_closed _ _) ?_
        intro nums' hn
        rw [hcmd] at hn; cases hn
        exact .inr hu
      · rename_i hu
        simp only [Sys.exec, exec_mylockFunction_unlck, Prod.mk.injEq] at h
        obtain ⟨rfl, rfl⟩ := h
        have hcl : Closed (afterRead .writer 1
            { reqP with buf := bookings fun i =>
                (s.file (reqP.id - HEAD)).bookingState i + nums i }).1 := by
          simp [afterRead_one, reply, hw, Closed, freeRequest, initRequest]
        have hb : Effect .writer p reqP sl s r _ _ _ :=
          .booked rfl hbusy hid hcl hcmd (by simpa using ho) (by simpa using hu)
        simpa [EffectOut, unlock, Build.given] using hb

theorem handle_effect {b : Build} (hs : SlotOk b reqP)
    (h : (handleRead b r reqP sl).exec p s = (out, s')) : EffectOut b p reqP sl s r out s' := by
  have hcase := handleRead_case b r reqP sl
  generalize handleRead b r reqP sl = prog at h hcase
  cases hcase with
  | failed hr =>
    cases h
    simp only [EffectOut, afterRead_failed]
    exact .failed hr
  | ended hr =>
    cases h
    have hcl : Closed (afterRead b 0 reqP).1 := afterRead_closed b reqP
    cases hi : InSession b reqP with
    | false => exact .refused hi hcl
    | true => exact .lost hi (hr ▸ trivial) hcl
  | @line bytes _ hne hr hline =>
    subst hr
    cases hline with
    | part hl _ =>
      cases h
      exact ⟨rfl, by simp [lost_data hne, hl], by simp [commandOf_data hne, hl]⟩
    | interrupt hl _ hid =>
      rw [exec_mylockFunction_unlck] at h
      cases h
      exact .released (hs.busy_of_id hid) (sub_add_head _) (by simp [lost_data hne, hl])
        (afterRead_closed _ _) (by simp [commandOf_data hne, hl])
    | interruptIdle _ _ hid =>
      cases h
      exact .refused (hs.idle_of_id hid) (afterRead_closed _ _)
    | reader hl hb =>
      subst hb
      exact handleReader_effect _ (by simp [lost_data hne, hl]) h
    | writerId _ hb hw =>
      subst hb
      exact handleWriterId_effect _ hw h
    | writerCommand hl hb hw =>
      subst hb
      exact handleWriterCommand_effect _ hw (by simp [lost_data hne])
        (by simp [commandOf_data hne, hw, hl]) h

end

end SysProg.Booking
