import SysProg.Booking.Interleave

/-!
# SysProg.Booking.Indices

The record indices that the servers compute, in any order of the system calls of all processes.

* `Sys.InRange`: every call of a program on the record file is on one of the 20 records, and so is
  every entry of `self_lock` that it changes. A call of `mylock_function` shows in one of the two
  (`recordIndex_of_mylockFunction`).
* `handleRead_inRange`: this holds of `handle_read`, if an open slot has an `id` in range or, without
  a session, the `id` 0.
* `indices_in_range`: so it holds in every run; a slot that is closed or accepted again has the `id` 0.

No request has to be granted here.
-/

set_option linter.unusedSectionVars false

namespace SysProg.Booking

open LockType

def RecordIndex (k : CInt) : Prop := 0 ≤ k.toInt ∧ k.toInt < 20

def Sys.InRange (sl : SelfLock) : Sys Outcome → Prop
  | .done .exit => True
  | .done (.ret _ _ sl') => ∀ k, sl' k ≠ sl k → RecordIndex k
  | .getlk k _ cont => RecordIndex k ∧ ∀ type, (cont type).InRange sl
  | .setlk k _ cont => RecordIndex k ∧ cont.InRange sl
  | .readRec k cont => RecordIndex k ∧ ∀ r, (cont r).InRange sl
  | .writeRec k _ cont => RecordIndex k ∧ cont.InRange sl

/-- What the servers work on. -/
structure Indices {P : Type} (w : Inter P) : Prop where
  /-- The rest of a call of `handle_read`, whatever its system calls return. -/
  calls : ∀ p fd prog, w.running p = some (fd, prog) → prog.InRange (w.server p).selfLock
  /-- The `id` that a slot keeps from one call to the next. -/
  slots : ∀ p fd, ((w.server p).requestP fd).id ≠ 0 →
    RecordIndex (((w.server p).requestP fd).id - HEAD)

section

variable {b : Build} {reqP q : Request} {sl sl' : SelfLock} {r : ReadResult} {val : Int}
  {type : LockType}

theorem badOffset_iff {k : CInt} : badOffset k = false ↔ RecordIndex k := by
  unfold badOffset RecordIndex
  simp
  omega

theorem done_inRange : (Sys.done (.ret val q sl)).InRange sl := fun _ hne => absurd rfl hne

theorem updLock_inRange {k : CInt} {v : Int} (hk : RecordIndex k) :
    (Sys.done (.ret val q (updLock sl k v))).InRange sl := by
  intro k' hne
  by_cases hkk : k' = k
  · exact hkk ▸ hk
  · exact absurd (updLock_of_ne hkk) hne

theorem mylockFunction_inRange {cont : SelfLock → Sys Outcome} (hk : RecordIndex (reqP.id - HEAD))
    (h : ∀ v, (cont (updLock sl (reqP.id - HEAD) v)).InRange sl) (h0 : (cont sl).InRange sl) :
    (mylockFunction b reqP sl type cont).InRange sl := by
  cases b with
  | writer => exact ⟨hk, h _⟩
  | reader =>
    cases type with
    | rdlck => exact ⟨hk, h _⟩
    | wrlck => exact h0
    | unlck =>
      simp only [mylockFunction]
      split
      · exact ⟨hk, h _⟩
      · exact h _

/-- A call of `mylock_function` at the end of `handle_read` does not go unseen. -/
theorem recordIndex_of_mylockFunction (ht : b = .reader → type ≠ wrlck)
    (h : (mylockFunction b reqP sl type fun sl => .done (.ret val q sl)).InRange sl) :
    RecordIndex (reqP.id - HEAD) := by
  cases b with
  | writer => exact h.1
  | reader =>
    cases type with
    | rdlck => exact h.1
    | wrlck => exact absurd rfl (ht rfl)
    | unlck =>
      simp only [mylockFunction] at h
      split at h
      · exact h.1
      · refine h (reqP.id - HEAD) ?_
        rw [updLock_self]
        omega

/-! ## handle_read -/

theorem handleReader_inRange (buf : Text) (hs : reqP.done = true → RecordIndex (reqP.id - HEAD)) :
    (handleReader buf reqP sl).InRange sl := by
  unfold handleReader
  split
  · rename_i hd
    split
    · exact mylockFunction_inRange (hs hd) (fun _ => updLock_inRange (hs hd)) done_inRange
    · exact done_inRange
  · simp only []
    split
    · exact done_inRange
    · rename_i hoff
      have hk := badOffset_iff.1 (by simpa using hoff)
      refine ⟨hk, fun result => ?_⟩
      simp only []
      split
      · exact done_inRange
      · exact mylockFunction_inRange hk (fun _ => ⟨hk, fun _ => updLock_inRange hk⟩)
          ⟨hk, fun _ => done_inRange⟩

theorem handleWriterId_inRange (buf : Text) : (handleWriterId buf reqP sl).InRange sl := by
  unfold handleWriterId
  simp only []
  split
  · exact done_inRange
  · rename_i hoff
    have hk := badOffset_iff.1 (by simpa using hoff)
    refine ⟨hk, fun result => ?_⟩
    simp only []
    split
    · exact done_inRange
    · exact mylockFunction_inRange hk (fun _ => ⟨hk, fun _ => updLock_inRange hk⟩)
        ⟨hk, fun _ => done_inRange⟩

theorem handleWriterCommand_inRange (buf : Text) (hk : RecordIndex (reqP.id - HEAD)) :
    (handleWriterCommand buf reqP sl).InRange sl := by
  have hend : ∀ {val : Int} {q : Request},
      (mylockFunction .writer reqP sl unlck fun sl => .done (.ret val q sl)).InRange sl := by
    intro val q
    exact mylockFunction_inRange hk (fun _ => updLock_inRange hk) done_inRange
  unfold handleWriterCommand
  split
  · exact hend
  · refine ⟨hk, fun temp => ?_⟩
    simp only []
    split
    · exact hend
    · split
      · exact hend
      · exact ⟨hk, hk, fun temp' => hend⟩

theorem handleRead_inRange (hs : SlotOk b reqP) : (handleRead b r reqP sl).InRange sl := by
  have hcase := handleRead_case b r reqP sl
  generalize handleRead b r reqP sl = prog at hcase
  cases hcase with
  | failed _ => exact done_inRange
  | ended _ => exact done_inRange
  | line _ _ hline =>
    cases hline with
    | part _ _ => exact trivial
    | interrupt _ _ hid =>
      have hk := badOffset_iff.1 (hs.busy (hs.busy_of_id hid))
      exact mylockFunction_inRange hk (fun _ => updLock_inRange hk) done_inRange
    | interruptIdle _ _ _ => exact done_inRange
    | reader _ hb =>
      subst hb
      exact handleReader_inRange _ fun hd => badOffset_iff.1 (hs.busy hd)
    | writerId _ _ _ => exact handleWriterId_inRange _
    | writerCommand _ hb hw =>
      subst hb
      exact handleWriterCommand_inRange _ (badOffset_iff.1 (hs.busy (by simp [InSession, hw])))

end

/-! ## Runs -/

section

variable {P : Type} [DecidableEq P] [Fintype P] {build : P → Build} {w w' : Inter P} {p : P}

/-- What is left of a call of `handle_read` for slot `fd`. The locks are those the process would hold
if all its requests were granted; the program does not look at them. -/
structure Serving (b : Build) (sv : Server) (fd : Nat) (prog : Sys Outcome) : Prop where
  canServe : sv.canServe fd = true
  inRange : prog.InRange sv.selfLock
  books : ∃ r row row', prog.Safe (fun _ => True) (Books b (sv.requestP fd) sv.selfLock r row) row'

/-- What holds of process `p`, granted or not. -/
structure Sound (build : P → Build) (w : Inter P) (p : P) : Prop where
  slots : (w.server p).Slots (build p)
  serving : ∀ fd prog, w.running p = some (fd, prog) → Serving (build p) (w.server p) fd prog

theorem sound_congr (h : Sound build w p) (hr : w'.running p = w.running p)
    (hs : w'.server p = w.server p) : Sound build w' p := by
  refine ⟨?_, fun fd prog hrun => ?_⟩
  · rw [hs]
    exact h.slots
  · rw [hs]
    rw [hr] at hrun
    exact h.serving fd prog hrun

theorem serving_start {b : Build} {sv : Server} {fd : Nat} (hs : sv.Slots b)
    (hc : sv.canServe fd = true) (r : ReadResult) :
    Serving b sv fd (handleRead b r (sv.requestP fd) sv.selfLock) := by
  obtain ⟨-, -, -, hopen⟩ := canServe_iff.1 hc
  have hok := hs.slot fd hopen
  exact ⟨hc, handleRead_inRange hok, r, fun _ => unlck, fun _ => unlck,
    handleRead_safe hok trivial fun _ => trivial⟩

/-- One system call. -/
theorem Serving.step {b : Build} {sv : Server} {fd : Nat} {prog : Sys Outcome} (s : Kernel P)
    (h : Serving b sv fd prog) : Serving b sv fd (prog.step p s).1 := by
  obtain ⟨hc, hin, r, row, row', hsafe⟩ := h
  cases prog with
  | done out => exact ⟨hc, hin, r, row, row', hsafe⟩
  | getlk k type cont => exact ⟨hc, hin.2 _, r, row, row', hsafe.2 _⟩
  | setlk k type cont => exact ⟨hc, hin.2, r, row, _, hsafe.2⟩
  | readRec k cont => exact ⟨hc, hin.2 _, r, row, row', hsafe.2 _⟩
  | writeRec k rec cont => exact ⟨hc, hin.2, r, row, row', hsafe.2⟩

theorem Serving.finish {b : Build} {sv : Server} {fd : Nat} {out : Outcome} (hs : sv.Slots b)
    (h : Serving b sv fd (.done out)) : (sv.finish b fd out).Slots b := by
  obtain ⟨hc, -, r, row, row', hbooks⟩ := h
  cases out with
  | exit => exact ⟨hs.range, hs.slot, hs.free⟩
  | ret val q sl =>
    obtain ⟨hal, -, -, hopen⟩ := canServe_iff.1 hc
    obtain ⟨file, file', heff⟩ := effect_finish hbooks
    exact heff.slots hs hal hal (fun j hj => finish_requestP_of_ne hj) hopen

/-- Only process `p` takes the step. -/
theorem sound_step_of (hi : ∀ q, Sound build w q) (hp : Sound build w' p)
    (hr : ∀ q, q ≠ p → w'.running q = w.running q)
    (hs : ∀ q, q ≠ p → w'.server q = w.server q) : ∀ q, Sound build w' q := by
  intro q
  by_cases hq : q = p
  · exact hq ▸ hp
  · exact sound_congr (hi q) (hr q hq) (hs q hq)

theorem sound_step {e : InterEvent P} (hi : ∀ q, Sound build w q)
    (h : w.step build e = some w') : ∀ q, Sound build w' q := by
  cases inter_cases h with
  | @accept p fd hrun hc =>
    refine sound_step_of hi ⟨?_, fun fd' prog hrun' => ?_⟩ (fun _ _ => rfl)
      fun q hq => setServer_of_ne hq
    · rw [setServer_self]
      exact ((hi p).slots.accept hc).1
    · rw [hrun] at hrun'
      cases hrun'
  | @recv p fd r _ hc =>
    refine sound_step_of hi ⟨(hi p).slots, fun fd' prog hrun' => ?_⟩
      (fun q hq => setRunning_of_ne hq) fun _ _ => rfl
    rw [setRunning_self] at hrun'
    cases hrun'
    exact serving_start (hi p).slots hc r
  | @finish p fd out hrun =>
    refine sound_step_of hi ⟨?_, fun fd' prog hrun' => ?_⟩ (fun q hq => setRunning_of_ne hq)
      fun q hq => setServer_of_ne hq
    · change Server.Slots _ ((World.setServer _ p _).server p)
      rw [setServer_self]
      exact ((hi p).serving _ _ hrun).finish (hi p).slots
    · rw [setRunning_self] at hrun'
      cases hrun'
  | @call p fd prog hrun =>
    refine sound_step_of hi ⟨(hi p).slots, fun fd' prog' hrun' => ?_⟩
      (fun q hq => setRunning_of_ne hq) fun _ _ => rfl
    rw [setRunning_self] at hrun'
    cases hrun'
    exact ((hi p).serving _ _ hrun).step w.kernel

theorem Inter.Init.sound (h : w.Init) : ∀ q, Sound build w q := by
  intro q
  have hf := h.init.fresh q
  refine ⟨⟨fun fd hc => ?_, fun fd hc => ?_, fun fd _ => hf.id fd⟩, fun fd prog hrun => ?_⟩
  · exact absurd (hf.connFd fd) hc
  · exact absurd (hf.connFd fd) hc
  · rw [h.running q] at hrun
    cases hrun

theorem indices_of_sound (h : ∀ q, Sound build w q) : Indices w := by
  constructor
  · intro p fd prog hrun
    exact ((h p).serving fd prog hrun).inRange
  · intro p fd hid
    have hopen : ((w.server p).requestP fd).connFd ≠ -1 := fun hc => hid ((h p).slots.free fd hc)
    have hok := (h p).slots.slot fd hopen
    exact badOffset_iff.1 (hok.busy (hok.busy_of_id hid))

/-- Whatever the clients send and however the system calls of the processes interleave, the servers
only touch the 20 records. -/
theorem indices_in_range {w0 : Inter P} {tr : List (Inter P × InterEvent P)} (h0 : w0.Init)
    (h : Run (Inter.step build) w0 tr w) : Always Indices tr w := by
  obtain ⟨ha, hw⟩ := h.invariant_of_meets (I := fun w => ∀ q, Sound build w q)
    (C := fun _ _ => True) (fun _ _ _ hi _ hs => sound_step hi hs) h0.sound fun _ _ => trivial
  exact ⟨fun x hx => indices_of_sound (ha x hx), indices_of_sound hw⟩

end

/-- A refused id whose difference to `HEAD` wraps around; then a session in the same slot that ends
with Ctrl-C. -/
def reuseAndInterrupt : List (InterEvent (Fin 2)) :=
  [.accept 0 5, .recv 0 5 (.data "-2147483648\n".toList), .call 0] ++ arrive 0 ++
    List.replicate 4 (.call 0) ++ [.recv 0 5 (.data IAC_IP), .call 0, .call 0]

theorem indices_in_range_two :
    Always Indices
      (traceOf (Inter.step fun _ => .reader) (freshInter (Fin 2)) reuseAndInterrupt)
      ((runEvents (Inter.step fun _ => .reader) (freshInter (Fin 2)) reuseAndInterrupt).getD
        (freshInter (Fin 2))) :=
  indices_in_range (freshInter_init _) (run_traceOf rfl)

end SysProg.Booking
