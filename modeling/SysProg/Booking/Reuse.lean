import SysProg.Booking.Interleave

/-!
# SysProg.Booking.Reuse

The slots of the table `requestP`. When a connection has been closed, `main` goes on to the code
for a line that was read successfully, on a slot that is free by then.

* `afterReadContinue`: `main` with a `continue` after `free_request`.
* `Alike`: two slots of which the servers make the same. `buf` is dead in every slot between two
  lines; the flag that tells the phase of a session is dead in a free slot, since `accept` sets it;
  `id` is not, since only `free_request` resets it.
* `step_alike`: alike servers take the same steps, with or without the `continue`.
* `fallthrough_harmless`: so the `continue` makes no difference, and a slot that was in use before
  is as good as a new one.
-/

set_option linter.unusedSectionVars false

namespace SysProg.Booking

/-! ## main with a continue -/

/-- What `main` writes to a connection that it closes. -/
def closingMsg (ret : Int) (fd : Int) : Sent :=
  match errorReply ret with
  | some text => send fd text
  | none => []

/-- `afterRead` with a `continue` after `free_request`. -/
def afterReadContinue (b : Build) (ret : Int) (reqP : Request) : Request × Sent :=
  if ret = 1 then reply b reqP
  else if ret < 0 then (reqP, [])
  else (freeRequest reqP, closingMsg ret reqP.connFd)

abbrev After := Build → Int → Request → Request × Sent

def Server.finishWith (after : After) (b : Build) (fd : Nat) (sv : Server) : Outcome → Server
  | .exit => { sv with alive := false }
  | .ret val reqP selfLock =>
    { sv with
      selfLock := selfLock
      requestP := fun j => if j = fd then (after b val reqP).1 else sv.requestP j
      sent := sv.sent ++ (after b val reqP).2 }

section

variable {P : Type} [DecidableEq P] [Fintype P]

/-- `Inter.step`, with `after` for what `main` does with the result of `handle_read`. -/
def Inter.stepWith (after : After) (build : P → Build) (w : Inter P) : InterEvent P → Option (Inter P)
  | .accept p fd => w.step build (.accept p fd)
  | .recv p fd r => w.step build (.recv p fd r)
  | .call p =>
    match w.running p with
    | some (fd, .done out) =>
      some ({ w with
        toWorld := { w.toWorld with kernel := w.kernel.finish p out }.setServer p
          ((w.server p).finishWith after (build p) fd out) }.setRunning p none)
    | _ => w.step build (.call p)

def Inter.stepContinue (build : P → Build) (w : Inter P) : InterEvent P → Option (Inter P) :=
  w.stepWith afterReadContinue build

theorem stepWith_afterRead (build : P → Build) (w : Inter P) (e : InterEvent P) :
    w.stepWith afterRead build e = w.step build e := by
  cases e with
  | accept p fd => rfl
  | recv p fd r => rfl
  | call p =>
    simp only [Inter.stepWith]
    split
    · rename_i fd out hrun
      simp only [Inter.step, hrun]
      cases out <;> rfl
    · rfl

end

/-! ## Slots that make no difference -/

structure Alike (b : Build) (q q' : Request) : Prop where
  connFd : q.connFd = q'.connFd
  id : q.id = q'.id
  free : q.connFd = -1 → q.id = 0
  phase : q.connFd ≠ -1 → InSession b q = InSession b q'

/-- The requests that `handle_read` returns for two alike slots. -/
inductive Outcome.Alike (b : Build) : Outcome → Outcome → Prop
  | exit : Outcome.Alike b .exit .exit
  | ret {val : Int} {q q' : Request} {sl : SelfLock} : q.connFd ≠ -1 → Booking.Alike b q q' →
      (val = 1 → q.buf = q'.buf) → Outcome.Alike b (.ret val q sl) (.ret val q' sl)

/-- The same system calls, with alike outcomes. -/
inductive Sys.Alike (b : Build) : Sys Outcome → Sys Outcome → Prop
  | done {out out' : Outcome} : out.Alike b out' → Sys.Alike b (.done out) (.done out')
  | getlk {k : CInt} {type : LockType} {cont cont' : LockType → Sys Outcome} :
      (∀ t, Sys.Alike b (cont t) (cont' t)) → Sys.Alike b (.getlk k type cont) (.getlk k type cont')
  | setlk {k : CInt} {type : LockType} {cont cont' : Sys Outcome} :
      Sys.Alike b cont cont' → Sys.Alike b (.setlk k type cont) (.setlk k type cont')
  | readRec {k : CInt} {cont cont' : Record → Sys Outcome} :
      (∀ r, Sys.Alike b (cont r) (cont' r)) → Sys.Alike b (.readRec k cont) (.readRec k cont')
  | writeRec {k : CInt} {r : Record} {cont cont' : Sys Outcome} :
      Sys.Alike b cont cont' → Sys.Alike b (.writeRec k r cont) (.writeRec k r cont')

section

variable {b : Build} {q q' : Request} {sl : SelfLock}

theorem alike_closed (h : Closed q) (h' : Closed q') : Alike b q q' :=
  ⟨h.1.trans h'.1.symm, h.2.trans h'.2.symm, fun _ => h.2, fun ho => (ho h.1).elim⟩

theorem Alike.waitForWrite (h : Alike .writer q q') (ho : q.connFd ≠ -1) :
    q.waitForWrite = q'.waitForWrite := by
  have hp := h.phase ho
  simpa [InSession] using hp

theorem Alike.setId (h : Alike b q q') (ho : q.connFd ≠ -1) (id : CInt) :
    Alike b { q with id := id } { q' with id := id } :=
  ⟨h.connFd, rfl, fun hc => (ho hc).elim, fun _ => by
    have hp := h.phase ho
    cases b <;> exact hp⟩

theorem Alike.setBuf (h : Alike b q q') (buf buf' : Text) :
    Alike b { q with buf := buf } { q' with buf := buf' } :=
  ⟨h.connFd, h.id, h.free, fun ho => by
    have hp := h.phase ho
    cases b <;> exact hp⟩

theorem mylockFunction_alike (h : Alike b q q') (type : LockType) {cont cont' : SelfLock → Sys Outcome}
    (hcont : ∀ sl, (cont sl).Alike b (cont' sl)) :
    (mylockFunction b q sl type cont).Alike b (mylockFunction b q' sl type cont') := by
  simp only [mylockFunction, h.id]
  cases b with
  | writer => exact .setlk (hcont _)
  | reader =>
    cases type with
    | rdlck => exact .setlk (hcont _)
    | wrlck => exact hcont _
    | unlck =>
      simp only []
      split
      · exact .setlk (hcont _)
      · exact hcont _

theorem ret_alike {val : Int} (h : Alike b q q') (ho : q.connFd ≠ -1) (hval : val ≠ 1) :
    Sys.Alike b (.done (.ret val q sl)) (.done (.ret val q' sl)) :=
  .done (.ret ho h fun e => (hval e).elim)

theorem shown_alike (h : Alike b q q') (ho : q.connFd ≠ -1) (buf : Text) :
    Sys.Alike b (.done (.ret 1 { q with buf := buf } sl)) (.done (.ret 1 { q' with buf := buf } sl)) :=
  .done (.ret ho (h.setBuf buf buf) fun _ => rfl)

theorem handleReader_alike (h : Alike .reader q q') (ho : q.connFd ≠ -1) (buf : Text) :
    (handleReader buf q sl).Alike .reader (handleReader buf q' sl) := by
  have hdone : q.done = q'.done := h.phase ho
  have hid := h.setId ho (atoi buf)
  unfold handleReader
  by_cases hd : q.done = true
  · have hd' : q'.done = true := hdone ▸ hd
    rw [if_pos hd, if_pos hd']
    split
    · exact mylockFunction_alike h _ fun sl => shown_alike h ho _
    · exact ret_alike h ho (by decide)
  · have hd' : ¬ q'.done = true := hdone ▸ hd
    rw [if_neg hd, if_neg hd']
    simp only []
    split
    · exact ret_alike hid ho (by decide)
    · refine .getlk fun result => ?_
      split
      · exact ret_alike hid ho (by decide)
      · exact mylockFunction_alike hid _ fun sl => .readRec fun temp => shown_alike hid ho _

theorem handleWriterId_alike (h : Alike .writer q q') (ho : q.connFd ≠ -1) (buf : Text) :
    (handleWriterId buf q sl).Alike .writer (handleWriterId buf q' sl) := by
  have hid := h.setId ho (atoi buf)
  simp only [handleWriterId]
  split
  · exact ret_alike hid ho (by decide)
  · refine .getlk fun result => ?_
    split
    · exact ret_alike hid ho (by decide)
    · exact mylockFunction_alike hid _ fun sl => .readRec fun temp => shown_alike hid ho _

theorem handleWriterCommand_alike (h : Alike .writer q q') (ho : q.connFd ≠ -1) (buf : Text) :
    (handleWriterCommand buf q sl).Alike .writer (handleWriterCommand buf q' sl) := by
  have hk : q.id - HEAD = q'.id - HEAD := by rw [h.id]
  simp only [handleWriterCommand, hk]
  split
  · exact mylockFunction_alike h _ fun sl => ret_alike h ho (by decide)
  · refine .readRec fun temp => ?_
    split
    · exact mylockFunction_alike h _ fun sl => ret_alike h ho (by decide)
    · split
      · exact mylockFunction_alike h _ fun sl => ret_alike h ho (by decide)
      · exact .writeRec (.readRec fun temp => mylockFunction_alike h _ fun sl => shown_alike h ho _)

theorem handleRead_alike (h : Alike b q q') (ho : q.connFd ≠ -1) (r : ReadResult) :
    (handleRead b r q sl).Alike b (handleRead b r q' sl) := by
  unfold handleRead
  split
  · exact ret_alike h ho (by decide)
  · exact ret_alike h ho (by decide)
  · unfold handleLine
    split
    · split
      · rw [h.id]
        split
        · exact mylockFunction_alike h _ fun sl => ret_alike h ho (by decide)
        · exact ret_alike h ho (by decide)
      · exact .done .exit
    · cases b with
      | reader => exact handleReader_alike h ho _
      | writer =>
        simp only [h.waitForWrite ho]
        split
        · exact handleWriterId_alike h ho _
        · exact handleWriterCommand_alike h ho _

/-! ## main -/

/-- What both versions of `main` do with the result of `handle_read`. -/
structure Answers (after : After) : Prop where
  one : ∀ b q, after b 1 q = reply b q
  failed : ∀ b val q, val < 0 → after b val q = (q, [])
  closed : ∀ b val q, val ≠ 1 → 0 ≤ val →
    Closed (after b val q).1 ∧ (after b val q).2 = closingMsg val q.connFd

theorem reply_free (h : q.connFd = -1) : (reply b q).2 = [] := by
  cases b with
  | reader =>
    simp only [reply]
    split
    · rfl
    · simp [send, h]
  | writer =>
    simp only [reply]
    split
    · simp [send, h]
    · simp [send, h]

theorem answers_afterRead : Answers afterRead := by
  refine ⟨afterRead_one, fun b val q h => ?_, fun b val q h1 h0 => ⟨afterRead_closed b q h1 h0, ?_⟩⟩
  · rw [afterRead, if_neg (by omega), if_pos h]
  · have hfree : (reply b (freeRequest q)).2 = [] := reply_free rfl
    simp only [afterRead, if_neg h1, if_neg (by omega : ¬ val < 0), hfree, List.append_nil]
    rfl

theorem answers_afterReadContinue : Answers afterReadContinue := by
  refine ⟨fun b q => if_pos rfl, fun b val q h => ?_, fun b val q h1 h0 => ?_⟩
  · rw [afterReadContinue, if_neg (by omega), if_pos h]
  · rw [afterReadContinue, if_neg h1, if_neg (by omega)]
    exact ⟨⟨rfl, rfl⟩, rfl⟩

theorem reply_alike (h : Alike b q q') (ho : q.connFd ≠ -1) (hbuf : q.buf = q'.buf) :
    Alike b (reply b q).1 (reply b q').1 ∧ (reply b q).2 = (reply b q').2 := by
  have hfree : Alike b (freeRequest q) (freeRequest q') := alike_closed ⟨rfl, rfl⟩ ⟨rfl, rfl⟩
  cases b with
  | reader =>
    simp only [reply]
    by_cases he : q.buf = ['E', 'x', 'i', 't']
    · rw [if_pos he, if_pos (hbuf ▸ he)]
      exact ⟨hfree, rfl⟩
    · rw [if_neg he, if_neg (hbuf ▸ he)]
      exact ⟨⟨h.connFd, h.id, h.free, fun _ => rfl⟩, by simp only [h.connFd, hbuf]⟩
  | writer =>
    have hw := h.waitForWrite ho
    simp only [reply]
    by_cases he : q.waitForWrite = true
    · rw [if_pos he, if_pos (hw ▸ he)]
      exact ⟨⟨h.connFd, h.id, h.free, fun _ => rfl⟩, by simp only [h.connFd, hbuf]⟩
    · rw [if_neg he, if_neg (hw ▸ he)]
      exact ⟨hfree, by simp only [h.connFd, hbuf, h.id]⟩

theorem after_alike {after after' : After} (ha : Answers after) (ha' : Answers after') {val : Int}
    (h : Alike b q q') (ho : q.connFd ≠ -1) (hbuf : val = 1 → q.buf = q'.buf) :
    Alike b (after b val q).1 (after' b val q').1 ∧ (after b val q).2 = (after' b val q').2 := by
  by_cases h1 : val = 1
  · subst h1
    rw [ha.one, ha'.one]
    exact reply_alike h ho (hbuf rfl)
  · by_cases hneg : val < 0
    · rw [ha.failed b val q hneg, ha'.failed b val q' hneg]
      exact ⟨h, rfl⟩
    · obtain ⟨hc, hs⟩ := ha.closed b val q h1 (by omega)
      obtain ⟨hc', hs'⟩ := ha'.closed b val q' h1 (by omega)
      exact ⟨alike_closed hc hc', by rw [hs, hs', h.connFd]⟩

theorem accept_alike (h : Alike b q q') (fd : Nat) :
    Alike b (acceptRequest b fd q) (acceptRequest b fd q') := by
  refine ⟨rfl, h.id, fun hc => ?_, fun _ => ?_⟩
  · simp [acceptRequest] at hc
  · cases b <;> rfl

end

/-! ## Servers that make no difference -/

section

variable {P : Type} [DecidableEq P] [Fintype P] {build : P → Build} {w w' : Inter P}

/-- The file, the locks of the kernel and those the servers count themselves, what was sent on each
connection and which connections are open. -/
structure Inter.LooksLike (w w' : Inter P) : Prop where
  kernel : w.kernel = w'.kernel
  alive : ∀ p, (w.server p).alive = (w'.server p).alive
  selfLock : ∀ p, (w.server p).selfLock = (w'.server p).selfLock
  sent : ∀ p, (w.server p).sent = (w'.server p).sent
  connFd : ∀ p fd, ((w.server p).requestP fd).connFd = ((w'.server p).requestP fd).connFd

/-- The two processes are at the same point of `handle_read`. -/
inductive RunAlike (b : Build) : Option (Nat × Sys Outcome) → Option (Nat × Sys Outcome) → Prop
  | idle : RunAlike b none none
  | busy {fd : Nat} {prog prog' : Sys Outcome} : prog.Alike b prog' →
      RunAlike b (some (fd, prog)) (some (fd, prog'))

structure Server.Alike (b : Build) (sv sv' : Server) : Prop where
  alive : sv.alive = sv'.alive
  selfLock : sv.selfLock = sv'.selfLock
  sent : sv.sent = sv'.sent
  slot : ∀ fd, Booking.Alike b (sv.requestP fd) (sv'.requestP fd)

structure Inter.Alike (build : P → Build) (w w' : Inter P) : Prop where
  kernel : w.kernel = w'.kernel
  server : ∀ p, (w.server p).Alike (build p) (w'.server p)
  running : ∀ p, RunAlike (build p) (w.running p) (w'.running p)

theorem Inter.Alike.looksLike (h : w.Alike build w') : w.LooksLike w' :=
  ⟨h.kernel, fun p => (h.server p).alive, fun p => (h.server p).selfLock, fun p => (h.server p).sent,
    fun p fd => ((h.server p).slot fd).connFd⟩

theorem Inter.Init.alike (h : w.Init) : w.Alike build w := by
  refine ⟨rfl, fun p => ⟨rfl, rfl, rfl, fun fd => ?_⟩, fun p => ?_⟩
  · have hfree := (h.init.fresh p).connFd fd
    have hid := (h.init.fresh p).id fd
    exact alike_closed ⟨hfree, hid⟩ ⟨hfree, hid⟩
  · rw [h.running p]
    exact .idle

section Server

variable {b : Build} {sv sv' : Server}

theorem Server.Alike.canServe (h : sv.Alike b sv') (fd : Nat) : sv.canServe fd = sv'.canServe fd := by
  simp only [Server.canServe, h.alive, (h.slot fd).connFd]

theorem Server.Alike.canAccept (h : sv.Alike b sv') (fd : Nat) :
    sv.canAccept fd = sv'.canAccept fd := by
  simp only [Server.canAccept, h.alive, (h.slot fd).connFd]

theorem Server.Alike.accept (h : sv.Alike b sv') (fd : Nat) :
    (sv.accept b fd).Alike b (sv'.accept b fd) := by
  refine ⟨h.alive, h.selfLock, by simp only [Server.accept, h.sent], fun j => ?_⟩
  simp only [Server.accept]
  split
  · exact accept_alike (h.slot fd) fd
  · exact h.slot j

theorem Server.Alike.finish (h : sv.Alike b sv') {after after' : After} (ha : Answers after)
    (ha' : Answers after') {out out' : Outcome} (ho : out.Alike b out') (fd : Nat) :
    (sv.finishWith after b fd out).Alike b (sv'.finishWith after' b fd out') := by
  cases ho with
  | exit => exact ⟨rfl, h.selfLock, h.sent, h.slot⟩
  | ret hopen hq hbuf =>
    obtain ⟨hslot, hsent⟩ := after_alike ha ha' hq hopen hbuf
    refine ⟨h.alive, rfl, by simp only [Server.finishWith, h.sent, hsent], fun j => ?_⟩
    simp only [Server.finishWith]
    split
    · exact hslot
    · exact h.slot j

end Server

theorem Inter.Alike.setServer (h : w.Alike build w') {p : P} {sv sv' : Server}
    (hs : sv.Alike (build p) sv') :
    Inter.Alike build { w with toWorld := w.toWorld.setServer p sv }
      { w' with toWorld := w'.toWorld.setServer p sv' } := by
  refine ⟨h.kernel, fun q => ?_, h.running⟩
  by_cases hq : q = p
  · subst hq
    rw [setServer_self, setServer_self]
    exact hs
  · rw [setServer_of_ne hq, setServer_of_ne hq]
    exact h.server q

theorem Inter.Alike.setRunning (h : w.Alike build w') {p : P} {run run' : Option (Nat × Sys Outcome)}
    (hr : RunAlike (build p) run run') : (w.setRunning p run).Alike build (w'.setRunning p run') := by
  refine ⟨h.kernel, h.server, fun q => ?_⟩
  by_cases hq : q = p
  · subst hq
    rw [setRunning_self, setRunning_self]
    exact hr
  · rw [setRunning_of_ne hq, setRunning_of_ne hq]
    exact h.running q

theorem Inter.Alike.setKernel (h : w.Alike build w') (s : Kernel P) :
    Inter.Alike build { w with kernel := s } { w' with kernel := s } := ⟨rfl, h.server, h.running⟩

theorem RunAlike.cases {b : Build} {run run' : Option (Nat × Sys Outcome)} (h : RunAlike b run run') :
    (run = none ∧ run' = none) ∨
      ∃ fd prog prog', run = some (fd, prog) ∧ run' = some (fd, prog') ∧ prog.Alike b prog' := by
  cases h with
  | idle => exact .inl ⟨rfl, rfl⟩
  | busy h => exact .inr ⟨_, _, _, rfl, rfl, h⟩

theorem accept_step_alike (h : w.Alike build w') (p : P) (fd : Nat) :
    Option.Rel (Inter.Alike build) (w.step build (.accept p fd)) (w'.step build (.accept p fd)) := by
  simp only [Inter.step]
  rcases (h.running p).cases with ⟨hr, hr'⟩ | ⟨_, _, _, hr, hr', -⟩
  · rw [hr, hr', ← (h.server p).canAccept fd]
    simp only []
    split
    · exact .some (h.setServer ((h.server p).accept fd))
    · exact .none
  · rw [hr, hr']
    exact .none

theorem recv_step_alike (h : w.Alike build w') (p : P) (fd : Nat) (r : ReadResult) :
    Option.Rel (Inter.Alike build) (w.step build (.recv p fd r)) (w'.step build (.recv p fd r)) := by
  simp only [Inter.step]
  rcases (h.running p).cases with ⟨hr, hr'⟩ | ⟨_, _, _, hr, hr', -⟩
  · rw [hr, hr', ← (h.server p).canServe fd, ← (h.server p).selfLock]
    simp only []
    split
    · rename_i hc
      have hopen := (canServe_iff.1 hc).2.2.2
      exact .some (h.setRunning (.busy (handleRead_alike ((h.server p).slot fd) hopen r)))
    · exact .none
  · rw [hr, hr']
    exact .none

theorem call_step_alike {after after' : After} (ha : Answers after) (ha' : Answers after')
    (h : w.Alike build w') (p : P) : Option.Rel (Inter.Alike build)
      (w.stepWith after build (.call p)) (w'.stepWith after' build (.call p)) := by
  rcases (h.running p).cases with ⟨hr, hr'⟩ | ⟨fd, prog, prog', hr, hr', hprog⟩
  · simp only [Inter.stepWith, Inter.step, hr, hr']
    exact .none
  · cases hprog with
    | @done out out' hout =>
      simp only [Inter.stepWith, hr, hr', ← h.kernel]
      have hfin : w.kernel.finish p out = w.kernel.finish p out' := by
        cases hout with
        | exit => rfl
        | ret => rfl
      rw [← hfin]
      exact .some (((h.setKernel _).setServer ((h.server p).finish ha ha' hout fd)).setRunning .idle)
    | getlk hcont =>
      simp only [Inter.stepWith, Inter.step, hr, hr', Sys.step, ← h.kernel]
      exact .some ((h.setKernel _).setRunning (.busy (hcont _)))
    | setlk hcont =>
      simp only [Inter.stepWith, Inter.step, hr, hr', Sys.step, ← h.kernel]
      exact .some ((h.setKernel _).setRunning (.busy hcont))
    | readRec hcont =>
      simp only [Inter.stepWith, Inter.step, hr, hr', Sys.step, ← h.kernel]
      exact .some ((h.setKernel _).setRunning (.busy (hcont _)))
    | writeRec hcont =>
      simp only [Inter.stepWith, Inter.step, hr, hr', Sys.step, ← h.kernel]
      exact .some ((h.setKernel _).setRunning (.busy hcont))

theorem step_alike {after after' : After} (ha : Answers after) (ha' : Answers after')
    (h : w.Alike build w') (e : InterEvent P) :
    Option.Rel (Inter.Alike build) (w.stepWith after build e) (w'.stepWith after' build e) := by
  cases e with
  | accept p fd => exact accept_step_alike h p fd
  | recv p fd r => exact recv_step_alike h p fd r
  | call p => exact call_step_alike ha ha' h p

theorem run_alike (h : w.Alike build w') (es : List (InterEvent P)) :
    Option.Rel (Inter.Alike build) (runEvents (Inter.step build) w es)
      (runEvents (Inter.step build) w' es) := by
  refine runEvents_rel (fun v v' e hv => ?_) h
  rw [← stepWith_afterRead, ← stepWith_afterRead]
  exact step_alike answers_afterRead answers_afterRead hv e

theorem run_continue_alike (h : w.Alike build w') (es : List (InterEvent P)) :
    Option.Rel (Inter.Alike build) (runEvents (Inter.step build) w es)
      (runEvents (Inter.stepContinue build) w' es) := by
  refine runEvents_rel (fun v v' e hv => ?_) h
  rw [← stepWith_afterRead]
  exact step_alike answers_afterRead answers_afterReadContinue hv e

theorem rel_looksLike {o o' : Option (Inter P)} (h : Option.Rel (Inter.Alike build) o o') :
    Option.Rel Inter.LooksLike o o' := by
  cases h with
  | none => exact .none
  | some h => exact .some h.looksLike

/-! ## Reused slots -/

/-- A slot as `init_server` leaves it; what `malloc` left in `buf` and `wait_for_write` is
arbitrary. -/
structure Unused (q : Request) : Prop where
  connFd : q.connFd = -1
  id : q.id = 0
  done : q.done = false

def Inter.setSlot (w : Inter P) (p : P) (fd : Nat) (q : Request) : Inter P :=
  { w with
    toWorld := w.toWorld.setServer p
      { w.server p with requestP := fun j => if j = fd then q else (w.server p).requestP j } }

theorem setSlot_alike (h : w.Alike build w) {p : P} {fd : Nat} {q : Request}
    (hfree : ((w.server p).requestP fd).connFd = -1) (hq : Unused q) :
    w.Alike build (w.setSlot p fd q) := by
  refine ⟨rfl, fun p' => ?_, h.running⟩
  by_cases hp : p' = p
  · subst hp
    refine ⟨?_, ?_, ?_, fun j => ?_⟩
    · simp only [Inter.setSlot, setServer_self]
    · simp only [Inter.setSlot, setServer_self]
    · simp only [Inter.setSlot, setServer_self]
    · simp only [Inter.setSlot, setServer_self]
      split
      · rename_i hj
        subst hj
        exact alike_closed ⟨hfree, ((h.server p').slot j).free hfree⟩ ⟨hq.connFd, hq.id⟩
      · exact (h.server p').slot j
  · simp only [Inter.setSlot, setServer_of_ne hp]
    exact h.server p'

/-- A `continue` after `free_request` would change nothing that can be seen, and neither would a
new slot in the place of one that was used before. -/
theorem fallthrough_harmless {w0 : Inter P} (h0 : w0.Init) (es : List (InterEvent P)) :
    Option.Rel Inter.LooksLike (runEvents (Inter.step build) w0 es)
        (runEvents (Inter.stepContinue build) w0 es) ∧
      ∀ w p fd q, runEvents (Inter.step build) w0 es = some w →
        ((w.server p).requestP fd).connFd = -1 → Unused q → ∀ es',
          Option.Rel Inter.LooksLike (runEvents (Inter.step build) w es')
            (runEvents (Inter.step build) (w.setSlot p fd q) es') := by
  refine ⟨rel_looksLike (run_continue_alike h0.alike es), fun w p fd q hw hfree hq es' => ?_⟩
  have hself : Option.Rel (Inter.Alike build) (some w) (some w) := by
    rw [← hw]
    exact run_alike h0.alike es
  cases hself with
  | some hself => exact rel_looksLike (run_alike (setSlot_alike hself hfree hq) es')

end

/-- A read server whose first client has been turned away: its slot is free, and `done` is set. -/
def turnedAway : Inter (Fin 1) :=
  (runEvents (Inter.step fun _ => .reader) { freshWorld (Fin 1) with running := fun _ => none }
    [.accept 0 5, .recv 0 5 (.data "7\r\n".toList), .call 0]).getD
      { freshWorld (Fin 1) with running := fun _ => none }

/-- The next client on the same slot. -/
def nextClient : List (InterEvent (Fin 1)) :=
  [.accept 0 5, .recv 0 5 (.data "902001\r\n".toList), .call 0, .call 0, .call 0, .call 0]

theorem fallthrough_harmless_fresh :
    Option.Rel Inter.LooksLike
      (runEvents (Inter.step fun _ => .reader) { freshWorld (Fin 1) with running := fun _ => none }
        ([.accept 0 5, .recv 0 5 (.data "7\r\n".toList), .call 0] ++ nextClient))
      (runEvents (Inter.stepContinue fun _ => .reader)
        { freshWorld (Fin 1) with running := fun _ => none }
        ([.accept 0 5, .recv 0 5 (.data "7\r\n".toList), .call 0] ++ nextClient)) ∧
    Option.Rel Inter.LooksLike (runEvents (Inter.step fun _ => .reader) turnedAway nextClient)
      (runEvents (Inter.step fun _ => .reader) (turnedAway.setSlot 0 5 ⟨-1, [], 0, false, false⟩)
        nextClient) := by
  have h0 : Inter.Init { freshWorld (Fin 1) with running := fun _ => none } :=
    ⟨freshWorld_init _, fun _ => rfl⟩
  refine ⟨(fallthrough_harmless h0 _).1, ?_⟩
  exact (fallthrough_harmless h0 [.accept 0 5, .recv 0 5 (.data "7\r\n".toList), .call 0]).2 turnedAway 0 5
    ⟨-1, [], 0, false, false⟩ rfl rfl ⟨rfl, rfl, rfl⟩ nextClient

example : ((turnedAway.server 0).requestP 5).done = true ∧
    ((runEvents (Inter.step fun _ => .reader) turnedAway nextClient).map fun w =>
      ((w.server 0).sent.map Prod.snd).drop 2) = some [promptMsg, listing fun _ => 0, exitMsg] := by
  decide +kernel

end SysProg.Booking
