import SysProg.Booking.Interleave

/-!
# SysProg.Booking.Atomic

A call of `handle_read` whose system calls run between those of other processes does what it would
do in one go, as long as no `F_SETLK` fails.

* `CallCase`: the programs of `handle_read`. After an id, a lock is taken and a record read; with a
  command, one record is read and written, and the lock is given back at the end.
* `Sys.Onto`: a program that has come to another one by accesses to one record.
* The call counts as done when it asks for its lock (refused) or takes it, or when it gives it back.
  `Caller`: where a process is, beside the process for which the call is one step.
* `calls_atomic`: every run has a run of `World.step` beside it, with the same calls in the order of
  each process, the same locks, and the same servers and records wherever no call is going on.
-/

set_option linter.unusedSectionVars false

namespace SysProg.Booking

open LockType

/-! ## The programs of a call -/

section

variable {α : Type} {k : CInt} {v v' : Record} {prog prog' : Sys α}

def Kernel.put {P : Type} (s : Kernel P) (k : CInt) (v : Record) : Kernel P :=
  { s with file := fun k' => if k' = k then v else s.file k' }

/-- Record accesses to `k` only lead from the first program to the second one. -/
inductive Sys.Onto (k : CInt) (prog : Sys α) (v : Record) : Sys α → Record → Prop where
  | refl : Onto k prog v prog v
  | read {cont : Record → Sys α} {v' : Record} : Onto k prog v (.readRec k cont) v' →
      Onto k prog v (cont v') v'
  | write {cont : Sys α} {r v' : Record} : Onto k prog v (.writeRec k r cont) v' →
      Onto k prog v cont r

theorem Sys.Onto.exec {P : Type} [DecidableEq P] [Fintype P] {p : P} {s : Kernel P}
    (h : prog.Onto k v prog' v') (hv : s.file k = v) :
    prog.exec p s = prog'.exec p (s.put k v') := by
  induction h with
  | refl =>
    have hs : s.put k v = s := by
      simp only [Kernel.put, ← hv]
      congr 1
      funext k'
      split
      · rename_i e; rw [e]
      · rfl
    rw [hs]
  | read _ ih =>
    rw [ih]
    simp only [Sys.exec, Kernel.put, if_true]
  | write _ ih =>
    rw [ih]
    simp only [Sys.exec, Kernel.put]
    congr 2
    funext k'
    split <;> rfl

/-- Reads and writes `k`, then gives a lock back. -/
def Sys.Works (k : CInt) : Sys Outcome → Prop
  | .setlk _ type cont => type = unlck ∧ ∃ val q sl, cont = .done (.ret val q sl)
  | .readRec k' cont => k' = k ∧ ∀ v, (cont v).Works k
  | .writeRec k' _ cont => k' = k ∧ cont.Works k
  | _ => False

end

/-- The calls of `handle_read` that make at most one change, to a lock. -/
inductive LockCall (b : Build) : Sys Outcome → Prop where
  | plain (out : Outcome) : LockCall b (.done out)
  | unlock (k : CInt) (val : Int) (q : Request) (sl : SelfLock) :
      LockCall b (.setlk k unlck (.done (.ret val q sl)))
  | ask {k : CInt} {cont : LockType → Sys Outcome} :
      (∀ t, (∃ val q sl, cont t = .done (.ret val q sl)) ∨ cont t = cont unlck) →
      ((∃ val q sl, cont unlck = .done (.ret val q sl)) ∨
        ∃ (val : Int) (q : Record → Request) (sl : SelfLock),
          cont unlck = .setlk k b.lockType (.readRec k fun v => .done (.ret val (q v) sl))) →
      LockCall b (.getlk k b.lockType cont)

/-- What a call of `handle_read` is. -/
inductive CallCase (b : Build) (reqP : Request) : Sys Outcome → Prop where
  | lock {prog : Sys Outcome} : LockCall b prog → CallCase b reqP prog
  | command {prog : Sys Outcome} : b = .writer → InSession b reqP = true →
      prog.Works (reqP.id - HEAD) → CallCase b reqP prog

section

variable {b : Build} {reqP q : Request} {sl : SelfLock} {val : Int}

theorem mylockFunction_lockCall :
    LockCall b (mylockFunction b q sl unlck fun sl => .done (.ret val q sl)) := by
  cases b with
  | writer => exact .unlock _ _ _ _
  | reader =>
    simp only [mylockFunction]
    split
    · exact .unlock _ _ _ _
    · exact .plain _

theorem handleReader_lockCall (buf : Text) : LockCall .reader (handleReader buf reqP sl) := by
  unfold handleReader
  split
  · split
    · simp only [mylockFunction]
      split
      · exact .unlock _ _ _ _
      · exact .plain _
    · exact .plain _
  · simp only []
    split
    · exact .plain _
    · refine .ask (fun t => ?_) (.inr ?_)
      · by_cases ht : t = wrlck
        · exact .inl ⟨_, _, _, if_pos ht⟩
        · exact .inr ((if_neg ht).trans (if_neg (by decide)).symm)
      · exact ⟨_, fun v => _, _, rfl⟩

theorem handleWriterId_lockCall (buf : Text) : LockCall .writer (handleWriterId buf reqP sl) := by
  unfold handleWriterId
  simp only []
  split
  · exact .plain _
  · refine .ask (fun t => ?_) ?_
    · by_cases ht : t = unlck
      · subst ht; exact .inr rfl
      · exact .inl ⟨_, _, _, if_pos (.inl ht)⟩
    · by_cases hs : sl (atoi buf - HEAD) = 1
      · exact .inl ⟨_, _, _, if_pos (.inr hs)⟩
      · refine .inr ⟨_, fun v => _, _, (if_neg ?_).trans rfl⟩
        rintro (h | h)
        · exact h rfl
        · exact hs h

theorem unlock_works {k : CInt} (f : SelfLock → Request) :
    (mylockFunction .writer reqP sl unlck fun sl => .done (.ret val (f sl) sl)).Works k :=
  ⟨rfl, _, _, _, rfl⟩

theorem handleWriterCommand_works (buf : Text) :
    (handleWriterCommand buf reqP sl).Works (reqP.id - HEAD) := by
  unfold handleWriterCommand
  cases myatoi buf with
  | none => exact unlock_works _
  | some nums =>
    refine ⟨rfl, fun temp => ?_⟩
    simp only []
    split
    · exact unlock_works _
    · split
      · exact unlock_works _
      · exact ⟨rfl, rfl, fun _ => unlock_works _⟩

theorem handleRead_callCase (b : Build) (r : ReadResult) (reqP : Request) (sl : SelfLock) :
    CallCase b reqP (handleRead b r reqP sl) := by
  have hcase := handleRead_case b r reqP sl
  generalize handleRead b r reqP sl = prog at hcase
  cases hcase with
  | failed _ => exact .lock (.plain _)
  | ended _ => exact .lock (.plain _)
  | line _ _ hline =>
    cases hline with
    | part => exact .lock (.plain _)
    | interrupt => exact .lock mylockFunction_lockCall
    | interruptIdle => exact .lock (.plain _)
    | reader _ hb => subst hb; exact .lock (handleReader_lockCall _)
    | writerId _ hb _ => subst hb; exact .lock (handleWriterId_lockCall _)
    | writerCommand _ hb hw =>
      subst hb
      exact .command rfl (by simp [InSession, hw]) (handleWriterCommand_works _)

end

/-! ## A call beside its single step -/

/-- Where a process is: whether its last call still counts as not done, and the record it books. -/
inductive Phase where
  | free (pending : Option (Nat × ReadResult))
  | booking (k : CInt) (fd : Nat) (r : ReadResult)

def Phase.pending {P : Type} (p : P) : Phase → List (Event P)
  | .free none => []
  | .free (some (fd, r)) => [.recv p fd r]
  | .booking _ fd r => [.recv p fd r]

section

variable {P : Type} [DecidableEq P] [Fintype P]

/-- The call of `handle_read` that the process starts on reading `r`. -/
def Inter.call (build : P → Build) (i : Inter P) (p : P) (fd : Nat) (r : ReadResult) : Sys Outcome :=
  handleRead (build p) r ((i.server p).requestP fd) (i.server p).selfLock

/-- Process `p` in both systems: in `i` call by call, in `w` with each call as one step. -/
inductive Caller (build : P → Build) (i : Inter P) (w : World P) (p : P) : Phase → Prop where
  | idle : i.running p = none → w.server p = i.server p → Caller build i w p (.free none)
  | begun {fd : Nat} {r : ReadResult} : i.running p = some (fd, i.call build p fd r) →
      LockCall (build p) (i.call build p fd r) → w.server p = i.server p →
      Caller build i w p (.free (some (fd, r)))
  | asked {fd : Nat} {r : ReadResult} {k : CInt} {cont : LockType → Sys Outcome} {val : Int}
      {q : Record → Request} {sl : SelfLock} :
      i.running p = some (fd, cont unlck) →
      i.call build p fd r = .getlk k (build p).lockType cont →
      cont unlck = .setlk k (build p).lockType (.readRec k fun v => .done (.ret val (q v) sl)) →
      w.server p = i.server p → Caller build i w p (.free (some (fd, r)))
  | booking {fd : Nat} {r : ReadResult} {k : CInt} {prog : Sys Outcome} :
      i.running p = some (fd, prog) → build p = .writer →
      (i.server p).Session .writer fd k → prog.Works k →
      (i.call build p fd r).Onto k (w.kernel.file k) prog (i.kernel.file k) →
      w.server p = i.server p → Caller build i w p (.booking k fd r)
  | reading {fd : Nat} {k : CInt} {val : Int} {q : Record → Request} {sl : SelfLock} :
      i.running p = some (fd, .readRec k fun v => .done (.ret val (q v) sl)) →
      i.kernel.locks k p = (build p).lockType →
      w.server p = (i.server p).finish (build p) fd (.ret val (q (i.kernel.file k)) sl) →
      Caller build i w p (.free none)
  | ended {fd : Nat} {val : Int} {q : Request} {sl : SelfLock} :
      i.running p = some (fd, .done (.ret val q sl)) →
      w.server p = (i.server p).finish (build p) fd (.ret val q sl) → Caller build i w p (.free none)

/-- The two systems, each process in its phase. A record may differ only while it is booked. -/
structure Matches (build : P → Build) (φ : P → Phase) (i : Inter P) (w : World P) : Prop where
  locks : w.kernel.locks = i.kernel.locks
  caller : ∀ p, Caller build i w p (φ p)
  file : ∀ k, (∃ p fd r, φ p = .booking k fd r) ∨ w.kernel.file k = i.kernel.file k

variable {build : P → Build} {i i' : Inter P} {w w' : World P} {p q : P} {fd : Nat}
  {prog : Sys Outcome} {r : ReadResult} {k : CInt} {φ : P → Phase} {x : Phase}

/-- A process that works on a record holds its lock. -/
theorem Sys.Works.held (hi : InterInv build i) (hrun : i.running p = some (fd, prog))
    (hb : build p = .writer) (hs : (i.server p).Session .writer fd k) (hw : prog.Works k) :
    i.kernel.locks k p = wrlck := by
  have hready := hi.ready p
  simp only [Ready, hrun] at hready
  obtain ⟨row, r, _, _, hsafe⟩ := hready
  rcases hsafe.now with hJ | ⟨out, rfl⟩
  · rw [hb] at hJ
    exact hJ fd k hs
  · exact hw.elim

theorem Caller.held (h : Caller build i w p (.booking k fd r)) (hi : InterInv build i) :
    i.kernel.locks k p = wrlck := by
  cases h with
  | booking hrun hb hs hw _ _ => exact hw.held hi hrun hb hs

theorem lockType_ne_unlck (b : Build) : b.lockType ≠ unlck := by cases b <;> simp [Build.lockType]

/-- A step of another process, which changes no record that `p` has locked. -/
theorem Caller.frame (h : Caller build i w p x) (hi : InterInv build i)
    (hrun : i'.running p = i.running p) (hs : i'.server p = i.server p)
    (hw : w'.server p = w.server p) (hl : ∀ k, i'.kernel.locks k p = i.kernel.locks k p)
    (hf : ∀ k, i.kernel.locks k p ≠ unlck →
      i'.kernel.file k = i.kernel.file k ∧ w'.kernel.file k = w.kernel.file k) :
    Caller build i' w' p x := by
  have hcall : ∀ fd r, i'.call build p fd r = i.call build p fd r := by
    intro fd r
    simp only [Inter.call, hs]
  cases h with
  | idle h1 h2 => exact .idle (hrun.trans h1) (by rw [hw, hs, h2])
  | begun h1 h2 h3 =>
    exact .begun (by rw [hrun, hcall, h1]) (by rw [hcall]; exact h2) (by rw [hw, hs, h3])
  | asked h1 h2 h3 h4 =>
    exact .asked (hrun.trans h1) ((hcall _ _).trans h2) h3 (by rw [hw, hs, h4])
  | booking h1 h2 h3 h4 h5 h6 =>
    obtain ⟨hf, hf'⟩ := hf _ (by rw [h4.held hi h1 h2 h3]; decide)
    refine .booking (hrun.trans h1) h2 (by rw [hs]; exact h3) h4 ?_ (by rw [hw, hs, h6])
    rw [hcall, hf, hf']
    exact h5
  | reading h1 h2 h3 =>
    obtain ⟨hf, -⟩ := hf _ (by rw [h2]; exact lockType_ne_unlck _)
    exact .reading (hrun.trans h1) ((hl _).trans h2) (by rw [hw, hs, hf, h3])
  | ended h1 h2 => exact .ended (hrun.trans h1) (by rw [hw, hs, h2])

/-- A record nobody else can be booking is the same in both systems. -/
theorem Matches.file_eq (hm : Matches build φ i w) (hi : InterInv build i)
    (hp : ∀ fd r, φ p ≠ .booking k fd r)
    (hk : ∀ q, q ≠ p → i.kernel.locks k q ≠ wrlck) : w.kernel.file k = i.kernel.file k := by
  rcases hm.file k with ⟨q, fd, r, hq⟩ | h
  · have hc := hm.caller q
    rw [hq] at hc
    by_cases hqp : q = p
    · subst hqp; exact absurd hq (hp _ _)
    · exact absurd (hc.held hi) (hk q hqp)
  · exact h

/-- Process `p` goes on to phase `x`; the others stay where they are. -/
theorem Matches.move (hm : Matches build φ i w) (hi : InterInv build i)
    (hrun : ∀ q, q ≠ p → i'.running q = i.running q)
    (hs : ∀ q, q ≠ p → i'.server q = i.server q ∧ w'.server q = w.server q)
    (hlocks : w'.kernel.locks = i'.kernel.locks)
    (hother : ∀ q, q ≠ p → ∀ k, i'.kernel.locks k q = i.kernel.locks k q)
    (hfile : ∀ k, i'.kernel.file k = i.kernel.file k ∧ w'.kernel.file k = w.kernel.file k ∨
      i.kernel.locks k p = wrlck)
    (hcaller : Caller build i' w' p x)
    (hown : ∀ k, (∃ q, q ≠ p ∧ ∃ fd r, φ q = .booking k fd r) ∨ (∃ fd r, x = .booking k fd r) ∨
      w'.kernel.file k = i'.kernel.file k) :
    Matches build (Function.update φ p x) i' w' := by
  refine ⟨hlocks, fun q => ?_, fun k => ?_⟩
  · by_cases hq : q = p
    · subst hq
      rw [Function.update_self]
      exact hcaller
    · rw [Function.update_of_ne hq]
      refine (hm.caller q).frame hi (hrun q hq) (hs q hq).1 (hs q hq).2 (hother q hq) fun k hk => ?_
      rcases hfile k with h | h
      · exact h
      · exact absurd (hi.compatible.wrlck_alone h hq) hk
  · rcases hown k with ⟨q, hq, fd, r, h⟩ | ⟨fd, r, h⟩ | h
    · exact .inl ⟨q, fd, r, by rw [Function.update_of_ne hq, h]⟩
    · exact .inl ⟨p, fd, r, by rw [Function.update_self, h]⟩
    · exact .inr h

/-- As `move`, when no record changes and `p` was booking none. -/
theorem Matches.move_same (hm : Matches build φ i w) (hi : InterInv build i)
    (hp : ∀ k fd r, φ p ≠ .booking k fd r)
    (hrun : ∀ q, q ≠ p → i'.running q = i.running q)
    (hs : ∀ q, q ≠ p → i'.server q = i.server q ∧ w'.server q = w.server q)
    (hlocks : w'.kernel.locks = i'.kernel.locks)
    (hother : ∀ q, q ≠ p → ∀ k, i'.kernel.locks k q = i.kernel.locks k q)
    (hfile : i'.kernel.file = i.kernel.file) (hfile' : w'.kernel.file = w.kernel.file)
    (hcaller : Caller build i' w' p x) : Matches build (Function.update φ p x) i' w' := by
  refine hm.move hi hrun hs hlocks hother (fun k => .inl ⟨by rw [hfile], by rw [hfile']⟩) hcaller ?_
  intro k
  rcases hm.file k with ⟨q, fd, r, hq⟩ | h
  · refine .inl ⟨q, ?_, fd, r, hq⟩
    rintro rfl
    exact hp _ _ _ hq
  · exact .inr (.inr (by rw [hfile, hfile', h]))

/-! ## Steps -/

/-- `World` can follow a step of process `p`: what was pending and what the step asks for is then
done or pending. -/
def Follows (build : P → Build) (φ : P → Phase) (w : World P) (p : P) (new : List (Event P))
    (i' : Inter P) : Prop :=
  ∃ x more w', Run (World.step build) w more w' ∧ Matches build (Function.update φ p x) i' w' ∧
    (φ p).pending p ++ new = more.map Prod.snd ++ x.pending p

theorem Follows.stay (hm : Matches build (Function.update φ p x) i' w) {new : List (Event P)}
    (h : (φ p).pending p ++ new = x.pending p) : Follows build φ w p new i' :=
  ⟨x, [], w, .nil, hm, h⟩

theorem Follows.step {e : Event P} (hs : w.step build e = some w')
    (hm : Matches build (Function.update φ p x) i' w') {new : List (Event P)}
    (h : (φ p).pending p ++ new = e :: x.pending p) : Follows build φ w p new i' :=
  ⟨x, [(w, e)], w', .snoc .nil hs, hm, h⟩

theorem Caller.of_idle (h : Caller build i w p x) (hrun : i.running p = none) :
    x = .free none ∧ w.server p = i.server p := by
  cases h with
  | idle _ h => exact ⟨rfl, h⟩
  | begun h => rw [hrun] at h; cases h
  | asked h => rw [hrun] at h; cases h
  | booking h => rw [hrun] at h; cases h
  | reading h => rw [hrun] at h; cases h
  | ended h => rw [hrun] at h; cases h

theorem follows_accept (hm : Matches build φ i w) (hi : InterInv build i) (hrun : i.running p = none)
    (hc : (i.server p).canAccept fd = true) : Follows build φ w p [.accept p fd]
      { i with toWorld := i.toWorld.setServer p ((i.server p).accept (build p) fd) } := by
  obtain ⟨hp, hserver⟩ := (hm.caller p).of_idle hrun
  have hstep : w.step build (.accept p fd) =
      some (w.setServer p ((i.server p).accept (build p) fd)) := by
    simp only [World.step, hserver, hc, if_true]
  refine .step hstep (x := .free none) ?_ (by rw [hp]; rfl)
  refine hm.move_same hi (by simp [hp]) (fun _ _ => rfl) (fun q hq => ?_) hm.locks
    (fun _ _ _ => rfl) rfl rfl (.idle hrun ?_)
  · exact ⟨setServer_of_ne hq, setServer_of_ne hq⟩
  · rw [setServer_self]
    exact (setServer_self (w := i.toWorld)).symm

theorem follows_recv (hm : Matches build φ i w) (hi : InterInv build i) (hrun : i.running p = none)
    (hc : (i.server p).canServe fd = true) : Follows build φ w p [.recv p fd r]
      (i.setRunning p (some (fd, i.call build p fd r))) := by
  obtain ⟨hp, hserver⟩ := (hm.caller p).of_idle hrun
  have hnew : ∀ k fd r, φ p ≠ .booking k fd r := by simp [hp]
  have hcase : CallCase (build p) ((i.server p).requestP fd) (i.call build p fd r) :=
    handleRead_callCase _ _ _ _
  cases hcase with
  | lock hl =>
    refine .stay (x := .free (some (fd, r))) ?_ (by rw [hp]; rfl)
    exact hm.move_same hi hnew (fun q hq => setRunning_of_ne hq) (fun _ _ => ⟨rfl, rfl⟩) hm.locks
      (fun _ _ _ => rfl) rfl rfl (.begun setRunning_self hl hserver)
  | command hb hbusy hw =>
    obtain ⟨hal, _, _, hopen⟩ := canServe_iff.1 hc
    have hses : (i.server p).Session .writer fd (((i.server p).requestP fd).id - HEAD) :=
      ⟨hal, hopen, hb ▸ hbusy, sub_add_head _⟩
    have hfile : w.kernel.file (((i.server p).requestP fd).id - HEAD) =
        i.kernel.file (((i.server p).requestP fd).id - HEAD) := by
      refine hm.file_eq hi (hnew _) fun q hq hk => ?_
      have hready := hi.ready p
      simp only [Ready, hrun] at hready
      have hheld := (hready hal).guarded fd _ (hb ▸ hses)
      have := hi.compatible.wrlck_alone hk (Ne.symm hq)
      rw [Inter.row, this] at hheld
      exact lockType_ne_unlck _ hheld.symm
    refine .stay (x := .booking (((i.server p).requestP fd).id - HEAD) fd r) ?_ (by rw [hp]; rfl)
    refine hm.move_same hi hnew (fun q hq => setRunning_of_ne hq) (fun _ _ => ⟨rfl, rfl⟩) hm.locks
      (fun _ _ _ => rfl) rfl rfl (.booking setRunning_self hb hses hw ?_ hserver)
    rw [hfile]
    exact .refl

/-- The call of process `p` as one step, at its end in `out` and `s`. -/
theorem serve_step {out : Outcome} {s : Kernel P} (hi : InterInv build i)
    (hrun : i.running p = some (fd, prog)) (hserver : w.server p = i.server p)
    (hexec : (i.call build p fd r).exec p w.kernel = (out, s)) :
    w.step build (.recv p fd r) = some ({ w with kernel := s.finish p out }.setServer p
      ((i.server p).finish (build p) fd out)) := by
  have hready := hi.ready p
  simp only [Ready, hrun] at hready
  obtain ⟨_, _, hc, _⟩ := hready
  have hhandle : w.handle build p fd r = (out, s) := by
    rw [← hexec]
    simp only [World.handle, Inter.call, hserver]
  simp only [World.step, hserver, hc, if_true, hhandle]

/-- A call that counts as done when it was refused its lock, or when it took or gave back a lock. -/
theorem follows_lock {prog' : Sys Outcome} {val : Int} {q : Request} {sl : SelfLock}
    {t : LockTable P CInt} (hm : Matches build φ i w) (hi : InterInv build i)
    (hp : φ p = .free (some (fd, r))) (hrun : i.running p = some (fd, prog))
    (hserver : w.server p = i.server p)
    (hexec : (i.call build p fd r).exec p w.kernel = (.ret val q sl, { w.kernel with locks := t }))
    (ht : ∀ q, q ≠ p → ∀ k, t k q = i.kernel.locks k q)
    (hcaller : Caller build
      (Inter.setRunning { i with kernel := { i.kernel with locks := t } } p (some (fd, prog')))
      ({ w with kernel := { w.kernel with locks := t } }.setServer p
        ((i.server p).finish (build p) fd (.ret val q sl))) p (.free none)) :
    Follows build φ w p []
      (Inter.setRunning { i with kernel := { i.kernel with locks := t } } p (some (fd, prog'))) := by
  refine .step (serve_step hi hrun hserver hexec) (x := .free none) ?_ (by rw [hp]; rfl)
  refine hm.move_same hi (by simp [hp]) (fun q hq => setRunning_of_ne hq)
    (fun q hq => ⟨rfl, setServer_of_ne hq⟩) rfl ht rfl rfl hcaller

/-- The end of a call that had no effect before: it is done now. -/
theorem follows_over {out : Outcome} (hm : Matches build φ i w) (hi : InterInv build i)
    (hp : φ p = .free (some (fd, r))) (hrun : i.running p = some (fd, .done out))
    (hcall : i.call build p fd r = .done out) (hserver : w.server p = i.server p) :
    Follows build φ w p [] (Inter.setRunning { i with
      toWorld := { i.toWorld with kernel := i.kernel.finish p out }.setServer p
        ((i.server p).finish (build p) fd out) } p none) := by
  have hexec : (i.call build p fd r).exec p w.kernel = (out, w.kernel) := by rw [hcall]; rfl
  refine .step (serve_step hi hrun hserver hexec) (x := .free none) ?_ (by rw [hp]; rfl)
  refine hm.move_same hi (by simp [hp]) (fun q hq => setRunning_of_ne hq)
    (fun q hq => ⟨setServer_of_ne hq, setServer_of_ne hq⟩) ?_ (fun q hq k => ?_) ?_ ?_
    (.idle setRunning_self ?_)
  · cases out with
    | exit => exact congrArg (LockTable.dropAll · p) hm.locks
    | ret => exact hm.locks
  · cases out with
    | exit => exact LockTable.dropAll_of_ne hq
    | ret => rfl
  · cases out <;> rfl
  · cases out <;> rfl
  · rw [setServer_self]
    exact setServer_self.symm

/-- `main` sees the result of a call that was done before. -/
theorem follows_ended {val : Int} {q : Request} {sl : SelfLock} (hm : Matches build φ i w)
    (hi : InterInv build i) (hp : φ p = .free none)
    (hserver : w.server p = (i.server p).finish (build p) fd (.ret val q sl)) :
    Follows build φ w p [] (Inter.setRunning { i with
      toWorld := { i.toWorld with kernel := i.kernel.finish p (.ret val q sl) }.setServer p
        ((i.server p).finish (build p) fd (.ret val q sl)) } p none) := by
  refine .stay (x := .free none) ?_ (by rw [hp]; rfl)
  refine hm.move_same hi (by simp [hp]) (fun q hq => setRunning_of_ne hq)
    (fun q hq => ⟨setServer_of_ne hq, rfl⟩) hm.locks (fun _ _ _ => rfl) rfl rfl
    (.idle setRunning_self ?_)
  rw [hserver]
  exact setServer_self.symm

/-- The call asks for its lock, or gives one back. -/
theorem follows_begun (hm : Matches build φ i w) (hi : InterInv build i)
    (hp : φ p = .free (some (fd, r))) (hrun : i.running p = some (fd, i.call build p fd r))
    (hl : LockCall (build p) (i.call build p fd r)) (hserver : w.server p = i.server p) :
    Follows build φ w p [] (Inter.setRunning
      { i with kernel := ((i.call build p fd r).step p i.kernel).2 } p
      (some (fd, ((i.call build p fd r).step p i.kernel).1))) := by
  generalize hcall : i.call build p fd r = prog at hl
  cases hl with
  | plain out =>
    refine .stay (x := .free (some (fd, r))) ?_ (by rw [hp]; rfl)
    exact hm.move_same hi (by simp [hp]) (fun q hq => setRunning_of_ne hq) (fun _ _ => ⟨rfl, rfl⟩)
      hm.locks (fun _ _ _ => rfl) rfl rfl
      (.begun (setRunning_self.trans (congrArg _ (congrArg _ hcall.symm)))
        (hcall.symm ▸ .plain out) hserver)
  | unlock k val q sl =>
    refine follows_lock hm hi hp hrun hserver (by rw [hcall, ← hm.locks]; rfl) (fun q hq k => ?_)
      (.ended setRunning_self setServer_self)
    exact LockTable.setlk_of_ne_process hq
  | @ask k cont hcont hlock =>
    have hrefused : ∀ val q sl, cont (i.kernel.locks.getlk p k (build p).lockType) =
        .done (.ret val q sl) → Follows build φ w p [] (Inter.setRunning i p
          (some (fd, cont (i.kernel.locks.getlk p k (build p).lockType)))) := by
      intro val q sl hdone
      refine follows_lock (t := i.kernel.locks) hm hi hp hrun hserver ?_ (fun _ _ _ => rfl)
        (.ended (setRunning_self.trans (by rw [hdone])) setServer_self)
      simp only [hcall, Sys.exec, hm.locks, hdone]
      rw [← hm.locks]
    rcases hcont (i.kernel.locks.getlk p k (build p).lockType) with ⟨val, q, sl, hdone⟩ | hsame
    · exact hrefused val q sl hdone
    · rcases hlock with ⟨val, q, sl, hdone⟩ | ⟨val, q, sl, hask⟩
      · exact hrefused val q sl (hsame.trans hdone)
      · refine .stay (x := .free (some (fd, r))) ?_ (by rw [hp]; rfl)
        refine hm.move_same hi (by simp [hp]) (fun q hq => setRunning_of_ne hq)
          (fun _ _ => ⟨rfl, rfl⟩) hm.locks (fun _ _ _ => rfl) rfl rfl
          (.asked (setRunning_self.trans ?_) hcall hask hserver)
        rw [← hsame]
        rfl

/-- The lock is granted. What the call reads afterwards is what it would read at once. -/
theorem follows_asked {cont : LockType → Sys Outcome} {val : Int} {q : Record → Request}
    {sl : SelfLock} (hm : Matches build φ i w) (hi : InterInv build i)
    (hp : φ p = .free (some (fd, r))) (hrun : i.running p = some (fd, cont unlck))
    (hcall : i.call build p fd r = .getlk k (build p).lockType cont)
    (hask : cont unlck = .setlk k (build p).lockType (.readRec k fun v => .done (.ret val (q v) sl)))
    (hserver : w.server p = i.server p) (hg : i.kernel.locks.Grants p k (build p).lockType) :
    Follows build φ w p [] (Inter.setRunning { i with kernel := ((cont unlck).step p i.kernel).2 } p
      (some (fd, ((cont unlck).step p i.kernel).1))) := by
  have hfile : w.kernel.file k = i.kernel.file k := by
    refine hm.file_eq (p := p) hi (by simp [hp]) fun q hq hk => ?_
    have := hg q hq
    rw [hk] at this
    cases hb : build p <;> rw [hb] at this <;> cases this
  have hfree : i.kernel.locks.getlk p k (build p).lockType = unlck := LockTable.getlk_eq_unlck.2 hg
  have hexec : (i.call build p fd r).exec p w.kernel = (.ret val (q (i.kernel.file k)) sl,
      { w.kernel with locks := i.kernel.locks.setlk p k (build p).lockType }) := by
    simp only [hcall, Sys.exec, hm.locks, hfree, hask, hfile]
  rw [hask]
  refine follows_lock hm hi hp hrun hserver hexec (fun q hq k => LockTable.setlk_of_ne_process hq)
    (.reading setRunning_self ?_ setServer_self)
  change i.kernel.locks.setlk p k (build p).lockType k p = _
  rw [LockTable.setlk_of_grants hg, LockTable.put_self]

theorem follows_reading {val : Int} {q : Record → Request} {sl : SelfLock}
    (hm : Matches build φ i w) (hi : InterInv build i) (hp : φ p = .free none)
    (hserver : w.server p = (i.server p).finish (build p) fd (.ret val (q (i.kernel.file k)) sl)) :
    Follows build φ w p []
      (i.setRunning p (some (fd, .done (.ret val (q (i.kernel.file k)) sl)))) := by
  refine .stay (x := .free none) ?_ (by rw [hp]; rfl)
  exact hm.move_same hi (by simp [hp]) (fun q hq => setRunning_of_ne hq) (fun _ _ => ⟨rfl, rfl⟩)
    hm.locks (fun _ _ _ => rfl) rfl rfl (.ended setRunning_self hserver)

/-- As `move`, when `p` was booking `k` and the other records stay. -/
theorem Matches.move_booking (hm : Matches build φ i w) (hi : InterInv build i)
    (hp : φ p = .booking k fd r)
    (hrun : ∀ q, q ≠ p → i'.running q = i.running q)
    (hs : ∀ q, q ≠ p → i'.server q = i.server q ∧ w'.server q = w.server q)
    (hlocks : w'.kernel.locks = i'.kernel.locks)
    (hother : ∀ q, q ≠ p → ∀ k, i'.kernel.locks k q = i.kernel.locks k q)
    (hfile : ∀ k', k' ≠ k →
      i'.kernel.file k' = i.kernel.file k' ∧ w'.kernel.file k' = w.kernel.file k')
    (hcaller : Caller build i' w' p x)
    (hown : x = .booking k fd r ∨ w'.kernel.file k = i'.kernel.file k) :
    Matches build (Function.update φ p x) i' w' := by
  have hheld : i.kernel.locks k p = wrlck := by
    have hc := hm.caller p
    rw [hp] at hc
    exact hc.held hi
  refine hm.move hi hrun hs hlocks hother (fun k' => ?_) hcaller fun k' => ?_
  · by_cases hk : k' = k
    · exact .inr (hk ▸ hheld)
    · exact .inl (hfile k' hk)
  · by_cases hk : k' = k
    · subst hk
      rcases hown with hx | hx
      · exact .inr (.inl ⟨fd, r, hx⟩)
      · exact .inr (.inr hx)
    · rcases hm.file k' with ⟨q, fd', r', hq⟩ | h
      · refine .inl ⟨q, ?_, fd', r', hq⟩
        rintro rfl
        rw [hp] at hq
        cases hq
        exact hk rfl
      · exact .inr (.inr (by rw [(hfile k' hk).1, (hfile k' hk).2, h]))

/-- A call that books works on its record alone; it counts as done when it gives the lock back. -/
theorem follows_booking (hm : Matches build φ i w) (hi : InterInv build i)
    (hp : φ p = .booking k fd r) (hrun : i.running p = some (fd, prog)) (hb : build p = .writer)
    (hs : (i.server p).Session .writer fd k) (hw : prog.Works k)
    (honto : (i.call build p fd r).Onto k (w.kernel.file k) prog (i.kernel.file k))
    (hserver : w.server p = i.server p) :
    Follows build φ w p [] (Inter.setRunning { i with kernel := (prog.step p i.kernel).2 } p
      (some (fd, (prog.step p i.kernel).1))) := by
  cases prog with
  | done => exact hw.elim
  | getlk => exact hw.elim
  | readRec k' cont =>
    obtain ⟨rfl, hw⟩ := hw
    refine .stay (x := .booking k' fd r) ?_ (by rw [hp]; rfl)
    exact hm.move_booking hi hp (fun q hq => setRunning_of_ne hq) (fun _ _ => ⟨rfl, rfl⟩)
      hm.locks (fun _ _ _ => rfl) (fun _ _ => ⟨rfl, rfl⟩)
      (.booking setRunning_self hb hs (hw _) honto.read hserver) (.inl rfl)
  | writeRec k' v cont =>
    obtain ⟨rfl, hw⟩ := hw
    refine .stay (x := .booking k' fd r) ?_ (by rw [hp]; rfl)
    refine hm.move_booking hi hp (fun q hq => setRunning_of_ne hq) (fun _ _ => ⟨rfl, rfl⟩)
      hm.locks (fun _ _ _ => rfl) (fun k hk => ⟨if_neg hk, rfl⟩)
      (.booking setRunning_self hb hs hw ?_ hserver) (.inl rfl)
    change (i.call build p fd r).Onto k' _ cont (if k' = k' then v else _)
    rw [if_pos rfl]
    exact honto.write
  | setlk k' type cont =>
    obtain ⟨rfl, val, q, sl, rfl⟩ := hw
    have hexec := honto.exec (p := p) (s := w.kernel) rfl
    simp only [Sys.exec] at hexec
    refine .step (serve_step hi hrun hserver hexec) (x := .free none) ?_ (by rw [hp]; rfl)
    refine hm.move_booking hi hp (fun q hq => setRunning_of_ne hq)
      (fun q hq => ⟨rfl, setServer_of_ne hq⟩) ?_ (fun q hq k => LockTable.setlk_of_ne_process hq)
      (fun k hk => ⟨rfl, if_neg hk⟩) (.ended setRunning_self setServer_self) (.inr (if_pos rfl))
    exact congrArg (LockTable.setlk · p k' unlck) hm.locks

theorem follows_finish {out : Outcome} (hm : Matches build φ i w) (hi : InterInv build i)
    (hrun : i.running p = some (fd, .done out)) :
    Follows build φ w p [] (Inter.setRunning { i with
      toWorld := { i.toWorld with kernel := i.kernel.finish p out }.setServer p
        ((i.server p).finish (build p) fd out) } p none) := by
  have hcaller := hm.caller p
  generalize hp : φ p = x at hcaller
  cases hcaller with
  | idle h => rw [hrun] at h; cases h
  | begun h _ hserver =>
    rw [hrun, Option.some.injEq, Prod.mk.injEq] at h
    obtain ⟨rfl, hcall⟩ := h
    exact follows_over hm hi hp hrun hcall.symm hserver
  | asked h _ hask => rw [hrun, hask] at h; cases h
  | booking h _ _ hw => rw [hrun] at h; cases h; exact hw.elim
  | reading h => rw [hrun] at h; cases h
  | ended h hserver =>
    rw [hrun] at h
    cases h
    exact follows_ended hm hi hp hserver

theorem follows_call (hm : Matches build φ i w) (hi : InterInv build i) (hg : Granted i (.call p))
    (hrun : i.running p = some (fd, prog)) :
    Follows build φ w p [] (Inter.setRunning { i with kernel := (prog.step p i.kernel).2 } p
      (some (fd, (prog.step p i.kernel).1))) := by
  have hcaller := hm.caller p
  generalize hp : φ p = x at hcaller
  cases hcaller with
  | idle h => rw [hrun] at h; cases h
  | begun h hl hserver =>
    rw [hrun, Option.some.injEq, Prod.mk.injEq] at h
    obtain ⟨rfl, rfl⟩ := h
    exact follows_begun hm hi hp hrun hl hserver
  | asked h hcall hask hserver =>
    rw [hrun, Option.some.injEq, Prod.mk.injEq] at h
    obtain ⟨rfl, rfl⟩ := h
    simp only [Granted, hrun, hask] at hg
    exact follows_asked hm hi hp hrun hcall hask hserver hg
  | booking h hb hs hw honto hserver =>
    rw [hrun, Option.some.injEq, Prod.mk.injEq] at h
    obtain ⟨rfl, rfl⟩ := h
    exact follows_booking hm hi hp hrun hb hs hw honto hserver
  | reading h _ hserver =>
    rw [hrun] at h
    cases h
    exact follows_reading hm hi hp hserver
  | ended h hserver =>
    rw [hrun] at h
    cases h
    refine .stay (x := .free none) ?_ (by rw [hp]; rfl)
    exact hm.move_same hi (by simp [hp]) (fun q hq => setRunning_of_ne hq) (fun _ _ => ⟨rfl, rfl⟩)
      hm.locks (fun _ _ _ => rfl) rfl rfl (.ended setRunning_self hserver)

/-- `World` can follow every step of the servers. -/
theorem Matches.follows {e : InterEvent P} (hm : Matches build φ i w) (hi : InterInv build i)
    (hg : Granted i e) (h : i.step build e = some i') :
    Follows build φ w e.process e.event.toList i' := by
  cases inter_cases h with
  | accept hrun hc => exact follows_accept hm hi hrun hc
  | recv hrun hc => exact follows_recv hm hi hrun hc
  | finish hrun => exact follows_finish hm hi hrun
  | call hrun => exact follows_call hm hi hg hrun

/-! ## Runs -/

/-- The connections accepted and the calls started by process `p`, in their order. -/
def asked (p : P) (tr : List (Inter P × InterEvent P)) : List (Event P) :=
  (starts tr).filter fun e => e.process = p

def handled (p : P) (tr : List (World P × Event P)) : List (Event P) :=
  (tr.map Prod.snd).filter fun e => e.process = p

/-- A write server is inside the call that books for an open session on `k`, and has not yet given
the lock back. -/
def Inter.AtWork (build : P → Build) (i : Inter P) (k : CInt) : Prop :=
  ∃ p fd prog, build p = .writer ∧ i.running p = some (fd, prog) ∧
    (i.server p).Session .writer fd k ∧ prog.Works k

/-- The run `tr` to `i`, call by call, beside the run `tr'` to `w`, in which each call is one step. -/
structure Beside (build : P → Build) (tr : List (Inter P × InterEvent P)) (i : Inter P)
    (tr' : List (World P × Event P)) (w : World P) : Prop where
  locks : w.kernel.locks = i.kernel.locks
  calls : ∀ p, ∃ pending, asked p tr = handled p tr' ++ pending ∧ pending.length ≤ 1 ∧
    (i.running p = none → pending = [])
  server : ∀ p, i.running p = none → w.server p = i.server p
  sent : ∀ p, (i.server p).sent <+: (w.server p).sent
  file : ∀ k, i.AtWork build k ∨ w.kernel.file k = i.kernel.file k

theorem mem_pending {e : Event P} (h : e ∈ x.pending p) : e.process = p := by
  cases x with
  | free pend =>
    cases pend with
    | none => simp [Phase.pending] at h
    | some y => simp [Phase.pending] at h; rw [h]; rfl
  | booking k fd r => simp [Phase.pending] at h; rw [h]; rfl

theorem mem_event {e : InterEvent P} {ev : Event P} (h : ev ∈ e.event.toList) :
    ev.process = e.process := by
  cases e with
  | accept => simp [InterEvent.event] at h; rw [h]; rfl
  | recv => simp [InterEvent.event] at h; rw [h]; rfl
  | call => simp [InterEvent.event] at h

theorem length_pending_le : (x.pending p).length ≤ 1 := by
  cases x with
  | free pend => cases pend <;> simp [Phase.pending]
  | booking => simp [Phase.pending]

theorem asked_snoc {tr : List (Inter P × InterEvent P)} {e : InterEvent P} :
    asked p (tr ++ [(i, e)]) = asked p tr ++ e.event.toList.filter fun e => e.process = p := by
  simp only [asked, starts, List.filterMap_append, List.filter_append]
  cases he : e.event <;> simp [he]

theorem sent_prefix_finish {b : Build} {sv : Server} {out : Outcome} :
    sv.sent <+: (sv.finish b fd out).sent := by
  cases out with
  | exit => exact List.prefix_rfl
  | ret val q sl => exact List.prefix_append _ _

/-- The phases say how far the run of `World` has got. -/
def InStep (build : P → Build) (tr : List (Inter P × InterEvent P)) (i : Inter P)
    (tr' : List (World P × Event P)) (w : World P) : Prop :=
  ∃ φ, Matches build φ i w ∧ ∀ p, asked p tr = handled p tr' ++ (φ p).pending p

theorem InStep.beside {tr : List (Inter P × InterEvent P)} {tr' : List (World P × Event P)}
    (h : InStep build tr i tr' w) : Beside build tr i tr' w := by
  obtain ⟨φ, hm, hcalls⟩ := h
  refine ⟨hm.locks, fun p => ⟨_, hcalls p, length_pending_le, fun hrun => ?_⟩, fun p hrun => ?_,
    fun p => ?_, fun k => ?_⟩
  · rw [((hm.caller p).of_idle hrun).1]
    rfl
  · exact ((hm.caller p).of_idle hrun).2
  · have hc := hm.caller p
    generalize φ p = x at hc
    cases hc with
    | idle _ h => rw [h]
    | begun _ _ h => rw [h]
    | asked _ _ _ h => rw [h]
    | booking _ _ _ _ _ h => rw [h]
    | reading _ _ h => rw [h]; exact sent_prefix_finish
    | ended _ h => rw [h]; exact sent_prefix_finish
  · rcases hm.file k with ⟨p, fd, r, hp⟩ | h
    · have hc := hm.caller p
      rw [hp] at hc
      cases hc with
      | booking hrun hb hs hw _ _ => exact .inl ⟨p, fd, _, hb, hrun, hs, hw⟩
    · exact .inr h

theorem InStep.step {tr : List (Inter P × InterEvent P)} {tr' : List (World P × Event P)}
    {e : InterEvent P} (h : InStep build tr i tr' w) (hi : InterInv build i) (hg : Granted i e)
    (hs : i.step build e = some i') :
    ∃ more w', Run (World.step build) w more w' ∧
      InStep build (tr ++ [(i, e)]) i' (tr' ++ more) w' := by
  obtain ⟨φ, hm, hcalls⟩ := h
  obtain ⟨x, more, w', hmore, hm', hpend⟩ := hm.follows hi hg hs
  have hmine : ∀ ev ∈ more.map Prod.snd, ev.process = e.process := by
    intro ev hev
    have hmem := List.mem_append_left (x.pending e.process) hev
    rw [← hpend, List.mem_append] at hmem
    rcases hmem with hmem | hmem
    · exact mem_pending hmem
    · exact mem_event hmem
  refine ⟨more, w', hmore, _, hm', fun p => ?_⟩
  simp only [asked_snoc, hcalls p, handled, List.map_append, List.filter_append, List.append_assoc]
  congr 1
  by_cases hp : p = e.process
  · subst hp
    rw [Function.update_self, List.filter_eq_self.2 fun ev hev => by simpa using mem_event hev, hpend,
      List.filter_eq_self.2 fun ev hev => by simpa using hmine ev hev]
  · rw [Function.update_of_ne hp, List.filter_eq_nil_iff.2 fun ev hev => ?_,
      List.filter_eq_nil_iff.2 fun ev hev => ?_, List.append_nil, List.nil_append]
    · simpa [hmine ev hev] using Ne.symm hp
    · simpa [mem_event hev] using Ne.symm hp

/-- As long as no `F_SETLK` fails, calls of `handle_read` that run between one another do what they
would do one after the other, in an order that keeps to the order of each process, and in which a
call that is over comes before a call that starts later. -/
theorem calls_atomic {i0 : Inter P} {tr : List (Inter P × InterEvent P)} (h0 : i0.Init)
    (h : Run (Inter.step build) i0 tr i) (hg : Meets Granted tr) :
    ∃ tr' w, Run (World.step build) i0.toWorld tr' w ∧ Beside build tr i tr' w ∧
      ∀ tr1 x tr2, tr = tr1 ++ x :: tr2 → ∃ tr1' w1 tr2', tr' = tr1' ++ tr2' ∧
        Run (World.step build) i0.toWorld tr1' w1 ∧ Beside build tr1 x.1 tr1' w1 := by
  have hstart : InStep build [] i0 [] i0.toWorld :=
    ⟨fun _ => .free none, ⟨rfl, fun p => .idle (h0.running p) rfl, fun _ => .inr rfl⟩, fun _ => rfl⟩
  obtain ⟨tr', w, hr, hin, hpre⟩ := h.simulated (R := InStep build) (C := Granted)
    (fun tr i e i' tr' w hr hg hin hc hs => by
      obtain ⟨_, hi⟩ := hr.invariant_of_meets (I := InterInv build) (C := Granted)
        (fun _ _ _ hi hc hs => hi.step hc hs) h0.inv hg
      exact hin.step hi hc hs) hstart hg
  refine ⟨tr', w, hr, hin.beside, fun tr1 x tr2 htr => ?_⟩
  obtain ⟨tr1', w1, tr2', htr', hr1, hin1⟩ := hpre tr1 x tr2 htr
  exact ⟨tr1', w1, tr2', htr', hr1, hin1.beside⟩

end

/-- Two write servers whose calls alternate; the first one books while the second one opens a session
on another record. -/
def alternating : List (InterEvent (Fin 2)) :=
  arrive 0 ++ [.call 0, .call 0, .call 0, .call 0, .accept 1 5, .recv 1 5 (.data "902002\r\n".toList),
    .recv 0 5 (.data "1 2 3\r\n".toList), .call 0, .call 1, .call 0, .call 1, .call 0, .call 1, .call 0,
    .call 1, .call 0]

theorem calls_atomic_two : ∃ tr' w,
    Run (World.step fun _ => .writer) (freshWorld (Fin 2)) tr' w ∧
      Beside (fun _ => .writer)
        (traceOf (Inter.step fun _ => .writer) (freshInter (Fin 2)) alternating)
        ((runEvents (Inter.step fun _ => .writer) (freshInter (Fin 2)) alternating).getD
          (freshInter (Fin 2))) tr' w := by
  have hrun : Run (Inter.step fun _ => .writer) (freshInter (Fin 2))
      (traceOf (Inter.step fun _ => .writer) (freshInter (Fin 2)) alternating)
      ((runEvents (Inter.step fun _ => .writer) (freshInter (Fin 2)) alternating).getD
        (freshInter (Fin 2))) := run_traceOf rfl
  obtain ⟨tr', w, hr, hb, _⟩ := calls_atomic (freshInter_init (Fin 2)) hrun (by decide)
  exact ⟨tr', w, hr, hb⟩

end SysProg.Booking
