import SysProg.Threads.Solo

/-!
# SysProg.Threads.Signals

The process with its signals as the kernel keeps them: those that are pending, those that are
blocked, and the alarm clock (`init_signal` and `start_threading` of `HW3/main.c`, `thread_yield` of
`HW3/threadtools.h`, `sighandler` of `HW3/scheduler.c`). A signal that is pending and not blocked can
be delivered anywhere. While a thread is inside `thread_yield`, the clock, the terminal and the
writers of the FIFOs go on.

* `Proc.step`: a segment of a thread, one of the calls of `thread_yield`, a delivery, the handler.
* `Masked`: both signals are blocked everywhere but in `sigsuspend`, which waits for one that is
  pending.
* `signals_refine`: every run is a run of `World`, where leaving a thread is one step.
* `signals_handled`: where the handler can start, and that a thread in `thread_yield` gets out of it.
* `pending_switches`: a thread that yields while a signal is pending does not go on.
-/

namespace SysProg.Threads

open Sched

inductive Signal where
  | tstp
  | alrm
  deriving DecidableEq

abbrev SigSet := Signal → Bool

def sigemptyset : SigSet := fun _ => false

def sigaddset (m : SigSet) (signo : Signal) : SigSet := Function.update m signo true

/-! The masks of `init_signal` -/

def baseMask : SigSet := sigaddset (sigaddset sigemptyset .tstp) .alrm

def tstpMask : SigSet := sigaddset sigemptyset .tstp

def alrmMask : SigSet := sigaddset sigemptyset .alrm

structure Kernel where
  pending : SigSet
  blocked : SigSet
  /-- `alarm` has been called and its time is not over. -/
  armed : Bool

/-- Where the process is. `env` is where `thread_yield` returns to. -/
inductive Place where
  /-- In the code of a thread, in the loop of `scheduler`, or at the end. -/
  | code
  /-- In `thread_yield`, before `sigpending`. -/
  | yield (env : Env)
  /-- Before `waiting_mask` is looked at. -/
  | pending (env : Env) (waitingMask : SigSet)
  /-- In `sigsuspend`, which does not return: the handler jumps to the scheduler. -/
  | suspend
  | handler (signo : Signal)

structure Proc where
  world : World
  kernel : Kernel
  place : Place

inductive ProcEvent where
  /-- The running thread goes on to the next point where it can be left. -/
  | work (polls : Nat → Bool)
  | sigpending
  /-- The tests of `waiting_mask`, and the call of `sigsuspend` if there is one. -/
  | sigsuspend
  | deliver (signo : Signal)
  | handler (polls : Nat → Bool)
  | poll (polls : Nat → Bool)
  | arrive (fd : Nat) (item : Item)
  /-- Somebody sends `SIGTSTP`. -/
  | stop
  /-- The time of `alarm` is over. -/
  | expire

/-- `printf` in `sighandler`. -/
def Signal.caught : Signal → Text
  | .tstp => "caught SIGTSTP\n".toList
  | .alrm => "caught SIGALRM\n".toList

namespace Kernel

def raise (k : Kernel) (signo : Signal) : Kernel :=
  { k with pending := Function.update k.pending signo true }

/-- `signal` blocks the signal as long as its handler runs. -/
def deliver (k : Kernel) (signo : Signal) : Kernel :=
  { k with pending := Function.update k.pending signo false, blocked := sigaddset k.blocked signo }

def alarm (k : Kernel) (timeslice : CInt) : Kernel := { k with armed := decide (timeslice ≠ 0) }

end Kernel

namespace Proc

/-- `sighandler`, up to its jump. -/
def sighandler (timeslice : CInt) (p : Proc) (signo : Signal) : Proc where
  world := { p.world with out := p.world.out ++ [(none, signo.caught)] }
  kernel := { (if signo = .alrm then p.kernel.alarm timeslice else p.kernel) with blocked := baseMask }
  place := .code

def step (bound : Nat) (timeslice : CInt) (p : Proc) : ProcEvent → Option Proc
  | .work polls =>
    match p.place with
    | .code =>
      if p.world.sched.mode = .running then
        match p.world.segment.stop with
        | .yield code =>
          let env : Env := ⟨code, p.world.current.owner⟩
          some { p with world := p.world.finish env, place := .yield env }
        -- The other ways to leave do not look at the signals.
        | _ => (p.world.step bound (.run ⟨false, false⟩ polls)).map fun w => { p with world := w }
      else none
    | _ => none
  | .sigpending =>
    match p.place with
    | .yield env => some { p with place := .pending env p.kernel.pending }
    | _ => none
  | .sigsuspend =>
    match p.place with
    | .pending env waitingMask =>
      if waitingMask .tstp then
        some { p with kernel := { p.kernel with blocked := alrmMask }, place := .suspend }
      else if waitingMask .alrm then
        some { p with kernel := { p.kernel with blocked := tstpMask }, place := .suspend }
      else some { p with world := { p.world with current := env }, place := .code }
    | _ => none
  | .deliver signo =>
    if p.kernel.pending signo = true ∧ p.kernel.blocked signo = false then
      some { p with kernel := p.kernel.deliver signo, place := .handler signo }
    else none
  | .handler polls =>
    match p.place with
    | .handler signo =>
      let p' := p.sighandler timeslice signo
      (p'.world.schedule bound (.enter .yield polls) polls).map fun w => { p' with world := w }
    | _ => none
  | .poll polls =>
    match p.place with
    | .code => (p.world.step bound (.poll polls)).map fun w => { p with world := w }
    | _ => none
  | .arrive fd item => (p.world.step bound (.arrive fd item)).map fun w => { p with world := w }
  | .stop => some { p with kernel := p.kernel.raise .tstp }
  | .expire =>
    if p.kernel.armed then some { p with kernel := { p.kernel.raise .alrm with armed := false } }
    else none

/-- `start_threading`, up to the first thread. `SIGTSTP` may have come since `init_signal`. -/
def start (bound : Nat) (timeslice : CInt) (heap : Ptr → Tcb) (ths : List Thread) (early : Bool) :
    Proc where
  world := World.start bound heap ths
  kernel := Kernel.alarm ⟨fun signo => early && decide (signo = .tstp), baseMask, false⟩ timeslice
  place := .code

end Proc

/-! ## The masks -/

/-- What is blocked and what is pending at a place. -/
def Masked : Place → Kernel → Prop
  | .pending _ waitingMask, k =>
    k.blocked = baseMask ∧ ∀ signo, waitingMask signo = true → k.pending signo = true
  | .suspend, k => ∃ signo, k.pending signo = true ∧ k.blocked signo = false ∧
      ∀ other, other ≠ signo → k.blocked other = true
  | _, k => k.blocked = baseMask

@[simp] theorem baseMask_apply (signo : Signal) : baseMask signo = true := by
  cases signo <;> rfl

theorem raise_pending {k : Kernel} {signo other : Signal} (h : k.pending other = true) :
    (k.raise signo).pending other = true := by
  by_cases he : other = signo
  · rw [he]
    exact Function.update_self ..
  · exact (Function.update_of_ne he ..).trans h

/-- Signals may come at any place. -/
theorem Masked.mono {pl : Place} {k k' : Kernel} (h : Masked pl k) (hb : k'.blocked = k.blocked)
    (hp : ∀ signo, k.pending signo = true → k'.pending signo = true) : Masked pl k' := by
  cases pl with
  | code => exact hb.trans h
  | yield env => exact hb.trans h
  | pending env m => exact ⟨hb.trans h.1, fun signo hm => hp signo (h.2 signo hm)⟩
  | suspend =>
    obtain ⟨signo, hs, hf, hall⟩ := h
    exact ⟨signo, hp signo hs, hb ▸ hf, fun other ho => hb ▸ hall other ho⟩
  | handler signo => exact hb.trans h

/-- Only in `sigsuspend` a signal can be delivered, and then both are blocked again. -/
theorem Masked.deliver {pl : Place} {k : Kernel} {signo : Signal} (h : Masked pl k)
    (hb : k.blocked signo = false) : pl = .suspend ∧ (k.deliver signo).blocked = baseMask := by
  have hbase : k.blocked ≠ baseMask := by
    intro e
    rw [e, baseMask_apply] at hb
    cases hb
  cases pl with
  | code => exact absurd h hbase
  | yield env => exact absurd h hbase
  | pending env m => exact absurd h.1 hbase
  | suspend =>
    obtain ⟨other, -, -, hall⟩ := h
    have ho : signo = other := by
      by_contra hne
      rw [hall signo hne] at hb
      cases hb
    refine ⟨rfl, funext fun x => ?_⟩
    rw [baseMask_apply]
    by_cases hx : x = signo
    · rw [hx]
      exact Function.update_self ..
    · exact (Function.update_of_ne hx ..).trans (hall x (ho ▸ hx))
  | handler signo => exact absurd h hbase

/-! ## Beside the world -/

def Place.env : Place → Option Env
  | .yield env => some env
  | .pending env _ => some env
  | _ => none

/-- The segment of `w` is done, and the thread is inside `thread_yield`. -/
structure Yielding (p : Proc) (w : World) (code : Code) : Prop where
  place : p.place ≠ .code
  mode : w.sched.mode = .running
  stop : w.segment.stop = .yield code
  world : p.world = w.finish ⟨code, w.current.owner⟩
  env : ∀ env, p.place.env = some env → env = ⟨code, w.current.owner⟩

/-- A thread in `thread_yield` has not yet taken its step in `w`. -/
def Beside (p : Proc) (w : World) : Prop :=
  (p.place = .code ∧ p.world = w) ∨ ∃ code, Yielding p w code

def World.arrive (w : World) (fd : Nat) (item : Item) : World :=
  { w with fifo := upd w.fifo fd (w.fifo fd ++ [item]) }

section

variable {bound : Nat} {timeslice : CInt} {p p' : Proc} {w w' : World} {polls : Nat → Bool}
  {code : Code} {d : Nat} {item : Item}

/-- The item comes too late for the segment. -/
theorem segment_arrive (hi : WorldInv bound w) (hm : w.sched.mode = .running) :
    (w.arrive d item).segment =
      { w.segment with
        fifo := if (w.tcb w.sched.running).fd = d then w.segment.fifo ++ [item] else w.segment.fifo } := by
  have hread : w.current.code = .subarrayRead → w.fifo (w.tcb w.sched.running).fd ≠ [] := by
    intro hc
    rw [hi.fd _ (hi.running_all hm)]
    refine hi.items _ (running_mem (hi.sched.current_lt hm)) ?_
    rw [← hi.current hm]
    exact hc
  by_cases he : (w.tcb w.sched.running).fd = d
  · have hfifo : (w.arrive d item).fifo (w.tcb w.sched.running).fd =
        w.fifo (w.tcb w.sched.running).fd ++ [item] := by
      subst he
      exact upd_self _ _ _
    rw [if_pos he]
    show w.current.code.run _ ((w.arrive d item).fifo (w.tcb w.sched.running).fd) = _
    rw [hfifo]
    exact Local.run_append _ _ [item] hread
  · have hfifo : (w.arrive d item).fifo (w.tcb w.sched.running).fd =
        w.fifo (w.tcb w.sched.running).fd := upd_of_ne he
    rw [if_neg he]
    show w.current.code.run _ ((w.arrive d item).fifo (w.tcb w.sched.running).fd) = _
    rw [hfifo]
    rfl

theorem finish_arrive (hi : WorldInv bound w) (hm : w.sched.mode = .running) (env : Env) :
    (w.arrive d item).finish env = (w.finish env).arrive d item := by
  simp only [World.finish, segment_arrive hi hm]
  simp only [World.arrive, World.mk.injEq, true_and, and_true]
  funext x
  by_cases he : (w.tcb w.sched.running).fd = d
  · subst he
    by_cases hx : x = (w.tcb w.sched.running).fd
    · subst hx
      simp
    · simp [upd_of_ne hx]
  · by_cases hx : x = d
    · subst hx
      simp [upd_of_ne (Ne.symm he), he]
    · by_cases hf : x = (w.tcb w.sched.running).fd
      · subst hf
        simp [upd_of_ne hx, he]
      · simp [upd_of_ne hx, upd_of_ne hf]

theorem Yielding.arrive (hi : WorldInv bound w) (h : Yielding p w code) :
    Yielding { p with world := p.world.arrive d item } (w.arrive d item) code where
  place := h.place
  mode := h.mode
  stop := by
    rw [segment_arrive hi h.mode]
    exact h.stop
  world := by
    rw [finish_arrive hi h.mode, h.world]
    rfl
  env := h.env

/-! ## One step -/

def ProcEvent.items (d : Nat) : ProcEvent → List Item
  | .arrive fd item => if fd = d then [item] else []
  | _ => []

/-- What the world does meanwhile. -/
def Follows (bound : Nat) (p' : Proc) (w : World) (e : ProcEvent) : Prop :=
  ∃ more w', Run (World.step bound) w more w' ∧ Masked p'.place p'.kernel ∧ Beside p' w' ∧
    ∀ d, arrivals d more = e.items d

theorem work_cases (h : p.step bound timeslice (.work polls) = some p') :
    p.place = .code ∧ p.world.sched.mode = .running ∧
      ((∃ code, p.world.segment.stop = .yield code ∧
          p' = { p with
            world := p.world.finish ⟨code, p.world.current.owner⟩
            place := .yield ⟨code, p.world.current.owner⟩ }) ∨
        (∀ code, p.world.segment.stop ≠ .yield code) ∧
          ∃ w, p.world.step bound (.run ⟨false, false⟩ polls) = some w ∧ p' = { p with world := w }) := by
  simp only [Proc.step] at h
  split at h
  · rename_i hpl
    split at h
    · rename_i hm
      refine ⟨hpl, hm, ?_⟩
      split at h
      · rename_i code hs
        cases h
        exact .inl ⟨code, hs, rfl⟩
      · rename_i hne
        obtain ⟨w, hw, rfl⟩ := Option.map_eq_some_iff.1 h
        exact .inr ⟨hne, w, hw, rfl⟩
    · cases h
  · cases h

theorem beside_code (hb : Beside p w) (hpl : p.place = .code) : p.world = w := by
  rcases hb with ⟨-, hw⟩ | ⟨code, hy⟩
  · exact hw
  · exact absurd hpl hy.place

theorem beside_inside (hb : Beside p w) (hpl : p.place ≠ .code) : ∃ code, Yielding p w code := by
  rcases hb with ⟨he, -⟩ | hy
  · exact absurd he hpl
  · exact hy

theorem Beside.congr (hb : Beside p w) (hw : p'.world = p.world) (hpl : p'.place = p.place) :
    Beside p' w := by
  rcases hb with ⟨he, hw'⟩ | ⟨code, hy⟩
  · exact .inl ⟨hpl.trans he, hw.trans hw'⟩
  · exact .inr ⟨code, hpl ▸ hy.place, hy.mode, hy.stop, hw.trans hy.world, hpl ▸ hy.env⟩

theorem follows_work (hk : Masked p.place p.kernel) (hb : Beside p w)
    (h : p.step bound timeslice (.work polls) = some p') : Follows bound p' w (.work polls) := by
  obtain ⟨hpl, hm, hcase⟩ := work_cases h
  obtain rfl := beside_code hb hpl
  have hbase : p.kernel.blocked = baseMask := by
    rw [hpl] at hk
    exact hk
  rcases hcase with ⟨code, hs, rfl⟩ | ⟨-, w', hw, rfl⟩
  · exact ⟨[], _, .nil, hbase, .inr ⟨code, nofun, hm, hs, rfl, fun env he => (Option.some.inj he).symm⟩,
      fun d => rfl⟩
  · exact ⟨_, w', Run.nil.snoc hw, hk, .inl ⟨hpl, rfl⟩, fun d => by simp [arrivals, ProcEvent.items]⟩

theorem follows_sigpending (hk : Masked p.place p.kernel) (hb : Beside p w)
    (h : p.step bound timeslice .sigpending = some p') : Follows bound p' w .sigpending := by
  simp only [Proc.step] at h
  split at h
  · rename_i env hpl
    cases h
    rw [hpl] at hk
    obtain ⟨code, hy⟩ := beside_inside hb (by rw [hpl]; nofun)
    have henv : ∀ e, some env = some e → e = ⟨code, w.current.owner⟩ := by
      intro e he
      exact hy.env e (by rw [hpl]; exact he)
    exact ⟨[], w, .nil, ⟨hk, fun _ hm => hm⟩, .inr ⟨code, nofun, hy.mode, hy.stop, hy.world, henv⟩,
      fun d => rfl⟩
  · cases h

/-- Without a signal the thread goes on. -/
theorem step_uncaught (hm : w.sched.mode = .running) (hs : w.segment.stop = .yield code) :
    w.step bound (.run ⟨false, false⟩ polls) =
      some { w.finish ⟨code, w.current.owner⟩ with current := ⟨code, w.current.owner⟩ } := by
  simp only [World.step, if_pos hm, hs]
  rfl

/-- With one, the scheduler gets it. -/
theorem step_caught (hm : w.sched.mode = .running) (hs : w.segment.stop = .yield code)
    (signo : Signal) :
    w.step bound (.run ⟨decide (signo = .tstp), decide (signo = .alrm)⟩ polls) =
      { w.finish ⟨code, w.current.owner⟩ with
        out := (w.finish ⟨code, w.current.owner⟩).out ++ [(none, signo.caught)] }.schedule bound
          (.enter .yield polls) polls := by
  simp only [World.step, if_pos hm, hs]
  cases signo with
  | tstp => rfl
  | alrm => rfl

theorem follows_sigsuspend (hk : Masked p.place p.kernel) (hb : Beside p w)
    (h : p.step bound timeslice .sigsuspend = some p') : Follows bound p' w .sigsuspend := by
  simp only [Proc.step] at h
  split at h
  · rename_i env m hpl
    rw [hpl] at hk
    obtain ⟨hbase, hm⟩ := hk
    obtain ⟨code, hy⟩ := beside_inside hb (by rw [hpl]; nofun)
    have henv : env = ⟨code, w.current.owner⟩ := hy.env env (by rw [hpl]; rfl)
    split at h
    · rename_i ht
      cases h
      refine ⟨[], w, .nil, ⟨.tstp, hm .tstp ht, rfl, fun other ho => ?_⟩,
        .inr ⟨code, nofun, hy.mode, hy.stop, hy.world, nofun⟩, fun d => rfl⟩
      cases other with
      | tstp => exact absurd rfl ho
      | alrm => rfl
    · split at h
      · rename_i ha
        cases h
        refine ⟨[], w, .nil, ⟨.alrm, hm .alrm ha, rfl, fun other ho => ?_⟩,
          .inr ⟨code, nofun, hy.mode, hy.stop, hy.world, nofun⟩, fun d => rfl⟩
        cases other with
        | tstp => rfl
        | alrm => exact absurd rfl ho
      · cases h
        have hstep := @step_uncaught bound w (fun _ => false) code hy.mode hy.stop
        refine ⟨_, _, Run.nil.snoc hstep, hbase, .inl ⟨rfl, ?_⟩, fun d => by
          simp [arrivals, ProcEvent.items]⟩
        rw [hy.world, henv]
  · cases h

theorem follows_deliver {signo : Signal} (hk : Masked p.place p.kernel) (hb : Beside p w)
    (h : p.step bound timeslice (.deliver signo) = some p') :
    Follows bound p' w (.deliver signo) := by
  simp only [Proc.step] at h
  split at h
  · rename_i hp
    cases h
    obtain ⟨hpl, hbase⟩ := hk.deliver hp.2
    obtain ⟨code, hy⟩ := beside_inside hb (by rw [hpl]; nofun)
    exact ⟨[], w, .nil, hbase, .inr ⟨code, nofun, hy.mode, hy.stop, hy.world, nofun⟩, fun d => rfl⟩
  · cases h

theorem follows_handler (hb : Beside p w) (h : p.step bound timeslice (.handler polls) = some p') :
    Follows bound p' w (.handler polls) := by
  simp only [Proc.step] at h
  split at h
  · rename_i signo hpl
    obtain ⟨w', hw, rfl⟩ := Option.map_eq_some_iff.1 h
    obtain ⟨code, hy⟩ := beside_inside hb (by rw [hpl]; nofun)
    rw [Proc.sighandler, hy.world, ← step_caught hy.mode hy.stop signo] at hw
    exact ⟨_, w', Run.nil.snoc hw, rfl, .inl ⟨rfl, rfl⟩, fun d => by simp [arrivals, ProcEvent.items]⟩
  · cases h

theorem follows_poll (hk : Masked p.place p.kernel) (hb : Beside p w)
    (h : p.step bound timeslice (.poll polls) = some p') : Follows bound p' w (.poll polls) := by
  simp only [Proc.step] at h
  split at h
  · rename_i hpl
    obtain rfl := beside_code hb hpl
    obtain ⟨w', hw, rfl⟩ := Option.map_eq_some_iff.1 h
    exact ⟨_, w', Run.nil.snoc hw, hk, .inl ⟨hpl, rfl⟩, fun d => by simp [arrivals, ProcEvent.items]⟩
  · cases h

theorem follows_arrive (hi : WorldInv bound w) (hk : Masked p.place p.kernel) (hb : Beside p w)
    (h : p.step bound timeslice (.arrive d item) = some p') : Follows bound p' w (.arrive d item) := by
  cases h
  have hstep : w.step bound (.arrive d item) = some (w.arrive d item) := rfl
  refine ⟨_, _, Run.nil.snoc hstep, hk, ?_, fun x => by simp [arrivals, ProcEvent.items]⟩
  rcases hb with ⟨hpl, rfl⟩ | ⟨code, hy⟩
  · exact .inl ⟨hpl, rfl⟩
  · exact .inr ⟨code, hy.arrive hi⟩

theorem beside_step {e : ProcEvent} (hi : WorldInv bound w) (hk : Masked p.place p.kernel)
    (hb : Beside p w) (h : p.step bound timeslice e = some p') : Follows bound p' w e := by
  cases e with
  | work polls => exact follows_work hk hb h
  | sigpending => exact follows_sigpending hk hb h
  | sigsuspend => exact follows_sigsuspend hk hb h
  | deliver signo => exact follows_deliver hk hb h
  | handler polls => exact follows_handler hb h
  | poll polls => exact follows_poll hk hb h
  | arrive d item => exact follows_arrive hi hk hb h
  | stop =>
    cases h
    exact ⟨[], w, .nil, hk.mono rfl fun _ => raise_pending, hb.congr rfl rfl, fun d => rfl⟩
  | expire =>
    simp only [Proc.step] at h
    split at h
    · cases h
      exact ⟨[], w, .nil, hk.mono rfl fun _ => raise_pending, hb.congr rfl rfl, fun d => rfl⟩
    · cases h

end

/-! ## Runs -/

def procArrivals (d : Nat) (tr : List (Proc × ProcEvent)) : List Item :=
  tr.flatMap fun x => x.2.items d

section

variable {bound : Nat} {timeslice : CInt} {heap : Ptr → Tcb} {ths : List Thread} {early : Bool}
  {tr : List (Proc × ProcEvent)} {p : Proc}

/-- Every run is a run of `World`, in which leaving a thread is one step. -/
theorem signals_refine (h : Startable bound ths)
    (hr : Run (Proc.step bound timeslice) (Proc.start bound timeslice heap ths early) tr p) :
    ∃ tr' w, Run (World.step bound) (World.start bound heap ths) tr' w ∧ Beside p w ∧
      Masked p.place p.kernel ∧ ∀ d, arrivals d tr' = procArrivals d tr := by
  let R (tr : List (Proc × ProcEvent)) (p : Proc) (tr' : List (World × WorldEvent)) (w : World) : Prop :=
    WorldInv bound w ∧ Beside p w ∧ Masked p.place p.kernel ∧ ∀ d, arrivals d tr' = procArrivals d tr
  have hstep : ∀ tr p e p' tr' w,
      Run (Proc.step bound timeslice) (Proc.start bound timeslice heap ths early) tr p →
      Meets (fun _ _ => True) tr → R tr p tr' w → True → Proc.step bound timeslice p e = some p' →
      ∃ more w', Run (World.step bound) w more w' ∧ R (tr ++ [(p, e)]) p' (tr' ++ more) w' := by
    rintro tr p e p' tr' w - - ⟨hi, hb, hk, ha⟩ - hp
    obtain ⟨more, w', hmore, hk', hb', ha'⟩ := beside_step hi hk hb hp
    refine ⟨more, w', hmore, hmore.invariant (fun _ _ _ h hs => h.step hs) hi, hb', hk', fun d => ?_⟩
    rw [arrivals_append, ha, ha', procArrivals, procArrivals, List.flatMap_append]
    simp
  have h0 : R [] (Proc.start bound timeslice heap ths early) [] (World.start bound heap ths) :=
    ⟨.start h, .inl ⟨rfl, rfl⟩, rfl, fun _ => rfl⟩
  obtain ⟨tr', w, hr', ⟨-, hb, hk, ha⟩, -⟩ := hr.simulated hstep h0 fun _ _ => trivial
  exact ⟨tr', w, hr', hb, hk, ha⟩

end

/-- `SIGTSTP` comes first and the clock second; `collatz` is interrupted twice. -/
def pairSignals : List ProcEvent :=
  [.stop, .work fun _ => false, .expire, .sigpending, .sigsuspend, .deliver .tstp,
    .arrive 1 ⟨"  12\n".toList, rfl⟩, .handler fun _ => false, .work fun _ => false,
    .work fun _ => true, .sigpending, .sigsuspend, .deliver .alrm, .handler fun _ => false,
    .work fun _ => false]

def pairProc : Proc := Proc.start 2 5 (fun _ => pair[0].setup) pair false

def pairAfter (es : List ProcEvent) : Proc := (runEvents (Proc.step 2 5) pairProc es).getD pairProc

theorem pair_run {es : List ProcEvent} (h : (runEvents (Proc.step 2 5) pairProc es).isSome = true) :
    Run (Proc.step 2 5) pairProc (traceOf (Proc.step 2 5) pairProc es) (pairAfter es) :=
  run_getD h

theorem signals_refine_pair :
    ∃ tr' w, Run (World.step 2) (World.start 2 (fun _ => pair[0].setup) pair) tr' w ∧
      Beside (pairAfter pairSignals) w ∧
      Masked (pairAfter pairSignals).place (pairAfter pairSignals).kernel ∧
      ∀ d, arrivals d tr' = procArrivals d (traceOf (Proc.step 2 5) pairProc pairSignals) :=
  signals_refine pair_startable (pair_run rfl)

/-! ## Inside thread_yield -/

/-- The steps of the process itself. -/
def ProcEvent.own : ProcEvent → Bool
  | .arrive _ _ => false
  | .stop => false
  | .expire => false
  | _ => true

/-- How many steps of its own the process is from the end of `thread_yield`, or of the handler. -/
def Place.left : Place → Nat
  | .code => 0
  | .handler _ => 1
  | .suspend => 2
  | .pending _ _ => 3
  | .yield _ => 4

section

variable {bound : Nat} {timeslice : CInt} {p p' : Proc} {w : World} {e : ProcEvent}

theorem left_own (hk : Masked p.place p.kernel) (hpl : p.place ≠ .code)
    (h : p.step bound timeslice e = some p') (ho : e.own = true) : p'.place.left < p.place.left := by
  cases e with
  | work polls => exact absurd (work_cases h).1 hpl
  | sigpending =>
    simp only [Proc.step] at h
    split at h
    · rename_i env he
      cases h
      rw [he]
      simp [Place.left]
    · cases h
  | sigsuspend =>
    simp only [Proc.step] at h
    split at h
    · rename_i env m he
      rw [he]
      split at h
      · cases h
        simp [Place.left]
      · split at h
        · cases h
          simp [Place.left]
        · cases h
          simp [Place.left]
    · cases h
  | deliver signo =>
    simp only [Proc.step] at h
    split at h
    · rename_i hp
      cases h
      rw [(hk.deliver hp.2).1]
      simp [Place.left]
    · cases h
  | handler polls =>
    simp only [Proc.step] at h
    split at h
    · rename_i signo he
      obtain ⟨w', -, rfl⟩ := Option.map_eq_some_iff.1 h
      rw [he]
      exact Nat.one_pos
    · cases h
  | poll polls =>
    simp only [Proc.step] at h
    cases h
  | arrive d item => cases ho
  | stop => cases ho
  | expire => cases ho

theorem place_other (h : p.step bound timeslice e = some p') (ho : e.own = false) :
    p'.place = p.place := by
  cases e with
  | arrive d item =>
    cases h
    rfl
  | stop =>
    cases h
    rfl
  | expire =>
    simp only [Proc.step] at h
    split at h
    · cases h
      rfl
    · cases h
  | _ => cases ho

theorem own_enabled (hk : Masked p.place p.kernel) (hb : Beside p w) (hpl : p.place ≠ .code) :
    ∃ e, e.own = true ∧ (p.step bound timeslice e).isSome = true := by
  obtain ⟨code, hy⟩ := beside_inside hb hpl
  cases hp : p.place with
  | code => exact absurd hp hpl
  | yield env => exact ⟨.sigpending, rfl, by simp [Proc.step, hp]⟩
  | pending env m =>
    refine ⟨.sigsuspend, rfl, ?_⟩
    simp only [Proc.step, hp]
    split
    · rfl
    · split
      · rfl
      · rfl
  | suspend =>
    rw [hp] at hk
    obtain ⟨signo, hs, hf, -⟩ := hk
    exact ⟨.deliver signo, rfl, by simp [Proc.step, hs, hf]⟩
  | handler signo =>
    have hm : (p.sighandler timeslice signo).world.sched.mode = .running := by
      show p.world.sched.mode = _
      rw [hy.world]
      exact hy.mode
    refine ⟨.handler fun _ => false, rfl, ?_⟩
    simp only [Proc.step, hp]
    rw [World.schedule, if_pos pollsOk_false, Sched.step, if_pos hm]
    rfl

end

section

variable {bound : Nat} {timeslice : CInt} {heap : Ptr → Tcb} {ths : List Thread} {early : Bool}
  {tr : List (Proc × ProcEvent)} {p : Proc}

/-- The handler interrupts nothing but `sigsuspend`. A thread inside `thread_yield` never waits: the
process can take a step of its own, at most four of them end the call, and nothing that comes from
outside adds to them. -/
theorem signals_handled (h : Startable bound ths)
    (hr : Run (Proc.step bound timeslice) (Proc.start bound timeslice heap ths early) tr p) :
    (∀ signo, (p.step bound timeslice (.deliver signo)).isSome = true → p.place = .suspend) ∧
      (p.place ≠ .code → p.place.left ≤ 4 ∧
        (∃ e, e.own = true ∧ (p.step bound timeslice e).isSome = true) ∧
        ∀ e p', p.step bound timeslice e = some p' →
          if e.own = true then p'.place.left < p.place.left else p'.place = p.place) := by
  obtain ⟨tr', w, -, hb, hk, -⟩ := signals_refine h hr
  refine ⟨fun signo hs => ?_, fun hpl => ⟨?_, own_enabled hk hb hpl, fun e p' hp => ?_⟩⟩
  · simp only [Proc.step] at hs
    split at hs
    · rename_i hd
      exact (hk.deliver hd.2).1
    · cases hs
  · cases p.place with
    | code => simp [Place.left]
    | yield env => simp [Place.left]
    | pending env m => simp [Place.left]
    | suspend => simp [Place.left]
    | handler signo => simp [Place.left]
  · split
    · rename_i ho
      exact left_own hk hpl hp ho
    · rename_i ho
      exact place_other hp (by simpa using ho)

end

theorem signals_handled_pair :
    (∀ signo, ((pairAfter (pairSignals.take 4)).step 2 5 (.deliver signo)).isSome = true →
        (pairAfter (pairSignals.take 4)).place = .suspend) ∧
      ((pairAfter (pairSignals.take 4)).place ≠ .code → (pairAfter (pairSignals.take 4)).place.left ≤ 4 ∧
        (∃ e, e.own = true ∧ ((pairAfter (pairSignals.take 4)).step 2 5 e).isSome = true) ∧
        ∀ e p', (pairAfter (pairSignals.take 4)).step 2 5 e = some p' →
          if e.own = true then p'.place.left < (pairAfter (pairSignals.take 4)).place.left
          else p'.place = (pairAfter (pairSignals.take 4)).place) :=
  signals_handled pair_startable (pair_run rfl)

/-! ## A pending signal takes the processor away -/

/-- The thread will not come back from `thread_yield` by itself. -/
def GivesWay (p : Proc) : Prop :=
  match p.place with
  | .code => False
  | .yield _ => ∃ signo, p.kernel.pending signo = true
  | .pending _ waitingMask => ∃ signo, waitingMask signo = true
  | .suspend => True
  | .handler _ => True

section

variable {bound : Nat} {timeslice : CInt} {p p' : Proc} {e : ProcEvent}

theorem GivesWay.mono (hg : GivesWay p) (hpl : p'.place = p.place)
    (hp : ∀ signo, p.kernel.pending signo = true → p'.kernel.pending signo = true) : GivesWay p' := by
  unfold GivesWay at hg ⊢
  rw [hpl]
  cases hcase : p.place with
  | code =>
    rw [hcase] at hg
    exact hg
  | yield env =>
    rw [hcase] at hg
    obtain ⟨signo, hs⟩ := hg
    exact ⟨signo, hp signo hs⟩
  | pending env m =>
    rw [hcase] at hg
    exact hg
  | suspend => trivial
  | handler signo => trivial

theorem GivesWay.step (hg : GivesWay p) (h : p.step bound timeslice e = some p')
    (hh : ∀ polls, e ≠ .handler polls) : GivesWay p' := by
  have hpl : p.place ≠ .code := by
    intro hc
    rw [GivesWay, hc] at hg
    exact hg
  cases e with
  | work polls => exact absurd (work_cases h).1 hpl
  | sigpending =>
    simp only [Proc.step] at h
    split at h
    · rename_i env he
      cases h
      rw [GivesWay, he] at hg
      exact hg
    · cases h
  | sigsuspend =>
    simp only [Proc.step] at h
    split at h
    · rename_i env m he
      rw [GivesWay, he] at hg
      split at h
      · cases h
        trivial
      · rename_i ht
        split at h
        · cases h
          trivial
        · rename_i ha
          obtain ⟨signo, hs⟩ := hg
          cases signo with
          | tstp => exact absurd hs ht
          | alrm => exact absurd hs ha
    · cases h
  | deliver signo =>
    simp only [Proc.step] at h
    split at h
    · cases h
      trivial
    · cases h
  | handler polls => exact absurd rfl (hh polls)
  | poll polls =>
    simp only [Proc.step] at h
    cases h
  | arrive d item =>
    cases h
    exact hg.mono rfl fun _ hs => hs
  | stop =>
    cases h
    exact hg.mono rfl fun _ => raise_pending
  | expire =>
    simp only [Proc.step] at h
    split at h
    · cases h
      exact hg.mono rfl fun _ => raise_pending
    · cases h

/-- A thread that yields while a signal is pending leaves the processor: until the handler has run,
no thread does. -/
theorem pending_switches {p0 : Proc} {tr1 tr2 : List (Proc × ProcEvent)} {polls : Nat → Bool}
    {signo : Signal} {code : Code}
    (hr : Run (Proc.step bound timeslice) p0 (tr1 ++ (p, .work polls) :: tr2) p')
    (hp : p.kernel.pending signo = true) (hs : p.world.segment.stop = .yield code)
    (hno : ∀ x ∈ tr2, ∀ polls, x.2 ≠ .handler polls) : p'.place ≠ .code := by
  suffices hg : GivesWay p' by
    intro hc
    rw [GivesWay, hc] at hg
    exact hg
  induction tr2 using List.reverseRecOn generalizing p' with
  | nil =>
    obtain ⟨-, hstep⟩ := hr.last
    obtain ⟨-, -, ⟨code', -, rfl⟩ | ⟨hne, -⟩⟩ := work_cases hstep
    · exact ⟨signo, hp⟩
    · exact absurd hs (hne code)
  | append_singleton tr2 x ih =>
    rw [← List.cons_append, ← List.append_assoc] at hr
    obtain ⟨hr, hstep⟩ := hr.last
    have hg := ih hr fun y hy => hno y (List.mem_append_left _ hy)
    exact hg.step hstep (hno x (List.mem_append_right _ (List.mem_singleton_self x)))

end

theorem pending_switches_pair :
    (pairAfter [.stop, .work fun _ => false, .sigpending, .expire]).place ≠ .code := by
  have hr : Run (Proc.step 2 5) pairProc
      ([(pairProc, .stop)] ++ (pairAfter [.stop], .work fun _ => false) ::
        [(pairAfter [.stop, .work fun _ => false], .sigpending),
          (pairAfter [.stop, .work fun _ => false, .sigpending], .expire)])
      (pairAfter [.stop, .work fun _ => false, .sigpending, .expire]) :=
    @pair_run [.stop, .work fun _ => false, .sigpending, .expire] rfl
  have hp : (pairAfter [.stop]).kernel.pending .tstp = true := rfl
  have hs : (pairAfter [.stop]).world.segment.stop = .yield .collatzYield := rfl
  exact pending_switches hr hp hs (by simp)

end SysProg.Threads
