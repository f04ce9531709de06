import Mathlib.Data.List.Nodup
import SysProg.Threads.Schedule

/-!
# SysProg.Threads.Created

Threads with any arguments, as `init_threads` creates them. A `collatz` thread with the argument 1
ends the process as soon as it runs, so the other threads do until then what they would do if its
argument were another one.

* `initThreads`: what `init_threads` creates.
* `Thread.mend`, `World.mend`: the same threads with 2 in place of that argument.
* `mend_step`: as long as no such thread runs, the two processes do the same.
* `created_run`: in every run each other thread is where it would be by itself.
-/

namespace SysProg.Threads

open Sched

/-- `init_threads`. `malloc`, `i` and `buf` are where the `tcb` of a thread is and what is there. -/
def initThreads (malloc : Func → Ptr) (i : Func → CInt) (buf : Func → Text)
    (fibArg colArg subArg : CInt) : List Thread :=
  let create (func : Func) (id arg : CInt) : List Thread :=
    if 0 ≤ arg.toInt then [⟨malloc func, func, id, arg, i func, buf func⟩] else []
  create .fibonacci 0 fibArg ++ create .collatz 1 colArg ++ create .maxSubarray 2 subArg

/-- The threads can be created: there is one, and their places in memory differ. -/
structure Creatable (bound : Nat) (ths : List Thread) : Prop where
  ne : ths ≠ []
  nodup : (ths.map (·.ptr)).Nodup
  length : ths.length ≤ bound

/-- The thread falls off the end of its function. -/
def Thread.falls (th : Thread) : Bool := decide (th.func = .collatz ∧ th.arg = 1)

def Thread.mend (th : Thread) : Thread := if th.falls then { th with arg := 2 } else th

def fallsAt (ths : List Thread) (p : Ptr) : Bool := ths.any fun th => th.falls && decide (th.ptr = p)

def World.mend (ths : List Thread) (w : World) : World :=
  { w with tcb := fun p => if fallsAt ths p then { w.tcb p with arg := 2 } else w.tcb p }

/-- The process has come to the end of a thread function. -/
def World.stopped (w : World) : World := { w with sched := { w.sched with mode := .fault } }

section

variable {bound : Nat} {ths : List Thread} {th : Thread} {p : Ptr}

theorem initThreads_arg {malloc : Func → Ptr} {i : Func → CInt} {buf : Func → Text}
    {fibArg colArg subArg : CInt} (h : th ∈ initThreads malloc i buf fibArg colArg subArg) :
    0 ≤ th.arg.toInt := by
  have hone : ∀ (func : Func) (id arg : CInt),
      th ∈ (if 0 ≤ arg.toInt then [⟨malloc func, func, id, arg, i func, buf func⟩] else []) →
      0 ≤ th.arg.toInt := by
    intro func id arg hth
    split at hth
    · rw [List.mem_singleton.1 hth]
      assumption
    · cases hth
  simp only [initThreads, List.mem_append] at h
  rcases h with (h | h) | h
  · exact hone _ _ _ h
  · exact hone _ _ _ h
  · exact hone _ _ _ h

theorem initThreads_creatable {malloc : Func → Ptr} (i : Func → CInt) (buf : Func → Text)
    {fibArg colArg subArg : CInt} (hm : Function.Injective malloc)
    (h : 0 ≤ fibArg.toInt ∨ 0 ≤ colArg.toInt ∨ 0 ≤ subArg.toInt) :
    Creatable THREAD_MAX (initThreads malloc i buf fibArg colArg subArg) := by
  have hone : ∀ (c : Prop) [Decidable c] (th : Thread),
      ((if c then [th] else []).map (·.ptr)).Sublist [th.ptr] := by
    intro c _ th
    split <;> simp
  have hsub : ((initThreads malloc i buf fibArg colArg subArg).map (·.ptr)).Sublist
      [malloc .fibonacci, malloc .collatz, malloc .maxSubarray] := by
    simp only [initThreads, List.map_append]
    exact ((hone _ _).append (hone _ _)).append (hone _ _)
  refine ⟨?_, hsub.nodup ?_, ?_⟩
  · simp only [initThreads, ne_eq, List.append_eq_nil_iff, not_and_or]
    rcases h with h | h | h
    · exact .inl (.inl (by simp [h]))
    · exact .inl (.inr (by simp [h]))
    · exact .inr (by simp [h])
  · simp [hm.eq_iff]
  · have := hsub.length_le
    rw [List.length_map] at this
    simp only [List.length_cons, List.length_nil] at this
    unfold THREAD_MAX
    omega

theorem Creatable.unique (h : Creatable bound ths) {th th' : Thread} (hth : th ∈ ths)
    (hth' : th' ∈ ths) (he : th.ptr = th'.ptr) : th = th' :=
  List.inj_on_of_nodup_map h.nodup hth hth' he

theorem fallsAt_iff : fallsAt ths p = true ↔ ∃ th ∈ ths, th.falls = true ∧ th.ptr = p := by
  simp [fallsAt]

theorem Creatable.fallsAt_ptr (h : Creatable bound ths) (hth : th ∈ ths) :
    fallsAt ths th.ptr = th.falls := by
  cases hf : th.falls with
  | true => exact fallsAt_iff.2 ⟨th, hth, hf, rfl⟩
  | false =>
    rw [← Bool.not_eq_true, fallsAt_iff]
    rintro ⟨th', hth', hf', he⟩
    rw [h.unique hth' hth he, hf] at hf'
    cases hf'

theorem mend_ptr (th : Thread) : th.mend.ptr = th.ptr := by
  unfold Thread.mend
  split <;> rfl

theorem mend_of_not_falls (h : th.falls = false) : th.mend = th := by
  rw [Thread.mend, h]
  rfl

theorem map_mend_ptr (ths : List Thread) : (ths.map Thread.mend).map (·.ptr) = ths.map (·.ptr) := by
  rw [List.map_map]
  exact List.map_congr_left fun th _ => mend_ptr th

theorem Creatable.mend (h : Creatable bound ths) : Startable bound (ths.map Thread.mend) := by
  refine ⟨by simpa using h.ne, ?_, by simpa using h.length, ?_⟩
  · rw [map_mend_ptr]
    exact h.nodup
  · intro th hth hf ha
    obtain ⟨th, -, rfl⟩ := List.mem_map.1 hth
    unfold Thread.mend at hf ha
    split at hf
    · rename_i hfalls
      rw [if_pos hfalls] at ha
      exact absurd ha (by simp)
    · rename_i hfalls
      rw [if_neg hfalls] at ha
      exact hfalls (decide_eq_true ⟨hf, ha⟩)

theorem mend_start (h : Creatable bound ths) (heap : Ptr → Tcb) :
    (World.start bound heap ths).mend ths = World.start bound heap (ths.map Thread.mend) := by
  have htcb : (fun p => if fallsAt ths p then { setupAll heap ths p with arg := 2 }
      else setupAll heap ths p) = setupAll heap (ths.map Thread.mend) := by
    funext p
    by_cases hp : p ∈ ths.map (·.ptr)
    · obtain ⟨th, hth, rfl⟩ := List.mem_map.1 hp
      have h1 : setupAll heap (ths.map Thread.mend) th.mend.ptr = th.mend.setup :=
        setupAll_of_mem h.mend.nodup _ (List.mem_map_of_mem hth)
      rw [mend_ptr] at h1
      rw [h1, h.fallsAt_ptr hth, setupAll_of_mem h.nodup th hth, Thread.mend]
      split <;> rfl
    · have hf : fallsAt ths p = false := by
        rw [← Bool.not_eq_true, fallsAt_iff]
        rintro ⟨th, hth, -, rfl⟩
        exact hp (List.mem_map_of_mem hth)
      rw [setupAll_of_notMem hp, setupAll_of_notMem (by rwa [map_mend_ptr]), hf]
      rfl
  simp only [World.mend, World.start, map_mend_ptr, ← htcb]
  congr 1
  split <;> rfl

/-- A thread that is created alone runs. -/
structure Alone (th : Thread) (w : World) : Prop where
  mode : w.sched.mode = .running
  running : w.sched.running = th.ptr
  segment : w.segment = th.func.start.run th.setup.toVars []

theorem creatable_alone (th : Thread) : Creatable 1 [th] :=
  ⟨List.cons_ne_nil _ _, List.nodup_singleton _, Nat.le_refl 1⟩

theorem start_alone (heap : Ptr → Tcb) (th : Thread) : Alone th (World.start 1 heap [th]) := by
  obtain ⟨hready, -, hcur, hmode, -⟩ := start_spec (List.cons_ne_nil th.ptr []) (Nat.le_refl 1)
  have hsize : (Sched.start 1 [th.ptr]).rqSize = 1 := by
    rw [← length_ready]
    exact congrArg List.length hready
  have hrun : (World.start 1 heap [th]).sched.running = th.ptr := by
    have h := running_eq (s := Sched.start 1 [th.ptr]) (by omega)
    rw [hready, hcur] at h
    exact (Option.some.inj h).symm
  have htcb : setupAll heap [th] th.ptr = th.setup :=
    setupAll_of_mem (creatable_alone th).nodup th (List.mem_singleton_self th)
  refine ⟨hmode, hrun, ?_⟩
  change (setupAll heap [th] (World.start 1 heap [th]).sched.running).environment.code.run
    (setupAll heap [th] (World.start 1 heap [th]).sched.running).toVars [] = _
  rw [hrun, htcb]
  rfl

/-! ## The two processes -/

variable {w w' : World} {polls : Nat → Bool} {e : WorldEvent}

theorem mend_env (p : Ptr) : ((w.mend ths).tcb p).environment = (w.tcb p).environment := by
  simp only [World.mend]
  split <;> rfl

theorem mend_fd (p : Ptr) : ((w.mend ths).tcb p).fd = (w.tcb p).fd := by
  simp only [World.mend]
  split <;> rfl

theorem mend_tcb (h : fallsAt ths p = false) : (w.mend ths).tcb p = w.tcb p := by
  simp [World.mend, h]

theorem mend_pollsOk : (w.mend ths).pollsOk polls = w.pollsOk polls := by
  simp only [World.pollsOk, mend_fd]
  rfl

theorem mend_switch (s : Sched) : (w.mend ths).switch s = (w.switch s).mend ths := by
  simp only [World.switch, mend_env]
  rfl

theorem mend_schedule (e : SchedEvent) :
    (w.mend ths).schedule bound e polls = (w.schedule bound e polls).map (World.mend ths) := by
  rw [World.schedule, World.schedule, mend_pollsOk]
  split
  · rw [Option.map_map]
    exact congrArg (fun f => Option.map f (w.sched.step bound e)) (funext mend_switch)
  · rfl

theorem mend_segment (h : fallsAt ths w.sched.running = false) : (w.mend ths).segment = w.segment := by
  have ht : (w.mend ths).tcb (w.mend ths).sched.running = w.tcb w.sched.running := mend_tcb h
  simp only [World.segment, ht]
  rfl

theorem mend_finish (h : fallsAt ths w.sched.running = false) (env : Env) :
    (w.mend ths).finish env = (w.finish env).mend ths := by
  have ht : (w.mend ths).tcb (w.mend ths).sched.running = w.tcb w.sched.running := mend_tcb h
  simp only [World.finish, mend_segment h, ht]
  simp only [World.mend]
  congr 1
  funext p
  by_cases e : p = w.sched.running
  · subst e
    simp [h]
  · simp [upd_of_ne e]

/-- A step in which no `collatz` thread falls. -/
theorem mend_step (hb : (∃ pending polls, e = .run pending polls) →
      fallsAt ths w.sched.running = false) :
    (w.mend ths).step bound e = (w.step bound e).map (World.mend ths) := by
  cases e with
  | arrive d item => rfl
  | poll polls => exact mend_schedule _
  | run pending polls =>
    have hf := hb ⟨pending, polls, rfl⟩
    have henv : ((w.mend ths).tcb (w.mend ths).sched.running).environment =
        (w.tcb w.sched.running).environment := mend_env _
    simp only [World.step, mend_segment hf, mend_finish hf, henv]
    by_cases hm : w.sched.mode = .running
    · have hm' : (w.mend ths).sched.mode = .running := hm
      rw [if_pos hm, if_pos hm']
      cases w.segment.stop with
      | yield code =>
        cases pending.caught with
        | none => rfl
        | some text =>
          exact mend_schedule (w := { w.finish ⟨code, w.current.owner⟩ with
            out := (w.finish ⟨code, w.current.owner⟩).out ++ [(none, text)] }) _
      | read code => exact mend_schedule _
      | exit => exact mend_schedule _
      | fell => rfl
    · have hm' : ¬ (w.mend ths).sched.mode = .running := hm
      rw [if_neg hm, if_neg hm']
      rfl

/-- Whatever stops a thread, no `tcb` but its own is touched. -/
theorem step_tcb (h : w.step bound e = some w')
    (hp : (∃ pending polls, e = .run pending polls) → p ≠ w.sched.running) :
    w'.tcb p = w.tcb p := by
  cases e with
  | arrive d item => cases h; rfl
  | poll polls => rw [(schedule_frame h).1]
  | run pending polls =>
    have hne := hp ⟨pending, polls, rfl⟩
    simp only [World.step] at h
    split at h
    · split at h
      · split at h
        · cases h
          exact finish_tcb_of_ne hne
        · rw [(schedule_frame h).1]
          exact finish_tcb_of_ne hne
      · rw [(schedule_frame h).1]
        exact finish_tcb_of_ne hne
      · rw [(schedule_frame h).1]
        exact finish_tcb_of_ne hne
      · cases h
        exact finish_tcb_of_ne hne
    · cases h

/-- A `collatz` thread that starts at 1 ends the process and leaves everything as it is. -/
theorem step_falls {pending : Pending} (hcode : w.current.code = .collatzStart)
    (harg : (w.tcb w.sched.running).arg = 1)
    (h : w.step bound (.run pending polls) = some w') : w' = w.stopped := by
  have hseg : w.segment = ⟨(w.tcb w.sched.running).toVars,
      w.fifo (w.tcb w.sched.running).fd, none, .fell⟩ := by
    rw [World.segment, hcode, Code.run, collatzLoop, if_neg (by simp [harg])]
  simp only [World.step, hseg] at h
  split at h
  · cases h
    have htcb : (w.finish (w.tcb w.sched.running).environment).tcb = w.tcb := by
      funext p
      by_cases e : p = w.sched.running
      · rw [e, finish_tcb_self, hseg]
      · exact finish_tcb_of_ne e
    have hfifo : (w.finish (w.tcb w.sched.running).environment).fifo = w.fifo := by
      funext d
      simp only [World.finish, hseg]
      by_cases e : d = (w.tcb w.sched.running).fd
      · rw [e, upd_self]
      · exact upd_of_ne e
    have hout : (w.finish (w.tcb w.sched.running).environment).out = w.out := by
      simp [World.finish, hseg]
    rw [htcb, hfifo, hout]
    rfl
  · cases h

theorem stopped_step (h : w.stopped.step bound e = some w') :
    ∃ w1, w.step bound e = some w1 ∧ w' = w1.stopped ∧ ∃ d item, e = .arrive d item := by
  cases e with
  | arrive d item => cases h; exact ⟨_, rfl, rfl, d, item, rfl⟩
  | poll polls =>
    obtain ⟨-, s, hs, -⟩ := schedule_some h
    have hm : ¬ w.stopped.sched.mode = .polling := nofun
    rw [Sched.step, if_neg hm] at hs
    cases hs
  | run pending polls =>
    have hm : ¬ w.stopped.sched.mode = .running := by
      intro hm
      cases hm
    rw [World.step, if_neg hm] at h
    cases h

/-! ## Runs -/

/-- The world `w` that a run of `ths` has come to, with the world `w0` that the run of the mended
threads comes to by the trace `tr'`. -/
structure Mended (bound : Nat) (heap : Ptr → Tcb) (ths : List Thread) (w w0 : World)
    (tr tr' : List (World × WorldEvent)) : Prop where
  run : Run (World.step bound) (World.start bound heap (ths.map Thread.mend)) tr' (w0.mend ths)
  asleep : ∀ p, fallsAt ths p = true → w0.tcb p = setupAll heap ths p
  same : w = w0 ∨ w = w0.stopped
  arrived : ∀ d, arrivals d tr' = arrivals d tr

variable {heap : Ptr → Tcb} {w0 : World} {tr tr' : List (World × WorldEvent)}

theorem Mended.inv (h : Creatable bound ths) (hm : Mended bound heap ths w w0 tr tr') :
    WorldInv bound (w0.mend ths) := (tracks_run h.mend hm.run).1

theorem Mended.step_same (h : Creatable bound ths) (hm : Mended bound heap ths w w0 tr tr')
    (hw : w = w0) (hs : w.step bound e = some w') :
    ∃ w1 tr1, Mended bound heap ths w' w1 (tr ++ [(w, e)]) tr1 := by
  subst hw
  by_cases hb : (∃ pending polls, e = .run pending polls) ∧ fallsAt ths w.sched.running = true
  · obtain ⟨⟨pending, polls, rfl⟩, hf⟩ := hb
    have hmode : w.sched.mode = .running := by
      by_contra hmode
      rw [World.step, if_neg hmode] at hs
      cases hs
    obtain ⟨th, hth, hfalls, hp⟩ := fallsAt_iff.1 hf
    have ht : w.tcb w.sched.running = th.setup := by
      rw [hm.asleep _ hf, ← hp]
      exact setupAll_of_mem h.nodup th hth
    have hfa := of_decide_eq_true hfalls
    have hcur : w.current = (w.tcb w.sched.running).environment :=
      ((hm.inv h).current hmode).trans (mend_env _)
    have hcode : w.current.code = .collatzStart := by
      rw [hcur, ht, Thread.setup, hfa.1]
      rfl
    have harg : (w.tcb w.sched.running).arg = 1 := by
      rw [ht]
      exact hfa.2
    refine ⟨w, tr', hm.run, hm.asleep, .inr (step_falls hcode harg hs), fun d => ?_⟩
    rw [arrivals_append, hm.arrived]
    simp [arrivals]
  · have hb' : (∃ pending polls, e = .run pending polls) → fallsAt ths w.sched.running = false :=
      fun he => by simpa using fun hf => hb ⟨he, hf⟩
    have hstep : (w.mend ths).step bound e = some (w'.mend ths) := by
      rw [mend_step hb', hs]
      rfl
    refine ⟨w', _, hm.run.snoc hstep, fun p hp => ?_, .inl rfl, fun d => ?_⟩
    · rw [← hm.asleep p hp]
      refine step_tcb hs fun he hrun => ?_
      rw [hrun, hb' he] at hp
      cases hp
    · rw [arrivals_append, arrivals_append, hm.arrived]
      rfl

theorem Mended.step_stopped (hm : Mended bound heap ths w w0 tr tr') (hw : w = w0.stopped)
    (hs : w.step bound e = some w') :
    ∃ w1 tr1, Mended bound heap ths w' w1 (tr ++ [(w, e)]) tr1 := by
  subst hw
  obtain ⟨w1, h1, rfl, d, item, rfl⟩ := stopped_step hs
  have hstep : (w0.mend ths).step bound (.arrive d item) = some (w1.mend ths) := by
    rw [mend_step (by rintro ⟨_, _, he⟩; cases he), h1]
    rfl
  refine ⟨w1, _, hm.run.snoc hstep, fun p hp => ?_, .inr rfl, fun d => ?_⟩
  · rw [← hm.asleep p hp]
    exact step_tcb h1 (by rintro ⟨_, _, he⟩; cases he)
  · rw [arrivals_append, arrivals_append, hm.arrived]
    rfl

theorem mended_run (h : Creatable bound ths)
    (hr : Run (World.step bound) (World.start bound heap ths) tr w) :
    ∃ w0 tr', Mended bound heap ths w w0 tr tr' := by
  induction hr with
  | nil =>
    refine ⟨World.start bound heap ths, [], ?_, fun p _ => rfl, .inl rfl, fun _ => rfl⟩
    rw [mend_start h]
    exact .nil
  | snoc _ hs ih =>
    obtain ⟨w0, tr', hm⟩ := ih
    rcases hm.same with hw | hw
    · exact hm.step_same h hw hs
    · exact hm.step_stopped hw hs

theorem Mended.tracks (h : Creatable bound ths) (hm : Mended bound heap ths w w0 tr tr')
    (hth : th ∈ ths) (hf : th.falls = false) : ∃ k l, Tracks th (arrivals th.ptr tr) w k l := by
  obtain ⟨k, l, hl⟩ := (tracks_run h.mend hm.run).2 th.mend (List.mem_map_of_mem hth)
  rw [mend_of_not_falls hf, hm.arrived] at hl
  have ht : (w0.mend ths).tcb th.ptr = w0.tcb th.ptr := mend_tcb (by rw [h.fallsAt_ptr hth, hf])
  have hcode := hl.code
  have hvars := hl.vars
  rw [ht] at hcode hvars
  rcases hm.same with rfl | rfl
  · exact ⟨k, l, ⟨hl.iter, hl.lines, hl.items, hcode, hvars⟩, hl.gone⟩
  · exact ⟨k, l, ⟨hl.iter, hl.lines, hl.items, hcode, hvars⟩, hl.gone⟩

/-- When the thread runs, it goes on where it has been left. -/
structure GoesOn (l : Local) (w : World) (c : Code) : Prop where
  code : l.code = some c
  segment : w.segment = c.run l.vars l.items
  items : ¬ (c = .subarrayRead ∧ l.items = [])
  arg : c.inCollatz → l.vars.arg ≠ 1

/-- Threads with any arguments: one that does not fall is where it would be by itself. -/
theorem created_run (h : Creatable bound ths)
    (hr : Run (World.step bound) (World.start bound heap ths) tr w) (hth : th ∈ ths)
    (hf : th.falls = false) : ∃ k l, Tracks th (arrivals th.ptr tr) w k l ∧
      (w.sched.mode = .running → w.sched.running = th.ptr → ∃ c, GoesOn l w c) ∧
      (w.sched.mode = .returned → l.code = none) := by
  obtain ⟨w0, tr', hm⟩ := mended_run h hr
  obtain ⟨k, l, hl⟩ := hm.tracks h hth hf
  have hi := hm.inv h
  refine ⟨k, l, hl, fun hmode hrun => ?_, fun hmode => ?_⟩
  · obtain rfl : w = w0 := by
      rcases hm.same with hw | rfl
      · exact hw
      · cases hmode
    have hfalls : fallsAt ths w.sched.running = false := by rw [hrun, h.fallsAt_ptr hth, hf]
    have hall : th.ptr ∈ w.sched.queues.all := hrun ▸ hi.running_all hmode
    have ht : (w.mend ths).tcb (w.mend ths).sched.running = w.tcb th.ptr := by
      rw [← hrun]
      exact mend_tcb hfalls
    have hseg := hi.segment_eq hmode
    rw [mend_segment hfalls, ht] at hseg
    refine ⟨(w.tcb th.ptr).environment.code, hl.code hall, ?_, ?_, ?_⟩
    · rw [hseg, hl.vars hall, hl.items, ← hrun]
      rfl
    · rintro ⟨hc, hi0⟩
      have hne := hi.items _ (running_mem (hi.sched.current_lt hmode))
      rw [ht] at hne
      rw [hl.items, ← hrun] at hi0
      exact hne hc hi0
    · have ha := hi.arg _ (hi.running_all hmode)
      rw [ht] at ha
      rw [hl.vars hall]
      exact ha
  · obtain rfl : w = w0 := by
      rcases hm.same with hw | rfl
      · exact hw
      · cases hmode
    refine hl.gone fun hmem => ?_
    have hnil : w.sched.queues.all = [] := hi.sched.ok.returned hmode
    rw [hnil] at hmem
    cases hmem

end

/-! ## Three arguments -/

def place : Func → Ptr
  | .fibonacci => 0
  | .collatz => 1
  | .maxSubarray => 2

theorem place_injective : Function.Injective place := by
  intro f g h
  cases f <;> cases g <;> cases h <;> rfl

/-- The threads of the process with the three arguments. -/
def created (fibArg colArg subArg : CInt) : List Thread :=
  initThreads place (fun _ => 0) (fun _ => []) fibArg colArg subArg

end SysProg.Threads
