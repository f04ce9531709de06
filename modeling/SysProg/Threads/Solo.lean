import SysProg.Threads.Schedule

/-!
# SysProg.Threads.Solo

A thread as the only thread of the process. It gets the processor back whenever it leaves, after
`async_read` as soon as its FIFO holds an item, so it does exactly what `Local.next` says
(`solo_run`). With `projects_run`:

* `schedule_independent`: whatever the other threads are and however they are scheduled, the lines
  of a thread are those it prints alone.
-/

namespace SysProg.Threads

open Sched

section

variable {bound : Nat} {w w' : World} {th : Thread}

/-- The process with the only thread `th`, seen from the thread: it runs, or it waits for an item. -/
structure Solo (bound : Nat) (th : Thread) (l : Local) (w : World) : Prop where
  inv : WorldInv bound w
  lines : w.linesOf th.ptr = l.lines
  items : w.fifo th.ptr = l.items
  code : ∀ code, l.code = some code → (w.tcb th.ptr).environment.code = code ∧
    (w.tcb th.ptr).toVars = l.vars ∧
    w.sched.queues =
      if code = .subarrayRead then ⟨[], 0, [th.ptr], .polling⟩ else ⟨[th.ptr], 0, [], .running⟩

/-- The only thread is running. -/
structure SoloRunning (bound : Nat) (th : Thread) (l : Local) (w : World) : Prop where
  inv : WorldInv bound w
  lines : w.linesOf th.ptr = l.lines
  items : w.fifo th.ptr = l.items
  code : l.code = some (w.tcb th.ptr).environment.code
  vars : (w.tcb th.ptr).toVars = l.vars
  queues : w.sched.queues = ⟨[th.ptr], 0, [], .running⟩

theorem SoloRunning.mode {l : Local} (h : SoloRunning bound th l w) : w.sched.mode = .running :=
  congrArg Queues.mode h.queues

theorem SoloRunning.running {l : Local} (h : SoloRunning bound th l w) :
    w.sched.running = th.ptr := by
  have hr := running_eq (h.inv.sched.current_lt h.mode)
  have hready : w.sched.ready = [th.ptr] := congrArg Queues.ready h.queues
  have hcur : w.sched.rqCurrent = 0 := congrArg Queues.current h.queues
  rw [hready, hcur] at hr
  exact (Option.some.inj hr).symm

/-- Nothing is polled, or everything that is polled has an item. -/
theorem pollsOk_false : w.pollsOk (fun _ => false) = true := by
  simp [World.pollsOk]

/-- A thread that waits for an item and has one is resumed by the next round of polling. -/
theorem Solo.wake {l : Local} (h : Solo bound th l w) (hc : l.code = some .subarrayRead)
    (hi : l.items ≠ []) :
    ∃ w', w.step bound (.poll fun _ => true) = some w' ∧ SoloRunning bound th l w' := by
  obtain ⟨hcode, hvars, hq⟩ := h.code _ hc
  rw [if_pos rfl] at hq
  have hm : w.sched.mode = .polling := congrArg Queues.mode hq
  have hwait : w.sched.waiting = [th.ptr] := congrArg Queues.waiting hq
  have hpolls : w.pollsOk (fun _ => true) = true := by
    have hsize : w.sched.wqSize = 1 := by
      have := congrArg List.length hwait
      simpa [Sched.waiting] using this
    have hfirst : w.sched.waitingQueue 0 = th.ptr := by
      simpa [Sched.waiting, hsize, entries] using hwait
    have hfd := h.inv.fd th.ptr (waiting_all (by rw [hwait]; simp))
    simp [World.pollsOk, hsize, hfirst, hfd, h.items, hi]
  have hstep : w.step bound (.poll fun _ => true) =
      some (w.switch (w.sched.orFault (w.sched.pollAgain bound fun _ => true))) := by
    simp only [World.step, World.schedule, if_pos hpolls, Sched.step, if_pos hm, Option.map_some]
  refine ⟨_, hstep, h.inv.step hstep, h.lines, h.items, ?_, hvars, ?_⟩
  · rw [hc]; exact congrArg some hcode.symm
  · obtain ⟨s', hs', hq', _⟩ := @pollAgain_refines bound (fun _ => true) w.sched h.inv.sched hm
    simp only [World.switch, hs', orFault, hq', hq]
    rfl

/-- The only thread goes on to its next point. -/
theorem SoloRunning.next {l l' : Local} (h : SoloRunning bound th l w) (hn : l.next = some l') :
    ∃ w', w.step bound (.run ⟨false, false⟩ fun _ => false) = some w' ∧ Solo bound th l' w' := by
  have hm := h.mode
  have hp := h.running
  have hi := h.inv
  have hseg : (w.tcb th.ptr).environment.code.run l.vars l.items = w.segment := by
    rw [← h.vars, ← h.items, hi.segment_eq hm, hp]
  have howner : w.current.owner = th.ptr := by
    rw [hi.current hm, hi.owner _ (hi.running_all hm), hp]
  simp only [Local.next, h.code] at hn
  split at hn
  · cases hn
  · rw [hseg] at hn
    have hsome : ∀ w', w.step bound (.run ⟨false, false⟩ fun _ => false) = some w' →
        WorldInv bound w' ∧ w'.linesOf th.ptr = l.lines ++ w.segment.line.toList ∧
          w'.fifo th.ptr = w.segment.fifo ∧
          w'.tcb th.ptr = { toVars := w.segment.vars, environment := w.saved } := by
      intro w' hw'
      have hc := run_cases hi hw'
      refine ⟨hi.step hw', ?_, ?_, ?_⟩
      · rw [hc.lines, if_pos howner, h.lines]
      · rw [hc.fifo, ← hp, hi.finish_fifo_self hm]
      · rw [hc.tcb, ← hp, finish_tcb_self]
    have henter : ∀ type, ∃ s', w.sched.step bound (.enter type fun _ => false) = some s' ∧
        s'.queues = Queues.enter type (fun _ => false) ⟨[th.ptr], 0, [], .running⟩ := by
      intro type
      obtain ⟨s', hs', hq', _⟩ := @enter_refines bound (fun _ => false) type w.sched hi.sched hm
      exact ⟨s', by simp only [Sched.step, if_pos hm, hs', orFault], by rw [hq', h.queues]⟩
    rcases hi.segment_stop hm with hs | ⟨c, hs, hc, _⟩ | hs
    · simp only [hs, Option.some.injEq] at hn
      subst hn
      obtain ⟨s', hs', _⟩ := henter .exit
      have hstep : w.step bound (.run ⟨false, false⟩ fun _ => false) =
          some ((w.finish (w.tcb w.sched.running).environment).switch s') := by
        simp only [World.step, if_pos hm, hs, World.schedule, if_pos pollsOk_false]
        rw [show (w.finish (w.tcb w.sched.running).environment).sched = w.sched from rfl, hs']
        rfl
      obtain ⟨h1, h2, h3, _⟩ := hsome _ hstep
      exact ⟨_, hstep, h1, h2, h3, fun code hcode => by cases hcode⟩
    · simp only [hs, Option.some.injEq] at hn
      subst hn
      have hsaved : w.saved = ⟨c, w.current.owner⟩ := by simp only [World.saved, hs, Stop.code]
      have hstep : w.step bound (.run ⟨false, false⟩ fun _ => false) =
          some { w.finish w.saved with current := w.saved } := by
        simp only [World.step, if_pos hm, hs, Pending.caught, Bool.false_eq_true, if_false, hsaved]
      obtain ⟨h1, h2, h3, h4⟩ := hsome _ hstep
      refine ⟨_, hstep, h1, h2, h3, fun code hcode => ?_⟩
      cases hcode
      rw [h4, if_neg hc, hsaved]
      exact ⟨rfl, rfl, h.queues⟩
    · simp only [hs, Option.some.injEq] at hn
      subst hn
      have hsaved : w.saved = ⟨.subarrayRead, w.current.owner⟩ := by
        simp only [World.saved, hs, Stop.code]
      obtain ⟨s', hs', hq'⟩ := henter .read
      have hstep : w.step bound (.run ⟨false, false⟩ fun _ => false) =
          some ((w.finish w.saved).switch s') := by
        simp only [World.step, if_pos hm, hs, World.schedule, if_pos pollsOk_false, ← hsaved]
        rw [show (w.finish w.saved).sched = w.sched from rfl, hs']
        rfl
      obtain ⟨h1, h2, h3, h4⟩ := hsome _ hstep
      refine ⟨_, hstep, h1, h2, h3, fun code hcode => ?_⟩
      cases hcode
      rw [h4, if_pos rfl, hsaved]
      exact ⟨rfl, rfl, hq'⟩

theorem Solo.running {l : Local} {code : Code} (h : Solo bound th l w) (hc : l.code = some code)
    (hne : code ≠ .subarrayRead) : SoloRunning bound th l w := by
  obtain ⟨hcode, hvars, hq⟩ := h.code _ hc
  rw [if_neg hne] at hq
  exact ⟨h.inv, h.lines, h.items, by rw [hc, hcode], hvars, hq⟩

theorem Solo.next {l l' : Local} (h : Solo bound th l w) (hn : l.next = some l') :
    ∃ tr w', Run (World.step bound) w tr w' ∧ arrivals th.ptr tr = [] ∧ Solo bound th l' w' := by
  cases hc : l.code with
  | none => simp only [Local.next, hc, reduceCtorEq] at hn
  | some code =>
    by_cases hr : code = .subarrayRead
    · subst hr
      have hi : l.items ≠ [] := by
        intro hi
        simp only [Local.next, hc, hi, and_self, if_true, reduceCtorEq] at hn
      obtain ⟨w1, h1, hw1⟩ := h.wake hc hi
      obtain ⟨w2, h2, hw2⟩ := hw1.next hn
      exact ⟨_, w2, (Run.nil.snoc h1).snoc h2, by simp [arrivals], hw2⟩
    · obtain ⟨w2, h2, hw2⟩ := (h.running hc hr).next hn
      exact ⟨_, w2, Run.nil.snoc h2, by simp [arrivals], hw2⟩

theorem solo_iter (k : Nat) :
    ∀ {l l' : Local} {w : World}, Solo bound th l w → Local.iter k l = some l' →
      ∃ tr w', Run (World.step bound) w tr w' ∧ arrivals th.ptr tr = [] ∧ Solo bound th l' w' := by
  induction k with
  | zero => intro l l' w h hk; cases hk; exact ⟨[], w, .nil, rfl, h⟩
  | succ k ih =>
    intro l l' w h hk
    simp only [Local.iter, Option.bind_eq_some_iff] at hk
    obtain ⟨l1, h1, h2⟩ := hk
    obtain ⟨tr1, w1, hr1, ha1, hs1⟩ := ih h h1
    obtain ⟨tr2, w2, hr2, ha2, hs2⟩ := hs1.next h2
    exact ⟨_, w2, hr1.trans hr2, by rw [arrivals_append, ha1, ha2, List.append_nil], hs2⟩

/-- All items arrive before the thread starts. -/
theorem solo_arrivals (items : List Item) :
    ∀ {l : Local} {w : World}, Solo bound th l w → l.code ≠ some .subarrayRead →
      ∃ tr w', Run (World.step bound) w tr w' ∧ arrivals th.ptr tr = items ∧
        Solo bound th (l.addItems items) w' := by
  induction items with
  | nil =>
    intro l w h _
    exact ⟨[], w, .nil, rfl, by simpa [Local.addItems] using h⟩
  | cons item items ih =>
    intro l w h hne
    have hstep : w.step bound (.arrive th.ptr item) =
        some { w with fifo := upd w.fifo th.ptr (w.fifo th.ptr ++ [item]) } := rfl
    have h1 : Solo bound th (l.addItems [item])
        { w with fifo := upd w.fifo th.ptr (w.fifo th.ptr ++ [item]) } :=
      ⟨h.inv.step hstep, h.lines, by simp [Local.addItems, h.items], h.code⟩
    obtain ⟨tr, w', hr, ha, hs⟩ := ih h1 hne
    refine ⟨_, w', (Run.nil.snoc hstep).trans hr, ?_, ?_⟩
    · rw [arrivals_append, ha]; simp [arrivals]
    · simpa [Local.addItems] using hs

theorem solo_start {heap : Ptr → Tcb} (h : Startable bound [th]) :
    Solo bound th (Local.start th []) (World.start bound heap [th]) := by
  have htcb : (World.start bound heap [th]).tcb th.ptr = th.setup :=
    setupAll_of_mem h.nodup th (by simp)
  refine ⟨.start h, rfl, rfl, fun code hcode => ?_⟩
  cases hcode
  have hne : th.func.start ≠ .subarrayRead := by cases th.func <;> simp [Func.start]
  rw [htcb, if_neg hne]
  exact ⟨rfl, rfl, start_queues heap h⟩

/-- What the thread does by itself, it does as the only thread. -/
theorem solo_run {heap : Ptr → Tcb} (h : Startable bound [th]) {items : List Item} {k : Nat}
    {l : Local} (hk : Local.iter k (Local.start th items) = some l) :
    ∃ tr w, Run (World.step bound) (World.start bound heap [th]) tr w ∧
      arrivals th.ptr tr = items ∧ w.linesOf th.ptr = l.lines := by
  have hne : (Local.start th []).code ≠ some .subarrayRead := by
    cases hf : th.func <;> simp [Local.start, Func.start, hf]
  obtain ⟨tr1, w1, hr1, ha1, hs1⟩ := solo_arrivals items (@solo_start bound th heap h) hne
  obtain ⟨tr2, w2, hr2, ha2, hs2⟩ := solo_iter k hs1 hk
  exact ⟨_, w2, hr1.trans hr2, by rw [arrivals_append, ha1, ha2, List.append_nil], hs2.lines⟩

end

/-! ## Any schedule -/

/-- One list is a beginning of the other. -/
def Comparable {α : Type*} (l l' : List α) : Prop := l <+: l' ∨ l' <+: l

/-- What a run of the threads `ths` to `w` looks like to each thread. -/
structure Independent (bound : Nat) (ths : List Thread) (tr : List (World × WorldEvent))
    (w : World) : Prop where
  /-- The code that is executed is that of the thread `RUNNING` points to. -/
  running : w.sched.mode = .running → w.current.owner = w.sched.running
  /-- No step changes the `tcb` of a thread that does not run in it. -/
  frame : ∀ e w' p, w.step bound e = some w' →
    ((∃ pending polls, e = .run pending polls) → p ≠ w.sched.running) → w'.tcb p = w.tcb p
  /-- The lines of a thread are lines it prints when it is alone, with the same items. -/
  alone : ∀ th ∈ ths, ∀ heap, ∃ tr' w', Run (World.step bound) (World.start bound heap [th]) tr' w' ∧
    arrivals th.ptr tr' = arrivals th.ptr tr ∧ w'.linesOf th.ptr = w.linesOf th.ptr
  /-- All runs of the thread alone print the same sequence. -/
  sequence : ∀ th ∈ ths, ∀ th' heap tr' w', th.Alike th' → Startable bound [th'] →
    Run (World.step bound) (World.start bound heap [th']) tr' w' →
    Comparable (arrivals th.ptr tr) (arrivals th'.ptr tr') →
    Comparable (w.linesOf th.ptr) (w'.linesOf th'.ptr)

theorem lines_comparable {th th' : Thread} (h : th.Alike th') {j k : Nat} {items items' : List Item}
    (hitems : Comparable items items') {l l' : Local}
    (hj : Local.iter j (Local.start th items) = some l)
    (hk : Local.iter k (Local.start th' items') = some l') : Comparable l.lines l'.lines := by
  have hsymm : th'.Alike th := ⟨h.1.symm, h.2.1.symm, h.2.2.symm⟩
  have hsame : ∀ {items : List Item} {l l' : Local},
      Local.iter j (Local.start th items) = some l →
      Local.iter k (Local.start th' items) = some l' → Comparable l.lines l'.lines := by
    intro items l l' hj hk
    rcases Nat.le_total j k with hjk | hjk
    · exact .inl (Local.lines_prefix h hjk (List.prefix_refl _) hj hk)
    · exact .inr (Local.lines_prefix hsymm hjk (List.prefix_refl _) hk hj)
  rcases hitems with hi | hi
  · obtain ⟨more, rfl⟩ := hi
    have hj := Local.iter_append more j hj
    rw [Local.start_addItems] at hj
    have hlines := hsame hj hk
    exact hlines
  · obtain ⟨more, rfl⟩ := hi
    have hk := Local.iter_append more k hk
    rw [Local.start_addItems] at hk
    have hlines := hsame hj hk
    exact hlines

/-- Any set of threads, any signals, any order in which the FIFOs become readable: every thread
prints what it prints alone. -/
theorem schedule_independent {bound : Nat} {heap : Ptr → Tcb} {ths : List Thread}
    {tr : List (World × WorldEvent)} {w : World} (h : Startable bound ths)
    (hr : Run (World.step bound) (World.start bound heap ths) tr w) :
    Independent bound ths tr w := by
  obtain ⟨hi, hproj⟩ := projects_run h hr
  have hone : ∀ th ∈ ths, Startable bound [th] := by
    intro th hth
    refine ⟨by simp, by simp, ?_, fun th' hth' => ?_⟩
    · have := List.length_pos_of_mem hth
      have := h.length
      simp only [List.length_singleton]
      omega
    · rw [List.mem_singleton.1 hth']; exact h.arg th hth
  refine ⟨fun hm => ?_, fun e w' p hs hp => tcb_frame hi hs hp, ?_, ?_⟩
  · rw [hi.current hm, hi.owner _ (hi.running_all hm)]
  · intro th hth heap'
    obtain ⟨k, l, hl⟩ := hproj th hth
    obtain ⟨tr', w', hr', ha, hlines⟩ := @solo_run bound th heap' (hone th hth) _ _ _ hl.iter
    exact ⟨tr', w', hr', ha, by rw [hlines, hl.lines]⟩
  · intro th hth th' heap' tr' w' halike hstart hr' hcomp
    obtain ⟨k, l, hl⟩ := hproj th hth
    obtain ⟨k', l', hl'⟩ := (projects_run hstart hr').2 th' (by simp)
    rw [← hl.lines, ← hl'.lines]
    exact lines_comparable halike hcomp hl.iter hl'.iter

/-- Two threads; `collatz` is interrupted while `max_subarray` waits for its second item. -/
def pair : List Thread :=
  [⟨0, .collatz, 1, 3, 0, []⟩, ⟨1, .maxSubarray, 2, 2, 0, []⟩]

def pairEvents : List WorldEvent :=
  [.arrive 1 ⟨"   7\n".toList, rfl⟩, .run ⟨true, false⟩ fun _ => false,
    .run ⟨false, false⟩ fun _ => false, .run ⟨false, true⟩ fun _ => true,
    .run ⟨false, false⟩ fun _ => false]

theorem pair_startable : Startable 2 pair := by
  refine ⟨by decide, by decide, by decide, ?_⟩
  intro th hth hf
  simp only [pair, List.mem_cons, List.not_mem_nil, or_false] at hth
  rcases hth with rfl | rfl
  · decide
  · cases hf

theorem schedule_independent_pair :
    Independent 2 pair
      (traceOf (World.step 2) (World.start 2 (fun _ => pair[0].setup) pair) pairEvents)
      ((runEvents (World.step 2) (World.start 2 (fun _ => pair[0].setup) pair) pairEvents).getD
        (World.start 2 (fun _ => pair[0].setup) pair)) :=
  schedule_independent pair_startable (run_traceOf rfl)

end SysProg.Threads
