import SysProg.Threads.Conserve

/-!
# SysProg.Threads.Sweeps

The scheduler goes through the ready queue from the front to the end, sets `rq_current` to 0 and
starts again: a sweep.

* `Sched.resets`: the step in which the end is reached.
* `resumed`: the threads that are resumed in a run, `readers`: those that read.
* `entered_slot`: where an entry leaves a thread that waits for its turn.
* `Swept`: in the course of a sweep, the threads that have not had their turn stand from
  `rq_current` on, and those that have had it and did not read stand before it or have exited.
* `sweep_resumes`: a sweep resumes every thread that was ready at its start, and only once if the
  thread does not read.
-/

namespace SysProg.Threads

open Sched

/-- The condition of `if(rq_current == rq_size)` where it is come to with a thread ready. -/
def Sched.atEnd : Option Sched → Bool
  | some s => decide (s.rqSize ≠ 0 ∧ s.rqCurrent = s.rqSize)
  | none => false

/-- The step sets `rq_current` to 0. -/
def Sched.resets (bound : Nat) (s : Sched) : SchedEvent → Bool
  | .enter type polls => atEnd ((s.sweep bound polls).bind (dispatch bound type))
  | .poll polls => atEnd (s.sweep bound polls)

def resumedAt (s : Sched) : List Ptr := if s.mode = .running then [s.running] else []

/-- The threads that run in the states the steps are taken in. -/
def resumed (tr : List (Sched × SchedEvent)) : List Ptr := tr.flatMap fun x => resumedAt x.1

def readsAt (s : Sched) : SchedEvent → List Ptr
  | .enter .read _ => [s.running]
  | _ => []

def readers (tr : List (Sched × SchedEvent)) : List Ptr := tr.flatMap fun x => readsAt x.1 x.2

/-- The run so far has brought the scheduler to the start of a sweep. -/
def SweepStart (bound : Nat) (tr : List (Sched × SchedEvent)) : Prop :=
  ∀ x ∈ tr.getLast?, x.1.resets bound x.2 = true

/-- The steps go from the start of a sweep to its end. -/
def IsSweep (bound : Nat) (tr : List (Sched × SchedEvent)) : Prop :=
  ∃ tr' x, tr = tr' ++ [x] ∧ x.1.resets bound x.2 = true ∧ ∀ y ∈ tr', y.1.resets bound y.2 = false

/-! ## One entry -/

namespace Queues

variable {q : Queues} {type : Entry} {polls : Nat → Bool} {a : Ptr} {j : Nat}

/-- The queues where `rq_current` is compared with `rq_size`. -/
def entered (type : Entry) (polls : Nat → Bool) (q : Queues) : Queues := (q.sweep polls).dispatch type

def AtEnd (q : Queues) : Prop := q.ready ≠ [] ∧ q.current = q.ready.length

theorem enter_eq : q.enter type polls = (q.entered type polls).settle := rfl

theorem settle_current (h : ¬ q.AtEnd) : q.settle.current = q.current := by
  unfold settle resume
  split
  · split <;> rfl
  · rename_i hr
    exact if_neg fun e => h ⟨hr, e⟩

theorem settle_atEnd (h : q.AtEnd) : q.settle.current = 0 := by
  rw [settle, if_neg h.1]
  exact if_pos h.2

theorem entered_current : (q.entered type polls).current =
    if type = .yield then q.current + 1 else q.current := by
  cases type <;> rfl

variable (type polls) in
/-- A thread that is not the running one keeps its slot or comes to that of the running one. -/
theorem entered_slot (h : q.current < q.ready.length) (ha : q.ready[j]? = some a)
    (hj : j ≠ q.current) : (q.entered type polls).ready[j]? = some a ∨
      (type ≠ .yield ∧ q.current < j ∧ (q.entered type polls).ready[q.current]? = some a) := by
  have hlt := (List.getElem?_eq_some_iff.1 ha).1
  have hs : (q.sweep polls).ready[j]? = some a := by
    rw [sweep, List.getElem?_append_left hlt]
    exact ha
  have hcur := @current_lt_sweep q polls h
  have hrem := getElem?_swapRemove hcur hs hj
  cases type with
  | yield => exact .inl hs
  | read =>
    rcases hrem with hr | ⟨-, hr, hr'⟩
    · exact .inl hr
    · exact .inr ⟨by decide, hr, hr'⟩
  | exit =>
    rcases hrem with hr | ⟨-, hr, hr'⟩
    · exact .inl hr
    · exact .inr ⟨by decide, hr, hr'⟩

/-- At the end of the queue all other slots have been passed. -/
theorem entered_passed (h : q.current < q.ready.length) (hend : (q.entered type polls).AtEnd)
    (ha : q.ready[j]? = some a) (hj : j ≠ q.current) : j < q.current := by
  have hc := hend.2
  rw [entered_current] at hc
  rcases entered_slot type polls h ha hj with hs | ⟨ht, hlt, hs⟩
  · have := (List.getElem?_eq_some_iff.1 hs).1
    split at hc <;> omega
  · have := (List.getElem?_eq_some_iff.1 hs).1
    rw [if_neg ht] at hc
    omega

theorem slot_unique {l : List Ptr} {i : Nat} (hn : l.Nodup) (hi : l[i]? = some a)
    (hj : l[j]? = some a) : i = j :=
  (List.getElem?_inj (List.getElem?_eq_some_iff.1 hi).1 hn).1 (hi.trans hj.symm)

theorem Ok.ready_nodup (h : q.Ok) : q.ready.Nodup := (List.nodup_append.1 h.nodup).1

theorem mem_all_of_slot (h : q.ready[j]? = some a) : a ∈ q.all :=
  List.mem_append_left _ (List.mem_of_getElem? h)

/-- What leaves both queues stays out of them. -/
theorem notMem_enter (h : q.current < q.ready.length) (ha : a ∉ q.all) :
    a ∉ (q.enter type polls).all :=
  fun ha' => ha ((enter_all h).mem_iff.2 (List.mem_append_right _ ha'))

theorem notMem_exit (h : q.Ok) (hm : q.mode = .running) (ha : q.ready[q.current]? = some a) :
    a ∉ (q.enter .exit polls).all := by
  have hp := (@enter_all q .exit polls (h.running hm)).nodup h.nodup
  have hg : q.gone .exit = [a] := by simp [gone, ha]
  rw [hg] at hp
  exact (List.nodup_cons.1 hp).1

/-- In the course of a sweep: `R` was ready at its start, `done` has been resumed, `rd` has read. -/
structure Swept (R done rd : List Ptr) (q : Queues) : Prop where
  ahead : ∀ p ∈ R, p ∉ done → ∃ j, q.current ≤ j ∧ q.ready[j]? = some p
  behind : ∀ p ∈ done, p ∉ rd → (∃ j < q.current, q.ready[j]? = some p) ∨ p ∉ q.all
  once : ∀ p, p ∉ rd → done.count p ≤ 1

/-- The queue at the start of a sweep. -/
theorem swept_start (h : q.current = 0) : Swept q.ready [] [] q where
  ahead p hp _ := by
    obtain ⟨j, hj⟩ := List.getElem?_of_mem hp
    exact ⟨j, by omega, hj⟩
  behind p hp := absurd hp List.not_mem_nil
  once p _ := by simp

section

variable {R done rd : List Ptr} {r : Ptr}

theorem Swept.fresh (h : Swept R done rd q) (hq : q.Ok) (hr : q.ready[q.current]? = some r)
    (hrd : r ∉ rd) : r ∉ done := by
  intro hd
  rcases h.behind r hd hrd with ⟨j, hj, hs⟩ | hn
  · have := slot_unique hq.ready_nodup hs hr
    omega
  · exact hn (mem_all_of_slot hr)

theorem Swept.count (h : Swept R done rd q) (hq : q.Ok) (hr : q.ready[q.current]? = some r)
    {rd' : List Ptr} (hsub : ∀ p ∈ rd, p ∈ rd') {p : Ptr} (hp : p ∉ rd') :
    (done ++ [r]).count p ≤ 1 := by
  have hrd : p ∉ rd := fun h => hp (hsub p h)
  rw [List.count_append]
  by_cases e : p = r
  · subst e
    rw [List.count_eq_zero_of_not_mem (h.fresh hq hr hrd)]
    simp
  · have : [r].count p = 0 := List.count_eq_zero_of_not_mem (by simpa using e)
    have := h.once p hrd
    omega

/-- The sweep is over: nobody was left out. -/
theorem Swept.all_done (h : Swept R done rd q) (hlt : q.current < q.ready.length)
    (hr : q.ready[q.current]? = some r) (hend : (q.entered type polls).AtEnd) {p : Ptr} (hp : p ∈ R) :
    p ∈ done ++ [r] := by
  by_contra hn
  rw [List.mem_append, List.mem_singleton, not_or] at hn
  obtain ⟨j, hj, hs⟩ := h.ahead p hp hn.1
  have hne : j ≠ q.current := by
    rintro rfl
    rw [hr] at hs
    exact hn.2 (Option.some.inj hs).symm
  have := entered_passed hlt hend hs hne
  omega

theorem Swept.enter (h : Swept R done rd q) (hq : q.Ok) (hm : q.mode = .running)
    (hr : q.ready[q.current]? = some r) (hend : ¬ (q.entered type polls).AtEnd) :
    Swept R (done ++ [r]) (rd ++ if type = .read then [r] else []) (q.enter type polls) := by
  have hlt := hq.running hm
  have hsub : ∀ p ∈ rd, p ∈ rd ++ if type = .read then [r] else [] :=
    fun p hp => List.mem_append_left _ hp
  have hcur : (q.enter type polls).current = if type = .yield then q.current + 1 else q.current := by
    rw [enter_eq, settle_current hend, entered_current]
  have hready : (q.enter type polls).ready = (q.entered type polls).ready := settle_ready
  refine ⟨fun p hp hn => ?_, fun p hp hrd => ?_, fun p hp => h.count hq hr hsub hp⟩
  · rw [List.mem_append, List.mem_singleton, not_or] at hn
    obtain ⟨j, hj, hs⟩ := h.ahead p hp hn.1
    have hne : j ≠ q.current := by
      rintro rfl
      rw [hr] at hs
      exact hn.2 (Option.some.inj hs).symm
    rw [hready, hcur]
    rcases entered_slot type polls hlt hs hne with hs | ⟨ht, _, hs⟩
    · refine ⟨j, ?_, hs⟩
      split <;> omega
    · exact ⟨q.current, Nat.le_of_eq (if_neg ht), hs⟩
  · rw [hready, hcur]
    by_cases hd : p ∈ done
    · rcases h.behind p hd (fun h => hrd (hsub p h)) with ⟨j, hj, hs⟩ | hn
      · rcases entered_slot type polls hlt hs (by omega) with hs | ⟨_, hlt', _⟩
        · refine .inl ⟨j, ?_, hs⟩
          split <;> omega
        · omega
      · exact .inr (notMem_enter hlt hn)
    · have hp : p = r := by
        rw [List.mem_append, List.mem_singleton] at hp
        exact hp.resolve_left hd
      subst hp
      cases type with
      | yield =>
        refine .inl ⟨q.current, by simp, ?_⟩
        exact (List.getElem?_append_left hlt).trans hr
      | read => simp at hrd
      | exit => exact .inr (notMem_exit hq hm hr)

theorem Swept.pollAgain (h : Swept R done rd q) (hq : q.Ok) (hm : q.mode = .polling) :
    Swept R done rd (q.pollAgain polls) := by
  obtain ⟨hr, h0, -⟩ := hq.polling hm
  refine ⟨fun p hp hn => ?_, fun p hp hrd => ?_, h.once⟩
  · obtain ⟨j, -, hs⟩ := h.ahead p hp hn
    rw [hr] at hs
    cases hs
  · rcases h.behind p hp hrd with ⟨j, hj, -⟩ | hn
    · omega
    · exact .inr fun hp' => hn ((pollAgain_all q).mem_iff.2 hp')

end

end Queues

/-! ## Runs -/

section

variable {bound : Nat} {type : Entry} {polls : Nat → Bool} {s s' : Sched} {e : SchedEvent}
  {tr : List (Sched × SchedEvent)} {R done rd : List Ptr}

theorem atEnd_iff : atEnd (some s) = true ↔ s.queues.AtEnd := by
  have hr : s.queues.ready = [] ↔ s.rqSize = 0 := ready_eq_nil
  have hl := length_ready s
  rw [atEnd, decide_eq_true_eq, Queues.AtEnd, ne_eq, ne_eq, hr, hl]
  rfl

theorem resets_enter (hi : s.Inv bound) (hm : s.mode = .running) :
    s.resets bound (.enter type polls) = true ↔ (s.queues.entered type polls).AtEnd := by
  obtain ⟨s', hs', hq, -⟩ := dispatched_refines type polls hi hm
  rw [resets, hs', atEnd_iff, hq]
  rfl

theorem resets_poll (hi : s.Inv bound) (hm : s.mode = .polling) :
    s.resets bound (.poll polls) = false := by
  obtain ⟨-, h0, -⟩ := hi.ok.polling hm
  obtain ⟨s', hs', hq, -⟩ := sweep_refines bound polls hi.size
    fun p hp => (hi.live p).2 (List.mem_append_right _ hp)
  have hc : s'.queues.current = 0 := by
    rw [hq]
    exact h0
  rw [resets, hs', ← Bool.not_eq_true, atEnd_iff]
  rintro ⟨hne, hlen⟩
  rw [hc] at hlen
  exact hne (List.length_eq_zero_iff.1 hlen.symm)

theorem running_slot (hi : s.Inv bound) (hm : s.mode = .running) :
    s.queues.ready[s.queues.current]? = some s.running := running_eq (hi.current_lt hm)

theorem readsAt_enter (s : Sched) (type : Entry) (polls : Nat → Bool) :
    readsAt s (.enter type polls) = if type = .read then [s.running] else [] := by
  cases type <;> rfl

theorem resumedAt_running (hm : s.mode = .running) : resumedAt s = [s.running] := if_pos hm

theorem resumedAt_polling (hm : s.mode = .polling) : resumedAt s = [] :=
  if_neg (by rw [hm]; decide)

theorem resumed_snoc : resumed (tr ++ [(s, e)]) = resumed tr ++ resumedAt s := by
  simp [resumed]

theorem readers_snoc : readers (tr ++ [(s, e)]) = readers tr ++ readsAt s e := by
  simp [readers]

theorem swept_step (hi : s.Inv bound) (hs : Queues.Swept R done rd s.queues)
    (h : s.step bound e = some s') (hn : s.resets bound e = false) :
    Queues.Swept R (done ++ resumedAt s) (rd ++ readsAt s e) s'.queues := by
  cases sched_cases hi h with
  | @enter type polls hm hq _ =>
    have hend : ¬ (s.queues.entered type polls).AtEnd := by
      rw [← resets_enter hi hm, hn]
      decide
    rw [hq, resumedAt_running hm, readsAt_enter]
    exact hs.enter hi.ok hm (running_slot hi hm) hend
  | poll hm hq _ =>
    rw [hq, resumedAt_polling hm, readsAt, List.append_nil, List.append_nil]
    · exact hs.pollAgain hi.ok hm
    · nofun

theorem swept_run (hi : s.Inv bound) (hs : Queues.Swept R [] [] s.queues)
    (h : Run (Sched.step bound) s tr s') (hn : ∀ x ∈ tr, x.1.resets bound x.2 = false) :
    s'.Inv bound ∧ Queues.Swept R (resumed tr) (readers tr) s'.queues := by
  induction h with
  | nil => exact ⟨hi, hs⟩
  | snoc _ hstep ih =>
    obtain ⟨hi', hs'⟩ := ih fun x hx => hn x (List.mem_append_left _ hx)
    refine ⟨hi'.step hstep, ?_⟩
    rw [resumed_snoc, readers_snoc]
    exact swept_step hi' hs' hstep (hn _ (List.mem_append_right _ List.mem_cons_self))

/-- After a step that resets it, `rq_current` is 0 and a thread is resumed. -/
theorem reset_step (hi : s.Inv bound) (h : s.step bound e = some s') (hr : s.resets bound e = true) :
    s.mode = .running ∧ s'.queues.current = 0 := by
  cases sched_cases hi h with
  | enter hm hq _ =>
    refine ⟨hm, ?_⟩
    rw [hq, Queues.enter_eq]
    exact Queues.settle_atEnd ((resets_enter hi hm).1 hr)
  | poll hm _ _ =>
    rw [resets_poll hi hm] at hr
    cases hr

theorem reachable_inv {ps : List Ptr} (hne : ps ≠ []) (hnd : ps.Nodup) (hb : ps.length ≤ bound)
    (h : Run (Sched.step bound) (start bound ps) tr s) : s.Inv bound :=
  h.invariant (fun _ _ _ hi hs => hi.step hs) (start_inv hne hnd hb)

theorem sweepStart_current {ps : List Ptr} (hne : ps ≠ []) (hnd : ps.Nodup) (hb : ps.length ≤ bound)
    (h : Run (Sched.step bound) (start bound ps) tr s) (hs : SweepStart bound tr) :
    s.queues.current = 0 := by
  cases h with
  | nil =>
    obtain ⟨-, -, h0, -⟩ := start_spec hne hb
    exact h0
  | snoc hr hstep =>
    refine (reset_step (reachable_inv hne hnd hb hr) hstep ?_).2
    exact hs _ List.getLast?_concat

/-- A sweep leaves no thread out that is ready at its start. -/
theorem sweep_resumes {ps : List Ptr} {tr0 : List (Sched × SchedEvent)} (hne : ps ≠ [])
    (hnd : ps.Nodup) (hb : ps.length ≤ bound) (h0 : Run (Sched.step bound) (start bound ps) tr0 s)
    (hs : SweepStart bound tr0) (h : Run (Sched.step bound) s tr s') (hsw : IsSweep bound tr) :
    ∀ p ∈ s.ready, p ∈ resumed tr ∧ (p ∉ readers tr → (resumed tr).count p = 1) := by
  obtain ⟨tr', ⟨t, e⟩, rfl, hreset, hno⟩ := hsw
  have hi := reachable_inv hne hnd hb h0
  have hstart : Queues.Swept s.ready [] [] s.queues :=
    Queues.swept_start (sweepStart_current hne hnd hb h0 hs)
  obtain ⟨hrun, hstep⟩ := h.last
  obtain ⟨hit, hsw⟩ := swept_run hi hstart hrun hno
  have hm := (reset_step hit hstep hreset).1
  have hr := running_slot hit hm
  intro p hp
  rw [resumed_snoc, readers_snoc, resumedAt_running hm]
  have hmem : p ∈ resumed tr' ++ [t.running] := by
    cases sched_cases hit hstep with
    | enter _ _ _ => exact hsw.all_done (hit.ok.running hm) hr ((resets_enter hit hm).1 hreset) hp
    | poll hm' _ _ => rw [hm'] at hm; cases hm
  refine ⟨hmem, fun hrd => ?_⟩
  have hle := hsw.count hit.ok hr (fun p hp => List.mem_append_left (readsAt t e) hp) hrd
  exact Nat.le_antisymm hle (List.count_pos_iff.2 hmem)

end

/-- A sweep of three threads: the second one reads, the third one takes its slot, and the second
one is ready again behind it. -/
def sweepTrace : List (Sched × SchedEvent) :=
  traceOf (Sched.step 3) (start 3 [10, 20, 30])
    [.enter .yield fun _ => true, .enter .read fun _ => true, .enter .yield fun _ => true,
      .enter .yield fun _ => true]

example : resumed sweepTrace = [10, 20, 30, 20] := by decide

theorem sweep_resumes_three : 10 ∈ resumed sweepTrace ∧ (resumed sweepTrace).count 10 = 1 := by
  have hsw : IsSweep 3 sweepTrace := ⟨[_, _, _], _, rfl, by decide, by decide⟩
  have h := sweep_resumes (by decide) (by decide) (by decide) .nil nofun (run_traceOf rfl) hsw 10
    (by decide)
  exact ⟨h.1, h.2 (by decide)⟩

end SysProg.Threads
