import SysProg.Threads.Scheduler

/-!
# SysProg.Threads.Conserve

The queues as lists. `Queues` is the scheduler over two lists and a position; `enter_refines` and
`pollAgain_refines` show that, on the states the scheduler can be in, the arrays do the same and no
check fails. The invariant (`Sched.Inv`) ties the lists to the threads that are live, and from it:

* `scheduler_conserves`: in every run every thread that has not exited is in exactly one place of
  one queue, whenever a thread is resumed.
-/

namespace SysProg.Threads

structure Queues where
  ready : List Ptr
  current : Nat
  waiting : List Ptr
  mode : Mode

namespace Queues

def sweep (polls : Nat → Bool) (q : Queues) : Queues :=
  { q with
    ready := q.ready ++ pick polls 0 q.waiting
    waiting := pick (fun i => !polls i) 0 q.waiting }

def dispatch (type : Entry) (q : Queues) : Queues :=
  match type with
  | .yield => { q with current := q.current + 1 }
  | .read =>
    { q with
      ready := swapRemove q.ready q.current
      waiting := q.waiting ++ q.ready[q.current]?.toList }
  | .exit => { q with ready := swapRemove q.ready q.current }

def resume (q : Queues) : Queues :=
  { q with
    current := if q.current = q.ready.length then 0 else q.current
    mode := .running }

def settle (q : Queues) : Queues :=
  if q.ready = [] then
    if q.waiting = [] then { q with mode := .returned } else { q with mode := .polling }
  else q.resume

def enter (type : Entry) (polls : Nat → Bool) (q : Queues) : Queues :=
  ((q.sweep polls).dispatch type).settle

def pollAgain (polls : Nat → Bool) (q : Queues) : Queues :=
  if (q.sweep polls).ready = [] then q.sweep polls else (q.sweep polls).resume

end Queues

/-- The lists that the arrays hold. -/
def Sched.queues (s : Sched) : Queues where
  ready := s.ready
  current := s.rqCurrent
  waiting := s.waiting
  mode := s.mode

open Sched

/-! ## One pass over the waiting queue -/

section

variable {bound : Nat} {polls : Nat → Bool}

/-- The part of an array from index `i` on, `k` entries long. -/
def slice (q : Nat → Ptr) (i : Nat) : Nat → List Ptr
  | 0 => []
  | k + 1 => q i :: slice q (i + 1) k

theorem slice_congr {q q' : Nat → Ptr} (k : Nat) :
    ∀ {i}, (∀ j, i ≤ j → q' j = q j) → slice q' i k = slice q i k := by
  induction k with
  | zero => intro i _; rfl
  | succ k ih =>
    intro i h
    simp only [slice]
    rw [h i (Nat.le_refl i), ih fun j hj => h j (by omega)]

theorem entries_append_slice (q : Nat → Ptr) (k : Nat) :
    ∀ i, entries q i ++ slice q i k = entries q (i + k) := by
  induction k with
  | zero => intro i; simp [slice]
  | succ k ih =>
    intro i
    rw [show i + (k + 1) = i + 1 + k by omega, ← ih (i + 1), entries_succ]
    simp [slice]

theorem slice_zero (q : Nat → Ptr) (n : Nat) : slice q 0 n = entries q n := by
  have := entries_append_slice q n 0
  simpa using this

/-- The loop, from index `i` on with `m` entries kept so far. -/
theorem sweepLoop_spec (bound : Nat) (polls : Nat → Bool) (k : Nat) :
    ∀ (i m : Nat) (s : Sched), m ≤ i → i + k ≤ bound → s.rqSize + m + k ≤ bound →
      (∀ p ∈ slice s.waitingQueue i k, s.live p = true) →
      ∃ s' m', sweepLoop bound polls k i m s = some (s', m') ∧
        s'.ready = s.ready ++ pick polls i (slice s.waitingQueue i k) ∧
        entries s'.waitingQueue m' =
          entries s.waitingQueue m ++ pick (fun j => !polls j) i (slice s.waitingQueue i k) ∧
        s'.rqCurrent = s.rqCurrent ∧ s'.live = s.live ∧ s'.mode = s.mode := by
  induction k with
  | zero => intro i m s _ _ _ _; exact ⟨s, m, rfl, by simp [slice], by simp [slice], rfl, rfl, rfl⟩
  | succ k ih =>
    intro i m s hm hi hsize hlive
    have hp : s.live (s.waitingQueue i) = true := hlive _ (by simp [slice])
    have hrest : ∀ p ∈ slice s.waitingQueue (i + 1) k, s.live p = true :=
      fun p hp => hlive p (by simp [slice, hp])
    have hib : i < bound := by omega
    simp only [sweepLoop, Sched.waitingAt, if_pos hib, Option.bind_some, if_pos hp]
    cases hpoll : polls i with
    | true =>
      have hrb : s.rqSize < bound := by omega
      simp only [if_true, Sched.setReady, if_pos hrb, Option.bind_some]
      obtain ⟨s', m', hrun, hready, hwait, hrest⟩ :=
        ih (i + 1) m { s with
          readyQueue := upd s.readyQueue s.rqSize (s.waitingQueue i), rqSize := s.rqSize + 1 }
          (by omega) (by omega) (by simp only; omega) hrest
      refine ⟨s', m', hrun, ?_, ?_, hrest⟩
      · rw [hready]
        simp [Sched.ready, push_entries, slice, pick, hpoll]
      · rw [hwait]
        simp [slice, pick, hpoll]
    | false =>
      have hmb : m < bound := by omega
      simp only [Bool.false_eq_true, if_false, Sched.setWaiting, if_pos hmb, Option.bind_some]
      have hslice : slice (upd s.waitingQueue m (s.waitingQueue i)) (i + 1) k =
          slice s.waitingQueue (i + 1) k :=
        slice_congr k fun j hj => upd_of_ne (by omega)
      obtain ⟨s', m', hrun, hready, hwait, hrest⟩ :=
        ih (i + 1) (m + 1) { s with waitingQueue := upd s.waitingQueue m (s.waitingQueue i) }
          (by omega) (by omega) (by simp only; omega) (by simp only [hslice]; exact hrest)
      refine ⟨s', m', hrun, ?_, ?_, hrest⟩
      · rw [hready]
        simp [Sched.ready, hslice, slice, pick, hpoll]
      · rw [hwait]
        simp [push_entries, hslice, slice, pick, hpoll]

theorem sweep_refines (bound : Nat) (polls : Nat → Bool) {s : Sched} (hsize : s.rqSize + s.wqSize ≤ bound)
    (hlive : ∀ p ∈ s.waiting, s.live p = true) :
    ∃ s', sweep bound polls s = some s' ∧ s'.queues = s.queues.sweep polls ∧ s'.live = s.live := by
  rw [Sched.waiting, ← slice_zero] at hlive
  obtain ⟨s', m', hrun, hready, hwait, hcur, hl, hmode⟩ :=
    sweepLoop_spec bound polls s.wqSize 0 0 s (Nat.le_refl 0) (by omega) (by omega) hlive
  refine ⟨{ s' with wqSize := m' }, by simp [sweep, hrun], ?_, hl⟩
  rw [slice_zero] at hready hwait
  simp only [Sched.queues, Queues.sweep, Queues.mk.injEq]
  exact ⟨hready, hcur, hwait, hmode⟩

end

/-! ## The rest of an entry -/

section

variable {bound : Nat} {polls : Nat → Bool} {s : Sched}

theorem running_eq (h : s.rqCurrent < s.rqSize) : s.ready[s.rqCurrent]? = some s.running :=
  getElem?_entries h

theorem running_mem (h : s.rqCurrent < s.rqSize) : s.running ∈ s.ready := mem_entries h

theorem removeRunning_refines (hcur : s.rqCurrent < s.rqSize) (hsize : s.rqSize ≤ bound) :
    ∃ s', removeRunning bound s = some s' ∧
      s'.queues = { s.queues with ready := swapRemove s.ready s.rqCurrent } ∧ s'.live = s.live := by
  cases hm : s.rqSize with
  | zero => omega
  | succ m =>
    have hmb : m < bound := by omega
    have hcb : s.rqCurrent < bound := by omega
    refine ⟨{ s with readyQueue := upd s.readyQueue s.rqCurrent (s.readyQueue m), rqSize := m },
      ?_, ?_, rfl⟩
    · simp only [removeRunning, hm, readyAt, setReady, if_pos hmb, if_pos hcb, Option.bind_some,
        Option.map_some]
    · simp only [Sched.queues, Sched.ready, entries_swapRemove, hm, Sched.waiting]

theorem dispatch_refines (type : Entry) (hcur : s.rqCurrent < s.rqSize)
    (hsize : s.rqSize + s.wqSize ≤ bound) (hlive : s.live s.running = true) :
    ∃ s', dispatch bound type s = some s' ∧ s'.queues = s.queues.dispatch type ∧
      s'.live = if type = .exit then upd s.live s.running false else s.live := by
  have hcb : s.rqCurrent < bound := by omega
  cases type with
  | yield => exact ⟨_, rfl, rfl, rfl⟩
  | read =>
    have hwb : s.wqSize < bound := by omega
    obtain ⟨s', hrun, hq, hl⟩ := removeRunning_refines (s := { s with
      waitingQueue := upd s.waitingQueue s.wqSize s.running, wqSize := s.wqSize + 1 })
      hcur (show s.rqSize ≤ bound by omega)
    refine ⟨s', ?_, ?_, hl⟩
    · simp only [dispatch, readyAt, setWaiting, if_pos hcb, if_pos hwb, Option.bind_some]
      exact hrun
    · rw [hq]
      simp only [Sched.queues, Queues.dispatch, running_eq hcur, Option.toList_some, Sched.waiting,
        push_entries]
      rfl
  | exit =>
    obtain ⟨s', hrun, hq, hl⟩ := removeRunning_refines
      (s := { s with live := upd s.live s.running false }) hcur (show s.rqSize ≤ bound by omega)
    refine ⟨s', ?_, hq, hl⟩
    simp only [dispatch, readyAt, if_pos hcb, Option.bind_some]
    have hlive' : s.live (s.readyQueue s.rqCurrent) = true := hlive
    rw [if_pos hlive']
    exact hrun

theorem resume_refines (hcur : s.rqCurrent ≤ s.rqSize) (hne : s.rqSize ≠ 0)
    (hsize : s.rqSize ≤ bound) (hlive : ∀ p ∈ s.ready, s.live p = true) :
    ∃ s', resume bound s = some s' ∧ s'.queues = s.queues.resume ∧ s'.live = s.live := by
  have hrun : ∀ s1 : Sched, s1.rqCurrent < s1.rqSize → s1.rqSize = s.rqSize →
      s1.readyQueue = s.readyQueue → s1.live = s.live →
      jump bound s1 = some { s1 with mode := .running } := by
    intro s1 h1 h2 h3 h4
    have hb : s1.rqCurrent < bound := by omega
    have hl : s1.live (s1.readyQueue s1.rqCurrent) = true := by
      rw [h4, h3]
      exact hlive _ (mem_entries (by omega))
    simp only [jump, readyAt, if_pos hb, Option.bind_some, if_pos hl]
  unfold resume
  by_cases e : s.rqCurrent = s.rqSize
  · rw [if_pos e]
    refine ⟨_, hrun { s with rqCurrent := 0 } (by simp only; omega) rfl rfl rfl, ?_, rfl⟩
    simp [Sched.queues, Queues.resume, Sched.ready, Sched.waiting, e]
  · rw [if_neg e]
    refine ⟨_, hrun s (by omega) rfl rfl rfl, ?_, rfl⟩
    simp [Sched.queues, Queues.resume, Sched.ready, Sched.waiting, e]

theorem ready_eq_nil : s.ready = [] ↔ s.rqSize = 0 := by
  rw [← List.length_eq_zero_iff, Sched.ready, length_entries]

theorem waiting_eq_nil : s.waiting = [] ↔ s.wqSize = 0 := by
  rw [← List.length_eq_zero_iff, Sched.waiting, length_entries]

theorem settle_refines (hcur : s.rqSize ≠ 0 → s.rqCurrent ≤ s.rqSize) (hsize : s.rqSize ≤ bound)
    (hlive : ∀ p ∈ s.ready, s.live p = true) :
    ∃ s', settle bound s = some s' ∧ s'.queues = s.queues.settle ∧ s'.live = s.live := by
  unfold settle Queues.settle
  have hr : s.queues.ready = [] ↔ s.rqSize = 0 := ready_eq_nil
  have hw : s.queues.waiting = [] ↔ s.wqSize = 0 := waiting_eq_nil
  by_cases h0 : s.rqSize = 0
  · rw [if_pos h0, if_pos (hr.2 h0)]
    by_cases hw0 : s.wqSize = 0
    · rw [if_pos hw0, if_pos (hw.2 hw0)]; exact ⟨_, rfl, rfl, rfl⟩
    · rw [if_neg hw0, if_neg fun h => hw0 (hw.1 h)]; exact ⟨_, rfl, rfl, rfl⟩
  · rw [if_neg h0, if_neg fun h => h0 (hr.1 h)]
    exact resume_refines (hcur h0) h0 hsize hlive

end

/-! ## The invariant of the lists -/

namespace Queues

variable {q : Queues} {type : Entry} {polls : Nat → Bool}

def all (q : Queues) : List Ptr := q.ready ++ q.waiting

/-- The thread that an entry takes out of both queues. -/
def gone (type : Entry) (q : Queues) : List Ptr :=
  if type = .exit then q.ready[q.current]?.toList else []

structure Ok (q : Queues) : Prop where
  nodup : q.all.Nodup
  running : q.mode = .running → q.current < q.ready.length
  polling : q.mode = .polling → q.ready = [] ∧ q.current = 0 ∧ q.waiting ≠ []
  returned : q.mode = .returned → q.all = []
  safe : q.mode ≠ .fault

theorem sweep_all (q : Queues) : q.all.Perm (q.sweep polls).all := by
  simp only [all, sweep, List.append_assoc]
  exact List.Perm.append_left _ (pick_perm polls q.waiting 0).symm

theorem getElem?_sweep (h : q.current < q.ready.length) :
    (q.sweep polls).ready[(q.sweep polls).current]? = q.ready[q.current]? :=
  List.getElem?_append_left h

theorem current_lt_sweep (h : q.current < q.ready.length) :
    (q.sweep polls).current < (q.sweep polls).ready.length := by
  simp only [sweep, List.length_append]
  omega

theorem dispatch_all (h : q.current < q.ready.length) :
    q.all.Perm (q.gone type ++ (q.dispatch type).all) := by
  have hp := swapRemove_perm h
  cases type with
  | yield => simp [gone, dispatch, all]
  | read =>
    simp only [gone, dispatch, all, reduceCtorEq, if_false, List.nil_append,
      List.getElem?_eq_getElem h, Option.toList_some]
    have h1 : (q.ready ++ q.waiting).Perm
        (q.ready[q.current] :: (swapRemove q.ready q.current ++ q.waiting)) := hp.append_right _
    refine h1.trans ?_
    rw [← List.append_assoc]
    exact (List.perm_append_singleton _ _).symm
  | exit =>
    simp only [gone, dispatch, all, if_true, List.getElem?_eq_getElem h, Option.toList_some,
      List.singleton_append]
    exact hp.append_right _

@[simp] theorem settle_ready : q.settle.ready = q.ready := by
  unfold settle resume; split
  · split <;> rfl
  · rfl

@[simp] theorem settle_waiting : q.settle.waiting = q.waiting := by
  unfold settle resume; split
  · split <;> rfl
  · rfl

theorem settle_all (q : Queues) : q.settle.all = q.all := by simp [all]

theorem pollAgain_all (q : Queues) : q.all.Perm (q.pollAgain polls).all := by
  unfold pollAgain
  split
  · exact sweep_all q
  · exact sweep_all q

theorem gone_sweep (h : q.current < q.ready.length) : (q.sweep polls).gone type = q.gone type := by
  unfold gone
  rw [getElem?_sweep h]

/-- An entry loses no thread but the one that exits. -/
theorem enter_all (h : q.current < q.ready.length) :
    q.all.Perm (q.gone type ++ (q.enter type polls).all) := by
  unfold enter
  rw [settle_all, ← gone_sweep h]
  exact (sweep_all q).trans (dispatch_all (current_lt_sweep h))

theorem settle_ok (hn : q.all.Nodup) (hcur : q.current ≤ q.ready.length) : q.settle.Ok := by
  have hall : q.settle.all.Nodup := by rw [settle_all]; exact hn
  by_cases hr : q.ready = []
  · have h0 : q.current = 0 := by simpa [hr] using hcur
    by_cases hw : q.waiting = []
    · refine ⟨hall, ?_, ?_, ?_, ?_⟩ <;> simp [settle, hr, hw, all]
    · refine ⟨hall, ?_, ?_, ?_, ?_⟩ <;> simp [settle, hr, hw, h0]
  · have hpos : 0 < q.ready.length := List.length_pos_iff.2 hr
    refine ⟨hall, fun _ => ?_, ?_, ?_, ?_⟩
    · simp only [settle, if_neg hr, resume]
      split
      · exact hpos
      · omega
    · simp [settle, hr, resume]
    · simp [settle, hr, resume]
    · simp [settle, hr, resume]

theorem current_dispatch (h : q.current < q.ready.length) :
    (q.dispatch type).current ≤ (q.dispatch type).ready.length := by
  have hl := length_swapRemove h
  cases type with
  | yield => exact h
  | read => simp only [dispatch]; omega
  | exit => simp only [dispatch]; omega

theorem Ok.enter (hq : q.Ok) (hm : q.mode = .running) : (q.enter type polls).Ok := by
  have h := hq.running hm
  have hall : ((q.sweep polls).dispatch type).all.Nodup := by
    have := (@enter_all q type polls h).nodup hq.nodup
    rw [Queues.enter, settle_all] at this
    exact (List.nodup_append.1 this).2.1
  exact settle_ok hall (current_dispatch (current_lt_sweep h))

theorem Ok.pollAgain (hq : q.Ok) (hm : q.mode = .polling) : (q.pollAgain polls).Ok := by
  obtain ⟨hr, h0, hw⟩ := hq.polling hm
  have hall : (q.sweep polls).all.Nodup := (sweep_all q).nodup hq.nodup
  unfold Queues.pollAgain
  split
  · rename_i hr'
    refine ⟨hall, ?_, fun _ => ⟨hr', h0, ?_⟩, ?_, ?_⟩
    · simp [sweep, hm]
    · intro hw'
      have := (@sweep_all polls q).length_eq
      simp only [all, hr, hr', hw', List.length_append, List.length_nil] at this
      exact hw (List.length_eq_zero_iff.1 (by omega))
    · simp [sweep, hm]
    · simp [sweep, hm]
  · rename_i hr'
    have hpos : 0 < (q.sweep polls).ready.length := List.length_pos_iff.2 hr'
    refine ⟨hall, fun _ => ?_, ?_, ?_, ?_⟩
    · simp only [resume]
      split
      · exact hpos
      · change q.current < _
        omega
    · simp [resume]
    · simp [resume]
    · simp [resume]

end Queues

/-! ## The invariant of the scheduler -/

structure Sched.Inv (bound : Nat) (s : Sched) : Prop where
  size : s.rqSize + s.wqSize ≤ bound
  live : ∀ p, s.live p = true ↔ p ∈ s.queues.all
  ok : s.queues.Ok

section

variable {bound : Nat} {polls : Nat → Bool} {type : Entry} {s s' : Sched}

theorem length_all (s : Sched) : s.queues.all.length = s.rqSize + s.wqSize := by
  simp [Queues.all, Sched.queues, Sched.ready, Sched.waiting]

theorem length_ready (s : Sched) : s.queues.ready.length = s.rqSize := length_entries _ _

theorem Sched.Inv.current_lt (hi : s.Inv bound) (hm : s.mode = .running) :
    s.rqCurrent < s.rqSize := by
  rw [← length_ready]
  exact hi.ok.running hm

theorem gone_queues (h : s.rqCurrent < s.rqSize) :
    s.queues.gone type = if type = .exit then [s.running] else [] := by
  have : s.queues.ready[s.queues.current]? = some s.running := running_eq h
  unfold Queues.gone
  rw [this]
  rfl

/-- Up to the test whether a thread is ready. -/
theorem dispatched_refines (type : Entry) (polls : Nat → Bool) (hi : s.Inv bound)
    (hm : s.mode = .running) :
    ∃ s', (sweep bound polls s).bind (dispatch bound type) = some s' ∧
      s'.queues = (s.queues.sweep polls).dispatch type ∧
      (s'.live = if type = .exit then upd s.live s.running false else s.live) ∧
      s'.rqCurrent ≤ s'.rqSize ∧ s'.rqSize ≤ bound ∧ ∀ p ∈ s'.queues.all, s'.live p = true := by
  have hcur := hi.current_lt hm
  have hsize := hi.size
  have hq : s.queues.current < s.queues.ready.length := hi.ok.running hm
  obtain ⟨s1, h1, hq1, hl1⟩ := sweep_refines bound polls hsize
    fun p hp => (hi.live p).2 (List.mem_append_right _ hp)
  have hall1 : s.queues.all.Perm s1.queues.all := by rw [hq1]; exact Queues.sweep_all _
  have hsize1 : s1.rqSize + s1.wqSize = s.rqSize + s.wqSize := by
    rw [← length_all, ← length_all]; exact hall1.length_eq.symm
  have hcur1 : s1.rqCurrent < s1.rqSize := by
    rw [← length_ready, show s1.rqCurrent = s1.queues.current from rfl, hq1]
    exact Queues.current_lt_sweep hq
  have hrun1 : s1.running = s.running := by
    have h := @Queues.getElem?_sweep _ polls hq
    rw [← hq1] at h
    have e1 : s1.queues.ready[s1.queues.current]? = some s1.running := running_eq hcur1
    have e : s.queues.ready[s.queues.current]? = some s.running := running_eq hcur
    rw [e1, e] at h
    exact Option.some.inj h
  have hlive1 : ∀ p, s1.live p = true ↔ p ∈ s1.queues.all := by
    intro p; rw [hl1, hi.live p]; exact hall1.mem_iff
  obtain ⟨s2, h2, hq2, hl2⟩ := dispatch_refines type hcur1
    (show s1.rqSize + s1.wqSize ≤ bound by omega)
    ((hlive1 _).2 (List.mem_append_left _ (running_mem hcur1)))
  have hall2 : s1.queues.all.Perm (s1.queues.gone type ++ s2.queues.all) := by
    rw [hq2]
    exact Queues.dispatch_all (by rw [length_ready]; exact hcur1)
  have hnd : (s1.queues.gone type ++ s2.queues.all).Nodup :=
    hall2.nodup (hall1.nodup hi.ok.nodup)
  have hlive2 : ∀ p ∈ s2.queues.all, s2.live p = true := by
    intro p hp
    have hp1 : s1.live p = true := (hlive1 p).2 (hall2.mem_iff.2 (List.mem_append_right _ hp))
    rw [hl2]
    split
    · rename_i he
      rw [gone_queues hcur1, if_pos he] at hnd
      have hne : p ≠ s1.running := by
        rintro rfl
        exact (List.nodup_cons.1 hnd).1 hp
      rw [upd_of_ne hne]
      exact hp1
    · exact hp1
  have hcur2 : s2.rqCurrent ≤ s2.rqSize := by
    rw [← length_ready, show s2.rqCurrent = s2.queues.current from rfl, hq2]
    exact Queues.current_dispatch (by rw [length_ready]; exact hcur1)
  have hsize2 : s2.rqSize ≤ bound := by
    have := hall2.length_eq
    rw [List.length_append, length_all, length_all] at this
    omega
  refine ⟨s2, ?_, ?_, ?_, hcur2, hsize2, hlive2⟩
  · rw [h1, Option.bind_some, h2]
  · rw [hq2, hq1]
  · rw [hl2, hrun1, hl1]

theorem enter_refines (hi : s.Inv bound) (hm : s.mode = .running) :
    ∃ s', s.enter bound type polls = some s' ∧ s'.queues = s.queues.enter type polls ∧
      s'.live = if type = .exit then upd s.live s.running false else s.live := by
  obtain ⟨s2, h2, hq2, hl2, hcur2, hsize2, hlive2⟩ := dispatched_refines type polls hi hm
  obtain ⟨s3, h3, hq3, hl3⟩ := settle_refines (fun _ => hcur2) hsize2
    fun p hp => hlive2 p (List.mem_append_left _ hp)
  refine ⟨s3, ?_, ?_, ?_⟩
  · rw [Sched.enter, ← Option.bind_assoc, h2, Option.bind_some, h3]
  · rw [hq3, hq2]; rfl
  · rw [hl3, hl2]

theorem pollAgain_refines (hi : s.Inv bound) (hm : s.mode = .polling) :
    ∃ s', s.pollAgain bound polls = some s' ∧ s'.queues = s.queues.pollAgain polls ∧
      s'.live = s.live := by
  obtain ⟨_, h0, _⟩ := hi.ok.polling hm
  have hsize := hi.size
  obtain ⟨s1, h1, hq1, hl1⟩ := sweep_refines bound polls hsize
    fun p hp => (hi.live p).2 (List.mem_append_right _ hp)
  have hall1 : s.queues.all.Perm s1.queues.all := by rw [hq1]; exact Queues.sweep_all _
  have hsize1 : s1.rqSize + s1.wqSize = s.rqSize + s.wqSize := by
    rw [← length_all, ← length_all]; exact hall1.length_eq.symm
  have hcur1 : s1.rqCurrent = 0 := by
    have : s1.queues.current = s.queues.current := by rw [hq1]; rfl
    exact this.trans h0
  have hr : (s.queues.sweep polls).ready = [] ↔ s1.rqSize = 0 := by
    rw [← hq1]; exact ready_eq_nil
  unfold Sched.pollAgain Queues.pollAgain
  by_cases hz : s1.rqSize = 0
  · refine ⟨s1, ?_, ?_, hl1⟩
    · simp only [h1, Option.bind_some, if_pos hz]
    · rw [if_pos (hr.2 hz), hq1]
  · obtain ⟨s2, h2, hq2, hl2⟩ := resume_refines (s := s1) (by omega) hz
      (show s1.rqSize ≤ bound by omega)
      fun p hp => by
        rw [hl1]
        exact (hi.live p).2 (hall1.mem_iff.2 (List.mem_append_left _ hp))
    refine ⟨s2, ?_, ?_, by rw [hl2, hl1]⟩
    · simp only [h1, Option.bind_some, if_neg hz, h2]
    · rw [if_neg fun h => hz (hr.1 h), hq2, hq1]

/-- The thread that exits in a step. -/
def exitsAt (s : Sched) : SchedEvent → List Ptr
  | .enter type _ => if type = .exit then [s.running] else []
  | .poll _ => []

/-- What a step does, from a state the scheduler can be in. -/
inductive SchedCase (s s' : Sched) : SchedEvent → Prop where
  | enter {type : Entry} {polls : Nat → Bool} : s.mode = .running →
      s'.queues = s.queues.enter type polls →
      (s'.live = if type = .exit then upd s.live s.running false else s.live) →
      SchedCase s s' (.enter type polls)
  | poll {polls : Nat → Bool} : s.mode = .polling → s'.queues = s.queues.pollAgain polls →
      s'.live = s.live → SchedCase s s' (.poll polls)

theorem sched_cases {e : SchedEvent} (hi : s.Inv bound) (h : s.step bound e = some s') :
    SchedCase s s' e := by
  cases e with
  | enter type polls =>
    simp only [Sched.step] at h
    split at h
    · rename_i hm
      obtain ⟨s1, h1, hq, hl⟩ := @enter_refines bound polls type s hi hm
      rw [h1] at h
      cases h
      exact .enter hm hq hl
    · cases h
  | poll polls =>
    simp only [Sched.step] at h
    split at h
    · rename_i hm
      obtain ⟨s1, h1, hq, hl⟩ := @pollAgain_refines bound polls s hi hm
      rw [h1] at h
      cases h
      exact .poll hm hq hl
    · cases h

theorem SchedCase.all {e : SchedEvent} (hi : s.Inv bound) (h : SchedCase s s' e) :
    s.queues.all.Perm (exitsAt s e ++ s'.queues.all) := by
  cases h with
  | @enter type _ hm hq _ =>
    rw [hq, exitsAt, ← gone_queues (hi.current_lt hm)]
    exact Queues.enter_all (hi.ok.running hm)
  | poll _ hq _ =>
    rw [hq]
    exact Queues.pollAgain_all _

theorem SchedCase.live {e : SchedEvent} (h : SchedCase s s' e) (p : Ptr) :
    s'.live p = true ↔ s.live p = true ∧ p ∉ exitsAt s e := by
  cases h with
  | @enter type polls _ _ hl =>
    rw [hl]
    cases type with
    | exit =>
      by_cases hp : p = s.running
      · simp [exitsAt, hp]
      · simp [exitsAt, hp, upd_of_ne]
    | yield => simp [exitsAt]
    | read => simp [exitsAt]
  | poll _ _ hl => simp [hl, exitsAt]

theorem Sched.Inv.step {e : SchedEvent} (hi : s.Inv bound) (h : s.step bound e = some s') :
    s'.Inv bound := by
  have hc := sched_cases hi h
  have hall := hc.all hi
  have hnd := hall.nodup hi.ok.nodup
  refine ⟨?_, fun p => ?_, ?_⟩
  · have := hall.length_eq
    have := hi.size
    rw [List.length_append, length_all, length_all] at *
    omega
  · rw [hc.live, hi.live, hall.mem_iff, List.mem_append]
    constructor
    · rintro ⟨hp | hp, hn⟩
      · exact (hn hp).elim
      · exact hp
    · intro hp
      exact ⟨.inr hp, fun he => (List.nodup_append.1 hnd).2.2 p he p hp rfl⟩
  · cases hc with
    | enter hm hq _ => rw [hq]; exact hi.ok.enter hm
    | poll hm hq _ => rw [hq]; exact hi.ok.pollAgain hm

/-! ## The start -/

theorem threadSetup_spec {s : Sched} {p : Ptr} (h : s.rqSize < bound) :
    ∃ s', threadSetup bound s p = some s' ∧ s'.ready = s.ready ++ [p] ∧ s'.waiting = s.waiting ∧
      s'.rqSize = s.rqSize + 1 ∧ s'.rqCurrent = s.rqCurrent ∧
      ∀ q, s'.live q = true ↔ s.live q = true ∨ q = p := by
  refine ⟨{ s with
      readyQueue := upd s.readyQueue s.rqSize p
      rqSize := s.rqSize + 1
      live := upd s.live p true }, ?_, push_entries _ _ _, rfl, rfl, rfl, fun q => ?_⟩
  · rw [threadSetup, setReady, if_pos h]; rfl
  · by_cases hq : q = p
    · simp [hq]
    · simp [hq, upd_of_ne]

theorem setup_spec (ps : List Ptr) :
    ∀ s : Sched, s.rqSize + ps.length ≤ bound →
      ∃ s', ps.foldlM (threadSetup bound) s = some s' ∧ s'.ready = s.ready ++ ps ∧
        s'.waiting = s.waiting ∧ s'.rqCurrent = s.rqCurrent ∧
        ∀ q, s'.live q = true ↔ s.live q = true ∨ q ∈ ps := by
  induction ps with
  | nil => intro s _; exact ⟨s, rfl, by simp, rfl, rfl, by simp⟩
  | cons p ps ih =>
    intro s h
    simp only [List.length_cons] at h
    obtain ⟨s1, h1, hr1, hw1, hn1, hc1, hl1⟩ := threadSetup_spec (p := p) (show s.rqSize < bound by omega)
    obtain ⟨s2, h2, hr2, hw2, hc2, hl2⟩ := ih s1 (by omega)
    refine ⟨s2, ?_, ?_, by rw [hw2, hw1], by rw [hc2, hc1], fun q => ?_⟩
    · rw [List.foldlM_cons, h1]; exact h2
    · rw [hr2, hr1]; simp
    · rw [hl2, hl1, List.mem_cons, or_assoc]

theorem start_spec {ps : List Ptr} (hne : ps ≠ []) (hb : ps.length ≤ bound) :
    (start bound ps).ready = ps ∧ (start bound ps).waiting = [] ∧ (start bound ps).rqCurrent = 0 ∧
      (start bound ps).mode = .running ∧ ∀ q, (start bound ps).live q = true ↔ q ∈ ps := by
  obtain ⟨s, hs, hr, hw, hc, hl⟩ := setup_spec ps Sched.empty
    (show 0 + ps.length ≤ bound by omega)
  have hr : s.ready = ps := by simpa [Sched.empty, Sched.ready] using hr
  have hw : s.waiting = [] := by simpa [Sched.empty, Sched.waiting] using hw
  have hc : s.rqCurrent = 0 := hc
  have hl : ∀ q, s.live q = true ↔ q ∈ ps := by simpa [Sched.empty] using hl
  have hlen : s.rqSize = ps.length := by rw [← hr, Sched.ready, length_entries]
  have hpos := List.length_pos_iff.2 hne
  have hmem : s.readyQueue s.rqCurrent ∈ ps := by
    rw [← hr, Sched.ready]; exact mem_entries (by omega)
  have hstart : start bound ps = { s with mode := .running } := by
    have hj : jump bound s = some { s with mode := .running } := by
      simp only [jump, readyAt, if_pos (show s.rqCurrent < bound by omega), Option.bind_some,
        if_pos ((hl _).2 hmem)]
    simp only [start, hs, Option.bind_some, hj, orFault]
  rw [hstart]
  exact ⟨hr, hw, hc, rfl, hl⟩

theorem start_inv {ps : List Ptr} (hne : ps ≠ []) (hnd : ps.Nodup) (hb : ps.length ≤ bound) :
    (start bound ps).Inv bound := by
  obtain ⟨hr, hw, hc, hm, hl⟩ := start_spec hne hb
  have hall : (start bound ps).queues.all = ps := by
    simp only [Queues.all, Sched.queues, hr, hw, List.append_nil]
  refine ⟨?_, fun p => by rw [hall, hl], ?_⟩
  · rw [← length_all, hall]; exact hb
  · refine ⟨by rw [hall]; exact hnd, fun _ => ?_, ?_, ?_, ?_⟩
    · simp only [Sched.queues, hr, hc]
      exact List.length_pos_iff.2 hne
    · simp [Sched.queues, hm]
    · simp [Sched.queues, hm]
    · simp [Sched.queues, hm]

/-! ## Runs -/

/-- The threads that have exited, in order. -/
def exited (tr : List (Sched × SchedEvent)) : List Ptr := tr.flatMap fun x => exitsAt x.1 x.2

/-- What holds at the end `s` of a run of the threads `ps`. -/
structure Conserved (bound : Nat) (ps : List Ptr) (tr : List (Sched × SchedEvent)) (s : Sched) :
    Prop where
  /-- No index was out of range, and no freed `tcb` was used. -/
  safe : s.mode ≠ .fault
  resumed : s.mode = .running → s.rqCurrent < s.rqSize
  /-- Every thread that has not exited is in one place of one queue, and nothing else is. -/
  conserve : (s.ready ++ s.waiting).Perm (ps.filter fun p => p ∉ exited tr)
  live : ∀ p, s.live p = true ↔ p ∈ s.ready ++ s.waiting
  returned : s.mode = .returned → ∀ p ∈ ps, p ∈ exited tr
  /-- `READ` puts the running thread into the waiting queue; only threads that `poll` reported
  leave it. -/
  entered : ∀ type polls s', s.step bound (.enter type polls) = some s' →
    s'.waiting = pick (fun i => !polls i) 0 s.waiting ++ if type = .read then [s.running] else []
  polled : ∀ polls s', s.step bound (.poll polls) = some s' →
    s'.waiting = pick (fun i => !polls i) 0 s.waiting

theorem enter_waiting (hi : s.Inv bound) (h : s.step bound (.enter type polls) = some s') :
    s'.waiting = pick (fun i => !polls i) 0 s.waiting ++ if type = .read then [s.running] else [] := by
  cases sched_cases hi h with
  | enter hm hq _ =>
    have hw : s'.waiting = (s.queues.enter type polls).waiting := congrArg Queues.waiting hq
    have hcur := hi.current_lt hm
    have hr : (s.queues.sweep polls).ready[(s.queues.sweep polls).current]? = some s.running := by
      rw [Queues.getElem?_sweep (hi.ok.running hm)]; exact running_eq hcur
    rw [hw, Queues.enter, Queues.settle_waiting]
    cases type with
    | yield => simp [Queues.dispatch, Queues.sweep, Sched.queues]
    | exit => simp [Queues.dispatch, Queues.sweep, Sched.queues]
    | read => simp only [Queues.dispatch, hr]; simp [Queues.sweep, Sched.queues]

theorem poll_waiting (hi : s.Inv bound) (h : s.step bound (.poll polls) = some s') :
    s'.waiting = pick (fun i => !polls i) 0 s.waiting := by
  cases sched_cases hi h with
  | poll hm hq _ =>
    have hw : s'.waiting = (s.queues.pollAgain polls).waiting := congrArg Queues.waiting hq
    rw [hw, Queues.pollAgain]
    split <;> rfl

theorem run_all {ps : List Ptr} {tr : List (Sched × SchedEvent)} {s0 : Sched}
    (h0 : s0.Inv bound) (hps : s0.queues.all = ps) (h : Run (Sched.step bound) s0 tr s) :
    s.Inv bound ∧ ps.Perm (exited tr ++ s.queues.all) := by
  induction h with
  | nil => exact ⟨h0, by rw [hps]; exact .refl _⟩
  | snoc _ hs ih =>
    obtain ⟨hi, hp⟩ := ih
    refine ⟨hi.step hs, hp.trans ?_⟩
    have := (sched_cases hi hs).all hi
    simp only [exited, List.flatMap_append, List.flatMap_cons, List.flatMap_nil, List.append_nil,
      List.append_assoc]
    exact this.append_left _

/-- Any number of threads, any entries, any answers of `poll`: the scheduler keeps every thread
until it exits. -/
theorem scheduler_conserves {ps : List Ptr} {tr : List (Sched × SchedEvent)} (hne : ps ≠ [])
    (hnd : ps.Nodup) (hb : ps.length ≤ bound)
    (h : Run (Sched.step bound) (start bound ps) tr s) : Conserved bound ps tr s := by
  have hall0 : (start bound ps).queues.all = ps := by
    obtain ⟨hr, hw, _⟩ := start_spec hne hb
    simp only [Queues.all, Sched.queues, hr, hw, List.append_nil]
  obtain ⟨hi, hall⟩ := run_all (start_inv hne hnd hb) hall0 h
  have hdis := List.nodup_append.1 (hall.nodup hnd)
  refine ⟨hi.ok.safe, hi.current_lt, ?_, hi.live, ?_, ?_, ?_⟩
  · have hf := (hall.filter fun p => p ∉ exited tr).symm
    rw [List.filter_append] at hf
    have h1 : (exited tr).filter (fun p => p ∉ exited tr) = [] := by
      rw [List.filter_eq_nil_iff]
      intro p hp
      simp [hp]
    have h2 : s.queues.all.filter (fun p => p ∉ exited tr) = s.queues.all := by
      rw [List.filter_eq_self]
      intro p hp
      simp only [decide_eq_true_eq]
      exact fun he => hdis.2.2 p he p hp rfl
    rw [h1, h2, List.nil_append] at hf
    exact hf
  · intro hm p hp
    have := hi.ok.returned hm
    rw [this, List.append_nil] at hall
    exact hall.mem_iff.1 hp
  · exact fun type polls s' hs => enter_waiting hi hs
  · exact fun polls s' hs => poll_waiting hi hs

end

theorem scheduler_conserves_two :
    Conserved 2 [10, 20]
      (traceOf (Sched.step 2) (start 2 [10, 20])
        [.enter .read fun _ => false, .enter .yield fun _ => true, .enter .exit fun _ => false])
      ((runEvents (Sched.step 2) (start 2 [10, 20])
        [.enter .read fun _ => false, .enter .yield fun _ => true,
          .enter .exit fun _ => false]).getD (start 2 [10, 20])) :=
  scheduler_conserves (by decide) (by decide) (by decide) (run_traceOf rfl)

end SysProg.Threads
