import Mathlib.Algebra.Order.BigOperators.Group.List
import SysProg.Threads.Waiting
import SysProg.Threads.Fibonacci
import SysProg.Threads.Collatz
import SysProg.Threads.Subarray

/-!
# SysProg.Threads.Finish

The process comes to its end.

* `Finishes`: a thread by itself leaves after `n` segments, with these lines.
* `Counted`: the segments of a run are those of its threads.
* `AllWait`: who is in the waiting queue waits for an item.
* `threads_finish`: no run has more segments than its threads need, it can stop only when they have
  all left or wait for an item that has not come, and in the end each has printed all its lines.
* `process_finishes`: the threads of `init_threads`.
-/

namespace SysProg.Threads

open Sched

/-- By itself, and with these items, the thread leaves after `n` segments. -/
def Finishes (th : Thread) (items : List Item) (n : Nat) (lines : List Text) : Prop :=
  ∃ l, Local.iter n (Local.start th items) = some l ∧ l.code = none ∧ l.lines = lines

section

variable {th : Thread} {items : List Item} {n k : Nat} {lines : List Text} {l l' : Local}

theorem next_exited (h : l.code = none) : l.next = none := by
  rw [Local.next, h]

theorem iter_exited (h : l.code = none) (hl : Local.iter k l = some l') : k = 0 := by
  cases k with
  | zero => rfl
  | succ k =>
    rw [Nat.add_comm, Local.iter_add, Local.iter, Local.iter, Option.bind_some, next_exited h] at hl
    cases hl

theorem Finishes.le (h : Finishes th items n lines)
    (hk : Local.iter k (Local.start th items) = some l) : k ≤ n := by
  obtain ⟨l0, hn, hc, -⟩ := h
  by_contra hlt
  obtain ⟨j, rfl⟩ := Nat.exists_eq_add_of_le (Nat.le_of_not_le hlt)
  rw [Local.iter_add, hn, Option.bind_some] at hk
  have := iter_exited hc hk
  omega

/-- A thread that has left has done everything. -/
theorem Finishes.done (h : Finishes th items n lines)
    (hk : Local.iter k (Local.start th items) = some l) (hc : l.code = none) : l.lines = lines := by
  have hle := h.le hk
  obtain ⟨l0, hn, -, hlines⟩ := h
  obtain ⟨j, rfl⟩ := Nat.exists_eq_add_of_le hle
  rw [Local.iter_add, hk, Option.bind_some] at hn
  obtain rfl := iter_exited hc hn
  cases hn
  exact hlines

/-- A thread that has not left can go on. -/
theorem Finishes.next (h : Finishes th items n lines)
    (hk : Local.iter k (Local.start th items) = some l) (hc : l.code ≠ none) :
    ∃ l', l.next = some l' := by
  have hle := h.le hk
  obtain ⟨l0, hn, hc0, -⟩ := h
  obtain ⟨j, rfl⟩ := Nat.exists_eq_add_of_le hle
  rw [Local.iter_add, hk, Option.bind_some] at hn
  cases j with
  | zero =>
    cases hn
    exact absurd hc0 hc
  | succ j =>
    rw [Nat.add_comm, Local.iter_add, Local.iter, Local.iter, Option.bind_some,
      Option.bind_eq_some_iff] at hn
    obtain ⟨l1, h1, -⟩ := hn
    exact ⟨l1, h1⟩

end

/-! ## The segments of a run -/

def WorldEvent.isRun : WorldEvent → Bool
  | .run _ _ => true
  | _ => false

def segments (tr : List (World × WorldEvent)) : Nat := tr.countP fun x => x.2.isRun

section

variable {bound : Nat} {w w' : World} {ths : List Thread} {th : Thread} {e : WorldEvent}
  {tr : List (World × WorldEvent)} {k : Nat} {l : Local}

/-- A step that is not one of the running thread leaves all threads where they are. -/
theorem Tracks.idle (hi : WorldInv bound w) (hl : Tracks th (arrivals th.ptr tr) w k l)
    (h : w.step bound e = some w') (he : e.isRun = false) :
    ∃ l', Tracks th (arrivals th.ptr (tr ++ [(w, e)])) w' k l' := by
  rw [arrivals_append]
  cases e with
  | run pending polls => cases he
  | poll polls =>
    simp only [arrivals, List.flatMap_cons, List.flatMap_nil, List.append_nil] at hl ⊢
    obtain ⟨_, s, hs, rfl⟩ := schedule_some h
    have hall := ((sched_cases hi.sched hs).all hi.sched).mem_iff (a := th.ptr)
    exact ⟨l, ⟨hl.iter, hl.lines, hl.items, fun h => hl.code (hall.2 h),
      fun h => hl.vars (hall.2 h)⟩, fun h => hl.gone fun h' => h (hall.1 h')⟩
  | arrive d item =>
    cases h
    by_cases hd : d = th.ptr
    · subst hd
      have hlast : arrivals th.ptr [(w, .arrive th.ptr item)] = [item] := by simp [arrivals]
      rw [hlast]
      refine ⟨l.addItems [item], ⟨?_, hl.lines, ?_, hl.code, hl.vars⟩, hl.gone⟩
      · rw [← Local.start_addItems]
        exact Local.iter_append [item] k hl.iter
      · simp [Local.addItems, hl.items]
    · have hlast : arrivals th.ptr [(w, .arrive d item)] = [] := by simp [arrivals, hd]
      rw [hlast, List.append_nil]
      refine ⟨l, ⟨hl.iter, hl.lines, ?_, hl.code, hl.vars⟩, hl.gone⟩
      simp only [upd_of_ne (Ne.symm hd)]
      exact hl.items

theorem Tracks.run {pending : Pending} {polls : Nat → Bool} (hi : WorldInv bound w)
    (hl : Tracks th (arrivals th.ptr tr) w k l) (h : w.step bound (.run pending polls) = some w') :
    ∃ l', Tracks th (arrivals th.ptr (tr ++ [(w, .run pending polls)])) w'
      (if w.sched.running = th.ptr then k + 1 else k) l' := by
  have hc := run_cases hi h
  rw [arrivals_append]
  simp only [arrivals, List.flatMap_cons, List.flatMap_nil, List.append_nil] at hl ⊢
  by_cases hp : w.sched.running = th.ptr
  · rw [if_pos hp]
    exact hl.run_self hi hc hp
  · rw [if_neg hp]
    exact ⟨l, hl.run_other hi hc hp⟩

/-- Each thread `th` has done `ks th.ptr` segments, and nobody else has done any. -/
structure Counted (ths : List Thread) (tr : List (World × WorldEvent)) (w : World) (ks : Ptr → Nat) :
    Prop where
  tracks : ∀ th ∈ ths, ∃ l, Tracks th (arrivals th.ptr tr) w (ks th.ptr) l
  total : (ths.map fun th => ks th.ptr).sum = segments tr

theorem segments_snoc : segments (tr ++ [(w, e)]) = segments tr + if e.isRun = true then 1 else 0 := by
  simp [segments, List.countP_append, List.countP_singleton]

/-- One of the summands grows by one. -/
theorem sum_upd {ks : Ptr → Nat} {p : Ptr} (hnd : (ths.map (·.ptr)).Nodup) (hth : th ∈ ths)
    (hp : p = th.ptr) :
    (ths.map fun th => if p = th.ptr then ks th.ptr + 1 else ks th.ptr).sum =
      (ths.map fun th => ks th.ptr).sum + 1 := by
  subst hp
  induction ths with
  | nil => cases hth
  | cons th' ths ih =>
    rw [List.map_cons, List.nodup_cons] at hnd
    simp only [List.map_cons, List.sum_cons]
    rcases List.mem_cons.1 hth with rfl | hth
    · have hrest : (ths.map fun th' => if th.ptr = th'.ptr then ks th'.ptr + 1 else ks th'.ptr) =
          ths.map fun th' => ks th'.ptr := by
        refine List.map_congr_left fun th' hth' => if_neg fun he => hnd.1 ?_
        rw [he]
        exact List.mem_map_of_mem hth'
      rw [hrest, if_pos rfl]
      omega
    · have hne : th.ptr ≠ th'.ptr := by
        intro he
        rw [← he] at hnd
        exact hnd.1 (List.mem_map_of_mem hth)
      rw [if_neg hne, ih hnd.2 hth]
      omega

theorem Counted.step {ks : Ptr → Nat} (hnd : (ths.map (·.ptr)).Nodup) (hi : WorldInv bound w)
    (hf : InFunc ths w) (h : Counted ths tr w ks) (hs : w.step bound e = some w') :
    ∃ ks', Counted ths (tr ++ [(w, e)]) w' ks' := by
  by_cases he : e.isRun = true
  · cases e with
    | run pending polls =>
      have hm := (run_cases hi hs).running
      obtain ⟨th, hth, hptr, -⟩ := hf _ (hi.running_all hm)
      refine ⟨fun p => if w.sched.running = p then ks p + 1 else ks p, fun th hth => ?_, ?_⟩
      · obtain ⟨l, hl⟩ := h.tracks th hth
        exact hl.run hi hs
      · rw [sum_upd hnd hth hptr.symm, h.total, segments_snoc]
        rfl
    | poll polls => cases he
    | arrive d item => cases he
  · rw [Bool.not_eq_true] at he
    refine ⟨ks, fun th hth => ?_, ?_⟩
    · obtain ⟨l, hl⟩ := h.tracks th hth
      exact hl.idle hi hs he
    · rw [h.total, segments_snoc, he]
      rfl

end

/-! ## Who waits -/

/-- Whoever is in the waiting queue waits for an item. -/
def AllWait (w : World) : Prop :=
  ∀ p ∈ w.sched.waiting, (w.tcb p).environment.code = .subarrayRead

section

variable {bound : Nat} {w w' : World} {e : WorldEvent} {s s' : Sched} {p : Ptr}

theorem waiting_cases {e : SchedEvent} (hi : s.Inv bound) (h : SchedCase s s' e) (hp : p ∈ s'.waiting) :
    p ∈ s.waiting ∨ p = s.running ∧ ∃ polls, e = .enter .read polls := by
  cases h with
  | @enter type polls hm hq _ =>
    have hw : s'.waiting = (s.queues.enter type polls).waiting := congrArg Queues.waiting hq
    rw [hw, Queues.enter, Queues.settle_waiting] at hp
    cases type with
    | yield => exact .inl (mem_of_mem_pick hp)
    | exit => exact .inl (mem_of_mem_pick hp)
    | read =>
      rcases List.mem_append.1 hp with hp | hp
      · exact .inl (mem_of_mem_pick hp)
      · have hrun : (s.queues.sweep polls).ready[(s.queues.sweep polls).current]? = some s.running :=
          (Queues.getElem?_sweep (hi.ok.running hm)).trans (running_slot hi hm)
        rw [hrun] at hp
        exact .inr ⟨List.mem_singleton.1 hp, polls, rfl⟩
  | @poll polls hm hq _ =>
    have hw : s'.waiting = (s.queues.pollAgain polls).waiting := congrArg Queues.waiting hq
    rw [hw, Queues.pollAgain] at hp
    split at hp
    · exact .inl (mem_of_mem_pick hp)
    · exact .inl (mem_of_mem_pick hp)

theorem AllWait.step (hi : WorldInv bound w) (ha : AllWait w) (h : w.step bound e = some w') :
    AllWait w' := by
  intro p hp
  have hcase : p ∈ w.sched.waiting ∨ p = w.sched.running ∧ ∃ pending polls,
      e = .run pending polls ∧ w.segment.stop.entry = some .read := by
    rcases step_sched hi h with ⟨-, hs⟩ | ⟨-, se, hs, hse⟩
    · rw [hs] at hp
      exact .inl hp
    · rcases waiting_cases hi.sched (sched_cases hi.sched hs) hp with hw | ⟨hrun, polls, rfl⟩
      · exact .inl hw
      · obtain ⟨pending, he, hentry⟩ := hse .read polls rfl
        exact .inr ⟨hrun, pending, polls, he, hentry⟩
  rcases hcase with hw | ⟨rfl, pending, polls, rfl, hentry⟩
  · have hne : (∃ pending polls, e = .run pending polls) → p ≠ w.sched.running := by
      rintro ⟨pending, polls, rfl⟩ rfl
      have hm := (run_cases hi h).running
      exact Queues.running_notMem_waiting hi.sched.ok (running_slot hi.sched hm) hw
    rw [tcb_frame hi h hne]
    exact ha p hw
  · have hc := run_cases hi h
    rw [hc.tcb, finish_tcb_self]
    show w.saved.code = .subarrayRead
    rcases hi.segment_stop hc.running with hs | ⟨c, hs, -⟩ | hs
    · rw [hs] at hentry
      cases hentry
    · rw [hs] at hentry
      cases hentry
    · rw [World.saved, hs]
      rfl

theorem allWait_start {heap : Ptr → Tcb} {ths : List Thread} (h : Startable bound ths) :
    AllWait (World.start bound heap ths) := by
  intro p hp
  have hw : (World.start bound heap ths).sched.waiting = [] := congrArg Queues.waiting (start_queues heap h)
  rw [hw] at hp
  cases hp

/-- If all who wait have an item, a round of polling that reports them resumes a thread. -/
theorem poll_resumes (hi : WorldInv bound w) (hm : w.sched.mode = .polling) {polls : Nat → Bool}
    (hpolls : ∀ i < w.sched.wqSize, polls i = true)
    (hitems : ∀ p ∈ w.sched.waiting, w.fifo p ≠ []) :
    ∃ w', w.step bound (.poll polls) = some w' ∧ w'.sched.mode = .running := by
  have hok : w.pollsOk polls = true := by
    rw [World.pollsOk, List.all_eq_true]
    intro i hi'
    have hlt := List.mem_range.1 hi'
    have hmem : w.sched.waitingQueue i ∈ w.sched.waiting := mem_entries hlt
    rw [hi.fd _ (waiting_all hmem)]
    simpa using .inr (hitems _ hmem)
  obtain ⟨s', hs', hq, -⟩ := @pollAgain_refines bound polls w.sched hi.sched hm
  have hpick : pick polls 0 w.sched.waiting ≠ [] := by
    obtain ⟨-, -, hne⟩ := hi.sched.ok.polling hm
    have hne : w.sched.waiting ≠ [] := hne
    have hpos : 0 < w.sched.wqSize := by
      have hlen := List.length_pos_iff.2 hne
      rw [Sched.waiting, length_entries] at hlen
      exact hlen
    cases hw : w.sched.waiting with
    | nil => exact absurd hw hne
    | cons p ps =>
      rw [pick, if_pos (hpolls 0 hpos)]
      exact List.cons_ne_nil _ _
  have hstep : w.sched.step bound (.poll polls) = some s' := by
    rw [Sched.step, if_pos hm, hs']
    rfl
  refine ⟨w.switch s', ?_, ?_⟩
  · rw [World.step, World.schedule, if_pos hok, hstep]
    rfl
  · have hready : (w.sched.queues.sweep polls).ready ≠ [] :=
      List.append_ne_nil_of_right_ne_nil _ hpick
    have hmode : s'.mode = (w.sched.queues.pollAgain polls).mode := congrArg Queues.mode hq
    rw [Queues.pollAgain, if_neg hready] at hmode
    exact hmode

/-- The running thread can always go on. -/
theorem run_enabled (hi : WorldInv bound w) (hm : w.sched.mode = .running) (pending : Pending) :
    (w.step bound (.run pending fun _ => false)).isSome = true := by
  have hschedule : ∀ {w1 : World} {type : Entry}, w1.sched = w.sched →
      (w1.schedule bound (.enter type fun _ => false) fun _ => false).isSome = true := by
    intro w1 type hs
    rw [World.schedule, if_pos pollsOk_false, hs, Sched.step, if_pos hm]
    rfl
  simp only [World.step, if_pos hm]
  rcases hi.segment_stop hm with hs | ⟨c, hs, -⟩ | hs
  · rw [hs]
    exact hschedule rfl
  · rw [hs]
    cases hc : pending.caught with
    | none => rfl
    | some text => exact hschedule rfl
  · rw [hs]
    exact hschedule rfl

end

/-! ## Every run -/

/-- What holds after any run in which no item has arrived but those of `items`. -/
structure Finishing (bound : Nat) (ths : List Thread) (items : Thread → List Item) (n : Thread → Nat)
    (lines : Thread → List Text) (tr : List (World × WorldEvent)) (w : World) : Prop where
  bounded : segments tr ≤ (ths.map n).sum
  printed : w.sched.mode = .returned → ∀ th ∈ ths, w.linesOf th.ptr = lines th
  /-- Once all items have arrived, the process goes on until it is over; it does not poll in vain. -/
  goesOn : (∀ th ∈ ths, arrivals th.ptr tr = items th) → w.sched.mode ≠ .returned →
    (w.sched.mode = .running ∧
        ∀ pending, (w.step bound (.run pending fun _ => false)).isSome = true) ∨
      (w.sched.mode = .polling ∧ ∀ polls : Nat → Bool,
        (∀ i < w.sched.wqSize,
          polls i = !(w.fifo (w.tcb (w.sched.waitingQueue i)).fd).isEmpty) →
        ∃ w', w.step bound (.poll polls) = some w' ∧ w'.sched.mode = .running)

section

variable {bound : Nat} {heap : Ptr → Tcb} {ths : List Thread} {w : World}
  {tr : List (World × WorldEvent)}

theorem counted_run (h : Startable bound ths)
    (hr : Run (World.step bound) (World.start bound heap ths) tr w) :
    WorldInv bound w ∧ InFunc ths w ∧ AllWait w ∧ ∃ ks, Counted ths tr w ks := by
  induction hr with
  | nil =>
    refine ⟨.start h, inFunc_start h, allWait_start h, fun _ => 0, fun th hth => ⟨_, tracks_start h hth⟩, ?_⟩
    simp [segments]
  | snoc _ hs ih =>
    obtain ⟨hi, hf, ha, ks, hk⟩ := ih
    exact ⟨hi.step hs, hf.step hi hs, ha.step hi hs, hk.step h.nodup hi hf hs⟩

theorem threads_finish (h : Startable bound ths) {items : Thread → List Item} {n : Thread → Nat}
    {lines : Thread → List Text} (hfin : ∀ th ∈ ths, Finishes th (items th) (n th) (lines th))
    (hr : Run (World.step bound) (World.start bound heap ths) tr w)
    (harr : ∀ th ∈ ths, arrivals th.ptr tr <+: items th) :
    Finishing bound ths items n lines tr w := by
  obtain ⟨hi, hf, ha, ks, hk⟩ := counted_run h hr
  have hiter : ∀ th ∈ ths, ∃ l rest, Tracks th (arrivals th.ptr tr) w (ks th.ptr) l ∧
      arrivals th.ptr tr ++ rest = items th ∧
      Local.iter (ks th.ptr) (Local.start th (items th)) = some (l.addItems rest) := by
    intro th hth
    obtain ⟨l, hl⟩ := hk.tracks th hth
    obtain ⟨rest, hrest⟩ := harr th hth
    refine ⟨l, rest, hl, hrest, ?_⟩
    rw [← hrest, ← Local.start_addItems]
    exact Local.iter_append rest _ hl.iter
  refine ⟨?_, fun hm th hth => ?_, fun hall hm => ?_⟩
  · rw [← hk.total]
    refine List.sum_le_sum fun th hth => ?_
    obtain ⟨l, rest, -, -, hit⟩ := hiter th hth
    exact (hfin th hth).le hit
  · obtain ⟨l, rest, hl, -, hit⟩ := hiter th hth
    have hnil : w.sched.queues.all = [] := hi.sched.ok.returned hm
    have hgone : l.code = none := hl.gone fun hmem => by rw [hnil] at hmem; cases hmem
    rw [← (hfin th hth).done hit hgone, ← hl.lines]
    rfl
  · cases hmode : w.sched.mode with
    | running => exact .inl ⟨rfl, run_enabled hi hmode⟩
    | returned => exact absurd hmode hm
    | fault => exact absurd hmode hi.sched.ok.safe
    | polling =>
      have hitems : ∀ p ∈ w.sched.waiting, w.fifo p ≠ [] := by
        intro p hp
        obtain ⟨th, hth, rfl, -⟩ := hf p (waiting_all hp)
        obtain ⟨l, rest, hl, hrest, hit⟩ := hiter th hth
        have hcode : l.code = some .subarrayRead := by
          rw [hl.code (waiting_all hp), ha _ hp]
        have hno : rest = [] := by
          rw [hall th hth] at hrest
          exact List.append_right_eq_self.1 hrest
        subst hno
        have hleft : (l.addItems []).code ≠ none := by
          rw [Local.addItems, hcode]
          exact Option.some_ne_none _
        obtain ⟨l', hnext⟩ := (hfin th hth).next hit hleft
        obtain ⟨c, hc, hread, -⟩ := Local.next_some hnext
        rw [← hl.items]
        intro hnil
        refine hread ⟨?_, ?_⟩
        · rw [Local.addItems, hcode] at hc
          exact (Option.some.inj hc).symm
        · rw [Local.addItems, hnil]
          rfl
      refine .inr ⟨rfl, fun polls hpolls => poll_resumes hi hmode (fun i hlt => ?_) hitems⟩
      have hmem : w.sched.waitingQueue i ∈ w.sched.waiting := mem_entries hlt
      rw [hpolls i hlt, hi.fd _ (waiting_all hmem)]
      simpa using hitems _ hmem

end

/-! ## The three functions -/

section

variable {th : Thread} {items : List Item} {n k : Nat} {lines : List Text} {l : Local}

theorem finishes_of {P : Nat → Local → Prop} (h0 : P 0 (Local.start th items))
    (hstep : ∀ k l, k < n → P k l → ∃ l', l.next = some l' ∧ P (k + 1) l')
    (hend : ∀ l, P n l → l.code = none ∧ l.lines = lines) : Finishes th items n lines := by
  have hiter : ∀ k ≤ n, ∃ l, Local.iter k (Local.start th items) = some l ∧ P k l := by
    intro k
    induction k with
    | zero => exact fun _ => ⟨_, rfl, h0⟩
    | succ k ih =>
      intro hk
      obtain ⟨l, hl, hp⟩ := ih (by omega)
      obtain ⟨l', hn, hp'⟩ := hstep k l (by omega) hp
      exact ⟨l', by rw [Local.iter, hl, Option.bind_some, hn], hp'⟩
  obtain ⟨l, hl, hp⟩ := hiter n (Nat.le_refl n)
  exact ⟨l, hl, hend l hp⟩

section

variable {first again : Code} {line : Nat → Text}

theorem Loops.exists_code (h : Loops first again line n k l) (hk : k < n) : ∃ c, l.code = some c := by
  have hcode := h.code
  rw [if_neg (Nat.ne_of_lt hk)] at hcode
  exact ⟨_, hcode⟩

/-- A loop that does not read goes on. -/
theorem Loops.goes {c : Code} (h : Loops first again line n k l) (hfirst : first ≠ .subarrayRead)
    (hagain : again ≠ .subarrayRead) (hc : l.code = some c)
    (hseg : Iteration again line n k (c.run l.vars l.items)) : ∃ l', l.next = some l' := by
  have hread : ¬ (c = .subarrayRead ∧ l.items = []) := by
    rintro ⟨rfl, -⟩
    rcases (h.more hc).2 with ⟨-, he⟩ | ⟨-, he⟩
    · exact hfirst he.symm
    · exact hagain he.symm
  have hfell : (c.run l.vars l.items).stop ≠ .fell := by
    rw [hseg.stop]
    split
    · nofun
    · nofun
  exact ⟨_, Local.next_eq hc hread hfell⟩

theorem Loops.ends (h : Loops first again line n n l) :
    l.code = none ∧ l.lines = (List.range n).map line := by
  have hcode := h.code
  rw [if_pos rfl] at hcode
  exact ⟨hcode, h.lines⟩

end

theorem finishes_fibonacci (hf : th.func = .fibonacci) (h0 : 0 ≤ th.arg.toInt) (ha : th.arg ≠ 0)
    (items : List Item) :
    Finishes th items th.arg.toNat ((List.range th.arg.toNat).map (fibLine th.id)) := by
  have hlt := toNat_lt_of_nonneg h0
  have hne : th.arg.toNat ≠ 0 := BitVec.toNat_ne_iff_ne.2 ha
  refine finishes_of (P := FibAt th) (fibAt_start hf hne items) (fun k l hk h => ?_)
    fun l h => h.toLoops.ends
  obtain ⟨c, hc⟩ := h.toLoops.exists_code hk
  obtain ⟨l', hn⟩ := h.toLoops.goes (by decide) (by decide) hc (h.run hlt hc).toIteration
  exact ⟨l', hn, h.next hlt hn⟩

theorem finishes_collatz {m : Nat} (hf : th.func = .collatz) (h0 : 0 ≤ th.arg.toInt)
    (he : Ends th.arg m) (hm : m ≠ 0) (items : List Item) :
    Finishes th items m ((List.range m).map (collatzLine th)) := by
  have hstart : CollatzAt th m 0 (Local.start th items) := by
    refine ⟨loops_start ?_ hm items, rfl, rfl⟩
    rw [hf]
    rfl
  refine finishes_of (P := CollatzAt th m) hstart (fun k l hk h => ?_) fun l h => h.toLoops.ends
  obtain ⟨c, hc⟩ := h.toLoops.exists_code hk
  obtain ⟨l', hn⟩ := h.toLoops.goes (by decide) (by decide) hc (h.run h0 he hc).toIteration
  exact ⟨l', hn, h.next h0 he hn⟩

/-- Two segments for each number: up to the `read`, and from it on. -/
def SubSegments (th : Thread) (items : List Item) (k : Nat) (l : Local) : Prop :=
  ∃ n, SubAt th items n l ∧ k = 2 * n + if l.code = some .subarrayRead then 1 else 0

theorem subAt_unique {n' : Nat} (h : SubAt th items n l) (hle : n' ≤ items.length)
    (hitems : l.items = items.drop n') : n = n' := by
  have hlen := congrArg List.length (h.fifo.symm.trans hitems)
  have := h.le
  simp only [List.length_drop] at hlen
  omega

theorem SubSegments.step (hlen : subCount th.arg ≤ items.length) (h : SubSegments th items k l)
    (hk : k < 2 * subCount th.arg) : ∃ l', l.next = some l' ∧ SubSegments th items (k + 1) l' := by
  obtain ⟨n, hat, hkn⟩ := h
  have hle := hat.le
  have hplace := hat.place
  cases hc : l.code with
  | none =>
    obtain ⟨-, hiff⟩ := hat.code_iff
    rw [hc] at hiff hkn
    simp at hiff hkn
    omega
  | some c =>
    rw [hc] at hplace hkn
    have hwait : c = .subarrayRead → l.items ≠ [] := by
      rintro rfl
      have hlt : n < items.length := by
        cases hplace with
        | read _ hn => omega
      rw [hat.fifo, ne_eq, List.drop_eq_nil_iff]
      omega
    have hfell : (c.run l.vars l.items).stop ≠ .fell := by
      cases hplace with
      | start _ _ => nofun
      | yield _ _ => nofun
      | read _ _ =>
        show (maxSubarrayBody l.vars l.items).stop ≠ _
        rw [(hat.read hc (hwait rfl)).stop]
        split
        · nofun
        · nofun
    have hn : l.next = some (l.after (c.run l.vars l.items)) :=
      Local.next_eq hc (fun hr => hwait hr.1 hr.2) hfell
    obtain ⟨n', hat'⟩ := hat.next hn
    refine ⟨_, hn, n', hat', ?_⟩
    cases hplace with
    | start _ _ =>
      have hnn : n' = n := subAt_unique hat' hle hat.fifo
      have hcode : (l.after (Code.subarrayStart.run l.vars l.items)).code = some .subarrayRead := rfl
      rw [hcode, if_pos rfl, hnn, hkn]
      simp
    | yield _ _ =>
      have hnn : n' = n := subAt_unique hat' hle hat.fifo
      have hcode : (l.after (Code.subarrayYield.run l.vars l.items)).code = some .subarrayRead := rfl
      rw [hcode, if_pos rfl, hnn, hkn]
      simp
    | read _ hlt =>
      have hseg := hat.read hc (hwait rfl)
      have hnn : n' = n + 1 := subAt_unique hat' hseg.lt hseg.fifo
      have hcode : (l.after (Code.subarrayRead.run l.vars l.items)).code ≠ some .subarrayRead := by
        show (maxSubarrayBody l.vars l.items).stop.code ≠ _
        rw [hseg.stop]
        split
        · nofun
        · nofun
      rw [if_neg hcode, hnn, hkn]
      simp
      omega

theorem finishes_subarray (hf : th.func = .maxSubarray) (hlen : subCount th.arg ≤ items.length) :
    Finishes th items (2 * subCount th.arg)
      ((List.range (subCount th.arg)).map (subLine th.id items)) := by
  have hstart : SubSegments th items 0 (Local.start th items) := by
    refine ⟨0, subAt_start hf items, ?_⟩
    simp [Local.start, hf, Func.start]
  refine finishes_of hstart (fun k l hk h => h.step hlen hk) fun l h => ?_
  obtain ⟨n, hat, hkn⟩ := h
  obtain ⟨hle, hiff⟩ := hat.code_iff
  have hn : n = subCount th.arg := by
    split at hkn <;> omega
  subst hn
  refine ⟨?_, hat.lines⟩
  by_contra hne
  exact Nat.lt_irrefl _ (hiff.1 hne)

end

/-! ## The process -/

/-- `m` is the length of the trajectory of the `collatz` thread. -/
def Thread.needs (m : Nat) (th : Thread) : Nat :=
  match th.func with
  | .fibonacci => th.arg.toNat
  | .collatz => m
  | .maxSubarray => 2 * subCount th.arg

def Thread.allLines (m : Nat) (numbers : List Item) (th : Thread) : List Text :=
  match th.func with
  | .fibonacci => (List.range th.arg.toNat).map (fibLine th.id)
  | .collatz => (List.range m).map (collatzLine th)
  | .maxSubarray => (List.range (subCount th.arg)).map (subLine th.id numbers)

section

variable {malloc : Func → Ptr} {i : Func → CInt} {buf : Func → Text} {fibArg colArg subArg : CInt}
  {heap : Ptr → Tcb} {w : World} {tr : List (World × WorldEvent)} {m : Nat} {numbers : List Item}

theorem mem_initThreads {th : Thread} (h : th ∈ initThreads malloc i buf fibArg colArg subArg) :
    th.ptr = malloc th.func ∧
      th.arg = match th.func with | .fibonacci => fibArg | .collatz => colArg | .maxSubarray => subArg := by
  have hone : ∀ (func : Func) (id arg : CInt),
      th ∈ (if 0 ≤ arg.toInt then [(⟨malloc func, func, id, arg, i func, buf func⟩ : Thread)] else []) →
      th = ⟨malloc func, func, id, arg, i func, buf func⟩ := by
    intro func id arg hth
    split at hth
    · exact List.mem_singleton.1 hth
    · cases hth
  simp only [initThreads, List.mem_append] at h
  rcases h with (h | h) | h
  · rw [hone _ _ _ h]
    exact ⟨rfl, rfl⟩
  · rw [hone _ _ _ h]
    exact ⟨rfl, rfl⟩
  · rw [hone _ _ _ h]
    exact ⟨rfl, rfl⟩

/-- Whatever the signals and the order of the numbers and the steps are, the process finishes its work:
`numbers` are the items for `max_subarray`, and the items in the other FIFOs do not matter. -/
theorem process_finishes (hmalloc : Function.Injective malloc)
    (hsome : 0 ≤ fibArg.toInt ∨ 0 ≤ colArg.toInt ∨ 0 ≤ subArg.toInt) (hfib : fibArg ≠ 0)
    (hcol : 0 ≤ colArg.toInt → Ends colArg m ∧ m ≠ 0)
    (hsub : 0 ≤ subArg.toInt → subCount subArg ≤ numbers.length)
    (hr : Run (World.step THREAD_MAX)
      (World.start THREAD_MAX heap (initThreads malloc i buf fibArg colArg subArg)) tr w)
    (harr : arrivals (malloc .maxSubarray) tr <+: numbers) :
    Finishing THREAD_MAX (initThreads malloc i buf fibArg colArg subArg)
      (fun th => if th.func = .maxSubarray then numbers else arrivals th.ptr tr)
      (Thread.needs m) (Thread.allLines m numbers) tr w := by
  have hcreate := initThreads_creatable i buf hmalloc hsome
  have hstart : Startable THREAD_MAX (initThreads malloc i buf fibArg colArg subArg) := by
    refine ⟨hcreate.ne, hcreate.nodup, hcreate.length, fun th hth hf h1 => ?_⟩
    have harg : th.arg = colArg := by
      rw [(mem_initThreads hth).2, hf]
    have h0 := initThreads_arg hth
    rw [harg] at h0 h1
    obtain ⟨he, hm⟩ := hcol h0
    exact he.first 0 (Nat.pos_of_ne_zero hm) (by rw [h1]; decide)
  refine threads_finish hstart (fun th hth => ?_) hr fun th hth => ?_
  · have hargs := (mem_initThreads hth).2
    have h0 := initThreads_arg hth
    cases hf : th.func with
    | fibonacci =>
      have hne : th.arg ≠ 0 := by
        rw [hargs, hf]
        exact hfib
      simp only [Thread.needs, Thread.allLines, hf]
      exact finishes_fibonacci hf h0 hne _
    | collatz =>
      have harg : th.arg = colArg := by
        rw [hargs, hf]
      obtain ⟨he, hm⟩ := hcol (harg ▸ h0)
      simp only [Thread.needs, Thread.allLines, hf]
      exact finishes_collatz hf h0 (harg ▸ he) hm _
    | maxSubarray =>
      have harg : th.arg = subArg := by
        rw [hargs, hf]
      have hlen : subCount th.arg ≤ numbers.length := by
        rw [harg]
        exact hsub (harg ▸ h0)
      simp only [Thread.needs, Thread.allLines, hf, if_true]
      exact finishes_subarray hf hlen
  · split
    · rename_i hf
      rw [(mem_initThreads hth).1, hf]
      exact harr
    · exact List.prefix_refl _

end

theorem ends_six : Ends 6 8 := by
  refine ⟨rfl, ?_, ?_⟩
  · decide
  · decide

theorem process_finishes_two :
    Finishing THREAD_MAX (created (-1) 6 2)
      (fun th => if th.func = .maxSubarray then [⟨"  -3\n".toList, rfl⟩, ⟨"  -2\n".toList, rfl⟩]
        else arrivals th.ptr (traceOf (World.step THREAD_MAX) subStart subEvents))
      (Thread.needs 8)
      (Thread.allLines 8 [⟨"  -3\n".toList, rfl⟩, ⟨"  -2\n".toList, rfl⟩])
      (traceOf (World.step THREAD_MAX) subStart subEvents) subEnd :=
  process_finishes place_injective (.inr (.inl (by decide))) (by decide)
    (fun _ => ⟨ends_six, by decide⟩) (fun _ => by decide) (run_getD rfl) (List.prefix_refl _)

end SysProg.Threads
