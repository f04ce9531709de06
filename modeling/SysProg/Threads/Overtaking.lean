import SysProg.Threads.Sweeps

/-!
# SysProg.Threads.Overtaking

How often a thread can be resumed while another one stays ready and waits. A thread that waits keeps
its slot, so it is left out only as long as `rq_current` does not pass that slot.

* `Passing`: where the slot of a thread left out can be, from the slot of a resumption on.
* `passing_run`: a thread that stays ready without being resumed keeps its slot, which is not passed.
* `overtaking`: what lies between two resumptions of a thread. If it keeps its own slot, everybody
  who stayed ready was resumed in between.
* `overtaken_twice`: a thread that comes to the slot of a removed one can be resumed twice while
  another one waits.
-/

namespace SysProg.Threads

open Sched

def resetsIn (bound : Nat) (tr : List (Sched × SchedEvent)) : Nat :=
  tr.countP fun x => x.1.resets bound x.2

/-- From slot `i`, with `n` resets, `rq_current` has come to `c` without being at `j`. -/
def Passing (i j n c : Nat) : Prop :=
  n = 0 ∧ i ≤ c ∧ (j < i ∨ c < j) ∨ n = 1 ∧ j < i ∧ c < j

namespace Queues

variable {q : Queues} {type : Entry} {polls : Nat → Bool} {a : Ptr} {i j n : Nat}

theorem enter_current (h : ¬ (q.entered type polls).AtEnd) : (q.enter type polls).current =
    if type = .yield then q.current + 1 else q.current := by
  rw [enter_eq, settle_current h, entered_current]

theorem enter_ready : (q.enter type polls).ready = (q.entered type polls).ready := settle_ready

/-- The running thread stays ready only if it yields. -/
theorem removed_of_ne_yield (hq : q.Ok) (hm : q.mode = .running) (ha : q.ready[q.current]? = some a)
    (ht : type ≠ .yield) : a ∉ (q.enter type polls).ready := by
  have hlt := @current_lt_sweep q polls (hq.running hm)
  have hn : (q.sweep polls).ready.Nodup :=
    (List.nodup_append.1 ((sweep_all q).nodup hq.nodup)).1
  have hs : (q.sweep polls).ready[(q.sweep polls).current]? = some a :=
    (getElem?_sweep (hq.running hm)).trans ha
  have hp := (swapRemove_perm hlt).nodup hn
  have he : (q.sweep polls).ready[(q.sweep polls).current] = a := by
    rw [List.getElem?_eq_getElem hlt] at hs
    exact Option.some.inj hs
  rw [he] at hp
  rw [enter_ready]
  cases type with
  | yield => exact absurd rfl ht
  | read => exact (List.nodup_cons.1 hp).1
  | exit => exact (List.nodup_cons.1 hp).1

theorem enter_passing (hq : q.Ok) (hm : q.mode = .running) (ha : q.ready[j]? = some a)
    (hj : j ≠ q.current) (hnot : (q.enter type polls).ready[(q.enter type polls).current]? ≠ some a)
    {m : Nat} (hend : (q.entered type polls).AtEnd → m = n + 1)
    (hgo : ¬ (q.entered type polls).AtEnd → m = n) (h : Passing i j n q.current) :
    (q.enter type polls).ready[j]? = some a ∧ Passing i j m (q.enter type polls).current := by
  have hlt := hq.running hm
  rw [enter_ready] at hnot ⊢
  by_cases he : (q.entered type polls).AtEnd
  · have hp := entered_passed hlt he ha hj
    have hc : (q.enter type polls).current = 0 := settle_atEnd he
    rw [hc] at hnot ⊢
    have hs : (q.entered type polls).ready[j]? = some a := by
      rcases entered_slot type polls hlt ha hj with hs | ⟨-, hl, -⟩
      · exact hs
      · omega
    have h0 : j ≠ 0 := by
      rintro rfl
      exact hnot hs
    refine ⟨hs, ?_⟩
    rw [hend he]
    rcases h with ⟨rfl, hi, hji⟩ | ⟨rfl, hji, hcj⟩
    · exact .inr ⟨rfl, by omega, by omega⟩
    · omega
  · rw [enter_current he] at hnot ⊢
    rw [hgo he]
    rcases entered_slot type polls hlt ha hj with hs | ⟨ht, -, hs⟩
    · refine ⟨hs, ?_⟩
      split at hnot
      · have hne : j ≠ q.current + 1 := by
          rintro rfl
          exact hnot hs
        rw [if_pos ‹_›]
        rcases h with ⟨rfl, hi, hji⟩ | ⟨rfl, hji, hcj⟩
        · exact .inl ⟨rfl, by omega, by omega⟩
        · exact .inr ⟨rfl, hji, by omega⟩
      · rw [if_neg ‹_›]
        exact h
    · rw [if_neg ht] at hnot
      exact absurd hs hnot

end Queues

section

variable {bound i j : Nat} {s s' : Sched} {e : SchedEvent} {tr : List (Sched × SchedEvent)} {a : Ptr}

theorem resetsIn_snoc : resetsIn bound (tr ++ [(s, e)]) =
    resetsIn bound tr + if s.resets bound e = true then 1 else 0 := by
  simp [resetsIn, List.countP_append, List.countP_singleton]

theorem running_of_ready (hi : s.Inv bound) (ha : a ∈ s.ready) : s.mode = .running := by
  have hne : s.queues.ready ≠ [] := List.ne_nil_of_mem ha
  cases hm : s.mode with
  | running => rfl
  | polling => exact absurd (hi.ok.polling hm).1 hne
  | returned =>
    have := hi.ok.returned hm
    exact absurd (List.append_eq_nil_iff.1 this).1 hne
  | fault => exact absurd hm hi.ok.safe

/-- A step of the run from a state in which `a` is ready. -/
theorem step_ready (hi : s.Inv bound) (ha : a ∈ s.ready) (h : s.step bound e = some s') :
    s.mode = .running ∧ ∃ type polls, e = .enter type polls ∧ s'.queues = s.queues.enter type polls := by
  have hm := running_of_ready hi ha
  refine ⟨hm, ?_⟩
  cases sched_cases hi h with
  | @enter type polls _ hq _ => exact ⟨type, polls, rfl, hq⟩
  | poll hm' _ _ => rw [hm'] at hm; cases hm

theorem passing_run (hi : s.Inv bound) (hs : s.ready[j]? = some a) (hj : j ≠ s.rqCurrent)
    (h : Run (Sched.step bound) s tr s') (hstay : Always (fun t => a ∈ t.ready) tr s')
    (hnot : a ∉ resumed tr) (hlast : s'.running ≠ a) :
    s'.Inv bound ∧ Always (fun t => t.ready[j]? = some a) tr s' ∧
      Passing s.rqCurrent j (resetsIn bound tr) s'.rqCurrent := by
  induction h with
  | nil =>
    refine ⟨hi, ⟨nofun, hs⟩, .inl ⟨rfl, Nat.le_refl _, ?_⟩⟩
    omega
  | @snoc t s' tr e hr hstep ih =>
    obtain ⟨hst, hready'⟩ := always_snoc.1 hstay
    rw [resumed_snoc, List.mem_append, not_or] at hnot
    have hit := hr.invariant (fun _ _ _ hi hs => hi.step hs) hi
    obtain ⟨hm, type, polls, rfl, hq⟩ := step_ready hit hst.2 hstep
    rw [resumedAt_running hm, List.mem_singleton] at hnot
    obtain ⟨-, hslot, hpass⟩ := ih hst hnot.1 fun e => hnot.2 e.symm
    have hi' := hit.step hstep
    have hm' := running_of_ready hi' hready'
    have hnext : s'.queues.ready[s'.queues.current]? ≠ some a := by
      rw [running_slot hi' hm']
      exact fun e => hlast (Option.some.inj e)
    have hj' : j ≠ t.queues.current := by
      rintro rfl
      have := hslot.2.symm.trans (running_slot hit hm)
      exact hnot.2 (Option.some.inj this)
    rw [hq] at hnext
    have hreset : t.resets bound (.enter type polls) = true ↔ (t.queues.entered type polls).AtEnd :=
      resets_enter hit hm
    obtain ⟨hs', hp'⟩ := Queues.enter_passing (m := resetsIn bound (tr ++ [(t, .enter type polls)]))
      hit.ok hm hslot.2 hj' hnext
      (fun h => by rw [resetsIn_snoc, if_pos (hreset.2 h)])
      (fun h => by rw [resetsIn_snoc, if_neg fun h' => h (hreset.1 h'), Nat.add_zero]) hpass
    rw [← hq] at hs' hp'
    exact ⟨hi', always_snoc.2 ⟨hslot, hs'⟩, hp'⟩

/-- A thread that stays ready is not resumed from its own slot again before a reset. -/
theorem onward_run (hi : s.Inv bound) (hm : s.mode = .running)
    (h : Run (Sched.step bound) s tr s') (hstay : Always (fun t => s.running ∈ t.ready) tr s')
    (hno : resetsIn bound tr = 0) : s'.Inv bound ∧ (tr ≠ [] → s.rqCurrent < s'.rqCurrent) := by
  induction h with
  | nil => exact ⟨hi, fun h => absurd rfl h⟩
  | @snoc t s' tr e hr hstep ih =>
    obtain ⟨hstay, hready'⟩ := always_snoc.1 hstay
    rw [resetsIn_snoc] at hno
    obtain ⟨hit, hlt⟩ := ih hstay (by omega)
    obtain ⟨hmt, type, polls, rfl, hq⟩ := step_ready hit hstay.2 hstep
    have hend : ¬ (t.queues.entered type polls).AtEnd := by
      intro h
      rw [if_pos ((resets_enter hit hmt).2 h)] at hno
      omega
    have hc : s'.queues.current = if type = .yield then t.rqCurrent + 1 else t.rqCurrent := by
      rw [hq, Queues.enter_current hend]
      rfl
    change s'.rqCurrent = _ at hc
    refine ⟨hit.step hstep, fun _ => ?_⟩
    by_cases htr : tr = []
    · subst htr
      obtain rfl := hr.eq_of_nil
      have hy : type = .yield := by
        by_contra hy
        have hgone : t.running ∉ (t.queues.enter type polls).ready :=
          Queues.removed_of_ne_yield hit.ok hmt (running_slot hit hmt) hy
        rw [← hq] at hgone
        exact hgone hready'
      rw [hc, if_pos hy]
      omega
    · have := hlt htr
      rw [hc]
      split <;> omega

/-- What lies between two resumptions of a thread, from the slots `s.rqCurrent` and `s'.rqCurrent`. -/
theorem overtaking {ps : List Ptr} {tr0 : List (Sched × SchedEvent)} {p q : Ptr} (hne : ps ≠ [])
    (hnd : ps.Nodup) (hb : ps.length ≤ bound) (h0 : Run (Sched.step bound) (start bound ps) tr0 s)
    (h : Run (Sched.step bound) s tr s') (htr : tr ≠ []) (hm : s.mode = .running)
    (hp : s.running = p) (hp' : s'.running = p) (hq : q ≠ p)
    (hstay : Always (fun t => q ∈ t.ready) tr s') :
    (q ∈ resumed tr ∨ ∃ j, Always (fun t => t.ready[j]? = some q) tr s' ∧
      (resetsIn bound tr = 0 ∧ (j < s.rqCurrent ∨ s'.rqCurrent < j) ∨
        resetsIn bound tr = 1 ∧ s'.rqCurrent < j ∧ j < s.rqCurrent)) ∧
    (Always (fun t => p ∈ t.ready) tr s' → s'.rqCurrent = s.rqCurrent → q ∈ resumed tr) := by
  have hi := reachable_inv hne hnd hb h0
  have hfirst : q ∈ s.ready := h.always_start hstay
  have hleft : q ∉ resumed tr → ∃ j, Always (fun t => t.ready[j]? = some q) tr s' ∧
      Passing s.rqCurrent j (resetsIn bound tr) s'.rqCurrent := by
    intro hnot
    obtain ⟨j, hj⟩ := List.getElem?_of_mem hfirst
    have hne : j ≠ s.rqCurrent := by
      rintro rfl
      have := hj.symm.trans (running_slot hi hm)
      exact hq ((Option.some.inj this).trans hp)
    have hlast : s'.running ≠ q := by
      rw [hp']
      exact hq.symm
    obtain ⟨-, hslot, hpass⟩ := passing_run hi hj hne h hstay hnot hlast
    exact ⟨j, hslot, hpass⟩
  constructor
  · by_cases hr : q ∈ resumed tr
    · exact .inl hr
    · obtain ⟨j, hslot, hpass⟩ := hleft hr
      refine .inr ⟨j, hslot, ?_⟩
      rcases hpass with ⟨hn, -, hj⟩ | ⟨hn, hj, hj'⟩
      · exact .inl ⟨hn, hj⟩
      · exact .inr ⟨hn, hj', hj⟩
  · intro hown hsame
    by_contra hr
    obtain ⟨j, -, hpass⟩ := hleft hr
    rcases hpass with ⟨hn, -, -⟩ | ⟨hn, hj, hj'⟩
    · subst hp
      have := (onward_run hi hm h hown hn).2 htr
      omega
    · omega

end

/-- Three threads yield in turn. -/
def roundTrace : List (Sched × SchedEvent) :=
  traceOf (Sched.step 3) (start 3 [10, 20, 30]) (List.replicate 3 (.enter .yield fun _ => false))

theorem overtaking_round : 20 ∈ resumed roundTrace :=
  (overtaking (by decide) (by decide) (by decide) .nil (run_traceOf rfl) (by decide) rfl rfl
    (by decide : _ = 10) (by decide) ⟨by decide, by decide⟩).2 ⟨by decide, by decide⟩ (by decide)

/-- Two threads have yielded, and the third one runs. -/
def lastTurn : Sched :=
  (runEvents (Sched.step THREAD_MAX) (start THREAD_MAX [10, 20, 30])
    (List.replicate 2 (.enter .yield fun _ => false))).getD Sched.empty

/-- It yields, and the first one reads. -/
def readTrace : List (Sched × SchedEvent) :=
  traceOf (Sched.step THREAD_MAX) lastTurn [.enter .yield fun _ => false, .enter .read fun _ => false]

def nextTurn : Sched :=
  (runEvents (Sched.step THREAD_MAX) lastTurn
    [.enter .yield fun _ => false, .enter .read fun _ => false]).getD Sched.empty

/-- The last thread comes to the slot of the first one, and is resumed twice while the second one is
ready all the time. -/
theorem overtaken_twice : ¬ ∀ (ps : List Ptr) (tr0 tr : List (Sched × SchedEvent)) (s s' : Sched)
    (p q : Ptr), ps ≠ [] → ps.Nodup → ps.length ≤ THREAD_MAX →
    Run (Sched.step THREAD_MAX) (start THREAD_MAX ps) tr0 s → Run (Sched.step THREAD_MAX) s tr s' →
    tr ≠ [] → s.mode = .running → s.running = p → s'.mode = .running → s'.running = p →
    p ∉ resumed tr.tail → q ≠ p → Always (fun t => q ∈ t.ready) tr s' → q ∈ resumed tr := by
  intro hall
  have hr0 : runEvents (Sched.step THREAD_MAX) (start THREAD_MAX [10, 20, 30])
      (List.replicate 2 (.enter .yield fun _ => false)) = some lastTurn := rfl
  have hr : Run (Sched.step THREAD_MAX) lastTurn readTrace nextTurn := run_traceOf rfl
  have h20 : 20 ∈ resumed readTrace :=
    hall [10, 20, 30] _ readTrace lastTurn nextTurn 30 20 (by decide) (by decide) (by decide)
      (run_traceOf hr0) hr
      (by decide) (by decide) (by decide) (by decide) (by decide) (by decide) (by decide)
      ⟨by decide, by decide⟩
  exact absurd h20 (by decide)

end SysProg.Threads
