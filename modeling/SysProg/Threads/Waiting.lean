import SysProg.Threads.Overtaking
import SysProg.Threads.Solo

/-!
# SysProg.Threads.Waiting

How long a thread that is ready waits for its turn.

* `Queues.credit`: how many more entries the scheduler can take without coming to slot `j`, if nobody
  but `r` reads. A yield brings `rq_current` nearer, an exit takes a thread away, and between two
  reads there is one of these.
* `waits_at_most`: with one reader, at most four entries for each live thread.
* `ready_waits`: the threads of `HW3/threads.c` when at most one of them is a `max_subarray`, as in
  `init_threads`.
* `two_readers_starve`: two readers can keep a third thread waiting for ever.
-/

namespace SysProg.Threads

open Sched

namespace Queues

variable {q : Queues} {type : Entry} {polls : Nat → Bool} {a r : Ptr} {j : Nat}

/-- How far `rq_current` is from slot `j`, if no thread leaves. -/
def toCome (j : Nat) (q : Queues) : Nat :=
  if q.current ≤ j then j - q.current else q.all.length - q.current + j

def credit (r : Ptr) (j : Nat) (q : Queues) : Nat :=
  2 * (q.toCome j + q.all.length) + if r ∈ q.waiting then 0 else 1

theorem current_lt_all (h : q.current < q.ready.length) : q.current < q.all.length := by
  rw [all, List.length_append]
  omega

theorem enter_length (h : q.current < q.ready.length) :
    (q.enter type polls).all.length + (if type = .exit then 1 else 0) = q.all.length := by
  have hlen := (@enter_all q type polls h).length_eq
  rw [List.length_append, gone, List.getElem?_eq_getElem h] at hlen
  cases type with
  | yield => simpa using hlen.symm
  | read => simpa using hlen.symm
  | exit =>
    simp only [if_true, Option.toList_some, List.length_singleton] at hlen ⊢
    omega

/-- `rq_current` comes nearer to a slot it does not come to. -/
theorem enter_toCome (hq : q.Ok) (hm : q.mode = .running) (ha : q.ready[j]? = some a)
    (hj : j ≠ q.current)
    (hnot : (q.enter type polls).ready[(q.enter type polls).current]? ≠ some a) :
    (q.enter type polls).ready[j]? = some a ∧
      (q.enter type polls).toCome j + (if type = .yield then 1 else 0) ≤ q.toCome j := by
  have hlt := hq.running hm
  have hall := current_lt_all hlt
  have hlen := @enter_length q type polls hlt
  have hhere : Passing q.current j 0 q.current := .inl ⟨rfl, Nat.le_refl _, by omega⟩
  by_cases hend : (q.entered type polls).AtEnd
  · obtain ⟨hs, hpass⟩ := enter_passing (m := 1) hq hm ha hj hnot (fun _ => rfl)
      (fun h => absurd hend h) hhere
    refine ⟨hs, ?_⟩
    have hc : (q.enter type polls).current = 0 := settle_atEnd hend
    have hpassed : ¬ q.current ≤ j := Nat.not_le.2 (entered_passed hlt hend ha hj)
    rw [toCome, toCome, hc, if_pos (Nat.zero_le j), if_neg hpassed]
    split <;> omega
  · obtain ⟨hs, hpass⟩ := enter_passing (m := 0) hq hm ha hj hnot (fun h => absurd h hend)
      (fun _ => rfl) hhere
    refine ⟨hs, ?_⟩
    have hc := enter_current hend
    have hside : j < q.current ∨ (q.enter type polls).current < j := by
      rcases hpass with ⟨-, -, h⟩ | ⟨h, -⟩
      · exact h
      · cases h
    cases type with
    | yield =>
      simp only [if_true, reduceCtorEq, if_false] at hc hlen ⊢
      rw [toCome, toCome, hc]
      split <;> split <;> omega
    | read =>
      simp only [reduceCtorEq, if_false] at hc hlen ⊢
      rw [toCome, toCome, hc]
      split <;> omega
    | exit =>
      simp only [reduceCtorEq, if_false, if_true] at hc hlen ⊢
      rw [toCome, toCome, hc]
      split <;> omega

/-- Who reads waits afterwards. -/
theorem read_waiting (h : q.current < q.ready.length) (hr : q.ready[q.current]? = some r) :
    r ∈ (q.enter .read polls).waiting := by
  have hrun : (q.sweep polls).ready[(q.sweep polls).current]? = some r := (getElem?_sweep h).trans hr
  rw [enter, settle_waiting]
  show r ∈ (q.sweep polls).waiting ++ _
  rw [hrun]
  exact List.mem_append_right _ (List.mem_singleton_self r)

theorem running_notMem_waiting (hq : q.Ok) (hr : q.ready[q.current]? = some r) : r ∉ q.waiting :=
  fun hw => (List.nodup_append.1 hq.nodup).2.2 r (List.mem_of_getElem? hr) r hw rfl

/-- Every entry costs something. -/
theorem enter_credit (hq : q.Ok) (hm : q.mode = .running) (ha : q.ready[j]? = some a)
    (hj : j ≠ q.current)
    (hnot : (q.enter type polls).ready[(q.enter type polls).current]? ≠ some a)
    (hread : type = .read → q.ready[q.current]? = some r) :
    (q.enter type polls).ready[j]? = some a ∧
      (q.enter type polls).credit r j + 1 ≤ q.credit r j := by
  obtain ⟨hs, hcome⟩ := @enter_toCome q type polls a j hq hm ha hj hnot
  have hlt := hq.running hm
  have hlen := @enter_length q type polls hlt
  refine ⟨hs, ?_⟩
  rw [credit, credit]
  cases type with
  | yield =>
    simp only [if_true, reduceCtorEq, if_false] at hcome hlen
    split <;> split <;> omega
  | read =>
    simp only [reduceCtorEq, if_false] at hcome hlen
    rw [if_pos (read_waiting hlt (hread rfl)), if_neg (running_notMem_waiting hq (hread rfl))]
    omega
  | exit =>
    simp only [reduceCtorEq, if_false, if_true] at hcome hlen
    split <;> split <;> omega

theorem credit_lt (hq : q.Ok) (hm : q.mode = .running) (ha : q.ready[j]? = some a) :
    q.credit r j < 4 * q.all.length := by
  have hlt := hq.running hm
  have hall := current_lt_all hlt
  have hj := (List.getElem?_eq_some_iff.1 ha).1
  have hlen : q.ready.length ≤ q.all.length := by
    rw [all, List.length_append]
    omega
  rw [credit, toCome]
  split <;> split <;> omega

/-- A thread that does not run stays ready. -/
theorem enter_ready_mem (h : q.current < q.ready.length) (ha : q.ready[j]? = some a)
    (hj : j ≠ q.current) : a ∈ (q.enter type polls).ready := by
  rw [enter_ready]
  rcases entered_slot type polls h ha hj with hs | ⟨-, -, hs⟩
  · exact List.mem_of_getElem? hs
  · exact List.mem_of_getElem? hs

end Queues

/-! ## Runs of the scheduler -/

section

variable {bound j : Nat} {s s' : Sched} {tr : List (Sched × SchedEvent)} {a r : Ptr}

/-- A thread that is not resumed stays ready, and each step is paid for. -/
theorem waits_run (hi : s.Inv bound) (hs : s.ready[j]? = some a) (h : Run (Sched.step bound) s tr s')
    (hread : ∀ p ∈ readers tr, p = r) (hnot : a ∉ resumed tr) :
    s'.Inv bound ∧ a ∈ s'.ready ∧ (s'.running ≠ a →
      s'.ready[j]? = some a ∧ tr.length + s'.queues.credit r j ≤ s.queues.credit r j) := by
  induction h with
  | nil => exact ⟨hi, List.mem_of_getElem? hs, fun _ => ⟨hs, by simp⟩⟩
  | @snoc t s' tr e hr hstep ih =>
    have hreads : ∀ p ∈ readers tr ++ readsAt t e, p = r := fun p hp => hread p (readers_snoc ▸ hp)
    rw [resumed_snoc, List.mem_append, not_or] at hnot
    obtain ⟨hit, hready, hpaid⟩ := ih (fun p hp => hreads p (List.mem_append_left _ hp)) hnot.1
    obtain ⟨hm, type, polls, rfl, hq⟩ := step_ready hit hready hstep
    have hne : t.running ≠ a := by
      intro he
      rw [resumedAt_running hm, he] at hnot
      exact hnot.2 (List.mem_singleton_self a)
    obtain ⟨hslot, hlen⟩ := hpaid hne
    have hrun := running_slot hit hm
    have hj : j ≠ t.queues.current := by
      rintro rfl
      exact hne (Option.some.inj (hrun.symm.trans hslot))
    have hi' := hit.step hstep
    have hready' : a ∈ s'.queues.ready := by
      rw [hq]
      exact Queues.enter_ready_mem (hit.ok.running hm) hslot hj
    refine ⟨hi', hready', fun hlast => ?_⟩
    have hnext : (t.queues.enter type polls).ready[(t.queues.enter type polls).current]? ≠ some a := by
      rw [← hq, running_slot hi' (running_of_ready hi' hready')]
      exact fun he => hlast (Option.some.inj he)
    have hreader : type = .read → t.queues.ready[t.queues.current]? = some r := by
      rintro rfl
      rw [hrun, hreads t.running (List.mem_append_right _ (List.mem_singleton_self _))]
    obtain ⟨hs', hcredit⟩ := Queues.enter_credit hit.ok hm hslot hj hnext hreader
    rw [← hq] at hs' hcredit
    refine ⟨hs', ?_⟩
    rw [List.length_append, List.length_singleton]
    omega

/-- With one reader a thread that is ready waits for at most four entries for each thread. -/
theorem waits_at_most (hi : s.Inv bound) (ha : a ∈ s.ready) (h : Run (Sched.step bound) s tr s')
    (hread : ∀ p ∈ readers tr, p = r) (hnot : a ∉ resumed tr) :
    tr.length ≤ 4 * s.queues.all.length := by
  obtain ⟨j, hj⟩ := List.getElem?_of_mem ha
  rcases List.eq_nil_or_concat' tr with rfl | ⟨tr, ⟨t, e⟩, rfl⟩
  · simp
  · obtain ⟨hr, hstep⟩ := h.last
    rw [resumed_snoc, List.mem_append, not_or] at hnot
    have hreads : ∀ p ∈ readers tr ++ readsAt t e, p = r := fun p hp => hread p (readers_snoc ▸ hp)
    obtain ⟨hit, hready, hpaid⟩ := waits_run hi hj hr
      (fun p hp => hreads p (List.mem_append_left _ hp)) hnot.1
    have hne : t.running ≠ a := by
      intro he
      rw [resumedAt_running (running_of_ready hit hready), he] at hnot
      exact hnot.2 (List.mem_singleton_self a)
    obtain ⟨-, hlen⟩ := hpaid hne
    have hstart := @Queues.credit_lt s.queues a r j hi.ok (running_of_ready hi ha) hj
    rw [List.length_append, List.length_singleton]
    omega

end

/-! ## Runs of the threads -/

def Code.func : Code → Func
  | .fibonacciStart => .fibonacci
  | .fibonacciYield => .fibonacci
  | .collatzStart => .collatz
  | .collatzYield => .collatz
  | .subarrayStart => .maxSubarray
  | .subarrayRead => .maxSubarray
  | .subarrayYield => .maxSubarray

/-- A thread stays in its function, and only `max_subarray` reads. -/
theorem run_func (code : Code) (t : Vars) (fifo : List Item) :
    (∀ c, (code.run t fifo).stop.code = some c → c.func = code.func) ∧
      ∀ c, (code.run t fifo).stop = .read c → code.func = .maxSubarray := by
  have hexit : ∀ {stop : Stop}, stop = .exit ∨ stop = .fell →
      (∀ c, stop.code = some c → c.func = code.func) ∧ ∀ c, stop = .read c → code.func = .maxSubarray := by
    rintro stop (rfl | rfl)
    · exact ⟨nofun, nofun⟩
    · exact ⟨nofun, nofun⟩
  have hyield : ∀ {stop : Stop} {c' : Code}, stop = .yield c' → c'.func = code.func →
      (∀ c, stop.code = some c → c.func = code.func) ∧ ∀ c, stop = .read c → code.func = .maxSubarray := by
    rintro stop c' rfl hc
    exact ⟨fun c h => Option.some.inj h ▸ hc, nofun⟩
  have hcollatz : code.func = .collatz →
      (∀ c, (collatzLoop t fifo).stop.code = some c → c.func = code.func) ∧
        ∀ c, (collatzLoop t fifo).stop = .read c → code.func = .maxSubarray := by
    intro hf
    by_cases ha : t.arg = 1
    · exact hexit (.inr (by simp only [collatzLoop, ha, ne_eq, not_true, if_false]))
    · rcases collatzLoop_stop fifo ha with hs | ⟨hs, -⟩
      · exact hexit (.inl hs)
      · exact hyield hs hf.symm
  cases code with
  | fibonacciStart =>
    rcases fibonacciBody_stop { t with i := 1 } fifo with hs | hs
    · exact hexit (.inl hs)
    · exact hyield hs rfl
  | fibonacciYield =>
    rcases fibonacciBody_stop { t with i := t.i + 1 } fifo with hs | hs
    · exact hexit (.inl hs)
    · exact hyield hs rfl
  | collatzStart => exact hcollatz rfl
  | collatzYield => exact hcollatz rfl
  | subarrayStart => exact ⟨fun c h => Option.some.inj h ▸ rfl, fun _ _ => rfl⟩
  | subarrayYield => exact ⟨fun c h => Option.some.inj h ▸ rfl, fun _ _ => rfl⟩
  | subarrayRead =>
    rcases maxSubarrayBody_stop t fifo with hs | hs
    · exact hexit (.inl hs)
    · exact hyield hs rfl

/-- The step goes through the scheduler. -/
def World.entersAt (w : World) : WorldEvent → Bool
  | .run pending _ =>
    match w.segment.stop with
    | .yield _ => pending.caught.isSome
    | .read _ => true
    | .exit => true
    | .fell => false
  | .poll _ => true
  | .arrive _ _ => false

def entriesIn (tr : List (World × WorldEvent)) : Nat := tr.countP fun x => x.1.entersAt x.2

/-- The thread runs in one of the steps. -/
def RunsIn (a : Ptr) (tr : List (World × WorldEvent)) : Prop :=
  ∃ x ∈ tr, x.1.sched.mode = .running ∧ x.1.sched.running = a ∧ ∃ pending polls, x.2 = .run pending polls

section

variable {bound : Nat} {w w' : World} {ths : List Thread} {e : WorldEvent} {a : Ptr}

/-- Every live thread is in its own function. -/
def InFunc (ths : List Thread) (w : World) : Prop :=
  ∀ p ∈ w.sched.queues.all, ∃ th ∈ ths, th.ptr = p ∧ (w.tcb p).environment.code.func = th.func

theorem inFunc_start {heap : Ptr → Tcb} (h : Startable bound ths) :
    InFunc ths (World.start bound heap ths) := by
  intro p hp
  rw [start_queues heap h] at hp
  simp only [Queues.all, List.append_nil, List.mem_map] at hp
  obtain ⟨th, hth, rfl⟩ := hp
  refine ⟨th, hth, rfl, ?_⟩
  have htcb : (World.start bound heap ths).tcb th.ptr = th.setup := setupAll_of_mem h.nodup th hth
  rw [htcb]
  show th.func.start.func = th.func
  cases th.func <;> rfl

/-- What a step does to the scheduler. -/
theorem step_sched (hi : WorldInv bound w) (h : w.step bound e = some w') :
    (w.entersAt e = false ∧ w'.sched = w.sched) ∨
      (w.entersAt e = true ∧ ∃ se, w.sched.step bound se = some w'.sched ∧
        (∀ type polls, se = .enter type polls →
          ∃ pending, e = .run pending polls ∧ w.segment.stop.entry = some type)) := by
  cases e with
  | run pending polls =>
    have hm := (run_cases hi h).running
    simp only [World.step, if_pos hm] at h
    rcases hi.segment_stop hm with hs | ⟨c, hs, -⟩ | hs
    · simp only [hs] at h
      obtain ⟨-, s, hs', rfl⟩ := schedule_some h
      refine .inr ⟨by simp [World.entersAt, hs], _, hs', ?_⟩
      rintro type polls' ⟨⟩
      exact ⟨pending, rfl, by rw [hs]; rfl⟩
    · simp only [hs] at h
      cases hcaught : pending.caught with
      | none =>
        rw [hcaught] at h
        cases h
        exact .inl ⟨by simp [World.entersAt, hs, hcaught], rfl⟩
      | some text =>
        rw [hcaught] at h
        obtain ⟨-, s, hs', rfl⟩ := schedule_some h
        refine .inr ⟨by simp [World.entersAt, hs, hcaught], _, hs', ?_⟩
        rintro type polls' ⟨⟩
        exact ⟨pending, rfl, by rw [hs]; rfl⟩
    · simp only [hs] at h
      obtain ⟨-, s, hs', rfl⟩ := schedule_some h
      refine .inr ⟨by simp [World.entersAt, hs], _, hs', ?_⟩
      rintro type polls' ⟨⟩
      exact ⟨pending, rfl, by rw [hs]; rfl⟩
  | poll polls =>
    obtain ⟨-, s, hs', rfl⟩ := schedule_some h
    exact .inr ⟨rfl, _, hs', fun _ _ he => by cases he⟩
  | arrive d item =>
    cases h
    exact .inl ⟨rfl, rfl⟩

theorem InFunc.step (hi : WorldInv bound w) (hf : InFunc ths w) (h : w.step bound e = some w') :
    InFunc ths w' := by
  have hall : ∀ p ∈ w'.sched.queues.all, p ∈ w.sched.queues.all := by
    intro p hp
    rcases step_sched hi h with ⟨-, hs⟩ | ⟨-, se, hs, -⟩
    · rw [hs] at hp
      exact hp
    · exact ((sched_cases hi.sched hs).mem_all hi.sched hp).1
  intro p hp
  obtain ⟨th, hth, hptr, hfunc⟩ := hf p (hall p hp)
  refine ⟨th, hth, hptr, ?_⟩
  by_cases hrun : (∃ pending polls, e = .run pending polls) ∧ p = w.sched.running
  · obtain ⟨⟨pending, polls, rfl⟩, rfl⟩ := hrun
    have hc := run_cases hi h
    rw [hc.tcb, finish_tcb_self]
    show w.saved.code.func = th.func
    rw [← hfunc, World.saved]
    cases hcode : w.segment.stop.code with
    | none => rfl
    | some c =>
      have hcur : w.current.code = (w.tcb w.sched.running).environment.code :=
        congrArg Env.code (hi.current hc.running)
      show c.func = _
      rw [← hcur]
      exact (run_func w.current.code _ _).1 c hcode
  · rw [tcb_frame hi h fun he => fun hp' => hrun ⟨he, hp'⟩]
    exact hfunc

theorem entriesIn_snoc {tr : List (World × WorldEvent)} :
    entriesIn (tr ++ [(w, e)]) = entriesIn tr + if w.entersAt e = true then 1 else 0 := by
  simp [entriesIn, List.countP_append, List.countP_singleton]

theorem RunsIn.left {tr tr' : List (World × WorldEvent)} (h : RunsIn a tr) : RunsIn a (tr ++ tr') := by
  obtain ⟨x, hx, hrest⟩ := h
  exact ⟨x, List.mem_append_left _ hx, hrest⟩

/-- The scheduler in a run of the threads. -/
theorem sched_run {tr : List (World × WorldEvent)} (hi : WorldInv bound w) (hf : InFunc ths w)
    (hr : Run (World.step bound) w tr w') :
    WorldInv bound w' ∧ InFunc ths w' ∧ ∃ tr', Run (Sched.step bound) w.sched tr' w'.sched ∧
      tr'.length = entriesIn tr ∧
      (∀ p ∈ readers tr', ∃ th ∈ ths, th.ptr = p ∧ th.func = .maxSubarray) ∧
      ∀ p ∈ resumed tr', RunsIn p tr := by
  induction hr with
  | nil => exact ⟨hi, hf, [], .nil, rfl, nofun, nofun⟩
  | @snoc v w' tr e hr hstep ih =>
    obtain ⟨hiv, hfv, tr', hr', hlen, hread, hres⟩ := ih
    refine ⟨hiv.step hstep, hfv.step hiv hstep, ?_⟩
    rcases step_sched hiv hstep with ⟨hno, hs⟩ | ⟨hyes, se, hs, hse⟩
    · refine ⟨tr', hs ▸ hr', ?_, hread, fun p hp => (hres p hp).left⟩
      rw [entriesIn_snoc, hno]
      exact hlen
    · refine ⟨tr' ++ [(v.sched, se)], hr'.snoc hs, ?_, fun p hp => ?_, fun p hp => ?_⟩
      · rw [entriesIn_snoc, hyes, List.length_append, hlen]
        rfl
      · rw [readers_snoc, List.mem_append] at hp
        rcases hp with hp | hp
        · exact hread p hp
        · cases se with
          | poll polls => cases hp
          | enter type polls =>
            obtain ⟨pending, rfl, hentry⟩ := hse type polls rfl
            rw [readsAt_enter] at hp
            split at hp
            · rename_i htype
              subst htype
              obtain rfl := List.mem_singleton.1 hp
              have hm := (run_cases hiv hstep).running
              obtain ⟨th, hth, hptr, hfunc⟩ := hfv _ (hiv.running_all hm)
              refine ⟨th, hth, hptr, ?_⟩
              rw [← hfunc, ← congrArg Env.code (hiv.current hm)]
              cases hstop : v.segment.stop with
              | read c => exact (run_func v.current.code _ _).2 c hstop
              | yield c =>
                rw [hstop] at hentry
                cases hentry
              | exit =>
                rw [hstop] at hentry
                cases hentry
              | fell =>
                rw [hstop] at hentry
                cases hentry
            · cases hp
      · rw [resumed_snoc, List.mem_append] at hp
        rcases hp with hp | hp
        · exact (hres p hp).left
        · rw [resumedAt] at hp
          split at hp
          · rename_i hm
            obtain rfl := List.mem_singleton.1 hp
            cases se with
            | poll polls =>
              cases sched_cases hiv.sched hs with
              | poll hm' _ _ =>
                rw [hm'] at hm
                cases hm
            | enter type polls =>
              obtain ⟨pending, rfl, -⟩ := hse type polls rfl
              exact ⟨_, List.mem_append_right _ (List.mem_singleton_self _), hm, rfl, pending, polls, rfl⟩
          · cases hp

theorem all_length_le (hi : WorldInv bound w) (hf : InFunc ths w) :
    w.sched.queues.all.length ≤ ths.length := by
  have hsub : w.sched.queues.all ⊆ ths.map (·.ptr) := by
    intro p hp
    obtain ⟨th, hth, rfl, -⟩ := hf p hp
    exact List.mem_map_of_mem hth
  have hle := (hi.sched.ok.nodup.subperm hsub).length_le
  rw [List.length_map] at hle
  exact hle

end

/-- A thread that is ready gets its turn after at most four entries of the scheduler for each thread,
if at most one of the threads is a `max_subarray`. -/
theorem ready_waits {bound : Nat} {heap : Ptr → Tcb} {ths : List Thread} {w w' : World} {a : Ptr}
    {tr0 tr : List (World × WorldEvent)} (h : Startable bound ths)
    (hone : ∀ th ∈ ths, ∀ th' ∈ ths, th.func = .maxSubarray → th'.func = .maxSubarray → th = th')
    (h0 : Run (World.step bound) (World.start bound heap ths) tr0 w)
    (hr : Run (World.step bound) w tr w') (ha : a ∈ w.sched.ready) (hnot : ¬ RunsIn a tr) :
    entriesIn tr ≤ 4 * ths.length := by
  obtain ⟨hi, hf, -⟩ := sched_run (.start h) (inFunc_start h) h0
  obtain ⟨-, -, tr', hr', hlen, hread, hres⟩ := sched_run hi hf hr
  have hreader : ∃ r, ∀ p ∈ readers tr', p = r := by
    by_cases hex : ∃ th ∈ ths, th.func = .maxSubarray
    · obtain ⟨th, hth, hsub⟩ := hex
      refine ⟨th.ptr, fun p hp => ?_⟩
      obtain ⟨th', hth', rfl, hsub'⟩ := hread p hp
      rw [hone th hth th' hth' hsub hsub']
    · refine ⟨0, fun p hp => ?_⟩
      obtain ⟨th, hth, -, hsub⟩ := hread p hp
      exact absurd ⟨th, hth, hsub⟩ hex
  obtain ⟨r, hreader⟩ := hreader
  have hwait := waits_at_most hi.sched ha hr' hreader fun hp => hnot (hres a hp)
  have hall := all_length_le hi hf
  omega

/-- `collatz` is interrupted while the other thread is ready. -/
def firstTurn : List WorldEvent := [.run ⟨true, false⟩ fun _ => false]

theorem ready_waits_pair :
    entriesIn (traceOf (World.step 2) (World.start 2 (fun _ => pair[0].setup) pair) firstTurn) ≤
      4 * pair.length := by
  have hone : ∀ th ∈ pair, ∀ th' ∈ pair, th.func = .maxSubarray → th'.func = .maxSubarray → th = th' := by
    simp [pair]
  have hnot : ¬ RunsIn 1 (traceOf (World.step 2) (World.start 2 (fun _ => pair[0].setup) pair) firstTurn) := by
    rintro ⟨x, hx, -, hrun, -⟩
    rw [List.mem_singleton.1 hx] at hrun
    cases hrun
  have hready : 1 ∈ (World.start 2 (fun _ => pair[0].setup) pair).sched.ready := by decide
  have hr : Run (World.step 2) (World.start 2 (fun _ => pair[0].setup) pair)
      (traceOf (World.step 2) (World.start 2 (fun _ => pair[0].setup) pair) firstTurn)
      ((runEvents (World.step 2) (World.start 2 (fun _ => pair[0].setup) pair) firstTurn).getD
        (World.start 2 (fun _ => pair[0].setup) pair)) := run_getD rfl
  exact ready_waits pair_startable hone .nil hr hready hnot

/-! ## Two readers -/

section

variable {s s' : Sched} {tr : List (Sched × SchedEvent)}

/-- One of the readers runs, the other one waits, and 20 has the other slot. -/
def Starving (s : Sched) : Prop :=
  s.queues = ⟨[30, 20], 0, [10], .running⟩ ∨ s.queues = ⟨[10, 20], 0, [30], .running⟩

theorem starving_step (hi : s.Inv 3) (hs : Starving s) :
    ∃ s', s.step 3 (.enter .read fun _ => true) = some s' ∧ Starving s' := by
  have hm : s.mode = .running := by
    rcases hs with hq | hq
    · exact congrArg Queues.mode hq
    · exact congrArg Queues.mode hq
  obtain ⟨s', hs', hq', -⟩ := @enter_refines 3 (fun _ => true) .read s hi hm
  refine ⟨s', by rw [Sched.step, if_pos hm, hs']; rfl, ?_⟩
  rcases hs with hq | hq
  · rw [hq] at hq'
    exact .inr hq'
  · rw [hq] at hq'
    exact .inl hq'

theorem starving_run (n : Nat) (hi : s.Inv 3) (hs : Starving s) :
    ∃ tr s', Run (Sched.step 3) s tr s' ∧ tr.length = n ∧ Always (fun t => t.Inv 3 ∧ Starving t) tr s' := by
  induction n with
  | zero => exact ⟨[], s, .nil, rfl, nofun, hi, hs⟩
  | succ n ih =>
    obtain ⟨tr, t, hr, hlen, halways⟩ := ih
    obtain ⟨s', hstep, hs'⟩ := starving_step halways.2.1 halways.2.2
    refine ⟨_, s', hr.snoc hstep, by rw [List.length_append, hlen]; rfl, ?_⟩
    exact always_snoc.2 ⟨halways, halways.2.1.step hstep, hs'⟩

theorem Starving.ready (hs : Starving s) : 20 ∈ s.ready := by
  rcases hs with hq | hq
  · have hr : s.ready = [30, 20] := congrArg Queues.ready hq
    simp [hr]
  · have hr : s.ready = [10, 20] := congrArg Queues.ready hq
    simp [hr]

theorem Starving.running (hi : s.Inv 3) (hs : Starving s) : s.running ≠ 20 := by
  have hslot := fun hm => running_slot hi hm
  rcases hs with hq | hq
  · rw [hq] at hslot
    have hrun : 30 = s.running := Option.some.inj (hslot (congrArg Queues.mode hq))
    rw [← hrun]
    decide
  · rw [hq] at hslot
    have hrun : 10 = s.running := Option.some.inj (hslot (congrArg Queues.mode hq))
    rw [← hrun]
    decide

/-- With two readers there is no bound: 10 and 30 read in turn, each is ready again when the other
one reads, and 20 is never resumed. -/
theorem two_readers_starve (n : Nat) :
    ∃ tr s', Run (Sched.step 3) (start 3 [10, 20, 30]) tr s' ∧ tr.length = n + 1 ∧
      Always (fun t => 20 ∈ t.ready) tr s' ∧ 20 ∉ resumed tr := by
  have hi : (start 3 [10, 20, 30]).Inv 3 := start_inv (by decide) (by decide) (by decide)
  have hq : (start 3 [10, 20, 30]).queues = ⟨[10, 20, 30], 0, [], .running⟩ := rfl
  have hm : (start 3 [10, 20, 30]).mode = .running := rfl
  obtain ⟨s1, hs1, hq1, -⟩ := @enter_refines 3 (fun _ => true) .read _ hi hm
  have hstep : (start 3 [10, 20, 30]).step 3 (.enter .read fun _ => true) = some s1 := by
    rw [Sched.step, if_pos hm, hs1]
    rfl
  have hfirst : Starving s1 := .inl (by rw [hq1, hq]; rfl)
  obtain ⟨tr, s', hr, hlen, halways⟩ := starving_run n (hi.step hstep) hfirst
  have hall : ∀ t e, (t, e) ∈ tr → 20 ∈ t.ready ∧ t.running ≠ 20 := fun t e ht =>
    ⟨(halways.1 _ ht).2.ready, (halways.1 _ ht).2.running (halways.1 _ ht).1⟩
  refine ⟨_, s', (Run.nil.snoc hstep).trans hr, by simp [hlen], ⟨?_, halways.2.2.ready⟩, ?_⟩
  · rintro ⟨t, e⟩ ht
    rcases List.mem_cons.1 ht with ht | ht
    · cases ht
      decide
    · exact (hall t e ht).1
  · intro hres
    obtain ⟨⟨t, e⟩, ht, hrun⟩ := List.mem_flatMap.1 hres
    rw [resumedAt] at hrun
    split at hrun
    · rcases List.mem_cons.1 ht with ht | ht
      · cases ht
        exact absurd hrun (by decide)
      · exact (hall t e ht).2 (List.mem_singleton.1 hrun).symm
    · cases hrun

end

end SysProg.Threads
