import Mathlib.Logic.Function.Iterate
import SysProg.Threads.Lines

/-!
# SysProg.Threads.Collatz

How `collatz` leaves, and what it prints, in any run with any other threads.

* `hail`: one step of the trajectory, in the integers.
* `Ends a m`: the trajectory of `a` comes to 1 after `m` steps, and stays in the range of `int`.
* `collatz_works_iff`: the thread never falls off its function, and prints such a trajectory, unless
  it starts at 1: then the loop is not entered, and the only `thread_exit` is in the loop.
-/

namespace SysProg.Threads

def hail (n : Int) : Int := if n % 2 = 0 then n / 2 else 3 * n + 1

structure Ends (a : CInt) (m : Nat) : Prop where
  one : hail^[m] a.toInt = 1
  first : ∀ j < m, hail^[j] a.toInt ≠ 1
  inRange : ∀ j ≤ m, hail^[j] a.toInt < 2 ^ 31

def collatzLine (th : Thread) (j : Nat) : Text :=
  printed th.id (BitVec.ofInt 32 (hail^[j + 1] th.arg.toInt))

/-- In every run with the thread in it, it does not fall off its function, and if its trajectory ends,
it prints the trajectory and leaves. -/
def CollatzWorks (th : Thread) : Prop :=
  ∀ (bound : Nat) (ths : List Thread) (heap : Ptr → Tcb) (tr : List (World × WorldEvent)) (w : World),
    Creatable bound ths → th ∈ ths → Run (World.step bound) (World.start bound heap ths) tr w →
    (w.sched.mode = .running → w.sched.running = th.ptr → w.segment.stop ≠ .fell) ∧
    ∀ m, Ends th.arg m → ∃ n, Prints th (collatzLine th) m w n

section

variable {th : Thread} {t : Vars} {k m : Nat} {a v : CInt}

theorem hail_nonneg {n : Int} (h : 0 ≤ n) : 0 ≤ hail n := by
  unfold hail
  split <;> omega

theorem trajectory_nonneg {n : Int} (h : 0 ≤ n) : ∀ j, 0 ≤ hail^[j] n := by
  intro j
  induction j with
  | zero => exact h
  | succ j ih =>
    rw [Function.iterate_succ_apply']
    exact hail_nonneg ih

theorem ends_iff (h : Ends a m) (hk : k ≤ m) : hail^[k] a.toInt = 1 ↔ k = m := by
  constructor
  · intro h1
    by_contra hne
    exact h.first k (by omega) h1
  · rintro rfl
    exact h.one

theorem eq_one_iff : v = 1 ↔ v.toInt = 1 := by
  rw [← BitVec.toInt_inj]
  rfl

/-- In the range of `int`, the loop computes the trajectory. -/
theorem toInt_hail (h0 : 0 ≤ v.toInt) (h : hail v.toInt < 2 ^ 31) :
    (if v.srem 2 = 0 then v.sdiv 2 else v * 3 + 1).toInt = hail v.toInt := by
  have hlt : v.toInt < 2 ^ 31 := by
    have := CInt.toInt_bounds v
    omega
  have hrem : v.srem 2 = 0 ↔ v.toInt % 2 = 0 := by
    have h2 : (2 : CInt).toInt = 2 := rfl
    rw [← BitVec.toInt_inj, BitVec.toInt_srem, h2, Int.tmod_eq_emod_of_nonneg h0]
    rfl
  unfold hail at h ⊢
  by_cases he : v.toInt % 2 = 0
  · rw [if_pos (hrem.2 he), if_pos he]
    have h2 : (2 : CInt).toInt = 2 := rfl
    rw [BitVec.toInt_sdiv_of_ne_or_ne _ _ (.inr (by decide)), h2, Int.tdiv_eq_ediv_of_nonneg h0]
  · rw [if_neg he] at h
    rw [if_neg (mt hrem.1 he), if_neg he]
    have h3 : (3 : CInt).toInt = 3 := rfl
    have h1 : (1 : CInt).toInt = 1 := rfl
    have hmul : (v * 3).toInt = v.toInt * 3 := by
      rw [BitVec.toInt_mul, h3, Int.bmod_eq_of_le]
      · omega
      · omega
    rw [BitVec.toInt_add, hmul, h1, Int.bmod_eq_of_le]
    · omega
    · omega
    · omega

/-! ## The thread by itself -/

/-- The thread has done `k` iterations. -/
structure CollatzAt (th : Thread) (m k : Nat) (l : Local) : Prop
    extends Loops .collatzStart .collatzYield (collatzLine th) m k l where
  id : l.vars.id = th.id
  arg : l.vars.arg.toInt = hail^[k] th.arg.toInt

/-- The next iteration. -/
structure CollatzNext (th : Thread) (m k : Nat) (seg : Segment) : Prop
    extends Iteration .collatzYield (collatzLine th) m k seg where
  id : seg.vars.id = th.id
  arg : seg.vars.arg.toInt = hail^[k + 1] th.arg.toInt

theorem CollatzAt.loop {l : Local} (h : CollatzAt th m k l) (h0 : 0 ≤ th.arg.toInt)
    (he : Ends th.arg m) (hk : k < m) (fifo : List Item) :
    CollatzNext th m k (collatzLoop l.vars fifo) := by
  have hne : l.vars.arg ≠ 1 := by
    rw [ne_eq, eq_one_iff, h.arg]
    exact he.first k hk
  have hnext := Function.iterate_succ_apply' hail k th.arg.toInt
  have hv : (if l.vars.arg.srem 2 = 0 then l.vars.arg.sdiv 2 else l.vars.arg * 3 + 1).toInt =
      hail^[k + 1] th.arg.toInt := by
    rw [hnext, ← h.arg]
    refine toInt_hail ?_ ?_
    · rw [h.arg]
      exact trajectory_nonneg h0 k
    · rw [h.arg, ← hnext]
      exact he.inRange (k + 1) hk
  simp only [collatzLoop, if_pos hne]
  generalize (if l.vars.arg.srem 2 = 0 then l.vars.arg.sdiv 2 else l.vars.arg * 3 + 1) = v at hv
  have hone : v = 1 ↔ k + 1 = m := by
    rw [eq_one_iff, hv]
    exact ends_iff he hk
  refine ⟨⟨?_, ?_⟩, h.id, hv⟩
  · simp only [collatzLine, ← hv, BitVec.ofInt_toInt, h.id]
  · simp only [hone]

theorem CollatzAt.run {l : Local} {c : Code} (h : CollatzAt th m k l) (h0 : 0 ≤ th.arg.toInt)
    (he : Ends th.arg m) (hc : l.code = some c) : CollatzNext th m k (c.run l.vars l.items) := by
  obtain ⟨hk, ⟨-, rfl⟩ | ⟨-, rfl⟩⟩ := h.more hc
  · exact h.loop h0 he hk l.items
  · exact h.loop h0 he hk l.items

theorem CollatzAt.next {l l' : Local} (h : CollatzAt th m k l) (h0 : 0 ≤ th.arg.toInt)
    (he : Ends th.arg m) (hn : l.next = some l') : CollatzAt th m (k + 1) l' := by
  obtain ⟨c, hc, -, -, rfl⟩ := Local.next_some hn
  have hseg := h.run h0 he hc
  exact ⟨h.toLoops.next hc hseg.toIteration, hseg.id, hseg.arg⟩

/-! ## Any run -/

theorem GoesOn.stop_ne_fell {l : Local} {w : World} {c : Code} (h : GoesOn l w c) :
    w.segment.stop ≠ .fell := by
  rw [h.segment]
  intro hs
  rcases run_stop l.items h.arg with he | ⟨c', hy, -, -⟩ | hr
  · rw [hs] at he
    cases he
  · rw [hs] at hy
    cases hy
  · rw [hs] at hr
    cases hr

theorem collatz_works (hf : th.func = .collatz) (h0 : 0 ≤ th.arg.toInt) (ha : th.arg ≠ 1) :
    CollatzWorks th := by
  intro bound ths heap tr w h hth hr
  have hfalls : th.falls = false := decide_eq_false fun he => ha he.2
  obtain ⟨k, l, hl, hrun, hret⟩ := created_run h hr hth hfalls
  constructor
  · intro hm hp
    obtain ⟨c, hc⟩ := hrun hm hp
    exact hc.stop_ne_fell
  · intro m he
    have hm : m ≠ 0 := by
      rintro rfl
      exact ha (eq_one_iff.2 he.one)
    have hstart : CollatzAt th m 0 (Local.start th (arrivals th.ptr tr)) :=
      ⟨loops_start (by rw [hf]; rfl) hm _, rfl, rfl⟩
    have hat : CollatzAt th m k l := Local.iter_invariant (P := CollatzAt th m)
      (fun k l l' hp hn => hp.next h0 he hn) hstart hl.iter
    exact ⟨k, prints_of_loops hl hrun hret hm hat.toLoops fun c hc =>
      (hat.run h0 he hc).toIteration⟩

/-- Of the threads that `init_threads` creates, those work that do not start at 1. -/
theorem collatz_works_iff {malloc : Func → Ptr} {i : Func → CInt} {buf : Func → Text}
    {fibArg colArg subArg : CInt} (hth : th ∈ initThreads malloc i buf fibArg colArg subArg)
    (hf : th.func = .collatz) : CollatzWorks th ↔ th.arg ≠ 1 := by
  constructor
  · intro hw ha
    have hal := start_alone (fun _ => th.setup) th
    have hns := (hw 1 [th] (fun _ => th.setup) [] _ (creatable_alone th) (by simp) .nil).1
    refine hns hal.mode hal.running ?_
    have hset : th.setup.arg = 1 := ha
    rw [hal.segment, hf, Func.start, Code.run, collatzLoop, if_neg (not_not.2 hset)]
  · exact collatz_works hf (initThreads_arg hth)

end

theorem collatz_works_six : CollatzWorks ⟨1, .collatz, 1, 6, 0, []⟩ := by
  have hth : ⟨1, .collatz, 1, 6, 0, []⟩ ∈ created (-1) 6 2 := List.mem_cons_self
  exact (collatz_works_iff hth rfl).2 (by simp)

/-- A thread that starts at 1 falls off its function. -/
theorem collatz_one : ⟨1, .collatz, 1, 1, 0, []⟩ ∈ created (-1) 1 2 ∧
    ¬ CollatzWorks ⟨1, .collatz, 1, 1, 0, []⟩ := by
  refine ⟨List.mem_cons_self, fun hw => ?_⟩
  have hc : Creatable THREAD_MAX (created (-1) 1 2) :=
    initThreads_creatable _ _ place_injective (.inr (.inl (by simp)))
  have hns := (hw THREAD_MAX _ (fun _ => (created (-1) 1 2)[0].setup) [] _ hc
    List.mem_cons_self .nil).1
  exact hns rfl rfl rfl

end SysProg.Threads
