import Mathlib.Data.Nat.Fib.Basic
import SysProg.Threads.Lines
import SysProg.Threads.Solo

/-!
# SysProg.Threads.Fibonacci

What `fibonacci` prints, in any run with any other threads.

* `fibWord k`: the `k`-th Fibonacci number in an `int`.
* `FibAt`: the thread by itself after `k` iterations, kept by each further one.
* `fibonacci_works_iff`: the thread prints the first `arg` numbers and leaves, unless `arg` is 0. The
  loop compares `i` with `arg` at the end of an iteration, and the first one has `i = 1`.
-/

namespace SysProg.Threads

def fibWord (k : Nat) : CInt := BitVec.ofNat 32 (Nat.fib k)

def fibLine (id : CInt) (j : Nat) : Text := printed id (fibWord (j + 1))

/-- In every run with the thread in it, it prints the first `arg` numbers and leaves. -/
def FibonacciWorks (th : Thread) : Prop :=
  ∀ (bound : Nat) (ths : List Thread) (heap : Ptr → Tcb) (tr : List (World × WorldEvent)) (w : World),
    Creatable bound ths → th ∈ ths → Run (World.step bound) (World.start bound heap ths) tr w →
    ∃ n, Prints th (fibLine th.id) th.arg.toNat w n

section

variable {th : Thread} {t : Vars} {k : Nat}

theorem fibWord_add (k : Nat) : fibWord k + fibWord (k + 1) = fibWord (k + 2) := by
  rw [fibWord, fibWord, fibWord, Nat.fib_add_two, BitVec.ofNat_add]

/-- `x` and `y` after `k` iterations. -/
def FibVars (k : Nat) (t : Vars) : Prop := 2 ≤ k → t.x = fibWord (k - 1) ∧ t.y = fibWord k

theorem fibonacciBody_frame (t : Vars) (fifo : List Item) :
    (fibonacciBody t fifo).vars.id = t.id ∧ (fibonacciBody t fifo).vars.arg = t.arg ∧
      (fibonacciBody t fifo).vars.i = t.i := by
  unfold fibonacciBody
  split
  · exact ⟨rfl, rfl, rfl⟩
  · exact ⟨rfl, rfl, rfl⟩

theorem fibonacciBody_vars (fifo : List Item) (hk : k + 1 < 2 ^ 31)
    (hi : t.i = BitVec.ofNat 32 (k + 1)) (hv : FibVars k t) :
    (fibonacciBody t fifo).vars.y = fibWord (k + 1) ∧ FibVars (k + 1) (fibonacciBody t fifo).vars := by
  have hint : t.i.toInt = (k + 1 : Nat) := by
    rw [hi, BitVec.toInt_eq_toNat_cond]
    simp only [BitVec.toNat_ofNat]
    split <;> omega
  by_cases h2 : k ≤ 1
  · have hle : t.i.toInt ≤ 2 := by omega
    have hx : (fibonacciBody t fifo).vars.x = 1 := by simp [fibonacciBody, hle]
    have hy : (fibonacciBody t fifo).vars.y = 1 := by simp [fibonacciBody, hle]
    rcases Nat.le_one_iff_eq_zero_or_eq_one.1 h2 with rfl | rfl
    · exact ⟨hy, fun h => by omega⟩
    · exact ⟨hy, fun _ => ⟨hx, hy⟩⟩
  · have hgt : ¬ t.i.toInt ≤ 2 := by omega
    obtain ⟨hx0, hy0⟩ := hv (by omega)
    obtain ⟨j, rfl⟩ : ∃ j, k = j + 1 := ⟨k - 1, by omega⟩
    have hx : (fibonacciBody t fifo).vars.x = fibWord (j + 1) := by simp [fibonacciBody, hgt, hy0]
    have hy : (fibonacciBody t fifo).vars.y = fibWord (j + 1 + 1) := by
      rw [← fibWord_add j]
      simp [fibonacciBody, hgt, hx0, hy0]
    exact ⟨hy, fun _ => ⟨hx, hy⟩⟩

theorem fibonacciBody_line (t : Vars) (fifo : List Item) :
    (fibonacciBody t fifo).line = some (printed t.id (fibonacciBody t fifo).vars.y) := by
  unfold fibonacciBody
  split <;> rfl

theorem fibonacciBody_exit (t : Vars) (fifo : List Item) :
    (fibonacciBody t fifo).stop = if t.i = t.arg then .exit else .yield .fibonacciYield := by
  unfold fibonacciBody
  split <;> rfl

/-! ## The thread by itself -/

/-- The thread has done `k` iterations. -/
structure FibAt (th : Thread) (k : Nat) (l : Local) : Prop
    extends Loops .fibonacciStart .fibonacciYield (fibLine th.id) th.arg.toNat k l where
  id : l.vars.id = th.id
  arg : l.vars.arg = th.arg
  i : k ≠ 0 → l.vars.i = BitVec.ofNat 32 k
  vars : FibVars k l.vars

theorem fibAt_start (hf : th.func = .fibonacci) (h0 : th.arg.toNat ≠ 0) (items : List Item) :
    FibAt th 0 (Local.start th items) := by
  have hstart : th.func.start = .fibonacciStart := by rw [hf]; rfl
  exact ⟨loops_start hstart h0 items, rfl, rfl, fun h => absurd rfl h, fun h => by omega⟩

/-- The next iteration. -/
structure FibNext (th : Thread) (k : Nat) (seg : Segment) : Prop
    extends Iteration .fibonacciYield (fibLine th.id) th.arg.toNat k seg where
  id : seg.vars.id = th.id
  arg : seg.vars.arg = th.arg
  i : seg.vars.i = BitVec.ofNat 32 (k + 1)
  vars : FibVars (k + 1) seg.vars

theorem FibAt.body {l : Local} (h : FibAt th k l) (ha : th.arg.toNat < 2 ^ 31)
    (hk : k < th.arg.toNat) (ht : t = { l.vars with i := BitVec.ofNat 32 (k + 1) })
    (fifo : List Item) : FibNext th k (fibonacciBody t fifo) := by
  obtain ⟨hid, harg, hi⟩ := fibonacciBody_frame t fifo
  obtain ⟨hy, hv⟩ := fibonacciBody_vars (t := t) (k := k) fifo (by omega) (by rw [ht])
    (by rw [ht]; exact h.vars)
  have hiff : t.i = t.arg ↔ k + 1 = th.arg.toNat := by
    rw [ht, ← BitVec.toNat_inj]
    simp only [h.arg, BitVec.toNat_ofNat]
    omega
  refine ⟨⟨?_, ?_⟩, ?_, ?_, ?_, hv⟩
  · rw [fibonacciBody_line, hy, ht, ← h.id]
    rfl
  · rw [fibonacciBody_exit]
    simp only [hiff]
  · rw [hid, ht, ← h.id]
  · rw [harg, ht, ← h.arg]
  · rw [hi, ht]

theorem FibAt.run {l : Local} {c : Code} (h : FibAt th k l) (ha : th.arg.toNat < 2 ^ 31)
    (hc : l.code = some c) : FibNext th k (c.run l.vars l.items) := by
  obtain ⟨hk, ⟨rfl, rfl⟩ | ⟨h0, rfl⟩⟩ := h.more hc
  · exact h.body ha hk rfl l.items
  · refine h.body ha hk ?_ l.items
    rw [h.i h0, BitVec.ofNat_add]
    rfl

theorem FibAt.next {l l' : Local} (h : FibAt th k l) (ha : th.arg.toNat < 2 ^ 31)
    (hn : l.next = some l') : FibAt th (k + 1) l' := by
  obtain ⟨c, hc, -, -, rfl⟩ := Local.next_some hn
  have hseg := h.run ha hc
  exact ⟨h.toLoops.next hc hseg.toIteration, hseg.id, hseg.arg, fun _ => hseg.i, hseg.vars⟩

/-! ## Any run -/

theorem toNat_lt_of_nonneg {a : CInt} (h : 0 ≤ a.toInt) : a.toNat < 2 ^ 31 := by
  rw [BitVec.toInt_eq_toNat_cond] at h
  split at h
  · omega
  · have := a.isLt
    omega

theorem fibonacci_works (hf : th.func = .fibonacci) (h0 : 0 ≤ th.arg.toInt) (ha : th.arg ≠ 0) :
    FibonacciWorks th := by
  intro bound ths heap tr w h hth hr
  have hlt := toNat_lt_of_nonneg h0
  have hne : th.arg.toNat ≠ 0 := BitVec.toNat_ne_iff_ne.2 ha
  have hfalls : th.falls = false := by simp [Thread.falls, hf]
  obtain ⟨k, l, hl, hrun, hret⟩ := created_run h hr hth hfalls
  have hat : FibAt th k l := Local.iter_invariant (P := FibAt th)
    (fun k l l' hp hn => hp.next hlt hn) (fibAt_start hf hne _) hl.iter
  exact ⟨k, prints_of_loops hl hrun hret hne hat.toLoops fun c hc => (hat.run hlt hc).toIteration⟩

/-- The `do` loop prints before it looks at `arg`. -/
theorem fibonacci_prints (hf : th.func = .fibonacci) :
    ∃ l, Local.iter 1 (Local.start th []) = some l ∧ l.lines ≠ [] := by
  have hcode : (Local.start th []).code = some .fibonacciStart := by simp [Local.start, hf, Func.start]
  have hne : (Code.fibonacciStart.run (Local.start th []).vars []).stop ≠ .fell := by
    rw [Code.run, fibonacciBody_exit]
    split <;> simp
  have hnext := Local.next_eq hcode (by simp) hne
  refine ⟨_, hnext, ?_⟩
  rw [Local.after, Code.run, fibonacciBody_line]
  simp

/-- Of the threads that `init_threads` creates, those print what they should that have an argument
other than 0. -/
theorem fibonacci_works_iff {malloc : Func → Ptr} {i : Func → CInt} {buf : Func → Text}
    {fibArg colArg subArg : CInt} (hth : th ∈ initThreads malloc i buf fibArg colArg subArg)
    (hf : th.func = .fibonacci) : FibonacciWorks th ↔ th.arg ≠ 0 := by
  constructor
  · intro hw ha
    have hs : Startable 1 [th] := by
      refine ⟨by simp, by simp, by simp, fun th' hth' hc => ?_⟩
      rw [List.mem_singleton.1 hth', hf] at hc
      cases hc
    obtain ⟨l, hl, hne⟩ := fibonacci_prints hf
    obtain ⟨tr, w, hr, -, hlines⟩ := @solo_run 1 th (fun _ => th.setup) hs [] 1 l hl
    obtain ⟨n, hn⟩ := hw 1 [th] _ tr w (creatable_alone th) (by simp) hr
    have hle := hn.le
    rw [ha] at hle
    rw [hn.lines, Nat.le_zero.1 hle] at hlines
    exact hne hlines.symm
  · exact fibonacci_works hf (initThreads_arg hth)

end

theorem fibonacci_works_seven : FibonacciWorks ⟨0, .fibonacci, 0, 7, 0, []⟩ := by
  have hth : ⟨0, .fibonacci, 0, 7, 0, []⟩ ∈ created 7 3 (-1) := List.mem_cons_self
  exact (fibonacci_works_iff hth rfl).2 (by simp)

/-- With the argument 0 a line is printed. -/
theorem fibonacci_zero : ⟨0, .fibonacci, 0, 0, 0, []⟩ ∈ created 0 3 (-1) ∧
    ¬ FibonacciWorks ⟨0, .fibonacci, 0, 0, 0, []⟩ := by
  refine ⟨List.mem_cons_self, fun hw => ?_⟩
  have hc : Creatable THREAD_MAX (created 0 3 (-1)) :=
    initThreads_creatable _ _ place_injective (.inl (by simp))
  obtain ⟨n, hn⟩ := hw THREAD_MAX _ (fun _ => (created 0 3 (-1))[0].setup) _ _ hc List.mem_cons_self
    (.snoc (e := .run ⟨false, false⟩ fun _ => false) .nil rfl)
  have hlines := congrArg List.length hn.lines
  have hle := hn.le
  simp only [List.length_map, List.length_range] at hlines
  have hone : n = 1 := hlines.symm
  rw [hone] at hle
  exact absurd hle (by decide)

end SysProg.Threads
