import Mathlib.Algebra.Order.Group.Int
import SysProg.Kadane
import SysProg.Threads.Created

/-!
# SysProg.Threads.Subarray

What `max_subarray` prints, in any run with any other threads.

* `subVars vs`: `x` and `y` after the numbers `vs`, with wrap-around. If the sums of all blocks fit in
  an `int`, these are the values of `kadane` (`toInt_subVars`).
* `SubAt`: the thread by itself after `n` numbers.
* `max_subarray_correct`: each line is the greatest of 0 and the sums of the blocks read so far.
-/

namespace SysProg.Threads

/-- The number that an item holds. -/
def itemVal (item : Item) : CInt := atoi (cstr (item.val.set 4 '\x00'))

def subStep (s : CInt × CInt) (v : CInt) : CInt × CInt :=
  (cmax v (s.1 + v), cmax s.2 (cmax v (s.1 + v)))

def subVars (vs : List CInt) : CInt × CInt := vs.foldl subStep (0, 0)

def toInts (vs : List CInt) : List Int := vs.map BitVec.toInt

/-- The sums of all blocks fit in an `int`. -/
def Fits (vs : List CInt) : Prop := ∀ s ∈ blockSums (toInts vs), -2 ^ 31 ≤ s ∧ s < 2 ^ 31

/-- The values of `x` and `y` after the numbers `vs`. -/
structure Greatest (vs : List CInt) (x y : CInt) : Prop where
  x : vs ≠ [] → IsGreatest (endSums (toInts vs)) x.toInt
  y : IsGreatest (insert 0 (blockSums (toInts vs))) y.toInt

section

variable {th : Thread} {t : Vars} {vs : List CInt} {v : CInt} {items : List Item} {n : Nat}

theorem toInt_cmax (a b : CInt) : (cmax a b).toInt = max a.toInt b.toInt := by
  unfold cmax
  split
  · exact (max_eq_left (by omega)).symm
  · exact (max_eq_right (by omega)).symm

theorem subVars_snoc (vs : List CInt) (v : CInt) : subVars (vs ++ [v]) = subStep (subVars vs) v := by
  simp [subVars]

theorem toInts_snoc (vs : List CInt) (v : CInt) : toInts (vs ++ [v]) = toInts vs ++ [v.toInt] := by
  simp [toInts]

theorem Fits.init (h : Fits (vs ++ [v])) : Fits vs := by
  intro s hs
  refine h s (blockSums_mono ?_ hs)
  rw [toInts_snoc]
  exact (List.prefix_append _ _).isInfix

/-- The greatest sum of a block at the end does not overflow when it is extended. -/
theorem toInt_extend (h : Fits (vs ++ [v])) {x : CInt} (hx : x.toInt = (kadane (toInts vs)).1) :
    (x + v).toInt = x.toInt + v.toInt := by
  have hv := CInt.toInt_bounds v
  have hb : -2 ^ 31 ≤ x.toInt + v.toInt ∧ x.toInt + v.toInt < 2 ^ 31 := by
    by_cases h0 : vs = []
    · subst h0
      have h0 : (kadane (toInts [])).1 = 0 := rfl
      omega
    · have hne : toInts vs ≠ [] := by simpa [toInts] using h0
      have hend : x.toInt ∈ endSums (toInts vs) := by
        rw [hx]
        exact (kadane_end hne).1
      refine h _ (endSums_subset ?_)
      rw [toInts_snoc, endSums_snoc]
      exact .inr ⟨x.toInt, hend, rfl⟩
  rcases CInt.toInt_add_cases x v with ⟨-, -, he⟩ | ⟨hge, -⟩ | ⟨hlt, -⟩
  · exact he
  · omega
  · omega

theorem toInt_subVars (h : Fits vs) : (subVars vs).1.toInt = (kadane (toInts vs)).1 ∧
    (subVars vs).2.toInt = (kadane (toInts vs)).2 := by
  induction vs using List.reverseRecOn with
  | nil => exact ⟨rfl, rfl⟩
  | append_singleton vs v ih =>
    obtain ⟨hx, hy⟩ := ih h.init
    have hadd := toInt_extend h hx
    simp only [subVars_snoc, toInts_snoc, kadane_snoc, subStep, kadaneStep, toInt_cmax]
    rw [hadd, hx, hy]
    exact ⟨rfl, rfl⟩

theorem greatest_subVars (h : Fits vs) : Greatest vs (subVars vs).1 (subVars vs).2 := by
  obtain ⟨hx, hy⟩ := toInt_subVars h
  constructor
  · intro h0
    have hne : toInts vs ≠ [] := by simpa [toInts] using h0
    rw [hx]
    exact kadane_end hne
  · rw [hy]
    exact kadane_block _

/-! ## The thread by itself -/

/-- The numbers that the thread has read when it has read `n`. -/
def firstVals (items : List Item) (n : Nat) : List CInt := (items.take n).map itemVal

def subLine (id : CInt) (items : List Item) (j : Nat) : Text :=
  printed id (subVars (firstVals items (j + 1))).2

/-- The iteration that ends with `thread_exit`. If `arg` is 0, `i` wraps around before. -/
def subCount (arg : CInt) : Nat := if arg = 0 then 2 ^ 32 else arg.toNat

theorem subCount_iff {arg : CInt} (h : n < subCount arg) :
    BitVec.ofNat 32 (n + 1) = arg ↔ n + 1 = subCount arg := by
  have hlt := arg.isLt
  rw [← BitVec.toNat_inj, BitVec.toNat_ofNat]
  unfold subCount at h ⊢
  split
  · rename_i h0
    rw [if_pos h0] at h
    have hz : arg.toNat = 0 := by rw [h0]; rfl
    omega
  · rename_i h0
    rw [if_neg h0] at h
    omega

theorem subCount_pos (arg : CInt) : 0 < subCount arg := by
  unfold subCount
  split
  · omega
  · rename_i h
    by_contra h0
    exact h (BitVec.eq_of_toNat_eq (by simp; omega))

/-- Where the thread is after `n` numbers. -/
inductive SubPlace (count n : Nat) (i : CInt) : Option Code → Prop where
  | start (h0 : n = 0) (hn : n < count) : SubPlace count n i (some .subarrayStart)
  | read (hi : i = BitVec.ofNat 32 (n + 1)) (hn : n < count) : SubPlace count n i (some .subarrayRead)
  | yield (hi : i = BitVec.ofNat 32 n) (hn : n < count) : SubPlace count n i (some .subarrayYield)
  | exit (hn : n = count) : SubPlace count n i none

structure SubAt (th : Thread) (items : List Item) (n : Nat) (l : Local) : Prop where
  le : n ≤ items.length
  fifo : l.items = items.drop n
  lines : l.lines = (List.range n).map (subLine th.id items)
  id : l.vars.id = th.id
  arg : l.vars.arg = th.arg
  x : l.vars.x = (subVars (firstVals items n)).1
  y : l.vars.y = (subVars (firstVals items n)).2
  place : SubPlace (subCount th.arg) n l.vars.i l.code

/-- The segment that reads a number after `n` others. -/
structure SubNext (th : Thread) (items : List Item) (n : Nat) (seg : Segment) : Prop where
  lt : n < items.length
  fifo : seg.fifo = items.drop (n + 1)
  line : seg.line = some (subLine th.id items n)
  id : seg.vars.id = th.id
  arg : seg.vars.arg = th.arg
  i : seg.vars.i = BitVec.ofNat 32 (n + 1)
  x : seg.vars.x = (subVars (firstVals items (n + 1))).1
  y : seg.vars.y = (subVars (firstVals items (n + 1))).2
  stop : seg.stop = if n + 1 = subCount th.arg then .exit else .yield .subarrayYield

theorem firstVals_succ (h : n < items.length) :
    firstVals items (n + 1) = firstVals items n ++ [itemVal items[n]] := by
  rw [firstVals, firstVals, List.take_add_one, List.getElem?_eq_getElem h, List.map_append]
  rfl

theorem maxSubarrayBody_vars (t : Vars) (item : Item) (rest : List Item) :
    ((maxSubarrayBody t (item :: rest)).vars.x, (maxSubarrayBody t (item :: rest)).vars.y) =
      subStep (t.x, t.y) (itemVal item) := by
  have hval : atoi (cstr ((readItem t (item :: rest)).1.buf.set 4 '\x00')) = itemVal item := by
    rw [Local.readItem_buf]
    rfl
  simp only [maxSubarrayBody, hval]
  rfl

theorem SubAt.read {l : Local} (h : SubAt th items n l) (hc : l.code = some .subarrayRead)
    (hi : l.items ≠ []) : SubNext th items n (maxSubarrayBody l.vars l.items) := by
  have hplace := h.place
  rw [hc] at hplace
  cases hplace with
  | read hvi hn =>
    have hlt : n < items.length := by
      by_contra hge
      exact hi (by rw [h.fifo, List.drop_eq_nil_of_le (by omega)])
    rw [h.fifo, List.drop_eq_getElem_cons hlt]
    have hxy := maxSubarrayBody_vars l.vars items[n] (items.drop (n + 1))
    rw [h.x, h.y, ← subVars_snoc, ← firstVals_succ hlt] at hxy
    obtain ⟨hx, hy⟩ := Prod.ext_iff.1 hxy
    refine ⟨hlt, rfl, ?_, h.id, h.arg, hvi, hx, hy, ?_⟩
    · rw [subLine, ← hy, ← h.id]
      rfl
    · change (if l.vars.i = l.vars.arg then Stop.exit else .yield .subarrayYield) = _
      rw [hvi, h.arg]
      simp only [subCount_iff hn]

theorem SubAt.next {l l' : Local} (h : SubAt th items n l) (hn : l.next = some l') :
    ∃ n', SubAt th items n' l' := by
  obtain ⟨c, hc, hr, -, rfl⟩ := Local.next_some hn
  have hplace := h.place
  rw [hc] at hplace
  cases hplace with
  | start h0 hlt =>
    refine ⟨n, h.le, h.fifo, ?_, h.id, h.arg, h.x, h.y, ?_⟩
    · simpa [Local.after, Code.run] using h.lines
    · rw [h0] at hlt ⊢
      exact .read rfl hlt
  | yield hi hlt =>
    refine ⟨n, h.le, h.fifo, ?_, h.id, h.arg, h.x, h.y, ?_⟩
    · simpa [Local.after, Code.run] using h.lines
    · refine .read ?_ hlt
      rw [BitVec.ofNat_add, ← hi]
      rfl
  | read _ hlt =>
    have hseg := h.read hc fun hi => hr ⟨rfl, hi⟩
    simp only [Code.run]
    refine ⟨n + 1, hseg.lt, hseg.fifo, ?_, hseg.id, hseg.arg, hseg.x, hseg.y, ?_⟩
    · rw [Local.after, h.lines, hseg.line, List.range_succ, List.map_append]
      rfl
    · rw [Local.after, hseg.stop]
      split
      · rename_i he
        exact .exit he
      · rename_i hne
        exact .yield hseg.i (by omega)

theorem subAt_start (hf : th.func = .maxSubarray) (items : List Item) :
    SubAt th items 0 (Local.start th items) := by
  refine ⟨Nat.zero_le _, rfl, rfl, rfl, rfl, rfl, rfl, ?_⟩
  simp only [Local.start, hf, Func.start]
  exact .start rfl (subCount_pos _)

/-! ## Any run -/

/-- The thread has read `n` of the numbers `vs` that have arrived, and printed a line for each. -/
structure SubarrayRight (th : Thread) (vs : List CInt) (w : World) (n : Nat) : Prop where
  le : n ≤ vs.length
  length : (w.linesOf th.ptr).length = n
  lines : ∀ k < n, Fits (vs.take (k + 1)) → ∃ x y, (w.linesOf th.ptr)[k]? = some (printed th.id y) ∧
    Greatest (vs.take (k + 1)) x y
  /-- Between two lines. -/
  saved : th.ptr ∈ w.sched.queues.all → Fits (vs.take n) →
    ∃ y, Greatest (vs.take n) (w.tcb th.ptr).x y
  /-- When it prints the next line. -/
  segment : w.sched.mode = .running → w.sched.running = th.ptr → ∀ text, w.segment.line = some text →
    n < vs.length ∧ (Fits (vs.take (n + 1)) → ∃ y, text = printed th.id y ∧
      Greatest (vs.take (n + 1)) w.segment.vars.x y)
  left : th.arg ≠ 0 → n ≤ th.arg.toNat ∧ (th.ptr ∈ w.sched.queues.all ↔ n < th.arg.toNat)
  returned : w.sched.mode = .returned → th.arg ≠ 0 → n = th.arg.toNat

theorem subAt_iter {k : Nat} {l : Local} (hf : th.func = .maxSubarray)
    (h : Local.iter k (Local.start th items) = some l) : ∃ n, SubAt th items n l :=
  Local.iter_invariant (P := fun _ l => ∃ n, SubAt th items n l)
    (fun _ _ _ hp hn => hp.elim fun _ hp => hp.next hn) ⟨0, subAt_start hf items⟩ h

theorem firstVals_eq (items : List Item) (n : Nat) :
    firstVals items n = (items.map itemVal).take n := by
  rw [firstVals, List.map_take]

theorem SubAt.code_iff {l : Local} (h : SubAt th items n l) :
    n ≤ subCount th.arg ∧ (l.code ≠ none ↔ n < subCount th.arg) := by
  have hplace := h.place
  generalize l.code = code at hplace ⊢
  cases hplace with
  | start _ hn => simp; omega
  | read _ hn => simp; omega
  | yield _ hn => simp; omega
  | exit hn => simp [hn]

/-- A segment that prints is one that reads. -/
theorem SubAt.line {l : Local} {w : World} {c : Code} {text : Text} (h : SubAt th items n l)
    (hc : GoesOn l w c) (ht : w.segment.line = some text) : SubNext th items n w.segment := by
  have hplace := h.place
  have hseg := hc.segment
  rw [hc.code] at hplace
  rw [hseg] at ht ⊢
  cases hplace with
  | start _ _ => cases ht
  | yield _ _ => cases ht
  | read _ _ => exact h.read hc.code fun hi => hc.items ⟨rfl, hi⟩

/-- Each line is the greatest of 0 and the sums of the blocks that have been read. -/
theorem max_subarray_correct {bound : Nat} {ths : List Thread} {heap : Ptr → Tcb}
    {tr : List (World × WorldEvent)} {w : World} (h : Creatable bound ths)
    (hr : Run (World.step bound) (World.start bound heap ths) tr w) (hth : th ∈ ths)
    (hf : th.func = .maxSubarray) :
    ∃ n, SubarrayRight th ((arrivals th.ptr tr).map itemVal) w n := by
  have hfalls : th.falls = false := by simp [Thread.falls, hf]
  obtain ⟨k, l, hl, hrun, hret⟩ := created_run h hr hth hfalls
  obtain ⟨n, hat⟩ := subAt_iter hf hl.iter
  have hlines : w.linesOf th.ptr = (List.range n).map (subLine th.id (arrivals th.ptr tr)) := by
    rw [← hl.lines, hat.lines]
  obtain ⟨hle, hcode⟩ := hat.code_iff
  have hcount : th.arg ≠ 0 → subCount th.arg = th.arg.toNat := fun h0 => if_neg h0
  refine ⟨n, ?_, ?_, fun k hk hfit => ?_, fun hmem hfit => ?_, fun hm hp text ht => ?_,
    fun h0 => ?_, fun hm h0 => ?_⟩
  · simpa using hat.le
  · simp [hlines]
  · refine ⟨_, _, ?_, greatest_subVars hfit⟩
    rw [hlines, ← firstVals_eq]
    simp [hk, subLine]
  · have hx := hat.x
    rw [hl.vars hmem] at hx
    have hgr := greatest_subVars hfit
    rw [← firstVals_eq, ← hx] at hgr
    rw [← firstVals_eq]
    exact ⟨_, hgr⟩
  · obtain ⟨c, hc⟩ := hrun hm hp
    have hseg := hat.line hc ht
    refine ⟨by simpa using hseg.lt, fun hfit => ?_⟩
    have hgr := greatest_subVars hfit
    rw [← firstVals_eq, ← hseg.x] at hgr
    rw [← firstVals_eq]
    refine ⟨_, ?_, hgr⟩
    rw [hseg.line] at ht
    exact (Option.some.inj ht).symm
  · rw [← hcount h0]
    refine ⟨hle, ?_⟩
    rw [← hcode]
    constructor
    · intro hmem
      rw [hl.code hmem]
      nofun
    · intro hne
      by_contra hn
      exact hne (hl.gone hn)
  · rw [← hcount h0]
    have hnone := hcode.not.1 (by simp [hret hm])
    omega

end

def subStart : World :=
  World.start THREAD_MAX (fun _ => (created (-1) 6 2)[0].setup) (created (-1) 6 2)

/-- Two negative numbers; `collatz` is interrupted each time after its line. -/
def subEvents : List WorldEvent :=
  [.arrive 2 ⟨"  -3\n".toList, rfl⟩, .arrive 2 ⟨"  -2\n".toList, rfl⟩,
    .run ⟨true, false⟩ fun _ => false, .run ⟨false, false⟩ fun _ => false,
    .run ⟨true, false⟩ fun _ => true, .run ⟨false, false⟩ fun _ => false,
    .run ⟨false, false⟩ fun _ => false, .run ⟨true, false⟩ fun _ => true]

def subEnd : World := (runEvents (World.step THREAD_MAX) subStart subEvents).getD subStart

example : subEnd.linesOf 2 = ["2 0\n".toList] ∧ subEnd.segment.line = some "2 0\n".toList := by decide

theorem max_subarray_correct_two : ∃ n, SubarrayRight ⟨2, .maxSubarray, 2, 2, 0, []⟩
    ((arrivals 2 (traceOf (World.step THREAD_MAX) subStart subEvents)).map itemVal) subEnd n := by
  have hc : Creatable THREAD_MAX (created (-1) 6 2) :=
    initThreads_creatable _ _ place_injective (.inr (.inl (by simp)))
  have hr : Run (World.step THREAD_MAX) subStart
      (traceOf (World.step THREAD_MAX) subStart subEvents) subEnd := run_traceOf rfl
  exact max_subarray_correct hc hr (List.mem_cons_of_mem _ List.mem_cons_self) rfl

end SysProg.Threads
