import SysProg.Threads.Created

/-!
# SysProg.Threads.Lines

Threads that print a known sequence of lines, one line in each iteration of their loop.

* `Loops`: the thread by itself after `k` of `count` iterations.
* `Prints`: the thread in a run.
* `prints_of_loops`: the second follows from the first, whatever the schedule is.
-/

namespace SysProg.Threads

/-- The thread has printed the first `n` lines. It prints the next one whenever it runs, and leaves
through `thread_exit` after `count` lines. If `count` is 0, it prints nothing and leaves when it first
runs. -/
structure Prints (th : Thread) (line : Nat → Text) (count : Nat) (w : World) (n : Nat) : Prop where
  le : n ≤ count
  lines : w.linesOf th.ptr = (List.range n).map line
  left : count ≠ 0 → (th.ptr ∈ w.sched.queues.all ↔ n < count)
  segment : w.sched.mode = .running → w.sched.running = th.ptr →
    if count = 0 then w.segment.line = none ∧ w.segment.stop = .exit
    else w.segment.line = some (line n) ∧
      if n + 1 = count then w.segment.stop = .exit else ∃ c, w.segment.stop = .yield c
  returned : w.sched.mode = .returned → n = count

/-- What the iteration after `k` others prints, and where it ends. -/
structure Iteration (again : Code) (line : Nat → Text) (count k : Nat) (seg : Segment) : Prop where
  line : seg.line = some (line k)
  stop : seg.stop = if k + 1 = count then .exit else .yield again

/-- A thread by itself that has done `k` of `count` iterations. It begins at `first`, and `again` is
where it yields. -/
structure Loops (first again : Code) (line : Nat → Text) (count k : Nat) (l : Local) : Prop where
  le : k ≤ count
  lines : l.lines = (List.range k).map line
  code : l.code = if k = count then none else some (if k = 0 then first else again)

section

variable {first again c : Code} {line : Nat → Text} {count k : Nat} {l l' : Local}

theorem loops_start {th : Thread} (hf : th.func.start = first) (hc : count ≠ 0) (items : List Item) :
    Loops first again line count 0 (Local.start th items) := by
  refine ⟨Nat.zero_le _, rfl, ?_⟩
  simp [Local.start, hf, hc.symm]

theorem Loops.more (h : Loops first again line count k l) (hc : l.code = some c) :
    k < count ∧ (k = 0 ∧ c = first ∨ k ≠ 0 ∧ c = again) := by
  have hcode := h.code
  rw [hc] at hcode
  have hne : k ≠ count := by
    intro he
    rw [if_pos he] at hcode
    cases hcode
  refine ⟨Nat.lt_of_le_of_ne h.le hne, ?_⟩
  rw [if_neg hne] at hcode
  by_cases h0 : k = 0
  · rw [if_pos h0] at hcode
    exact .inl ⟨h0, Option.some.inj hcode⟩
  · rw [if_neg h0] at hcode
    exact .inr ⟨h0, Option.some.inj hcode⟩

theorem Loops.next (h : Loops first again line count k l) (hc : l.code = some c)
    (hseg : Iteration again line count k (c.run l.vars l.items)) :
    Loops first again line count (k + 1) (l.after (c.run l.vars l.items)) := by
  refine ⟨(h.more hc).1, ?_, ?_⟩
  · rw [Local.after, h.lines, hseg.line, List.range_succ, List.map_append]
    rfl
  · rw [Local.after, hseg.stop, if_neg k.succ_ne_zero]
    split <;> rfl

theorem prints_of_loops {th : Thread} {w : World} {items : List Item} {i : Nat}
    (hl : Tracks th items w i l)
    (hrun : w.sched.mode = .running → w.sched.running = th.ptr → ∃ c, GoesOn l w c)
    (hret : w.sched.mode = .returned → l.code = none) (h0 : count ≠ 0)
    (h : Loops first again line count k l)
    (hseg : ∀ c, l.code = some c → Iteration again line count k (c.run l.vars l.items)) :
    Prints th line count w k := by
  refine ⟨h.le, ?_, fun _ => ?_, fun hm hp => ?_, fun hm => ?_⟩
  · rw [← hl.lines, h.lines]
  · constructor
    · intro hmem
      exact (h.more (hl.code hmem)).1
    · intro hk
      by_contra hn
      have hcode := h.code
      rw [hl.gone hn, if_neg (Nat.ne_of_lt hk)] at hcode
      cases hcode
  · obtain ⟨c, hc⟩ := hrun hm hp
    have hnext := hseg c hc.code
    rw [hc.segment, if_neg h0]
    refine ⟨hnext.line, ?_⟩
    rw [hnext.stop]
    split
    · rfl
    · exact ⟨_, rfl⟩
  · have hcode := h.code
    rw [hret hm] at hcode
    by_contra hne
    rw [if_neg hne] at hcode
    cases hcode

end

end SysProg.Threads
