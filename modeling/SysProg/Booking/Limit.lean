import SysProg.Booking.Release
import Mathlib.Tactic.FinCases

/-!
# SysProg.Booking.Limit

The limit of 15 items. `handle_read` tests a running 32-bit total against 15 and, in a second loop,
each new count against 0. On a record within the limit the two loops together let exactly the legal
commands through, and those that `Overshoots` describes: all three new counts are non-negative
integers, and the first running total above 15 is already above the `int` range, so that the test
sees a negative number.

* `good_add_iff`: what an accepted command makes of the record.
* `limit_iff`: in a run, every record stays within the limit in every state exactly if no command
  of the run overshoots.
* `booking_legal_iff`: a command whose numbers are too small to wrap around is accepted exactly if
  it is `Legal`.
-/

set_option linter.unusedSectionVars false

namespace SysProg.Booking

open LockType

/-- Three non-negative counts whose total is at most 15. -/
def GoodCounts (b : Fin 3 → CInt) : Prop :=
  (∀ i, 0 ≤ (b i).toInt) ∧ (b 0).toInt + (b 1).toInt + (b 2).toInt ≤ 15

instance (b : Fin 3 → CInt) : Decidable (GoodCounts b) :=
  inferInstanceAs (Decidable (_ ∧ _))

/-- The integer that an item's new count should be. -/
def newCount (b nums : Fin 3 → CInt) (i : Fin 3) : Int := (b i).toInt + (nums i).toInt

def Overshoots (b nums : Fin 3 → CInt) : Prop :=
  (∀ i, 0 ≤ newCount b nums i ∧ newCount b nums i < 2147483648) ∧ newCount b nums 0 ≤ 15 ∧
    (newCount b nums 0 + newCount b nums 1 ≤ 15 ∨
      2147483648 ≤ newCount b nums 0 + newCount b nums 1) ∧
    2147483648 ≤ newCount b nums 0 + newCount b nums 1 + newCount b nums 2

instance (b nums : Fin 3 → CInt) : Decidable (Overshoots b nums) :=
  inferInstanceAs (Decidable (_ ∧ _ ∧ _ ∧ _))

theorem over_eq_false {b nums : Fin 3 → CInt} :
    overLimit b nums = false ↔ (b 0 + nums 0).toInt ≤ 15 ∧ (b 0 + nums 0 + (b 1 + nums 1)).toInt ≤ 15 ∧
      (b 0 + nums 0 + (b 1 + nums 1) + (b 2 + nums 2)).toInt ≤ 15 := by
  have h1 : (0 : CInt) + b 0 + nums 0 = b 0 + nums 0 := by simp
  have h2 : b 0 + nums 0 + b 1 + nums 1 = b 0 + nums 0 + (b 1 + nums 1) := by
    rw [BitVec.add_assoc (b 0 + nums 0)]
  have h3 : b 0 + nums 0 + (b 1 + nums 1) + b 2 + nums 2 =
      b 0 + nums 0 + (b 1 + nums 1) + (b 2 + nums 2) := by
    rw [BitVec.add_assoc (b 0 + nums 0 + (b 1 + nums 1))]
  simp only [overLimit, overLoop, h1, h2, h3]
  by_cases c1 : 15 < (b 0 + nums 0).toInt
  · simp only [c1, if_true, reduceCtorEq, false_iff]; omega
  · by_cases c2 : 15 < (b 0 + nums 0 + (b 1 + nums 1)).toInt
    · simp only [c1, c2, if_true, if_false, reduceCtorEq, false_iff]; omega
    · by_cases c3 : 15 < (b 0 + nums 0 + (b 1 + nums 1) + (b 2 + nums 2)).toInt
      · simp only [c1, c2, c3, if_true, if_false, reduceCtorEq, false_iff]; omega
      · simp only [c1, c2, c3, if_false, true_iff]; omega

theorem under_eq_false {b nums : Fin 3 → CInt} :
    underZero b nums = false ↔ ∀ i, 0 ≤ (b i + nums i).toInt := by
  simp only [underZero, List.any_eq_false, decide_eq_true_eq, List.mem_cons, List.not_mem_nil,
    or_false]
  constructor
  · intro h i
    have := h i (by fin_cases i <;> simp)
    omega
  · intro h i _
    have := h i
    omega

theorem GoodCounts.le {b : Fin 3 → CInt} (h : GoodCounts b) (i : Fin 3) : (b i).toInt ≤ 15 := by
  have h0 := h.1 0
  have h1 := h.1 1
  have h2 := h.1 2
  have hs := h.2
  fin_cases i <;> simp <;> omega

/-- On a record within the limit, a new count that does not test negative is the true one. -/
theorem toInt_new {b : Fin 3 → CInt} (h : GoodCounts b) (nums : Fin 3 → CInt) (i : Fin 3) :
    (0 ≤ newCount b nums i ∧ newCount b nums i < 2147483648 ∧
      (b i + nums i).toInt = newCount b nums i) ∨
    ((newCount b nums i < 0 ∨ 2147483648 ≤ newCount b nums i) ∧ (b i + nums i).toInt < 0) := by
  have h0 := h.1 i
  have h1 := h.le i
  have hn := CInt.toInt_bounds (nums i)
  have hadd := CInt.toInt_add_cases (b i) (nums i)
  unfold newCount
  omega

theorem accepts_of_overshoots {b nums : Fin 3 → CInt} (h : GoodCounts b) (ho : Overshoots b nums) :
    overLimit b nums = false ∧ underZero b nums = false := by
  obtain ⟨hr, h0, h01, h012⟩ := ho
  have e : ∀ i, (b i + nums i).toInt = newCount b nums i := by
    intro i
    have := hr i
    have := toInt_new h nums i
    omega
  have r0 := hr 0
  have r1 := hr 1
  have r2 := hr 2
  have e0 := e 0
  have e1 := e 1
  have e2 := e 2
  have a1 := CInt.toInt_add_cases (b 0 + nums 0) (b 1 + nums 1)
  have a2 := CInt.toInt_add_cases (b 0 + nums 0 + (b 1 + nums 1)) (b 2 + nums 2)
  refine ⟨over_eq_false.2 ⟨by omega, by omega, by omega⟩, under_eq_false.2 fun i => ?_⟩
  rw [e i]; exact (hr i).1

/-- A command that both loops let through keeps the limit unless it overshoots. -/
theorem good_add_iff {b nums : Fin 3 → CInt} (h : GoodCounts b) (ho : overLimit b nums = false)
    (hu : underZero b nums = false) : GoodCounts (fun i => b i + nums i) ↔ ¬ Overshoots b nums := by
  obtain ⟨o0, o1, o2⟩ := over_eq_false.1 ho
  have hu := under_eq_false.1 hu
  have e : ∀ i, 0 ≤ newCount b nums i ∧ newCount b nums i < 2147483648 ∧
      (b i + nums i).toInt = newCount b nums i := by
    intro i
    have := hu i
    have := toInt_new h nums i
    omega
  have e0 := e 0
  have e1 := e 1
  have e2 := e 2
  have a1 := CInt.toInt_add_cases (b 0 + nums 0) (b 1 + nums 1)
  have a2 := CInt.toInt_add_cases (b 0 + nums 0 + (b 1 + nums 1)) (b 2 + nums 2)
  constructor
  · rintro ⟨_, hs⟩ ⟨_, _, _, hbig⟩
    simp only [e0.2.2, e1.2.2, e2.2.2] at hs
    omega
  · intro hn
    refine ⟨hu, ?_⟩
    simp only [e0.2.2, e1.2.2, e2.2.2]
    by_contra hbig
    refine hn ⟨fun i => ⟨(e i).1, (e i).2.1⟩, ?_, ?_, ?_⟩ <;> omega

/-! ## Runs -/

section

variable {P : Type} [DecidableEq P] [Fintype P] {build : P → Build} {w w' : World P}

/-- The file holds, for every record, counts within the limit. -/
def GoodFile (w : World P) : Prop :=
  ∀ k, badOffset k = false → GoodCounts (w.kernel.file k).bookingState

/-- The booking command the event submits, with the record it is for. -/
def commandAt (build : P → Build) (w : World P) : Event P → Option (CInt × (Fin 3 → CInt))
  | .accept _ _ => none
  | .recv p fd r =>
    (commandOf (build p) ((w.server p).requestP fd) r).map fun nums =>
      (((w.server p).requestP fd).id - HEAD, nums)

/-- The event submits a command that overshoots on its record. -/
def Overbooks (build : P → Build) (w : World P) (e : Event P) : Prop :=
  ∃ c ∈ commandAt build w e, Overshoots (w.kernel.file c.1).bookingState c.2

instance (e : Event P) : Decidable (Overbooks build w e) :=
  inferInstanceAs (Decidable (∃ c ∈ commandAt build w e, _))

theorem commandAt_recv {p : P} {fd : Nat} {r : ReadResult} {k : CInt} {nums : Fin 3 → CInt} :
    commandAt build w (.recv p fd r) = some (k, nums) ↔
      commandOf (build p) ((w.server p).requestP fd) r = some nums ∧
        ((w.server p).requestP fd).id = HEAD + k := by
  simp only [commandAt, Option.map_eq_some_iff, Prod.mk.injEq]
  constructor
  · rintro ⟨nums, hc, rfl, rfl⟩; exact ⟨hc, sub_add_head _⟩
  · rintro ⟨hc, hk⟩
    exact ⟨nums, hc, by rw [hk, BitVec.add_comm, BitVec.add_sub_cancel], rfl⟩

/-- Only a line that comes to a write server on a connection that waits for a command. -/
theorem commandOf_line {b : Build} {reqP : Request} {r : ReadResult} {nums : Fin 3 → CInt}
    (h : commandOf b reqP r = some nums) : ∃ bytes, bytes ≠ [] ∧ r = .data bytes ∧ b = .writer ∧
      reqP.waitForWrite = false ∧ isLine (lineOf bytes) = true ∧ myatoi (lineOf bytes) = some nums := by
  cases r with
  | error => cases h
  | data bytes =>
    have hne : bytes ≠ [] := by
      rintro rfl
      cases h
    rw [commandOf_data hne] at h
    split at h
    · rename_i hc
      exact ⟨bytes, hne, rfl, hc.1, hc.2.1, hc.2.2, h⟩
    · cases h

theorem commandOf_some {b : Build} {reqP : Request} {r : ReadResult} {nums : Fin 3 → CInt}
    (h : commandOf b reqP r = some nums) :
    b = .writer ∧ InSession b reqP = true ∧ r ≠ .error ∧ ¬ Lost b r := by
  obtain ⟨bytes, hne, rfl, rfl, hw, -, -⟩ := commandOf_line h
  exact ⟨rfl, by simp [InSession, hw], by simp, by simp [lost_data hne]⟩

theorem handleRead_command {b : Build} {reqP : Request} {r : ReadResult} {nums : Fin 3 → CInt}
    (h : commandOf b reqP r = some nums) (sl : SelfLock) :
    ∃ buf, myatoi buf = some nums ∧ handleRead b r reqP sl = handleWriterCommand buf reqP sl := by
  obtain ⟨bytes, hne, rfl, rfl, hw, hline, hnums⟩ := commandOf_line h
  refine ⟨lineOf bytes, hnums, ?_⟩
  rw [handleRead_data hne]
  have hcase := handleLine_case .writer (lineOf bytes) reqP sl
  generalize handleLine .writer (lineOf bytes) reqP sl = prog at hcase
  cases hcase with
  | part hl | interrupt hl | interruptIdle hl => simp [hl] at hline
  | reader _ hb => cases hb
  | writerId _ _ hw' => simp [hw] at hw'
  | writerCommand => rfl

/-- What a step does to the file, by the command it submits. -/
inductive FileCase (build : P → Build) (w : World P) (e : Event P) (file' : CInt → Record) : Prop
  | same : file' = w.kernel.file →
      (∀ k nums, commandAt build w e = some (k, nums) →
        overLimit (w.kernel.file k).bookingState nums = true ∨
          underZero (w.kernel.file k).bookingState nums = true) →
      FileCase build w e file'
  | booked {k : CInt} {nums : Fin 3 → CInt} : commandAt build w e = some (k, nums) →
      badOffset k = false → overLimit (w.kernel.file k).bookingState nums = false →
      underZero (w.kernel.file k).bookingState nums = false →
      (file' = fun k' => if k' = k then
        { w.kernel.file k with
          bookingState := fun i => (w.kernel.file k).bookingState i + nums i }
        else w.kernel.file k') → FileCase build w e file'

theorem StepCase.fileCase {p : P} {e : Event P} {sv : Server} {s : Kernel P} (hi : Inv build w)
    (h : StepCase build w p e sv s) : FileCase build w e s.file := by
  have none_of : ∀ {fd r}, (∀ nums, commandOf (build p) ((w.server p).requestP fd) r ≠ some nums) →
      ∀ k nums, commandAt build w (.recv p fd r) = some (k, nums) → False :=
    fun hn k nums hc => hn nums (commandAt_recv.1 hc).1
  cases h with
  | accept _ => exact .same rfl fun _ _ hc => by cases hc
  | @exit fd r _ _ hcmd =>
    exact .same rfl fun k nums hc => (none_of (fun _ => by rw [hcmd]; simp) k nums hc).elim
  | @served fd r _ _ hc heff _ _ =>
    obtain ⟨hal, _, _, hopen⟩ := canServe_iff.1 hc
    have hslot := (hi.alive p hal).slot fd hopen
    generalize sv.requestP fd = q at heff
    generalize sv.selfLock = sl at heff
    cases heff with
    | failed he =>
      exact .same rfl fun k nums hc =>
        (none_of (fun _ hn => (commandOf_some hn).2.2.1 he) k nums hc).elim
    | refused hidle _ =>
      refine .same rfl fun k nums hc => (none_of (fun _ hn => ?_) k nums hc).elim
      have := (commandOf_some hn).2.1
      rw [hidle] at this; cases this
    | lost _ hl _ =>
      exact .same rfl fun k nums hc =>
        (none_of (fun _ hn => (commandOf_some hn).2.2.2 hl) k nums hc).elim
    | opened hidle =>
      refine .same rfl fun k nums hc => (none_of (fun _ hn => ?_) k nums hc).elim
      have := (commandOf_some hn).2.1
      rw [hidle] at this; cases this
    | @released _ k _ hk _ _ hrej =>
      refine .same rfl fun k' nums hc => ?_
      obtain ⟨hcmd, hk'⟩ := commandAt_recv.1 hc
      have : k' = k := by
        have := congrArg (fun i => i - HEAD) (hk'.symm.trans hk)
        simpa [BitVec.add_comm HEAD] using this
      rw [this]
      exact hrej nums hcmd
    | @booked _ k nums _ hbusy hk _ hcmd ho hu =>
      refine .booked (commandAt_recv.2 ⟨hcmd, hk⟩) ?_ ho hu rfl
      have := hslot.busy hbusy
      rwa [hk, BitVec.add_comm, BitVec.add_sub_cancel] at this

theorem file_step {e : Event P} (hi : Inv build w) (h : w.step build e = some w') :
    FileCase build w e w'.kernel.file := by
  obtain ⟨p, hp, _⟩ := step_cases hi h
  exact hp.fileCase hi

theorem commandAt_offset {e : Event P} {k : CInt} {nums : Fin 3 → CInt} (hi : Inv build w)
    (h : w.step build e = some w') (hc : commandAt build w e = some (k, nums)) :
    badOffset k = false := by
  cases e with
  | accept _ _ => cases hc
  | recv p fd r =>
    obtain ⟨hcmd, hk⟩ := commandAt_recv.1 hc
    simp only [World.step] at h
    split at h
    · rename_i hs
      obtain ⟨hal, _, _, hopen⟩ := canServe_iff.1 hs
      have := ((hi.alive p hal).slot fd hopen).busy (commandOf_some hcmd).2.1
      rwa [hk, BitVec.add_comm, BitVec.add_sub_cancel] at this
    · cases h

theorem goodFile_step {e : Event P} (hi : Inv build w) (hg : GoodFile w)
    (h : w.step build e = some w') : GoodFile w' ↔ ¬ Overbooks build w e := by
  cases file_step hi h with
  | same hfile hrej =>
    have hg' : GoodFile w' := by intro k hk; rw [hfile]; exact hg k hk
    refine ⟨fun _ => ?_, fun _ => hg'⟩
    rintro ⟨⟨k, nums⟩, hc, ho⟩
    obtain ⟨h1, h2⟩ := accepts_of_overshoots (hg k (commandAt_offset hi h hc)) ho
    rcases hrej k nums hc with hr | hr
    · rw [h1] at hr; cases hr
    · rw [h2] at hr; cases hr
  | @booked k nums hc hk ho hu hfile =>
    have hiff := good_add_iff (hg k hk) ho hu
    have hover : Overbooks build w e ↔ Overshoots (w.kernel.file k).bookingState nums := by
      constructor
      · rintro ⟨c, hc', ho'⟩
        rw [hc] at hc'; cases hc'; exact ho'
      · intro ho'; exact ⟨(k, nums), hc, ho'⟩
    rw [hover, ← hiff]
    constructor
    · intro h'
      have := h' k hk
      rw [hfile] at this
      simpa using this
    · intro h' k' hk'
      rw [hfile]
      by_cases e : k' = k
      · simpa [e] using h'
      · simpa [e] using hg k' hk'

theorem freshWorld_good (P : Type) : GoodFile (freshWorld P) := by
  intro k _
  change GoodCounts fun _ => 0
  decide

/-- Every record stays within the limit unless a command overshoots it. -/
theorem limit_iff {w0 : World P} {tr : List (World P × Event P)} (h0 : w0.Init) (hg : GoodFile w0)
    (h : Run (World.step build) w0 tr w) :
    Always GoodFile tr w ↔ Meets (fun w e => ¬ Overbooks build w e) tr :=
  h.forall_iff (J := Inv build) (fun _ _ _ hi hs => hi.step hs)
    (fun _ _ _ hi hg hs => goodFile_step hi hg hs) h0.inv hg

end

theorem limit_iff_booked :
    Always GoodFile
      (traceOf (World.step fun _ => .writer) (freshWorld (Fin 1))
        (visit 0 5 ++ [.recv 0 5 (.data "5 6 4\r\n".toList)]))
      ((runEvents (World.step fun _ => .writer) (freshWorld (Fin 1))
        (visit 0 5 ++ [.recv 0 5 (.data "5 6 4\r\n".toList)])).getD (freshWorld (Fin 1))) := by
  refine (limit_iff (freshWorld_init _) (freshWorld_good _) (run_traceOf rfl)).2 ?_
  decide

/-- `1 + 2147483647` is negative as a 32-bit number, so the command passes both loops. -/
theorem limit_overflow :
    ¬ ∀ w0 w : World (Fin 1), w0.Init → GoodFile w0 →
      Reachable (World.step fun _ => .writer) w0 w → GoodFile w := by
  intro hall
  obtain ⟨w', hw'⟩ : ∃ w', (visited .writer).step (fun _ => .writer)
      (.recv 0 5 (.data "1 2147483647 0\r\n".toList)) = some w' :=
    Option.isSome_iff_exists.1 (by decide)
  have hr := visited_reachable .writer
  have hi := reachable_inv (freshWorld_init _) hr
  have hg := hall _ _ (freshWorld_init _) (freshWorld_good _) hr
  have hg' := hall _ _ (freshWorld_init _) (freshWorld_good _) (hr.tail hw')
  exact (goodFile_step hi hg hw').1 hg' (by decide)

/-! ## Commands that cannot wrap around -/

/-- The new counts are non-negative and at most 15 in total. -/
def Legal (b nums : Fin 3 → CInt) : Prop :=
  (∀ i, 0 ≤ newCount b nums i) ∧ newCount b nums 0 + newCount b nums 1 + newCount b nums 2 ≤ 15

instance (b nums : Fin 3 → CInt) : Decidable (Legal b nums) :=
  inferInstanceAs (Decidable (_ ∧ _))

section

variable {b nums : Fin 3 → CInt}

theorem toInt_new_of_small (h : GoodCounts b) (hn : ∀ i, (nums i).toInt.natAbs ≤ 2 ^ 29) (i : Fin 3) :
    (b i + nums i).toInt = newCount b nums i ∧ -(2 ^ 29) ≤ newCount b nums i ∧
      newCount b nums i ≤ 2 ^ 29 + 15 := by
  have h0 := h.1 i
  have h1 := h.le i
  have hni := hn i
  have hadd := CInt.toInt_add_cases (b i) (nums i)
  unfold newCount
  omega

/-- The prefix sums need not be tested for themselves once no new count is negative. -/
theorem legal_iff_loops (h : GoodCounts b) (hn : ∀ i, (nums i).toInt.natAbs ≤ 2 ^ 29) :
    Legal b nums ↔ overLimit b nums = false ∧ underZero b nums = false := by
  obtain ⟨e0, l0, u0⟩ := toInt_new_of_small h hn 0
  obtain ⟨e1, l1, u1⟩ := toInt_new_of_small h hn 1
  obtain ⟨e2, l2, u2⟩ := toInt_new_of_small h hn 2
  have a1 := CInt.toInt_add_cases (b 0 + nums 0) (b 1 + nums 1)
  have a2 := CInt.toInt_add_cases (b 0 + nums 0 + (b 1 + nums 1)) (b 2 + nums 2)
  have hu : underZero b nums = false ↔ ∀ i, 0 ≤ newCount b nums i := by
    rw [under_eq_false]
    exact forall_congr' fun i => by rw [(toInt_new_of_small h hn i).1]
  rw [over_eq_false, hu, Legal]
  constructor
  · rintro ⟨hpos, hsum⟩
    have p0 := hpos 0
    have p1 := hpos 1
    have p2 := hpos 2
    exact ⟨⟨by omega, by omega, by omega⟩, hpos⟩
  · rintro ⟨⟨-, -, hsum⟩, hpos⟩
    have p0 := hpos 0
    have p1 := hpos 1
    have p2 := hpos 2
    exact ⟨hpos, by omega⟩

variable {P : Type} [DecidableEq P] [Fintype P] {p : P} {reqP : Request} {sl : SelfLock}
  {s : Kernel P} {r : ReadResult}

/-- What an accepted command leaves in the file: the new counts, in the record of the session. -/
def Stored (s s' : Kernel P) (k : CInt) (nums : Fin 3 → CInt) : Prop :=
  (∀ i, ((s'.file k).bookingState i).toInt = newCount (s.file k).bookingState nums i) ∧
    (s'.file k).id = (s.file k).id ∧ ∀ k', k' ≠ k → s'.file k' = s.file k'

/-- `handle_read` on a command of an open write session: `val` is what it returns, and in both cases
`self_lock` and the lock of the record are released. -/
theorem booking_legal_iff (hc : commandOf .writer reqP r = some nums)
    (hg : GoodCounts (s.file (reqP.id - HEAD)).bookingState)
    (hn : ∀ i, (nums i).toInt.natAbs ≤ 2 ^ 29) :
    ∃ val reqP' s', (handleRead .writer r reqP sl).exec p s =
        (.ret val reqP' (updLock sl (reqP.id - HEAD) 0), s') ∧
      s'.locks = s.locks.put p (reqP.id - HEAD) unlck ∧
      (val = 1 ↔ Legal (s.file (reqP.id - HEAD)).bookingState nums) ∧
      (val = 1 → Stored s s' (reqP.id - HEAD) nums ∧
        (afterRead .writer val reqP').2 = send reqP.connFd (updatedMsg reqP.id) ++
          send reqP.connFd (bookings (s'.file (reqP.id - HEAD)).bookingState)) ∧
      (val ≠ 1 → (val = 2 ∨ val = 3) ∧ s'.file = s.file) := by
  have hlegal := legal_iff_loops hg hn
  have hw : reqP.waitForWrite = false := by
    have h := (commandOf_some hc).2.1
    simpa [InSession] using h
  obtain ⟨buf, hbuf, hread⟩ := handleRead_command hc sl
  have hunlock : ∀ v, unlock .writer s.locks p (reqP.id - HEAD) v =
      s.locks.put p (reqP.id - HEAD) unlck := fun v => if_neg (by simp)
  simp only [hread, handleWriterCommand, hbuf, Sys.exec]
  by_cases ho : overLimit (s.file (reqP.id - HEAD)).bookingState nums = true
  · have hno : ¬ Legal (s.file (reqP.id - HEAD)).bookingState nums := by
      rw [hlegal, ho]
      simp
    rw [if_pos ho, exec_mylockFunction_unlck, hunlock]
    exact ⟨2, _, _, rfl, rfl, by simp [hno], by simp, fun _ => ⟨.inl rfl, rfl⟩⟩
  · rw [if_neg ho]
    by_cases hu : underZero (s.file (reqP.id - HEAD)).bookingState nums = true
    · have hno : ¬ Legal (s.file (reqP.id - HEAD)).bookingState nums := by
        rw [hlegal, hu]
        simp
      rw [if_pos hu, exec_mylockFunction_unlck, hunlock]
      exact ⟨3, _, _, rfl, rfl, by simp [hno], by simp, fun _ => ⟨.inr rfl, rfl⟩⟩
    · have hyes : Legal (s.file (reqP.id - HEAD)).bookingState nums :=
        hlegal.2 ⟨by simpa using ho, by simpa using hu⟩
      rw [if_neg hu]
      simp only [Sys.exec, exec_mylockFunction_unlck, if_true, hunlock]
      refine ⟨1, _, _, rfl, rfl, by simp [hyes], fun _ => ⟨⟨fun i => ?_, ?_, fun k' hk' => ?_⟩, ?_⟩,
        by simp⟩
      · simp only [if_true]
        exact (toInt_new_of_small hg hn i).1
      · simp only [if_true]
      · simp only [if_neg hk']
      · rw [afterRead_one]
        simp only [reply, hw, Bool.false_eq_true, if_false, if_true]

end

/-- A connection of a write server that was shown the fourth record. -/
def shownRequest : Request :=
  { connFd := 5, buf := [], id := HEAD + 3, done := false, waitForWrite := false }

theorem booking_legal_iff_line :
    ∃ val reqP' s', (handleRead .writer (.data "5 6 4\r\n".toList) shownRequest
        fun k => if k = 3 then 1 else 0).exec (0 : Fin 1)
          { file := fun _ => ⟨HEAD, fun _ => 0⟩, locks := fun _ _ => .wrlck } =
        (.ret val reqP' (updLock (fun k => if k = 3 then 1 else 0) 3 0), s') ∧
      val = 1 ∧ ∀ k, s'.locks k 0 = unlck ↔ k = 3 := by
  obtain ⟨val, reqP', s', he, hl, hv, -⟩ := @booking_legal_iff ![5, 6, 4] (Fin 1) _ _ 0 shownRequest
    (fun k => if k = 3 then 1 else 0) { file := fun _ => ⟨HEAD, fun _ => 0⟩, locks := fun _ _ => .wrlck }
    (.data "5 6 4\r\n".toList) (by decide) (by decide) (by decide)
  refine ⟨val, reqP', s', he, hv.2 (by decide), fun k => ?_⟩
  rw [hl]
  simp [LockTable.put, shownRequest, HEAD]

end SysProg.Booking
