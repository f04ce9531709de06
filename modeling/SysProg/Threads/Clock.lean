import SysProg.Threads.Signals

/-!
# SysProg.Threads.Clock

How many signals are caught.

* `Proc.total`: those that the handler has printed or has still to print; a signal that is sent while
  it is pending adds nothing.
* `Clock`: `alarm` is running, or its signal is on the way to the handler, which calls `alarm` again.
* `signals_counted`: no tick of the clock is lost.
-/

namespace SysProg.Threads

/-- The lines that the handler has printed. -/
def World.caughtOf (w : World) (signo : Signal) : Nat := w.out.count (none, signo.caught)

def Place.handling : Place → Signal → Bool
  | .handler signo, other => decide (signo = other)
  | _, _ => false

/-- The signal is pending, or its handler has not printed its line yet. -/
def Proc.outstanding (p : Proc) (signo : Signal) : Nat :=
  (p.kernel.pending signo).toNat + (p.place.handling signo).toNat

def ProcEvent.sends : ProcEvent → Signal → Bool
  | .stop, .tstp => true
  | .expire, .alrm => true
  | _, _ => false

def sent (signo : Signal) (tr : List (Proc × ProcEvent)) : Nat := tr.countP fun x => x.2.sends signo

section

variable {bound : Nat} {timeslice : CInt} {p p' : Proc} {w w' : World} {signo : Signal}
  {polls : Nat → Bool} {e : ProcEvent}

theorem caughtOf_finish (env : Env) : (w.finish env).caughtOf signo = w.caughtOf signo := by
  simp only [World.caughtOf, World.finish, List.count_append, Nat.add_eq_left]
  cases w.segment.line with
  | none => rfl
  | some text => simp

theorem caughtOf_schedule {e : SchedEvent} (h : w.schedule bound e polls = some w') :
    w'.caughtOf signo = w.caughtOf signo := by
  rw [World.caughtOf, (schedule_frame h).2.2]
  rfl

theorem caughtOf_run (h : w.step bound (.run ⟨false, false⟩ polls) = some w') :
    w'.caughtOf signo = w.caughtOf signo := by
  simp only [World.step] at h
  split at h
  · split at h
    · rename_i code _
      cases h
      exact caughtOf_finish ⟨code, w.current.owner⟩
    · rw [caughtOf_schedule h, caughtOf_finish]
    · rw [caughtOf_schedule h, caughtOf_finish]
    · cases h
      exact caughtOf_finish (w.tcb w.sched.running).environment
  · cases h

theorem caught_injective {other : Signal} (h : other.caught = signo.caught) : other = signo := by
  cases other <;> cases signo <;> first | rfl | exact absurd h (by decide)

/-- The handler prints one line. -/
theorem caughtOf_sighandler (other : Signal) :
    (p.sighandler timeslice other).world.caughtOf signo =
      p.world.caughtOf signo + (decide (other = signo)).toNat := by
  simp only [World.caughtOf, Proc.sighandler, List.count_append, Nat.add_left_cancel_iff]
  by_cases he : other = signo
  · rw [he]
    simp
  · have hne : other.caught ≠ signo.caught := fun hc => he (caught_injective hc)
    simp [he, hne]

/-- Caught or outstanding. -/
def Proc.total (p : Proc) (signo : Signal) : Nat := p.world.caughtOf signo + p.outstanding signo

theorem total_eq (hw : p'.world.caughtOf signo = p.world.caughtOf signo)
    (hp : p'.kernel.pending signo = p.kernel.pending signo)
    (hh : p'.place.handling signo = p.place.handling signo) : p'.total signo = p.total signo := by
  rw [Proc.total, Proc.total, Proc.outstanding, Proc.outstanding, hw, hp, hh]

theorem total_raise (other : Signal) (hw : p'.world = p.world)
    (hk : p'.kernel.pending = Function.update p.kernel.pending other true)
    (hpl : p'.place = p.place) :
    p'.total signo = p.total signo +
      (decide (other = signo) && !p.kernel.pending signo).toNat := by
  rw [Proc.total, Proc.total, Proc.outstanding, Proc.outstanding, hw, hk, hpl]
  by_cases he : signo = other
  · subst he
    cases p.kernel.pending signo
    · simp
      omega
    · simp
  · simp [Function.update_of_ne he, Ne.symm he]

theorem deliver_total (hk : Masked p.place p.kernel) {other : Signal}
    (h : p.step bound timeslice (.deliver other) = some p') : p'.total signo = p.total signo := by
  simp only [Proc.step] at h
  split at h
  · rename_i hp
    cases h
    have hpl := (hk.deliver hp.2).1
    rw [Proc.total, Proc.total, Proc.outstanding, Proc.outstanding, hpl]
    by_cases he : signo = other
    · subst he
      simp [Kernel.deliver, Place.handling, hp.1]
    · simp [Kernel.deliver, Place.handling, Function.update_of_ne he, Ne.symm he]
  · cases h

theorem handler_total (h : p.step bound timeslice (.handler polls) = some p') :
    p'.total signo = p.total signo := by
  simp only [Proc.step] at h
  split at h
  · rename_i other hpl
    obtain ⟨w', hw, rfl⟩ := Option.map_eq_some_iff.1 h
    have hpend : (p.sighandler timeslice other).kernel.pending = p.kernel.pending := by
      simp only [Proc.sighandler]
      split <;> rfl
    have hcaught : w'.caughtOf signo = p.world.caughtOf signo + (decide (other = signo)).toNat := by
      rw [caughtOf_schedule hw, caughtOf_sighandler]
    rw [Proc.total, Proc.total, Proc.outstanding, Proc.outstanding, hpl, hpend, hcaught]
    simp only [Place.handling, Proc.sighandler, Bool.toNat_false]
    omega
  · cases h

/-- A signal that is sent while it is pending already is lost. -/
theorem total_step (hk : Masked p.place p.kernel) (h : p.step bound timeslice e = some p') :
    p'.total signo = p.total signo + (e.sends signo && !p.kernel.pending signo).toNat := by
  cases e with
  | work polls =>
    obtain ⟨hpl, -, hcase⟩ := work_cases h
    rcases hcase with ⟨code, -, rfl⟩ | ⟨-, w', hw, rfl⟩
    · refine total_eq (caughtOf_finish _) rfl ?_
      rw [hpl]
      rfl
    · exact total_eq (caughtOf_run hw) rfl rfl
  | sigpending =>
    simp only [Proc.step] at h
    split at h
    · rename_i env hpl
      cases h
      refine total_eq rfl rfl ?_
      rw [hpl]
      rfl
    · cases h
  | sigsuspend =>
    simp only [Proc.step] at h
    split at h
    · rename_i env m hpl
      have hsame : ∀ pl k w', k.pending = p.kernel.pending → w'.caughtOf signo = p.world.caughtOf signo →
          pl.handling signo = false → Proc.total ⟨w', k, pl⟩ signo = p.total signo := by
        intro pl k w' hk hw hpl'
        refine total_eq hw (congrFun hk signo) ?_
        rw [hpl]
        exact hpl'
      split at h
      · cases h
        exact hsame _ _ _ rfl rfl rfl
      · split at h
        · cases h
          exact hsame _ _ _ rfl rfl rfl
        · cases h
          exact hsame _ _ _ rfl rfl rfl
    · cases h
  | deliver other => exact deliver_total hk h
  | handler polls => exact handler_total h
  | poll polls =>
    simp only [Proc.step] at h
    split at h
    · obtain ⟨w', hw, rfl⟩ := Option.map_eq_some_iff.1 h
      exact total_eq (caughtOf_schedule hw) rfl rfl
    · cases h
  | arrive d item =>
    cases h
    exact total_eq rfl rfl rfl
  | stop =>
    cases h
    have hsent := @total_raise p { p with kernel := p.kernel.raise .tstp } signo .tstp rfl rfl rfl
    cases signo with
    | tstp => exact hsent
    | alrm => exact hsent
  | expire =>
    simp only [Proc.step] at h
    split at h
    · cases h
      have hsent := @total_raise p { p with kernel := { p.kernel.raise .alrm with armed := false } }
        signo .alrm rfl rfl rfl
      cases signo with
      | tstp => exact hsent
      | alrm => exact hsent
    · cases h

/-- The handler prints, and the clock goes off; nothing else does. -/
theorem quiet_step (h : p.step bound timeslice e = some p') (hh : ∀ polls, e ≠ .handler polls)
    (hx : e ≠ .expire) :
    p'.kernel.armed = p.kernel.armed ∧ p'.world.caughtOf signo = p.world.caughtOf signo := by
  cases e with
  | work polls =>
    obtain ⟨-, -, ⟨code, -, rfl⟩ | ⟨-, w', hw, rfl⟩⟩ := work_cases h
    · exact ⟨rfl, caughtOf_finish _⟩
    · exact ⟨rfl, caughtOf_run hw⟩
  | sigpending =>
    simp only [Proc.step] at h
    split at h
    · cases h
      exact ⟨rfl, rfl⟩
    · cases h
  | sigsuspend =>
    simp only [Proc.step] at h
    split at h
    · split at h
      · cases h
        exact ⟨rfl, rfl⟩
      · split at h
        · cases h
          exact ⟨rfl, rfl⟩
        · cases h
          exact ⟨rfl, rfl⟩
    · cases h
  | deliver other =>
    simp only [Proc.step] at h
    split at h
    · cases h
      exact ⟨rfl, rfl⟩
    · cases h
  | handler polls => exact absurd rfl (hh polls)
  | poll polls =>
    simp only [Proc.step] at h
    split at h
    · obtain ⟨w', hw, rfl⟩ := Option.map_eq_some_iff.1 h
      exact ⟨rfl, caughtOf_schedule hw⟩
    · cases h
  | arrive d item =>
    cases h
    exact ⟨rfl, rfl⟩
  | stop =>
    cases h
    exact ⟨rfl, rfl⟩
  | expire => exact absurd rfl hx

/-- The clock runs, or its signal is on the way. -/
def Clock (timeslice : CInt) (p : Proc) : Prop :=
  p.kernel.armed.toNat + p.outstanding .alrm = (decide (timeslice ≠ 0)).toNat

theorem Clock.expire (hc : Clock timeslice p) (hk : Masked p.place p.kernel)
    (h : p.step bound timeslice .expire = some p') :
    Clock timeslice p' ∧ p.kernel.pending .alrm = false := by
  have htotal : p'.total .alrm = p.total .alrm + _ := total_step hk h
  simp only [Proc.step] at h
  split at h
  · rename_i ha
    cases h
    rw [Clock, ha, Proc.outstanding] at hc
    have hle := Bool.toNat_le (decide (timeslice ≠ 0))
    have hpend : p.kernel.pending .alrm = false := by
      cases hp : p.kernel.pending .alrm
      · rfl
      · rw [hp] at hc
        simp only [Bool.toNat_true] at hc
        omega
    refine ⟨?_, hpend⟩
    simp only [Proc.total, Proc.outstanding, hpend, ProcEvent.sends] at htotal
    rw [Clock, ← hc, hpend, Proc.outstanding]
    simp only [Bool.toNat_true, Bool.toNat_false, Bool.not_false, Bool.and_self] at htotal ⊢
    have hw : (⟨p.world, { p.kernel.raise .alrm with armed := false }, p.place⟩ : Proc).world.caughtOf .alrm =
        p.world.caughtOf .alrm := rfl
    omega
  · cases h

theorem Clock.handler (hc : Clock timeslice p)
    (h : p.step bound timeslice (.handler polls) = some p') : Clock timeslice p' := by
  have htotal : p'.total .alrm = p.total .alrm := handler_total h
  simp only [Proc.step] at h
  split at h
  · rename_i other hpl
    obtain ⟨w', hw, rfl⟩ := Option.map_eq_some_iff.1 h
    have hcaught : w'.caughtOf .alrm = p.world.caughtOf .alrm + (decide (other = .alrm)).toNat := by
      rw [caughtOf_schedule hw, caughtOf_sighandler]
    rw [Proc.total, Proc.total, hcaught] at htotal
    rw [Clock] at hc ⊢
    cases other with
    | tstp =>
      have harmed : (p.sighandler timeslice .tstp).kernel.armed = p.kernel.armed := rfl
      rw [harmed]
      simp only [reduceCtorEq, decide_false, Bool.toNat_false] at htotal
      omega
    | alrm =>
      have harmed : (p.sighandler timeslice .alrm).kernel.armed = decide (timeslice ≠ 0) := rfl
      rw [harmed]
      simp only [decide_true, Bool.toNat_true] at htotal
      have hle := Bool.toNat_le (decide (timeslice ≠ 0))
      omega
  · cases h

theorem Clock.step (hc : Clock timeslice p) (hk : Masked p.place p.kernel)
    (h : p.step bound timeslice e = some p') : Clock timeslice p' := by
  by_cases hx : e = .expire
  · subst hx
    exact (hc.expire hk h).1
  · by_cases hh : ∃ polls, e = .handler polls
    · obtain ⟨polls, rfl⟩ := hh
      exact hc.handler h
    · have htotal : p'.total .alrm = p.total .alrm + _ := total_step hk h
      have hquiet : p'.kernel.armed = p.kernel.armed ∧ p'.world.caughtOf .alrm = p.world.caughtOf .alrm :=
        quiet_step h (fun polls he => hh ⟨polls, he⟩) hx
      obtain ⟨harmed, hcaught⟩ := hquiet
      have hsends : e.sends .alrm = false := by
        cases e with
        | expire => exact absurd rfl hx
        | _ => rfl
      rw [Proc.total, Proc.total, hsends, hcaught] at htotal
      rw [Clock] at hc ⊢
      rw [harmed]
      simp only [Bool.false_and, Bool.toNat_false] at htotal
      omega

end

section

variable {bound : Nat} {timeslice : CInt} {heap : Ptr → Tcb} {ths : List Thread} {early : Bool}
  {tr : List (Proc × ProcEvent)} {p : Proc}

theorem clock_run (h : Startable bound ths)
    (hr : Run (Proc.step bound timeslice) (Proc.start bound timeslice heap ths early) tr p) :
    Clock timeslice p := by
  induction hr with
  | nil =>
    show (decide (timeslice ≠ 0)).toNat + _ = _
    simp [Proc.outstanding, Proc.start, Kernel.alarm, Place.handling]
  | snoc hr hs ih =>
    obtain ⟨-, -, -, -, hk, -⟩ := signals_refine h hr
    exact ih.step hk hs

theorem sent_append {signo : Signal} {e : ProcEvent} :
    sent signo (tr ++ [(p, e)]) = sent signo tr + (e.sends signo).toNat := by
  rw [sent, List.countP_append, List.countP_singleton, sent]
  cases e.sends signo with
  | true => rfl
  | false => rfl

/-- Each tick of the clock is caught once, is pending, or is about to be caught; the clock runs unless
a tick is on its way. What is sent from the terminal may be caught less often, but not more often. -/
theorem signals_counted (h : Startable bound ths)
    (hr : Run (Proc.step bound timeslice) (Proc.start bound timeslice heap ths early) tr p) :
    p.world.caughtOf .alrm + p.outstanding .alrm = sent .alrm tr ∧
      p.kernel.armed.toNat + p.outstanding .alrm = (decide (timeslice ≠ 0)).toNat ∧
      p.world.caughtOf .tstp + p.outstanding .tstp ≤ sent .tstp tr + early.toNat := by
  suffices htotal : p.total .alrm = sent .alrm tr ∧ p.total .tstp ≤ sent .tstp tr + early.toNat from
    ⟨htotal.1, clock_run h hr, htotal.2⟩
  induction hr with
  | nil =>
    refine ⟨?_, ?_⟩
    · simp [Proc.total, Proc.outstanding, Proc.start, Kernel.alarm, Place.handling, World.caughtOf,
        World.start, sent]
    · simp [Proc.total, Proc.outstanding, Proc.start, Kernel.alarm, Place.handling, World.caughtOf,
        World.start, sent]
  | @snoc q _ _ e hr hs ih =>
    obtain ⟨-, -, -, -, hk, -⟩ := signals_refine h hr
    obtain ⟨halrm, htstp⟩ := ih
    refine ⟨?_, ?_⟩
    · rw [total_step hk hs, halrm, sent_append]
      cases he : e.sends .alrm with
      | false => rfl
      | true =>
        have hexp : e = .expire := by
          cases e with
          | expire => rfl
          | _ => cases he
        subst hexp
        rw [((clock_run h hr).expire hk hs).2]
        rfl
    · rw [total_step hk hs, sent_append]
      cases e.sends .tstp with
      | false => exact htstp
      | true =>
        have hle := Bool.toNat_le (true && !q.kernel.pending .tstp)
        simp only [Bool.toNat_true]
        omega

end

theorem signals_counted_pair :
    (pairAfter pairSignals).world.caughtOf .alrm + (pairAfter pairSignals).outstanding .alrm =
        sent .alrm (traceOf (Proc.step 2 5) pairProc pairSignals) ∧
      (pairAfter pairSignals).kernel.armed.toNat + (pairAfter pairSignals).outstanding .alrm =
        (decide ((5 : CInt) ≠ 0)).toNat ∧
      (pairAfter pairSignals).world.caughtOf .tstp + (pairAfter pairSignals).outstanding .tstp ≤
        sent .tstp (traceOf (Proc.step 2 5) pairProc pairSignals) + false.toNat :=
  signals_counted pair_startable (pair_run rfl)

end SysProg.Threads
