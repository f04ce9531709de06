import Mathlib.Data.List.Basic

/-!
# SysProg.Runs

Runs of a labelled transition system, given as a partial step function `step : σ → ε → Option σ`
(`none`: the step is not enabled).

* `Run step s tr s'`: the steps of the trace `tr` lead from `s` to `s'`. The trace keeps each label
  together with the state it was taken in, so a condition on steps can look at both.
* `Reachable step s s'`: some run leads from `s` to `s'`.
* `Run.invariant`: what every step preserves holds at the end of every run.
* `Run.forall_iff`: when, from a good state, a step ends in a good state exactly if it meets a
  condition, then all states of a run are good exactly if all its steps meet the condition.
* `Run.simulated`: a relation to another system that every step can keep up with.
* `runEvents`: the executable form, for concrete runs.
* `runEvents_rel`: two systems whose steps keep a relation keep it in their runs.
-/

namespace SysProg

variable {σ ε : Type*} {step : σ → ε → Option σ}

inductive Run (step : σ → ε → Option σ) : σ → List (σ × ε) → σ → Prop where
  | nil {s : σ} : Run step s [] s
  | snoc {s s' s'' : σ} {tr : List (σ × ε)} {e : ε} :
      Run step s tr s' → step s' e = some s'' → Run step s (tr ++ [(s', e)]) s''

def Reachable (step : σ → ε → Option σ) (s s' : σ) : Prop := ∃ tr, Run step s tr s'

theorem Reachable.refl {s : σ} : Reachable step s s := ⟨[], .nil⟩

theorem Reachable.tail {s s' s'' : σ} {e : ε} (h : Reachable step s s')
    (he : step s' e = some s'') : Reachable step s s'' := by
  obtain ⟨tr, hr⟩ := h
  exact ⟨_, hr.snoc he⟩

theorem Run.trans {s s' s'' : σ} {tr tr' : List (σ × ε)} (h : Run step s tr s')
    (h' : Run step s' tr' s'') : Run step s (tr ++ tr') s'' := by
  induction h' with
  | nil => simpa using h
  | snoc _ hs ih => rw [← List.append_assoc]; exact ih.snoc hs

theorem Run.eq_of_nil {s s' : σ} (h : Run step s [] s') : s' = s := by
  generalize hl : [] = l at h
  cases h with
  | nil => rfl
  | snoc _ _ => simp at hl

theorem Run.last {s s' : σ} {tr : List (σ × ε)} {x : σ × ε} (h : Run step s (tr ++ [x]) s') :
    Run step s tr x.1 ∧ step x.1 x.2 = some s' := by
  generalize hl : tr ++ [x] = l at h
  cases h with
  | nil => simp at hl
  | snoc hr hs =>
    obtain ⟨rfl, hx⟩ := List.append_inj' hl rfl
    cases hx
    exact ⟨hr, hs⟩

theorem Run.invariant {I : σ → Prop} (hI : ∀ s e s', I s → step s e = some s' → I s')
    {s s' : σ} {tr : List (σ × ε)} (h : Run step s tr s') (h0 : I s) : I s' := by
  induction h with
  | nil => exact h0
  | snoc _ hs ih => exact hI _ _ _ ih hs

theorem Reachable.invariant {I : σ → Prop} (hI : ∀ s e s', I s → step s e = some s' → I s')
    {s s' : σ} (h : Reachable step s s') (h0 : I s) : I s' := by
  obtain ⟨tr, hr⟩ := h
  exact hr.invariant hI h0

/-- Every step of the trace was taken in a state where `C` allows it. -/
def Meets (C : σ → ε → Prop) (tr : List (σ × ε)) : Prop := ∀ x ∈ tr, C x.1 x.2

instance (C : σ → ε → Prop) [∀ s e, Decidable (C s e)] (tr : List (σ × ε)) :
    Decidable (Meets C tr) :=
  inferInstanceAs (Decidable (∀ x ∈ tr, C x.1 x.2))

/-- Every state of the run (those the steps were taken in, and the last one) satisfies `P`. -/
def Always (P : σ → Prop) (tr : List (σ × ε)) (s' : σ) : Prop := (∀ x ∈ tr, P x.1) ∧ P s'

theorem meets_snoc {C : σ → ε → Prop} {tr : List (σ × ε)} {s : σ} {e : ε} :
    Meets C (tr ++ [(s, e)]) ↔ Meets C tr ∧ C s e := by
  simp only [Meets, List.mem_append, List.mem_singleton]
  constructor
  · intro h; exact ⟨fun x hx => h x (.inl hx), h (s, e) (.inr rfl)⟩
  · rintro ⟨h, hs⟩ x (hx | rfl)
    · exact h x hx
    · exact hs

theorem always_snoc {P : σ → Prop} {tr : List (σ × ε)} {s s' : σ} {e : ε} :
    Always P (tr ++ [(s, e)]) s' ↔ Always P tr s ∧ P s' := by
  simp only [Always, List.mem_append, List.mem_singleton]
  constructor
  · rintro ⟨h, hs'⟩
    exact ⟨⟨fun x hx => h x (.inl hx), h (s, e) (.inr rfl)⟩, hs'⟩
  · rintro ⟨⟨h, hs⟩, hs'⟩
    refine ⟨?_, hs'⟩
    rintro x (hx | rfl)
    · exact h x hx
    · exact hs

theorem Run.always_start {P : σ → Prop} {s s' : σ} {tr : List (σ × ε)} (h : Run step s tr s')
    (ha : Always P tr s') : P s := by
  induction h with
  | nil => exact ha.2
  | snoc _ _ ih => exact ih (always_snoc.1 ha).1

/-- Invariants that only steps meeting `C` preserve. -/
theorem Run.invariant_of_meets {I : σ → Prop} {C : σ → ε → Prop}
    (hI : ∀ s e s', I s → C s e → step s e = some s' → I s') {s s' : σ} {tr : List (σ × ε)}
    (h : Run step s tr s') (h0 : I s) (hC : Meets C tr) : Always I tr s' := by
  induction h with
  | nil => exact ⟨by simp, h0⟩
  | snoc _ hs ih =>
    obtain ⟨hC, hc⟩ := meets_snoc.1 hC
    have ih := ih hC
    exact always_snoc.2 ⟨ih, hI _ _ _ ih.2 hc hs⟩

/-- `J` holds throughout whatever the steps do; `P` is the property of interest. -/
theorem Run.forall_iff {J P : σ → Prop} {C : σ → ε → Prop}
    (hJ : ∀ s e s', J s → step s e = some s' → J s')
    (hP : ∀ s e s', J s → P s → step s e = some s' → (P s' ↔ C s e))
    {s s' : σ} {tr : List (σ × ε)} (h : Run step s tr s') (hJ0 : J s) (hP0 : P s) :
    Always P tr s' ↔ Meets C tr := by
  induction h with
  | nil => simp [Always, Meets, hP0]
  | snoc hr hs ih =>
    rw [always_snoc, meets_snoc, ← ih]
    constructor
    · rintro ⟨ha, hp⟩; exact ⟨ha, (hP _ _ _ (hr.invariant hJ hJ0) ha.2 hs).1 hp⟩
    · rintro ⟨ha, hc⟩; exact ⟨ha, (hP _ _ _ (hr.invariant hJ hJ0) ha.2 hs).2 hc⟩

/-- When every step from related states can be followed by some steps of another system, each run has
a run of the other system beside it, and so has each part of it up to one of its steps. The relation
may look at what has happened in both. -/
theorem Run.simulated {σ' ε' : Type*} {step' : σ' → ε' → Option σ'} {C : σ → ε → Prop}
    {R : List (σ × ε) → σ → List (σ' × ε') → σ' → Prop} {s0 : σ} {t0 : σ'}
    (hR : ∀ tr s e s' tr' t, Run step s0 tr s → Meets C tr → R tr s tr' t → C s e →
      step s e = some s' → ∃ more t', Run step' t more t' ∧ R (tr ++ [(s, e)]) s' (tr' ++ more) t')
    {s : σ} {tr : List (σ × ε)} (h : Run step s0 tr s) (h0 : R [] s0 [] t0) (hC : Meets C tr) :
    ∃ tr' t, Run step' t0 tr' t ∧ R tr s tr' t ∧ ∀ tr1 x tr2, tr = tr1 ++ x :: tr2 →
      ∃ tr1' t1 tr2', tr' = tr1' ++ tr2' ∧ Run step' t0 tr1' t1 ∧ R tr1 x.1 tr1' t1 := by
  induction h with
  | nil => exact ⟨[], t0, .nil, h0, by simp⟩
  | snoc hr hs ih =>
    obtain ⟨hC, hc⟩ := meets_snoc.1 hC
    obtain ⟨tr', t, hr', hrel, hpre⟩ := ih hC
    obtain ⟨more, t', hmore, hrel'⟩ := hR _ _ _ _ _ _ hr hC hrel hc hs
    refine ⟨_, t', hr'.trans hmore, hrel', fun tr1 x tr2 heq => ?_⟩
    rcases List.eq_nil_or_concat' tr2 with rfl | ⟨tr2, y, rfl⟩
    · obtain ⟨rfl, hx⟩ := List.append_inj' heq rfl
      cases hx
      exact ⟨tr', t, more, rfl, hr', hrel⟩
    · rw [← List.cons_append, ← List.append_assoc] at heq
      obtain ⟨heq, -⟩ := List.append_inj' heq rfl
      obtain ⟨tr1', t1, tr2', rfl, h1, hrel1⟩ := hpre tr1 x tr2 heq
      exact ⟨tr1', t1, tr2' ++ more, by simp, h1, hrel1⟩

/-- Runs the events from left to right; `none` when one of them is not enabled. -/
def runEvents (step : σ → ε → Option σ) : σ → List ε → Option σ
  | s, [] => some s
  | s, e :: es => (step s e).bind fun s' => runEvents step s' es

/-- The trace of the events, as far as they are enabled. -/
def traceOf (step : σ → ε → Option σ) : σ → List ε → List (σ × ε)
  | _, [] => []
  | s, e :: es =>
    match step s e with
    | none => []
    | some s' => (s, e) :: traceOf step s' es

theorem run_traceOf {es : List ε} :
    ∀ {s s' : σ}, runEvents step s es = some s' → Run step s (traceOf step s es) s' := by
  induction es with
  | nil => intro s s' h; simp only [runEvents] at h; cases h; exact .nil
  | cons e es ih =>
    intro s s' h
    simp only [runEvents, Option.bind_eq_some_iff] at h
    obtain ⟨s1, h1, h2⟩ := h
    have hone : Run step s [(s, e)] s1 := Run.snoc .nil h1
    simpa [traceOf, h1] using hone.trans (ih h2)

theorem mem_traceOf {es : List ε} :
    ∀ {s : σ}, ∀ x ∈ traceOf step s es, x.2 ∈ es := by
  induction es with
  | nil => nofun
  | cons e es ih =>
    intro s x hx
    rw [traceOf] at hx
    cases hs : step s e with
    | none =>
      rw [hs] at hx
      cases hx
    | some s' =>
      rw [hs] at hx
      rcases List.mem_cons.1 hx with rfl | hx
      · exact List.mem_cons_self
      · exact List.mem_cons_of_mem _ (ih x hx)

theorem reachable_runEvents {es : List ε} {s s' : σ} (h : runEvents step s es = some s') :
    Reachable step s s' := ⟨_, run_traceOf h⟩

theorem eq_some_getD {α : Type*} {o : Option α} (h : o.isSome = true) (d : α) :
    o = some (o.getD d) := by
  obtain ⟨a, rfl⟩ := Option.isSome_iff_exists.1 h
  rfl

theorem run_getD {es : List ε} {s : σ} (h : (runEvents step s es).isSome = true) :
    Run step s (traceOf step s es) ((runEvents step s es).getD s) :=
  run_traceOf (eq_some_getD h s)

theorem runEvents_rel {σ' : Type*} {step' : σ' → ε → Option σ'} {R : σ → σ' → Prop}
    (hR : ∀ s s' e, R s s' → Option.Rel R (step s e) (step' s' e)) {es : List ε} :
    ∀ {s : σ} {s' : σ'}, R s s' → Option.Rel R (runEvents step s es) (runEvents step' s' es) := by
  induction es with
  | nil => exact fun h => .some h
  | cons e es ih =>
    intro s s' h
    have hstep := hR s s' e h
    rw [runEvents, runEvents]
    cases hs : step s e with
    | none =>
      rw [hs] at hstep
      cases hs' : step' s' e with
      | none => exact .none
      | some t' => rw [hs'] at hstep; cases hstep
    | some t =>
      rw [hs] at hstep
      cases hs' : step' s' e with
      | none => rw [hs'] at hstep; cases hstep
      | some t' =>
        rw [hs'] at hstep
        cases hstep with
        | some ht => exact ih ht

end SysProg
