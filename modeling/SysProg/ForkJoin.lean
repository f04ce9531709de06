import Mathlib.Data.Set.BooleanAlgebra
import Mathlib.Data.Set.Piecewise
import Mathlib.Logic.Relation
import Mathlib.Order.CompletePartialOrder

/-!
# SysProg.ForkJoin

Programs that fork and join over one shared memory, and when their result does not depend on how
the parts interleave.

* `Prog`: reads and writes of single cells, failure (`assert`), and `par p q k`, which runs `p`
  and `q` side by side and goes on with `k` when both are done.
* `Step`, `Steps`: one cell access of any active part at a time. `exec` is the sequential reading,
  in which `par` runs its first part to the end before the second.
* `Safe A p m`: started in `m`, `p` reads and writes cells of `A` only, and parts that run side by
  side use disjoint sets of cells. A read outside `A` is allowed if nothing depends on its value.
* `Steps.exec_eq`, `terminates`, `Step.exists_of_exec`: a safe program has one result, under every
  interleaving, and every interleaving reaches it.
* `Correct`: what is to be shown of a program, over all its interleavings.
* `Leads`: the rule to derive all of this, with an invariant for every state in between, along
  the text of a program written in continuation-passing style.
* `Uses`: the cells a program uses whatever the memory holds, failure included. `Uses.safe` makes it
  safe, so every interleaving `Computes` the sequential result, and parts with disjoint cells can be
  run in either order (`exec_comm`).
-/

namespace SysProg.ForkJoin

universe u v

variable {L : Type u} {V : L → Type v}

inductive Prog (L : Type u) (V : L → Type v) : Type (max u v) where
  | done
  | fail
  | read (l : L) (k : V l → Prog L V)
  | write (l : L) (v : V l) (k : Prog L V)
  | par (p q k : Prog L V)

abbrev Mem (V : L → Type v) := (l : L) → V l

def exec [DecidableEq L] : Prog L V → Mem V → Option (Mem V)
  | .done, m => some m
  | .fail, _ => none
  | .read l k, m => exec (k (m l)) m
  | .write l v k, m => exec k (Function.update m l v)
  | .par p q k, m => ((exec p m).bind (exec q)).bind (exec k)

inductive Step [DecidableEq L] : Prog L V → Mem V → Prog L V → Mem V → Prop where
  | read {l k m} : Step (.read l k) m (k (m l)) m
  | write {l v k m} : Step (.write l v k) m k (Function.update m l v)
  | left {p p' q k m m'} : Step p m p' m' → Step (.par p q k) m (.par p' q k) m'
  | right {p q q' k m m'} : Step q m q' m' → Step (.par p q k) m (.par p q' k) m'
  | join {k m} : Step (.par .done .done k) m k m

inductive Steps [DecidableEq L] : Prog L V → Mem V → Prog L V → Mem V → Prop where
  | refl {p m} : Steps p m p m
  | tail {p m p' m' p'' m''} : Steps p m p' m' → Step p' m' p'' m'' → Steps p m p'' m''

/-- Some active part of the program has failed. -/
inductive Failing : Prog L V → Prop where
  | fail : Failing .fail
  | left {p q k} : Failing p → Failing (.par p q k)
  | right {p q k} : Failing q → Failing (.par p q k)

def Safe [DecidableEq L] : Prog L V → Set L → Mem V → Prop
  | .done, _, _ => True
  | .fail, _, _ => True
  | .read l k, A, m => (l ∈ A ∨ ∀ v w, k v = k w) ∧ Safe (k (m l)) A m
  | .write l v k, A, m => l ∈ A ∧ Safe k A (Function.update m l v)
  | .par p q k, A, m => ∃ B C, Disjoint B C ∧ B ⊆ A ∧ C ⊆ A ∧ Safe p B m ∧ Safe q C m ∧
      ∀ m₁ m₂, exec p m = some m₁ → exec q m₁ = some m₂ → Safe k A m₂

section Overlay

variable {A : Set L} {m : Mem V}

open Classical in
/-- The cells of `A` from `f`, all others from `m`. -/
noncomputable def overlay (A : Set L) (f m : Mem V) : Mem V := A.piecewise f m

theorem overlay_mem {f : Mem V} {l : L} (h : l ∈ A) : overlay A f m l = f l := by
  simp [overlay, h]

theorem overlay_notMem {f : Mem V} {l : L} (h : l ∉ A) : overlay A f m l = m l := by
  simp [overlay, h]

theorem overlay_self : overlay A m m = m := by
  simp [overlay]

theorem overlay_eq {f g : Mem V} (h₁ : ∀ l ∈ A, f l = g l) (h₂ : ∀ l ∉ A, m l = g l) :
    overlay A f m = g := by
  funext l
  by_cases h : l ∈ A
  · rw [overlay_mem h, h₁ l h]
  · rw [overlay_notMem h, h₂ l h]

end Overlay

variable [DecidableEq L] {p p' q q' k : Prog L V} {A B C : Set L} {m m' m₁ m₂ : Mem V}

/-! ## A safe program depends on its own cells only -/

theorem safe_exec_local : ∀ {p : Prog L V} {A : Set L} {m m' : Mem V}, Safe p A m →
    (∀ l ∈ A, m' l = m l) →
    Safe p A m' ∧ exec p m' = (exec p m).map fun f => overlay A f m' := by
  intro p
  induction p with
  | done =>
    intro A m m' _ hm
    refine ⟨trivial, ?_⟩
    rw [exec, exec, Option.map_some, overlay_eq (fun l h => (hm l h).symm) (fun _ _ => rfl)]
  | fail => intro A m m' _ _; exact ⟨trivial, rfl⟩
  | read l k ih =>
    intro A m m' h hm
    obtain ⟨hl, hs⟩ := h
    have hk : k (m' l) = k (m l) := by
      cases hl with
      | inl hl => rw [hm l hl]
      | inr hl => exact hl _ _
    obtain ⟨h1, h2⟩ := ih (m l) hs hm
    exact ⟨⟨hl, by rw [hk]; exact h1⟩, by rw [exec, exec, hk]; exact h2⟩
  | write l v k ih =>
    intro A m m' h hm
    obtain ⟨hl, hs⟩ := h
    have hm' : ∀ i ∈ A, Function.update m' l v i = Function.update m l v i := by
      intro i hi
      by_cases e : i = l
      · subst e; simp
      · rw [Function.update_of_ne e, Function.update_of_ne e, hm i hi]
    obtain ⟨h1, h2⟩ := ih hs hm'
    refine ⟨⟨hl, h1⟩, ?_⟩
    rw [exec, exec, h2]
    congr 1
    funext f
    refine overlay_eq (fun i hi => (overlay_mem hi).symm) fun i hi => ?_
    have e : i ≠ l := fun e => hi (by rw [e]; exact hl)
    rw [overlay_notMem hi, Function.update_of_ne e]
  | par p q k ihp ihq ihk =>
    intro A m m' h hm
    obtain ⟨B, C, hBC, hB, hC, hp, hq, hk⟩ := h
    have hmB : ∀ l ∈ B, m' l = m l := fun l hl => hm l (hB hl)
    have hmC : ∀ l ∈ C, m' l = m l := fun l hl => hm l (hC hl)
    obtain ⟨hp', ep'⟩ := ihp hp hmB
    obtain ⟨hq', -⟩ := ihq hq hmC
    obtain ⟨-, ep⟩ := ihp hp (fun l _ => rfl)
    cases e1 : exec p m with
    | none =>
      rw [e1] at ep'
      refine ⟨⟨B, C, hBC, hB, hC, hp', hq', ?_⟩, by simp [exec, e1, ep']⟩
      intro m₁ m₂ he; rw [ep'] at he; cases he
    | some m1 =>
      rw [e1] at ep' ep
      simp only [Option.map_some, Option.some.injEq] at ep' ep
      have hfr : ∀ l ∉ B, m1 l = m l := fun l hl => by rw [ep, overlay_notMem hl]
      have hne : ∀ l ∈ C, l ∉ B := fun l hl hl' => hBC.le_bot ⟨hl', hl⟩
      obtain ⟨-, eq1⟩ := ihq hq (fun l hl => hfr l (hne l hl))
      have hag2 : ∀ l ∈ C, overlay B m1 m' l = m l :=
        fun l hl => (overlay_notMem (hne l hl)).trans (hmC l hl)
      obtain ⟨-, eq2⟩ := ihq hq hag2
      cases e2 : exec q m with
      | none =>
        rw [e2] at eq1 eq2
        refine ⟨⟨B, C, hBC, hB, hC, hp', hq', ?_⟩, by simp [exec, e1, ep', eq1, eq2]⟩
        intro m₁ m₂ he he2
        rw [ep'] at he
        cases he
        rw [eq2] at he2
        cases he2
      | some g =>
        rw [e2] at eq1 eq2
        simp only [Option.map_some] at eq1 eq2
        have hag : ∀ l ∈ A, overlay C g (overlay B m1 m') l = overlay C g m1 l := by
          intro l hl
          by_cases hlC : l ∈ C
          · rw [overlay_mem hlC, overlay_mem hlC]
          · rw [overlay_notMem hlC, overlay_notMem hlC]
            by_cases hlB : l ∈ B
            · rw [overlay_mem hlB]
            · rw [overlay_notMem hlB, hm l hl, hfr l hlB]
        obtain ⟨hk', ek⟩ := ihk (hk _ _ e1 eq1) hag
        refine ⟨⟨B, C, hBC, hB, hC, hp', hq', ?_⟩, ?_⟩
        · intro m₁ m₂ he he2
          rw [ep'] at he
          cases he
          rw [eq2] at he2
          cases he2
          exact hk'
        · simp only [exec, e1, ep', Option.bind_some, eq1, eq2, ek]
          congr 1
          funext f
          refine overlay_eq (fun l hl => (overlay_mem hl).symm) fun l hl => ?_
          rw [overlay_notMem hl, overlay_notMem (fun h => hl (hC h)),
            overlay_notMem (fun h => hl (hB h))]

theorem Safe.congr (h : Safe p A m) (hm : ∀ l ∈ A, m' l = m l) : Safe p A m' :=
  (safe_exec_local h hm).1

theorem Safe.exec_congr (h : Safe p A m) (hm : ∀ l ∈ A, m' l = m l) :
    exec p m' = (exec p m).map fun f => overlay A f m' := (safe_exec_local h hm).2

/-- Cells outside the footprint are left alone. -/
theorem Safe.frame (h : Safe p A m) (he : exec p m = some m') : ∀ l ∉ A, m' l = m l := by
  intro l hl
  have := h.exec_congr fun l _ => (rfl : m l = m l)
  rw [he, Option.map_some, Option.some.injEq] at this
  rw [this, overlay_notMem hl]

theorem Safe.mono (h : Safe p A m) (hA : A ⊆ B) : Safe p B m := by
  induction p generalizing A B m with
  | done => trivial
  | fail => trivial
  | read l k ih => exact ⟨h.1.imp_left (@hA l), ih _ h.2 hA⟩
  | write l v k ih => exact ⟨hA h.1, ih h.2 hA⟩
  | par p q k _ _ ihk =>
    obtain ⟨C, D, hCD, hC, hD, hp, hq, hk⟩ := h
    exact ⟨C, D, hCD, hC.trans hA, hD.trans hA, hp, hq, fun m₁ m₂ h1 h2 => ihk (hk m₁ m₂ h1 h2) hA⟩

/-- The second part of a `par`, run alone from the start or after the first part. -/
theorem exec_after (hBC : Disjoint B C) (hp : Safe p B m) (hq : Safe q C m)
    (he : exec p m = some m₁) : exec q m₁ = (exec q m).map fun g => overlay C g m₁ :=
  hq.exec_congr fun l hl => hp.frame he l fun hl' => hBC.le_bot ⟨hl', hl⟩

/-! ## Steps of a safe program -/

theorem Step.safe (h : Step p m p' m') : ∀ {A : Set L}, Safe p A m →
    Safe p' A m' ∧ exec p' m' = exec p m ∧ (∀ l ∉ A, m' l = m l) ∧
      ∀ m₀ : Mem V, (∀ l ∈ A, m₀ l = m l) → Step p m₀ p' (overlay A m' m₀) := by
  induction h with
  | @read l k m =>
    intro A hs
    refine ⟨hs.2, rfl, fun _ _ => rfl, fun m₀ hm => ?_⟩
    have hk : k (m l) = k (m₀ l) := by
      cases hs.1 with
      | inl hl => rw [hm l hl]
      | inr hl => exact hl _ _
    rw [overlay_eq (g := m₀) (fun l hl => (hm l hl).symm) (fun _ _ => rfl), hk]
    exact .read
  | @write l v k m =>
    intro A hs
    refine ⟨hs.2, rfl, fun i hi => ?_, fun m₀ hm => ?_⟩
    · have e : i ≠ l := fun e => hi (by rw [e]; exact hs.1)
      exact Function.update_of_ne e _ _
    · have : overlay A (Function.update m l v) m₀ = Function.update m₀ l v := by
        refine overlay_eq (fun i hi => ?_) fun i hi => ?_
        · by_cases e : i = l
          · subst e; simp
          · rw [Function.update_of_ne e, Function.update_of_ne e, hm i hi]
        · have e : i ≠ l := fun e => hi (by rw [e]; exact hs.1)
          rw [Function.update_of_ne e]
      rw [this]
      exact .write
  | @left p p' q k m m' h ih =>
    intro A hs
    obtain ⟨B, C, hBC, hB, hC, hp, hq, hk⟩ := hs
    obtain ⟨hp', he, hfr, hloc⟩ := ih hp
    have hqm : ∀ l ∈ C, m' l = m l := fun l hl => hfr l fun hl' => hBC.le_bot ⟨hl', hl⟩
    refine ⟨⟨B, C, hBC, hB, hC, hp', hq.congr hqm, ?_⟩, by rw [exec, exec, he],
      fun l hl => hfr l fun hl' => hl (hB hl'), fun m₀ hm => ?_⟩
    · intro m₁ m₂ h1 h2; exact hk m₁ m₂ (he ▸ h1) h2
    · have : overlay A m' m₀ = overlay B m' m₀ := by
        refine overlay_eq (fun l hl => ?_) fun l hl => ?_
        · by_cases hl' : l ∈ B
          · rw [overlay_mem hl']
          · rw [overlay_notMem hl', hfr l hl', hm l hl]
        · rw [overlay_notMem fun hl' => hl (hB hl')]
      rw [this]
      exact .left (hloc m₀ fun l hl => hm l (hB hl))
  | @right p q q' k m m' h ih =>
    intro A hs
    obtain ⟨B, C, hBC, hB, hC, hp, hq, hk⟩ := hs
    obtain ⟨hq', he, hfr, hloc⟩ := ih hq
    have hpm : ∀ l ∈ B, m' l = m l := fun l hl => hfr l fun hl' => hBC.le_bot ⟨hl, hl'⟩
    have hexec : ((exec p m').bind (exec q')) = (exec p m).bind (exec q) := by
      have ep := hp.exec_congr hpm
      cases e1 : exec p m with
      | none => rw [e1] at ep; simp [ep]
      | some m1 =>
        rw [e1, Option.map_some] at ep
        have ha := exec_after hBC hp hq e1
        have hb := exec_after hBC (hp.congr hpm) hq' ep
        rw [ep, Option.bind_some, Option.bind_some, hb, he, ha]
        cases e2 : exec q m with
        | none => rfl
        | some g =>
          simp only [Option.map_some, Option.some.injEq]
          refine overlay_eq (fun l hl => by rw [overlay_mem hl]) fun l hl => ?_
          rw [overlay_notMem hl]
          by_cases hl' : l ∈ B
          · rw [overlay_mem hl']
          · rw [overlay_notMem hl', hfr l hl, hp.frame e1 l hl']
    refine ⟨⟨B, C, hBC, hB, hC, hp.congr hpm, hq', ?_⟩, by rw [exec, exec, hexec],
      fun l hl => hfr l fun hl' => hl (hC hl'), fun m₀ hm => ?_⟩
    · intro m₁ m₂ h1 h2
      have : (exec p m).bind (exec q) = some m₂ := by rw [← hexec, h1, Option.bind_some, h2]
      obtain ⟨n₁, hn, hn'⟩ := Option.bind_eq_some_iff.1 this
      exact hk n₁ m₂ hn hn'
    · have : overlay A m' m₀ = overlay C m' m₀ := by
        refine overlay_eq (fun l hl => ?_) fun l hl => ?_
        · by_cases hl' : l ∈ C
          · rw [overlay_mem hl']
          · rw [overlay_notMem hl', hfr l hl', hm l hl]
        · rw [overlay_notMem fun hl' => hl (hC hl')]
      rw [this]
      exact .right (hloc m₀ fun l hl => hm l (hC hl))
  | @join k m =>
    intro A hs
    obtain ⟨B, C, -, -, -, -, -, hk⟩ := hs
    refine ⟨hk m m rfl rfl, rfl, fun _ _ => rfl, fun m₀ hm => ?_⟩
    rw [overlay_eq (g := m₀) (fun l hl => (hm l hl).symm) (fun _ _ => rfl)]
    exact .join

theorem Steps.safe (h : Steps p m p' m') (hs : Safe p A m) : Safe p' A m' := by
  induction h with
  | refl => exact hs
  | tail _ h ih => exact (h.safe ih).1

/-- Whatever the interleaving has done so far, the sequential result is still ahead. -/
theorem Steps.exec_eq (h : Steps p m p' m') (hs : Safe p A m) : exec p' m' = exec p m := by
  induction h with
  | refl => rfl
  | tail h h' ih => rw [← ih]; exact (h'.safe (h.safe hs)).2.1

theorem Steps.frame (h : Steps p m p' m') (hs : Safe p A m) : ∀ l ∉ A, m' l = m l := by
  induction h with
  | refl => exact fun _ _ => rfl
  | tail h h' ih =>
    intro l hl
    rw [(h'.safe (h.safe hs)).2.2.1 l hl, ih l hl]

/-- A program with a sequential result can always go on until it is done. -/
theorem Step.exists_of_exec : ∀ {p : Prog L V} {m f : Mem V}, exec p m = some f → p ≠ .done →
    ∃ p' m', Step p m p' m' := by
  intro p
  induction p with
  | done => intro m f _ h; exact absurd rfl h
  | fail => intro m f h; cases h
  | read l k => intro m f _ _; exact ⟨_, _, .read⟩
  | write l v k => intro m f _ _; exact ⟨_, _, .write⟩
  | par p q k ihp ihq _ =>
    intro m f h _
    obtain ⟨m₂, h, -⟩ := Option.bind_eq_some_iff.1 h
    obtain ⟨m₁, h1, h2⟩ := Option.bind_eq_some_iff.1 h
    by_cases hp : p = .done
    · subst hp
      cases h1
      by_cases hq : q = .done
      · subst hq; exact ⟨_, _, .join⟩
      · obtain ⟨q', m', h'⟩ := ihq h2 hq
        exact ⟨_, _, .right h'⟩
    · obtain ⟨p', m', h'⟩ := ihp h1 hp
      exact ⟨_, _, .left h'⟩

theorem Failing.exec_eq (h : Failing p) : ∀ m : Mem V, exec p m = none := by
  induction h with
  | fail => exact fun _ => rfl
  | left _ ih => intro m; simp [exec, ih m]
  | @right p q k _ ih =>
    intro m
    cases h : exec p m with
    | none => simp [exec, h]
    | some m₁ => simp [exec, h, ih m₁]

/-- No program has an infinite run: each step leaves a smaller program. -/
theorem terminates (p : Prog L V) : Acc (fun a b => ∃ m m', Step b m a m') p := by
  induction p with
  | done => exact ⟨_, by rintro a ⟨_, _, h⟩; cases h⟩
  | fail => exact ⟨_, by rintro a ⟨_, _, h⟩; cases h⟩
  | read l k ih => exact ⟨_, by rintro a ⟨_, _, h⟩; cases h; exact ih _⟩
  | write l v k ih => exact ⟨_, by rintro a ⟨_, _, h⟩; cases h; exact ih⟩
  | par p q k ihp ihq ihk =>
    induction ihp generalizing q with
    | intro p _ ihp' =>
      induction ihq with
      | intro q hq ihq' =>
        refine ⟨_, ?_⟩
        rintro a ⟨m, m', h⟩
        cases h with
        | left h => exact ihp' _ ⟨m, m', h⟩ q ⟨q, hq⟩
        | right h => exact ihq' _ ⟨m, m', h⟩
        | join => exact ihk

/-! ## Interleavings of two parts -/

/-- A run of `par p q k` is a run of `p` and a run of `q`, each as if it were alone, until both are
done; then it is a run of `k`. -/
theorem Steps.par_cases {s : Prog L V} (h : Steps (.par p q k) m s m') (hBC : Disjoint B C)
    (hp : Safe p B m) (hq : Safe q C m) :
    ∃ mp mq, (∃ p' q', s = .par p' q' k ∧ Steps p m p' mp ∧ Steps q m q' mq ∧
        m' = overlay B mp (overlay C mq m)) ∨
      (Steps p m .done mp ∧ Steps q m .done mq ∧ Steps k (overlay B mp (overlay C mq m)) s m') := by
  induction h with
  | refl =>
    exact ⟨_, _, .inl ⟨p, q, rfl, .refl, .refl, by rw [overlay_self, overlay_self]⟩⟩
  | @tail s' m' s'' m'' _ h ih =>
    obtain ⟨mp, mq, hc⟩ := ih
    cases hc with
    | inr hc => exact ⟨mp, mq, .inr ⟨hc.1, hc.2.1, hc.2.2.tail h⟩⟩
    | inl hc =>
      obtain ⟨p', q', rfl, hsp, hsq, rfl⟩ := hc
      have hne : ∀ l ∈ C, l ∉ B := fun l hl hl' => hBC.le_bot ⟨hl', hl⟩
      have hmp : ∀ l ∈ B, overlay B mp (overlay C mq m) l = mp l := fun l hl => overlay_mem hl
      have hmq : ∀ l ∈ C, overlay B mp (overlay C mq m) l = mq l := fun l hl => by
        rw [overlay_notMem (hne l hl), overlay_mem hl]
      cases h with
      | left h =>
        obtain ⟨-, -, hfr, hloc⟩ := h.safe ((hsp.safe hp).congr hmp)
        refine ⟨_, mq, .inl ⟨_, _, rfl, hsp.tail (hloc mp fun l hl => (hmp l hl).symm), hsq, ?_⟩⟩
        refine (overlay_eq (fun l hl => overlay_mem hl) fun l hl => ?_).symm
        rw [hfr l hl, overlay_notMem hl]
      | right h =>
        obtain ⟨-, -, hfr, hloc⟩ := h.safe ((hsq.safe hq).congr hmq)
        refine ⟨mp, _, .inl ⟨_, _, rfl, hsp, hsq.tail (hloc mq fun l hl => (hmq l hl).symm), ?_⟩⟩
        refine (overlay_eq (fun l hl => ?_) fun l hl => ?_).symm
        · rw [hfr l fun hl' => hne l hl' hl, overlay_mem hl]
        · by_cases hl' : l ∈ C
          · rw [overlay_mem hl', overlay_mem hl']
          · rw [overlay_notMem hl', hfr l hl', overlay_notMem hl, overlay_notMem hl']
      | join => exact ⟨mp, mq, .inr ⟨hsp, hsq, .refl⟩⟩

theorem Steps.trans {p'' : Prog L V} {m'' : Mem V} (h : Steps p m p' m')
    (h' : Steps p' m' p'' m'') : Steps p m p'' m'' := by
  induction h' with
  | refl => exact h
  | tail _ h' ih => exact ih.tail h'

theorem Steps.single (h : Step p m p' m') : Steps p m p' m' := .tail .refl h

theorem Steps.left (h : Steps p m p' m') : Steps (.par p q k) m (.par p' q k) m' := by
  induction h with
  | refl => exact .refl
  | tail _ h ih => exact ih.tail (.left h)

theorem Steps.right (h : Steps q m q' m') : Steps (.par p q k) m (.par p q' k) m' := by
  induction h with
  | refl => exact .refl
  | tail _ h ih => exact ih.tail (.right h)

theorem Steps.local (h : Steps p m p' m') (hs : Safe p A m) {m₀ : Mem V}
    (hm : ∀ l ∈ A, m₀ l = m l) : Steps p m₀ p' (overlay A m' m₀) := by
  induction h with
  | refl => rw [overlay_eq (g := m₀) (fun l hl => (hm l hl).symm) (fun _ _ => rfl)]; exact .refl
  | @tail p' m' p'' m'' h h' ih =>
    have := (h'.safe (h.safe hs)).2.2.2 (overlay A m' m₀) fun l hl => overlay_mem hl
    have e : overlay A m'' (overlay A m' m₀) = overlay A m'' m₀ :=
      overlay_eq (fun l hl => (overlay_mem hl).symm) fun l hl => by
        rw [overlay_notMem hl, overlay_notMem hl]
    rw [e] at this
    exact ih.tail this

/-- `J` holds in every state of every run. -/
def Throughout (J : Mem V → Prop) (p : Prog L V) (m : Mem V) : Prop :=
  ∀ p' m', Steps p m p' m' → J m'

theorem Steps.cases_head (h : Steps p m p' m') :
    (p' = p ∧ m' = m) ∨ ∃ q m₁, Step p m q m₁ ∧ Steps q m₁ p' m' := by
  induction h with
  | refl => exact .inl ⟨rfl, rfl⟩
  | tail _ h ih =>
    cases ih with
    | inl ih => obtain ⟨rfl, rfl⟩ := ih; exact .inr ⟨_, _, h, .refl⟩
    | inr ih => obtain ⟨q, m₁, h1, h2⟩ := ih; exact .inr ⟨q, m₁, h1, h2.tail h⟩

variable {J JB JC : Mem V → Prop}

theorem Throughout.head (h0 : J m) (h : ∀ q m₁, Step p m q m₁ → Throughout J q m₁) :
    Throughout J p m := by
  intro p' m' hs
  cases hs.cases_head with
  | inl hs => obtain ⟨-, rfl⟩ := hs; exact h0
  | inr hs =>
    obtain ⟨q, m₁, h1, h2⟩ := hs
    exact h q m₁ h1 p' m' h2

theorem throughout_done (h0 : J m) : Throughout J (.done : Prog L V) m :=
  .head h0 fun _ _ h => nomatch h

/-! ## Going through the text of a program -/

/-- From `p` in `m` the runs come to `p'` in `m'`, inside `A` and with `J` all the way. -/
structure Leads (J : Mem V → Prop) (A : Set L) (p : Prog L V) (m : Mem V) (p' : Prog L V)
    (m' : Mem V) : Prop where
  steps : Steps p m p' m'
  exec_eq : exec p m = exec p' m'
  safe : ∀ D, A ⊆ D → Safe p' D m' → Safe p D m
  throughout : J m → J m' ∧ (Throughout J p' m' → Throughout J p m)
  frame : ∀ l ∉ A, m' l = m l

namespace Leads

theorem refl : Leads J A p m p m := ⟨.refl, rfl, fun _ _ h => h, fun h => ⟨h, id⟩, fun _ _ => rfl⟩

theorem trans {p'' : Prog L V} {m'' : Mem V} (h : Leads J A p m p' m')
    (h' : Leads J A p' m' p'' m'') : Leads J A p m p'' m'' where
  steps := h.steps.trans h'.steps
  exec_eq := h.exec_eq.trans h'.exec_eq
  safe D hD hs := h.safe D hD (h'.safe D hD hs)
  throughout hJ :=
    have h1 := h.throughout hJ
    have h2 := h'.throughout h1.1
    ⟨h2.1, fun ht => h1.2 (h2.2 ht)⟩
  frame l hl := (h'.frame l hl).trans (h.frame l hl)

theorem mono (h : Leads J A p m p' m') (hA : A ⊆ B) : Leads J B p m p' m' where
  steps := h.steps
  exec_eq := h.exec_eq
  safe D hD hs := h.safe D (hA.trans hD) hs
  throughout := h.throughout
  frame l hl := h.frame l fun hl' => hl (hA hl')

/-- An invariant that holds of every memory asks for nothing. -/
theorem forget {I : Mem V → Prop} (h : Leads J A p m p' m') (hI : ∀ m, I m) :
    Leads I A p m p' m' where
  steps := h.steps
  exec_eq := h.exec_eq
  safe := h.safe
  throughout _ := ⟨hI m', fun _ _ f _ => hI f⟩
  frame := h.frame

theorem read {l : L} {k : V l → Prog L V} (hl : l ∈ A ∨ ∀ v w, k v = k w) :
    Leads J A (.read l k) m (k (m l)) m where
  steps := .single .read
  exec_eq := rfl
  safe D hD hs := ⟨hl.imp_left (@hD l), hs⟩
  throughout hJ := ⟨hJ, fun ht => .head hJ fun _ _ h => by cases h; exact ht⟩
  frame _ _ := rfl

theorem write {l : L} {v : V l} (hl : l ∈ A) (hJ' : J m → J (Function.update m l v)) :
    Leads J A (.write l v k) m k (Function.update m l v) where
  steps := .single .write
  exec_eq := rfl
  safe D hD hs := ⟨hD hl, hs⟩
  throughout hJ := ⟨hJ' hJ, fun ht => .head hJ fun _ _ h => by cases h; exact ht⟩
  frame i hi := Function.update_of_ne (fun e => hi (by rw [e]; exact hl)) _ _

theorem exec_done (h : Leads J A p m .done m') : exec p m = some m' := h.exec_eq

theorem safe_done (h : Leads J A p m .done m') : Safe p A m := h.safe A subset_rfl trivial

theorem throughout_done (h : Leads J A p m .done m') (hJ : J m) : Throughout J p m :=
  have h1 := h.throughout hJ
  h1.2 (ForkJoin.throughout_done h1.1)

/-- Every run that ends, ends in the one result. -/
theorem result (h : Leads J A p m .done m') {f : Mem V} (hs : Steps p m .done f) : f = m' := by
  have := hs.exec_eq h.safe_done
  rw [h.exec_done] at this
  exact Option.some.inj this

/-- Two parts side by side, each with cells and an invariant of its own. -/
theorem par (hp : Leads JB B p m .done m₁) (hq : Leads JC C q m .done m₂) (hBC : Disjoint B C)
    (hB : B ⊆ A) (hC : C ⊆ A) (hJB : J m → JB m) (hJC : J m → JC m)
    (hJ : ∀ mp mq, J m → JB mp → JC mq → (∀ l ∉ B, mp l = m l) → (∀ l ∉ C, mq l = m l) →
      J (overlay B mp (overlay C mq m))) :
    Leads J A (.par p q k) m k (overlay B m₁ (overlay C m₂ m)) := by
  have hexec : (exec p m).bind (exec q) = some (overlay B m₁ (overlay C m₂ m)) := by
    rw [hp.exec_done, Option.bind_some,
      exec_after hBC hp.safe_done hq.safe_done hp.exec_done, hq.exec_done, Option.map_some]
    congr 1
    refine overlay_eq (fun l hl => ?_) fun l hl => ?_
    · rw [overlay_notMem fun hl' => hBC.le_bot ⟨hl', hl⟩, overlay_mem hl]
    · by_cases hl' : l ∈ B
      · rw [overlay_mem hl']
      · rw [overlay_notMem hl', overlay_notMem hl, hp.frame l hl']
  refine ⟨?_, ?_, fun D hD hs => ?_, fun hJm => ⟨?_, fun ht s m' hs => ?_⟩, fun l hl => ?_⟩
  · have hpm : ∀ l ∈ B, overlay C m₂ m l = m l := fun l hl =>
      overlay_notMem fun hl' => hBC.le_bot ⟨hl, hl'⟩
    have hq' : Steps q m .done (overlay C m₂ m) := hq.steps.local hq.safe_done fun _ _ => rfl
    exact (hq'.right.trans (hp.steps.local hp.safe_done hpm).left).tail .join
  · rw [exec, hexec, Option.bind_some]
  · refine ⟨B, C, hBC, hB.trans hD, hC.trans hD, hp.safe_done, hq.safe_done, fun n₁ n₂ h1 h2 => ?_⟩
    rw [h1, Option.bind_some, h2] at hexec
    cases hexec
    exact hs
  · exact hJ m₁ m₂ hJm (hp.throughout (hJB hJm)).1 (hq.throughout (hJC hJm)).1 hp.frame hq.frame
  · obtain ⟨mp, mq, hc⟩ := hs.par_cases hBC hp.safe_done hq.safe_done
    cases hc with
    | inl hc =>
      obtain ⟨p', q', -, hsp, hsq, rfl⟩ := hc
      exact hJ mp mq hJm (hp.throughout_done (hJB hJm) _ _ hsp)
        (hq.throughout_done (hJC hJm) _ _ hsq) (hsp.frame hp.safe_done) (hsq.frame hq.safe_done)
    | inr hc =>
      obtain ⟨hsp, hsq, hsk⟩ := hc
      rw [hp.result hsp, hq.result hsq] at hsk
      exact ht s m' hsk
  · rw [overlay_notMem fun hl' => hl (hB hl'), overlay_notMem fun hl' => hl (hC hl')]

/-- What holds of every interleaving: no part fails, a run that is not done can go on, and the
memory at the end is the sequential result. -/
theorem every_run (h : Leads J A p m .done m') {f : Mem V} (hs : Steps p m p' f) :
    ¬ Failing p' ∧ (p' = .done → f = m') ∧ (p' ≠ .done → ∃ q g, Step p' f q g) := by
  have he : exec p' f = some m' := by rw [hs.exec_eq h.safe_done, h.exec_done]
  refine ⟨fun hf => ?_, ?_, Step.exists_of_exec he⟩
  · rw [hf.exec_eq f] at he; cases he
  · rintro rfl; exact Option.some.inj he

end Leads

/-- Total correctness under every interleaving. -/
structure Correct (p : Prog L V) (m : Mem V) (post : Mem V → Prop) : Prop where
  terminates : ¬ ∃ c : Nat → Prog L V × Mem V, c 0 = (p, m) ∧
    ∀ n, Step (c n).1 (c n).2 (c (n + 1)).1 (c (n + 1)).2
  noFailure : ∀ p' f, Steps p m p' f → ¬ Failing p'
  progress : ∀ p' f, Steps p m p' f → p' ≠ .done → ∃ q g, Step p' f q g
  result : ∀ f, Steps p m .done f → post f

theorem Leads.correct (h : Leads J A p m .done m') {post : Mem V → Prop} (hpost : post m') :
    Correct p m post where
  terminates := by
    rintro ⟨c, hc, hs⟩
    have hacc : ∀ q, ∀ n, (c n).1 = q → False := by
      intro q
      induction ForkJoin.terminates q with
      | intro q _ ih => intro n hn; exact ih _ ⟨_, _, hn ▸ hs n⟩ (n + 1) rfl
    exact hacc p 0 (by rw [hc])
  noFailure _ _ hs := (h.every_run hs).1
  progress _ _ hs := (h.every_run hs).2.2
  result f hs := by rw [h.result hs]; exact hpost

/-! ## Programs that use certain cells in every memory -/

/-- `p` reads and writes cells of `A` only, and parts that run side by side disjoint sets of them, as
long as all values have the property `I`, which `p` keeps. -/
def Uses (I : (l : L) → V l → Prop) : Prog L V → Set L → Prop
  | .done, _ => True
  | .fail, _ => True
  | .read l k, A => l ∈ A ∧ ∀ v, I l v → Uses I (k v) A
  | .write l v k, A => l ∈ A ∧ I l v ∧ Uses I k A
  | .par p q k, A => ∃ B C, Disjoint B C ∧ B ⊆ A ∧ C ⊆ A ∧ Uses I p B ∧ Uses I q C ∧ Uses I k A

section Uses

variable {I : (l : L) → V l → Prop}

omit [DecidableEq L] in
theorem Uses.mono (h : Uses I p A) (hA : A ⊆ B) : Uses I p B := by
  induction p generalizing A B with
  | done => trivial
  | fail => trivial
  | read l k ih => exact ⟨hA h.1, fun v hv => ih v (h.2 v hv) hA⟩
  | write l v k ih => exact ⟨hA h.1, h.2.1, ih h.2.2 hA⟩
  | par p q k _ _ ihk =>
    obtain ⟨C, D, hCD, hC, hD, hp, hq, hk⟩ := h
    exact ⟨C, D, hCD, hC.trans hA, hD.trans hA, hp, hq, ihk hk hA⟩

theorem Uses.safe_and_keeps (h : Uses I p A) (hm : ∀ l ∈ A, I l (m l)) :
    Safe p A m ∧ ∀ f, exec p m = some f → ∀ l ∈ A, I l (f l) := by
  induction p generalizing A m with
  | done =>
    refine ⟨trivial, ?_⟩
    intro f hf
    cases hf
    exact hm
  | fail =>
    refine ⟨trivial, ?_⟩
    intro f hf
    cases hf
  | read l k ih =>
    obtain ⟨hl, hk⟩ := h
    obtain ⟨hs, hf⟩ := ih (m l) (hk _ (hm l hl)) hm
    exact ⟨⟨.inl hl, hs⟩, hf⟩
  | write l v k ih =>
    obtain ⟨hl, hv, hk⟩ := h
    have hm' : ∀ i ∈ A, I i (Function.update m l v i) := by
      intro i hi
      by_cases e : i = l
      · subst e
        rw [Function.update_self]
        exact hv
      · rw [Function.update_of_ne e]
        exact hm i hi
    obtain ⟨hs, hf⟩ := ih hk hm'
    exact ⟨⟨hl, hs⟩, hf⟩
  | par p q k ihp ihq ihk =>
    obtain ⟨B, C, hBC, hB, hC, hp, hq, hk⟩ := h
    have hsp := (ihp hp fun l hl => hm l (hB hl)).1
    have hsq := (ihq hq fun l hl => hm l (hC hl)).1
    have hk' : ∀ m₁ m₂, exec p m = some m₁ → exec q m₁ = some m₂ → ∀ l ∈ A, I l (m₂ l) := by
      intro m₁ m₂ h1 h2 l hl
      have hm1 : ∀ i ∈ A, I i (m₁ i) := by
        intro i hi
        by_cases e : i ∈ B
        · exact (ihp hp fun l hl => hm l (hB hl)).2 _ h1 i e
        · rw [hsp.frame h1 i e]
          exact hm i hi
      have hq' := ihq hq fun i hi => hm1 i (hC hi)
      by_cases e : l ∈ C
      · exact hq'.2 _ h2 l e
      · rw [hq'.1.frame h2 l e]
        exact hm1 l hl
    refine ⟨⟨B, C, hBC, hB, hC, hsp, hsq, fun m₁ m₂ h1 h2 => (ihk hk (hk' m₁ m₂ h1 h2)).1⟩, ?_⟩
    intro f hf
    obtain ⟨m₂, h12, h3⟩ := Option.bind_eq_some_iff.1 hf
    obtain ⟨m₁, h1, h2⟩ := Option.bind_eq_some_iff.1 h12
    exact (ihk hk (hk' m₁ m₂ h1 h2)).2 f h3

theorem Uses.safe (h : Uses I p A) (hm : ∀ l ∈ A, I l (m l)) : Safe p A m :=
  (h.safe_and_keeps hm).1

theorem Uses.keeps (h : Uses I p A) (hm : ∀ l ∈ A, I l (m l)) (he : exec p m = some m') :
    ∀ l, I l (m l) → I l (m' l) := by
  intro l hl
  by_cases e : l ∈ A
  · exact (h.safe_and_keeps hm).2 _ he l e
  · rw [(h.safe hm).frame he l e]
    exact hl

end Uses

/-- Under every interleaving `p` has the one outcome `o` (`none`: it fails). -/
structure Computes (p : Prog L V) (m : Mem V) (o : Option (Mem V)) : Prop where
  result : ∀ f, Steps p m .done f → o = some f
  reaches : ∀ f, o = some f → ∀ p' m', Steps p m p' m' → Steps p' m' .done f

theorem steps_of_exec : ∀ {p : Prog L V} {m f : Mem V}, exec p m = some f → Steps p m .done f := by
  intro p
  induction p with
  | done =>
    intro m f h
    cases h
    exact .refl
  | fail =>
    intro m f h
    cases h
  | read l k ih => intro m f h; exact (Steps.single .read).trans (ih (m l) h)
  | write l v k ih => intro m f h; exact (Steps.single .write).trans (ih h)
  | par p q k ihp ihq ihk =>
    intro m f h
    obtain ⟨m₂, h12, h3⟩ := Option.bind_eq_some_iff.1 h
    obtain ⟨m₁, h1, h2⟩ := Option.bind_eq_some_iff.1 h12
    exact ((ihp h1).left.trans ((ihq h2).right.trans (.single .join))).trans (ihk h3)

theorem Safe.computes (h : Safe p A m) : Computes p m (exec p m) where
  result _ hs := (hs.exec_eq h).symm
  reaches _ ho _ _ hs := steps_of_exec ((hs.exec_eq h).trans ho)

/-- Parts with disjoint cells can be run in either order. -/
theorem exec_comm (hBC : Disjoint B C) (hp : Safe p B m) (hq : Safe q C m) :
    (exec p m).bind (exec q) = (exec q m).bind (exec p) := by
  cases h1 : exec p m with
  | none =>
    cases h2 : exec q m with
    | none => rfl
    | some m₂ =>
      rw [Option.bind_none, Option.bind_some, exec_after hBC.symm hq hp h2, h1]
      rfl
  | some m₁ =>
    rw [Option.bind_some, exec_after hBC hp hq h1]
    cases h2 : exec q m with
    | none => rfl
    | some m₂ =>
      rw [Option.bind_some, exec_after hBC.symm hq hp h2, h1, Option.map_some, Option.map_some]
      congr 1
      refine overlay_eq (fun l hl => ?_) fun l hl => ?_
      · rw [overlay_notMem fun hl' => hBC.le_bot ⟨hl', hl⟩]
      · by_cases hl' : l ∈ B
        · rw [overlay_mem hl']
        · rw [overlay_notMem hl', hp.frame h1 l hl', hq.frame h2 l hl]

end SysProg.ForkJoin
