import Mathlib.Logic.Function.Basic
import SysProg.Runs

/-!
# SysProg.Kahn

Networks of sequential processes with queues and flags.

* `Action`: what a process does next: send to or receive from a queue, raise a flag, wait for
  flags. Receiving from an empty queue and waiting block.
* `State`: where each process is, what each queue holds, which flags are up; `taken` is a history of
  what has been received from each queue.
* `Completes`: a run to a state where all processes have halted, in which each queue is sent to by
  one process and received from by one process (`snd`, `rcv`). It need not be known beforehand
  which: the run shows it.
* `Completes.of_step`: if there is one such run, every other run can be continued to the same
  state, in the same number of steps.
* `Go`: a path with a footprint, for putting paths together.
-/

namespace SysProg.Kahn

universe u

inductive Action (κ φ V L : Type u) where
  | halt
  | send (c : κ) (v : V) (l : L)
  | recv (c : κ) (k : V → L)
  | raise (f : φ) (l : L)
  /-- Goes on when of each of the lists a flag is up. -/
  | await (need : List (List φ)) (l : L)

structure State (ι κ φ V : Type u) (Λ : ι → Type u) where
  loc : (p : ι) → Λ p
  queue : κ → List V
  taken : κ → List V
  up : φ → Bool

variable {ι κ φ V : Type u} {Λ : ι → Type u} {L L' : Type u}
variable [DecidableEq ι] [DecidableEq κ] [DecidableEq φ]

/-- The local state after the action, if it can be taken. -/
def ready (s : State ι κ φ V Λ) : Action κ φ V L → Option L
  | .halt => none
  | .send _ _ l => some l
  | .recv c k => (s.queue c).head?.map k
  | .raise _ l => some l
  | .await need l => if need.all (fun fs => fs.any s.up) then some l else none

/-- The queues and flags after the action of `p`, which goes on at `l`. -/
def fire (s : State ι κ φ V Λ) (p : ι) (l : Λ p) : Action κ φ V (Λ p) → State ι κ φ V Λ
  | .halt => s
  | .send c v _ => { s with loc := Function.update s.loc p l
                            queue := Function.update s.queue c (s.queue c ++ [v]) }
  | .recv c _ => { s with loc := Function.update s.loc p l
                          queue := Function.update s.queue c (s.queue c).tail
                          taken := Function.update s.taken c (s.taken c ++ (s.queue c).take 1) }
  | .raise f _ => { s with loc := Function.update s.loc p l, up := Function.update s.up f true }
  | .await _ _ => { s with loc := Function.update s.loc p l }

variable (prog : (p : ι) → Λ p → Action κ φ V (Λ p))

def step (s : State ι κ φ V Λ) (p : ι) : Option (State ι κ φ V Λ) :=
  (ready s (prog p (s.loc p))).map fun l => fire s p l (prog p (s.loc p))

/-- The process uses queues that are its own to use. -/
def Owns (snd rcv : κ → ι) (p : ι) : Action κ φ V L → Prop
  | .send c _ _ => snd c = p
  | .recv c _ => rcv c = p
  | _ => True

variable {prog} {s s' t : State ι κ φ V Λ} {p q : ι}

theorem step_eq_some : step prog s p = some s' ↔
    ∃ l, ready s (prog p (s.loc p)) = some l ∧ fire s p l (prog p (s.loc p)) = s' := by
  rw [step, Option.map_eq_some_iff]

theorem fire_loc_of_ne (hqp : q ≠ p) {l : Λ p} {a : Action κ φ V (Λ p)} :
    (fire s p l a).loc q = s.loc q := by
  cases a <;> simp [fire, Function.update_of_ne hqp]

/-! ## Independent steps -/

/-- The two actions do not use the same end of one queue. -/
def Apart (a : Action κ φ V L) (b : Action κ φ V L') : Prop :=
  (∀ c v l v' l', a = .send c v l → b ≠ .send c v' l') ∧ ∀ c k k', a = .recv c k → b ≠ .recv c k'

omit [DecidableEq κ] [DecidableEq φ] in
theorem Apart.symm {a : Action κ φ V L} {b : Action κ φ V L'} (h : Apart a b) : Apart b a :=
  ⟨fun c v l v' l' hb ha => h.1 c v' l' v l ha hb, fun c k k' hb ha => h.2 c k' k ha hb⟩

/-- A step of `p` leaves an action of another process possible. -/
theorem ready_fire {a : Action κ φ V (Λ p)} {b : Action κ φ V L} (hab : Apart a b) {l : Λ p} {l' : L}
    (hb : ready s b = some l') : ready (fire s p l a) b = some l' := by
  cases b with
  | halt => cases hb
  | send c v l'' => exact hb
  | raise f l'' => exact hb
  | recv c k =>
    simp only [ready, Option.map_eq_some_iff] at hb ⊢
    obtain ⟨v, hv, rfl⟩ := hb
    refine ⟨v, ?_, rfl⟩
    cases a with
    | send c' v' l'' =>
      simp only [fire]
      by_cases e : c = c'
      · subst e
        rw [Function.update_self, List.head?_append, hv]
        rfl
      · rw [Function.update_of_ne e, hv]
    | recv c' k' =>
      have e : c ≠ c' := by
        rintro rfl
        exact hab.2 c k' k rfl rfl
      simp only [fire]
      rw [Function.update_of_ne e, hv]
    | halt => exact hv
    | raise f l'' => exact hv
    | await need l'' => exact hv
  | await need l'' =>
    simp only [ready] at hb ⊢
    split at hb
    · rename_i hn
      rw [if_pos]
      · exact hb
      · rw [List.all_eq_true] at hn ⊢
        intro fs hfs
        obtain ⟨f, hf, hup⟩ := List.any_eq_true.1 (hn fs hfs)
        refine List.any_eq_true.2 ⟨f, hf, ?_⟩
        cases a with
        | raise f' l'' =>
          simp only [fire]
          by_cases e : f = f'
          · subst e; rw [Function.update_self]
          · rw [Function.update_of_ne e, hup]
        | halt => exact hup
        | send c v l'' => exact hup
        | recv c k => exact hup
        | await need l'' => exact hup
    · cases hb

/-- Sending to a queue and receiving from it, when it was not empty before. -/
theorem update_send_recv {g : κ → List V} {c c' : κ} {v : V} (hc : (g c').head?.isSome) :
    Function.update (Function.update g c (g c ++ [v])) c'
        ((Function.update g c (g c ++ [v])) c').tail =
      Function.update (Function.update g c' (g c').tail) c
        ((Function.update g c' (g c').tail) c ++ [v]) := by
  by_cases e : c = c'
  · subst e
    obtain ⟨w, ws, hw⟩ : ∃ w ws, g c = w :: ws := by
      cases hg : g c with
      | nil => rw [hg] at hc; cases hc
      | cons w ws => exact ⟨w, ws, rfl⟩
    simp only [Function.update_self, Function.update_idem, hw, List.cons_append, List.tail_cons]
  · rw [Function.update_of_ne (Ne.symm e), Function.update_of_ne e, Function.update_comm e]

theorem take_update_append {g : κ → List V} {c c' : κ} {v : V} (hc : (g c').head?.isSome) :
    (Function.update g c (g c ++ [v]) c').take 1 = (g c').take 1 := by
  by_cases e : c' = c
  · subst e
    cases hg : g c' with
    | nil => rw [hg] at hc; cases hc
    | cons w ws => simp only [Function.update_self, List.cons_append, List.take_succ_cons, List.take_zero]
  · rw [Function.update_of_ne e]

omit [DecidableEq ι] [DecidableEq κ] [DecidableEq φ] in
theorem isSome_of_ready {c : κ} {k : V → L} {l : L} (h : ready s (.recv c k) = some l) :
    (s.queue c).head?.isSome := by
  simp only [ready, Option.map_eq_some_iff] at h
  obtain ⟨v, hv, -⟩ := h
  rw [hv]; rfl

theorem fire_comm {a : Action κ φ V (Λ p)} {b : Action κ φ V (Λ q)} (hab : Apart a b) (hpq : p ≠ q)
    {l : Λ p} {l' : Λ q} (ha : ready s a = some l) (hb : ready s b = some l') :
    fire (fire s p l a) q l' b = fire (fire s q l' b) p l a := by
  have hloc : Function.update (Function.update s.loc p l) q l' =
      Function.update (Function.update s.loc q l') p l := Function.update_comm hpq _ _ _
  cases a with
  | halt => rfl
  | send c v k =>
    cases b with
    | send c' v' k' =>
      have e : c ≠ c' := by
        rintro rfl
        exact hab.1 c v k v' k' rfl rfl
      simp only [fire, hloc, Function.update_of_ne e, Function.update_of_ne e.symm]
      rw [Function.update_comm e]
    | halt => rfl
    | recv c' k' =>
      have hc := isSome_of_ready hb
      simp only [fire, hloc, update_send_recv hc, take_update_append hc]
    | raise f k' => simp only [fire, hloc]
    | await need k' => simp only [fire, hloc]
  | recv c k =>
    cases b with
    | recv c' k' =>
      have e : c ≠ c' := by
        rintro rfl
        exact hab.2 c k k' rfl rfl
      simp only [fire, hloc, Function.update_of_ne e, Function.update_of_ne e.symm]
      rw [Function.update_comm e, Function.update_comm e]
    | halt => rfl
    | send c' v' k' =>
      have hc := isSome_of_ready ha
      simp only [fire, hloc, update_send_recv hc, take_update_append hc]
    | raise f k' => simp only [fire, hloc]
    | await need k' => simp only [fire, hloc]
  | raise f k =>
    cases b with
    | raise f' k' =>
      simp only [fire, hloc]
      by_cases e : f = f'
      · subst e; rfl
      · rw [Function.update_comm e]
    | halt => rfl
    | send c' v' k' => simp only [fire, hloc]
    | recv c' k' => simp only [fire, hloc]
    | await need k' => simp only [fire, hloc]
  | await need k =>
    cases b with
    | halt => rfl
    | send c' v' k' => simp only [fire, hloc]
    | recv c' k' => simp only [fire, hloc]
    | raise f k' => simp only [fire, hloc]
    | await need' k' => simp only [fire, hloc]

theorem step_comm {s₁ s₂ : State ι κ φ V Λ} (hpq : p ≠ q)
    (hab : Apart (prog p (s.loc p)) (prog q (s.loc q))) (hp : step prog s p = some s₁)
    (hq : step prog s q = some s₂) : ∃ u, step prog s₁ q = some u ∧ step prog s₂ p = some u := by
  obtain ⟨l, hl, rfl⟩ := step_eq_some.1 hp
  obtain ⟨l', hl', rfl⟩ := step_eq_some.1 hq
  refine ⟨_, step_eq_some.2 ⟨l', ?_, rfl⟩, step_eq_some.2 ⟨l, ?_, ?_⟩⟩
  · rw [fire_loc_of_ne hpq.symm]
    exact ready_fire hab hl'
  · rw [fire_loc_of_ne hpq]
    exact ready_fire hab.symm hl
  · rw [fire_loc_of_ne hpq, fire_loc_of_ne hpq.symm, fire_comm hab hpq hl hl']

/-! ## One complete run stands for all of them -/

/-- A run of so many steps to a state where all processes have halted; each queue has one sender
and one receiver in it. -/
inductive Completes (prog : (p : ι) → Λ p → Action κ φ V (Λ p)) (snd rcv : κ → ι) :
    State ι κ φ V Λ → State ι κ φ V Λ → Nat → Prop where
  | done (a : State ι κ φ V Λ) : (∀ r, prog r (a.loc r) = .halt) → Completes prog snd rcv a a 0
  | head (a a' b : State ι κ φ V Λ) (r : ι) (m : Nat) : step prog a r = some a' →
      Owns snd rcv r (prog r (a.loc r)) → Completes prog snd rcv a' b m →
      Completes prog snd rcv a b (m + 1)

variable {snd rcv : κ → ι} {n : Nat}

theorem step_loc_of_ne (h : step prog s p = some s') (hqp : q ≠ p) : s'.loc q = s.loc q := by
  obtain ⟨l, -, rfl⟩ := step_eq_some.1 h
  exact fire_loc_of_ne hqp

theorem step_up (h : step prog s p = some s') {f : φ} (hf : s.up f = true) : s'.up f = true := by
  obtain ⟨l, -, rfl⟩ := step_eq_some.1 h
  cases prog p (s.loc p) with
  | raise f' l' =>
    simp only [fire]
    by_cases e : f = f'
    · subst e; rw [Function.update_self]
    · rw [Function.update_of_ne e, hf]
  | halt => exact hf
  | send c v l' => exact hf
  | recv c k => exact hf
  | await need l' => exact hf

theorem Completes.up (h : Completes prog snd rcv s t n) {f : φ} (hf : s.up f = true) :
    t.up f = true := by
  induction h with
  | done a hh => exact hf
  | head a a' b r m h ho hr ih => exact ih (step_up h hf)

/-- What a process is about to do it will do in the run. -/
theorem Completes.owns (h : Completes prog snd rcv s t n) (hq : prog q (s.loc q) ≠ .halt) :
    Owns snd rcv q (prog q (s.loc q)) := by
  induction h with
  | done a hh => exact absurd (hh q) hq
  | head a a' b r m h ho hr ih =>
    by_cases e : q = r
    · subst e; exact ho
    · have := step_loc_of_ne h e
      rw [this] at ih
      exact ih hq

omit [DecidableEq ι] [DecidableEq κ] [DecidableEq φ] in
theorem apart_of_owns {a : Action κ φ V L} {b : Action κ φ V L'} (hpq : p ≠ q)
    (ha : Owns snd rcv p a) (hb : Owns snd rcv q b) : Apart a b := by
  constructor
  · rintro c v l v' l' rfl rfl
    exact hpq (ha.symm.trans hb)
  · rintro c k k' rfl rfl
    exact hpq (ha.symm.trans hb)

theorem Completes.of_step (h : Completes prog snd rcv s t n) (hq : step prog s q = some s') :
    ∃ k, n = k + 1 ∧ Completes prog snd rcv s' t k := by
  induction h generalizing s' with
  | done a hh =>
    obtain ⟨l, hl, -⟩ := step_eq_some.1 hq
    rw [hh q] at hl
    cases hl
  | head a a' b r m h ho hr ih =>
    by_cases e : q = r
    · subst e
      rw [h] at hq
      cases hq
      exact ⟨m, rfl, hr⟩
    · have hnh : prog q (a.loc q) ≠ .halt := by
        intro hh
        obtain ⟨l, hl, -⟩ := step_eq_some.1 hq
        rw [hh] at hl
        cases hl
      have hoq := (Completes.head a a' b r m h ho hr).owns hnh
      obtain ⟨u, hu, hu'⟩ := step_comm (Ne.symm e) (apart_of_owns (Ne.symm e) ho hoq) h hq
      obtain ⟨k, rfl, hk⟩ := ih hu
      refine ⟨k + 1, rfl, .head s' u b r k hu' ?_ hk⟩
      rw [step_loc_of_ne hq (Ne.symm e)]
      exact ho

theorem Completes.of_reachable (h : Completes prog snd rcv s t n)
    (hr : Reachable (step prog) s s') : ∃ k, Completes prog snd rcv s' t k := by
  refine Reachable.invariant (I := fun s => ∃ k, Completes prog snd rcv s t k) ?_ hr ⟨n, h⟩
  rintro s p s' ⟨k, hk⟩ hs
  obtain ⟨k', -, hk'⟩ := hk.of_step hs
  exact ⟨k', hk'⟩

/-- A state of any run in which no process can go on is the end of the complete run. -/
theorem Completes.progress (h : Completes prog snd rcv s t n) (hr : Reachable (step prog) s s') :
    s' = t ∨ ∃ p s'', step prog s' p = some s'' := by
  obtain ⟨k, hk⟩ := h.of_reachable hr
  cases hk with
  | done a hh => exact .inl rfl
  | head a a' b r m h ho hr => exact .inr ⟨r, a', h⟩

/-! ## Paths with footprints -/

inductive Path (prog : (p : ι) → Λ p → Action κ φ V (Λ p)) (snd rcv : κ → ι) :
    State ι κ φ V Λ → State ι κ φ V Λ → Prop where
  | refl (a : State ι κ φ V Λ) : Path prog snd rcv a a
  | head (a a' b : State ι κ φ V Λ) (r : ι) : step prog a r = some a' →
      Owns snd rcv r (prog r (a.loc r)) → Path prog snd rcv a' b → Path prog snd rcv a b

theorem Path.trans (h : Path prog snd rcv s s') (h' : Path prog snd rcv s' t) :
    Path prog snd rcv s t := by
  induction h with
  | refl a => exact h'
  | head a a' b r h ho hr ih => exact .head a a' t r h ho (ih h')

theorem Path.completes (h : Path prog snd rcv s t) (ht : ∀ r, prog r (t.loc r) = .halt) :
    ∃ n, Completes prog snd rcv s t n := by
  induction h with
  | refl a => exact ⟨0, .done a ht⟩
  | head a a' b r h ho hr ih =>
    obtain ⟨n, hn⟩ := ih ht
    exact ⟨n + 1, .head a a' b r n h ho hn⟩

/-- The parts of a state. -/
inductive Part (ι κ φ : Type u) where
  | proc (p : ι)
  | queue (c : κ)
  | flag (f : φ)

variable {Q R : Set (Part ι κ φ)}

/-- From `s` to `s'` by steps that leave everything outside `Q` as it is. -/
structure Go (prog : (p : ι) → Λ p → Action κ φ V (Λ p)) (snd rcv : κ → ι) (Q : Set (Part ι κ φ))
    (s s' : State ι κ φ V Λ) : Prop where
  path : Path prog snd rcv s s'
  loc : ∀ r, .proc r ∉ Q → s'.loc r = s.loc r
  queue : ∀ c, .queue c ∉ Q → s'.queue c = s.queue c
  taken : ∀ c, .queue c ∉ Q → s'.taken c = s.taken c
  up : ∀ f, .flag f ∉ Q → s'.up f = s.up f
  mono : ∀ f, s.up f = true → s'.up f = true

namespace Go

theorem refl : Go prog snd rcv Q s s :=
  ⟨.refl s, fun _ _ => rfl, fun _ _ => rfl, fun _ _ => rfl, fun _ _ => rfl, fun _ h => h⟩

theorem trans (h : Go prog snd rcv Q s s') (h' : Go prog snd rcv Q s' t) :
    Go prog snd rcv Q s t where
  path := h.path.trans h'.path
  loc r hr := (h'.loc r hr).trans (h.loc r hr)
  queue c hc := (h'.queue c hc).trans (h.queue c hc)
  taken c hc := (h'.taken c hc).trans (h.taken c hc)
  up f hf := (h'.up f hf).trans (h.up f hf)
  mono f hf := h'.mono f (h.mono f hf)

theorem widen (h : Go prog snd rcv Q s s') (hQ : Q ⊆ R) : Go prog snd rcv R s s' where
  path := h.path
  loc r hr := h.loc r fun hr' => hr (hQ hr')
  queue c hc := h.queue c fun hc' => hc (hQ hc')
  taken c hc := h.taken c fun hc' => hc (hQ hc')
  up f hf := h.up f fun hf' => hf (hQ hf')
  mono := h.mono

theorem send {c : κ} {v : V} {l : Λ p} (hp : prog p (s.loc p) = .send c v l) (hc : snd c = p)
    (hpQ : .proc p ∈ Q) (hcQ : .queue c ∈ Q) :
    ∃ s', Go prog snd rcv Q s s' ∧ s'.loc p = l ∧ s'.queue c = s.queue c ++ [v] ∧
      (∀ c', c' ≠ c → s'.queue c' = s.queue c') ∧ s'.up = s.up := by
  refine ⟨fire s p l (.send c v l), ⟨?_, fun r hr => ?_, fun c' hc' => ?_, fun _ _ => rfl,
    fun _ _ => rfl, fun _ h => h⟩, Function.update_self .., Function.update_self ..,
    fun c' hc' => Function.update_of_ne hc' .., rfl⟩
  · refine .head _ _ _ p (step_eq_some.2 ⟨l, by rw [hp]; rfl, by rw [hp]⟩) ?_ (.refl _)
    rw [hp]; exact hc
  · exact Function.update_of_ne (fun e => hr (by rw [e]; exact hpQ)) _ _
  · exact Function.update_of_ne (fun e => hc' (by rw [e]; exact hcQ)) _ _

theorem recv {c : κ} {k : V → Λ p} {v : V} {vs : List V} (hp : prog p (s.loc p) = .recv c k)
    (hv : s.queue c = v :: vs) (hc : rcv c = p) (hpQ : .proc p ∈ Q) (hcQ : .queue c ∈ Q) :
    ∃ s', Go prog snd rcv Q s s' ∧ s'.loc p = k v ∧ s'.queue c = vs ∧
      (∀ c', c' ≠ c → s'.queue c' = s.queue c') ∧ s'.up = s.up := by
  have hq : (fire s p (k v) (.recv c k)).queue c = vs := by
    simp only [fire, Function.update_self, hv, List.tail_cons]
  refine ⟨fire s p (k v) (.recv c k), ⟨?_, fun r hr => ?_, fun c' hc' => ?_, fun c' hc' => ?_,
    fun _ _ => rfl, fun _ h => h⟩, Function.update_self .., hq,
    fun c' hc' => Function.update_of_ne hc' .., rfl⟩
  · refine .head _ _ _ p (step_eq_some.2 ⟨k v, by rw [hp]; simp [ready, hv], by rw [hp]⟩) ?_ (.refl _)
    rw [hp]; exact hc
  · exact Function.update_of_ne (fun e => hr (by rw [e]; exact hpQ)) _ _
  · exact Function.update_of_ne (fun e => hc' (by rw [e]; exact hcQ)) _ _
  · exact Function.update_of_ne (fun e => hc' (by rw [e]; exact hcQ)) _ _

theorem raise {f : φ} {l : Λ p} (hp : prog p (s.loc p) = .raise f l) (hpQ : .proc p ∈ Q)
    (hfQ : .flag f ∈ Q) :
    ∃ s', Go prog snd rcv Q s s' ∧ s'.loc p = l ∧ s'.queue = s.queue ∧ s'.up f = true := by
  refine ⟨fire s p l (.raise f l), ⟨?_, fun r hr => ?_, fun _ _ => rfl, fun _ _ => rfl,
    fun f' hf' => ?_, fun f' hf' => ?_⟩, Function.update_self .., rfl, Function.update_self ..⟩
  · refine .head _ _ _ p (step_eq_some.2 ⟨l, by rw [hp]; rfl, by rw [hp]⟩) ?_ (.refl _)
    rw [hp]; exact trivial
  · exact Function.update_of_ne (fun e => hr (by rw [e]; exact hpQ)) _ _
  · exact Function.update_of_ne (fun e => hf' (by rw [e]; exact hfQ)) _ _
  · simp only [fire]
    by_cases e : f' = f
    · subst e; rw [Function.update_self]
    · rw [Function.update_of_ne e, hf']

theorem await {need : List (List φ)} {l : Λ p} (hp : prog p (s.loc p) = .await need l)
    (hn : ∀ fs ∈ need, ∃ f ∈ fs, s.up f = true) (hpQ : .proc p ∈ Q) :
    ∃ s', Go prog snd rcv Q s s' ∧ s'.loc p = l ∧ s'.queue = s.queue ∧ s'.up = s.up := by
  have hn' : (need.all fun fs => fs.any s.up) = true := by
    rw [List.all_eq_true]
    intro fs hfs
    exact List.any_eq_true.2 (hn fs hfs)
  refine ⟨fire s p l (.await need l), ⟨?_, fun r hr => ?_, fun _ _ => rfl, fun _ _ => rfl,
    fun _ _ => rfl, fun _ h => h⟩, Function.update_self .., rfl, rfl⟩
  · refine .head _ _ _ p (step_eq_some.2 ⟨l, by rw [hp]; simp [ready, hn'], by rw [hp]⟩) ?_ (.refl _)
    rw [hp]; exact trivial
  · exact Function.update_of_ne (fun e => hr (by rw [e]; exact hpQ)) _ _

end Go

end SysProg.Kahn
