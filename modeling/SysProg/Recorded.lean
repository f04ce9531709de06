import SysProg.Script

/-!
# SysProg.Recorded

Networks whose processes keep a record of what they do.

* `Action.record`, `recording`: the same program, each process with a record that grows with its
  steps. It depends on where the process was and is and on what it has received.
* `step_recording`: the records change nothing in what the network does.
* `Completes.recording`: a complete run goes through with records, so in the end they are the same
  whatever the order of the steps.
* `Next.step`, `Next.reachable`: what a process keeps by itself.
* `flatMap_update`, `flatMap_single`, `flatMap_prefix`: several records one after the other.
-/

namespace SysProg.Kahn

universe u

variable {ι κ φ V : Type u} {Λ H : ι → Type u} {L M : Type u}

/-- What the action is about to receive. -/
def heard (s : State ι κ φ V Λ) : Action κ φ V L → Option V
  | .recv c _ => (s.queue c).head?
  | _ => none

def Action.record (f : Option V → L → M) : Action κ φ V L → Action κ φ V (L × M)
  | .halt => .halt
  | .send c v l => .send c v (l, f none l)
  | .recv c k => .recv c fun v => (k v, f (some v) (k v))
  | .raise e l => .raise e (l, f none l)
  | .await need l => .await need (l, f none l)

/-- `upd p l v l' h`: the record after a step from `l` to `l'` that has received `v`. -/
def recording (prog : (p : ι) → Λ p → Action κ φ V (Λ p))
    (upd : (p : ι) → Λ p → Option V → Λ p → H p → H p) (p : ι) (x : Λ p × H p) :
    Action κ φ V (Λ p × H p) :=
  (prog p x.1).record fun v l => upd p x.1 v l x.2

/-- The state with a record for each process. -/
def State.along (s : State ι κ φ V Λ) (m : (p : ι) → H p) :
    State ι κ φ V fun p => Λ p × H p where
  loc p := (s.loc p, m p)
  queue := s.queue
  taken := s.taken
  up := s.up

theorem State.along_inj {s t : State ι κ φ V Λ} {m m' : (p : ι) → H p} (h : s.along m = t.along m') :
    s = t ∧ m = m' := by
  have hl : ∀ p, (s.loc p, m p) = (t.loc p, m' p) := fun p => congrFun (congrArg State.loc h) p
  refine ⟨?_, funext fun p => congrArg Prod.snd (hl p)⟩
  have hloc : s.loc = t.loc := funext fun p => congrArg Prod.fst (hl p)
  have hqueue : (s.along m).queue = (t.along m').queue := by rw [h]
  have htaken : (s.along m).taken = (t.along m').taken := by rw [h]
  have hup : (s.along m).up = (t.along m').up := by rw [h]
  cases s
  cases t
  cases hloc
  cases hqueue
  cases htaken
  cases hup
  rfl

variable [DecidableEq ι] [DecidableEq κ] [DecidableEq φ]
variable {prog : (p : ι) → Λ p → Action κ φ V (Λ p)}
  {upd : (p : ι) → Λ p → Option V → Λ p → H p → H p} {snd rcv : κ → ι}
  {s s' t : State ι κ φ V Λ} {m m' : (p : ι) → H p} {p q : ι} {n : Nat}

omit [DecidableEq ι] [DecidableEq κ] [DecidableEq φ] in
theorem ready_record (s : State ι κ φ V Λ) (m : (p : ι) → H p) (f : Option V → L → M)
    (a : Action κ φ V L) :
    ready (s.along m) (a.record f) = (ready s a).map fun l => (l, f (heard s a) l) := by
  cases a with
  | halt => rfl
  | send c v l => rfl
  | raise e l => rfl
  | recv c k =>
    simp only [Action.record, ready, State.along, heard]
    cases (s.queue c).head? with
    | none => rfl
    | some v => rfl
  | await need l =>
    show (if (need.all fun fs => fs.any s.up) = true then some (l, f none l) else none) = _
    rw [ready]
    split
    · rfl
    · rfl

omit [DecidableEq κ] [DecidableEq φ] in
theorem update_along (s : State ι κ φ V Λ) (m : (p : ι) → H p) (l : Λ p) (h : H p) :
    Function.update (s.along m).loc p (l, h) =
      fun q => (Function.update s.loc p l q, Function.update m p h q) := by
  funext q
  by_cases e : q = p
  · subst e
    simp
  · simp [Function.update_of_ne e, State.along]

theorem fire_record (s : State ι κ φ V Λ) (m : (p : ι) → H p) (f : Option V → Λ p → H p) (l : Λ p)
    (h : H p) {a : Action κ φ V (Λ p)} (ha : a ≠ .halt) :
    fire (s.along m) p (l, h) (a.record f) = (fire s p l a).along (Function.update m p h) := by
  have hu := update_along s m l h
  cases a with
  | halt => exact absurd rfl ha
  | send c v l' =>
    simp only [Action.record, fire, hu]
    rfl
  | recv c k =>
    simp only [Action.record, fire, hu]
    rfl
  | raise e l' =>
    simp only [Action.record, fire, hu]
    rfl
  | await need l' =>
    simp only [Action.record, fire, hu]
    rfl

theorem step_ne_halt (h : step prog s p = some s') : prog p (s.loc p) ≠ .halt := by
  intro hh
  obtain ⟨l, hl, -⟩ := step_eq_some.1 h
  rw [hh] at hl
  cases hl

theorem step_loc_self (h : step prog s p = some s') :
    ready s (prog p (s.loc p)) = some (s'.loc p) := by
  obtain ⟨l, hl, rfl⟩ := step_eq_some.1 h
  have hf : (fire s p l (prog p (s.loc p))).loc p = l := by
    cases ha : prog p (s.loc p) with
    | halt => exact absurd ha (step_ne_halt h)
    | send c v l' => simp [fire]
    | recv c k => simp [fire]
    | raise e l' => simp [fire]
    | await need l' => simp [fire]
  rw [hl, hf]

/-- What a step does to a queue, told from the side of its reader. -/
theorem taken_cases (h : step prog s p = some s') (c : κ) :
    (s'.taken c = s.taken c ∧ ∀ k, prog p (s.loc p) ≠ .recv c k) ∨
      ∃ k v, prog p (s.loc p) = .recv c k ∧ (s.queue c).head? = some v ∧
        s'.taken c = s.taken c ++ [v] ∧ s'.loc p = k v := by
  have hl := step_loc_self h
  obtain ⟨l, hl', rfl⟩ := step_eq_some.1 h
  cases ha : prog p (s.loc p) with
  | halt => exact absurd ha (step_ne_halt h)
  | send c' v l' => exact .inl ⟨rfl, fun k hk => by cases hk⟩
  | raise e l' => exact .inl ⟨rfl, fun k hk => by cases hk⟩
  | await need l' => exact .inl ⟨rfl, fun k hk => by cases hk⟩
  | recv c' k =>
    rw [ha] at hl
    obtain ⟨v, hv, hkv⟩ := Option.map_eq_some_iff.1 hl
    have ht := (fire_recv (s := s) (p := p) (l := l) (k := k) hv).2
    by_cases e : c = c'
    · subst e
      refine .inr ⟨k, v, rfl, hv, ?_, hkv.symm⟩
      rw [ht, Function.update_self]
    · refine .inl ⟨?_, fun k' hk => ?_⟩
      · rw [ht, Function.update_of_ne e]
      · cases hk
        exact e rfl

/-- And from the side of its writer. -/
theorem sent_cases (h : step prog s p = some s') (c : κ) :
    (sent s' c = sent s c ∧ ∀ v l, prog p (s.loc p) ≠ .send c v l) ∨
      ∃ v l, prog p (s.loc p) = .send c v l ∧ sent s' c = sent s c ++ [v] ∧ s'.loc p = l := by
  have hl := step_loc_self h
  obtain ⟨l, hl', rfl⟩ := step_eq_some.1 h
  cases ha : prog p (s.loc p) with
  | halt => exact absurd ha (step_ne_halt h)
  | recv c' k =>
    rw [ha] at hl
    obtain ⟨v, hv, -⟩ := Option.map_eq_some_iff.1 hl
    have ht := (fire_recv (s := s) (p := p) (l := l) (k := k) hv).1
    exact .inl ⟨congrFun ht c, fun v l hk => by cases hk⟩
  | raise e l' => exact .inl ⟨rfl, fun v l hk => by cases hk⟩
  | await need l' => exact .inl ⟨rfl, fun v l hk => by cases hk⟩
  | send c' v l' =>
    rw [ha] at hl
    by_cases e : c = c'
    · subst e
      refine .inr ⟨v, l', rfl, ?_, (Option.some.inj hl).symm⟩
      rw [fire_send, Function.update_self]
    · refine .inl ⟨?_, fun v' l'' hk => ?_⟩
      · rw [fire_send, Function.update_of_ne e]
      · cases hk
        exact e rfl

/-- The records after a step of `p`. -/
def recorded (upd : (p : ι) → Λ p → Option V → Λ p → H p → H p)
    (prog : (p : ι) → Λ p → Action κ φ V (Λ p)) (s s' : State ι κ φ V Λ) (m : (p : ι) → H p) (p : ι) :
    (p : ι) → H p :=
  Function.update m p (upd p (s.loc p) (heard s (prog p (s.loc p))) (s'.loc p) (m p))

theorem step_recording_of (h : step prog s p = some s') (m : (p : ι) → H p) :
    step (recording prog upd) (s.along m) p = some (s'.along (recorded upd prog s s' m p)) := by
  have hl := step_loc_self h
  have ha := step_ne_halt h
  obtain ⟨l, hl', rfl⟩ := step_eq_some.1 h
  rw [hl'] at hl
  have hx := fire_record s m (fun v l => upd p (s.loc p) v l (m p)) l
    (upd p (s.loc p) (heard s (prog p (s.loc p))) l (m p)) ha
  refine step_eq_some.2 ⟨(l, upd p (s.loc p) (heard s (prog p (s.loc p))) l (m p)), ?_, ?_⟩
  · show ready (s.along m) ((prog p (s.loc p)).record _) = _
    rw [ready_record, hl']
    rfl
  · rw [recorded, ← Option.some.inj hl, ← hx]
    rfl

/-- The records change nothing. -/
theorem step_recording {x : State ι κ φ V fun p => Λ p × H p}
    (h : step (recording prog upd) (s.along m) p = some x) :
    ∃ s', step prog s p = some s' ∧ x = s'.along (recorded upd prog s s' m p) := by
  obtain ⟨y, hy, -⟩ := step_eq_some.1 h
  have hy : ready (s.along m) ((prog p (s.loc p)).record _) = some y := hy
  rw [ready_record, Option.map_eq_some_iff] at hy
  obtain ⟨l, hl, -⟩ := hy
  have hs : step prog s p = some (fire s p l (prog p (s.loc p))) := step_eq_some.2 ⟨l, hl, rfl⟩
  rw [step_recording_of hs m] at h
  exact ⟨_, hs, (Option.some.inj h).symm⟩

omit [DecidableEq ι] [DecidableEq κ] [DecidableEq φ] in
theorem owns_recording {x : Λ p × H p} (h : Owns snd rcv p (prog p x.1)) :
    Owns snd rcv p (recording prog upd p x) := by
  rw [recording]
  cases ha : prog p x.1 with
  | halt => trivial
  | send c v l => rw [ha] at h; exact h
  | recv c k => rw [ha] at h; exact h
  | raise e l => trivial
  | await need l => trivial

theorem Completes.recording (h : Completes prog snd rcv s t n) (m : (p : ι) → H p) :
    ∃ m', Completes (recording prog upd) snd rcv (s.along m) (t.along m') n := by
  induction h generalizing m with
  | done a hh =>
    refine ⟨m, .done _ fun r => ?_⟩
    show (prog r (a.loc r)).record _ = _
    rw [hh r]
    rfl
  | head a a' b r k h ho hr ih =>
    obtain ⟨m', hm'⟩ := ih (recorded upd prog a a' m r)
    exact ⟨m', .head _ _ _ r k (step_recording_of h m) (owns_recording ho) hm'⟩

theorem Completes.reachable (h : Completes prog snd rcv s t n) : Reachable (step prog) s t := by
  induction h with
  | done a hh => exact .refl
  | head a a' b r k h ho hr ih =>
    obtain ⟨tr, htr⟩ := ih
    exact ⟨_, (Run.nil.snoc h).trans htr⟩

/-! ## What a process keeps by itself -/

omit [DecidableEq ι] [DecidableEq κ] [DecidableEq φ] in
theorem Action.Next.of_ready {Q : L → Prop} {a : Action κ φ V L} {l : L} (hN : a.Next Q)
    (h : ready s a = some l) : Q l := by
  cases a with
  | halt => cases h
  | send c v l' =>
    cases h
    exact hN
  | recv c k =>
    obtain ⟨v, -, rfl⟩ := Option.map_eq_some_iff.1 h
    exact hN v
  | raise e l' =>
    cases h
    exact hN
  | await need l' =>
    simp only [ready] at h
    split at h
    · cases h
      exact hN
    · cases h

omit [DecidableEq ι] [DecidableEq κ] [DecidableEq φ] in
theorem Action.Next.mono {Q R : L → Prop} {a : Action κ φ V L} (hN : a.Next Q) (h : ∀ l, Q l → R l) :
    a.Next R := by
  cases a with
  | halt => trivial
  | send c v l => exact h l hN
  | recv c k => exact fun v => h (k v) (hN v)
  | raise e l => exact h l hN
  | await need l => exact h l hN

omit [DecidableEq ι] [DecidableEq κ] [DecidableEq φ] in
theorem Action.Next.of_forall {Q : L → Prop} {a : Action κ φ V L} (h : ∀ l, Q l) : a.Next Q := by
  cases a with
  | halt => trivial
  | send c v l => exact h l
  | recv c k => exact fun v => h (k v)
  | raise e l => exact h l
  | await need l => exact h l

theorem Next.step {I : Λ p → Prop} (hI : ∀ l, I l → (prog p l).Next I) (h : step prog s q = some s')
    (h0 : I (s.loc p)) : I (s'.loc p) := by
  by_cases e : p = q
  · subst e
    exact (hI _ h0).of_ready (step_loc_self h)
  · rw [step_loc_of_ne h e]
    exact h0

theorem Next.reachable {I : Λ p → Prop} (hI : ∀ l, I l → (prog p l).Next I)
    (h : Reachable (Kahn.step prog) s t) (h0 : I (s.loc p)) : I (t.loc p) :=
  h.invariant (fun _ _ _ h0 hs => Next.step hI hs h0) h0

omit [DecidableEq ι] [DecidableEq κ] [DecidableEq φ] in
theorem next_recording (prog : (p : ι) → Λ p → Action κ φ V (Λ p))
    (upd : (p : ι) → Λ p → Option V → Λ p → H p → H p) {Q : Λ p × H p → Prop} {x : Λ p × H p}
    (h : (prog p x.1).Next fun l => ∀ v, Q (l, upd p x.1 v l x.2)) :
    (recording prog upd p x).Next Q := by
  rw [recording]
  cases ha : prog p x.1 with
  | halt => trivial
  | send c v l => rw [ha] at h; exact h none
  | recv c k => rw [ha] at h; exact fun v => h v (some v)
  | raise e l => rw [ha] at h; exact h none
  | await need l => rw [ha] at h; exact h none

/-! ## Records one after the other -/

section

variable {α β : Type*} [DecidableEq α] {w w' : α → List β} {before : α → α → Prop} {xs : List α} {a : α}
  {b : β}

/-- Whoever comes later has nothing yet. -/
theorem flatMap_update (hp : xs.Pairwise before) (hne : ∀ x y, before x y → x ≠ y) (ha : a ∈ xs)
    (hw : ∀ x, before a x → w x = []) :
    xs.flatMap (Function.update w a (w a ++ [b])) = xs.flatMap w ++ [b] := by
  induction xs with
  | nil => cases ha
  | cons x xs ih =>
    obtain ⟨hx, hp⟩ := List.pairwise_cons.1 hp
    rw [List.flatMap_cons, List.flatMap_cons]
    by_cases e : x = a
    · subst e
      have hnil : ∀ v : α → List β, (∀ y, before x y → v y = []) → xs.flatMap v = [] :=
        fun v hv => List.flatMap_eq_nil_iff.2 fun y hy => hv y (hx y hy)
      rw [hnil w hw, hnil (Function.update w x (w x ++ [b])) fun y hy => by
        rw [Function.update_of_ne (hne x y hy).symm, hw y hy]]
      simp
    · have ha : a ∈ xs := by
        rcases List.mem_cons.1 ha with h | h
        · exact absurd h.symm e
        · exact h
      rw [Function.update_of_ne e, ih hp ha, List.append_assoc]

theorem flatMap_update_of_notMem (ha : a ∉ xs) {l : List β} :
    xs.flatMap (Function.update w a l) = xs.flatMap w := by
  refine List.flatMap_congr fun x hx => Function.update_of_ne ?_ ..
  rintro rfl
  exact ha hx

omit [DecidableEq α] in
theorem flatMap_single {g : α → List β} (hp : xs.Nodup) (ha : a ∈ xs) (hg : ∀ x, x ≠ a → g x = []) :
    xs.flatMap g = g a := by
  induction xs with
  | nil => cases ha
  | cons x xs ih =>
    obtain ⟨hx, hp⟩ := List.nodup_cons.1 hp
    rw [List.flatMap_cons]
    by_cases e : x = a
    · subst e
      rw [List.flatMap_eq_nil_iff.2 fun y hy => hg y fun e => hx (e ▸ hy), List.append_nil]
    · have ha : a ∈ xs := by
        rcases List.mem_cons.1 ha with h | h
        · exact absurd h.symm e
        · exact h
      rw [hg x e, List.nil_append, ih hp ha]

omit [DecidableEq α] in
/-- Whoever has something, those before it have all they will ever have. -/
theorem flatMap_prefix (hp : xs.Pairwise before) (hw : ∀ x, w x <+: w' x)
    (hb : ∀ x y, before x y → w y ≠ [] → w x = w' x) : xs.flatMap w <+: xs.flatMap w' := by
  induction xs with
  | nil => exact List.prefix_refl _
  | cons x xs ih =>
    obtain ⟨hx, hp⟩ := List.pairwise_cons.1 hp
    rw [List.flatMap_cons, List.flatMap_cons]
    by_cases hn : ∀ y ∈ xs, w y = []
    · rw [List.flatMap_eq_nil_iff.2 hn, List.append_nil]
      exact (hw x).trans (List.prefix_append _ _)
    · obtain ⟨y, hy, hn⟩ : ∃ y ∈ xs, w y ≠ [] := by simpa using hn
      rw [hb x y (hx y hy) hn]
      exact (List.prefix_append_right_inj _).2 (ih hp)

end

end SysProg.Kahn
