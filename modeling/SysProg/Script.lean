import SysProg.Kahn

/-!
# SysProg.Script

Invariants of a network that look at one process at a time.

* `sent`: all that has ever been sent to a queue.
* `Action.Follows`: the action sends what it may send, and whatever it may receive it goes on well.
* `sent_step`: who sends to a queue.
* `Script`: which message may be the `n`-th one of each queue, and what holds of a process that has
  received and sent so many messages.
* `Script.reachable`: then each process keeps to its part in every run.
* `Action.Next`: where the action leads.
* `Action.rename`: the same program at other queues and flags.
-/

namespace SysProg.Kahn

universe u

variable {ι κ κ' φ φ' V : Type u} {Λ : ι → Type u} {L : Type u}

def sent (s : State ι κ φ V Λ) (c : κ) : List V := s.taken c ++ s.queue c

/-- How many messages have been received from each queue. -/
def received (s : State ι κ φ V Λ) (c : κ) : Nat := (s.taken c).length

def written (s : State ι κ φ V Λ) (c : κ) : Nat := (sent s c).length

theorem received_le (s : State ι κ φ V Λ) (c : κ) : received s c ≤ written s c := by
  rw [received, written, sent, List.length_append]
  omega

theorem queue_length (s : State ι κ φ V Λ) (c : κ) :
    received s c + (s.queue c).length = written s c := by
  rw [received, written, sent, List.length_append]

theorem taken_get {s : State ι κ φ V Λ} {c : κ} {n : Nat} {v : V} (h : (s.taken c)[n]? = some v) :
    (sent s c)[n]? = some v := by
  rw [sent, List.getElem?_append_left (List.getElem?_eq_some_iff.1 h).1, h]

theorem head_get {s : State ι κ φ V Λ} {c : κ} {v : V} (h : (s.queue c).head? = some v) :
    (sent s c)[received s c]? = some v := by
  rw [sent, received, List.getElem?_append_right (Nat.le_refl _), Nat.sub_self,
    ← List.head?_eq_getElem?]
  exact h

section

variable [DecidableEq κ] (msg : κ → Nat → V → Prop) (P : L → (κ → Nat) → (κ → Nat) → Prop)

/-- After `τ` messages received and `ν` sent. -/
def Action.Follows (τ ν : κ → Nat) : Action κ φ V L → Prop
  | .halt => True
  | .send c v l => msg c (ν c) v ∧ P l τ (Function.update ν c (ν c + 1))
  | .recv c k => ∀ v, msg c (τ c) v → P (k v) (Function.update τ c (τ c + 1)) ν
  | .raise _ l => P l τ ν
  | .await _ l => P l τ ν

end

/-- Wherever the action leads. -/
def Action.Next (Q : L → Prop) : Action κ φ V L → Prop
  | .halt => True
  | .send _ _ l => Q l
  | .recv _ k => ∀ v, Q (k v)
  | .raise _ l => Q l
  | .await _ l => Q l

section

variable [DecidableEq κ] {msg : κ → Nat → V → Prop} {P Q R : L → (κ → Nat) → (κ → Nat) → Prop}
  {τ ν : κ → Nat} {a : Action κ φ V L}

theorem Action.Follows.both (hP : a.Follows msg P τ ν) (hQ : a.Follows msg Q τ ν)
    (h : ∀ l τ ν, P l τ ν → Q l τ ν → R l τ ν) : a.Follows msg R τ ν := by
  cases a with
  | halt => trivial
  | send c v l => exact ⟨hP.1, h _ _ _ hP.2 hQ.2⟩
  | recv c k => exact fun v hv => h _ _ _ (hP v hv) (hQ v hv)
  | raise f l => exact h _ _ _ hP hQ
  | await need l => exact h _ _ _ hP hQ

theorem Action.Follows.mono (hP : a.Follows msg P τ ν) (h : ∀ l τ ν, P l τ ν → R l τ ν) :
    a.Follows msg R τ ν :=
  hP.both hP fun l τ ν hl _ => h l τ ν hl

theorem Action.Follows.next {N : L → Prop} (hP : a.Follows msg P τ ν) (hN : a.Next N)
    (h : ∀ l τ ν, P l τ ν → N l → R l τ ν) : a.Follows msg R τ ν := by
  cases a with
  | halt => trivial
  | send c v l => exact ⟨hP.1, h _ _ _ hP.2 hN⟩
  | recv c k => exact fun v hv => h _ _ _ (hP v hv) (hN v)
  | raise f l => exact h _ _ _ hP hN
  | await need l => exact h _ _ _ hP hN

end

/-- `msg c n v`: the `n`-th message of `c` may be `v`. -/
structure Script [DecidableEq κ] (prog : (p : ι) → Λ p → Action κ φ V (Λ p)) (snd rcv : κ → ι) where
  msg : κ → Nat → V → Prop
  part : (p : ι) → Λ p → (κ → Nat) → (κ → Nat) → Prop
  owns : ∀ {p l τ ν}, part p l τ ν → Owns snd rcv p (prog p l)
  follows : ∀ {p l τ ν}, part p l τ ν → (prog p l).Follows msg (part p) τ ν
  /-- Only the queues of the process count. -/
  frame : ∀ {p l τ τ' ν ν'}, (∀ c, rcv c = p → τ' c = τ c) → (∀ c, snd c = p → ν' c = ν c) →
    part p l τ ν → part p l τ' ν'

variable [DecidableEq ι] [DecidableEq κ] [DecidableEq φ]
variable {prog : (p : ι) → Λ p → Action κ φ V (Λ p)} {snd rcv : κ → ι}
  {s s' : State ι κ φ V Λ} {p : ι} {l : Λ p}

/-! ## What a step does to the histories -/

section

theorem fire_send {c : κ} {v : V} {l' : Λ p} :
    sent (fire s p l (.send c v l')) = Function.update (sent s) c (sent s c ++ [v]) := by
  funext c'
  by_cases e : c' = c
  · subst e
    simp only [fire, sent, Function.update_self, List.append_assoc]
  · simp only [fire, sent, Function.update_of_ne e]

theorem fire_recv {c : κ} {k : V → Λ p} {v : V} (hv : (s.queue c).head? = some v) :
    sent (fire s p l (.recv c k)) = sent s ∧
      (fire s p l (.recv c k)).taken = Function.update s.taken c (s.taken c ++ [v]) := by
  obtain ⟨vs, hvs⟩ : ∃ vs, s.queue c = v :: vs := by
    cases hq : s.queue c with
    | nil => rw [hq] at hv; cases hv
    | cons w ws => rw [hq] at hv; cases hv; exact ⟨ws, rfl⟩
  constructor
  · funext c'
    by_cases e : c' = c
    · subst e
      simp only [fire, sent, Function.update_self, hvs, List.take_succ_cons, List.take_zero,
        List.tail_cons, List.append_assoc, List.cons_append, List.nil_append]
    · simp only [fire, sent, Function.update_of_ne e]
  · simp only [fire, hvs, List.take_succ_cons, List.take_zero]

theorem sent_step (hs : step prog s p = some s') {c : κ} (hne : sent s' c ≠ sent s c) :
    ∃ v l, prog p (s.loc p) = .send c v l ∧ sent s' c = sent s c ++ [v] := by
  obtain ⟨l, hl, rfl⟩ := step_eq_some.1 hs
  cases ha : prog p (s.loc p) with
  | halt =>
    rw [ha] at hl
    cases hl
  | send c' v l' =>
    rw [ha] at hne
    rw [fire_send] at hne ⊢
    by_cases e : c = c'
    · subst e
      exact ⟨v, l', rfl, Function.update_self ..⟩
    · exact absurd (Function.update_of_ne e ..) hne
  | recv c' k =>
    rw [ha] at hl hne
    obtain ⟨v, hv, rfl⟩ := Option.map_eq_some_iff.1 hl
    exact absurd (congrFun (fire_recv hv).1 c) hne
  | raise f l' =>
    rw [ha] at hne
    exact absurd rfl hne
  | await need l' =>
    rw [ha] at hne
    exact absurd rfl hne

end

/-! ## Keeping to a script -/

namespace Script

structure Holds (S : Script prog snd rcv) (s : State ι κ φ V Λ) : Prop where
  part : ∀ p, S.part p (s.loc p) (received s) (written s)
  msg : ∀ {c n v}, (sent s c)[n]? = some v → S.msg c n v

variable {S : Script prog snd rcv}

omit [DecidableEq ι] [DecidableEq φ] in
theorem Holds.others (h : S.Holds s) {s' : State ι κ φ V Λ} {q : ι} (hloc : s'.loc q = s.loc q)
    (hτ : ∀ c, rcv c = q → received s' c = received s c)
    (hν : ∀ c, snd c = q → written s' c = written s c) :
    S.part q (s'.loc q) (received s') (written s') := by
  rw [hloc]
  exact S.frame hτ hν (h.part q)

theorem Holds.step (h : S.Holds s) (hs : step prog s p = some s') : S.Holds s' := by
  obtain ⟨l, hl, rfl⟩ := step_eq_some.1 hs
  have hf := S.follows (h.part p)
  have ho := S.owns (h.part p)
  have hq : ∀ {q : ι}, q ≠ p → (fire s p l (prog p (s.loc p))).loc q = s.loc q :=
    fun hqp => fire_loc_of_ne hqp
  cases ha : prog p (s.loc p) with
  | halt =>
    rw [ha] at hl
    cases hl
  | send c v l' =>
    rw [ha] at hl hf ho hq
    cases hl
    have hsent : sent (fire s p l (.send c v l)) = Function.update (sent s) c (sent s c ++ [v]) :=
      fire_send
    have hν : written (fire s p l (.send c v l)) = Function.update (written s) c (written s c + 1) := by
      funext c'
      rw [written, hsent]
      by_cases e : c' = c
      · subst e
        rw [Function.update_self, Function.update_self, List.length_append, List.length_singleton]
        rfl
      · rw [Function.update_of_ne e, Function.update_of_ne e]
        rfl
    refine ⟨fun q => ?_, fun {c' n w} hw => ?_⟩
    · by_cases e : q = p
      · subst e
        rw [hν]
        simp only [fire, Function.update_self]
        exact hf.2
      · refine h.others (hq e) (fun _ _ => rfl) fun c' hc' => ?_
        rw [hν, Function.update_of_ne]
        rintro rfl
        exact e (hc'.symm.trans ho)
    · rw [hsent] at hw
      by_cases e : c' = c
      · subst e
        rw [Function.update_self] at hw
        rcases Nat.lt_trichotomy n (sent s c').length with hn | hn | hn
        · rw [List.getElem?_append_left hn] at hw
          exact h.msg hw
        · subst hn
          rw [List.getElem?_append_right (Nat.le_refl _), Nat.sub_self] at hw
          cases hw
          exact hf.1
        · rw [List.getElem?_eq_none (by simp only [List.length_append, List.length_singleton]; omega)]
            at hw
          cases hw
      · rw [Function.update_of_ne e] at hw
        exact h.msg hw
  | recv c k =>
    rw [ha] at hl hf ho hq
    obtain ⟨v, hv, rfl⟩ := Option.map_eq_some_iff.1 hl
    obtain ⟨hsent, htaken⟩ := fire_recv (s := s) (l := k v) (k := k) hv
    have hν : written (fire s p (k v) (.recv c k)) = written s := by
      funext c'
      rw [written, hsent]
      rfl
    have hτ : received (fire s p (k v) (.recv c k)) =
        Function.update (received s) c (received s c + 1) := by
      funext c'
      rw [received, htaken]
      by_cases e : c' = c
      · subst e
        rw [Function.update_self, Function.update_self, List.length_append, List.length_singleton]
        rfl
      · rw [Function.update_of_ne e, Function.update_of_ne e]
        rfl
    have hmsg : S.msg c (received s c) v := h.msg (head_get hv)
    refine ⟨fun q => ?_, fun hw => h.msg (by rwa [hsent] at hw)⟩
    by_cases e : q = p
    · subst e
      rw [hν, hτ]
      simp only [fire, Function.update_self]
      exact hf v hmsg
    · refine h.others (hq e) (fun c' hc' => ?_) fun _ _ => by rw [hν]
      rw [hτ, Function.update_of_ne]
      rintro rfl
      exact e (hc'.symm.trans ho)
  | raise f l' =>
    rw [ha] at hl hf ho hq
    cases hl
    refine ⟨fun q => ?_, fun hw => h.msg hw⟩
    by_cases e : q = p
    · subst e
      simp only [fire, Function.update_self]
      exact hf
    · exact h.others (hq e) (fun _ _ => rfl) fun _ _ => rfl
  | await need l' =>
    rw [ha] at hl hf ho hq
    simp only [ready] at hl
    split at hl
    · cases hl
      refine ⟨fun q => ?_, fun hw => h.msg hw⟩
      by_cases e : q = p
      · subst e
        simp only [fire, Function.update_self]
        exact hf
      · exact h.others (hq e) (fun _ _ => rfl) fun _ _ => rfl
    · cases hl

theorem reachable (h : S.Holds s) (hr : Reachable (Kahn.step prog) s s') : S.Holds s' :=
  hr.invariant (fun _ _ _ h hs => h.step hs) h

end Script

/-! ## The same program elsewhere -/

omit [DecidableEq κ] [DecidableEq φ] in
def Action.rename (g : κ → κ') (h : φ → φ') : Action κ φ V L → Action κ' φ' V L
  | .halt => .halt
  | .send c v l => .send (g c) v l
  | .recv c k => .recv (g c) k
  | .raise f l => .raise (h f) l
  | .await need l => .await (need.map fun fs => fs.map h) l

omit [DecidableEq ι] [DecidableEq κ] [DecidableEq φ] in
theorem Owns.rename {g : κ → κ'} {h : φ → φ'} {snd rcv : κ' → ι} {a : Action κ φ V L}
    (ha : Owns (snd ∘ g) (rcv ∘ g) p a) : Owns snd rcv p (a.rename g h) := by
  cases a <;> exact ha

omit [DecidableEq φ] in
theorem Action.Follows.rename [DecidableEq κ'] {g : κ → κ'} (hg : Function.Injective g) {h : φ → φ'}
    {msg : κ' → Nat → V → Prop} {P : L → (κ → Nat) → (κ → Nat) → Prop} {τ ν : κ' → Nat}
    {a : Action κ φ V L}
    (ha : a.Follows (fun c => msg (g c)) P (τ ∘ g) (ν ∘ g)) :
    (a.rename g h).Follows msg (fun l τ ν => P l (τ ∘ g) (ν ∘ g)) τ ν := by
  cases a with
  | halt => trivial
  | send c v l =>
    refine ⟨ha.1, ?_⟩
    show P l (τ ∘ g) (Function.update ν (g c) (ν (g c) + 1) ∘ g)
    rw [Function.update_comp_eq_of_injective _ hg]
    exact ha.2
  | recv c k =>
    intro v hv
    show P (k v) (Function.update τ (g c) (τ (g c) + 1) ∘ g) (ν ∘ g)
    rw [Function.update_comp_eq_of_injective _ hg]
    exact ha v hv
  | raise f l => exact ha
  | await need l => exact ha

end SysProg.Kahn
