import SysProg.Tournament.Agreement

/-!
# SysProg.Tournament.Seats

Who plays where in the bracket, whatever the fights come to.

* `bracket_induction`: a battle comes after those it gets its entrants from.
* `fit_entrant`: all come to their battles fit.
* `seat_path`: who comes out of a subtree has won all battles on its way.
* `lost_once`: nobody loses from one seat twice.
* `real`: the real player on a seat; `person_entrant`: its values are those of `player_status.txt`.
* `real_rivals`: nobody meets himself.
* `lost_twice`: who does not come to the final has lost two battles.
-/

namespace SysProg.Tournament

variable {file : List Line} {b b' : Battle} {c d p : Proc} {k q r : PlayerId} {i j : Bool}

/-! ## In the order of the battles -/

def rank : Battle → Nat
  | .G | .H | .I | .J => 0
  | .D | .E | .M | .N => 1
  | .B | .K | .L => 2
  | .F => 3
  | .C => 4
  | .A => 5

/-- The battle that `p` comes from has a rank below `n`. -/
def Earlier (n : Nat) : Proc → Prop
  | .battle b => rank b < n
  | .player k => ∀ b ∈ feeder k, rank b < n

instance (n : Nat) (p : Proc) : Decidable (Earlier n p) :=
  match p with
  | .battle b => inferInstanceAs (Decidable (rank b < n))
  | .player k => inferInstanceAs (Decidable (∀ b ∈ feeder k, rank b < n))

theorem earlier_child (b : Battle) (i : Bool) : Earlier (rank b) (child b i) := by
  cases b <;> cases i <;> decide

theorem bracket_induction {P : Proc → Prop} (first : ∀ k, feeder k = none → P (.player k))
    (agent : ∀ k b, feeder k = some b → (∀ i, P (child b i)) → P (.player k))
    (battle : ∀ b, (∀ i, P (child b i)) → P (.battle b)) (p : Proc) : P p := by
  have key : ∀ n b, rank b < n → ∀ i, P (child b i) := by
    intro n
    induction n with
    | zero => exact fun b hb => absurd hb (Nat.not_lt_zero _)
    | succ n ih =>
      intro b hb i
      have he := earlier_child b i
      generalize child b i = p at he
      cases p with
      | battle b' =>
        have he : rank b' < rank b := he
        exact battle b' (ih b' (by omega))
      | player k =>
        cases hf : feeder k with
        | none => exact first k hf
        | some b' =>
          have he : rank b' < rank b := he b' hf
          exact agent k b' hf (ih b' (by omega))
  cases p with
  | battle b => exact battle b (key _ b (Nat.lt_succ_self _))
  | player k =>
    cases hf : feeder k with
    | none => exact first k hf
    | some b' => exact agent k b' hf (key _ b' (Nat.lt_succ_self _))

variable [Arith]

theorem entrant_first (h : feeder k = none) : entrant file (.player k) = player file k := by
  rw [entrant, h]

theorem fit_entrant (hg : GoodFile file) (p : Proc) : (entrant file p).Fit := by
  induction p using bracket_induction with
  | first k hk =>
    rw [entrant_first hk]
    exact fit_player hg (feeder_none.1 hk)
  | agent k b hk ih =>
    rw [entrant_agent hk]
    exact fit_reenter ih
  | battle b ih =>
    rw [entrant_battle]
    exact fit_winner ih

/-! ## Seats -/

/-- The slot that wins. -/
def wins (file : List Line) (b : Battle) : Bool :=
  winSlot (closing b fun i => entrant file (child b i))

theorem seat_player (k : PlayerId) : (entrant file (.player k)).seat = k := by
  cases hf : feeder k with
  | none => rw [entrant_first hf]; rfl
  | some b => rw [entrant_agent hf]; rfl

theorem seat_battle (b : Battle) :
    (entrant file (.battle b)).seat = (entrant file (child b (wins file b))).seat := by
  rw [entrant_battle]
  rfl

theorem seat_loser (b : Battle) :
    (result file b).loser.seat = (entrant file (child b (!wins file b))).seat := by
  rw [result_eq]
  rfl

theorem seat_below (p : Proc) : Below p (.player (entrant file p).seat) := by
  induction p using tree_induction with
  | player k =>
    rw [seat_player]
    exact .refl
  | battle b ih =>
    rw [seat_battle]
    exact (below_child b _).trans (ih _)

theorem below_of_seat (h : (entrant file p).seat = k) : Below p (.player k) := by
  rw [← h]
  exact seat_below p

omit [Arith] in
theorem slot_eq (h : Below (child b i) p) (h' : Below (child b j) p) : i = j := by
  rcases Bool.eq_or_eq_not j i with rfl | rfl
  · rfl
  · exact absurd h' (not_below_sibling h)

theorem seat_path (h : Below c d) (hd : Below d (.player k)) (hc : (entrant file c).seat = k) :
    (entrant file d).seat = k := by
  induction h with
  | refl => exact hc
  | child b i h ih =>
    have hb := ih ((below_child b i).trans hd)
    rw [seat_battle] at hb
    have hi : wins file b = i := slot_eq (below_of_seat hb) hd
    rwa [hi] at hb

omit [Arith] in
theorem not_below_root (b : Battle) (i : Bool) : ¬ Below (child b i) (.battle .A) :=
  fun h => child_ne_root b i ((below_root _).antisymm h)

/-- Who has lost `b'` has come to no other battle but those before it. -/
theorem lost_once (hl : (result file b').loser.seat = k) (hc : (entrant file (child b i)).seat = k) :
    (b = b' ∧ i = !wins file b) ∨
      (i = wins file b ∧ Below (child b' (!wins file b')) (.battle b)) := by
  rw [seat_loser] at hl
  have h₁ := below_of_seat hc
  have h₂ := below_of_seat hl
  have same : child b i = child b' (!wins file b') → b = b' ∧ i = !wins file b := by
    intro e
    obtain ⟨rfl, rfl⟩ := child_inj e
    exact ⟨rfl, rfl⟩
  rcases h₁.linear h₂ with h | h
  · rcases Below.child_iff.1 h with e | h
    · exact .inl (same e)
    · have hw := seat_path h ((below_child b' _).trans h₂) hc
      rw [seat_battle] at hw
      have he := slot_eq (below_of_seat hw) h₂
      exact absurd he (by simp)
  · rcases Below.child_iff.1 h with e | h
    · exact .inl (same e.symm)
    · have hw := seat_path h ((below_child b _).trans h₁) hl
      rw [seat_battle] at hw
      exact .inr ⟨slot_eq h₁ (below_of_seat hw), h⟩

theorem loser_unique (h : (result file b).loser.seat = k) (h' : (result file b').loser.seat = k) :
    b = b' := by
  rw [seat_loser] at h
  rcases lost_once h' h with h | h
  · exact h.1
  · exact absurd h.1 (by simp)

/-- Who is below a battle and does not come out of it has lost one on its way. -/
theorem lost_below (h : Below c (.player k)) (hc : (entrant file c).seat ≠ k) :
    ∃ b, Below c (.battle b) ∧ (result file b).loser.seat = k := by
  induction c using tree_induction with
  | player q =>
    cases below_player h
    exact absurd (seat_player k) hc
  | battle b ih =>
    rcases below_battle_cases h with e | ⟨i, hi⟩
    · cases e
    · by_cases hk : (entrant file (child b i)).seat = k
      · rcases Bool.eq_or_eq_not i (wins file b) with rfl | rfl
        · exact absurd ((seat_battle b).trans hk) hc
        · exact ⟨b, .refl, (seat_loser b).trans hk⟩
      · obtain ⟨b', hb', hl⟩ := ih i hi hk
        exact ⟨b', (below_child b i).trans hb', hl⟩

/-! ## Real players -/

/-- Who plays on the seat: the loser of the battle before an agent. -/
def real (file : List Line) (k : PlayerId) : PlayerId :=
  match feeder k with
  | some b => (result file b).loser.seat
  | none => k

theorem real_first (h : k ≤ 7) : real file k = k := by
  rw [real, feeder_none.2 h]

theorem real_agent (h : feeder k = some b) : real file k = (result file b).loser.seat := by
  rw [real, h]

variable (file) in
theorem below_loser (b : Battle) : Below (.battle b) (.player (result file b).loser.seat) := by
  rw [seat_loser]
  exact (below_child b _).trans (seat_below _)

theorem loser_le (h : feeder k = some b) : (result file b).loser.seat ≤ 7 := by
  have hu := upper_below (ne_root_of_feeder h) (below_loser file b)
  rw [(upper_feeder h).1] at hu
  exact of_decide_eq_true hu

theorem real_le (k : PlayerId) : real file k ≤ 7 := by
  cases hf : feeder k with
  | none =>
    have hk := feeder_none.1 hf
    rwa [real_first hk]
  | some b =>
    rw [real_agent hf]
    exact loser_le hf

omit [Arith] in
theorem feeder_inj (h : feeder k = some b) (h' : feeder q = some b) : k = q := by
  rw [← feeder_iff] at h h'
  exact Option.some.inj (h.symm.trans h')

theorem real_inj (h : feeder k = some b) (h' : feeder q = some b') (hr : real file k = real file q) :
    k = q := by
  rw [real_agent h, real_agent h'] at hr
  cases loser_unique rfl hr.symm
  exact feeder_inj h h'

/-- The values of player `r` in the file. -/
structure Person (file : List Line) (r : PlayerId) (x : Entrant) : Prop where
  originHP : x.originHP = (readStatus file r).HP
  id : x.status.realPlayerId = r.val
  attack : x.status.ATK = (readStatus file r).ATK
  attr : x.status.attr = (readStatus file r).attr

theorem foldl_scan_id (m : Status) (xs : List Line) :
    (xs.foldl Status.scan m).realPlayerId = m.realPlayerId := by
  induction xs generalizing m with
  | nil => rfl
  | cons x xs ih => exact ih (m.scan x)

theorem readStatus_id (k : PlayerId) : (readStatus file k).realPlayerId = k.val := foldl_scan_id _ _

section

variable {x : Bool → Entrant} (hfit : ∀ i, (x i).Fit)

include hfit

theorem Person.closing {m : Status} (h : Person file r (x i))
    (hm : ∃ hp flag, m = { closing b x i with HP := hp, battleEndedFlag := flag }) :
    Person file r ⟨q, (x i).originHP, m⟩ := by
  obtain ⟨hp, flag, rfl⟩ := hm
  exact ⟨h.originHP, (closing_keeps hfit Status.realPlayerId (fun _ _ _ => rfl) i).trans h.id,
    (closing_keeps hfit Status.ATK (fun _ _ _ => rfl) i).trans h.attack,
    (closing_keeps hfit Status.attr (fun _ _ _ => rfl) i).trans h.attr⟩

end

theorem person_entrant (hg : GoodFile file) (p : Proc) :
    Person file (real file (entrant file p).seat) (entrant file p) := by
  induction p using bracket_induction with
  | first k hk =>
    rw [seat_player, real_first (feeder_none.1 hk), entrant_first hk]
    exact ⟨rfl, readStatus_id k, rfl, rfl⟩
  | agent k b hk ih =>
    have hl := ih (!wins file b)
    rw [← seat_loser, real_first (loser_le hk), ← real_agent hk] at hl
    rw [seat_player, entrant_agent hk]
    exact hl.closing (x := fun i => entrant file (child b i)) (fun i => fit_entrant hg _) ⟨_, _, rfl⟩
  | battle b ih =>
    rw [seat_battle, entrant_battle]
    exact (ih (wins file b)).closing (x := fun i => entrant file (child b i))
      (fun i => fit_entrant hg _) ⟨_, _, rfl⟩

/-! ## Rivals -/

variable (file) in
theorem seat_upper (hb : b ≠ .A) (i : Bool) :
    upper (.player (entrant file (child b i)).seat) = upper (.battle b) :=
  upper_below hb ((below_child b i).trans (seat_below _))

omit [Arith] in
theorem feeder_of_lower (h : upper (.player k) = false) : ∃ b, feeder k = some b := by
  cases hf : feeder k with
  | none =>
    have := decide_eq_true (feeder_none.1 hf)
    rw [upper] at h
    rw [h] at this
    cases this
  | some b => exact ⟨b, rfl⟩

theorem real_rivals (b : Battle) : real file (entrant file (child b false)).seat ≠
    real file (entrant file (child b true)).seat := by
  intro he
  have hne : (entrant file (child b false)).seat ≠ (entrant file (child b true)).seat := by
    intro hs
    have := slot_eq (below_of_seat hs) (seat_below _)
    cases this
  by_cases hb : b = .A
  · subst hb
    have h₀ : upper (.player (entrant file (child .A false)).seat) = true :=
      upper_below (b := .B) (by decide) (seat_below _)
    have h₁ : upper (.player (entrant file (child .A true)).seat) = false :=
      upper_below (b := .C) (by decide) (seat_below _)
    obtain ⟨b', hb'⟩ := feeder_of_lower h₁
    rw [real_first (of_decide_eq_true h₀), real_agent hb'] at he
    rcases lost_once he.symm rfl with h | h
    · exact ne_root_of_feeder hb' h.1.symm
    · exact not_below_root _ _ h.2
  · have h₀ := seat_upper file hb false
    have h₁ := seat_upper file hb true
    cases hu : upper (.battle b) with
    | true =>
      rw [hu] at h₀ h₁
      rw [real_first (of_decide_eq_true h₀), real_first (of_decide_eq_true h₁)] at he
      exact hne he
    | false =>
      rw [hu] at h₀ h₁
      obtain ⟨b₀, hb₀⟩ := feeder_of_lower h₀
      obtain ⟨b₁, hb₁⟩ := feeder_of_lower h₁
      exact hne (real_inj hb₀ hb₁ he)

omit [Arith] in
theorem below_half (k : PlayerId) : Below (.battle (if k ≤ 7 then .B else .C)) (.player k) := by
  rcases below_battle_cases (below_root (.player k)) with e | ⟨i, hi⟩
  · cases e
  · cases i with
    | false =>
      have hu : upper (.player k) = true := upper_below (b := .B) (by decide) hi
      rw [if_pos (of_decide_eq_true hu)]
      exact hi
    | true =>
      have hu : upper (.player k) = false := upper_below (b := .C) (by decide) hi
      rw [if_neg (of_decide_eq_false hu)]
      exact hi

variable (file) in
/-- One battle above and one as an agent. -/
theorem lost_twice (hr : r ≤ 7) (h : ∀ i, real file (entrant file (child .A i)).seat ≠ r) :
    ∃ b₁ b₂, b₁ ≠ b₂ ∧ ∀ b, real file (result file b).loser.seat = r ↔ b = b₁ ∨ b = b₂ := by
  have hB : Below (.battle .B) (.player r) := by
    have := below_half r
    rwa [if_pos hr] at this
  have h₀ : (entrant file (.battle .B)).seat ≠ r := by
    intro hs
    have := h false
    rw [show child .A false = .battle .B from rfl, hs, real_first hr] at this
    exact this rfl
  obtain ⟨b₁, hb₁, hl₁⟩ := lost_below hB h₀
  have hu₁ : upper (.battle b₁) = true := upper_below (b := .B) (by decide) hb₁
  obtain ⟨k, hk⟩ : ∃ k, feeder k = some b₁ := by
    obtain ⟨k, hk⟩ := Option.ne_none_iff_exists'.1 (whichAgent_upper hu₁)
    exact ⟨k, feeder_iff.1 hk⟩
  have hrk : real file k = r := (real_agent hk).trans hl₁
  have hC : Below (.battle .C) (.player k) := by
    have hk' : ¬ k ≤ 7 := of_decide_eq_false (upper_feeder hk).2
    have := below_half k
    rwa [if_neg hk'] at this
  have h₁ : (entrant file (.battle .C)).seat ≠ k := by
    intro hs
    have := h true
    rw [show child .A true = .battle .C from rfl, hs, hrk] at this
    exact this rfl
  obtain ⟨b₂, hb₂, hl₂⟩ := lost_below hC h₁
  have hu₂ : upper (.battle b₂) = false := upper_below (b := .C) (by decide) hb₂
  refine ⟨b₁, b₂, ?_, fun b => ⟨fun hb => ?_, ?_⟩⟩
  · rintro rfl
    rw [hu₁] at hu₂
    cases hu₂
  · cases hf : feeder (result file b).loser.seat with
    | none =>
      rw [real_first (feeder_none.1 hf)] at hb
      exact .inl (loser_unique hb hl₁)
    | some b' =>
      rw [real_agent hf] at hb
      cases loser_unique hb hl₁
      exact .inr (loser_unique (feeder_inj hf hk) hl₂)
  · rintro (rfl | rfl)
    · rw [hl₁, real_first hr]
    · rw [hl₂, hrk]

end SysProg.Tournament
