import Mathlib.Data.List.MinMax
import Mathlib.Data.List.Sort

/-!
# SysProg.MergeTree

Merge sorts whose leaves are sorted by one order and merged by another.

* `Cut`: a list cut into leaves; `sorted` is what the merge sort makes of it.
* `merge_inj`: a merge tells what either half was, up to what they are permutations of.
* `Compatible`: what two sorted lists need for their merge to be sorted.
* `finer`, `sorted_eq_iff`: when two cuts of a list give the same result.
-/

namespace SysProg.MergeTree

variable {α β γ : Type}

inductive Cut (α : Type) where
  | leaf (xs : List α)
  | node (left right : Cut α)

namespace Cut

def flatten : Cut α → List α
  | leaf xs => xs
  | node l r => l.flatten ++ r.flatten

def leaves : Cut α → List (List α)
  | leaf xs => [xs]
  | node l r => l.leaves ++ r.leaves

def map (g : α → β) : Cut α → Cut β
  | leaf xs => leaf (xs.map g)
  | node l r => node (l.map g) (r.map g)

/-- The stretches that are one leaf of one of the two cuts, as the other cuts them. -/
def finer : Cut α → Cut α → List (List (List α))
  | leaf _, s => [s.leaves]
  | node l r, leaf _ => [l.leaves ++ r.leaves]
  | node l r, node l' r' => finer l l' ++ finer r r'

/-- The two cuts are cuts of one list, and a node of both has it in the same place. -/
def Fits : Cut α → Cut α → Prop
  | node l r, node l' r' => Fits l l' ∧ Fits r r'
  | t, s => t.flatten = s.flatten

/-- `t` may be sorted to `ys`, where `before` tells `merge` to take the element of the left half. -/
def Yields (sorts : List α → List α → Prop) (before : α → α → Bool) : Cut α → List α → Prop
  | leaf xs, ys => sorts xs ys
  | node l r, ys =>
    ∃ us vs, l.Yields sorts before us ∧ r.Yields sorts before vs ∧ ys = us.merge vs before

theorem mem_leaves {t : Cut α} {a : α} : a ∈ t.flatten ↔ ∃ xs ∈ t.leaves, a ∈ xs := by
  induction t with
  | leaf xs => simp [flatten, leaves]
  | node l r ihl ihr =>
    simp only [flatten, leaves, List.mem_append, ihl, ihr]
    constructor
    · rintro (⟨xs, h, ha⟩ | ⟨xs, h, ha⟩)
      · exact ⟨xs, .inl h, ha⟩
      · exact ⟨xs, .inr h, ha⟩
    · rintro ⟨xs, h | h, ha⟩
      · exact .inl ⟨xs, h, ha⟩
      · exact .inr ⟨xs, h, ha⟩

theorem flatten_map (g : α → β) (t : Cut α) : (t.map g).flatten = t.flatten.map g := by
  induction t with
  | leaf xs => rfl
  | node l r ihl ihr => simp only [map, flatten, ihl, ihr, List.map_append]

theorem leaves_map (g : α → β) (t : Cut α) : (t.map g).leaves = t.leaves.map (List.map g) := by
  induction t with
  | leaf xs => rfl
  | node l r ihl ihr => simp only [map, leaves, ihl, ihr, List.map_append]

theorem finer_map (g : α → β) (t s : Cut α) :
    finer (t.map g) (s.map g) = (finer t s).map (List.map (List.map g)) := by
  induction t generalizing s with
  | leaf xs => simp only [map, finer, leaves_map, List.map_singleton]
  | node l r ihl ihr =>
    cases s with
    | leaf ys => simp only [map, finer, leaves_map, List.map_singleton, List.map_append]
    | node l' r' => simp only [map, finer, ihl, ihr, List.map_append]

theorem Fits.flatten_eq {t s : Cut α} (h : Fits t s) : t.flatten = s.flatten := by
  induction t generalizing s with
  | leaf xs => cases s <;> exact h
  | node l r ihl ihr =>
    cases s with
    | leaf ys => exact h
    | node l' r' => rw [flatten, flatten, ihl h.1, ihr h.2]

theorem Fits.mem_finer {t s : Cut α} (h : Fits t s) {ls : List (List α)} (hls : ls ∈ finer t s)
    {us : List α} (hus : us ∈ ls) {a : α} (ha : a ∈ us) : a ∈ t.flatten := by
  induction t generalizing s with
  | leaf xs =>
    obtain rfl := List.mem_singleton.1 hls
    rw [h.flatten_eq, mem_leaves]
    exact ⟨us, hus, ha⟩
  | node l r ihl ihr =>
    cases s with
    | leaf ys =>
      obtain rfl := List.mem_singleton.1 hls
      exact mem_leaves.2 ⟨us, hus, ha⟩
    | node l' r' =>
      cases List.mem_append.1 hls with
      | inl hls => exact List.mem_append_left _ (ihl h.1 hls)
      | inr hls => exact List.mem_append_right _ (ihr h.2 hls)

theorem Fits.map {t s : Cut α} (h : Fits t s) (g : α → β) : Fits (t.map g) (s.map g) := by
  induction t generalizing s with
  | leaf xs =>
    have := congrArg (List.map g) h.flatten_eq
    rw [← flatten_map, ← flatten_map] at this
    cases s <;> exact this
  | node l r ihl ihr =>
    cases s with
    | leaf ys =>
      have := congrArg (List.map g) h.flatten_eq
      rwa [← flatten_map, ← flatten_map] at this
    | node l' r' => exact ⟨ihl h.1, ihr h.2⟩

theorem Yields.mono {P Q : List α → List α → Prop} {before : α → α → Bool} {t : Cut α}
    (hPQ : ∀ xs ∈ t.leaves, ∀ ys, P xs ys → Q xs ys) {ys : List α} (h : t.Yields P before ys) :
    t.Yields Q before ys := by
  induction t generalizing ys with
  | leaf xs => exact hPQ xs (by simp [leaves]) ys h
  | node l r ihl ihr =>
    obtain ⟨us, vs, hl, hr, rfl⟩ := h
    exact ⟨us, vs, ihl (fun xs hx => hPQ xs (List.mem_append_left _ hx)) hl,
      ihr (fun xs hx => hPQ xs (List.mem_append_right _ hx)) hr, rfl⟩

theorem Yields.perm {sorts : List α → List α → Prop} {before : α → α → Bool}
    (hsorts : ∀ xs ys, sorts xs ys → ys.Perm xs) {t : Cut α} {ys : List α}
    (h : t.Yields sorts before ys) : ys.Perm t.flatten := by
  induction t generalizing ys with
  | leaf xs => exact hsorts xs ys h
  | node l r ihl ihr =>
    obtain ⟨us, vs, hl, hr, rfl⟩ := h
    exact (List.merge_perm_append before).trans ((ihl hl).append (ihr hr))

end Cut

/-! ## A merge and its halves -/

theorem pairwise_merge {r : α → α → Prop} {takes : α → α → Bool}
    (htrans : ∀ a b c, r a b → r b c → r a c) {us vs : List α}
    (hleft : ∀ a ∈ us, ∀ b ∈ vs, takes a b = true → r a b)
    (hright : ∀ a ∈ us, ∀ b ∈ vs, ¬ takes a b = true → r b a) (hu : us.Pairwise r)
    (hv : vs.Pairwise r) : (us.merge vs takes).Pairwise r := by
  induction us generalizing vs with
  | nil => rwa [List.nil_merge]
  | cons x us ihu =>
    induction vs with
    | nil => rwa [List.merge_right]
    | cons y vs ihv =>
      have hu' := List.pairwise_cons.1 hu
      have hv' := List.pairwise_cons.1 hv
      rw [List.cons_merge_cons]
      split
      · rename_i h
        have hxy := hleft x (by simp) y (by simp) h
        refine List.pairwise_cons.2 ⟨fun z hz => ?_,
          ihu (fun a ha => hleft a (by simp [ha])) (fun a ha => hright a (by simp [ha])) hu'.2 hv⟩
        cases List.mem_merge.1 hz with
        | inl hz => exact hu'.1 z hz
        | inr hz =>
          cases List.mem_cons.1 hz with
          | inl hz => rwa [hz]
          | inr hz => exact htrans _ _ _ hxy (hv'.1 z hz)
      · rename_i h
        have hyx := hright x (by simp) y (by simp) h
        refine List.pairwise_cons.2 ⟨fun z hz => ?_,
          ihv (fun a ha b hb => hleft a ha b (by simp [hb]))
            (fun a ha b hb => hright a ha b (by simp [hb])) hv'.2⟩
        cases List.mem_merge.1 hz with
        | inl hz =>
          cases List.mem_cons.1 hz with
          | inl hz => rwa [hz]
          | inr hz => exact htrans _ _ _ hyx (hu'.1 z hz)
        | inr hz => exact hv'.1 z hz

section Merge

variable [LinearOrder γ] (f : α → γ)

/-- Merging by the order of the images. -/
def before (a b : α) : Bool := decide (f a < f b)

variable {f}

theorem merge_left_max {v : α} {us vs : List α} (hmax : ∀ a ∈ vs, f a ≤ f v) :
    (v :: us).merge vs (before f) = vs ++ v :: us := by
  induction vs with
  | nil => rw [List.merge_right, List.nil_append]
  | cons y vs ih =>
    have hy : ¬ before f v y = true := by simpa [before] using hmax y (by simp)
    rw [List.cons_merge_cons_neg _ _ _ hy, ih fun a ha => hmax a (by simp [ha]), List.cons_append]

/-- Where either half reaches its greatest element, the merge has output all that is before. -/
theorem merge_append {v : α} {us us' vs vs' : List α} (hus : ∀ a ∈ us, f a < f v)
    (hvs : ∀ a ∈ vs, f a < f v) (hus' : ∀ a ∈ us'.head?, a = v) (hvs' : ∀ a ∈ vs'.head?, a = v) :
    (us ++ us').merge (vs ++ vs') (before f) =
      us.merge vs (before f) ++ us'.merge vs' (before f) := by
  induction us generalizing vs with
  | nil =>
    rw [List.nil_append, List.nil_merge]
    cases us' with
    | nil => rw [List.nil_merge, List.nil_merge]
    | cons x us' =>
      obtain rfl := hus' x rfl
      induction vs with
      | nil => rfl
      | cons y vs ih =>
        have hy : ¬ before f x y = true := by simpa [before] using (hvs y (by simp)).le
        rw [List.cons_append, List.cons_merge_cons_neg _ _ _ hy, ih fun a ha => hvs a (by simp [ha]),
          List.cons_append]
  | cons x us ihu =>
    have hx := hus x (by simp)
    have hus := fun a ha => hus a (List.mem_cons_of_mem x ha)
    induction vs with
    | nil =>
      have ih := ihu hus hvs
      rw [List.merge_right, List.nil_append] at ih ⊢
      cases vs' with
      | nil => rw [List.merge_right, List.merge_right]
      | cons y vs' =>
        obtain rfl := hvs' y rfl
        rw [List.cons_append, List.cons_merge_cons_pos _ _ _ (by simpa [before] using hx), ih,
          List.cons_append]
    | cons y vs ihv =>
      rw [List.cons_append, List.cons_append]
      by_cases h : before f x y = true
      · rw [List.cons_merge_cons_pos _ _ _ h, List.cons_merge_cons_pos _ _ _ h, List.cons_append,
          ← ihu hus hvs, List.cons_append]
      · rw [List.cons_merge_cons_neg _ _ _ h, List.cons_merge_cons_neg _ _ _ h, List.cons_append,
          ← ihv fun a ha => hvs a (by simp [ha]), List.cons_append]

theorem append_inj_count [DecidableEq α] {v : α} {us us' vs vs' : List α}
    (h : us ++ us' = vs ++ vs') (hc : us.count v = vs.count v) (hus' : ∀ a ∈ us'.head?, a = v)
    (hvs' : ∀ a ∈ vs'.head?, a = v) : us = vs ∧ us' = vs' := by
  induction us generalizing vs with
  | nil =>
    cases vs with
    | nil => exact ⟨rfl, h⟩
    | cons y vs =>
      have : y = v := hus' y (by rw [show us' = y :: (vs ++ vs') from h]; rfl)
      rw [this, List.count_cons_self, List.count_nil] at hc
      omega
  | cons x us ih =>
    cases vs with
    | nil =>
      have : x = v := hvs' x (by rw [show vs' = x :: (us ++ us') from h.symm]; rfl)
      rw [this, List.count_cons_self, List.count_nil] at hc
      omega
    | cons y vs =>
      obtain ⟨rfl, ht⟩ := List.cons.inj h
      rw [List.count_cons, List.count_cons] at hc
      obtain ⟨rfl, rfl⟩ := ih ht (by omega)
      exact ⟨rfl, rfl⟩

theorem exists_split [DecidableEq α] (v : α) (xs : List α) :
    ∃ us us', xs = us ++ us' ∧ us.count v = 0 ∧ ∀ a ∈ us'.head?, a = v := by
  induction xs with
  | nil => exact ⟨[], [], rfl, rfl, by simp⟩
  | cons x xs ih =>
    by_cases hx : x = v
    · exact ⟨[], x :: xs, rfl, rfl, by simp [hx]⟩
    · obtain ⟨us, us', rfl, hc, h⟩ := ih
      exact ⟨x :: us, us', rfl, by rw [List.count_cons_of_ne hx, hc], h⟩

theorem head_append {v : α} {us vs : List α} (hu : ∀ a ∈ us.head?, a = v)
    (hv : ∀ a ∈ vs.head?, a = v) : ∀ a ∈ (us ++ vs).head?, a = v := by
  cases us with
  | nil => exact hv
  | cons x us => exact hu

theorem merge_tails {v : α} {us vs : List α} (hu : ∀ a ∈ us.head?, a = v)
    (hmax : ∀ a ∈ vs, f a ≤ f v) : us.merge vs (before f) = vs ++ us := by
  cases us with
  | nil => rw [List.nil_merge, List.append_nil]
  | cons x us =>
    obtain rfl := hu x rfl
    exact merge_left_max hmax

theorem exists_max {xs : List α} (h : xs ≠ []) : ∃ v ∈ xs, ∀ a ∈ xs, f a ≤ f v := by
  cases hm : xs.argmax f with
  | none => exact absurd (List.argmax_eq_none.1 hm) h
  | some v => exact ⟨v, List.argmax_mem hm, fun a ha => List.le_of_mem_argmax ha hm⟩

/-- One merge result does not come from two permutations of the halves. -/
theorem merge_inj [DecidableEq α] (hf : Function.Injective f) {us us' vs vs' : List α}
    (hu : us'.Perm us) (hv : vs'.Perm vs)
    (h : us.merge vs (before f) = us'.merge vs' (before f)) : us = us' ∧ vs = vs' := by
  induction hn : us.length + vs.length using Nat.strong_induction_on
    generalizing us us' vs vs' with
  | _ n ih =>
  subst hn
  by_cases hne : us ++ vs = []
  · obtain ⟨rfl, rfl⟩ := List.append_eq_nil_iff.1 hne
    exact ⟨hu.eq_nil.symm, hv.eq_nil.symm⟩
  obtain ⟨v, hmem, hmax⟩ := exists_max (f := f) hne
  have hlt : ∀ xs : List α, (∀ a ∈ xs, a ∈ us ++ vs) → xs.count v = 0 → ∀ a ∈ xs, f a < f v := by
    intro xs hxs hc a ha
    refine lt_of_le_of_ne (hmax a (hxs a ha)) fun e => List.count_eq_zero.1 hc ?_
    rwa [← hf e]
  obtain ⟨u1, u2, rfl, hcu, hhu⟩ := exists_split v us
  obtain ⟨v1, v2, rfl, hcv, hhv⟩ := exists_split v vs
  obtain ⟨u1', u2', rfl, hcu', hhu'⟩ := exists_split v us'
  obtain ⟨v1', v2', rfl, hcv', hhv'⟩ := exists_split v vs'
  have hin : ∀ a ∈ (u1' ++ u2') ++ (v1' ++ v2'), a ∈ (u1 ++ u2) ++ (v1 ++ v2) :=
    fun a ha => (hu.append hv).mem_iff.1 ha
  rw [merge_append (hlt u1 (by simp +contextual) hcu) (hlt v1 (by simp +contextual) hcv) hhu hhv,
    merge_append (hlt u1' (fun a ha => hin a (by simp [ha])) hcu')
      (hlt v1' (fun a ha => hin a (by simp [ha])) hcv') hhu' hhv',
    merge_tails hhu fun a ha => hmax a (by simp [ha]),
    merge_tails hhu' fun a ha => hmax a (hin a (by simp [ha]))] at h
  have hzero : ∀ xs ys : List α, xs.count v = 0 → ys.count v = 0 →
      (xs.merge ys (before f)).count v = 0 := by
    intro xs ys hx hy
    rw [(List.merge_perm_append (before f)).count_eq, List.count_append, hx, hy]
  obtain ⟨h1, h2⟩ := append_inj_count h ((hzero _ _ hcu hcv).trans (hzero _ _ hcu' hcv').symm)
    (head_append hhv hhu) (head_append hhv' hhu')
  have hc := hv.count_eq v
  rw [List.count_append, List.count_append, hcv, hcv'] at hc
  obtain ⟨rfl, rfl⟩ := append_inj_count h2 (by omega) hhu hhu'
  have hlen : u1.length + v1.length < (u1 ++ u2).length + (v1 ++ v2).length := by
    rw [List.length_append, List.length_append]
    have hpos := List.count_pos_iff.2 hmem
    rw [List.count_append, List.count_append, List.count_append, hcu, hcv] at hpos
    have hle := List.count_le_length (a := v) (l := u2)
    have hle' := List.count_le_length (a := v) (l := v2)
    omega
  obtain ⟨rfl, rfl⟩ := ih _ hlen ((List.perm_append_right_iff _).1 hu)
    ((List.perm_append_right_iff _).1 hv) h1 rfl
  exact ⟨rfl, rfl⟩

theorem sublist_merge_left (us vs : List α) : us.Sublist (us.merge vs (before f)) := by
  induction us generalizing vs with
  | nil => exact List.nil_sublist _
  | cons x us ihu =>
    induction vs with
    | nil => rw [List.merge_right]
    | cons y vs ihv =>
      rw [List.cons_merge_cons]
      split
      · exact (ihu _).cons_cons x
      · exact ihv.cons y

theorem sublist_merge_right (us vs : List α) : vs.Sublist (us.merge vs (before f)) := by
  induction us generalizing vs with
  | nil => rw [List.nil_merge]
  | cons x us ihu =>
    induction vs with
    | nil => exact List.nil_sublist _
    | cons y vs ihv =>
      rw [List.cons_merge_cons]
      split
      · exact (ihu _).cons x
      · exact ihv.cons_cons y

end Merge

/-! ## Sorted merges -/

section Sorted

variable [LinearOrder α] [LinearOrder γ] (f : α → γ)

/-- The two orders disagree on `a` and `b`. -/
def Clash (a b : α) : Prop := a < b ∧ f b < f a

/-- Where the orders disagree, the greater of the two comes from the left half, and the smaller one
is also there. -/
def Compatible (us vs : List α) : Prop :=
  ∀ a b, Clash f a b → (a ∈ us → b ∉ vs) ∧ (a ∈ vs → b ∈ us → a ∈ us)

/-- No other element fits between two on which the orders disagree. -/
def Narrow : Prop := ∀ {a b h : α}, Clash f a b → a ≤ h → h < b → f a ≤ f h → h = a

/-- What the merge sort makes of a cut. -/
def Cut.sorted : Cut α → List α
  | leaf xs => xs.insertionSort (· ≤ ·)
  | node l r => l.sorted.merge r.sorted (before f)

variable {f}

theorem Compatible.sorted (hf : Function.Injective f) {us vs : List α} (h : Compatible f us vs)
    (hu : us.Pairwise (· ≤ ·)) (hv : vs.Pairwise (· ≤ ·)) :
    (us.merge vs (before f)).Pairwise (· ≤ ·) := by
  induction us generalizing vs with
  | nil => rwa [List.nil_merge]
  | cons x us ihu =>
    induction vs with
    | nil => rwa [List.merge_right]
    | cons y vs ihv =>
      have hu' := List.pairwise_cons.1 hu
      have hv' := List.pairwise_cons.1 hv
      rw [List.cons_merge_cons]
      split
      · rename_i hxy
        have hxy : f x < f y := by simpa [before] using hxy
        -- otherwise `y` would have to be in the left half, whose first element is `x`
        have hle : x ≤ y := by
          by_contra hlt
          have hlt := not_le.1 hlt
          cases List.mem_cons.1 ((h y x ⟨hlt, hxy⟩).2 (by simp) (by simp)) with
          | inl e => exact hlt.ne e
          | inr hy => exact hlt.not_ge (hu'.1 y hy)
        refine List.pairwise_cons.2 ⟨fun a ha => ?_, ihu (fun a b hab => ?_) hu'.2 hv⟩
        · cases List.mem_merge.1 ha with
          | inl ha => exact hu'.1 a ha
          | inr ha =>
            cases List.mem_cons.1 ha with
            | inl e => exact e ▸ hle
            | inr ha => exact hle.trans (hv'.1 a ha)
        · obtain ⟨h1, h2⟩ := h a b hab
          refine ⟨fun ha => h1 (List.mem_cons_of_mem x ha), fun ha hb => ?_⟩
          cases List.mem_cons.1 (h2 ha (List.mem_cons_of_mem x hb)) with
          | inl e =>
            subst e
            cases List.mem_cons.1 ha with
            | inl e => exact absurd (e ▸ hxy) (lt_irrefl _)
            | inr ha => exact absurd (le_antisymm hle (hv'.1 a ha) ▸ hxy) (lt_irrefl _)
          | inr ha => exact ha
      · rename_i hxy
        have hyx : f y ≤ f x := by simpa [before] using hxy
        have hle : y ≤ x := by
          by_contra hlt
          have hlt := not_le.1 hlt
          have hne : f y ≠ f x := fun e => hlt.ne (hf e).symm
          exact (h x y ⟨hlt, lt_of_le_of_ne hyx hne⟩).1 (by simp) (by simp)
        refine List.pairwise_cons.2 ⟨fun a ha => ?_, ihv (fun a b hab => ?_) hv'.2⟩
        · cases List.mem_merge.1 ha with
          | inl ha =>
            cases List.mem_cons.1 ha with
            | inl e => exact e ▸ hle
            | inr ha => exact hle.trans (hu'.1 a ha)
          | inr ha => exact hv'.1 a ha
        · obtain ⟨h1, h2⟩ := h a b hab
          exact ⟨fun ha hb => h1 ha (List.mem_cons_of_mem y hb),
            fun ha hb => h2 (List.mem_cons_of_mem y ha) hb⟩

theorem Narrow.compatible (hn : Narrow f) {us vs : List α} (hu : us.Pairwise (· ≤ ·))
    (hv : vs.Pairwise (· ≤ ·)) (h : (us.merge vs (before f)).Pairwise (· ≤ ·)) :
    Compatible f us vs := by
  induction us generalizing vs with
  | nil =>
    exact fun a b _ => ⟨fun ha => absurd ha List.not_mem_nil, fun _ hb => absurd hb List.not_mem_nil⟩
  | cons x us ihu =>
    induction vs with
    | nil => exact fun a b _ => ⟨fun _ => List.not_mem_nil, fun ha => absurd ha List.not_mem_nil⟩
    | cons y vs ihv =>
      have hu' := List.pairwise_cons.1 hu
      have hv' := List.pairwise_cons.1 hv
      rw [List.cons_merge_cons] at h
      split at h
      · rename_i hxy
        have hxy : f x < f y := by simpa [before] using hxy
        obtain ⟨hmin, h⟩ := List.pairwise_cons.1 h
        have ih := ihu hu'.2 hv h
        intro a b hab
        refine ⟨fun ha hb => ?_, fun ha hb => ?_⟩
        · cases List.mem_cons.1 ha with
          | inl e =>
            -- `y` would fit between `x` and `b`
            subst e
            have hay : a ≤ y := hmin y (List.mem_merge.2 (.inr (by simp)))
            have hyb : y < b := by
              cases List.mem_cons.1 hb with
              | inl e => exact absurd (e ▸ hab.2) hxy.not_gt
              | inr hb =>
                refine lt_of_le_of_ne (hv'.1 b hb) fun e => ?_
                exact absurd (e ▸ hab.2) hxy.not_gt
            exact absurd (hn hab hay hyb hxy.le ▸ hxy) (lt_irrefl _)
          | inr ha => exact (ih a b hab).1 ha hb
        · cases List.mem_cons.1 hb with
          | inl e =>
            subst e
            exact absurd (hmin a (List.mem_merge.2 (.inr ha))) hab.1.not_ge
          | inr hb => exact List.mem_cons_of_mem x ((ih a b hab).2 ha hb)
      · rename_i hxy
        have hyx : f y ≤ f x := by simpa [before] using hxy
        obtain ⟨hmin, h⟩ := List.pairwise_cons.1 h
        have ih := ihv hv'.2 h
        intro a b hab
        refine ⟨fun ha hb => ?_, fun ha hb => ?_⟩
        · cases List.mem_cons.1 hb with
          | inl e =>
            subst e
            exact absurd (hmin a (List.mem_merge.2 (.inl ha))) hab.1.not_ge
          | inr hb => exact (ih a b hab).1 ha hb
        · cases List.mem_cons.1 ha with
          | inl e =>
            subst e
            have hax : a ≤ x := hmin x (List.mem_merge.2 (.inl (by simp)))
            have hxb : x < b := by
              cases List.mem_cons.1 hb with
              | inl e => exact absurd (e ▸ hab.2) hyx.not_gt
              | inr hb =>
                refine lt_of_le_of_ne (hu'.1 b hb) fun e => ?_
                exact absurd (e ▸ hab.2) hyx.not_gt
            rw [hn hab hax hxb hyx]
            exact List.mem_cons_self
          | inr ha => exact (ih a b hab).2 ha hb

theorem pairwise_merge_iff (hf : Function.Injective f) (hn : Narrow f) {us vs : List α} :
    (us.merge vs (before f)).Pairwise (· ≤ ·) ↔
      us.Pairwise (· ≤ ·) ∧ vs.Pairwise (· ≤ ·) ∧ Compatible f us vs := by
  constructor
  · intro h
    have hu := h.sublist (sublist_merge_left us vs)
    have hv := h.sublist (sublist_merge_right us vs)
    exact ⟨hu, hv, hn.compatible hu hv h⟩
  · rintro ⟨hu, hv, h⟩
    exact h.sorted hf hu hv

/-! ## Cuts of one list -/

theorem Compatible.congr {us vs us' vs' : List α} (hu : ∀ a, a ∈ us' ↔ a ∈ us)
    (hv : ∀ a, a ∈ vs' ↔ a ∈ vs) : Compatible f us' vs' ↔ Compatible f us vs := by
  simp only [Compatible, hu, hv]

theorem compatible_flatten {l r : Cut α} (hl : l.leaves.Pairwise (Compatible f)) :
    Compatible f l.flatten r.flatten ↔ ∀ us ∈ l.leaves, ∀ vs ∈ r.leaves, Compatible f us vs := by
  constructor
  · intro h us hus vs hvs a b hab
    obtain ⟨h1, h2⟩ := h a b hab
    refine ⟨fun ha hb => h1 (Cut.mem_leaves.2 ⟨us, hus, ha⟩) (Cut.mem_leaves.2 ⟨vs, hvs, hb⟩),
      fun ha hb => ?_⟩
    obtain ⟨us', hus', ha'⟩ := Cut.mem_leaves.1
      (h2 (Cut.mem_leaves.2 ⟨vs, hvs, ha⟩) (Cut.mem_leaves.2 ⟨us, hus, hb⟩))
    by_cases e : us = us'
    · exact e ▸ ha'
    -- of the leaves that hold `a` and `b`, the one with `b` is first, and holds `a` as well
    obtain ⟨i, hi, rfl⟩ := List.getElem_of_mem hus
    obtain ⟨j, hj, rfl⟩ := List.getElem_of_mem hus'
    rcases lt_trichotomy i j with hij | rfl | hij
    · exact (List.pairwise_iff_getElem.1 hl i j hi hj hij a b hab).2 ha' hb
    · exact absurd rfl e
    · exact absurd hb ((List.pairwise_iff_getElem.1 hl j i hj hi hij a b hab).1 ha')
  · intro h a b hab
    refine ⟨fun ha hb => ?_, fun ha hb => ?_⟩
    · obtain ⟨us, hus, ha⟩ := Cut.mem_leaves.1 ha
      obtain ⟨vs, hvs, hb⟩ := Cut.mem_leaves.1 hb
      exact (h us hus vs hvs a b hab).1 ha hb
    · obtain ⟨vs, hvs, ha⟩ := Cut.mem_leaves.1 ha
      obtain ⟨us, hus, hb⟩ := Cut.mem_leaves.1 hb
      exact Cut.mem_leaves.2 ⟨us, hus, (h us hus vs hvs a b hab).2 ha hb⟩

namespace Cut

theorem sorted_perm (t : Cut α) : (t.sorted f).Perm t.flatten := by
  induction t with
  | leaf xs => exact List.perm_insertionSort _ xs
  | node l r ihl ihr => exact (List.merge_perm_append _).trans (ihl.append ihr)

theorem pairwise_sorted_iff (hf : Function.Injective f) (hn : Narrow f) (t : Cut α) :
    (t.sorted f).Pairwise (· ≤ ·) ↔ t.leaves.Pairwise (Compatible f) := by
  induction t with
  | leaf xs => exact ⟨fun _ => List.pairwise_singleton _ _, fun _ => List.pairwise_insertionSort _ xs⟩
  | node l r ihl ihr =>
    have hmem : ∀ t : Cut α, ∀ a, a ∈ t.sorted f ↔ a ∈ t.flatten :=
      fun t a => (sorted_perm t).mem_iff
    rw [sorted, pairwise_merge_iff hf hn, ihl, ihr, leaves, List.pairwise_append,
      Compatible.congr (hmem l) (hmem r)]
    constructor
    · rintro ⟨hl, hr, h⟩
      exact ⟨hl, hr, (compatible_flatten hl).1 h⟩
    · rintro ⟨hl, hr, h⟩
      exact ⟨hl, hr, (compatible_flatten hl).2 h⟩

theorem sorted_leaf_iff (hf : Function.Injective f) (hn : Narrow f) {xs : List α} {t : Cut α}
    (h : xs = t.flatten) : (leaf xs).sorted f = t.sorted f ↔ t.leaves.Pairwise (Compatible f) := by
  have hxs : ((leaf xs).sorted f).Pairwise (· ≤ ·) := List.pairwise_insertionSort _ xs
  rw [← pairwise_sorted_iff hf hn]
  constructor
  · intro e
    rwa [← e]
  · intro ht
    have hperm : ((leaf xs).sorted f).Perm (t.sorted f) :=
      (sorted_perm _).trans (h ▸ (sorted_perm t).symm)
    exact hperm.eq_of_pairwise' hxs ht

/-- Two cuts of a list are sorted to the same, unless one of them has a leaf that the other cuts
between elements the two orders disagree on. -/
theorem sorted_eq_iff (hf : Function.Injective f) (hn : Narrow f) {t s : Cut α} (h : Fits t s) :
    t.sorted f = s.sorted f ↔ ∀ ls ∈ finer t s, ls.Pairwise (Compatible f) := by
  induction t generalizing s with
  | leaf xs =>
    have hxs : xs = s.flatten := h.flatten_eq
    rw [sorted_leaf_iff hf hn hxs, finer, List.forall_mem_singleton]
  | node l r ihl ihr =>
    cases s with
    | leaf ys =>
      have hys : ys = (node l r).flatten := h.flatten_eq.symm
      rw [eq_comm, sorted_leaf_iff hf hn hys, finer, List.forall_mem_singleton, leaves]
    | node l' r' =>
      rw [finer, List.forall_mem_append, ← ihl h.1, ← ihr h.2, sorted, sorted]
      constructor
      · intro e
        have hp : ∀ {t s : Cut α}, Fits t s → (s.sorted f).Perm (t.sorted f) := by
          intro t s hts
          exact (sorted_perm s).trans (hts.flatten_eq ▸ (sorted_perm t).symm)
        exact merge_inj hf (hp h.1) (hp h.2) e
      · rintro ⟨hl, hr⟩
        rw [hl, hr]

/-- What a cut may be sorted to, by the images of its elements. -/
theorem Yields.map_eq {β : Type} {sorts : List β → List β → Prop} {takes : β → β → Bool} {g : β → α}
    {t : Cut β} {ys : List β} (h : t.Yields sorts takes ys)
    (hsorts : ∀ xs ∈ t.leaves, ∀ ys, sorts xs ys →
      ys.Perm xs ∧ ys.Pairwise (fun a b => g a ≤ g b))
    (htakes : ∀ a ∈ t.flatten, ∀ b ∈ t.flatten, takes a b = before f (g a) (g b)) :
    ys.Perm t.flatten ∧ ys.map g = (t.map g).sorted f := by
  induction t generalizing ys with
  | leaf xs =>
    obtain ⟨hp, hs⟩ := hsorts xs (by simp [leaves]) ys h
    have hperm : (ys.map g).Perm ((xs.map g).insertionSort (· ≤ ·)) :=
      (hp.map g).trans (List.perm_insertionSort _ _).symm
    exact ⟨hp, hperm.eq_of_pairwise' (List.pairwise_map.2 hs) (List.pairwise_insertionSort _ _)⟩
  | node l r ihl ihr =>
    obtain ⟨us, vs, hl, hr, rfl⟩ := h
    obtain ⟨hpu, hu⟩ := ihl hl (fun xs hx => hsorts xs (List.mem_append_left _ hx))
      fun a ha b hb => htakes a (List.mem_append_left _ ha) b (List.mem_append_left _ hb)
    obtain ⟨hpv, hv⟩ := ihr hr (fun xs hx => hsorts xs (List.mem_append_right _ hx))
      fun a ha b hb => htakes a (List.mem_append_right _ ha) b (List.mem_append_right _ hb)
    refine ⟨(List.merge_perm_append takes).trans (hpu.append hpv), ?_⟩
    rw [map, sorted, ← hu, ← hv]
    refine List.map_merge fun a ha b hb => ?_
    exact htakes a (List.mem_append_left _ (hpu.mem_iff.1 ha)) b
      (List.mem_append_right _ (hpv.mem_iff.1 hb))

end Cut

end Sorted

end SysProg.MergeTree
