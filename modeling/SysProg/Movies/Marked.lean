import SysProg.Movies.Order

/-!
# SysProg.Movies.Marked

Titles with any bytes: `sort` compares them without the secret, `merge` with it.

* `Sortable`: what both builds need of the movies.
* `mark`: the secret, on ranks; it is injective, and keeps the order of most titles.
* `mark_narrow`: two titles whose order the secret turns around have no others in between.
* `Clash`, `Compatible`: the movies on which the two comparisons disagree.
-/

namespace SysProg.Movies

open SysProg.MergeTree (Cut)

variable {S : Type} [Double S]

/-- Movies with scores that can be compared, and with titles that fit a buffer together with `room`
more bytes. -/
structure Sortable (room : Nat) (xs : List (Movie S)) : Prop where
  comparable : ∀ x ∈ xs, x.Comparable
  fits : ∀ x ∈ xs, x.title.length + room ≤ MAX_LEN

theorem Sortable.append {room : Nat} {us vs : List (Movie S)} (h : Sortable room (us ++ vs)) :
    Sortable room us ∧ Sortable room vs :=
  ⟨⟨fun x hx => h.1 x (List.mem_append_left _ hx), fun x hx => h.2 x (List.mem_append_left _ hx)⟩,
   ⟨fun x hx => h.1 x (List.mem_append_right _ hx), fun x hx => h.2 x (List.mem_append_right _ hx)⟩⟩

theorem Sortable.mono {room room' : Nat} {xs : List (Movie S)} (h : Sortable room xs)
    (hr : room' ≤ room) : Sortable room' xs :=
  ⟨h.1, fun x hx => by have := h.2 x hx; omega⟩

theorem Proper.sortable {room : Nat} {xs : List (Movie S)} (h : Proper room xs) : Sortable room xs :=
  ⟨h.comparable, h.fits⟩

/-- What `sort` does to the movies of a leaf. -/
def Arranged (xs ys : List (Movie S)) : Prop :=
  ys.Perm xs ∧ ys.Pairwise fun a b => rank a ≤ rank b

/-- `takesLeft`, on movies that have the secret by the time they are merged. -/
def takesMarked (a b : Movie S) : Bool := takesLeft a.secret b.secret

theorem merge_marked (us vs : List (Movie S)) :
    (us.map Movie.secret).merge (vs.map Movie.secret) takesLeft =
      (us.merge vs takesMarked).map Movie.secret :=
  (List.map_merge (f := Movie.secret) (r := takesMarked) fun _ _ _ _ => rfl).symm

theorem yields_perm {t : Cut (Movie S)} {ys : List (Movie S)}
    (h : t.Yields Arranged takesMarked ys) : ys.Perm t.flatten :=
  h.perm fun _ _ h => h.1

/-- Without bytes up to the tab the result is in order. -/
theorem yields_plain {room : Nat} {t : Cut (Movie S)} {ys : List (Movie S)}
    (h : t.Yields Arranged takesMarked ys) (hp : Proper room t.flatten) :
    ys.Perm t.flatten ∧ ys.Pairwise fun a b => rank a ≤ rank b := by
  induction t generalizing ys with
  | leaf xs => exact h
  | node l r ihl ihr =>
    obtain ⟨us, vs, hl, hr, rfl⟩ := h
    obtain ⟨hpl, hpr⟩ := hp.append
    obtain ⟨hpu, hsu⟩ := ihl hl hpl
    obtain ⟨hpv, hsv⟩ := ihr hr hpr
    have hu := hpl.perm hpu
    have hv := hpr.perm hpv
    have hmerge : us.merge vs takesMarked = us.merge vs takesLeft := by
      have hmap : (us.merge vs takesMarked).map id = (us.map id).merge (vs.map id) takesLeft :=
        List.map_merge fun a ha b hb => takesLeft_secret (hu.plain a ha) (hv.plain b hb)
      simpa using hmap
    rw [hmerge]
    exact ⟨(List.merge_perm_append takesLeft).trans (hpu.append hpv),
      merge_sorted hu.comparable hv.comparable hsu hsv⟩

/-! ## The secret on ranks -/

def mark (r : Intᵒᵈ ×ₗ Text) : Intᵒᵈ ×ₗ Text := toLex ((ofLex r).1, (ofLex r).2 ++ key)

theorem mark_injective : Function.Injective mark := by
  intro r s h
  have h := toLex_inj.1 h
  rw [Prod.mk.injEq] at h
  exact ofLex_inj.1 (Prod.ext h.1 (List.append_cancel_right h.2))

theorem secret_comparable {a : Movie S} (h : a.Comparable) : a.secret.Comparable := h

theorem takesMarked_eq {a b : Movie S} (ha : a.Comparable) (hb : b.Comparable) :
    takesMarked a b = MergeTree.before mark (rank a) (rank b) := by
  have h := rank_lt_iff (secret_comparable ha) (secret_comparable hb)
  rw [Bool.eq_iff_iff, MergeTree.before, decide_eq_true_iff]
  exact h.symm

/-- Nothing after a tab and bytes above it sorts between two texts that the tab comes between. -/
theorem not_between {k s t : Text} (hk : ∀ c ∈ k, '\t' < c) (hst : s < t) (ht : t ++ key < k)
    (hs : k ≤ s ++ key) : False := by
  obtain ⟨rest, hkey⟩ : ∃ rest, key = '\t' :: rest := ⟨_, rfl⟩
  induction k generalizing s t with
  | nil => exact absurd ht (List.not_lt_nil _)
  | cons r k ih =>
    have hr : '\t' < r := hk r (by simp)
    cases t with
    | nil => exact absurd hst (List.not_lt_nil _)
    | cons d t =>
      cases s with
      | nil =>
        rw [List.nil_append, hkey, ← not_lt, List.cons_lt_cons_iff] at hs
        exact hs (.inl hr)
      | cons c s =>
        rw [List.cons_append, List.cons_lt_cons_iff] at ht
        rw [List.cons_append, ← not_lt, List.cons_lt_cons_iff, not_or, not_lt, not_and, not_lt] at hs
        rw [List.cons_lt_cons_iff] at hst
        obtain ⟨hrc, hs⟩ := hs
        have hcd : c ≤ d := hst.elim le_of_lt fun h => h.1.le
        have hdr : d ≤ r := ht.elim le_of_lt fun h => h.1.le
        obtain rfl : c = r := le_antisymm (hcd.trans hdr) hrc
        obtain rfl : c = d := le_antisymm hcd hdr
        have hst := hst.resolve_left (lt_irrefl _)
        have ht := ht.resolve_left (lt_irrefl _)
        exact ih (fun x hx => hk x (by simp [hx])) hst.2 ht.2 (hs rfl)

theorem cons_le_cons {c d : Char} {s t : Text} : c :: s ≤ d :: t ↔ c ≤ d ∧ (c = d → s ≤ t) := by
  rw [← not_lt, List.cons_lt_cons_iff, not_or, not_lt, not_and, not_lt]
  exact and_congr_right fun _ => ⟨fun h e => h e.symm, fun h e => h e.symm⟩

theorem append_key_narrow {s t u : Text} (hst : s < t) (hts : t ++ key < s ++ key) (hsu : s ≤ u)
    (hut : u < t) (hsu' : s ++ key ≤ u ++ key) : u = s := by
  obtain ⟨rest, hkey⟩ : ∃ rest, key = '\t' :: rest := ⟨_, rfl⟩
  induction s generalizing t u with
  | nil =>
    cases u with
    | nil => rfl
    | cons e u =>
      cases t with
      | nil => exact absurd hst (List.not_lt_nil _)
      | cons d t =>
        rw [List.nil_append] at hts hsu'
        have hrest : ∀ c ∈ rest, '\t' < c := by
          rw [show rest = "[It's top secret.]".toList from (List.cons.inj hkey).2.symm]
          simp
        have ht : d :: (t ++ key) < '\t' :: rest := hkey ▸ hts
        have hu : '\t' :: rest ≤ e :: (u ++ key) := hkey ▸ hsu'
        rw [List.cons_lt_cons_iff] at ht hut
        rw [cons_le_cons] at hu
        have hed : e ≤ d := hut.elim le_of_lt fun h => h.1.le
        have hdt : d ≤ '\t' := ht.elim le_of_lt fun h => h.1.le
        obtain rfl : e = '\t' := le_antisymm (hed.trans hdt) hu.1
        obtain rfl : d = '\t' := le_antisymm hdt hed
        have ht := ht.resolve_left (lt_irrefl _)
        have hut := hut.resolve_left (lt_irrefl _)
        exact (not_between hrest hut.2 ht.2 (hu.2 rfl)).elim
  | cons c s ih =>
    cases t with
    | nil => exact absurd hst (List.not_lt_nil _)
    | cons d t =>
      cases u with
      | nil => exact absurd (List.nil_lt_cons c s) hsu.not_gt
      | cons e u =>
        rw [List.cons_append, List.cons_append, List.cons_lt_cons_iff] at hts
        rw [List.cons_append, List.cons_append, cons_le_cons] at hsu'
        rw [List.cons_lt_cons_iff] at hst hut
        rw [cons_le_cons] at hsu
        have hcd : c ≤ d := hst.elim le_of_lt fun h => h.1.le
        have hdc : d ≤ c := hts.elim le_of_lt fun h => h.1.le
        obtain rfl : d = c := le_antisymm hdc hcd
        have hed : e ≤ d := hut.elim le_of_lt fun h => h.1.le
        obtain rfl : e = d := le_antisymm hed hsu.1
        have hst := hst.resolve_left (lt_irrefl _)
        have hts := hts.resolve_left (lt_irrefl _)
        have hut := hut.resolve_left (lt_irrefl _)
        rw [ih hst.2 hts.2 (hsu.2 rfl) hut.2 (hsu'.2 rfl)]

theorem mark_narrow : MergeTree.Narrow mark := by
  rintro ⟨x, s⟩ ⟨y, t⟩ ⟨z, u⟩ ⟨hab, hba⟩ hah hhb hmark
  have hab : x < y ∨ x = y ∧ s < t := Prod.Lex.toLex_lt_toLex.1 hab
  have hba : y < x ∨ y = x ∧ t ++ key < s ++ key := Prod.Lex.toLex_lt_toLex.1 hba
  have hah : x < z ∨ x = z ∧ s ≤ u := Prod.Lex.toLex_le_toLex.1 hah
  have hhb : z < y ∨ z = y ∧ u < t := Prod.Lex.toLex_lt_toLex.1 hhb
  have hmark : x < z ∨ x = z ∧ s ++ key ≤ u ++ key := Prod.Lex.toLex_le_toLex.1 hmark
  have hxy : x ≤ y := hab.elim le_of_lt fun h => h.1.le
  have hyx : y ≤ x := hba.elim le_of_lt fun h => h.1.le
  obtain rfl : y = x := le_antisymm hyx hxy
  have hzy : z ≤ y := hhb.elim le_of_lt fun h => h.1.le
  have hyz : y ≤ z := hah.elim le_of_lt fun h => h.1.le
  obtain rfl : z = y := le_antisymm hzy hyz
  have hus := append_key_narrow (hab.resolve_left (lt_irrefl _)).2
    (hba.resolve_left (lt_irrefl _)).2 (hah.resolve_left (lt_irrefl _)).2
    (hhb.resolve_left (lt_irrefl _)).2 (hmark.resolve_left (lt_irrefl _)).2
  rw [hus]

/-! ## Movies the comparisons disagree on -/

/-- `sort` puts `a` before `b`, and `merge` puts `b` before `a`. -/
def Clash (a b : Movie S) : Prop := takesLeft a b = true ∧ takesMarked b a = true

/-- Where the comparisons disagree on movies of both halves, the one that `sort` puts first is in
the right half, and there is another like it in the left one. -/
def Compatible (us vs : List (Movie S)) : Prop :=
  (∀ a ∈ us, ∀ b ∈ vs, ¬ Clash a b) ∧
    ∀ a ∈ vs, ∀ b ∈ us, Clash a b → ∃ c ∈ us, c.title = a.title ∧ Double.eq c.score a.score = true

instance (us vs : List (Movie S)) : Decidable (Compatible us vs) :=
  inferInstanceAs (Decidable ((∀ a ∈ us, ∀ b ∈ vs, ¬ (takesLeft a b = true ∧ takesMarked b a = true)) ∧
    ∀ a ∈ vs, ∀ b ∈ us, (takesLeft a b = true ∧ takesMarked b a = true) →
      ∃ c ∈ us, c.title = a.title ∧ Double.eq c.score a.score = true))

theorem clash_rank {a b : Movie S} (ha : a.Comparable) (hb : b.Comparable) :
    Clash a b ↔ MergeTree.Clash mark (rank a) (rank b) := by
  rw [Clash, MergeTree.Clash, ← rank_lt_iff ha hb, takesMarked_eq hb ha, MergeTree.before,
    decide_eq_true_iff]

theorem rank_eq_iff {a b : Movie S} (ha : a.Comparable) (hb : b.Comparable) :
    rank a = rank b ↔ a.title = b.title ∧ Double.eq a.score b.score = true := by
  obtain ⟨x, -, hx⟩ := ha
  obtain ⟨y, -, hy⟩ := hb
  rw [rank, rank, toLex_inj, Prod.mk.injEq, and_comm]
  simp [Double.eq, Double.compare, hx, hy]

theorem compatible_rank {us vs : List (Movie S)} (hu : ∀ a ∈ us, a.Comparable)
    (hv : ∀ a ∈ vs, a.Comparable) :
    MergeTree.Compatible mark (us.map rank) (vs.map rank) ↔ Compatible us vs := by
  constructor
  · intro h
    refine ⟨fun a ha b hb hab => ?_, fun a ha b hb hab => ?_⟩
    · have hab := (clash_rank (hu a ha) (hv b hb)).1 hab
      exact (h _ _ hab).1 (List.mem_map_of_mem ha) (List.mem_map_of_mem hb)
    · have hab := (clash_rank (hv a ha) (hu b hb)).1 hab
      have hmem := (h _ _ hab).2 (List.mem_map_of_mem ha) (List.mem_map_of_mem hb)
      obtain ⟨c, hc, e⟩ := List.mem_map.1 hmem
      exact ⟨c, hc, (rank_eq_iff (hu c hc) (hv a ha)).1 e⟩
  · rintro ⟨h1, h2⟩ x y hxy
    refine ⟨fun hx hy => ?_, fun hx hy => ?_⟩
    · obtain ⟨a, ha, rfl⟩ := List.mem_map.1 hx
      obtain ⟨b, hb, rfl⟩ := List.mem_map.1 hy
      exact h1 a ha b hb ((clash_rank (hu a ha) (hv b hb)).2 hxy)
    · obtain ⟨a, ha, rfl⟩ := List.mem_map.1 hx
      obtain ⟨b, hb, rfl⟩ := List.mem_map.1 hy
      obtain ⟨c, hc, e⟩ := h2 a ha b hb ((clash_rank (hv a ha) (hu b hb)).2 hxy)
      exact List.mem_map.2 ⟨c, hc, (rank_eq_iff (hu c hc) (hv a ha)).2 e⟩

end SysProg.Movies
