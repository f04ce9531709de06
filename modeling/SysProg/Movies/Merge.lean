import SysProg.Movies.Sort

/-!
# SysProg.Movies.Merge

The loops of `merge`, the same in both builds: the two halves of `[l, r]` are read from the shared
arrays into a temporary array of the thread or process.

* `mergeLoop`, `takeRest`, `mergeLoops`: the three `while` loops.
* `leads_mergeLoops`: the temporary array is the merge of the halves by `takesLeft`.
-/

namespace SysProg.Movies

open SysProg.ForkJoin (Leads)

variable {S : Type} [Double S]

/-- `temp->score[len]`, `temp->movie_name[len]` and `len++` -/
def takeCell (d : Nat) (i : Int) (temp : List (Ptr × S)) (k : List (Ptr × S) → Code S) : Code S :=
  readScore d i fun x => readName d i fun p => k (temp ++ [(p, x)])

def mergeLoop (d : Nat) (mid r il ir : Int) (temp : List (Ptr × S))
    (k : Int → Int → List (Ptr × S) → Code S) : Code S :=
  if il ≤ mid ∧ ir ≤ r then
    readScore d il fun x => readScore d ir fun y =>
      if Double.gt x y then
        takeCell d il temp fun temp => mergeLoop d mid r (il + 1) ir temp k
      else if Double.eq x y then
        readName d il fun p => deref p fun t => readName d ir fun q => deref q fun u =>
          if strcmp t u < 0 then
            takeCell d il temp fun temp => mergeLoop d mid r (il + 1) ir temp k
          else
            takeCell d ir temp fun temp => mergeLoop d mid r il (ir + 1) temp k
      else takeCell d ir temp fun temp => mergeLoop d mid r il (ir + 1) temp k
  else k il ir temp
termination_by (mid - il + 1).toNat + (r - ir + 1).toNat
decreasing_by all_goals omega

def takeRest (d : Nat) : Nat → Int → List (Ptr × S) → (List (Ptr × S) → Code S) → Code S
  | 0, _, temp, k => k temp
  | n + 1, i, temp, k => takeCell d i temp fun temp => takeRest d n (i + 1) temp k

/-- The two loops that copy what is left of either half. -/
def takeRests (d : Nat) (mid r : Int) (k : List (Ptr × S) → Code S) (il ir : Int)
    (temp : List (Ptr × S)) : Code S :=
  takeRest d (mid - il + 1).toNat il temp fun temp => takeRest d (r - ir + 1).toNat ir temp k

def mergeLoops (d : Nat) (l r : Int) (k : List (Ptr × S) → Code S) : Code S :=
  let mid := (l + r).tdiv 2
  mergeLoop d mid r l (mid + 1) [] (takeRests d mid r k)

/-! ## What the loops compute -/

def anything (_ : Memory S) : Prop := True

/-- The cells `l` to `r` of the arrays `d`. -/
def cells (d : Nat) (l r : Int) : Set Loc :=
  {x | ∃ i, l ≤ i ∧ i ≤ r ∧ (x = .name d i ∨ x = .score d i)}

theorem name_mem_cells {d : Nat} {l r i : Int} : Loc.name d i ∈ cells d l r ↔ l ≤ i ∧ i ≤ r := by
  constructor
  · rintro ⟨j, h1, h2, h | h⟩
    · cases h; exact ⟨h1, h2⟩
    · cases h
  · intro h; exact ⟨i, h.1, h.2, .inl rfl⟩

theorem score_mem_cells {d : Nat} {l r i : Int} : Loc.score d i ∈ cells d l r ↔ l ≤ i ∧ i ≤ r := by
  constructor
  · rintro ⟨j, h1, h2, h | h⟩
    · cases h
    · cases h; exact ⟨h1, h2⟩
  · intro h; exact ⟨i, h.1, h.2, .inr rfl⟩

theorem cells_mono {d : Nat} {l r l' r' : Int} (hl : l ≤ l') (hr : r' ≤ r) : cells d l' r' ⊆ cells d l r := by
  rintro x ⟨i, h1, h2, hx⟩
  exact ⟨i, by omega, by omega, hx⟩

def Entry.cell (e : Entry S) : Ptr × S := (e.ptr, e.score)

/-- `takesLeft` on entries. -/
def firstOf (a b : Entry S) : Bool := takesLeft a.toMovie b.toMovie

variable {J : Memory S → Prop} {A : Set Loc} {d : Nat} {l r : Int} {m : Memory S}

omit [Double S] in
theorem leads_takeCell {i : Int} {e : Entry S} (hA : cells d l r ⊆ A) (hi : l ≤ i ∧ i ≤ r)
    (he : Shows A d m i e) (temp : List (Ptr × S)) (k : List (Ptr × S) → Code S) :
    Leads J A (takeCell d i temp k) m (k (temp ++ [e.cell])) m := by
  refine .trans (.read (.inl (hA (score_mem_cells.2 hi)))) ?_
  refine .trans (.read (.inl (hA (name_mem_cells.2 hi)))) ?_
  rw [he.score, he.name]
  exact .refl

omit [Double S] in
theorem leads_takeRest {i : Int} {es : List (Entry S)} (hA : cells d l r ⊆ A) (hi : l ≤ i)
    (hr : i + es.length ≤ r + 1) (hes : Along (Shows A d m) i es) (temp : List (Ptr × S))
    (k : List (Ptr × S) → Code S) :
    Leads J A (takeRest d es.length i temp k) m (k (temp ++ es.map Entry.cell)) m := by
  induction es generalizing i temp with
  | nil => rw [List.map_nil, List.append_nil]; exact .refl
  | cons e es ih =>
    obtain ⟨he, hes⟩ := along_cons.1 hes
    rw [List.length_cons] at hr
    refine .trans (leads_takeCell hA ⟨hi, by omega⟩ he temp _) ?_
    have := ih (by omega) (by omega) hes (temp ++ [e.cell])
    rwa [List.append_assoc, List.singleton_append] at this

/-- One comparison of `merge`. -/
theorem leads_compare {mid il ir : Int} {x y : Entry S} (hA : cells d l r ⊆ A)
    (hil : l ≤ il ∧ il ≤ mid) (hir : l ≤ ir ∧ ir ≤ r) (hmid : mid ≤ r) (hx : Shows A d m il x)
    (hy : Shows A d m ir y) (temp : List (Ptr × S)) (k : Int → Int → List (Ptr × S) → Code S) :
    Leads J A (mergeLoop d mid r il ir temp k) m
      (if firstOf x y then mergeLoop d mid r (il + 1) ir (temp ++ [x.cell]) k
        else mergeLoop d mid r il (ir + 1) (temp ++ [y.cell]) k) m := by
  have hil' : l ≤ il ∧ il ≤ r := ⟨hil.1, hil.2.trans hmid⟩
  have hleft := leads_takeCell (J := J) hA hil' hx temp
    fun temp => mergeLoop d mid r (il + 1) ir temp k
  have hright := leads_takeCell (J := J) hA hir hy temp
    fun temp => mergeLoop d mid r il (ir + 1) temp k
  rw [mergeLoop, if_pos ⟨hil.2, hir.2⟩]
  refine .trans (.read (.inl (hA (score_mem_cells.2 hil')))) ?_
  refine .trans (.read (.inl (hA (score_mem_cells.2 hir)))) ?_
  rw [hx.score, hy.score, firstOf, takesLeft]
  by_cases hgt : Double.gt x.score y.score = true
  · simp only [hgt, ↓reduceIte, Bool.true_or]
    exact hleft
  · by_cases heq : Double.eq x.score y.score = true
    · simp only [hgt, heq, ↓reduceIte, Bool.false_or, Bool.true_and, decide_eq_true_eq,
        Bool.false_eq_true]
      refine .trans (.read (.inl (hA (name_mem_cells.2 hil')))) ?_
      rw [hx.name]
      refine (leads_deref hx.titled _).trans ?_
      refine .trans (.read (.inl (hA (name_mem_cells.2 hir)))) ?_
      rw [hy.name]
      refine (leads_deref hy.titled _).trans ?_
      by_cases hs : strcmp x.title y.title < 0
      · simp only [hs, ↓reduceIte]
        exact hleft
      · simp only [hs, ↓reduceIte]
        exact hright
    · simp only [hgt, heq, ↓reduceIte, Bool.false_or, Bool.false_and, Bool.false_eq_true]
      exact hright

omit [Double S] in
theorem leads_takeRests {mid il ir : Int} {xs ys : List (Entry S)} (hA : cells d l r ⊆ A)
    (hil : l ≤ il ∧ il + xs.length = mid + 1) (hir : mid < ir ∧ ir + ys.length = r + 1)
    (hmid : l ≤ mid + 1 ∧ mid ≤ r) (hx : Along (Shows A d m) il xs) (hy : Along (Shows A d m) ir ys)
    (temp : List (Ptr × S)) (k : List (Ptr × S) → Code S) :
    Leads J A (takeRests d mid r k il ir temp) m (k (temp ++ (xs ++ ys).map Entry.cell)) m := by
  rw [takeRests, show (mid - il + 1).toNat = xs.length by omega,
    show (r - ir + 1).toNat = ys.length by omega]
  refine .trans (leads_takeRest hA hil.1 (by omega) hx temp _) ?_
  have := leads_takeRest (J := J) hA (by omega) (by omega) hy (temp ++ xs.map Entry.cell) k
  rwa [List.append_assoc, ← List.map_append] at this

theorem leads_mergeLoop {mid il ir : Int} {xs ys : List (Entry S)} (hA : cells d l r ⊆ A)
    (hil : l ≤ il ∧ il + xs.length = mid + 1) (hir : mid < ir ∧ ir + ys.length = r + 1)
    (hmid : l ≤ mid + 1 ∧ mid ≤ r) (hx : Along (Shows A d m) il xs) (hy : Along (Shows A d m) ir ys)
    (temp : List (Ptr × S)) (k : List (Ptr × S) → Code S) :
    Leads J A (mergeLoop d mid r il ir temp (takeRests d mid r k)) m
      (k (temp ++ (xs.merge ys firstOf).map Entry.cell)) m := by
  have hrests := leads_takeRests (J := J) hA hil hir hmid hx hy temp k
  induction xs generalizing il ir ys temp with
  | nil =>
    rw [mergeLoop, if_neg (by rw [List.length_nil] at hil; omega), List.nil_merge]
    exact hrests
  | cons x xs ihx =>
    have hx' := along_cons.1 hx
    rw [List.length_cons] at hil
    induction ys generalizing ir temp with
    | nil =>
      rw [mergeLoop, if_neg (by rw [List.length_nil] at hir; omega), List.merge_right]
      rw [List.append_nil] at hrests
      exact hrests
    | cons y ys ihy =>
      have hy' := along_cons.1 hy
      rw [List.length_cons] at hir
      refine .trans (leads_compare hA ⟨hil.1, by omega⟩ ⟨by omega, by omega⟩ hmid.2 hx'.1 hy'.1
        temp _) ?_
      rw [List.cons_merge_cons]
      split
      · rename_i hf
        have hl : l ≤ il + 1 ∧ il + 1 + xs.length = mid + 1 := ⟨by omega, by omega⟩
        have hr : mid < ir ∧ ir + (y :: ys).length = r + 1 := ⟨hir.1, by rw [List.length_cons]; omega⟩
        have := ihx hl hr hx'.2 hy (temp ++ [x.cell])
          (leads_takeRests hA hl hr hmid hx'.2 hy _ k)
        rw [List.append_assoc] at this
        exact this
      · rename_i hf
        have hl : l ≤ il ∧ il + (x :: xs).length = mid + 1 := ⟨hil.1, by rw [List.length_cons]; omega⟩
        have hr : mid < ir + 1 ∧ ir + 1 + ys.length = r + 1 := ⟨by omega, by omega⟩
        have := ihy hr hy'.2 (temp ++ [y.cell])
          (leads_takeRests hA hl hr hmid hx hy'.2 _ k)
        rw [List.append_assoc] at this
        exact this

/-- `(l + r) / 2`, for a range that is not empty. -/
theorem mid_bounds (h : 0 ≤ l) (hlr : l ≤ r) :
    l ≤ (l + r).tdiv 2 ∧ (l + r).tdiv 2 ≤ r ∧ (l < r → (l + r).tdiv 2 < r) := by
  rw [Int.tdiv_eq_ediv_of_nonneg (by omega)]
  omega

/-- The temporary array holds the merge of the two halves. -/
theorem leads_mergeLoops {xs ys : List (Entry S)} (hA : cells d l r ⊆ A) (hl : 0 ≤ l) (hlr : l ≤ r)
    (hxs : l + xs.length = (l + r).tdiv 2 + 1) (hys : (l + r).tdiv 2 + 1 + ys.length = r + 1)
    (hx : Along (Shows A d m) l xs) (hy : Along (Shows A d m) ((l + r).tdiv 2 + 1) ys)
    (k : List (Ptr × S) → Code S) :
    Leads J A (mergeLoops d l r k) m (k ((xs.merge ys firstOf).map Entry.cell)) m := by
  have hmid := mid_bounds hl hlr
  exact leads_mergeLoop hA ⟨by omega, hxs⟩ ⟨by omega, hys⟩ ⟨by omega, hmid.2.1⟩ hx hy [] k

/-! ## Printing the answer -/

omit [Double S] in
/-- Writing to the file leaves the titles alone. -/
theorem titled_out {i : Int} {ts us : List Text}
    (hts : Along (fun j t => Titled A m (m (.name d j)) t) i ts) :
    Along (fun j t => Titled A (Function.update m (.out d) us)
      (Function.update m (.out d) us (.name d j)) t) i ts := by
  have hm : ∀ x, x ≠ Loc.out d → Function.update m (.out d) us x = m x :=
    fun x hx => Function.update_of_ne hx _ _
  refine hts.imp fun j t _ _ _ ht => ?_
  rw [hm _ (by simp)]
  exact ht.congr fun b => hm _ (by simp)

omit [Double S] in
theorem leads_printLoop {i : Int} {ts : List Text} (hJ : ∀ m m' : Memory S,
      (∀ x, x ≠ Loc.out d → m' x = m x) → J m → J m')
    (hA : cells d l r ⊆ A) (hout : Loc.out d ∈ A) (hi : l ≤ i) (hr : i + ts.length ≤ r + 1)
    (hts : Along (fun j t => Titled A m (m (.name d j)) t) i ts) :
    ∃ m', (∀ k, Leads J A (printLoop d ts.length i k) m k m') ∧
      m' (.out d) = m (.out d) ++ ts ∧ ∀ x, x ≠ .out d → m' x = m x := by
  induction ts generalizing i m with
  | nil => exact ⟨m, fun k => .refl, (List.append_nil _).symm, fun _ _ => rfl⟩
  | cons t ts ih =>
    obtain ⟨ht, hts⟩ := along_cons.1 hts
    rw [List.length_cons] at hr
    let m1 : Memory S := Function.update m (.out d) (List.append (m (.out d)) [t])
    have hm1 : ∀ x, x ≠ Loc.out d → m1 x = m x := fun x hx => Function.update_of_ne hx _ _
    obtain ⟨m', h, hout', hfr⟩ := ih (m := m1) (by omega) (by omega) (titled_out hts)
    refine ⟨m', fun k => ?_, ?_, fun x hx => (hfr x hx).trans (hm1 x hx)⟩
    · refine .trans (.read (.inl (hA (name_mem_cells.2 ⟨hi, by omega⟩)))) ?_
      refine (leads_deref ht _).trans (.trans (.read (.inl hout)) ?_)
      exact .trans (.write hout (hJ m m1 hm1)) (h k)
    · rw [hout', show m1 (.out d) = List.append (m (.out d)) [t] from Function.update_self ..]
      exact List.append_assoc _ [t] ts

omit [Double S] in
/-- The file of the request holds the titles, one after the other. -/
theorem leads_printMovies (len : Int) (ts : List Text) (hJ : ∀ m m' : Memory S,
      (∀ x, x ≠ Loc.out d → m' x = m x) → J m → J m')
    (hA : cells d 0 (len - 1) ⊆ A) (hout : Loc.out d ∈ A) (hlen : ts.length = len)
    (hts : Along (fun j t => Titled A m (m (.name d j)) t) 0 ts) :
    ∃ m', (∀ k, Leads J A (printMovies d len k) m k m') ∧ m' (.out d) = ts ∧
      ∀ x, x ≠ .out d → m' x = m x := by
  let m1 : Memory S := Function.update m (.out d) []
  have hm1 : ∀ x, x ≠ Loc.out d → m1 x = m x := fun x hx => Function.update_of_ne hx _ _
  obtain ⟨m', h, hout', hfr⟩ := leads_printLoop (m := m1) hJ hA hout (by omega) (by omega)
    (titled_out hts)
  refine ⟨m', fun k => ?_, ?_, fun x hx => (hfr x hx).trans (hm1 x hx)⟩
  · rw [printMovies, show len.toNat = ts.length by omega]
    exact .trans (.write hout (hJ m m1 hm1)) (h k)
  · rw [hout', show m1 (.out d) = [] from Function.update_self ..]
    exact List.nil_append ts

end SysProg.Movies
