import SysProg.Movies.Merge

/-!
# SysProg.Movies.Process

The `PROCESS` build: `mergesort` by processes that share the arrays of a request and the buffers
the titles are in.

* `leaf`, `merge`, `mergesort`, `dealRequest`.
* `sort_congr`: a leaf copies all of the arrays, also the cells the other processes write to at the
  time; what it does depends on the cells of its own range only.
* `leads_copyNames`, `leads_copyScores`: the cells of the range as the leaf sees them.
-/

namespace SysProg.Movies.Process

open SysProg.ForkJoin (Leads)

variable {S : Type} [Double S]

/-- The `Range` a leaf allocates for itself. -/
structure Temp (S : Type) where
  name : Int → Ptr
  score : Int → S

namespace Temp

def setName (t : Temp S) (i : Int) (p : Ptr) : Temp S := { t with name := Function.update t.name i p }

def setScore (t : Temp S) (i : Int) (x : S) : Temp S := { t with score := Function.update t.score i x }

end Temp

/-- `&temp->movie_name[l]` and `&temp->score[l]` -/
def tempArrays (l : Int) : Arrays (Temp S) S where
  getName i t k := k (t.name (l + i))
  getScore i t k := k (t.score (l + i))
  setName i p t k := k (t.setName (l + i) p)
  setScore i x t k := k (t.setScore (l + i) x)

/-- `memcpy(temp->movie_name, arg->movie_name, sizeof(arg->movie_name))` -/
def copyNames (d : Nat) : Nat → Int → Temp S → (Temp S → Code S) → Code S
  | 0, _, t, k => k t
  | n + 1, i, t, k => readName d i fun p => copyNames d n (i + 1) (t.setName i p) k

def copyScores (d : Nat) : Nat → Int → Temp S → (Temp S → Code S) → Code S
  | 0, _, t, k => k t
  | n + 1, i, t, k => readScore d i fun x => copyScores d n (i + 1) (t.setScore i x) k

/-- The loop of a leaf that writes the result back. -/
def writeBack (d : Nat) (t : Temp S) : Nat → Int → Code S → Code S
  | 0, _, k => k
  | n + 1, i, k =>
    writeScore d i (t.score i) <| readName d i fun p => strcpy p (t.name i) <|
      writeBack d t n (i + 1) k

/-- What `malloc` returns is written over before it is read. -/
def leaf (d numOfMovies : Nat) (l r : Int) (k : Code S) : Code S :=
  copyNames d MAX_MOVIES 0 ⟨fun _ => .null, fun _ => Double.negOne⟩ fun t =>
    copyScores d MAX_MOVIES 0 t fun t =>
      sort (tempArrays l) t numOfMovies (r - l + 1) fun t => writeBack d t (r - l + 1).toNat l k

/-- The loop of `merge` that copies the temporary array back. -/
def copyBack (d : Nat) : Nat → Int → List (Ptr × S) → Code S → Code S
  | 0, _, _, k => k
  | _ + 1, _, [], _ => .fail
  | n + 1, i, c :: temp, k => writeScore d i c.2 <| writeName d i c.1 <| copyBack d n (i + 1) temp k

def merge (d : Nat) (l r : Int) (k : Code S) : Code S :=
  mergeLoops d l r fun temp =>
    .write (.copying d l r) true <| copyBack d (r - l + 1).toNat l temp <|
      .write (.copying d l r) false k

/-- The child sorts the left half and exits, the parent the right one and waits. -/
def mergesort (d numOfMovies : Nat) (l r : Int) (level : Nat) (h : level ≤ MAX_LEVEL)
    (k : Code S) : Code S :=
  if l > r then k
  else if hl : level = MAX_LEVEL then leaf d numOfMovies l r k
  else
    let mid := (l + r).tdiv 2
    .par (mergesort d numOfMovies l mid (level + 1) (by omega) .done)
      (mergesort d numOfMovies (mid + 1) r (level + 1) (by omega) .done) (merge d l r k)
termination_by MAX_LEVEL - level

/-- The loop of `deal_request`: each wanted title goes into a shared buffer of its own. -/
def collect {P : Type} (cross : P → P → S) (req : Request P) (d : Nat) :
    List (MovieProfile P) → Nat → (Nat → Code S) → Code S
  | [], len, k => k len
  | mv :: movies, len, k =>
    if wanted req mv then
      writeName d len (.buf len) <| readName d len fun p => strcpy p (.lit mv.title) <|
        writeScore d len (cross mv.profile req.profile) <| collect cross req d movies (len + 1) k
    else collect cross req d movies len k

def dealRequest {P : Type} (cross : P → P → S) (movies : List (MovieProfile P)) (req : Request P)
    (d : Nat) (k : Code S) : Code S :=
  collect cross req d movies 0 fun len =>
    mergesort d movies.length 0 (len - 1) 0 (Nat.zero_le _) (printMovies d len k)

/-! ## The cells a leaf depends on -/

/-- The two copies agree on `[l, r]`. -/
def Agree (l r : Int) (t t' : Temp S) : Prop :=
  ∀ i, l ≤ i → i ≤ r → t.name i = t'.name i ∧ t.score i = t'.score i

variable {l r : Int} {t t' : Temp S}

omit [Double S] in
theorem Agree.setName (h : Agree l r t t') (i : Int) (p : Ptr) :
    Agree l r (t.setName i p) (t'.setName i p) := by
  intro j hj hj'
  refine ⟨?_, (h j hj hj').2⟩
  by_cases e : j = i
  · subst e; simp [Temp.setName]
  · simp [Temp.setName, Function.update_of_ne e, (h j hj hj').1]

omit [Double S] in
theorem Agree.setScore (h : Agree l r t t') (i : Int) (x : S) :
    Agree l r (t.setScore i x) (t'.setScore i x) := by
  intro j hj hj'
  refine ⟨(h j hj hj').1, ?_⟩
  by_cases e : j = i
  · subst e; simp [Temp.setScore]
  · simp [Temp.setScore, Function.update_of_ne e, (h j hj hj').2]

omit [Double S] in
theorem Agree.setName_out {i : Int} (hi : ¬ (l ≤ i ∧ i ≤ r)) (p q : Ptr) :
    Agree l r (t.setName i p) (t.setName i q) := by
  intro j hj hj'
  have e : j ≠ i := by omega
  simp [Temp.setName, Function.update_of_ne e]

omit [Double S] in
theorem Agree.setScore_out {i : Int} (hi : ¬ (l ≤ i ∧ i ≤ r)) (x y : S) :
    Agree l r (t.setScore i x) (t.setScore i y) := by
  intro j hj hj'
  have e : j ≠ i := by omega
  simp [Temp.setScore, Function.update_of_ne e]

omit [Double S] in
theorem validateLoop_congr (h : Agree l r t t') {n : Nat} {i : Int} (hi : 0 ≤ i)
    (hn : l + i + n ≤ r + 1) (k : Code S) :
    validateLoop (tempArrays l) t n i k = validateLoop (tempArrays l) t' n i k := by
  induction n generalizing i with
  | zero => rfl
  | succ n ih =>
    simp only [validateLoop, tempArrays, (h (l + i) (by omega) (by omega)).1]
    split
    · rfl
    · exact ih (by omega) (by omega)

theorem argmaxLoop_congr (h : Agree l r t t') {n : Nat} {i : Int} (ret : Int) (hi : 0 ≤ i)
    (hn : l + i + n ≤ r + 1) (hret : 0 ≤ ret ∧ l + ret ≤ r) (max : S) (k : Int → Code S) :
    argmaxLoop (tempArrays l) t n i ret max k = argmaxLoop (tempArrays l) t' n i ret max k := by
  induction n generalizing i ret max with
  | zero => rfl
  | succ n ih =>
    have hi' := h (l + i) (by omega) (by omega)
    have hret' := h (l + ret) (by omega) (by omega)
    have new := fun mx => ih (i := i + 1) i (by omega) (by omega) ⟨hi, by omega⟩ mx
    have old := ih (i := i + 1) ret (by omega) (by omega) hret max
    simp only [argmaxLoop, tempArrays, hi'.1, hi'.2, hret'.1] at new old ⊢
    simp only [new, old]

/-- `k` does not look at a copy outside `[l, r]`. -/
def Respects (l r : Int) (k : Temp S → Code S) : Prop := ∀ t t', Agree l r t t' → k t = k t'

omit [Double S] in
theorem swap_congr (h : Agree l r t t') {i j : Int} (hi : 0 ≤ i ∧ l + i ≤ r)
    (hj : 0 ≤ j ∧ l + j ≤ r) {k : Temp S → Code S} (hk : Respects l r k) :
    swap (tempArrays l) i j t k = swap (tempArrays l) i j t' k := by
  have hi' := h (l + i) (by omega) (by omega)
  have hj' := h (l + j) (by omega) (by omega)
  simp only [swap, tempArrays, hi'.1, hj'.1]
  have hn := (h.setName (l + i) (t'.name (l + j))).setName (l + j) (t'.name (l + i))
  have hi'' := (hn (l + i) (by omega) (by omega)).2
  have hj'' := (hn (l + j) (by omega) (by omega)).2
  rw [hi'', hj'']
  exact hk _ _ ((hn.setScore (l + i) _).setScore (l + j) _)

omit [Double S] in
theorem secretAt_congr (h : Agree l r t t') {i : Int} (hi : 0 ≤ i ∧ l + i ≤ r)
    {k : Temp S → Code S} (hk : Respects l r k) :
    secretAt (tempArrays l) i t k = secretAt (tempArrays l) i t' k := by
  have hi' := h (l + i) (by omega) (by omega)
  simp only [secretAt, tempArrays, hi'.1, hk _ _ (h.setName (l + i) _)]

theorem sortLoop_congr {n : Nat} {i : Int} (hi : 0 ≤ i) (hn : l + i + n ≤ r)
    {k : Temp S → Code S} (hk : Respects l r k) :
    Respects l r fun t => sortLoop (tempArrays l) (r - l + 1) n i t k := by
  induction n generalizing i with
  | zero => exact hk
  | succ n ih =>
    intro t t' h
    simp only [sortLoop, argmax]
    rw [argmaxLoop_congr h i hi (by omega) ⟨hi, by omega⟩]
    congr 1
    funext idx
    split
    · refine swap_congr h ⟨hi, by omega⟩ ⟨by omega, by omega⟩ fun t t' h => ?_
      exact secretAt_congr h ⟨hi, by omega⟩ (ih (by omega) (by omega))
    · rfl

theorem sort_congr (numOfMovies : Nat) (hlr : l ≤ r) {k : Temp S → Code S} (hk : Respects l r k) :
    Respects l r fun t => sort (tempArrays l) t numOfMovies (r - l + 1) k := by
  intro t t' h
  have hlast : Respects l r fun t => secretAt (tempArrays l) (r - l + 1 - 1) t k :=
    fun t t' h => secretAt_congr h ⟨by omega, by omega⟩ hk
  have hloop := sortLoop_congr (n := (r - l + 1 - 1).toNat) (le_refl 0) (by omega) hlast t t' h
  simp only [sort, validate] at hloop ⊢
  rw [hloop, validateLoop_congr h (le_refl 0) (by omega)]

omit [Double S] in
theorem writeBack_congr {d n : Nat} {i : Int} (hi : l ≤ i) (hn : i + n ≤ r + 1) (k : Code S) :
    Respects l r fun t => writeBack d t n i k := by
  intro t t' h
  induction n generalizing i with
  | zero => rfl
  | succ n ih =>
    have hi' := h i hi (by omega)
    have := ih (i := i + 1) (by omega) (by omega)
    simp only [writeBack] at this ⊢
    rw [hi'.1, hi'.2, this]

omit [Double S] in
theorem copyNames_congr {d n : Nat} {i : Int} {k : Temp S → Code S} (hk : Respects l r k) :
    Respects l r fun t => copyNames d n i t k := by
  induction n generalizing i with
  | zero => exact hk
  | succ n ih =>
    intro t t' h
    simp only [copyNames]
    congr 1
    funext p
    exact ih _ _ (h.setName i p)

omit [Double S] in
theorem copyScores_congr {d n : Nat} {i : Int} {k : Temp S → Code S} (hk : Respects l r k) :
    Respects l r fun t => copyScores d n i t k := by
  induction n generalizing i with
  | zero => exact hk
  | succ n ih =>
    intro t t' h
    simp only [copyScores]
    congr 1
    funext x
    exact ih _ _ (h.setScore i x)

/-! ## The copy of a leaf -/

variable {J : Memory S → Prop} {A : Set Loc} {d : Nat} {m : Memory S}

omit [Double S] in
/-- A loop that copies `cell i`, `cell (i + 1)` and so on into one field of the buffers. -/
theorem leads_copy {α β : Type} {loop : Nat → Int → Temp S → (Temp S → Code S) → Code S}
    {field : Temp S → Int → α} {rest : Temp S → β} (set : Temp S → Int → α → Temp S) (cell : Int → α)
    (hzero : ∀ i t k, loop 0 i t k = k t)
    (hstep : ∀ n i t k, Respects l r k →
      Leads J A (loop (n + 1) i t k) m (loop n (i + 1) (set t i (cell i)) k) m)
    (hfield : ∀ t i x, field (set t i x) = Function.update (field t) i x)
    (hrest : ∀ t i x, rest (set t i x) = rest t) (n : Nat) (i : Int) (t : Temp S) :
    ∃ t' : Temp S, (∀ k, Respects l r k → Leads J A (loop n i t k) m (k t') m) ∧
      rest t' = rest t ∧ (∀ j, i ≤ j → j < i + n → field t' j = cell j) ∧
      ∀ j < i, field t' j = field t j := by
  induction n generalizing i t with
  | zero =>
    refine ⟨t, fun k _ => ?_, rfl, fun j _ _ => by omega, fun _ _ => rfl⟩
    rw [hzero]
    exact .refl
  | succ n ih =>
    obtain ⟨t', h, hs, hin, hout⟩ := ih (i + 1) (set t i (cell i))
    refine ⟨t', fun k hk => (hstep n i t k hk).trans (h k hk), hs.trans (hrest ..), fun j hj hj' => ?_,
      fun j hj => ?_⟩
    · by_cases e : j = i
      · subst e
        rw [hout j (by omega), hfield]
        exact Function.update_self ..
      · exact hin j (by omega) (by omega)
    · rw [hout j (by omega), hfield]
      exact Function.update_of_ne (by omega) _ _

omit [Double S] in
/-- Every cell is read, also those of the other processes; only those of `[l, r]` matter. -/
theorem leads_copyNames (hA : cells d l r ⊆ A) (n : Nat) (i : Int) (t : Temp S) :
    ∃ t' : Temp S, (∀ k, Respects l r k → Leads J A (copyNames d n i t k) m (k t') m) ∧
      t'.score = t.score ∧ (∀ j, i ≤ j → j < i + n → t'.name j = m (.name d j)) ∧
      ∀ j < i, t'.name j = t.name j := by
  refine leads_copy Temp.setName (fun j => m (.name d j)) (fun _ _ _ => rfl) (fun n i t k hk => .read ?_)
    (fun _ _ _ => rfl) (fun _ _ _ => rfl) n i t
  by_cases hi : l ≤ i ∧ i ≤ r
  · exact .inl (hA (name_mem_cells.2 hi))
  · exact .inr fun p q => copyNames_congr hk _ _ (Agree.setName_out hi p q)

omit [Double S] in
theorem leads_copyScores (hA : cells d l r ⊆ A) (n : Nat) (i : Int) (t : Temp S) :
    ∃ t' : Temp S, (∀ k, Respects l r k → Leads J A (copyScores d n i t k) m (k t') m) ∧
      t'.name = t.name ∧ (∀ j, i ≤ j → j < i + n → t'.score j = m (.score d j)) ∧
      ∀ j < i, t'.score j = t.score j := by
  refine leads_copy Temp.setScore (fun j => m (.score d j)) (fun _ _ _ => rfl) (fun n i t k hk => .read ?_)
    (fun _ _ _ => rfl) (fun _ _ _ => rfl) n i t
  by_cases hi : l ≤ i ∧ i ≤ r
  · exact .inl (hA (score_mem_cells.2 hi))
  · exact .inr fun x y => copyScores_congr hk _ _ (Agree.setScore_out hi x y)

end SysProg.Movies.Process
