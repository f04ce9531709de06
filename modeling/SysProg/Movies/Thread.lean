import SysProg.Movies.Marked
import SysProg.Movies.Merge

/-!
# SysProg.Movies.Thread

The `THREAD` build: `mergesort` over the arrays of one request, by threads that share them.

* `merge`, `mergesort`, `dealRequest`.
* `cut`: where `mergesort` cuts a list.
* `leads_cut`: what is in the range in the end, each movie with the secret; no other cell is touched.
* `leads_mergesort`: for plain titles the range ends up in order.
-/

namespace SysProg.Movies.Thread

open SysProg.ForkJoin (Leads overlay overlay_mem overlay_notMem)
open SysProg.MergeTree (Cut)

variable {S : Type} [Double S]

def SIZE_LIMIT : Int := 1024

/-- `data[which].movie_name + l` and `data[which].score + l` -/
def dataArrays (d : Nat) (l : Int) : Arrays Unit S where
  getName i _ k := readName d (l + i) k
  getScore i _ k := readScore d (l + i) k
  setName i p _ k := writeName d (l + i) p (k ())
  setScore i x _ k := writeScore d (l + i) x (k ())

/-- Copies `n` elements of the temporary array; reading past its end fails. -/
def memcpy (write : Int → Ptr × S → Code S → Code S) :
    Nat → Int → List (Ptr × S) → Code S → Code S
  | 0, _, _, k => k
  | _ + 1, _, [], _ => .fail
  | n + 1, i, c :: temp, k => write i c (memcpy write n (i + 1) temp k)

def copyScores (d : Nat) : Nat → Int → List (Ptr × S) → Code S → Code S :=
  memcpy fun i c k => writeScore d i c.2 k

def copyNames (d : Nat) : Nat → Int → List (Ptr × S) → Code S → Code S :=
  memcpy fun i c k => writeName d i c.1 k

def merge (d : Nat) (l r : Int) (k : Code S) : Code S :=
  mergeLoops d l r fun temp =>
    copyScores d (r - l + 1).toNat l temp (copyNames d (r - l + 1).toNat l temp k)

theorem mid_lt {l r : Int} (h : 1 < r - l) : l ≤ (l + r).tdiv 2 ∧ (l + r).tdiv 2 < r := by
  have hsign : Int.sign 2 = 1 := rfl
  rw [Int.tdiv_eq_ediv, hsign]
  split <;> omega

def mergesort (d numOfMovies : Nat) (l r : Int) (level : Nat) (k : Code S) : Code S :=
  let mid := (l + r).tdiv 2
  if l > r then k
  else if h : r - l + 1 ≤ SIZE_LIMIT then
    sort (dataArrays d l) () numOfMovies (r - l + 1) fun _ => k
  else if level ≥ MAX_LEVEL then
    mergesort d numOfMovies l mid (level + 1) <|
      mergesort d numOfMovies (mid + 1) r (level + 1) <| merge d l r k
  else
    .par (mergesort d numOfMovies (mid + 1) r (level + 1) .done)
      (mergesort d numOfMovies l mid (level + 1) .done) (merge d l r k)
termination_by (r - l + 1).toNat
decreasing_by
  all_goals
    rw [SIZE_LIMIT] at h
    have := mid_lt (l := l) (r := r) (by omega)
    omega

/-- The loop of `deal_request` that collects the wanted movies. -/
def collect {P : Type} (cross : P → P → S) (req : Request P) (d : Nat) :
    List (MovieProfile P) → Int → (Int → Code S) → Code S
  | [], len, k => k len
  | mv :: movies, len, k =>
    if wanted req mv then
      writeName d len (.lit mv.title) <| writeScore d len (cross mv.profile req.profile) <|
        collect cross req d movies (len + 1) k
    else collect cross req d movies len k

/-- The thread for `mergesort` is joined at once. -/
def dealRequest {P : Type} (cross : P → P → S) (movies : List (MovieProfile P)) (req : Request P)
    (d : Nat) (k : Code S) : Code S :=
  collect cross req d movies 0 fun len =>
    .par (mergesort d movies.length 0 (len - 1) 0 .done) .done (printMovies d len k)

/-! ## The arrays of a request -/

variable {d : Nat} {l r : Int} {m m' : Memory S}

/-- In this build a pointer is known by the text it points to. -/
def entry (x : Movie S) : Entry S := ⟨x, .lit x.title⟩

/-- The cells from `i` on hold the movies. -/
def Loaded (d : Nat) (m : Memory S) (i : Int) (xs : List (Movie S)) : Prop :=
  Along (fun j x => m (.name d j) = .lit x.title ∧ m (.score d j) = x.score) i xs

omit [Double S] in
theorem Loaded.congr {i : Int} {xs : List (Movie S)} (h : Loaded d m i xs)
    (hm : ∀ x ∈ cells d i (i + xs.length - 1), m' x = m x) : Loaded d m' i xs := by
  refine h.imp fun j x hj hj' _ hx => ⟨?_, ?_⟩
  · rw [hm _ (name_mem_cells.2 ⟨hj, by omega⟩)]; exact hx.1
  · rw [hm _ (score_mem_cells.2 ⟨hj, by omega⟩)]; exact hx.2

/-- `data[which].movie_name + l` and `data[which].score + l` in the memory -/
def dataView (d : Nat) (l : Int) : View Unit S :=
  ⟨fun _ m i => m (.name d (l + i)), fun _ m i => m (.score d (l + i))⟩

omit [Double S] in
theorem lawful_data : Lawful (dataArrays d l) (dataView d l) anything (cells d l r) (S := S)
    (r - l + 1) where
  getName h h' k := .read (.inl (name_mem_cells.2 ⟨by omega, by omega⟩))
  getScore h h' k := .read (.inl (score_mem_cells.2 ⟨by omega, by omega⟩))
  setName {i s m} p h h' := by
    refine ⟨(), Function.update m (.name d (l + i)) p, fun k => ?_, ?_, ?_, fun b => ?_⟩
    · exact .write (name_mem_cells.2 ⟨by omega, by omega⟩) fun _ => trivial
    · funext j
      show Function.update m (.name d (l + i)) p (.name d (l + j)) = _
      by_cases hj : j = i
      · subst hj; simp
      · have hne : Loc.name d (l + j) ≠ .name d (l + i) := by simpa using hj
        rw [Function.update_of_ne hj, Function.update_of_ne hne]
        rfl
    · funext j
      have hne : Loc.score d (l + j) ≠ .name d (l + i) := by simp
      exact Function.update_of_ne hne p m
    · have hne : Loc.buf b ≠ .name d (l + i) := by simp
      exact Function.update_of_ne hne p m
  setScore {i s m} x h h' := by
    refine ⟨(), Function.update m (.score d (l + i)) x, fun k => ?_, ?_, ?_, fun b => ?_⟩
    · exact .write (score_mem_cells.2 ⟨by omega, by omega⟩) fun _ => trivial
    · funext j
      have hne : Loc.name d (l + j) ≠ .score d (l + i) := by simp
      exact Function.update_of_ne hne x m
    · funext j
      show Function.update m (.score d (l + i)) x (.score d (l + j)) = _
      by_cases hj : j = i
      · subst hj; simp
      · have hne : Loc.score d (l + j) ≠ .score d (l + i) := by simpa using hj
        rw [Function.update_of_ne hj, Function.update_of_ne hne]
        rfl
    · have hne : Loc.buf b ≠ .score d (l + i) := by simp
      exact Function.update_of_ne hne x m

/-! ## Where a list is cut -/

def cut {α : Type} (xs : List α) : Cut α :=
  if h : (xs.length : Int) ≤ SIZE_LIMIT then .leaf xs
  else .node (cut (xs.take ((xs.length + 1) / 2))) (cut (xs.drop ((xs.length + 1) / 2)))
termination_by xs.length
decreasing_by
  all_goals
    rw [SIZE_LIMIT] at h
    simp only [List.length_take, List.length_drop]
    omega

theorem cut_append {α : Type} {us vs : List α} (h : us.length = ((us ++ vs).length + 1) / 2)
    (hbig : ¬ ((us ++ vs).length : Int) ≤ SIZE_LIMIT) :
    cut (us ++ vs) = .node (cut us) (cut vs) := by
  rw [cut, dif_neg hbig, ← h, List.take_left, List.drop_left]

theorem cut_flatten {α : Type} (xs : List α) : (cut xs).flatten = xs := by
  induction hn : xs.length using Nat.strong_induction_on generalizing xs with
  | _ n ih =>
  subst hn
  rw [cut]
  split
  · rfl
  · rename_i h
    rw [SIZE_LIMIT] at h
    rw [Cut.flatten, ih _ (by simp only [List.length_take]; omega) _ rfl,
      ih _ (by simp only [List.length_drop]; omega) _ rfl, List.take_append_drop]

/-! ## Leaves and merges -/

omit [Double S] in
theorem leads_memcpy {A : Set Loc} (loc : Int → Loc) (val : (j : Int) → Ptr × S → Cell S (loc j))
    (hloc : Function.Injective loc) (i : Int) (temp : List (Ptr × S))
    (hA : ∀ j, i ≤ j → j < i + temp.length → loc j ∈ A) :
    ∃ m' : Memory S, (∀ k, Leads anything A
        (memcpy (fun j c k => .write (loc j) (val j c) k) temp.length i temp k) m k m') ∧
      Along (fun j c => m' (loc j) = val j c) i temp ∧ ∀ x, (∀ j, i ≤ j → x ≠ loc j) → m' x = m x := by
  induction temp generalizing i m with
  | nil => exact ⟨m, fun k => .refl, along_nil, fun _ _ => rfl⟩
  | cons c temp ih =>
    rw [List.length_cons] at hA
    obtain ⟨m', h, hcells, hfr⟩ :=
      ih (m := Function.update m (loc i) (val i c)) (i + 1) fun j h h' =>
        hA j (by omega) (by omega)
    refine ⟨m', fun k => .trans (.write (hA i (by omega) (by omega)) fun _ => trivial) (h k),
      along_cons.2 ⟨?_, hcells⟩, fun x hx => ?_⟩
    · rw [hfr _ fun j hj e => by have := hloc e; omega, Function.update_self]
    · rw [hfr x fun j hj => hx j (by omega), Function.update_of_ne (hx i (by omega))]

omit [Double S] in
theorem Loaded.shows {A : Set Loc} {i : Int} {xs : List (Movie S)} (h : Loaded d m i xs) :
    Along (Shows A d m) i (xs.map entry) :=
  along_map.2 (h.imp fun _ _ _ _ _ hx => ⟨hx.1, hx.2, rfl⟩)

theorem merge_entry (us vs : List (Movie S)) :
    (us.map entry).merge (vs.map entry) firstOf = (us.merge vs takesLeft).map entry :=
  (List.map_merge (f := entry) (r := takesLeft) (s := firstOf) fun _ _ _ _ => rfl).symm

theorem leads_merge {us vs : List (Movie S)} (hl : 0 ≤ l) (hlr : l ≤ r)
    (hus : l + us.length = (l + r).tdiv 2 + 1) (hvs : (l + r).tdiv 2 + 1 + vs.length = r + 1)
    (hu : Loaded d m l us) (hv : Loaded d m ((l + r).tdiv 2 + 1) vs) :
    ∃ m', (∀ k, Leads anything (cells d l r) (merge d l r k) m k m') ∧
      Loaded d m' l (us.merge vs takesLeft) := by
  let temp := ((us.merge vs takesLeft).map entry).map Entry.cell
  have hlen : temp.length = (r - l + 1).toNat := by
    have : (us.merge vs takesLeft).length = us.length + vs.length :=
      ((List.merge_perm_append takesLeft).length_eq).trans List.length_append
    simp only [temp, List.length_map, this]
    omega
  obtain ⟨m1, h1, hcells1, -⟩ := leads_memcpy (A := cells d l r) (m := m) (.score d)
    (fun _ c => c.2) (fun _ _ e => (Loc.score.inj e).2) l temp
    fun j h h' => score_mem_cells.2 ⟨h, by omega⟩
  obtain ⟨m2, h2, hcells2, hfr2⟩ := leads_memcpy (A := cells d l r) (m := m1) (.name d)
    (fun _ c => c.1) (fun _ _ e => (Loc.name.inj e).2) l temp
    fun j h h' => name_mem_cells.2 ⟨h, by omega⟩
  refine ⟨m2, fun k => ?_, ?_⟩
  · refine (leads_mergeLoops subset_rfl hl hlr (by simpa using hus) (by simpa using hvs) hu.shows
      hv.shows _).trans ?_
    rw [merge_entry, ← hlen]
    exact (h1 _).trans (h2 k)
  · have hnames := along_map.1 (along_map.1 hcells2)
    have hscores := along_map.1 (along_map.1 hcells1)
    intro j x hx
    refine ⟨hnames j x hx, ?_⟩
    rw [hfr2 _ fun i _ => by simp]
    exact hscores j x hx

variable {xs : List (Movie S)}

theorem leads_leaf (numOfMovies : Nat) (hlr : l ≤ r) (hlen : l + xs.length = r + 1) (hn : xs.length ≤ numOfMovies)
    (hx : Loaded d m l xs) (hp : Sortable 1 xs) :
    ∃ (m' : Memory S) (ys : List (Movie S)), (∀ k, Leads anything (cells d l r)
        (sort (dataArrays d l) () numOfMovies (r - l + 1) fun _ => k) m k m') ∧
      Arranged xs ys ∧ Loaded d m' l (ys.map Movie.secret) := by
  have hes : Along ((dataView d l).Has (cells d l r) () m) 0 (xs.map entry) := by
    refine along_map.2 fun j x hj => ?_
    have := hx j x hj
    rw [Int.zero_add]
    exact ⟨this.1, this.2, rfl⟩
  have hne : xs.map entry ≠ [] := by
    intro h
    have : xs.length = 0 := by rw [← List.length_map (f := entry), h]; rfl
    omega
  obtain ⟨_, m', fs, h, hperm, hsorted, hcells, -⟩ := (lawful_data (d := d) (l := l) (r := r)).sort
    numOfMovies (by omega) hne (by rw [List.length_map]; omega) hes
    (fun e he => by obtain ⟨x, hx, rfl⟩ := List.mem_map.1 he; exact hp.comparable x hx)
    (fun e he => by obtain ⟨x, hx, rfl⟩ := List.mem_map.1 he; exact hp.fits x hx)
  refine ⟨m', fs.map Entry.toMovie, fun k => h _, ⟨?_, List.pairwise_map.2 hsorted⟩, ?_⟩
  · have := hperm.map Entry.toMovie
    rwa [List.map_map, show Entry.toMovie ∘ entry = (id : Movie S → Movie S) from rfl, List.map_id]
      at this
  · refine along_map.2 (along_map.2 fun j e he => ?_)
    have := along_map.1 hcells j e he
    rw [Int.zero_add] at this
    exact ⟨this.name, this.score⟩

theorem disjoint_cells {mid : Int} : Disjoint (cells d (mid + 1) r) (cells d l mid) := by
  rw [Set.disjoint_left]
  rintro x ⟨i, hi, -, hx⟩ ⟨j, -, hj, hx'⟩
  have : i = j := by
    rcases hx with rfl | rfl <;> rcases hx' with h | h <;> cases h <;> rfl
  omega

/-- `mergesort` sorts its range leaf by leaf, adds the secret to each movie and merges. -/
theorem leads_cut {numOfMovies : Nat} (level : Nat) (hl : 0 ≤ l) (hlen : l + xs.length = r + 1)
    (hn : xs.length ≤ numOfMovies) (hx : Loaded d m l xs) (hp : Sortable 1 xs) :
    ∃ (m' : Memory S) (ys : List (Movie S)),
      (∀ k, Leads anything (cells d l r) (mergesort d numOfMovies l r level k) m k m') ∧
      (cut xs).Yields Arranged takesMarked ys ∧ Loaded d m' l (ys.map Movie.secret) := by
  induction hsize : xs.length using Nat.strong_induction_on generalizing xs l r level m with
  | _ n ih =>
  subst hsize
  by_cases hlr : l > r
  · obtain rfl := List.length_eq_zero_iff.1 (show xs.length = 0 by omega)
    refine ⟨m, [], fun k => ?_, ?_, along_nil⟩
    · rw [mergesort, if_pos hlr]
      exact .refl
    · rw [cut, dif_pos (by simp [SIZE_LIMIT])]
      exact ⟨.refl _, .nil⟩
  by_cases hsmall : r - l + 1 ≤ SIZE_LIMIT
  · obtain ⟨m', ys, h, hsorted, hy⟩ := leads_leaf numOfMovies (by omega) hlen hn hx hp
    refine ⟨m', ys, fun k => ?_, ?_, hy⟩
    · rw [mergesort, if_neg hlr, dif_pos hsmall]
      exact h k
    · rw [cut, dif_pos (by omega)]
      exact hsorted
  have hbig : ¬ (xs.length : Int) ≤ SIZE_LIMIT := by omega
  rw [SIZE_LIMIT] at hsmall
  have hmid := mid_lt (l := l) (r := r) (by omega)
  obtain ⟨us, vs, rfl, hus⟩ : ∃ us vs, xs = us ++ vs ∧ l + us.length = (l + r).tdiv 2 + 1 :=
    ⟨xs.take ((l + r).tdiv 2 + 1 - l).toNat, xs.drop ((l + r).tdiv 2 + 1 - l).toNat,
      (List.take_append_drop _ _).symm, by rw [List.length_take]; omega⟩
  have hmid' : (l + r).tdiv 2 = (l + r) / 2 := Int.tdiv_eq_ediv_of_nonneg (by omega)
  have hcut : cut (us ++ vs) = .node (cut us) (cut vs) := cut_append (by omega) hbig
  rw [hcut]
  rw [List.length_append] at hlen hn ih
  obtain ⟨hxu, hxv⟩ : Loaded d m l us ∧ Loaded d m ((l + r).tdiv 2 + 1) vs := by
    have := along_append.1 hx
    rwa [hus] at this
  obtain ⟨hpu, hpv⟩ := hp.append
  have hinl : cells d l ((l + r).tdiv 2) ⊆ cells d l r := cells_mono (by omega) (by omega)
  have hinr : cells d ((l + r).tdiv 2 + 1) r ⊆ cells d l r := cells_mono (by omega) (by omega)
  obtain ⟨m1, us', h1, hyu, hu⟩ :=
    ih us.length (by omega) (level + 1) hl hus (by omega) hxu hpu rfl
  have hul := (yields_perm hyu).length_eq
  rw [cut_flatten] at hul
  -- the two halves, in sequence or side by side, lead to a memory that holds both results
  have halves : ∃ (m2 : Memory S) (vs' : List (Movie S)), (cut vs).Yields Arranged takesMarked vs' ∧
      Loaded d m2 l (us'.map Movie.secret) ∧
      Loaded d m2 ((l + r).tdiv 2 + 1) (vs'.map Movie.secret) ∧
      ∀ k, Leads anything (cells d l r) (mergesort d numOfMovies l r level k) m
        (merge d l r k) m2 := by
    by_cases hlevel : level ≥ MAX_LEVEL
    · have hxv' : Loaded d m1 ((l + r).tdiv 2 + 1) vs := by
        refine hxv.congr fun x hx => (h1 .done).frame x fun hx' => ?_
        exact (disjoint_cells (r := r)).le_bot ⟨cells_mono (le_refl _) (by omega) hx, hx'⟩
      obtain ⟨m2, vs', h2, hyv, hv⟩ := ih vs.length (by omega) (r := r) (level + 1)
        (by omega) (by omega) (by omega) hxv' hpv rfl
      refine ⟨m2, vs', hyv, ?_, hv, fun k => ?_⟩
      · refine hu.congr fun x hx => (h2 .done).frame x fun hx' => ?_
        rw [List.length_map] at hx
        exact disjoint_cells.le_bot ⟨hx', cells_mono (le_refl _) (by omega) hx⟩
      · rw [mergesort, if_neg hlr, dif_neg (by rw [SIZE_LIMIT]; exact hsmall), if_pos hlevel]
        exact ((h1 _).mono hinl).trans ((h2 _).mono hinr)
    · obtain ⟨m2, vs', h2, hyv, hv⟩ := ih vs.length (by omega) (r := r) (level + 1)
        (by omega) (by omega) (by omega) hxv hpv rfl
      have hvl := (yields_perm hyv).length_eq
      rw [cut_flatten] at hvl
      refine ⟨overlay (cells d ((l + r).tdiv 2 + 1) r) m2
        (overlay (cells d l ((l + r).tdiv 2)) m1 m), vs', hyv, ?_, ?_, fun k => ?_⟩
      · refine hu.congr fun x hx => ?_
        rw [List.length_map] at hx
        have hx : x ∈ cells d l ((l + r).tdiv 2) := cells_mono (le_refl _) (by omega) hx
        rw [overlay_notMem fun hx' => disjoint_cells.le_bot ⟨hx', hx⟩, overlay_mem hx]
      · refine hv.congr fun x hx => ?_
        rw [List.length_map] at hx
        rw [overlay_mem (cells_mono (le_refl _) (by omega) hx)]
      · rw [mergesort, if_neg hlr, dif_neg (by rw [SIZE_LIMIT]; exact hsmall), if_neg hlevel]
        exact .par (h2 _) (h1 _) disjoint_cells hinr hinl (fun _ => trivial) (fun _ => trivial)
          (fun _ _ _ _ _ _ _ => trivial)
  obtain ⟨m2, vs', hyv, hu, hv, h⟩ := halves
  have hvl := (yields_perm hyv).length_eq
  rw [cut_flatten] at hvl
  obtain ⟨m3, h3, hmerged⟩ := leads_merge (l := l) (r := r) hl (by omega)
    (by rw [List.length_map]; omega) (by rw [List.length_map]; omega) hu hv
  rw [merge_marked] at hmerged
  exact ⟨m3, us'.merge vs' takesMarked, fun k => (h k).trans (h3 k), ⟨us', vs', hyu, hyv, rfl⟩,
    hmerged⟩

/-- `mergesort` puts the movies of its range in order and adds the secret to each of them. -/
theorem leads_mergesort {numOfMovies : Nat} (level : Nat) (hl : 0 ≤ l) (hlen : l + xs.length = r + 1)
    (hn : xs.length ≤ numOfMovies) (hx : Loaded d m l xs) (hp : Proper 1 xs) :
    ∃ (m' : Memory S) (ys : List (Movie S)),
      (∀ k, Leads anything (cells d l r) (mergesort d numOfMovies l r level k) m k m') ∧
      ys.Perm xs ∧ ys.Pairwise (fun a b => rank a ≤ rank b) ∧ Loaded d m' l (ys.map Movie.secret) := by
  obtain ⟨m', ys, h, hyields, hy⟩ := leads_cut level hl hlen hn hx hp.sortable
  obtain ⟨hperm, hsorted⟩ := yields_plain hyields (by rwa [cut_flatten])
  rw [cut_flatten] at hperm
  exact ⟨m', ys, h, hperm, hsorted, hy⟩

/-! ## A request -/

variable {P : Type} (cross : P → P → S) (req : Request P) (movies : List (MovieProfile P))

omit [Double S] in
theorem leads_collect {A : Set Loc} (len : Int)
    (hA : cells d len (len + (matching cross req movies).length - 1) ⊆ A) :
    ∃ m' : Memory S, (∀ k, Leads anything A (collect cross req d movies len k) m
        (k (len + (matching cross req movies).length)) m') ∧
      Loaded d m' len (matching cross req movies) ∧
      ∀ x, (∀ i, len ≤ i → x ≠ .name d i ∧ x ≠ .score d i) → m' x = m x := by
  induction movies generalizing len m with
  | nil =>
    refine ⟨m, fun k => ?_, along_nil, fun _ _ => rfl⟩
    simp only [matching, List.filter_nil, List.map_nil, List.length_nil, collect]
    rw [show len + ((0 : Nat) : Int) = len by omega]
    exact .refl
  | cons mv movies ih =>
    by_cases hw : wanted req mv = true
    · have hm : matching cross req (mv :: movies) =
          ⟨mv.title, cross mv.profile req.profile⟩ :: matching cross req movies := by
        simp only [matching, List.filter_cons_of_pos hw, List.map_cons]
      rw [hm, List.length_cons] at hA ⊢
      let m1 : Memory S := Function.update m (.name d len) (.lit mv.title)
      let m2 : Memory S := Function.update m1 (.score d len) (cross mv.profile req.profile)
      have hm1 : ∀ x, x ≠ Loc.name d len → m1 x = m x := fun x hx => Function.update_of_ne hx _ _
      have hm2 : ∀ x, x ≠ Loc.score d len → m2 x = m1 x := fun x hx => Function.update_of_ne hx _ _
      obtain ⟨m', h, hl, hfr⟩ := ih (m := m2) (len + 1)
        ((cells_mono (by omega) (by omega)).trans hA)
      refine ⟨m', fun k => ?_, along_cons.2 ⟨⟨?_, ?_⟩, hl⟩, fun x hx => ?_⟩
      · rw [collect, if_pos hw]
        refine .trans (.write (hA (name_mem_cells.2 ⟨by omega, by omega⟩)) fun _ => trivial) ?_
        refine .trans (.write (hA (score_mem_cells.2 ⟨by omega, by omega⟩)) fun _ => trivial) ?_
        rw [show len + (((matching cross req movies).length + 1 : Nat) : Int) =
          len + 1 + (matching cross req movies).length by omega]
        exact h k
      · rw [hfr _ fun i hi => ⟨by simp only [ne_eq, Loc.name.injEq]; omega, by simp⟩]
        rw [hm2 _ (by simp)]
        exact Function.update_self ..
      · rw [hfr _ fun i hi => ⟨by simp, by simp only [ne_eq, Loc.score.injEq]; omega⟩]
        exact Function.update_self ..
      · rw [hfr x fun i hi => hx i (by omega)]
        obtain ⟨h1, h2⟩ := hx len (le_refl _)
        rw [hm2 x h2, hm1 x h1]
    · have hm : matching cross req (mv :: movies) = matching cross req movies := by
        simp only [matching, List.filter_cons_of_neg hw]
      rw [hm] at hA ⊢
      obtain ⟨m', h, hrest⟩ := ih (m := m) len hA
      refine ⟨m', fun k => ?_, hrest⟩
      rw [collect, if_neg hw]
      exact h k

/-- The whole of `deal_request`: the answer is what `mergesort` leaves in the arrays. -/
theorem leads_request (hp : Sortable 1 (matching cross req movies)) :
    ∃ (m' : Memory S) (ys : List (Movie S)),
      (∀ k, Leads anything (cells d 0 ((matching cross req movies).length - 1) ∪ {.out d})
        (dealRequest cross movies req d k) m k m') ∧
      (cut (matching cross req movies)).Yields Arranged takesMarked ys ∧
      Loaded d m' 0 (ys.map Movie.secret) ∧ m' (.out d) = ys.map fun x => x.title ++ key := by
  let n := (matching cross req movies).length
  let A := cells d 0 (n - 1)
  have hle : n ≤ movies.length := by
    simp only [n, matching, List.length_map]
    exact List.length_filter_le _ _
  obtain ⟨m1, h1, hl, -⟩ := leads_collect (A := A) (d := d) (m := m) cross req movies 0
    (cells_mono (le_refl _) (by simp [n]))
  rw [Int.zero_add] at h1
  obtain ⟨m2, ys, h2, hyields, hy⟩ := leads_cut (r := (n : Int) - 1) 0 (le_refl 0)
    (by simp [n]) hle hl hp
  have hlen : ys.length = n := by rw [(yields_perm hyields).length_eq, cut_flatten]
  let m3 : Memory S := overlay A m2 (overlay ∅ m1 m1)
  have hy3 : Loaded d m3 0 (ys.map Movie.secret) := by
    refine hy.congr fun x hx => overlay_mem ?_
    rw [List.length_map, hlen] at hx
    exact cells_mono (le_refl _) (by omega) hx
  obtain ⟨m4, h4, hout, hfr⟩ := leads_printMovies (J := anything) (A := A ∪ {.out d}) (d := d)
    (m := m3) n (ys.map fun x => x.title ++ key) (fun _ _ _ h => h)
    Set.subset_union_left (Set.mem_union_right _ rfl) (by rw [List.length_map, hlen])
    (along_map.2 ((along_map.1 hy3).imp fun j x _ _ _ hx => by rw [hx.1]; rfl))
  refine ⟨m4, ys, fun k => ?_, hyields, ?_, hout⟩
  · have hpar : Leads anything A
        (.par (mergesort d movies.length 0 (n - 1) 0 .done) .done (printMovies d n k)) m1
        (printMovies d n k) m3 :=
      .par (h2 _) (.refl (J := anything) (A := ∅)) (Set.disjoint_empty _) subset_rfl
        (Set.empty_subset _) (fun _ => trivial) (fun _ => trivial) (fun _ _ _ _ _ _ _ => trivial)
    refine Leads.trans ?_ (h4 k)
    exact ((h1 fun len => .par (mergesort d movies.length 0 (len - 1) 0 .done) .done
      (printMovies d len k)).trans hpar).mono Set.subset_union_left
  · exact hy3.congr fun x hx => hfr x fun e => by
      subst e
      obtain ⟨i, -, -, h | h⟩ := hx <;> cases h

/-- For plain titles the arrays and the answer are in order. -/
theorem leads_dealRequest (hp : Proper 1 (matching cross req movies)) :
    ∃ (m' : Memory S) (ys : List (Movie S)),
      (∀ k, Leads anything (cells d 0 ((matching cross req movies).length - 1) ∪ {.out d})
        (dealRequest cross movies req d k) m k m') ∧
      ys.Perm (matching cross req movies) ∧ ys.Pairwise (fun a b => rank a ≤ rank b) ∧
      Loaded d m' 0 (ys.map Movie.secret) ∧ m' (.out d) = ys.map fun x => x.title ++ key := by
  obtain ⟨m', ys, h, hyields, hy, hout⟩ := leads_request cross req movies (d := d) (m := m) hp.sortable
  obtain ⟨hperm, hsorted⟩ := yields_plain hyields (by rwa [cut_flatten])
  rw [cut_flatten] at hperm
  exact ⟨m', ys, h, hperm, hsorted, hy, hout⟩

/-- Under every interleaving of the threads that sort for a request. -/
theorem thread_sorts (m : Memory S) (hp : Proper 1 (matching cross req movies)) :
    ∃ ys : List (Movie S), ys.Perm (matching cross req movies) ∧ ys.Pairwise InOrder ∧
      ForkJoin.Correct (dealRequest cross movies req d .done) m fun f =>
        Loaded d f 0 (ys.map Movie.secret) ∧ f (.out d) = ys.map fun x => x.title ++ key := by
  obtain ⟨m', ys, h, hperm, hsorted, hl, hout⟩ := leads_dealRequest cross req movies (d := d) (m := m) hp
  have hc := (hp.perm hperm).comparable
  refine ⟨ys, hperm, hsorted.imp_of_mem fun ha hb hab => ?_, (h .done).correct ⟨hl, hout⟩⟩
  exact (rank_le_iff (hc _ ha) (hc _ hb)).1 hab

theorem thread_sorts_two :
    ∃ ys : List (Movie Int), ys.Perm (matching (· * ·) everything twoMovies) ∧ ys.Pairwise InOrder ∧
      ForkJoin.Correct (dealRequest (· * ·) twoMovies everything 0 .done) blank fun f =>
        Loaded 0 f 0 (ys.map Movie.secret) ∧ f (.out 0) = ys.map fun x => x.title ++ key :=
  thread_sorts (· * ·) everything twoMovies blank (twoMovies_proper.mono (by decide))

end SysProg.Movies.Thread
