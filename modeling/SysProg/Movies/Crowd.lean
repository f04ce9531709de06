import SysProg.Alive
import SysProg.Movies.Pserver

/-!
# SysProg.Movies.Crowd

How many threads and processes there are at a time.

* `Single`: accesses to the arrays of `sort` start nothing.
* `mergesort_width`, `createJoin_width`: bounds along the text of the two programs.
* `Thread.crowd`, `Process.crowd`: what one request takes; `crowd_full`: for most data, all it can.
* `tserver_peak`, `pserver_peak`: the most threads and processes in a run.
-/

namespace SysProg.Movies

open SysProg.ForkJoin (Width Reaches Peak alive)

variable {σ S : Type} [Double S] {N d n : Nat} {k : Code S}

section

variable (hN : 1 ≤ N)
include hN

omit [Double S] in
theorem readName_width {i : Int} {k : Ptr → Code S} (hk : ∀ p, Width N (k p)) :
    Width N (readName d i k) := ⟨hN, hk⟩

omit [Double S] in
theorem readScore_width {i : Int} {k : S → Code S} (hk : ∀ x, Width N (k x)) :
    Width N (readScore d i k) := ⟨hN, hk⟩

omit [Double S] in
theorem deref_width {p : Ptr} {k : Text → Code S} (hk : ∀ t, Width N (k t)) : Width N (deref p k) := by
  cases p with
  | null => exact hN
  | lit s => exact hk s
  | buf b => exact ⟨hN, hk⟩

omit [Double S] in
theorem strcpy_width {dst src : Ptr} (hk : Width N k) : Width N (strcpy dst src k) := by
  refine deref_width hN fun s => ?_
  cases dst with
  | null => exact hN
  | lit t => exact hN
  | buf b =>
    by_cases h : s.length + 1 ≤ MAX_LEN
    · simp only [h, if_true]
      exact hk
    · simp only [h, if_false]
      exact hN

/-! ## sort -/

/-- Every access is a step of the part that makes it. -/
structure Single (N : Nat) (a : Arrays σ S) : Prop where
  getName : ∀ {i s k}, (∀ p, Width N (k p)) → Width N (a.getName i s k)
  getScore : ∀ {i s k}, (∀ x, Width N (k x)) → Width N (a.getScore i s k)
  setName : ∀ {i p s k}, (∀ s, Width N (k s)) → Width N (a.setName i p s k)
  setScore : ∀ {i x s k}, (∀ s, Width N (k s)) → Width N (a.setScore i x s k)

variable {a : Arrays σ S} {s : σ}

omit [Double S] in
theorem Single.validateLoop (h : Single N a) {i : Int} (hk : Width N k) :
    Width N (validateLoop a s n i k) := by
  induction n generalizing i with
  | zero => exact hk
  | succ n ih =>
    refine h.getName fun p => ?_
    split
    · exact hN
    · exact ih

theorem Single.argmaxLoop (h : Single N a) {i ret : Int} {max : S} {k : Int → Code S}
    (hk : ∀ ret, Width N (k ret)) : Width N (argmaxLoop a s n i ret max k) := by
  induction n generalizing i ret max with
  | zero =>
    simp only [Movies.argmaxLoop]
    split
    · exact hk ret
    · exact hN
  | succ n ih =>
    refine h.getScore fun x => ?_
    split
    · exact ih
    · split
      · refine h.getName fun p => deref_width hN fun t => h.getName fun q => deref_width hN fun u => ?_
        split
        · exact ih
        · exact ih
      · exact ih

omit hN [Double S] in
theorem Single.swap (h : Single N a) {i j : Int} {k : σ → Code S} (hk : ∀ s, Width N (k s)) :
    Width N (swap a i j s k) := by
  refine h.getName fun p => h.getName fun q => h.setName fun s => h.setName fun s => ?_
  exact h.getScore fun x => h.getScore fun y => h.setScore fun s => h.setScore hk

omit [Double S] in
theorem Single.secretAt (h : Single N a) {i : Int} {k : σ → Code S} (hk : ∀ s, Width N (k s)) :
    Width N (secretAt a i s k) := by
  refine h.getName fun p => deref_width hN fun t => ?_
  rw [addSecret]
  split
  · exact deref_width hN fun u => h.setName hk
  · exact hN

theorem Single.sortLoop (h : Single N a) {size i : Int} {k : σ → Code S} (hk : ∀ s, Width N (k s)) :
    Width N (sortLoop a size n i s k) := by
  induction n generalizing i s with
  | zero => exact hk s
  | succ n ih =>
    refine h.argmaxLoop hN fun idx => ?_
    split
    · exact h.swap fun s => h.secretAt hN fun s => ih
    · exact hN

theorem Single.sort (h : Single N a) {numOfMovies : Nat} {size : Int} {k : σ → Code S}
    (hk : ∀ s, Width N (k s)) : Width N (sort a s numOfMovies size k) := by
  rw [Movies.sort, validate]
  split
  · exact h.validateLoop hN (h.sortLoop hN fun s => h.secretAt hN hk)
  · exact hN

omit [Double S] in
theorem single_data {l : Int} : Single N (Thread.dataArrays d l (S := S)) where
  getName hk := readName_width hN hk
  getScore hk := readScore_width hN hk
  setName hk := hk ()
  setScore hk := hk ()

omit hN [Double S] in
theorem single_temp {l : Int} : Single N (Process.tempArrays l (S := S)) where
  getName hk := hk _
  getScore hk := hk _
  setName hk := hk _
  setScore hk := hk _

/-! ## merge -/

omit [Double S] in
theorem takeCell_width {i : Int} {temp : List (Ptr × S)} {k : List (Ptr × S) → Code S}
    (hk : ∀ temp, Width N (k temp)) : Width N (takeCell d i temp k) :=
  readScore_width hN fun _ => readName_width hN fun _ => hk _

omit [Double S] in
theorem takeRest_width {i : Int} {temp : List (Ptr × S)} {k : List (Ptr × S) → Code S}
    (hk : ∀ temp, Width N (k temp)) : Width N (takeRest d n i temp k) := by
  induction n generalizing i temp with
  | zero => exact hk temp
  | succ n ih => exact takeCell_width hN fun temp => ih

theorem mergeLoop_width {mid r il ir : Int} {temp : List (Ptr × S)}
    {k : Int → Int → List (Ptr × S) → Code S} (hk : ∀ il ir temp, Width N (k il ir temp)) :
    Width N (mergeLoop d mid r il ir temp k) := by
  induction hn : (mid - il + 1).toNat + (r - ir + 1).toNat using Nat.strong_induction_on
    generalizing il ir temp with
  | _ n ih =>
  subst hn
  rw [mergeLoop]
  split
  · have hleft : Width N (takeCell d il temp fun temp => mergeLoop d mid r (il + 1) ir temp k) :=
      takeCell_width hN fun temp => ih _ (by omega) rfl
    have hright : Width N (takeCell d ir temp fun temp => mergeLoop d mid r il (ir + 1) temp k) :=
      takeCell_width hN fun temp => ih _ (by omega) rfl
    refine readScore_width hN fun x => readScore_width hN fun y => ?_
    split
    · exact hleft
    · split
      · refine readName_width hN fun p => deref_width hN fun t => ?_
        refine readName_width hN fun q => deref_width hN fun u => ?_
        split
        · exact hleft
        · exact hright
      · exact hright
  · exact hk il ir temp

theorem mergeLoops_width {l r : Int} {k : List (Ptr × S) → Code S} (hk : ∀ temp, Width N (k temp)) :
    Width N (mergeLoops d l r k) :=
  mergeLoop_width hN fun _ _ _ => takeRest_width hN fun _ => takeRest_width hN hk

omit [Double S] in
theorem printMovies_width {len : Int} (hk : Width N k) : Width N (printMovies d len k) := by
  have hloop : ∀ (n : Nat) (i : Int), Width N (printLoop d n i k) := by
    intro n
    induction n with
    | zero => exact fun _ => hk
    | succ n ih => exact fun i => ⟨hN, fun p => deref_width hN fun t => ⟨hN, fun o => ih (i + 1)⟩⟩
  exact hloop _ _

end

/-! ## Threads -/

namespace Thread

variable {P : Type} {cross : P → P → S} {movies : List (MovieProfile P)} {l r : Int}

omit [Double S] in
theorem memcpy_width {write : Int → Ptr × S → Code S → Code S}
    (hw : ∀ i c k, Width N k → Width N (write i c k)) (hN : 1 ≤ N) {i : Int} {temp : List (Ptr × S)}
    (hk : Width N k) : Width N (memcpy write n i temp k) := by
  induction n generalizing i temp with
  | zero => cases temp <;> exact hk
  | succ n ih =>
    cases temp with
    | nil => exact hN
    | cons c temp => exact hw i c _ ih

theorem merge_width (hk : Width N k) : Width N (merge d l r k) := by
  refine mergeLoops_width hk.pos fun temp => ?_
  have hnames : Width N (copyNames d (r - l + 1).toNat l temp k) := by
    refine memcpy_width ?_ hk.pos hk
    exact fun _ _ _ h => h
  refine memcpy_width ?_ hk.pos hnames
  exact fun _ _ _ h => h

/-- The threads that sort `len` movies, `n` levels above `MAX_LEVEL`. -/
def crowd : Nat → Nat → Nat
  | 0, _ => 1
  | n + 1, len => if (len : Int) ≤ SIZE_LIMIT then 1 else crowd n ((len + 1) / 2) + crowd n (len / 2)

theorem crowd_pos (n len : Nat) : 1 ≤ crowd n len := by
  induction n generalizing len with
  | zero => exact le_refl 1
  | succ n ih =>
    rw [crowd]
    split
    · exact le_refl 1
    · exact (ih _).trans (Nat.le_add_right _ _)

theorem crowd_small {n len : Nat} (h : (len : Int) ≤ SIZE_LIMIT) : crowd n len = 1 := by
  cases n with
  | zero => rfl
  | succ n => rw [crowd, if_pos h]

theorem crowd_le (n len : Nat) : crowd n len ≤ 2 ^ n := by
  induction n generalizing len with
  | zero => exact le_refl 1
  | succ n ih =>
    rw [crowd, Nat.pow_succ]
    have h₁ := ih ((len + 1) / 2)
    have h₂ := ih (len / 2)
    have hpos : 0 < 2 ^ n := Nat.two_pow_pos n
    split <;> omega

theorem crowd_full {n len : Nat} (h : 1025 * 2 ^ n ≤ 2 * len) : crowd n len = 2 ^ n := by
  induction n generalizing len with
  | zero => rfl
  | succ n ih =>
    have hpos : 0 < 2 ^ n := Nat.two_pow_pos n
    rw [Nat.pow_succ] at h ⊢
    have hbig : ¬ (len : Int) ≤ SIZE_LIMIT := by
      rw [SIZE_LIMIT]
      omega
    rw [crowd, if_neg hbig]
    cases n with
    | zero => rfl
    | succ n =>
      rw [Nat.pow_succ] at h ih ⊢
      rw [ih (by omega), ih (by omega)]
      omega

/-- The lengths of the two halves of a range. -/
theorem halves (hl : 0 ≤ l) (hlr : l ≤ r) :
    ((l + r).tdiv 2 - l + 1).toNat = ((r - l + 1).toNat + 1) / 2 ∧
      (r - ((l + r).tdiv 2 + 1) + 1).toNat = (r - l + 1).toNat / 2 := by
  rw [Int.tdiv_eq_ediv_of_nonneg (by omega)]
  omega

theorem mergesort_width {numOfMovies : Nat} (level : Nat) (hl : 0 ≤ l)
    (hN : crowd (MAX_LEVEL - level) (r - l + 1).toNat ≤ N) (hk : Width N k) :
    Width N (mergesort d numOfMovies l r level k) := by
  induction hn : (r - l + 1).toNat using Nat.strong_induction_on generalizing l r level k N with
  | _ n ih =>
  subst hn
  rw [mergesort]
  split
  · exact hk
  · rename_i hlr
    split
    · exact (single_data hk.pos).sort hk.pos fun _ => hk
    · rename_i hsmall
      have hlong : ¬ ((r - l + 1).toNat : Int) ≤ SIZE_LIMIT := by
        rw [SIZE_LIMIT] at hsmall ⊢
        omega
      have hmid := mid_lt (l := l) (r := r) (by rw [SIZE_LIMIT] at hsmall; omega)
      obtain ⟨hleft, hright⟩ := halves hl (not_lt.1 hlr)
      have hmerge := merge_width (d := d) (l := l) (r := r) hk
      split
      · rename_i hdeep
        have hone : ∀ len, crowd (MAX_LEVEL - (level + 1)) len ≤ N := by
          intro len
          rw [show MAX_LEVEL - (level + 1) = 0 by omega, crowd]
          exact hk.pos
        exact ih _ (by omega) _ hl (hone _) (ih _ (by omega) _ (by omega) (hone _) hmerge rfl) rfl
      · rename_i hdeep
        rw [show MAX_LEVEL - level = MAX_LEVEL - (level + 1) + 1 by omega, crowd, if_neg hlong] at hN
        refine .par (ih _ (by omega) _ (by omega) (le_of_eq rfl) (ForkJoin.width_done (crowd_pos _ _)) rfl)
          (ih _ (by omega) _ hl (le_of_eq rfl) (ForkJoin.width_done (crowd_pos _ _)) rfl) ?_ hmerge
        rw [hleft, hright]
        omega

theorem mergesort_reaches {numOfMovies : Nat} (level : Nat) (hl : 0 ≤ l) :
    Reaches (crowd (MAX_LEVEL - level) (r - l + 1).toNat) (mergesort d numOfMovies l r level k) := by
  induction hn : (r - l + 1).toNat using Nat.strong_induction_on generalizing l r level k with
  | _ n ih =>
  subst hn
  by_cases hsmall : ((r - l + 1).toNat : Int) ≤ SIZE_LIMIT
  · rw [crowd_small hsmall]
    exact ForkJoin.reaches_one _
  by_cases hdeep : level ≥ MAX_LEVEL
  · rw [show MAX_LEVEL - level = 0 by omega, crowd]
    exact ForkJoin.reaches_one _
  rw [SIZE_LIMIT] at hsmall
  have hmid := mid_lt (l := l) (r := r) (by omega)
  obtain ⟨hleft, hright⟩ := halves hl (show l ≤ r by omega)
  have hbig : ¬ r - l + 1 ≤ SIZE_LIMIT := by
    rw [SIZE_LIMIT]
    omega
  rw [mergesort, if_neg (by omega), dif_neg hbig, if_neg hdeep,
    show MAX_LEVEL - level = MAX_LEVEL - (level + 1) + 1 by omega, crowd,
    if_neg (by rw [SIZE_LIMIT]; omega), ← hleft, ← hright, Nat.add_comm]
  exact .par (ih _ (by omega) _ (by omega) rfl) (ih _ (by omega) _ hl rfl)

omit [Double S] in
theorem collect_width (req : Request P) (rest : List (MovieProfile P)) {len : Int} {k : Int → Code S}
    (hk : Width N (k (len + (matching cross req rest).length))) :
    Width N (collect cross req d rest len k) := by
  induction rest generalizing len with
  | nil =>
    rw [collect]
    simpa [matching] using hk
  | cons mv rest ih =>
    rw [collect]
    by_cases h : wanted req mv = true
    · rw [if_pos h]
      have hlen : (matching cross req (mv :: rest)).length = (matching cross req rest).length + 1 := by
        simp only [matching, List.filter_cons_of_pos h, List.map_cons, List.length_cons]
      have hnext : Width N (k (len + 1 + (matching cross req rest).length)) := by
        rw [hlen] at hk
        convert hk using 2
        omega
      exact ih hnext
    · rw [if_neg h]
      refine ih ?_
      have hlen : matching cross req (mv :: rest) = matching cross req rest := by
        simp only [matching, List.filter_cons_of_neg h]
      rwa [hlen] at hk

/-- The threads of a request, the one of `deal_request` included. -/
def party (cross : P → P → S) (movies : List (MovieProfile P)) (req : Request P) : Nat :=
  crowd MAX_LEVEL (matching cross req movies).length + 1

theorem length_range (len : Nat) : ((len : Int) - 1 - 0 + 1).toNat = len := by omega

theorem dealRequest_width (req : Request P) (d : Nat) :
    Width (party cross movies req) (dealRequest cross movies req d .done) := by
  refine collect_width req movies ?_
  rw [Int.zero_add]
  have hpos : 1 ≤ party cross movies req := Nat.le_add_left 1 _
  have hdone : Width (party cross movies req) (.done : Code S) := ForkJoin.width_done hpos
  have hlen := length_range (matching cross req movies).length
  have hsort : Width (crowd MAX_LEVEL (matching cross req movies).length) (mergesort d movies.length 0
      ((matching cross req movies).length - 1) 0 (.done : Code S)) := by
    refine mergesort_width 0 (le_refl 0) ?_ (ForkJoin.width_done (crowd_pos _ _))
    rw [hlen]
    exact le_refl _
  exact hsort.par (ForkJoin.width_done (le_refl 1)) (le_refl _) (printMovies_width hpos hdone)

theorem dealRequest_reaches (req : Request P) (d : Nat) :
    Reaches (party cross movies req) (dealRequest cross movies req d .done) := by
  let len := (matching cross req movies).length
  have hsort : Reaches (crowd MAX_LEVEL ((len : Int) - 1 - 0 + 1).toNat)
      (mergesort d movies.length 0 (len - 1) 0 (.done : Code S)) := mergesort_reaches 0 (le_refl 0)
  rw [length_range] at hsort
  have hjoin : Reaches (party cross movies req)
      (.par (mergesort d movies.length 0 (len - 1) 0 .done) .done (printMovies d len .done) : Code S) :=
    hsort.par (ForkJoin.reaches_one _)
  refine hjoin.of_steps fun m => ?_
  obtain ⟨m', h, -, -⟩ := leads_collect (A := Set.univ) (d := d) (m := m) cross req movies 0
    (Set.subset_univ _)
  rw [Int.zero_add] at h
  exact ⟨m', (h _).steps⟩

/-- `main` and the threads of the requests of a batch. -/
def load (cross : P → P → S) (movies : List (MovieProfile P)) (reqs : List (Request P)) : Nat :=
  (reqs.map (party cross movies)).sum + 1

omit [Double S] in
theorem load_cons (cross : P → P → S) (movies : List (MovieProfile P)) (req : Request P)
    (reqs : List (Request P)) :
    load cross movies (req :: reqs) = party cross movies req + load cross movies reqs := by
  rw [load, List.map_cons, List.sum_cons, load, Nat.add_assoc]

theorem createJoin_width (reqs : List (Request P)) (t : Nat) (hk : Width N k)
    (hN : load cross movies reqs ≤ N) : Width N (createJoin (threads cross movies t reqs) k) := by
  induction reqs generalizing t k N with
  | nil => exact hk
  | cons req reqs ih =>
    have hdone : Width (load cross movies reqs) (.done : Code S) :=
      ForkJoin.width_done (Nat.le_add_left 1 _)
    rw [load_cons] at hN
    exact .par (dealRequest_width req t) (ih (t + 1) hdone (le_refl _)) hN hk

theorem createJoin_reaches (reqs : List (Request P)) (t : Nat) :
    Reaches (load cross movies reqs) (createJoin (threads cross movies t reqs) k) := by
  induction reqs generalizing t k with
  | nil => exact ForkJoin.reaches_one _
  | cons req reqs ih =>
    rw [load_cons]
    exact (dealRequest_reaches req t).par (ih (t + 1))

/-- All requests fit in one batch. -/
theorem serve_batch {reqs : List (Request P)} (h : reqs.length ≤ REQ_THREAD) (t : Nat) :
    serve cross movies t reqs = createJoin (threads cross movies t reqs) .done := by
  cases reqs with
  | nil =>
    rw [serve]
    rfl
  | cons req reqs => rw [serve, List.take_of_length_le h, List.drop_of_length_le h, serve]

end Thread

/-! ## Processes -/

namespace Process

variable {P : Type} {cross : P → P → S} {movies : List (MovieProfile P)} {l r : Int}

section

variable (hN : 1 ≤ N)
include hN

omit [Double S] in
theorem copyNames_width {i : Int} {t : Temp S} {k : Temp S → Code S} (hk : ∀ t, Width N (k t)) :
    Width N (copyNames d n i t k) := by
  induction n generalizing i t with
  | zero => exact hk t
  | succ n ih => exact readName_width hN fun p => ih

omit [Double S] in
theorem copyScores_width {i : Int} {t : Temp S} {k : Temp S → Code S} (hk : ∀ t, Width N (k t)) :
    Width N (copyScores d n i t k) := by
  induction n generalizing i t with
  | zero => exact hk t
  | succ n ih => exact readScore_width hN fun x => ih

omit [Double S] in
theorem writeBack_width {i : Int} {t : Temp S} (hk : Width N k) : Width N (writeBack d t n i k) := by
  induction n generalizing i with
  | zero => exact hk
  | succ n ih =>
    have hcopy : Width N (readName d i fun p => strcpy p (t.name i) <| writeBack d t n (i + 1) k) :=
      readName_width hN fun p => strcpy_width hN ih
    exact hcopy

theorem leaf_width {numOfMovies : Nat} (hk : Width N k) : Width N (leaf d numOfMovies l r k) := by
  refine copyNames_width hN fun t => copyScores_width hN fun t => ?_
  exact single_temp.sort hN fun t => writeBack_width hN hk

omit [Double S] in
theorem copyBack_width {i : Int} {temp : List (Ptr × S)} (hk : Width N k) :
    Width N (copyBack d n i temp k) := by
  induction n generalizing i temp with
  | zero => cases temp <;> exact hk
  | succ n ih =>
    cases temp with
    | nil => exact hN
    | cons c temp =>
      have hrest : Width N (copyBack d n (i + 1) temp k) := ih
      exact hrest

theorem merge_width (hk : Width N k) : Width N (merge d l r k) := by
  refine mergeLoops_width hN fun temp => ?_
  have hback : Width N (copyBack d (r - l + 1).toNat l temp (.write (.copying d l r) false k)) :=
    copyBack_width hN hk
  exact hback

end

/-- The processes that sort `len` movies, `n` levels above `MAX_LEVEL`. -/
def crowd : Nat → Nat → Nat
  | 0, _ => 1
  | n + 1, len => if len = 0 then 1 else crowd n ((len + 1) / 2) + crowd n (len / 2)

theorem crowd_pos (n len : Nat) : 1 ≤ crowd n len := by
  induction n generalizing len with
  | zero => exact le_refl 1
  | succ n ih =>
    rw [crowd]
    split
    · exact le_refl 1
    · exact (ih _).trans (Nat.le_add_right _ _)

theorem crowd_zero (n : Nat) : crowd n 0 = 1 := by
  cases n with
  | zero => rfl
  | succ n => rw [crowd, if_pos rfl]

theorem crowd_le (n len : Nat) : crowd n len ≤ 2 ^ n := by
  induction n generalizing len with
  | zero => exact le_refl 1
  | succ n ih =>
    rw [crowd, Nat.pow_succ]
    have h₁ := ih ((len + 1) / 2)
    have h₂ := ih (len / 2)
    have hpos : 0 < 2 ^ n := Nat.two_pow_pos n
    split <;> omega

theorem crowd_full {n len : Nat} (h : 2 ^ n ≤ 2 * len) : crowd n len = 2 ^ n := by
  induction n generalizing len with
  | zero => rfl
  | succ n ih =>
    have hpos : 0 < 2 ^ n := Nat.two_pow_pos n
    rw [Nat.pow_succ] at h ⊢
    rw [crowd, if_neg (by omega)]
    cases n with
    | zero => rfl
    | succ n =>
      rw [Nat.pow_succ] at h ih ⊢
      rw [ih (by omega), ih (by omega)]
      omega

theorem mergesort_width {numOfMovies : Nat} (level : Nat) (h : level ≤ MAX_LEVEL) (hl : 0 ≤ l)
    (hN : crowd (MAX_LEVEL - level) (r - l + 1).toNat ≤ N) (hk : Width N k) :
    Width N (mergesort d numOfMovies l r level h k) := by
  induction hn : MAX_LEVEL - level generalizing l r level k N with
  | zero =>
    rw [mergesort]
    split
    · exact hk
    · rw [dif_pos (show level = MAX_LEVEL by omega)]
      exact leaf_width hk.pos hk
  | succ n ih =>
    rw [mergesort]
    split
    · exact hk
    · rename_i hlr
      have hmid := mid_bounds hl (not_lt.1 hlr)
      obtain ⟨hleft, hright⟩ := Thread.halves hl (not_lt.1 hlr)
      have hmerge := merge_width (d := d) (l := l) (r := r) hk.pos hk
      rw [dif_neg (show level ≠ MAX_LEVEL by omega)]
      rw [hn, crowd, if_neg (show (r - l + 1).toNat ≠ 0 by omega)] at hN
      have hnext : MAX_LEVEL - (level + 1) = n := by omega
      refine .par (ih (level + 1) _ hl (le_of_eq rfl) (ForkJoin.width_done (crowd_pos _ _)) hnext)
        (ih (level + 1) _ (by omega) (le_of_eq rfl) (ForkJoin.width_done (crowd_pos _ _)) hnext) ?_ hmerge
      rw [hnext, hleft, hright]
      exact hN

theorem mergesort_reaches {numOfMovies : Nat} (level : Nat) (h : level ≤ MAX_LEVEL) (hl : 0 ≤ l) :
    Reaches (crowd (MAX_LEVEL - level) (r - l + 1).toNat) (mergesort d numOfMovies l r level h k) := by
  induction hn : MAX_LEVEL - level generalizing l r level k with
  | zero =>
    rw [crowd]
    exact ForkJoin.reaches_one _
  | succ n ih =>
    by_cases hlr : l > r
    · rw [show (r - l + 1).toNat = 0 by omega, crowd_zero]
      exact ForkJoin.reaches_one _
    have hmid := mid_bounds hl (not_lt.1 hlr)
    obtain ⟨hleft, hright⟩ := Thread.halves hl (not_lt.1 hlr)
    rw [mergesort, if_neg hlr, dif_neg (show level ≠ MAX_LEVEL by omega), crowd,
      if_neg (show (r - l + 1).toNat ≠ 0 by omega), ← hleft, ← hright]
    have hnext : MAX_LEVEL - (level + 1) = n := by omega
    exact .par (ih (level + 1) _ hl hnext) (ih (level + 1) _ (by omega) hnext)

omit [Double S] in
theorem collect_width (req : Request P) (rest : List (MovieProfile P)) {len : Nat} {k : Nat → Code S}
    (hN : 1 ≤ N) (hk : Width N (k (len + (matching cross req rest).length))) :
    Width N (collect cross req d rest len k) := by
  induction rest generalizing len with
  | nil =>
    rw [collect]
    simpa [matching] using hk
  | cons mv rest ih =>
    rw [collect]
    by_cases h : wanted req mv = true
    · rw [if_pos h]
      have hlen : (matching cross req (mv :: rest)).length = (matching cross req rest).length + 1 := by
        simp only [matching, List.filter_cons_of_pos h, List.map_cons, List.length_cons]
      rw [hlen, ← Nat.add_assoc, Nat.add_right_comm] at hk
      have hcell : Width N (readName d len fun p => strcpy p (.lit mv.title) <|
          writeScore d len (cross mv.profile req.profile) <| collect cross req d rest (len + 1) k) :=
        readName_width hN fun p => strcpy_width hN (ih hk)
      exact hcell
    · rw [if_neg h]
      refine ih ?_
      have hlen : matching cross req (mv :: rest) = matching cross req rest := by
        simp only [matching, List.filter_cons_of_neg h]
      rwa [hlen] at hk

theorem dealRequest_width (req : Request P) (d : Nat) :
    Width (crowd MAX_LEVEL (matching cross req movies).length) (dealRequest cross movies req d .done) := by
  have hpos := crowd_pos MAX_LEVEL (matching cross req movies).length
  refine collect_width req movies hpos ?_
  rw [Nat.zero_add]
  refine mergesort_width 0 (Nat.zero_le _) (le_refl 0) ?_
    (printMovies_width hpos (ForkJoin.width_done hpos))
  rw [Thread.length_range]
  exact le_refl _

theorem dealRequest_reaches (req : Request P) (d : Nat)
    (hfits : ∀ x ∈ matching cross req movies, x.title.length < MAX_LEN) :
    Reaches (crowd MAX_LEVEL (matching cross req movies).length)
      (dealRequest cross movies req d .done) := by
  let len := (matching cross req movies).length
  have hsort : Reaches (crowd MAX_LEVEL ((len : Int) - 1 - 0 + 1).toNat)
      (mergesort d movies.length 0 (len - 1) 0 (Nat.zero_le _) (printMovies d len (.done : Code S))) :=
    mergesort_reaches 0 (Nat.zero_le _) (le_refl 0)
  rw [Thread.length_range] at hsort
  refine hsort.of_steps fun m => ?_
  obtain ⟨m', h, -, -⟩ := leads_collect (d := d) (m := m) cross req movies 0 hfits
  have hsteps := (h fun len => mergesort d movies.length 0 (len - 1) 0 (Nat.zero_le _)
    (printMovies d len .done)).steps
  rw [Nat.zero_add] at hsteps
  exact ⟨m', hsteps⟩

end Process

/-! ## The programs -/

section

variable {P : Type} {profile : List Text → P} {file stdin : Text} {movies : List (MovieProfile P)}
  {reqs : List (Asked P)}

theorem requestLoop_length (h : requestLoop profile n stdin = some reqs) : reqs.length = n := by
  induction n generalizing stdin reqs with
  | zero =>
    cases h
    rfl
  | succ n ih =>
    simp only [requestLoop, Option.bind_eq_some_iff, Option.map_eq_some_iff] at h
    obtain ⟨r, -, rest, hrest, rfl⟩ := h
    rw [List.length_cons, ih hrest]

theorem initializeData_requests (h : initializeData profile file stdin = some (movies, reqs)) :
    reqs.length ≤ MAX_REQ := by
  simp only [initializeData, Option.bind_eq_some_iff] at h
  obtain ⟨read, -, h⟩ := h
  split at h
  · cases h
    exact Nat.zero_le _
  · split at h
    · rename_i hle
      obtain ⟨asked, hasked, h⟩ := Option.map_eq_some_iff.1 h
      cases h
      rw [requestLoop_length hasked]
      exact hle
    · cases h

omit [Double S] in
theorem party_le (cross : P → P → S) (movies : List (MovieProfile P)) (req : Request P) :
    Thread.party cross movies req ≤ 17 := Nat.succ_le_succ (Thread.crowd_le MAX_LEVEL _)

omit [Double S] in
theorem party_full {cross : P → P → S} {req : Request P} (h : 8200 ≤ (matching cross req movies).length) :
    Thread.party cross movies req = 17 := by
  have hfull : Thread.crowd MAX_LEVEL (matching cross req movies).length = 2 ^ MAX_LEVEL :=
    Thread.crowd_full (by rw [MAX_LEVEL]; omega)
  rw [Thread.party, hfull]
  rfl

omit [Double S] in
theorem load_le (cross : P → P → S) (movies : List (MovieProfile P)) (reqs : List (Request P)) :
    Thread.load cross movies reqs ≤ 17 * reqs.length + 1 := by
  induction reqs with
  | nil => exact le_refl 1
  | cons req reqs ih =>
    have hparty := party_le cross movies req
    rw [Thread.load_cons, List.length_cons]
    omega

omit [Double S] in
theorem load_full {cross : P → P → S} {movies : List (MovieProfile P)} {reqs : List (Request P)}
    (h : ∀ req ∈ reqs, 8200 ≤ (matching cross req movies).length) :
    Thread.load cross movies reqs = 17 * reqs.length + 1 := by
  induction reqs with
  | nil => rfl
  | cons req reqs ih =>
    rw [Thread.load_cons, party_full (h req List.mem_cons_self), ih fun x hx => h x (List.mem_cons_of_mem _ hx),
      List.length_cons]
    omega

end

/-- The most threads `tserver` has at a time. With 8200 movies or more for each request that is 17 for
each of them, and `main`. -/
theorem tserver_peak {P : Type} (cross : P → P → S) (profile : List Text → P) (file stdin : Text)
    (movies : List (MovieProfile P)) (reqs : List (Asked P)) (m : Memory S)
    (h : initializeData profile file stdin = some (movies, reqs)) :
    Peak (Thread.serve cross movies 0 (reqs.map Asked.toRequest)) m
        (Thread.load cross movies (reqs.map Asked.toRequest)) ∧
      Thread.load cross movies (reqs.map Asked.toRequest) ≤ 17 * reqs.length + 1 ∧
      ((∀ req ∈ reqs, 8200 ≤ (matching cross req.toRequest movies).length) →
        Thread.load cross movies (reqs.map Asked.toRequest) = 17 * reqs.length + 1) := by
  have hlen : (reqs.map Asked.toRequest).length = reqs.length := List.length_map _
  have hbatch : (reqs.map Asked.toRequest).length ≤ Thread.REQ_THREAD := by
    rw [hlen]
    exact initializeData_requests h
  refine ⟨?_, ?_, fun hbig => ?_⟩
  · rw [Thread.serve_batch hbatch]
    refine ForkJoin.peak_of (Thread.createJoin_width _ 0 ?_ (le_refl _)) (Thread.createJoin_reaches _ 0) m
    exact ForkJoin.width_done (Nat.le_add_left 1 _)
  · rw [← hlen]
    exact load_le cross movies _
  · rw [← hlen]
    refine load_full fun r hr => ?_
    obtain ⟨req, hreq, rfl⟩ := List.mem_map.1 hr
    exact hbig req hreq

/-- Two requests for 8200 movies. -/
def fullMovies : List (MovieProfile (List Int)) :=
  (List.replicate 8200 heat).map (Row.movie (List.map strtol))

theorem full_read : initializeData (List.map strtol)
    (moviesFile "movieId title".toList (List.replicate 8200 heat))
    (requestsInput [allFilms, heatQuery]) =
      some (fullMovies, [allReq, heatQuery.asked (List.map strtol)]) := by
  refine initializeData_lines (initializeMovies_lines (by decide) (by decide) (fun r hr => ?_) ?_)
    (by decide) (by decide)
  · rw [List.eq_of_mem_replicate hr]
    exact heat_legal
  · rw [List.length_replicate, MAX_MOVIES]
    omega

theorem full_matching {req : Request (List Int)} (h : wanted req (heat.movie (List.map strtol)) = true) :
    (matching dot req fullMovies).length = 8200 := by
  rw [matching, fullMovies, List.map_replicate, List.filter_replicate_of_pos h, List.length_map,
    List.length_replicate]

theorem tserver_peak_full :
    Peak (Thread.serve dot fullMovies 0 [allReq.toRequest, (heatQuery.asked (List.map strtol)).toRequest])
      blank 35 := by
  obtain ⟨hpeak, -, hfull⟩ := tserver_peak dot (List.map strtol) _ _ fullMovies _ blank full_read
  have hload := hfull fun req hreq => by
    refine (full_matching ?_).ge
    revert req
    decide
  rw [hload] at hpeak
  exact hpeak

/-- The most processes `pserver` has at a time. With 8 movies or more there are 16. -/
theorem pserver_peak {P : Type} (cross : P → P → S) (profile : List Text → P) (file stdin : Text)
    (movies : List (MovieProfile P)) (req : Asked P) (reqs : List (Asked P)) (m : Memory S)
    (h : initializeData profile file stdin = some (movies, req :: reqs)) :
    Peak (Process.serve cross movies ((req :: reqs).map Asked.toRequest)) m
        (Process.crowd MAX_LEVEL (matching cross req.toRequest movies).length) ∧
      Process.crowd MAX_LEVEL (matching cross req.toRequest movies).length ≤ 16 ∧
      (8 ≤ (matching cross req.toRequest movies).length →
        Process.crowd MAX_LEVEL (matching cross req.toRequest movies).length = 16) := by
  have hfits : ∀ x ∈ matching cross req.toRequest movies, x.title.length < MAX_LEN := by
    intro x hx
    obtain ⟨mv, hmv, rfl⟩ := List.mem_map.1 hx
    have := (initializeMovies_fit (initializeData_movies h)).2 mv (List.mem_of_mem_filter hmv)
    show mv.title.length < MAX_LEN
    omega
  refine ⟨?_, Process.crowd_le MAX_LEVEL _, fun hbig => ?_⟩
  · exact ForkJoin.peak_of (Process.dealRequest_width req.toRequest 0)
      (Process.dealRequest_reaches req.toRequest 0 hfits) m
  · have hfull : 2 ^ MAX_LEVEL ≤ 2 * (matching cross req.toRequest movies).length := by
      rw [MAX_LEVEL]
      omega
    exact Process.crowd_full hfull

theorem pserver_peak_films : Peak (Process.serve dot filmMovies (filmReqs.map Asked.toRequest)) blank 16 := by
  obtain ⟨hpeak, -, hfull⟩ := pserver_peak dot (List.map strtol) _ _ filmMovies allReq _ blank films_read
  have hcrowd := hfull (by decide +kernel)
  rw [hcrowd] at hpeak
  exact hpeak

end SysProg.Movies
