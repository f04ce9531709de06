import SysProg.Movies.Thread

/-!
# SysProg.Movies.Halves

The threads of the `THREAD` build do not disturb each other, whatever is in `data`: titles that do
not fit, scores that are NaN and null pointers included, on which the process fails.

* `Plain`: what the cells hold in this build. A `char *` is null or points to a text that nobody
  writes any more.
* `mergesort_uses`: `mergesort` over `[l, r]` uses the cells of `[l, r]` only.
* `dealRequest_uses`, `serve`: `main` handles the requests in batches, one thread for each.
* `threads_apart`: halves of a range and requests of a batch can run in any order, or interleaved.
-/

namespace SysProg.Movies.Thread

open SysProg.ForkJoin (Uses Steps Computes exec overlay)

variable {S : Type} [Double S]

def REQ_THREAD : Nat := 32

def Plain : (x : Loc) → Cell S x → Prop
  | .name _ _, p => ∀ b, p ≠ Ptr.buf b
  | _, _ => True

/-- The cells of `data[d]` and the file of its answer. -/
def ofRequest (d : Nat) : Set Loc := {x | x = .out d ∨ ∃ i, x = .name d i ∨ x = .score d i}

variable {A : Set Loc} {d : Nat} {l r : Int}

theorem lit_ne_buf (s : Text) (b : Nat) : Ptr.lit s ≠ .buf b := nofun

/-! ## sort -/

omit [Double S] in
theorem deref_uses {p : Ptr} {k : Text → Code S} (hp : ∀ b, p ≠ .buf b) (hk : ∀ t, Uses Plain (k t) A) :
    Uses Plain (deref p k) A := by
  cases p with
  | null => trivial
  | lit s => exact hk s
  | buf b => exact (hp b rfl).elim

section

variable (hA : cells d l r ⊆ A)
include hA

omit [Double S] in
theorem readName_uses {i : Int} {k : Ptr → Code S} (hi : l ≤ i ∧ i ≤ r)
    (hk : ∀ p, (∀ b, p ≠ .buf b) → Uses Plain (k p) A) : Uses Plain (readName d i k) A :=
  ⟨hA (name_mem_cells.2 hi), hk⟩

omit [Double S] in
theorem readScore_uses {i : Int} {k : S → Code S} (hi : l ≤ i ∧ i ≤ r)
    (hk : ∀ x, Uses Plain (k x) A) : Uses Plain (readScore d i k) A :=
  ⟨hA (score_mem_cells.2 hi), fun x _ => hk x⟩

omit [Double S] in
theorem writeName_uses {i : Int} {p : Ptr} {k : Code S} (hi : l ≤ i ∧ i ≤ r) (hp : ∀ b, p ≠ .buf b)
    (hk : Uses Plain k A) : Uses Plain (writeName d i p k) A :=
  ⟨hA (name_mem_cells.2 hi), hp, hk⟩

omit [Double S] in
theorem writeScore_uses {i : Int} {x : S} {k : Code S} (hi : l ≤ i ∧ i ≤ r) (hk : Uses Plain k A) :
    Uses Plain (writeScore d i x k) A :=
  ⟨hA (score_mem_cells.2 hi), trivial, hk⟩

omit [Double S] in
theorem validateLoop_uses {n : Nat} {i : Int} {k : Code S} (hi : 0 ≤ i) (hn : l + i + n ≤ r + 1)
    (hk : Uses Plain k A) :
    Uses Plain (validateLoop (dataArrays d l) () n i k) A := by
  induction n generalizing i with
  | zero => exact hk
  | succ n ih =>
    refine readName_uses hA ⟨by omega, by omega⟩ ?_
    intro p _
    split
    · trivial
    · exact ih (by omega) (by omega)

theorem argmaxLoop_uses {n : Nat} {i ret : Int} {max : S} {k : Int → Code S} (hi : 0 ≤ i)
    (hn : l + i + n ≤ r + 1) (hret : 0 ≤ ret ∧ l + ret ≤ r)
    (hk : ∀ ret, 0 ≤ ret → l + ret ≤ r → Uses Plain (k ret) A) :
    Uses Plain (argmaxLoop (dataArrays d l) () n i ret max k) A := by
  induction n generalizing i ret max with
  | zero =>
    simp only [argmaxLoop]
    split
    · exact hk ret hret.1 hret.2
    · trivial
  | succ n ih =>
    refine readScore_uses hA ⟨by omega, by omega⟩ ?_
    intro x
    have hnext : ∀ ret, 0 ≤ ret ∧ l + ret ≤ r → ∀ max : S,
        Uses Plain (argmaxLoop (dataArrays d l) () n (i + 1) ret max k) A :=
      fun ret hret max => ih (by omega) (by omega) hret
    split
    · exact hnext i ⟨hi, by omega⟩ x
    · split
      · refine readName_uses hA ⟨by omega, by omega⟩ fun p hp => deref_uses hp ?_
        intro t
        refine readName_uses hA ⟨by omega, by omega⟩ fun q hq => deref_uses hq ?_
        intro u
        split
        · exact hnext i ⟨hi, by omega⟩ max
        · exact hnext ret hret max
      · exact hnext ret hret max

omit [Double S] in
theorem swap_uses {i j : Int} {k : Unit → Code S} (hi : 0 ≤ i ∧ l + i ≤ r) (hj : 0 ≤ j ∧ l + j ≤ r)
    (hk : Uses Plain (k ()) A) :
    Uses Plain (swap (dataArrays d l) i j () k) A := by
  have hi' : l ≤ l + i ∧ l + i ≤ r := ⟨by omega, hi.2⟩
  have hj' : l ≤ l + j ∧ l + j ≤ r := ⟨by omega, hj.2⟩
  refine readName_uses hA hi' fun p hp => readName_uses hA hj' fun p' hp' => ?_
  refine writeName_uses hA hi' hp' (writeName_uses hA hj' hp ?_)
  refine readScore_uses hA hi' fun x => readScore_uses hA hj' fun x' => ?_
  exact writeScore_uses hA hi' (writeScore_uses hA hj' hk)

omit [Double S] in
theorem secretAt_uses {i : Int} {k : Unit → Code S} (hi : 0 ≤ i ∧ l + i ≤ r)
    (hk : Uses Plain (k ()) A) :
    Uses Plain (secretAt (dataArrays d l) i () k) A := by
  have hi' : l ≤ l + i ∧ l + i ≤ r := ⟨by omega, hi.2⟩
  refine readName_uses hA hi' fun p hp => deref_uses hp ?_
  intro t
  simp only [addSecret]
  split
  · exact deref_uses hp fun s => writeName_uses hA hi' (lit_ne_buf _) hk
  · trivial

theorem sortLoop_uses {n : Nat} {i : Int} {k : Unit → Code S} (hi : 0 ≤ i) (hn : l + i + n ≤ r)
    (hk : Uses Plain (k ()) A) :
    Uses Plain (sortLoop (dataArrays d l) (r - l + 1) n i () k) A := by
  induction n generalizing i with
  | zero => exact hk
  | succ n ih =>
    refine argmaxLoop_uses hA hi (by omega) ⟨hi, by omega⟩ ?_
    intro idx h0 hr
    split
    · refine swap_uses hA ⟨hi, by omega⟩ ⟨h0, hr⟩ (secretAt_uses hA ⟨hi, by omega⟩ ?_)
      exact ih (by omega) (by omega)
    · trivial

theorem sort_uses {numOfMovies : Nat} {k : Unit → Code S} (hlr : l ≤ r)
    (hk : Uses Plain (k ()) A) :
    Uses Plain (sort (dataArrays d l) () numOfMovies (r - l + 1) k) A := by
  simp only [sort, validate]
  split
  · refine validateLoop_uses hA (le_refl 0) (by omega) (sortLoop_uses hA (le_refl 0) (by omega) ?_)
    exact secretAt_uses hA ⟨by omega, by omega⟩ hk
  · trivial

/-! ## merge -/

/-- The temporary array holds no pointers to buffers. -/
def PlainCells (temp : List (Ptr × S)) : Prop := ∀ c ∈ temp, ∀ b, c.1 ≠ .buf b

omit [Double S] in
theorem takeCell_uses {i : Int} {temp : List (Ptr × S)} {k : List (Ptr × S) → Code S}
    (hi : l ≤ i ∧ i ≤ r) (ht : PlainCells temp)
    (hk : ∀ temp, PlainCells temp → Uses Plain (k temp) A) :
    Uses Plain (takeCell d i temp k) A := by
  refine readScore_uses hA hi fun x => readName_uses hA hi ?_
  intro p hp
  refine hk _ ?_
  intro c hc
  rcases List.mem_append.1 hc with hc | hc
  · exact ht c hc
  · rw [List.mem_singleton.1 hc]
    exact hp

omit [Double S] in
theorem takeRest_uses {n : Nat} {i : Int} {temp : List (Ptr × S)} {k : List (Ptr × S) → Code S}
    (hi : l ≤ i) (hn : i + n ≤ r + 1) (ht : PlainCells temp)
    (hk : ∀ temp, PlainCells temp → Uses Plain (k temp) A) :
    Uses Plain (takeRest d n i temp k) A := by
  induction n generalizing i temp with
  | zero => exact hk temp ht
  | succ n ih =>
    refine takeCell_uses hA ⟨hi, by omega⟩ ht ?_
    intro temp ht
    exact ih (by omega) (by omega) ht

omit [Double S] in
theorem takeRests_uses {mid il ir : Int} {temp : List (Ptr × S)} {k : List (Ptr × S) → Code S}
    (hil : l ≤ il) (hir : l ≤ ir) (hm : mid ≤ r) (hil' : il ≤ r + 1) (hir' : ir ≤ r + 1)
    (ht : PlainCells temp)
    (hk : ∀ temp, PlainCells temp → Uses Plain (k temp) A) :
    Uses Plain (takeRests d mid r k il ir temp) A := by
  refine takeRest_uses hA hil (by omega) ht ?_
  intro temp ht
  exact takeRest_uses hA hir (by omega) ht hk

theorem mergeLoop_uses {mid il ir : Int} {temp : List (Ptr × S)} {k : List (Ptr × S) → Code S}
    (hil : l ≤ il) (hir : l ≤ ir) (hm : mid ≤ r) (hil' : il ≤ r + 1) (hir' : ir ≤ r + 1)
    (ht : PlainCells temp)
    (hk : ∀ temp, PlainCells temp → Uses Plain (k temp) A) :
    Uses Plain (mergeLoop d mid r il ir temp (takeRests d mid r k)) A := by
  induction hn : (mid - il + 1).toNat + (r - ir + 1).toNat using Nat.strong_induction_on
    generalizing il ir temp with
  | _ n ih =>
  subst hn
  rw [mergeLoop]
  split
  · rename_i hc
    have hleft : Uses Plain (takeCell d il temp fun temp =>
        mergeLoop d mid r (il + 1) ir temp (takeRests d mid r k)) A := by
      refine takeCell_uses hA ⟨hil, by omega⟩ ht ?_
      intro temp ht
      exact ih _ (by omega) (by omega) hir (by omega) hir' ht rfl
    have hright : Uses Plain (takeCell d ir temp fun temp =>
        mergeLoop d mid r il (ir + 1) temp (takeRests d mid r k)) A := by
      refine takeCell_uses hA ⟨hir, by omega⟩ ht ?_
      intro temp ht
      exact ih _ (by omega) hil (by omega) hil' (by omega) ht rfl
    refine readScore_uses hA ⟨hil, by omega⟩ fun x => ?_
    refine readScore_uses hA ⟨hir, by omega⟩ fun y => ?_
    split
    · exact hleft
    · split
      · refine readName_uses hA ⟨hil, by omega⟩ fun p hp => deref_uses hp ?_
        intro t
        refine readName_uses hA ⟨hir, by omega⟩ fun q hq => deref_uses hq ?_
        intro u
        split
        · exact hleft
        · exact hright
      · exact hright
  · exact takeRests_uses hA hil hir hm hil' hir' ht hk

omit [Double S] in
theorem copyScores_uses {n : Nat} {i : Int} {temp : List (Ptr × S)} {k : Code S} (hi : l ≤ i)
    (hn : i + n ≤ r + 1) (hk : Uses Plain k A) :
    Uses Plain (copyScores d n i temp k) A := by
  induction n generalizing i temp with
  | zero => cases temp <;> exact hk
  | succ n ih =>
    cases temp with
    | nil => trivial
    | cons c temp =>
      exact writeScore_uses hA ⟨hi, by omega⟩ (ih (by omega) (by omega))

omit [Double S] in
theorem copyNames_uses {n : Nat} {i : Int} {temp : List (Ptr × S)} {k : Code S} (hi : l ≤ i)
    (hn : i + n ≤ r + 1) (ht : PlainCells temp) (hk : Uses Plain k A) :
    Uses Plain (copyNames d n i temp k) A := by
  induction n generalizing i temp with
  | zero => cases temp <;> exact hk
  | succ n ih =>
    cases temp with
    | nil => trivial
    | cons c temp =>
      have htemp : PlainCells temp := fun x hx => ht x (.tail _ hx)
      exact writeName_uses hA ⟨hi, by omega⟩ (ht c (.head _)) (ih (by omega) (by omega) htemp)

theorem merge_uses {k : Code S} (h : 1 < r - l) (hk : Uses Plain k A) :
    Uses Plain (merge d l r k) A := by
  have hmid := mid_lt h
  refine mergeLoop_uses hA (le_refl l) (by omega) (by omega) (by omega) (by omega) nofun ?_
  intro temp ht
  exact copyScores_uses hA (le_refl l) (by omega) (copyNames_uses hA (le_refl l) (by omega) ht hk)

end

/-! ## mergesort -/

theorem mergesort_uses {numOfMovies : Nat} (level : Nat) {k : Code S} (hA : cells d l r ⊆ A)
    (hk : Uses Plain k A) : Uses Plain (mergesort d numOfMovies l r level k) A := by
  induction hn : (r - l + 1).toNat using Nat.strong_induction_on generalizing A l r level k with
  | _ n ih =>
  subst hn
  rw [mergesort]
  split
  · exact hk
  · rename_i hlr
    split
    · exact sort_uses hA (by omega) hk
    · rename_i hsmall
      rw [SIZE_LIMIT] at hsmall
      have hmid := mid_lt (l := l) (r := r) (by omega)
      have hinl : cells d l ((l + r).tdiv 2) ⊆ cells d l r := cells_mono (by omega) (by omega)
      have hinr : cells d ((l + r).tdiv 2 + 1) r ⊆ cells d l r := cells_mono (by omega) (by omega)
      have hmerge := merge_uses hA (by omega) hk
      split
      · exact ih _ (by omega) _ (hinl.trans hA) (ih _ (by omega) _ (hinr.trans hA) hmerge rfl) rfl
      · exact ⟨_, _, disjoint_cells, hinr.trans hA, hinl.trans hA, ih _ (by omega) _ subset_rfl trivial rfl,
          ih _ (by omega) _ subset_rfl trivial rfl, hmerge⟩

/-- The cells of all requests from `t` on. -/
def ofRequests (t : Nat) : Set Loc := {x | ∃ d, t ≤ d ∧ x ∈ ofRequest d}

theorem cells_sub_ofRequest : cells d l r ⊆ ofRequest d := by
  rintro x ⟨i, -, -, hx⟩
  exact .inr ⟨i, hx⟩

theorem ofRequest_sub_ofRequests {t : Nat} (h : t ≤ d) : ofRequest d ⊆ ofRequests t :=
  fun _ hx => ⟨d, h, hx⟩

theorem disjoint_ofRequests {t : Nat} (h : d < t) : Disjoint (ofRequest d) (ofRequests t) := by
  rw [Set.disjoint_left]
  rintro x hx ⟨d', hd', hx'⟩
  have : d = d' := by
    rcases hx with rfl | ⟨i, rfl | rfl⟩ <;> rcases hx' with hx' | ⟨j, hx' | hx'⟩ <;> cases hx' <;> rfl
  omega

/-! ## Requests -/

section

variable {P : Type} (cross : P → P → S) (movies : List (MovieProfile P))

omit [Double S] in
theorem collect_uses (req : Request P) (rest : List (MovieProfile P)) {len : Int} {k : Int → Code S}
    (hA : ofRequest d ⊆ A) (hk : ∀ len, Uses Plain (k len) A) :
    Uses Plain (collect cross req d rest len k) A := by
  induction rest generalizing len with
  | nil => exact hk len
  | cons mv rest ih =>
    rw [collect]
    split
    · exact ⟨hA (.inr ⟨len, .inl rfl⟩), lit_ne_buf _, hA (.inr ⟨len, .inr rfl⟩), trivial, ih⟩
    · exact ih

omit [Double S] in
theorem printLoop_uses {n : Nat} {i : Int} {k : Code S} (hA : ofRequest d ⊆ A) (hk : Uses Plain k A) :
    Uses Plain (printLoop d n i k) A := by
  induction n generalizing i with
  | zero => exact hk
  | succ n ih =>
    refine ⟨hA (.inr ⟨i, .inl rfl⟩), ?_⟩
    intro p hp
    refine deref_uses hp ?_
    intro t
    exact ⟨hA (.inl rfl), fun _ _ => ⟨hA (.inl rfl), trivial, ih⟩⟩

theorem dealRequest_uses (req : Request P) (d : Nat) :
    Uses Plain (dealRequest cross movies req d .done) (ofRequest d) := by
  refine collect_uses cross req movies subset_rfl ?_
  intro len
  refine ⟨_, ∅, Set.disjoint_empty _, cells_sub_ofRequest, Set.empty_subset _,
    mergesort_uses 0 subset_rfl trivial, trivial, ?_⟩
  exact ⟨.inl rfl, trivial, printLoop_uses subset_rfl trivial⟩

/-- `pthread_create` for each of the threads, then `pthread_join` for each of them. -/
def createJoin : List (Code S) → Code S → Code S
  | [], k => k
  | p :: ps, k => .par p (createJoin ps .done) k

/-- The threads for the requests `t`, `t + 1`, … -/
def threads (t : Nat) (reqs : List (Request P)) : List (Code S) :=
  (reqs.zipIdx t).map fun x => dealRequest cross movies x.1 x.2 .done

/-- The loop of `main` over the requests from `t` on. -/
def serve (t : Nat) : List (Request P) → Code S
  | [] => .done
  | req :: reqs =>
    createJoin (threads cross movies t ((req :: reqs).take REQ_THREAD))
      (serve (t + REQ_THREAD) ((req :: reqs).drop REQ_THREAD))
termination_by reqs => reqs.length
decreasing_by
  rw [List.length_drop, List.length_cons, REQ_THREAD]
  omega

/-- One request after the other. -/
def oneByOne : Nat → List (Request P) → Memory S → Option (Memory S)
  | _, [], m => some m
  | t, req :: reqs, m => (exec (dealRequest cross movies req t .done) m).bind (oneByOne (t + 1) reqs)

theorem oneByOne_append (t : Nat) (reqs reqs' : List (Request P)) (m : Memory S) :
    oneByOne cross movies t (reqs ++ reqs') m =
      (oneByOne cross movies t reqs m).bind (oneByOne cross movies (t + reqs.length) reqs') := by
  induction reqs generalizing t m with
  | nil => rfl
  | cons req reqs ih =>
    rw [List.cons_append, oneByOne, oneByOne, List.length_cons, Option.bind_assoc]
    congr 1
    funext m₁
    rw [ih, Nat.add_right_comm, Nat.add_assoc]

theorem exec_createJoin (t : Nat) (reqs : List (Request P)) (k : Code S) (m : Memory S) :
    exec (createJoin (threads cross movies t reqs) k) m =
      (oneByOne cross movies t reqs m).bind (exec k) := by
  induction reqs generalizing t k m with
  | nil => rfl
  | cons req reqs ih =>
    have hrest : ∀ m₁, exec (createJoin (threads cross movies (t + 1) reqs) .done) m₁ =
        oneByOne cross movies (t + 1) reqs m₁ := by
      intro m₁
      rw [ih]
      cases oneByOne cross movies (t + 1) reqs m₁ <;> rfl
    simp only [threads, List.zipIdx_cons, List.map_cons, createJoin, exec, oneByOne]
    congr 2
    funext m₁
    exact hrest m₁

theorem exec_serve (t : Nat) (reqs : List (Request P)) (m : Memory S) :
    exec (serve cross movies t reqs) m = oneByOne cross movies t reqs m := by
  induction hn : reqs.length using Nat.strong_induction_on generalizing t reqs m with
  | _ n ih =>
  subst hn
  cases reqs with
  | nil =>
    rw [serve]
    rfl
  | cons req reqs =>
    rw [serve, exec_createJoin]
    have hdrop : ∀ m₁, exec (serve cross movies (t + REQ_THREAD) ((req :: reqs).drop REQ_THREAD)) m₁ =
        oneByOne cross movies (t + ((req :: reqs).take REQ_THREAD).length)
          ((req :: reqs).drop REQ_THREAD) m₁ := by
      intro m₁
      rw [ih _ (by rw [List.length_drop, List.length_cons, REQ_THREAD]; omega) _ _ _ rfl]
      by_cases hlen : REQ_THREAD ≤ (req :: reqs).length
      · rw [List.length_take_of_le hlen]
      · rw [List.drop_of_length_le (by omega)]
        rfl
    conv_rhs => rw [← List.take_append_drop REQ_THREAD (req :: reqs), oneByOne_append]
    congr 1
    funext m₁
    exact hdrop m₁

theorem createJoin_uses {t : Nat} {k : Code S} (reqs : List (Request P)) (hA : ofRequests t ⊆ A)
    (hk : Uses Plain k A) : Uses Plain (createJoin (threads cross movies t reqs) k) A := by
  induction reqs generalizing t k A with
  | nil => exact hk
  | cons req reqs ih =>
    refine ⟨ofRequest t, ofRequests (t + 1), disjoint_ofRequests (by omega), ?_, ?_,
      dealRequest_uses cross movies req t, ih subset_rfl trivial, hk⟩
    · exact (ofRequest_sub_ofRequests (le_refl t)).trans hA
    · rintro x ⟨d, hd, hx⟩
      exact hA ⟨d, by omega, hx⟩

theorem serve_uses (t : Nat) (reqs : List (Request P)) :
    Uses Plain (serve cross movies t reqs) (ofRequests t) := by
  induction hn : reqs.length using Nat.strong_induction_on generalizing t reqs with
  | _ n ih =>
  subst hn
  cases reqs with
  | nil =>
    rw [serve]
    trivial
  | cons req reqs =>
    rw [serve]
    refine createJoin_uses cross movies _ subset_rfl ?_
    refine (ih _ (by rw [List.length_drop, List.length_cons, REQ_THREAD]; omega) _ _ rfl).mono ?_
    rintro x ⟨d, hd, hx⟩
    exact ⟨d, by omega, hx⟩

end

/-! ## The threads are apart -/

/-- What `p` does in `m` is confined to `A`: in no interleaving does it change another cell, and its
outcome on `A` is the same for every memory that agrees with `m` on `A`. -/
structure Confined (p : Code S) (m : Memory S) (A : Set Loc) : Prop where
  frame : ∀ p' m', Steps p m p' m' → ∀ x, x ∉ A → m' x = m x
  depends : ∀ m₁, (∀ x ∈ A, m₁ x = m x) → exec p m₁ = (exec p m).map fun f => overlay A f m₁

omit [Double S] in
theorem confined_of_safe {p : Code S} {m : Memory S} (h : ForkJoin.Safe p A m) : Confined p m A :=
  ⟨fun _ _ hs => hs.frame h, fun _ hm => h.exec_congr hm⟩

/-- Every call of `mergesort` is confined to its range and has one outcome under all interleavings of
its threads; two calls on adjacent ranges can be run in either order or side by side; and the
requests of `main` can be handled one after the other. -/
theorem threads_apart {P : Type} (cross : P → P → S) (movies : List (MovieProfile P)) (m : Memory S)
    (hm : ∀ x, Plain x (m x)) :
    (∀ d numOfMovies l r level,
      Confined (mergesort d numOfMovies l r level .done) m (cells d l r) ∧
        Computes (mergesort d numOfMovies l r level .done) m
          (exec (mergesort d numOfMovies l r level .done) m)) ∧
    (∀ d numOfMovies l mid r level level',
      let left := mergesort d numOfMovies l mid level .done
      let right := mergesort d numOfMovies (mid + 1) r level' .done
      (exec left m).bind (exec right) = (exec right m).bind (exec left) ∧
        Computes (.par right left .done) m ((exec left m).bind (exec right))) ∧
    ∀ reqs, Computes (serve cross movies 0 reqs) m (oneByOne cross movies 0 reqs m) := by
  have hsafe : ∀ d numOfMovies l r level,
      ForkJoin.Safe (mergesort d numOfMovies l r level .done) (cells d l r) m :=
    fun d numOfMovies l r level =>
      (mergesort_uses (k := .done) level subset_rfl trivial).safe fun x _ => hm x
  refine ⟨?_, ?_, ?_⟩
  · intro d numOfMovies l r level
    have h := hsafe d numOfMovies l r level
    exact ⟨confined_of_safe h, h.computes⟩
  · intro d numOfMovies l mid r level level' left right
    have hl := hsafe d numOfMovies l mid level
    have hr := hsafe d numOfMovies (mid + 1) r level'
    have hcomm := ForkJoin.exec_comm disjoint_cells hr hl
    refine ⟨hcomm.symm, ?_⟩
    have hpar : ForkJoin.Safe (.par right left .done) (cells d (mid + 1) r ∪ cells d l mid) m :=
      ⟨_, _, disjoint_cells, Set.subset_union_left, Set.subset_union_right, hr, hl,
        fun _ _ _ _ => trivial⟩
    have hexec : exec (.par right left .done) m = (exec left m).bind (exec right) := by
      rw [← hcomm, exec]
      cases (exec right m).bind (exec left) <;> rfl
    rw [← hexec]
    exact hpar.computes
  · intro reqs
    rw [← exec_serve]
    exact ((serve_uses cross movies 0 reqs).safe fun x _ => hm x).computes

theorem threads_apart_two :
    Computes (serve (· * ·) twoMovies 0 [everything, everything]) blank
      (oneByOne (· * ·) twoMovies 0 [everything, everything] blank) :=
  (threads_apart (· * ·) twoMovies blank fun x => by
    cases x <;> first | trivial | exact fun _ => nofun).2.2 _

end SysProg.Movies.Thread
