import SysProg.Segment
import SysProg.Movies.Order

/-!
# SysProg.Movies.Sort

The functions of `lib.c`, and what `sort` does to the arrays it is given.

* `Arrays`: how `sort` gets at `movies[i]` and `pts[i]`. In the `THREAD` build they are shared
  memory, in the `PROCESS` build a copy of the process itself (`σ`).
* `argmax`, `swap`, `addSecret`, `validate`, `sort`.
* `View`, `Lawful`: the contents of the arrays, and the behaviour of their accesses.
* `Lawful.sort`: `sort` leaves the movies in order, each with the secret.

A loop takes the number of its iterations that are left.
-/

namespace SysProg.Movies

open SysProg.ForkJoin (Leads)

variable {σ S : Type} [Double S]

structure Arrays (σ S : Type) where
  getName : Int → σ → (Ptr → Code S) → Code S
  getScore : Int → σ → (S → Code S) → Code S
  setName : Int → Ptr → σ → (σ → Code S) → Code S
  setScore : Int → S → σ → (σ → Code S) → Code S

def validateLoop (a : Arrays σ S) (s : σ) : Nat → Int → Code S → Code S
  | 0, _, k => k
  | n + 1, i, k => a.getName i s fun p => if p = .null then .fail else validateLoop a s n (i + 1) k

def validate (a : Arrays σ S) (s : σ) (numOfMovies : Nat) (size : Int) (k : Code S) : Code S :=
  if size ≤ numOfMovies then validateLoop a s size.toNat 0 k else .fail

def argmaxLoop (a : Arrays σ S) (s : σ) : Nat → Int → Int → S → (Int → Code S) → Code S
  | 0, _, ret, max, k => if Double.nonneg max then k ret else .fail
  | n + 1, i, ret, max, k =>
    a.getScore i s fun x =>
      if Double.gt x max then argmaxLoop a s n (i + 1) i x k
      else if Double.eq x max then
        a.getName ret s fun p => deref p fun t => a.getName i s fun q => deref q fun u =>
          if strcmp t u > 0 then argmaxLoop a s n (i + 1) i max k
          else argmaxLoop a s n (i + 1) ret max k
      else argmaxLoop a s n (i + 1) ret max k

def argmax (a : Arrays σ S) (s : σ) (start stop : Int) (k : Int → Code S) : Code S :=
  argmaxLoop a s (stop - start).toNat start start Double.negOne k

def swap (a : Arrays σ S) (i j : Int) (s : σ) (k : σ → Code S) : Code S :=
  a.getName i s fun m => a.getName j s fun m' => a.setName i m' s fun s => a.setName j m s fun s =>
    a.getScore i s fun p => a.getScore j s fun p' => a.setScore i p' s fun s => a.setScore j p s k

def addSecret (p : Ptr) (length : Nat) (k : Ptr → Code S) : Code S :=
  if length < MAX_LEN then deref p fun s => k (.lit (s.take length ++ key)) else .fail

/-- `movies[i] = add_secret(movies[i],strlen(movies[i]))` -/
def secretAt (a : Arrays σ S) (i : Int) (s : σ) (k : σ → Code S) : Code S :=
  a.getName i s fun p => deref p fun t => addSecret p t.length fun q => a.setName i q s k

def sortLoop (a : Arrays σ S) (size : Int) : Nat → Int → σ → (σ → Code S) → Code S
  | 0, _, s, k => k s
  | n + 1, i, s, k =>
    argmax a s i size fun idx =>
      if 0 ≤ idx ∧ idx < size then
        swap a i idx s fun s => secretAt a i s fun s => sortLoop a size n (i + 1) s k
      else .fail

def sort (a : Arrays σ S) (s : σ) (numOfMovies : Nat) (size : Int) (k : σ → Code S) : Code S :=
  validate a s numOfMovies size <|
    sortLoop a size (size - 1).toNat 0 s fun s => secretAt a (size - 1) s k

/-! ## Lawful arrays -/

structure View (σ S : Type) where
  name : σ → Memory S → Int → Ptr
  score : σ → Memory S → Int → S

variable {J : Memory S → Prop} {A : Set Loc}

/-- The accesses to the first `size` cells of the arrays show and change `v`, and nothing else that
a pointer could point to. -/
structure Lawful (a : Arrays σ S) (v : View σ S) (J : Memory S → Prop) (A : Set Loc) (size : Int) :
    Prop where
  getName : ∀ {i s m}, 0 ≤ i → i < size → ∀ k, Leads J A (a.getName i s k) m (k (v.name s m i)) m
  getScore : ∀ {i s m}, 0 ≤ i → i < size →
    ∀ k, Leads J A (a.getScore i s k) m (k (v.score s m i)) m
  setName : ∀ {i s m} p, 0 ≤ i → i < size →
    ∃ s' m', (∀ k, Leads J A (a.setName i p s k) m (k s') m') ∧
      v.name s' m' = Function.update (v.name s m) i p ∧ v.score s' m' = v.score s m ∧
      ∀ b, m' (.buf b) = m (.buf b)
  setScore : ∀ {i s m} x, 0 ≤ i → i < size →
    ∃ s' m', (∀ k, Leads J A (a.setScore i x s k) m (k s') m') ∧
      v.name s' m' = v.name s m ∧ v.score s' m' = Function.update (v.score s m) i x ∧
      ∀ b, m' (.buf b) = m (.buf b)

/-- Cell `i` of the arrays is the entry `e`. -/
structure View.Has (v : View σ S) (A : Set Loc) (s : σ) (m : Memory S) (i : Int) (e : Entry S) :
    Prop where
  name : v.name s m i = e.ptr
  score : v.score s m i = e.score
  titled : Titled A m e.ptr e.title

def Entry.secret (e : Entry S) : Entry S := ⟨e.toMovie.secret, .lit (e.title ++ key)⟩

omit [Double S] in
theorem Titled.congr {m m' : Memory S} {p : Ptr} {t : Text} (h : Titled A m p t)
    (hm : ∀ b, m' (.buf b) = m (.buf b)) : Titled A m' p t := by
  cases p with
  | null => exact h
  | lit u => exact h
  | buf b => exact ⟨h.1, (hm b).trans h.2⟩

omit [Double S] in
theorem leads_deref {m : Memory S} {p : Ptr} {t : Text} (h : Titled A m p t) (k : Text → Code S) :
    Leads J A (deref p k) m (k t) m := by
  cases p with
  | null => exact h.elim
  | lit u => cases (h : u = t); exact .refl
  | buf b =>
    obtain ⟨hb, rfl⟩ := h
    exact .read (.inl hb)

namespace Lawful

variable {a : Arrays σ S} {v : View σ S} {size : Int} {s : σ} {m : Memory S} {i : Int}
  {es : List (Entry S)}

omit [Double S] in
theorem validateLoop (h : Lawful a v J A size) (hi : 0 ≤ i) (hsz : i + es.length ≤ size)
    (hes : Along (v.Has A s m) i es) (k : Code S) :
    Leads J A (validateLoop a s es.length i k) m k m := by
  induction es generalizing i with
  | nil => exact .refl
  | cons e es ih =>
    obtain ⟨he, hes⟩ := along_cons.1 hes
    rw [List.length_cons] at hsz
    refine .trans (h.getName hi (by omega) _) ?_
    have hne : v.name s m i ≠ .null := by
      intro hn
      have := he.titled
      rw [← he.name, hn] at this
      exact this
    rw [if_neg hne]
    exact ih (by omega) (by omega) hes

/-- One iteration of `argmax` with the best movie so far at `ret`: the movie at `i` becomes the best
one, or it is no better. -/
theorem argmaxStep (h : Lawful a v J A size) {ret : Int} {b e : Entry S} (hi : 0 ≤ i)
    (hsz : i < size) (hret : 0 ≤ ret ∧ ret < i) (hb : v.Has A s m ret b) (he : v.Has A s m i e)
    (hcb : b.Comparable) (hce : e.Comparable) {max : S}
    (hmax : Double.place max = Double.place b.score) :
    ∃ ret' b' max', ((ret' = i ∧ b' = e ∧ rank e.toMovie ≤ rank b.toMovie) ∨
        (ret' = ret ∧ b' = b ∧ rank b.toMovie ≤ rank e.toMovie)) ∧
      Double.place max' = Double.place b'.score ∧
      ∀ n k, Leads J A (argmaxLoop a s (n + 1) i ret max k) m
        (argmaxLoop a s n (i + 1) ret' max' k) m := by
  have hle := rank_le_iff hcb hce
  have hle' := rank_le_iff hce hcb
  obtain ⟨x, -, hx⟩ := hce
  obtain ⟨y, -, hy⟩ := hcb
  simp only [InOrder, Double.gt, Double.eq, Double.compare, hx, hy, decide_eq_true_eq] at hle hle'
  have hgt : Double.gt e.score max = decide (x > y) := by
    simp [Double.gt, Double.compare, hx, hmax, hy]
  have heq : Double.eq e.score max = decide (x = y) := by
    simp [Double.eq, Double.compare, hx, hmax, hy]
  have hscore : ∀ k, Leads J A (a.getScore i s k) m (k e.score) m := by
    intro k
    have := h.getScore (s := s) (m := m) hi hsz k
    rwa [he.score] at this
  have hcmp : ∀ k : Code S, ∀ k' : Code S,
      Leads J A (a.getName ret s fun p => deref p fun t => a.getName i s fun q => deref q
        fun u => if strcmp t u > 0 then k else k') m
        (if strcmp b.title e.title > 0 then k else k') m := by
    intro k k'
    refine (h.getName hret.1 (by omega) _).trans ?_
    rw [hb.name]
    refine (leads_deref hb.titled _).trans ((h.getName hi hsz _).trans ?_)
    rw [he.name]
    exact leads_deref he.titled _
  by_cases hgt' : x > y
  · refine ⟨i, e, e.score, .inl ⟨rfl, rfl, hle'.2 (.inl hgt')⟩, rfl, fun n k => ?_⟩
    refine (hscore _).trans ?_
    rw [hgt, if_pos (by simpa using hgt')]
    exact .refl
  · by_cases heq' : x = y
    · have hloop : ∀ n k, Leads J A (Movies.argmaxLoop a s (n + 1) i ret max k) m
          (if strcmp b.title e.title > 0 then Movies.argmaxLoop a s n (i + 1) i max k
            else Movies.argmaxLoop a s n (i + 1) ret max k) m := by
        intro n k
        refine (hscore _).trans ?_
        rw [hgt, heq, if_neg (by simpa using hgt'), if_pos (by simpa using heq')]
        exact hcmp _ _
      by_cases hs : strcmp b.title e.title > 0
      · simp only [hs, ↓reduceIte] at hloop
        have hr := strcmp_nonpos.2 (strcmp_pos.1 hs).le
        exact ⟨i, e, max, .inl ⟨rfl, rfl, hle'.2 (.inr ⟨heq', hr⟩)⟩, by rw [hmax, hy, hx, heq'],
          hloop⟩
      · simp only [hs, ↓reduceIte] at hloop
        exact ⟨ret, b, max, .inr ⟨rfl, rfl, hle.2 (.inr ⟨heq'.symm, not_lt.1 hs⟩)⟩, hmax, hloop⟩
    · refine ⟨ret, b, max, .inr ⟨rfl, rfl, hle.2 (.inl (by omega))⟩, hmax, fun n k => ?_⟩
      refine (hscore _).trans ?_
      rw [hgt, heq, if_neg (by simpa using hgt'), if_neg (by simpa using heq')]
      exact .refl

theorem argmaxLoop (h : Lawful a v J A size) {ret : Int} {b : Entry S} (hi : 0 ≤ i)
    (hsz : i + es.length ≤ size) (hret : 0 ≤ ret ∧ ret < i) (hb : v.Has A s m ret b)
    (hcb : b.Comparable) {max : S} (hmax : Double.place max = Double.place b.score)
    (hes : Along (v.Has A s m) i es) (hc : ∀ e ∈ es, e.Comparable) :
    ∃ (r : Int) (c : Entry S), (∀ k, Leads J A (argmaxLoop a s es.length i ret max k) m (k r) m) ∧
      ((r = ret ∧ c = b) ∨ ∃ j : Nat, r = i + j ∧ es[j]? = some c) ∧
      rank c.toMovie ≤ rank b.toMovie ∧ ∀ e ∈ es, rank c.toMovie ≤ rank e.toMovie := by
  induction es generalizing i ret b max with
  | nil =>
    refine ⟨ret, b, fun k => ?_, .inl ⟨rfl, rfl⟩, le_rfl, by simp⟩
    obtain ⟨y, hy0, hy⟩ := hcb
    rw [List.length_nil, Movies.argmaxLoop]
    simp only [Double.nonneg, hmax, hy, hy0, decide_true, ↓reduceIte]
    exact .refl
  | cons e es ih =>
    obtain ⟨he, hes'⟩ := along_cons.1 hes
    obtain ⟨hce, hc'⟩ := List.forall_mem_cons.1 hc
    rw [List.length_cons] at hsz
    obtain ⟨ret', b', max', hbest, hmax', hloop⟩ :=
      h.argmaxStep hi (by omega) hret hb he hcb hce hmax
    cases hbest with
    | inl hbest =>
      obtain ⟨rfl, rfl, hr⟩ := hbest
      obtain ⟨r, c, hk, hj, hle, hall⟩ :=
        ih (by omega) (by omega) ⟨hi, Int.lt_succ _⟩ he hce hmax' hes' hc'
      refine ⟨r, c, fun k => (hloop _ k).trans (hk k), .inr ?_, hle.trans hr,
        List.forall_mem_cons.2 ⟨hle, hall⟩⟩
      cases hj with
      | inl hj => exact ⟨0, by simpa using hj.1, by simp [hj.2]⟩
      | inr hj =>
        obtain ⟨j, rfl, hj⟩ := hj
        exact ⟨j + 1, by omega, by simpa using hj⟩
    | inr hbest =>
      obtain ⟨rfl, rfl, hr⟩ := hbest
      obtain ⟨r, c, hk, hj, hle, hall⟩ :=
        ih (by omega) (by omega) ⟨hret.1, by omega⟩ hb hcb hmax' hes' hc'
      refine ⟨r, c, fun k => (hloop _ k).trans (hk k), hj.imp_right ?_, hle,
        List.forall_mem_cons.2 ⟨hle.trans hr, hall⟩⟩
      rintro ⟨j, rfl, hj'⟩
      exact ⟨j + 1, by omega, by simpa using hj'⟩

/-- `argmax` finds a movie that may stand before all the others. -/
theorem argmax (h : Lawful a v J A size) (hi : 0 ≤ i) (hsz : i + es.length = size)
    (hes : Along (v.Has A s m) i es) (hc : ∀ e ∈ es, e.Comparable) (hne : es ≠ []) :
    ∃ (j : Nat) (c : Entry S), es[j]? = some c ∧ (∀ e ∈ es, rank c.toMovie ≤ rank e.toMovie) ∧
      ∀ k, Leads J A (argmax a s i size k) m (k (i + j)) m := by
  cases es with
  | nil => exact absurd rfl hne
  | cons e es =>
    obtain ⟨he, hes⟩ := along_cons.1 hes
    obtain ⟨hce, hc⟩ := List.forall_mem_cons.1 hc
    rw [List.length_cons] at hsz
    obtain ⟨r, c, hk, hj, hle, hall⟩ :=
      h.argmaxLoop (by omega) (by omega) ⟨hi, by omega⟩ he hce rfl hes hc
    have hfirst : ∀ k, Leads J A (Movies.argmax a s i size k) m (k r) m := by
      intro k
      obtain ⟨x, hx0, hx⟩ := hce
      obtain ⟨z, hz0, hz⟩ := Double.place_negOne (S := S)
      have hgt : Double.gt e.score Double.negOne = true := by
        simp only [Double.gt, Double.compare, hx, hz, decide_eq_true_eq]
        omega
      rw [Movies.argmax, show (size - i).toNat = es.length + 1 by omega, Movies.argmaxLoop]
      refine (h.getScore hi (by omega) _).trans ?_
      rw [he.score, if_pos hgt]
      exact hk k
    refine ⟨(r - i).toNat, c, ?_, List.forall_mem_cons.2 ⟨hle, hall⟩, ?_⟩
    · cases hj with
      | inl hj => obtain ⟨rfl, rfl⟩ := hj; simp
      | inr hj =>
        obtain ⟨j, rfl, hj⟩ := hj
        rw [show (i + 1 + j - i).toNat = j + 1 by omega]
        simpa using hj
    · have : i + ((r - i).toNat : Int) = r := by
        cases hj with
        | inl hj => omega
        | inr hj => omega
      rw [this]
      exact hfirst

omit [Double S] in
theorem swap (h : Lawful a v J A size) {j : Int} (hi : 0 ≤ i ∧ i < size) (hj : 0 ≤ j ∧ j < size) :
    ∃ s' m', (∀ k, Leads J A (swap a i j s k) m (k s') m') ∧
      v.name s' m' = Function.update (Function.update (v.name s m) i (v.name s m j)) j
        (v.name s m i) ∧
      v.score s' m' = Function.update (Function.update (v.score s m) i (v.score s m j)) j
        (v.score s m i) ∧
      ∀ b, m' (.buf b) = m (.buf b) := by
  obtain ⟨s1, m1, h1, n1, c1, b1⟩ := h.setName (s := s) (m := m) (v.name s m j) hi.1 hi.2
  obtain ⟨s2, m2, h2, n2, c2, b2⟩ := h.setName (s := s1) (m := m1) (v.name s m i) hj.1 hj.2
  obtain ⟨s3, m3, h3, n3, c3, b3⟩ := h.setScore (s := s2) (m := m2) (v.score s m j) hi.1 hi.2
  obtain ⟨s4, m4, h4, n4, c4, b4⟩ := h.setScore (s := s3) (m := m3) (v.score s m i) hj.1 hj.2
  rw [c1] at c2
  rw [n1] at n2
  rw [n2] at n3
  rw [c2] at c3
  rw [n3] at n4
  rw [c3] at c4
  refine ⟨s4, m4, fun k => ?_, n4, c4, fun b => by rw [b4, b3, b2, b1]⟩
  refine (h.getName hi.1 hi.2 _).trans ((h.getName hj.1 hj.2 _).trans ((h1 _).trans
    ((h2 _).trans ((h.getScore hi.1 hi.2 _).trans ((h.getScore hj.1 hj.2 _).trans ?_)))))
  rw [c2]
  exact (h3 _).trans (h4 k)

omit [Double S] in
theorem secretAt (h : Lawful a v J A size) {e : Entry S} (hi : 0 ≤ i ∧ i < size)
    (he : v.Has A s m i e) (hlen : e.title.length < MAX_LEN) :
    ∃ s' m', (∀ k, Leads J A (secretAt a i s k) m (k s') m') ∧
      v.name s' m' = Function.update (v.name s m) i (.lit (e.title ++ key)) ∧
      v.score s' m' = v.score s m ∧ ∀ b, m' (.buf b) = m (.buf b) := by
  obtain ⟨s1, m1, h1, n1, c1, b1⟩ := h.setName (s := s) (m := m) (.lit (e.title ++ key)) hi.1 hi.2
  refine ⟨s1, m1, fun k => ?_, n1, c1, b1⟩
  refine (h.getName hi.1 hi.2 _).trans ?_
  rw [he.name]
  refine (leads_deref he.titled _).trans ?_
  rw [addSecret, if_pos hlen]
  refine (leads_deref he.titled _).trans ?_
  rw [List.take_length]
  exact h1 k

/-- One round of `sort`: the movie that comes first goes to cell `i`, with the secret. -/
theorem round (h : Lawful a v J A size) (hi : 0 ≤ i) (hsz : i + es.length = size)
    (hes : Along (v.Has A s m) i es) (hc : ∀ e ∈ es, e.Comparable)
    (hlen : ∀ e ∈ es, e.title.length < MAX_LEN) (hne : es ≠ []) :
    ∃ (s' : σ) (m' : Memory S) (c : Entry S) (rest : List (Entry S)),
      (∀ n k, Leads J A (sortLoop a size (n + 1) i s k) m (sortLoop a size n (i + 1) s' k) m') ∧
      (c :: rest).Perm es ∧ (∀ e ∈ rest, rank c.toMovie ≤ rank e.toMovie) ∧
      v.Has A s' m' i c.secret ∧ Along (v.Has A s' m') (i + 1) rest ∧
      (∀ j < i, v.name s' m' j = v.name s m j ∧ v.score s' m' j = v.score s m j) ∧
      ∀ b, m' (.buf b) = m (.buf b) := by
  obtain ⟨j, c, hj, hmax, hle⟩ := h.argmax hi hsz hes hc hne
  have h0 : 0 < es.length := List.length_pos_of_ne_nil hne
  obtain ⟨hjl, rfl⟩ := List.getElem?_eq_some_iff.1 hj
  obtain ⟨s1, m1, h1, n1, c1, b1⟩ :=
    h.swap (s := s) (m := m) (i := i) (j := i + j) ⟨hi, by omega⟩ ⟨by omega, by omega⟩
  have hfst : v.Has A s m i es[0] := by simpa using hes.at h0
  have hj' : v.Has A s m (i + j) es[j] := hes.at hjl
  have hself : ∀ {β : Type} (f : Int → β),
      Function.update (Function.update f i (f (i + j))) (i + j) (f i) i = f (i + j) := by
    intro β f
    by_cases hj0 : i + (j : Int) = i
    · rw [hj0]; simp
    · rw [Function.update_of_ne (Ne.symm hj0), Function.update_self]
  have hex : Along (v.Has A s1 m1) i (exchange es j h0 hjl) := by
    refine hes.exchange h0 hjl ⟨?_, ?_, hj'.titled.congr b1⟩ ⟨?_, ?_, hfst.titled.congr b1⟩ ?_
    · rw [n1, hself, hj'.name]
    · rw [c1, hself, hj'.score]
    · rw [n1, Function.update_self, hfst.name]
    · rw [c1, Function.update_self, hfst.score]
    · intro k x hk0 hkj _ hx
      have e1 : i + (k : Int) ≠ i + j := by omega
      have e2 : i + (k : Int) ≠ i := by omega
      refine ⟨?_, ?_, hx.titled.congr b1⟩
      · rw [n1, Function.update_of_ne e1, Function.update_of_ne e2, hx.name]
      · rw [c1, Function.update_of_ne e1, Function.update_of_ne e2, hx.score]
  obtain ⟨rest, hrest⟩ := exchange_cons h0 hjl
  have hperm := exchange_perm h0 hjl
  rw [hrest] at hex hperm
  obtain ⟨hc1, hrest1⟩ := along_cons.1 hex
  have hmem : ∀ e ∈ es[j] :: rest, e ∈ es := fun e he => hperm.mem_iff.1 he
  obtain ⟨s2, m2, h2, n2, c2, b2⟩ :=
    h.secretAt ⟨hi, by omega⟩ hc1 (hlen _ (hmem _ (by simp)))
  refine ⟨s2, m2, es[j], rest, fun n k => ?_, hperm, fun e he => hmax e (hmem e (by simp [he])),
    ⟨?_, ?_, rfl⟩, ?_, fun k hk => ⟨?_, ?_⟩, fun b => (b2 b).trans (b1 b)⟩
  · rw [sortLoop]
    refine (hle _).trans ?_
    rw [if_pos ⟨by omega, by omega⟩]
    exact (h1 _).trans (h2 _)
  · rw [n2, Function.update_self]; rfl
  · rw [c2, hc1.score]; rfl
  · refine hrest1.imp fun k x hk _ _ hx => ⟨?_, ?_, hx.titled.congr b2⟩
    · rw [n2, Function.update_of_ne (by omega), hx.name]
    · rw [c2, hx.score]
  · rw [n2, Function.update_of_ne (by omega), n1, Function.update_of_ne (by omega),
      Function.update_of_ne (by omega)]
  · rw [c2, c1, Function.update_of_ne (by omega), Function.update_of_ne (by omega)]

theorem sortLoop (h : Lawful a v J A size) {n : Nat} (hi : 0 ≤ i) (hn : es.length = n + 1)
    (hsz : i + es.length = size) (hes : Along (v.Has A s m) i es) (hc : ∀ e ∈ es, e.Comparable)
    (hlen : ∀ e ∈ es, e.title.length < MAX_LEN) :
    ∃ (s' : σ) (m' : Memory S) (fs : List (Entry S)) (z : Entry S),
      (∀ k, Leads J A (sortLoop a size n i s k) m (k s') m') ∧ (fs ++ [z]).Perm es ∧
      (fs ++ [z]).Pairwise (fun e f => rank e.toMovie ≤ rank f.toMovie) ∧
      Along (v.Has A s' m') i (fs.map Entry.secret ++ [z]) ∧
      (∀ j < i, v.name s' m' j = v.name s m j ∧ v.score s' m' j = v.score s m j) ∧
      ∀ b, m' (.buf b) = m (.buf b) := by
  induction n generalizing i s m es with
  | zero =>
    obtain ⟨z, rfl⟩ := List.length_eq_one_iff.1 hn
    exact ⟨s, m, [], z, fun k => .refl, .refl _, by simp, by simpa using hes,
      fun _ _ => ⟨rfl, rfl⟩, fun _ => rfl⟩
  | succ n ih =>
    obtain ⟨s1, m1, c, rest, h1, hperm, hmax, hcell, hrest, hfr1, b1⟩ :=
      h.round hi hsz hes hc hlen (by rintro rfl; simp at hn)
    have hmem : ∀ e ∈ rest, e ∈ es := fun e he => hperm.mem_iff.1 (by simp [he])
    have hl := hperm.length_eq
    rw [List.length_cons] at hl
    obtain ⟨s2, m2, fs, z, h2, hperm2, hsorted, hcells, hfr2, b2⟩ :=
      ih (i := i + 1) (s := s1) (m := m1) (by omega) (by omega) (by omega) hrest
        (fun e he => hc e (hmem e he)) (fun e he => hlen e (hmem e he))
    refine ⟨s2, m2, c :: fs, z, fun k => (h1 n k).trans (h2 k), ?_, ?_, ?_, fun j hj => ⟨?_, ?_⟩,
      fun b => (b2 b).trans (b1 b)⟩
    · exact (hperm2.cons c).trans hperm
    · rw [List.cons_append, List.pairwise_cons]
      exact ⟨fun e he => hmax e (hperm2.mem_iff.1 he), hsorted⟩
    · rw [List.map_cons, List.cons_append, along_cons]
      refine ⟨⟨?_, ?_, hcell.titled.congr b2⟩, hcells⟩
      · rw [(hfr2 i (by omega)).1, hcell.name]
      · rw [(hfr2 i (by omega)).2, hcell.score]
    · rw [(hfr2 j (by omega)).1, (hfr1 j hj).1]
    · rw [(hfr2 j (by omega)).2, (hfr1 j hj).2]

/-- `sort` puts the movies in order and adds the secret to each of them. -/
theorem sort (h : Lawful a v J A size) (numOfMovies : Nat) (hn : size ≤ numOfMovies)
    (hpos : es ≠ []) (hsz : es.length = size) (hes : Along (v.Has A s m) 0 es)
    (hc : ∀ e ∈ es, e.Comparable) (hlen : ∀ e ∈ es, e.title.length < MAX_LEN) :
    ∃ (s' : σ) (m' : Memory S) (fs : List (Entry S)),
      (∀ k, Leads J A (sort a s numOfMovies size k) m (k s') m') ∧ fs.Perm es ∧
      fs.Pairwise (fun e f => rank e.toMovie ≤ rank f.toMovie) ∧
      Along (v.Has A s' m') 0 (fs.map Entry.secret) ∧ ∀ b, m' (.buf b) = m (.buf b) := by
  obtain ⟨n, hlen'⟩ : ∃ n, es.length = n + 1 :=
    ⟨es.length - 1, by have := List.length_pos_of_ne_nil hpos; omega⟩
  obtain ⟨s1, m1, fs, z, h1, hperm, hsorted, hcells, hfr, b1⟩ :=
    h.sortLoop (i := 0) (by omega) hlen' (by omega) hes hc hlen
  obtain ⟨hfs, hz⟩ := along_append.1 hcells
  have hl := hperm.length_eq
  rw [List.length_append, List.length_singleton] at hl
  have hz := (along_cons.1 hz).1
  rw [List.length_map, show (0 : Int) + fs.length = size - 1 by omega] at hz
  obtain ⟨s2, m2, h2, n2, c2, b2⟩ :=
    h.secretAt ⟨by omega, by omega⟩ hz (hlen z (hperm.mem_iff.1 (by simp)))
  refine ⟨s2, m2, fs ++ [z], fun k => ?_, hperm, hsorted, ?_, fun b => (b2 b).trans (b1 b)⟩
  · rw [Movies.sort, validate, if_pos hn, show size.toNat = es.length by omega,
      show (size - 1).toNat = n by omega]
    exact (h.validateLoop (by omega) (by omega) hes _).trans ((h1 _).trans (h2 k))
  · rw [List.map_append, along_append]
    refine ⟨hfs.imp fun k x _ hk _ hx => ⟨?_, ?_, hx.titled.congr b2⟩, ?_⟩
    · rw [List.length_map] at hk
      rw [n2, Function.update_of_ne (by omega), hx.name]
    · rw [c2, hx.score]
    · rw [List.map_singleton, along_cons, List.length_map,
        show (0 : Int) + fs.length = size - 1 by omega]
      refine ⟨⟨?_, ?_, rfl⟩, along_nil⟩
      · rw [n2, Function.update_self]; rfl
      · rw [c2, hz.score]; rfl

end Lawful

end SysProg.Movies
