import SysProg.Movies.Halves
import SysProg.Movies.Input

/-!
# SysProg.Movies.Server

`tserver` from its two inputs to its output files.

* `Reply`: what a request is to be answered with.
* `leads_createJoin`, `leads_serve`: a batch of requests, and all batches.
* `outFile`: the file of an answer, named by the id of the request.
* `tserver_answers`: in every interleaving of all its threads.
-/

namespace SysProg.Movies

open SysProg.ForkJoin (Leads overlay overlay_mem overlay_notMem)
open SysProg.MergeTree (Cut)

variable {S : Type} [Double S] {P : Type} (cross : P → P → S) (movies : List (MovieProfile P))

/-- The movies of the request, each with the secret, in order unless the secret disturbs it. -/
def Reply (req : Request P) (lines : List Text) : Prop :=
  ∃ ys : List (Movie S), ys.Perm (matching cross req movies) ∧
    ((∀ x ∈ matching cross req movies, Plain x.title) → ys.Pairwise InOrder) ∧
    lines = ys.map fun x => x.title ++ key

variable {cross} {movies} {req : Request P} {m : Memory S} {d t : Nat}

theorem yields_reply {c : Cut (Movie S)} {ys : List (Movie S)} (hs : Sortable 1 (matching cross req movies))
    (hc : c.flatten = matching cross req movies) (h : c.Yields Arranged takesMarked ys) :
    Reply cross movies req (ys.map fun x => x.title ++ key) := by
  have hperm := yields_perm h
  rw [hc] at hperm
  refine ⟨ys, hperm, fun hplain => ?_, rfl⟩
  have hp : Proper 1 c.flatten := by
    rw [hc]
    exact ⟨hs.comparable, hplain, hs.fits⟩
  have hcomp : ∀ x ∈ ys, x.Comparable := fun x hx => hs.comparable x (hperm.mem_iff.1 hx)
  refine (yields_plain h hp).2.imp_of_mem fun ha hb hab => ?_
  exact (rank_le_iff (hcomp _ ha) (hcomp _ hb)).1 hab

/-- A thread of `main` for the request writes lines that `Q` holds of. -/
def Thread.Writes (cross : P → P → S) (movies : List (MovieProfile P)) (Q : Request P → List Text → Prop)
    (req : Request P) : Prop :=
  ∀ (d : Nat) (m : Memory S), ∃ m' : Memory S,
    Leads anything (Thread.ofRequest d) (Thread.dealRequest cross movies req d .done) m .done m' ∧
      Q req (m' (.out d))

/-- One thread of `main`. -/
theorem thread_yields (hs : Sortable 1 (matching cross req movies)) {Q : Request P → List Text → Prop}
    (hQ : ∀ ys, (Thread.cut (matching cross req movies)).Yields Arranged takesMarked ys →
      Q req (ys.map fun x => x.title ++ key)) : Thread.Writes cross movies Q req := by
  intro d m
  obtain ⟨m', ys, h, hyields, -, hout⟩ := Thread.leads_request cross req movies (d := d) (m := m) hs
  refine ⟨m', (h .done).mono ?_, ?_⟩
  · rintro x (hx | rfl)
    · exact Thread.cells_sub_ofRequest hx
    · exact .inl rfl
  · rw [hout]
    exact hQ ys hyields

theorem out_mem_ofRequests {i : Nat} (h : t ≤ i) : Loc.out i ∈ Thread.ofRequests t := ⟨i, h, .inl rfl⟩

theorem out_notMem_ofRequests {i : Nat} (h : i < t) : Loc.out i ∉ Thread.ofRequests t := by
  rintro ⟨d, hd, hx | ⟨j, hx | hx⟩⟩
  · cases hx
    omega
  · cases hx
  · cases hx

/-- The threads of a batch are created one after the other and run side by side. -/
theorem leads_createJoin {Q : Request P → List Text → Prop} (reqs : List (Request P)) (t : Nat)
    (m : Memory S) (hs : ∀ req ∈ reqs, Thread.Writes cross movies Q req) :
    ∃ m' : Memory S, (∀ k, Leads anything (Thread.ofRequests t)
        (Thread.createJoin (Thread.threads cross movies t reqs) k) m k m') ∧
      ∀ i req, reqs[i]? = some req → Q req (m' (.out (t + i))) := by
  induction reqs generalizing t m with
  | nil => exact ⟨m, fun k => .refl, fun i req hi => by simp at hi⟩
  | cons req reqs ih =>
    obtain ⟨m₁, h₁, hr₁⟩ := hs req List.mem_cons_self t m
    obtain ⟨m₂, h₂, hr₂⟩ := ih (t + 1) m fun x hx => hs x (List.mem_cons_of_mem _ hx)
    have hdisj : Disjoint (Thread.ofRequest t) (Thread.ofRequests (t + 1)) :=
      Thread.disjoint_ofRequests (Nat.lt_succ_self t)
    have hsub : Thread.ofRequests (t + 1) ⊆ Thread.ofRequests t := by
      rintro x ⟨d, hd, hx⟩
      exact ⟨d, by omega, hx⟩
    refine ⟨overlay (Thread.ofRequest t) m₁ (overlay (Thread.ofRequests (t + 1)) m₂ m), fun k => ?_,
      fun i r hi => ?_⟩
    · exact .par h₁ (h₂ _) hdisj (Thread.ofRequest_sub_ofRequests (le_refl t)) hsub (fun _ => trivial)
        (fun _ => trivial) fun _ _ _ _ _ _ _ => trivial
    · cases i with
      | zero =>
        cases hi
        rw [Nat.add_zero, overlay_mem (.inl rfl)]
        exact hr₁
      | succ i =>
        have hmem : Loc.out (t + (i + 1)) ∈ Thread.ofRequests (t + 1) := out_mem_ofRequests (by omega)
        rw [overlay_notMem fun hx => hdisj.le_bot ⟨hx, hmem⟩, overlay_mem hmem,
          show t + (i + 1) = t + 1 + i by omega]
        exact hr₂ i r hi

theorem leads_serve {Q : Request P → List Text → Prop} (reqs : List (Request P)) (t : Nat) (m : Memory S)
    (hs : ∀ req ∈ reqs, Thread.Writes cross movies Q req) :
    ∃ m' : Memory S, Leads anything (Thread.ofRequests t) (Thread.serve cross movies t reqs) m .done m' ∧
      ∀ i req, reqs[i]? = some req → Q req (m' (.out (t + i))) := by
  induction hn : reqs.length using Nat.strong_induction_on generalizing t reqs m with
  | _ n ih =>
  subst hn
  cases reqs with
  | nil =>
    refine ⟨m, ?_, fun i req hi => by simp at hi⟩
    rw [Thread.serve]
    exact .refl
  | cons req reqs =>
    generalize hrs : req :: reqs = rs at *
    have hlen : (rs.drop Thread.REQ_THREAD).length < rs.length := by
      rw [List.length_drop, ← hrs, List.length_cons, Thread.REQ_THREAD]
      omega
    obtain ⟨m₁, h₁, hr₁⟩ := leads_createJoin (rs.take Thread.REQ_THREAD) t m fun x hx =>
      hs x (List.mem_of_mem_take hx)
    obtain ⟨m₂, h₂, hr₂⟩ := ih _ hlen (rs.drop Thread.REQ_THREAD) (t + Thread.REQ_THREAD) m₁
      (fun x hx => hs x (List.mem_of_mem_drop hx)) rfl
    have hserve : Thread.serve cross movies t rs =
        Thread.createJoin (Thread.threads cross movies t (rs.take Thread.REQ_THREAD))
          (Thread.serve cross movies (t + Thread.REQ_THREAD) (rs.drop Thread.REQ_THREAD)) := by
      rw [← hrs, Thread.serve]
    rw [hserve]
    refine ⟨m₂, (h₁ _).trans (h₂.mono ?_), fun i r hi => ?_⟩
    · rintro x ⟨d, hd, hx⟩
      exact ⟨d, by omega, hx⟩
    · by_cases hlt : i < Thread.REQ_THREAD
      · rw [h₂.frame _ (out_notMem_ofRequests (by omega))]
        refine hr₁ i r ?_
        rw [List.getElem?_take_of_lt hlt]
        exact hi
      · obtain ⟨j, rfl⟩ := Nat.exists_eq_add_of_le (Nat.le_of_not_lt hlt)
        rw [← Nat.add_assoc]
        refine hr₂ j r ?_
        rw [List.getElem?_drop]
        exact hi

/-! ## The files -/

/-- `"%dt.out"` -/
def outName (req : Asked P) : Text := decimal req.id ++ "t.out".toList

/-- What is in a file when the program has exited, which flushes the streams. -/
def outFile (reqs : List (Asked P)) (f : Memory S) (name : Text) : Option Text :=
  (reqs.zipIdx.find? fun x => decide (outName x.1 = name)).map fun x =>
    (f (.out x.2)).flatMap fun line => line ++ ['\n']

theorem decimal_injective : Function.Injective decimal := by
  intro x y h
  have hs : Stops [] := nofun
  have hx := scanD_decimal x hs
  rw [h, scanD_decimal y hs] at hx
  exact (congrArg Prod.fst (Option.some.inj hx)).symm

theorem outName_injective {x y : Asked P} (h : outName x = outName y) : x.id = y.id :=
  decimal_injective (List.append_cancel_right h)

omit [Double S] in
/-- The requests have different ids, so no file is opened twice. -/
theorem outFile_eq {reqs : List (Asked P)} (hids : (reqs.map Asked.id).Nodup) {i : Nat} {req : Asked P}
    (hi : reqs[i]? = some req) (f : Memory S) :
    outFile reqs f (outName req) = some ((f (.out i)).flatMap fun line => line ++ ['\n']) := by
  obtain ⟨hlt, hreq⟩ := List.getElem?_eq_some_iff.1 hi
  have hfind : reqs.zipIdx.find? (fun x => decide (outName x.1 = outName req)) = some (req, i) := by
    rw [List.find?_eq_some_iff_getElem]
    refine ⟨by simp, i, by simpa using hlt, by simp [hreq], fun j hj => ?_⟩
    have hne : reqs[j].id ≠ req.id := by
      intro h
      have hjm : j < (reqs.map Asked.id).length := by simpa using hj.trans hlt
      have him : i < (reqs.map Asked.id).length := by simpa using hlt
      have heq : (reqs.map Asked.id)[j] = (reqs.map Asked.id)[i] := by simp [h, hreq]
      exact hj.ne (hids.getElem_inj_iff.1 heq)
    have hname : outName reqs[j] ≠ outName req := fun h => hne (outName_injective h)
    simpa using hname
  rw [outFile, hfind]
  rfl

/-! ## The whole program -/

theorem initializeData_movies {profile : List Text → P} {file stdin : Text} {reqs : List (Asked P)}
    (h : initializeData profile file stdin = some (movies, reqs)) :
    initializeMovies profile file = some movies := by
  simp only [initializeData, Option.bind_eq_some_iff] at h
  obtain ⟨read, hread, h⟩ := h
  have hmovies : movies = read := by
    split at h
    · cases h
      rfl
    · split at h
      · obtain ⟨_, -, h⟩ := Option.map_eq_some_iff.1 h
        cases h
        rfl
      · cases h
  rw [hmovies]
  exact hread

theorem initializeMovies_fit {profile : List Text → P} {file : Text}
    (h : initializeMovies profile file = some movies) :
    movies.length ≤ MAX_MOVIES ∧ ∀ mv ∈ movies, mv.title.length + key.length + 1 ≤ MAX_LEN := by
  rw [initializeMovies, Option.bind_eq_some_iff] at h
  obtain ⟨row, -, hrows⟩ := h
  obtain ⟨hlen, htitles⟩ := rowLoop_titles hrows
  have := hlen (Nat.zero_le _)
  exact ⟨by omega, htitles⟩

theorem initializeMovies_sortable {profile : List Text → P} {file : Text}
    (h : initializeMovies profile file = some movies)
    (hc : ∀ x ∈ matching cross req movies, x.Comparable) :
    Sortable (key.length + 1) (matching cross req movies) := by
  refine ⟨hc, fun x hx => ?_⟩
  obtain ⟨mv, hmv, rfl⟩ := List.mem_map.1 hx
  exact (initializeMovies_fit h).2 mv (List.mem_of_mem_filter hmv)

/-- In every interleaving of its threads the server finishes, and the file of every request holds the
lines of a correct reply. -/
theorem tserver_answers (cross : P → P → S) (profile : List Text → P) (file stdin : Text)
    (movies : List (MovieProfile P)) (reqs : List (Asked P)) (m : Memory S)
    (h : initializeData profile file stdin = some (movies, reqs)) (hids : (reqs.map Asked.id).Nodup)
    (hc : ∀ req ∈ reqs, ∀ x ∈ matching cross req.toRequest movies, x.Comparable) :
    ForkJoin.Correct (Thread.serve cross movies 0 (reqs.map Asked.toRequest)) m fun f =>
      ∀ req ∈ reqs, ∃ lines, Reply cross movies req.toRequest lines ∧
        outFile reqs f (outName req) = some (lines.flatMap fun line => line ++ ['\n']) := by
  have hs : ∀ r ∈ reqs.map Asked.toRequest, Thread.Writes cross movies (Reply cross movies) r := by
    intro r hr
    obtain ⟨req, hreq, rfl⟩ := List.mem_map.1 hr
    have hsort := (initializeMovies_sortable (initializeData_movies h) (hc req hreq)).mono
      (Nat.le_add_left 1 key.length)
    exact thread_yields hsort fun ys hy => yields_reply hsort (Thread.cut_flatten _) hy
  obtain ⟨m', hleads, hout⟩ := leads_serve (reqs.map Asked.toRequest) 0 m hs
  refine hleads.correct fun req hreq => ?_
  obtain ⟨i, hi⟩ := List.mem_iff_getElem?.1 hreq
  have hreply := hout i req.toRequest (by rw [List.getElem?_map, hi]; rfl)
  rw [Nat.zero_add] at hreply
  exact ⟨m' (.out i), hreply, outFile_eq hids hi m'⟩

def dot (p q : List Int) : Int := (p.zipWith (· * ·) q).sum

/-- A row of a movie with the genres `gs`. -/
def film (id title : String) (gs : List Nat) : Row where
  id := id.toList
  title := title.toList
  genres := (List.range 18).map fun g => if g ∈ gs then ['1'] else ['0']
  last := if 18 ∈ gs then ['1'] else ['0']

def films : List Row :=
  [film "1" "Toy Story (1995)" [1, 2, 3, 4, 8], film "2" "Jumanji (1995)" [1, 3, 8],
    film "6" "Heat (1995)" [0, 5, 15], film "10" "GoldenEye (1995)" [0, 1, 15],
    film "16" "Casino (1995)" [5, 7], film "260" "Star Wars (1977)" [0, 1, 14],
    film "316" "Stargate (1994)" [0, 1, 14], film "329" "Star Trek (1994)" [0, 1, 14],
    film "480" "Jurassic Park (1993)" [0, 1, 14]]

def filmQuery (id : CInt) (keywords : String) (gs : List Nat) : Query where
  id := id
  keywords := keywords.toList
  genres := (List.range 19).map fun g => if g ∈ gs then ['1'] else ['0']

def allFilms : Query := filmQuery 7 "*" [0, 1, 5]

def filmQueries : List Query := [allFilms, filmQuery 12 "Star" [14]]

def filmMovies : List (MovieProfile (List Int)) := films.map (Row.movie (List.map strtol))

def filmReqs : List (Asked (List Int)) := filmQueries.map (Query.asked (List.map strtol))

theorem films_legal : (∀ r ∈ films, r.Legal) ∧ ∀ q ∈ filmQueries, q.Legal := by decide

theorem films_read : initializeData (List.map strtol) (moviesFile "movieId title".toList films)
    (requestsInput filmQueries) = some (filmMovies, filmReqs) :=
  initializeData_lines (initializeMovies_lines (by decide) (by decide) films_legal.1 (by decide))
    films_legal.2 (by decide)

theorem comparable_int {xs : List (Movie Int)} (h : ∀ x ∈ xs, 0 ≤ x.score) : ∀ x ∈ xs, x.Comparable :=
  fun x hx => ⟨x.score, h x hx, rfl⟩

theorem films_comparable : ∀ req ∈ filmReqs, ∀ x ∈ matching dot req.toRequest filmMovies, x.Comparable := by
  have h : ∀ req ∈ filmReqs, ∀ x ∈ matching dot req.toRequest filmMovies, 0 ≤ x.score := by
    decide +kernel
  exact fun req hreq => comparable_int (h req hreq)

theorem films_plain : ∀ req ∈ filmReqs, ∀ x ∈ matching dot req.toRequest filmMovies, Plain x.title := by
  unfold Plain
  decide +kernel

theorem tserver_answers_films :
    (∀ req ∈ filmReqs, ∀ x ∈ matching dot req.toRequest filmMovies, Plain x.title) ∧
      ForkJoin.Correct (Thread.serve dot filmMovies 0 (filmReqs.map Asked.toRequest)) blank fun f =>
        ∀ req ∈ filmReqs, ∃ lines, Reply dot filmMovies req.toRequest lines ∧
          outFile filmReqs f (outName req) = some (lines.flatMap fun line => line ++ ['\n']) :=
  ⟨films_plain, tserver_answers dot (List.map strtol) _ _ filmMovies filmReqs blank films_read (by decide)
    films_comparable⟩

end SysProg.Movies
