import SysProg.Movies.Server

/-!
# SysProg.Movies.Pserver

`pserver` from its two inputs to its output file, and when that is the file `tserver` writes.

* `Process.serve`, `Process.outFile`: `main` deals with one request.
* `pserver_answers`: in every interleaving of the processes.
* `initializeMovies_titles`, `lines_injective`: the lines of an answer can be told apart in a file.
* `servers_agree_iff`: both programs on the same inputs.
-/

namespace SysProg.Movies

open SysProg.ForkJoin (Leads)
open SysProg.MergeTree (Cut)

variable {S : Type} [Double S] {P : Type} {cross : P → P → S} {movies : List (MovieProfile P)}
  {profile : List Text → P} {file stdin : Text} {req : Request P} {m : Memory S}

/-- `main` deals with request 0, whatever the number of requests is; without any, `reqs[0]` is null. -/
def Process.serve (cross : P → P → S) (movies : List (MovieProfile P)) : List (Request P) → Code S
  | [] => .fail
  | req :: _ => Process.dealRequest cross movies req 0 .done

/-- `"%dp.out"` -/
def Process.outName (req : Asked P) : Text := decimal req.id ++ "p.out".toList

/-- What is in a file when the program has exited. -/
def Process.outFile (reqs : List (Asked P)) (f : Memory S) (name : Text) : Option Text :=
  (reqs.head?.filter fun req => decide (Process.outName req = name)).map fun _ =>
    (f (.out 0)).flatMap fun line => line ++ ['\n']

omit [Double S] in
theorem process_outFile {req : Asked P} {reqs : List (Asked P)} (f : Memory S) (name : Text) :
    Process.outFile (req :: reqs) f name = if name = Process.outName req then
      some ((f (.out 0)).flatMap fun line => line ++ ['\n']) else none := by
  rw [Process.outFile, List.head?_cons, Option.filter]
  by_cases h : name = Process.outName req
  · simp [h]
  · have h' : ¬ Process.outName req = name := fun e => h e.symm
    simp [h, h']

/-- The one request, up to the end of the program. -/
theorem process_yields (hmax : movies.length ≤ MAX_MOVIES)
    (hs : Sortable (key.length + 1) (matching cross req movies)) (m : Memory S) :
    ∃ (m' : Memory S) (ys : List (Movie S)),
      Leads anything Set.univ (Process.dealRequest cross movies req 0 .done) m .done m' ∧
      (Process.cut MAX_LEVEL (matching cross req movies)).Yields Arranged takesMarked ys ∧
      m' (.out 0) = ys.map fun x => x.title ++ key := by
  have hfits : ∀ x ∈ matching cross req movies, x.title.length < MAX_LEN := by
    intro x hx
    have := hs.fits x hx
    omega
  obtain ⟨m₁, h₁, hb, -⟩ := Process.leads_collect (d := 0) (m := m) cross req movies 0 hfits
  obtain ⟨m₂, ys, hyields, h₂, -, hout⟩ := Process.leads_sorting cross req movies rfl hmax hs hb
  have hall := (h₂.forget (I := anything) fun _ => trivial).mono (Set.subset_univ _)
  have hcollect := h₁ fun len => Process.mergesort 0 movies.length 0 (len - 1) 0 (Nat.zero_le _)
    (printMovies 0 len .done)
  rw [Nat.zero_add] at hcollect
  exact ⟨m₂, ys, hcollect.trans hall, hyields, hout⟩

/-- In every interleaving of its processes the server finishes. The file of the first request holds
the lines of a correct reply, and there is no other file. -/
theorem pserver_answers (cross : P → P → S) (profile : List Text → P) (file stdin : Text)
    (movies : List (MovieProfile P)) (req : Asked P) (reqs : List (Asked P)) (m : Memory S)
    (h : initializeData profile file stdin = some (movies, req :: reqs))
    (hc : ∀ x ∈ matching cross req.toRequest movies, x.Comparable) :
    ForkJoin.Correct (Process.serve cross movies ((req :: reqs).map Asked.toRequest)) m fun f =>
      ∃ lines, Reply cross movies req.toRequest lines ∧
        ∀ name, Process.outFile (req :: reqs) f name = if name = Process.outName req then
          some (lines.flatMap fun line => line ++ ['\n']) else none := by
  have hmovies := initializeData_movies h
  have hs := initializeMovies_sortable hmovies hc
  obtain ⟨m', ys, hleads, hyields, hout⟩ := process_yields (initializeMovies_fit hmovies).1 hs m
  have hreply := yields_reply (hs.mono (Nat.le_add_left 1 key.length)) (Process.cut_flatten _ _) hyields
  refine hleads.correct ⟨_, hreply, fun name => ?_⟩
  rw [process_outFile, hout]

def allReq : Asked (List Int) := allFilms.asked (List.map strtol)

theorem pserver_answers_films :
    (∀ x ∈ matching dot allReq.toRequest filmMovies, Plain x.title) ∧
      ForkJoin.Correct (Process.serve dot filmMovies (filmReqs.map Asked.toRequest)) blank fun f =>
        ∃ lines, Reply dot filmMovies allReq.toRequest lines ∧
          ∀ name, Process.outFile filmReqs f name = if name = Process.outName allReq then
            some (lines.flatMap fun line => line ++ ['\n']) else none :=
  ⟨films_plain allReq List.mem_cons_self,
    pserver_answers dot (List.map strtol) _ _ filmMovies allReq _ blank films_read
      (films_comparable allReq List.mem_cons_self)⟩

/-! ## The end of a line -/

/-- Where a token stands that is not the last one. -/
theorem strtok_split {delim s token saved : Text} (h : strtok delim s = (some token, saved))
    (hne : saved ≠ []) : ∃ u c, s = u ++ token ++ c :: saved := by
  simp only [strtok] at h
  have hskip := List.takeWhile_append_dropWhile (p := fun c => decide (c ∈ delim)) (l := s)
  generalize s.dropWhile (fun c => decide (c ∈ delim)) = t at h hskip
  split at h
  · cases h
  · obtain ⟨htok, hsaved⟩ := Prod.mk.inj h
    have htok := Option.some.inj htok
    have hsplit := List.takeWhile_append_dropWhile (p := fun c => decide (c ∉ delim)) (l := t)
    rw [htok] at hsplit
    generalize t.dropWhile (fun c => decide (c ∉ delim)) = rest at hsplit hsaved
    cases rest with
    | nil => exact absurd hsaved.symm hne
    | cons c rest =>
      have hrest : rest = saved := hsaved
      refine ⟨s.takeWhile fun c => decide (c ∈ delim), c, ?_⟩
      rw [List.append_assoc, ← hrest, hsplit, hskip]

theorem readMovie_title {chunk : Text} {mv : MovieProfile P} (hchunk : '\n' ∉ chunk.dropLast)
    (h : readMovie profile chunk = some mv) : '\n' ∉ mv.title := by
  simp only [readMovie, Option.bind_eq_some_iff, Option.map_eq_some_iff] at h
  obtain ⟨id, hid, token, htoken, genres, hgenres, rfl⟩ := h
  generalize h₁ : strtok [' '] (cstr chunk) = r₁ at hid htoken hgenres
  generalize h₂ : strtok ['{'] r₁.2 = r₂ at htoken hgenres
  obtain ⟨_, saved₁⟩ := r₁
  obtain ⟨_, saved₂⟩ := r₂
  cases hid
  cases htoken
  have hg : 2 * NUM_OF_GENRE ≤ saved₂.length + 1 := genreLoop_length hgenres rfl
  have hne₂ : saved₂ ≠ [] := by
    rintro rfl
    rw [NUM_OF_GENRE, List.length_nil] at hg
    omega
  obtain ⟨u₂, c₂, hs₂⟩ := strtok_split h₂ hne₂
  have hs₂ : saved₁ = u₂ ++ token ++ c₂ :: saved₂ := hs₂
  have hne₁ : saved₁ ≠ [] := by
    rw [hs₂]
    simp
  obtain ⟨u₁, c₁, hs₁⟩ := strtok_split h₁ hne₁
  obtain ⟨v, hv⟩ : cstr chunk <+: chunk := List.takeWhile_prefix _
  -- The token stands somewhere before the last byte of the chunk.
  have hdrop : chunk.dropLast = u₁ ++ id ++ c₁ :: (u₂ ++ token) ++ (c₂ :: (saved₂ ++ v)).dropLast := by
    rw [← List.dropLast_append_of_ne_nil (List.cons_ne_nil _ _), ← hv, hs₁, hs₂]
    simp
  intro hmem
  refine hchunk ?_
  rw [hdrop]
  have := List.mem_of_mem_take hmem
  simp [this]

theorem fgets_dropLast {size : Nat} {s chunk rest : Text} (h : fgets size s = some (chunk, rest)) :
    '\n' ∉ chunk.dropLast := by
  unfold fgets at h
  split at h
  · cases h
  · cases h
    intro hmem
    rw [List.dropLast_take_eq_take_dropLast] at hmem
    have hpre : s.takeWhile (fun c => decide (c ≠ '\n')) <+: s := List.takeWhile_prefix _
    have htake := List.prefix_iff_eq_take.1 hpre
    have hmem : '\n' ∈ s.takeWhile fun c => decide (c ≠ '\n') := by
      rw [htake]
      refine (List.dropLast_prefix s).take _ |>.subset (List.take_subset_take_left _ ?_ hmem)
      omega
    simpa using List.mem_takeWhile_imp hmem

theorem rowLoop_lines_apart {fuel cnt : Nat} {s : Text} {movies : List (MovieProfile P)}
    (h : rowLoop profile fuel cnt s = some movies) : ∀ mv ∈ movies, '\n' ∉ mv.title := by
  induction fuel generalizing cnt s movies with
  | zero =>
    cases h
    simp
  | succ fuel ih =>
    rw [rowLoop] at h
    split at h
    · cases h
      simp
    · rename_i chunk rest hget
      split at h
      · simp only [Option.bind_eq_some_iff, Option.map_eq_some_iff] at h
        obtain ⟨mv, hread, mvs, hloop, rfl⟩ := h
        intro x hx
        rcases List.mem_cons.1 hx with rfl | hx
        · exact readMovie_title (fgets_dropLast hget) hread
        · exact ih hloop x hx
      · cases h

theorem initializeMovies_titles (h : initializeMovies profile file = some movies) :
    ∀ mv ∈ movies, '\n' ∉ mv.title := by
  rw [initializeMovies, Option.bind_eq_some_iff] at h
  obtain ⟨row, -, hrows⟩ := h
  exact rowLoop_lines_apart hrows

theorem takeWhile_line {l : Text} (h : '\n' ∉ l) (rest : Text) :
    (l ++ ['\n'] ++ rest).takeWhile (fun c => decide (c ≠ '\n')) = l := by
  rw [List.append_assoc, List.takeWhile_append_of_pos fun c hc => by
    have hne : c ≠ '\n' := fun e => h (e ▸ hc)
    simpa using hne]
  simp

theorem lines_injective {ls ls' : List Text} (h : ∀ l ∈ ls, '\n' ∉ l) (h' : ∀ l ∈ ls', '\n' ∉ l)
    (e : (ls.flatMap fun line => line ++ ['\n']) = ls'.flatMap fun line => line ++ ['\n']) : ls = ls' := by
  induction ls generalizing ls' with
  | nil =>
    cases ls' with
    | nil => rfl
    | cons l' ls' => simp at e
  | cons l ls ih =>
    cases ls' with
    | nil => simp at e
    | cons l' ls' =>
      rw [List.flatMap_cons, List.flatMap_cons] at e
      have hl : l = l' := by
        have htake := congrArg (List.takeWhile fun c => decide (c ≠ '\n')) e
        rwa [takeWhile_line (h l List.mem_cons_self), takeWhile_line (h' l' List.mem_cons_self)] at htake
      rw [hl] at e ⊢
      have hrest := ih (fun x hx => h x (List.mem_cons_of_mem _ hx))
        (fun x hx => h' x (List.mem_cons_of_mem _ hx)) (List.append_cancel_left e)
      rw [hrest]

/-! ## Both programs -/

theorem answer_apart {c : Cut (Movie S)} (hm : initializeMovies profile file = some movies)
    (hc : c.flatten = matching cross req movies) : ∀ line ∈ answer c, '\n' ∉ line := by
  intro line hline
  obtain ⟨r, hr, rfl⟩ := List.mem_map.1 hline
  have hr := (Cut.sorted_perm _).mem_iff.1 hr
  rw [Cut.flatten_map, hc] at hr
  obtain ⟨x, hx, rfl⟩ := List.mem_map.1 hr
  obtain ⟨mv, hmv, rfl⟩ := List.mem_map.1 hx
  have htitle := initializeMovies_titles hm mv (List.mem_of_mem_filter hmv)
  intro hmem
  rcases List.mem_append.1 hmem with hmem | hmem
  · exact htitle hmem
  · exact absurd hmem (by decide)

/-- On the same inputs, in every interleaving of either program: the two files for the first request
are the same exactly if the cuts agree. -/
theorem servers_agree_iff (cross : P → P → S) (profile : List Text → P) (file stdin : Text)
    (movies : List (MovieProfile P)) (req : Asked P) (reqs : List (Asked P)) (m m' : Memory S)
    (h : initializeData profile file stdin = some (movies, req :: reqs))
    (hids : ((req :: reqs).map Asked.id).Nodup)
    (hc : ∀ r ∈ req :: reqs, ∀ x ∈ matching cross r.toRequest movies, x.Comparable) :
    ∃ A B : Text,
      ForkJoin.Correct (Thread.serve cross movies 0 ((req :: reqs).map Asked.toRequest)) m
        (fun f => outFile (req :: reqs) f (outName req) = some A) ∧
      ForkJoin.Correct (Process.serve cross movies ((req :: reqs).map Asked.toRequest)) m'
        (fun f => Process.outFile (req :: reqs) f (Process.outName req) = some B) ∧
      (A = B ↔ CutsAgree (matching cross req.toRequest movies)) := by
  have hmovies := initializeData_movies h
  have hsort : ∀ r ∈ req :: reqs, Sortable (key.length + 1) (matching cross r.toRequest movies) :=
    fun r hr => initializeMovies_sortable hmovies (hc r hr)
  let xs := matching cross req.toRequest movies
  have hwrites : ∀ r ∈ (req :: reqs).map Asked.toRequest, Thread.Writes cross movies
      (fun r lines => lines = answer (Thread.cut (matching cross r movies))) r := by
    intro r hr
    obtain ⟨a, ha, rfl⟩ := List.mem_map.1 hr
    refine thread_yields ((hsort a ha).mono (Nat.le_add_left 1 key.length)) fun ys hy => ?_
    refine yields_answer hy fun x hx => hc a ha x ?_
    rwa [Thread.cut_flatten] at hx
  obtain ⟨f₁, hleads₁, hout₁⟩ := leads_serve ((req :: reqs).map Asked.toRequest) 0 m hwrites
  obtain ⟨f₂, ys, hleads₂, hyields, hout₂⟩ :=
    process_yields (initializeMovies_fit hmovies).1 (hsort req List.mem_cons_self) m'
  have hthread : f₁ (.out 0) = answer (Thread.cut xs) := hout₁ 0 req.toRequest rfl
  have hprocess : f₂ (.out 0) = answer (Process.cut MAX_LEVEL xs) := by
    refine hout₂.trans (yields_answer hyields fun x hx => hc req List.mem_cons_self x ?_)
    rwa [Process.cut_flatten] at hx
  refine ⟨_, _, hleads₁.correct (outFile_eq (i := 0) hids rfl f₁),
    hleads₂.correct (by rw [process_outFile, if_pos rfl]), ?_⟩
  rw [hthread, hprocess, ← cutsAgree_iff (hsort req List.mem_cons_self)]
  constructor
  · exact lines_injective (answer_apart hmovies (Thread.cut_flatten xs))
      (answer_apart hmovies (Process.cut_flatten _ xs))
  · intro e
    rw [e]

/-- The films, one of them once more with a byte below the tab behind its title. -/
def copies : List Row := films ++ [film "6000" "Heat (1995)\x01" [0, 5, 15]]

def copyMovies : List (MovieProfile (List Int)) := copies.map (Row.movie (List.map strtol))

theorem copies_read : initializeData (List.map strtol) (moviesFile "movieId title".toList copies)
    (requestsInput filmQueries) = some (copyMovies, filmReqs) :=
  initializeData_lines (initializeMovies_lines (by decide) (by decide) (by decide) (by decide))
    films_legal.2 (by decide)

theorem copies_comparable :
    ∀ req ∈ filmReqs, ∀ x ∈ matching dot req.toRequest copyMovies, x.Comparable := by
  have h : ∀ req ∈ filmReqs, ∀ x ∈ matching dot req.toRequest copyMovies, 0 ≤ x.score := by
    decide +kernel
  exact fun req hreq => comparable_int (h req hreq)

/-- The processes cut between the two. -/
theorem copies_cut : ¬ CutsAgree (matching dot allReq.toRequest copyMovies) := by
  have hcut : Thread.cut (matching dot allReq.toRequest copyMovies) =
      .leaf (matching dot allReq.toRequest copyMovies) := by
    rw [Thread.cut, dif_pos (by decide +kernel)]
  rw [CutsAgree, hcut, Cut.finer, List.forall_mem_singleton]
  decide +kernel

theorem servers_agree_iff_copies :
    ∃ A B : Text,
      ForkJoin.Correct (Thread.serve dot copyMovies 0 (filmReqs.map Asked.toRequest)) blank
        (fun f => outFile filmReqs f (outName allReq) = some A) ∧
      ForkJoin.Correct (Process.serve dot copyMovies (filmReqs.map Asked.toRequest)) blank
        (fun f => Process.outFile filmReqs f (Process.outName allReq) = some B) ∧ A ≠ B := by
  obtain ⟨A, B, hA, hB, hiff⟩ := servers_agree_iff dot (List.map strtol) _ _ copyMovies allReq _ blank
    blank copies_read (by decide) copies_comparable
  exact ⟨A, B, hA, hB, fun h => copies_cut (hiff.1 h)⟩

end SysProg.Movies
