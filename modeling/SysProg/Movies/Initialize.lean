import SysProg.Movies.Builds

/-!
# SysProg.Movies.Initialize

Reading the movies (`initialize` of `HW4/server.c`), and the length of the titles it can produce.

* `strtok`: with the string or saved pointer as an argument; returns the token and the new saved
  pointer.
* `readMovie`: one row of the file. The profile is a parameter: `strtod` of the 19 tokens, then the
  normalization. `none` is a null pointer where `initialize` expects a token.
* `initializeMovies`: all rows but the first.
* `titles_fit`: the id, the delimiters and the genres take at least 40 bytes of a row, so the title
  fits a buffer with the secret.
* `process_correct`: the `PROCESS` build answers every request to such movies.
-/

namespace SysProg.Movies

def NUM_OF_GENRE : Nat := 19

def strtok (delim s : Text) : Option Text × Text :=
  let s := s.dropWhile fun c => decide (c ∈ delim)
  if s = [] then (none, [])
  else (some (s.takeWhile fun c => decide (c ∉ delim)), (s.dropWhile fun c => decide (c ∉ delim)).drop 1)

/-- The loop over the genres, which looks one token ahead. -/
def genreLoop : Nat → Option Text → Text → Option (List Text)
  | 0, _, _ => some []
  | _ + 1, none, _ => none
  | n + 1, some token, saved =>
    let r := strtok [','] saved
    (genreLoop n r.1 r.2).map (token :: ·)

/-- The body of the loop of `initialize`; the id is not used again. -/
def readMovie {P : Type} (profile : List Text → P) (chunk : Text) : Option (MovieProfile P) :=
  let r := strtok [' '] (cstr chunk)
  r.1.bind fun _ =>
    let r := strtok ['{'] r.2
    r.1.bind fun token =>
      let r := strtok [','] r.2
      (genreLoop NUM_OF_GENRE r.1 r.2).map fun genres =>
        ⟨token.take (token.length - 1), profile genres⟩

/-- `fgets` returns at most `size - 1` bytes, up to the end of a line. -/
def fgets (size : Nat) (file : Text) : Option (Text × Text) :=
  if file = [] then none
  else
    let n := min (size - 1) ((file.takeWhile fun c => decide (c ≠ '\n')).length + 1)
    some (file.take n, file.drop n)

/-- The rows from the `cnt`-th on; `fuel` bounds the number of bytes that are left. -/
def rowLoop {P : Type} (profile : List Text → P) : Nat → Nat → Text → Option (List (MovieProfile P))
  | 0, _, _ => some []
  | fuel + 1, cnt, file =>
    match fgets MAX_LEN file with
    | none => some []
    | some (chunk, rest) =>
      if cnt < MAX_MOVIES then
        (readMovie profile chunk).bind fun mv => (rowLoop profile fuel (cnt + 1) rest).map (mv :: ·)
      else none

/-- `initialize`. -/
def initializeMovies {P : Type} (profile : List Text → P) (file : Text) : Option (List (MovieProfile P)) :=
  (fgets MAX_LEN file).bind fun row => rowLoop profile row.2.length 0 row.2

/-- What the program needs of a title: the copy in `deal_request`, the assertion of `add_secret`, and
the copy of the result that a leaf of the `PROCESS` build makes. -/
structure TitleFits (S : Type) (title : Text) : Prop where
  room : title.length + key.length + 1 ≤ MAX_LEN
  copied : ∀ (b : Nat) (k : Code S), strcpy (.buf b) (.lit title) k = .write (.buf b) title k
  marked : ∀ (p : Ptr) (k : Ptr → Code S), addSecret p title.length k =
    deref p fun s => k (.lit (s.take title.length ++ key))
  copiedBack : ∀ (b : Nat) (k : Code S),
    strcpy (.buf b) (.lit (title ++ key)) k = .write (.buf b) (title ++ key) k

/-! ## Counting bytes -/

section

variable {delim s saved token : Text} {next : Option Text} {n : Nat} {genres : List Text}

/-- A token is not empty, and unless it is the last one, a delimiter stands behind it. -/
theorem strtok_length (h : strtok delim s = (some token, saved)) :
    1 ≤ token.length ∧ token.length + saved.length ≤ s.length ∧
      (saved ≠ [] → token.length + saved.length + 1 ≤ s.length) := by
  simp only [strtok] at h
  have hskip : (s.dropWhile fun c => decide (c ∈ delim)).length ≤ s.length :=
    (List.dropWhile_suffix _).length_le
  have hhead := List.head?_dropWhile_not (fun c => decide (c ∈ delim)) s
  generalize s.dropWhile (fun c => decide (c ∈ delim)) = t at h hskip hhead
  cases t with
  | nil =>
    rw [if_pos rfl] at h
    cases h
  | cons c t =>
    rw [if_neg (List.cons_ne_nil c t)] at h
    have hc : c ∉ delim := by simpa using hhead
    have hsum := congrArg List.length (List.takeWhile_append_dropWhile (p := fun c => decide (c ∉ delim))
      (l := c :: t))
    obtain ⟨htok, hsaved⟩ := Prod.mk.inj h
    have htok := Option.some.inj htok
    have hone : 1 ≤ token.length := by
      rw [← htok, List.takeWhile_cons_of_pos (by simpa using hc)]
      simp
    rw [List.length_append, htok] at hsum
    have hdrop := congrArg List.length hsaved
    rw [List.length_drop] at hdrop
    refine ⟨hone, by omega, fun hne => ?_⟩
    have hpos := List.length_pos_iff.2 hne
    omega

/-- `n` tokens take at least `n` bytes and the `n - 1` delimiters between them. -/
theorem genreLoop_length (hg : genreLoop n next saved = some genres) :
    ∀ {s : Text}, strtok [','] s = (next, saved) → 2 * n ≤ s.length + 1 := by
  induction n generalizing next saved genres with
  | zero => intro s _; omega
  | succ n ih =>
    intro s hs
    cases next with
    | none => cases hg
    | some token =>
      obtain ⟨hone, hle, hmore⟩ := strtok_length hs
      rw [genreLoop, Option.map_eq_some_iff] at hg
      obtain ⟨rest, hrest, -⟩ := hg
      have hn := ih hrest rfl
      by_cases h0 : n = 0
      · omega
      · have hne : saved ≠ [] := by
          rintro rfl
          simp only [List.length_nil] at hn
          omega
        have := hmore hne
        omega

end

section

variable {P : Type} {profile : List Text → P} {chunk : Text} {mv : MovieProfile P}

/-- The id takes 2 bytes, the genres 37, and the title loses one and is followed by another. -/
theorem readMovie_length (h : readMovie profile chunk = some mv) :
    mv.title.length + 41 ≤ chunk.length := by
  simp only [readMovie, Option.bind_eq_some_iff, Option.map_eq_some_iff] at h
  obtain ⟨id, hid, token, htoken, genres, hgenres, rfl⟩ := h
  generalize h1 : strtok [' '] (cstr chunk) = r1 at hid htoken hgenres
  generalize h2 : strtok ['{'] r1.2 = r2 at htoken hgenres
  obtain ⟨_, saved1⟩ := r1
  obtain ⟨_, saved2⟩ := r2
  cases hid
  cases htoken
  have h2 : strtok ['{'] saved1 = (some token, saved2) := h2
  obtain ⟨hid1, -, hid2⟩ := strtok_length h1
  obtain ⟨htok1, -, htok2⟩ := strtok_length h2
  have hg : 2 * NUM_OF_GENRE ≤ saved2.length + 1 := genreLoop_length hgenres rfl
  have hcstr : (cstr chunk).length ≤ chunk.length := (List.takeWhile_prefix _).length_le
  unfold NUM_OF_GENRE at hg
  have hne2 : saved2 ≠ [] := List.ne_nil_of_length_pos (by omega)
  have hne1 : saved1 ≠ [] := by
    rintro rfl
    cases h2
  have hid3 := hid2 hne1
  have htok3 := htok2 hne2
  rw [List.length_take]
  omega

theorem strcpy_fits {S : Type} {t : Text} (h : t.length + 1 ≤ MAX_LEN) (b : Nat) (k : Code S) :
    strcpy (.buf b) (.lit t) k = .write (.buf b) t k := by
  simp only [strcpy, deref]
  exact if_pos h

theorem titleFits_of_room {S : Type} [Double S] {title : Text}
    (h : title.length + key.length + 1 ≤ MAX_LEN) : TitleFits S title := by
  have hlt : title.length < MAX_LEN := by omega
  refine ⟨h, strcpy_fits (by omega), fun p k => ?_, strcpy_fits ?_⟩
  · rw [addSecret, if_pos hlt]
  · rw [List.length_append]
    exact h

theorem readMovie_room (hchunk : chunk.length ≤ MAX_LEN - 1)
    (h : readMovie profile chunk = some mv) : mv.title.length + key.length + 1 ≤ MAX_LEN := by
  have hlen := readMovie_length h
  have hkey : key.length = 19 := rfl
  unfold MAX_LEN at hchunk ⊢
  omega

/-- The titles of all movies that can be read fit, also with the secret. -/
theorem titles_fit {S : Type} [Double S] (hchunk : chunk.length ≤ MAX_LEN - 1)
    (h : readMovie profile chunk = some mv) : TitleFits S mv.title :=
  titleFits_of_room (readMovie_room hchunk h)

/-! ## The whole file -/

theorem fgets_length {size : Nat} {file rest : Text} (h : fgets size file = some (chunk, rest)) :
    chunk.length ≤ size - 1 := by
  unfold fgets at h
  split at h
  · cases h
  · cases h
    rw [List.length_take]
    omega

theorem rowLoop_titles {fuel cnt : Nat} {file : Text} {movies : List (MovieProfile P)}
    (h : rowLoop profile fuel cnt file = some movies) :
    (cnt ≤ MAX_MOVIES → cnt + movies.length ≤ MAX_MOVIES) ∧
      ∀ mv ∈ movies, mv.title.length + key.length + 1 ≤ MAX_LEN := by
  induction fuel generalizing cnt file movies with
  | zero =>
    cases h
    exact ⟨id, nofun⟩
  | succ fuel ih =>
    rw [rowLoop] at h
    split at h
    · cases h
      exact ⟨id, nofun⟩
    · rename_i chunk rest hget
      split at h
      · rename_i hcnt
        simp only [Option.bind_eq_some_iff, Option.map_eq_some_iff] at h
        obtain ⟨mv, hmv, more, hmore, rfl⟩ := h
        obtain ⟨hlen, htitles⟩ := ih hmore
        refine ⟨fun _ => ?_, fun mv' hmv' => ?_⟩
        · have := hlen hcnt
          rw [List.length_cons]
          omega
        · rcases List.mem_cons.1 hmv' with rfl | hmem
          · exact readMovie_room (fgets_length hget) hmv
          · exact htitles mv' hmem
      · cases h

/-- Movies from a file, with scores that can be compared: the processes answer the request in every
interleaving. -/
theorem process_correct {S : Type} [Double S] {file : Text} {movies : List (MovieProfile P)}
    (cross : P → P → S) (req : Request P) (d : Nat) (m : Memory S)
    (h : initializeMovies profile file = some movies)
    (hc : ∀ x ∈ matching cross req movies, x.Comparable) :
    ForkJoin.Correct (Process.dealRequest cross movies req d .done) m fun f =>
      f (.out d) = answer (Process.cut MAX_LEVEL (matching cross req movies)) := by
  rw [initializeMovies, Option.bind_eq_some_iff] at h
  obtain ⟨row, -, hrows⟩ := h
  obtain ⟨hlen, htitles⟩ := rowLoop_titles hrows
  have hmax : movies.length ≤ MAX_MOVIES := by
    have := hlen (Nat.zero_le _)
    omega
  refine process_writes cross req movies m hmax ⟨hc, fun x hx => ?_⟩
  obtain ⟨mv, hmv, rfl⟩ := List.mem_map.1 hx
  exact htitles mv (List.mem_of_mem_filter hmv)

end

/-- A row of the file. -/
def heatRow : Text :=
  "6 Heat (1995) \x7b0,1,0,0,0,1,0,0,0,0,0,0,0,0,0,0,1,0,0\n".toList

theorem heatRow_read : readMovie (fun gs => gs.map atoi) heatRow =
    some ⟨"Heat (1995)".toList, [0, 1, 0, 0, 0, 1, 0, 0, 0, 0, 0, 0, 0, 0, 0, 0, 1, 0, 0]⟩ :=
  rfl

theorem titles_fit_heat : TitleFits Int "Heat (1995)".toList :=
  titles_fit (by decide) heatRow_read

end SysProg.Movies
