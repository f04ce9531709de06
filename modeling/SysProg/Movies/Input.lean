import Mathlib.Data.List.TakeWhile
import Mathlib.Tactic.MkIffOfInductiveProp
import SysProg.Movies.Initialize

/-!
# SysProg.Movies.Input

What the movie server reads: `movies.txt` and the requests on `stdin`.

* `scanD`, `scanU`, `scanWord`: the conversions of `scanf`, each on what is left of the input.
* `readRequest`, `initializeData`: `read_request` and the whole of `initialize`.
* `Row`, `Query`: what a row and a request are written from; `Row.line`, `Query.line`.
* `genres_read`, `readMovie_line`, `readRequest_line`: one token, row and request.
* `initialize_reads`: whatever has been written is read back.
-/

namespace SysProg.Movies

def MAX_REQ : Nat := 32

structure Asked (P : Type) extends Request P where
  id : CInt

def unsign (t : Text) : Bool × Text :=
  if t.head? = some '-' then (true, t.drop 1)
  else if t.head? = some '+' then (false, t.drop 1)
  else (false, t)

/-- The sign and the value of a number, and what follows. -/
def scanDigits (s : Text) : Option (Bool × Nat × Text) :=
  let x := unsign (s.dropWhile isspace)
  let ds := x.2.takeWhile Char.isDigit
  if ds = [] then none else some (x.1, digitsVal ds, x.2.drop ds.length)

/-- `%d` is `strtol`, cut down to an `int`. -/
def scanD (s : Text) : Option (CInt × Text) :=
  (scanDigits s).map fun x =>
    (BitVec.ofInt 32 (if x.1 then max (-(2 ^ 63)) (-(x.2.1 : Int)) else min (2 ^ 63 - 1) (x.2.1 : Int)), x.2.2)

/-- `%u` is `strtoul`; here into an `int`. -/
def scanU (s : Text) : Option (CInt × Text) :=
  (scanDigits s).map fun x =>
    (BitVec.ofInt 32 (if 2 ^ 64 ≤ x.2.1 then 2 ^ 64 - 1 else if x.1 then -(x.2.1 : Int) else x.2.1), x.2.2)

/-- `%254s` for `width` 254 -/
def scanWord (width : Nat) (s : Text) : Option (Text × Text) :=
  let t := s.dropWhile isspace
  if t = [] then none
  else
    let w := (t.takeWhile fun c => !isspace c).take width
    some (w, t.drop w.length)

section

variable {P : Type} (profile : List Text → P)

/-- `none`: a conversion fails and the program goes on with what happens to be in the buffers, or
`strtok` runs out of tokens. -/
def readRequest (s : Text) : Option (Asked P × Text) :=
  (scanU s).bind fun x =>
    (scanWord 254 x.2).bind fun y =>
      (scanWord 254 y.2).bind fun z =>
        let r := strtok [','] (cstr z.1)
        (genreLoop NUM_OF_GENRE r.1 r.2).map fun genres => (⟨⟨cstr y.1, profile genres⟩, x.1⟩, z.2)

def requestLoop : Nat → Text → Option (List (Asked P))
  | 0, _ => some []
  | n + 1, s => (readRequest profile s).bind fun r => (requestLoop n r.2).map (r.1 :: ·)

/-- `initialize`: the movies and the requests. Without a number on `stdin` there are no requests. -/
def initializeData (file stdin : Text) : Option (List (MovieProfile P) × List (Asked P)) :=
  (initializeMovies profile file).bind fun movies =>
    match scanD stdin with
    | none => some (movies, [])
    | some n =>
      if n.1.toNat ≤ MAX_REQ then (requestLoop profile n.1.toNat n.2).map fun reqs => (movies, reqs)
      else none

end

/-! ## What is written -/

/-- Looks at the bytes of the text only. -/
instance decidableText (p : Char → Prop) [DecidablePred p] (s : Text) : Decidable (∀ c ∈ s, p c) :=
  List.decidableBAll p s

structure Row where
  id : Text
  title : Text
  genres : List Text
  /-- The last genre, and whatever stands between it and the end of the line. -/
  last : Text

def Row.line (r : Row) : Text :=
  r.id ++ ' ' :: (r.title ++ " \x7b".toList) ++ List.intercalate [','] (r.genres ++ [r.last ++ ['\n']])

@[mk_iff]
structure Row.Legal (r : Row) : Prop where
  id : r.id ≠ [] ∧ ' ' ∉ r.id
  title : '\x7b' ∉ r.title
  genres : r.genres.length + 1 = NUM_OF_GENRE
  genre : ∀ g ∈ r.genres, g ≠ [] ∧ ',' ∉ g
  last : ',' ∉ r.last
  /-- One line of one string. -/
  line : ∀ t ∈ r.id :: r.title :: r.last :: r.genres, ∀ c ∈ t, c ≠ '\n' ∧ c ≠ '\x00'
  fits : r.line.length ≤ MAX_LEN - 1

instance (r : Row) : Decidable r.Legal := decidable_of_iff _ r.legal_iff.symm

def Row.movie {P : Type} (profile : List Text → P) (r : Row) : MovieProfile P :=
  ⟨r.title, profile (r.genres ++ [r.last ++ ['\n']])⟩

structure Query where
  id : CInt
  keywords : Text
  genres : List Text

def Query.line (q : Query) : Text :=
  decimal q.id ++ (' ' :: q.keywords ++ ' ' :: List.intercalate [','] q.genres) ++ ['\n']

@[mk_iff]
structure Query.Legal (q : Query) : Prop where
  keywords : q.keywords ≠ [] ∧ q.keywords.length ≤ 254
  genres : q.genres.length = NUM_OF_GENRE
  genre : ∀ g ∈ q.genres, g ≠ [] ∧ ',' ∉ g
  /-- Words of one string. -/
  word : ∀ t ∈ q.keywords :: q.genres, ∀ c ∈ t, isspace c = false ∧ c ≠ '\x00'
  fits : (List.intercalate [','] q.genres).length ≤ 254

instance (q : Query) : Decidable q.Legal := decidable_of_iff _ q.legal_iff.symm

def Query.asked {P : Type} (profile : List Text → P) (q : Query) : Asked P :=
  ⟨⟨q.keywords, profile q.genres⟩, q.id⟩

/-- The file, whose first row is skipped. -/
def moviesFile (header : Text) (rows : List Row) : Text := header ++ '\n' :: rows.flatMap Row.line

def requestsInput (qs : List Query) : Text :=
  decimal (BitVec.ofNat 32 qs.length) ++ '\n' :: qs.flatMap Query.line

/-! ## Tokens -/

section

variable {d c : Char} {t u rest s : Text} {n : Nat} {gs : List Text}

theorem dropWhile_head {p : Char → Bool} (hc : p c = false) (s : Text) :
    (c :: s).dropWhile p = c :: s := List.dropWhile_cons_of_neg (by simp [hc])

/-- A token ends at a delimiter or with the text. -/
theorem strtok_append (ht : t ≠ []) (hd : d ∉ t) (hu : ∀ c ∈ u.head?, c = d) :
    strtok [d] (t ++ u) = (some t, u.drop 1) := by
  obtain ⟨c, t, rfl⟩ := List.exists_cons_of_ne_nil ht
  have hc : c ≠ d := fun e => hd (by rw [e]; exact List.mem_cons_self)
  have hskip : ((c :: t) ++ u).dropWhile (fun c => decide (c ∈ [d])) = (c :: t) ++ u :=
    dropWhile_head (by simpa using hc) _
  have htok : ∀ x ∈ c :: t, decide (x ∉ [d]) = true := by
    intro x hx
    have : x ≠ d := fun e => hd (e ▸ hx)
    simpa using this
  rw [strtok, hskip, if_neg (by simp), List.takeWhile_append_of_pos htok,
    List.dropWhile_append_of_pos htok]
  cases u with
  | nil => simp
  | cons x u =>
    obtain rfl : x = d := hu x rfl
    simp

theorem strtok_token (ht : t ≠ []) (hd : d ∉ t) : strtok [d] (t ++ d :: rest) = (some t, rest) :=
  strtok_append ht hd (by simp)

theorem strtok_last (ht : t ≠ []) (hd : d ∉ t) : strtok [d] t = (some t, []) := by
  simpa using strtok_append (u := []) ht hd (by simp)

/-- The tokens between the commas. -/
theorem genres_read (hgs : gs ≠ []) (h : ∀ g ∈ gs, g ≠ [] ∧ ',' ∉ g) :
    genreLoop gs.length (strtok [','] (List.intercalate [','] gs)).1
      (strtok [','] (List.intercalate [','] gs)).2 = some gs := by
  induction gs with
  | nil => exact absurd rfl hgs
  | cons g gs ih =>
    obtain ⟨hne, hc⟩ := h g List.mem_cons_self
    cases gs with
    | nil =>
      rw [List.intercalate_singleton, strtok_last hne hc]
      rfl
    | cons g' gs =>
      have hrest := ih (List.cons_ne_nil g' gs) fun x hx => h x (List.mem_cons_of_mem _ hx)
      have hsplit : List.intercalate [','] (g :: g' :: gs) =
          g ++ ',' :: List.intercalate [','] (g' :: gs) := by
        rw [List.intercalate_cons_cons, List.append_assoc]
        rfl
      rw [hsplit, strtok_token hne hc, List.length_cons, genreLoop, hrest]
      rfl

theorem cstr_eq (h : ∀ c ∈ s, c ≠ '\x00') : cstr s = s :=
  List.takeWhile_eq_self_iff.2 fun c hc => by simpa using h c hc

theorem mem_intercalate {x : Char} (h : x ∈ List.intercalate [d] gs) : x = d ∨ ∃ g ∈ gs, x ∈ g := by
  induction gs with
  | nil => simp at h
  | cons g gs ih =>
    cases gs with
    | nil =>
      rw [List.intercalate_singleton] at h
      exact .inr ⟨g, List.mem_cons_self, h⟩
    | cons g' gs =>
      rw [List.intercalate_cons_cons, List.mem_append, List.mem_append] at h
      rcases h with (h | h) | h
      · exact .inr ⟨g, List.mem_cons_self, h⟩
      · exact .inl (List.mem_singleton.1 h)
      · rcases ih h with h | ⟨y, hy, hx⟩
        · exact .inl h
        · exact .inr ⟨y, List.mem_cons_of_mem _ hy, hx⟩

/-! ## Numbers and words -/

theorem isspace_digit (h : c.isDigit = true) : isspace c = false := by
  simp only [Char.isDigit, Bool.and_eq_true, decide_eq_true_eq] at h
  have h48 : '0'.val ≤ c.val := h.1
  simp only [isspace, Bool.or_eq_false_iff, decide_eq_false_iff_not]
  refine ⟨⟨⟨⟨⟨?_, ?_⟩, ?_⟩, ?_⟩, ?_⟩, ?_⟩ <;> rintro rfl <;> exact absurd h48 (by decide)

theorem digits_isDigit (n : Nat) : ∀ c ∈ Nat.toDigits 10 n, c.isDigit = true :=
  fun _ hc => Nat.isDigit_of_mem_toDigits (by decide) (by decide) hc

/-- What stands behind a number. -/
def Stops (s : Text) : Prop := ∀ c ∈ s.head?, c.isDigit = false

theorem takeWhile_digits (n : Nat) (hs : Stops rest) :
    (Nat.toDigits 10 n ++ rest).takeWhile Char.isDigit = Nat.toDigits 10 n := by
  rw [List.takeWhile_append_of_pos (digits_isDigit n)]
  cases rest with
  | nil => simp
  | cons c rest =>
    have hc : c.isDigit = false := hs c rfl
    rw [List.takeWhile_cons_of_neg (by simp [hc]), List.append_nil]

theorem scanDigits_of {b : Bool} (h : unsign (s.dropWhile isspace) = (b, Nat.toDigits 10 n ++ rest))
    (hs : Stops rest) : scanDigits s = some (b, n, rest) := by
  have hval : digitsVal (Nat.toDigits 10 n) = n := Nat.ofDigitChars_ten_toDigits
  simp only [scanDigits, h, takeWhile_digits n hs]
  rw [if_neg Nat.toDigits_ne_nil, List.drop_left, hval]

theorem scanDigits_neg (n : Nat) (hs : Stops rest) :
    scanDigits ('-' :: Nat.toDigits 10 n ++ rest) = some (true, n, rest) := by
  refine scanDigits_of ?_ hs
  rw [List.cons_append, dropWhile_head (by decide)]
  rfl

theorem scanDigits_nat (n : Nat) (hs : Stops rest) :
    scanDigits (Nat.toDigits 10 n ++ rest) = some (false, n, rest) := by
  refine scanDigits_of ?_ hs
  obtain ⟨c, u, hu⟩ := List.exists_cons_of_ne_nil (Nat.toDigits_ne_nil (b := 10) (n := n))
  have hc : c.isDigit = true := digits_isDigit n c (by rw [hu]; exact List.mem_cons_self)
  rw [hu, List.cons_append, dropWhile_head (isspace_digit hc), unsign, if_neg, if_neg]
  · rintro ⟨⟩
    cases hc
  · rintro ⟨⟩
    cases hc

theorem scanDigits_skip (hc : isspace c = true) : scanDigits (c :: s) = scanDigits s := by
  rw [scanDigits, List.dropWhile_cons_of_pos hc, scanDigits]

theorem scanU_skip (hc : isspace c = true) : scanU (c :: s) = scanU s := by
  rw [scanU, scanDigits_skip hc, scanU]

theorem scanU_decimal (x : CInt) (hs : Stops rest) : scanU (decimal x ++ rest) = some (x, rest) := by
  have hb := CInt.toInt_bounds x
  rw [scanU, decimal]
  split
  · have hbig : ¬ 2 ^ 64 ≤ (-x.toInt).toNat := by omega
    rw [scanDigits_neg _ hs, Option.map_some, if_neg hbig, if_pos rfl]
    have hx : -((-x.toInt).toNat : Int) = x.toInt := by omega
    rw [hx, BitVec.ofInt_toInt]
  · have hbig : ¬ 2 ^ 64 ≤ x.toInt.toNat := by omega
    rw [scanDigits_nat _ hs, Option.map_some, if_neg hbig]
    have hx : (x.toInt.toNat : Int) = x.toInt := by omega
    simp only [Bool.false_eq_true, if_false, hx, BitVec.ofInt_toInt]

theorem scanD_decimal (x : CInt) (hs : Stops rest) : scanD (decimal x ++ rest) = some (x, rest) := by
  have hb := CInt.toInt_bounds x
  rw [scanD, decimal]
  split
  · rw [scanDigits_neg _ hs, Option.map_some, if_pos rfl]
    have hx : max (-(2 ^ 63)) (-((-x.toInt).toNat : Int)) = x.toInt := by omega
    rw [hx, BitVec.ofInt_toInt]
  · rw [scanDigits_nat _ hs, Option.map_some]
    have hx : min (2 ^ 63 - 1) (x.toInt.toNat : Int) = x.toInt := by omega
    simp only [Bool.false_eq_true, if_false, hx, BitVec.ofInt_toInt]

theorem scanWord_word {a b : Char} {w : Text} (ha : isspace a = true) (hb : isspace b = true)
    (hw : w ≠ [] ∧ w.length ≤ n) (hword : ∀ c ∈ w, isspace c = false) :
    scanWord n (a :: w ++ b :: rest) = some (w, b :: rest) := by
  obtain ⟨c, u, rfl⟩ := List.exists_cons_of_ne_nil hw.1
  have hskip : (a :: (c :: u) ++ b :: rest).dropWhile isspace = (c :: u) ++ b :: rest := by
    rw [List.cons_append, List.dropWhile_cons_of_pos ha]
    exact dropWhile_head (hword c List.mem_cons_self) _
  have hnot : ∀ x ∈ c :: u, (!isspace x) = true := fun x hx => by simp [hword x hx]
  have htake : ((c :: u) ++ b :: rest).takeWhile (fun c => !isspace c) = c :: u := by
    rw [List.takeWhile_append_of_pos hnot, List.takeWhile_cons_of_neg (by simp [hb]), List.append_nil]
  rw [scanWord, hskip, if_neg (by simp), htake, List.take_of_length_le hw.2]
  show some (c :: u, ((c :: u) ++ b :: rest).drop (c :: u).length) = _
  rw [List.drop_left]

end

/-! ## Requests -/

section

variable {P : Type} {profile : List Text → P} {q : Query} {qs : List Query} {rest : Text}

theorem stops_cons {c : Char} (h : c.isDigit = false) (s : Text) : Stops (c :: s) := by
  rintro x ⟨⟩
  exact h

theorem readRequest_line (h : q.Legal) :
    readRequest profile ('\n' :: q.line ++ rest) = some (q.asked profile, '\n' :: rest) := by
  have hkey : ∀ c ∈ q.keywords, isspace c = false ∧ c ≠ '\x00' := h.word _ List.mem_cons_self
  have hgenre : ∀ c ∈ List.intercalate [','] q.genres, isspace c = false ∧ c ≠ '\x00' := by
    intro c hc
    rcases mem_intercalate hc with rfl | ⟨g, hg, hc⟩
    · decide
    · exact h.word g (List.mem_cons_of_mem _ hg) c hc
  have hne : q.genres ≠ [] := by
    intro e
    have hlen := h.genres
    rw [e] at hlen
    cases hlen
  have hjoin : List.intercalate [','] q.genres ≠ [] := by
    intro e
    have hread := genres_read hne h.genre
    rw [e, h.genres] at hread
    cases hread
  let tail := ' ' :: List.intercalate [','] q.genres ++ '\n' :: rest
  have hline : '\n' :: q.line ++ rest = '\n' :: (decimal q.id ++ (' ' :: q.keywords ++ tail)) := by
    simp [Query.line, tail]
  have h₁ : scanU ('\n' :: q.line ++ rest) = some (q.id, ' ' :: q.keywords ++ tail) := by
    rw [hline, scanU_skip (by decide)]
    exact scanU_decimal q.id (stops_cons (c := ' ') (by decide) _)
  have h₂ : scanWord 254 (' ' :: q.keywords ++ tail) = some (q.keywords, tail) :=
    scanWord_word (by decide) (by decide) h.keywords fun c hc => (hkey c hc).1
  have h₃ : scanWord 254 tail = some (List.intercalate [','] q.genres, '\n' :: rest) :=
    scanWord_word (by decide) (by decide) ⟨hjoin, h.fits⟩ fun c hc => (hgenre c hc).1
  have hread := genres_read hne h.genre
  rw [h.genres] at hread
  simp only [readRequest, h₁, h₂, h₃, Option.bind_some, cstr_eq fun c hc => (hkey c hc).2,
    cstr_eq fun c hc => (hgenre c hc).2, hread, Option.map_some]
  rfl

theorem requestLoop_lines (h : ∀ q ∈ qs, q.Legal) :
    requestLoop profile qs.length ('\n' :: qs.flatMap Query.line) = some (qs.map (Query.asked profile)) := by
  induction qs with
  | nil => rfl
  | cons q qs ih =>
    have hline : '\n' :: (q :: qs).flatMap Query.line = '\n' :: q.line ++ qs.flatMap Query.line := by
      rw [List.flatMap_cons, List.cons_append]
    rw [hline, List.length_cons, requestLoop, readRequest_line (h q List.mem_cons_self),
      Option.bind_some, ih fun x hx => h x (List.mem_cons_of_mem _ hx)]
    rfl

end

/-! ## Rows -/

section

variable {P : Type} {profile : List Text → P} {r : Row} {rows : List Row} {s rest : Text}

theorem fgets_line (hs : '\n' ∉ s) (hlen : s.length + 1 ≤ MAX_LEN - 1) :
    fgets MAX_LEN (s ++ '\n' :: rest) = some (s ++ ['\n'], rest) := by
  have htake : (s ++ '\n' :: rest).takeWhile (fun c => decide (c ≠ '\n')) = s := by
    rw [List.takeWhile_append_of_pos fun c hc => by
      have : c ≠ '\n' := fun e => hs (e ▸ hc)
      simpa using this]
    simp
  have hmin : min (MAX_LEN - 1) (s.length + 1) = (s ++ ['\n']).length := by
    rw [List.length_append, List.length_singleton]
    omega
  have hsplit : s ++ '\n' :: rest = (s ++ ['\n']) ++ rest := by simp
  rw [fgets, if_neg (by simp), htake, hmin, hsplit]
  simp only [List.take_left, List.drop_left]

/-- A row without the end of its line. -/
def Row.body (r : Row) : Text :=
  r.id ++ ' ' :: (r.title ++ " \x7b".toList) ++ List.intercalate [','] (r.genres ++ [r.last])

theorem intercalate_last {d : Char} (gs : List Text) (t u : Text) :
    List.intercalate [d] (gs ++ [t ++ u]) = List.intercalate [d] (gs ++ [t]) ++ u := by
  induction gs with
  | nil => simp
  | cons g gs ih =>
    rw [List.cons_append, List.cons_append, List.intercalate_cons_of_ne_nil (by simp),
      List.intercalate_cons_of_ne_nil (by simp), ih, List.append_assoc]
    simp

theorem line_eq (r : Row) : r.line = r.body ++ ['\n'] := by
  simp only [Row.line, Row.body, intercalate_last, List.append_assoc]

theorem Row.Legal.body (h : r.Legal) : ∀ c ∈ r.body, c ≠ '\n' ∧ c ≠ '\x00' := by
  have hline := h.line
  simp only [List.forall_mem_cons] at hline
  obtain ⟨hid, htitle, hlast, hgenres⟩ := hline
  intro c hc
  simp only [Row.body, List.mem_append, List.mem_cons] at hc
  rcases hc with (hc | rfl | hc | hc) | hc
  · exact hid c hc
  · decide
  · exact htitle c hc
  · have hc : c ∈ [' ', '\x7b'] := hc
    simp only [List.mem_cons, List.not_mem_nil, or_false] at hc
    rcases hc with rfl | rfl <;> decide
  · rcases mem_intercalate hc with rfl | ⟨g, hg, hc⟩
    · decide
    · rcases List.mem_append.1 hg with hg | hg
      · exact hgenres g hg c hc
      · exact hlast c (List.mem_singleton.1 hg ▸ hc)

theorem readMovie_line (h : r.Legal) : readMovie profile r.line = some (r.movie profile) := by
  have hcstr : cstr r.line = r.line := by
    refine cstr_eq fun c hc => ?_
    rw [line_eq] at hc
    rcases List.mem_append.1 hc with hc | hc
    · exact (h.body c hc).2
    · rw [List.mem_singleton.1 hc]
      decide
  let gs := r.genres ++ [r.last ++ ['\n']]
  have h₁ : strtok [' '] r.line = (some r.id, r.title ++ " \x7b".toList ++ List.intercalate [','] gs) := by
    rw [Row.line, List.append_assoc]
    exact strtok_token h.id.1 h.id.2
  have h₂ : strtok ['\x7b'] (r.title ++ " \x7b".toList ++ List.intercalate [','] gs) =
      (some (r.title ++ [' ']), List.intercalate [','] gs) := by
    have hsplit : r.title ++ " \x7b".toList ++ List.intercalate [','] gs =
        (r.title ++ [' ']) ++ '\x7b' :: List.intercalate [','] gs := by
      simp
    rw [hsplit]
    refine strtok_token (by simp) ?_
    intro hc
    rcases List.mem_append.1 hc with hc | hc
    · exact h.title hc
    · exact absurd hc (by decide)
  have hgs : ∀ g ∈ gs, g ≠ [] ∧ ',' ∉ g := by
    intro g hg
    rcases List.mem_append.1 hg with hg | hg
    · exact h.genre g hg
    · rw [List.mem_singleton.1 hg]
      refine ⟨by simp, fun hc => ?_⟩
      rcases List.mem_append.1 hc with hc | hc
      · exact h.last hc
      · exact absurd hc (by decide)
  have hne : gs ≠ [] := List.append_ne_nil_of_right_ne_nil _ (List.cons_ne_nil _ [])
  have h₃ := genres_read hne hgs
  have hlen : gs.length = NUM_OF_GENRE := by
    rw [List.length_append, List.length_singleton]
    exact h.genres
  rw [hlen] at h₃
  simp only [readMovie, hcstr, h₁, h₂, Option.bind_some, h₃, Option.map_some]
  simp [Row.movie, gs]

theorem rowLoop_lines {fuel cnt : Nat} (h : ∀ r ∈ rows, r.Legal)
    (hfuel : (rows.flatMap Row.line).length ≤ fuel) (hcnt : cnt + rows.length ≤ MAX_MOVIES) :
    rowLoop profile fuel cnt (rows.flatMap Row.line) = some (rows.map (Row.movie profile)) := by
  induction rows generalizing fuel cnt with
  | nil =>
    cases fuel with
    | zero => rfl
    | succ fuel => rfl
  | cons r rows ih =>
    have hr := h r List.mem_cons_self
    have hfits := hr.fits
    have hpos : 0 < r.line.length := by
      rw [line_eq, List.length_append]
      simp
    rw [List.flatMap_cons, List.length_append] at hfuel
    rw [List.length_cons] at hcnt
    cases fuel with
    | zero => omega
    | succ fuel =>
      have hget : fgets MAX_LEN ((r :: rows).flatMap Row.line) = some (r.line, rows.flatMap Row.line) := by
        rw [List.flatMap_cons, line_eq, List.append_assoc]
        refine fgets_line (fun hc => (hr.body _ hc).1 rfl) ?_
        rw [line_eq, List.length_append] at hfits
        exact hfits
      simp only [rowLoop, hget]
      rw [if_pos (by omega), readMovie_line hr, Option.bind_some,
        ih (fun x hx => h x (List.mem_cons_of_mem _ hx)) (by omega) (by omega)]
      rfl

theorem initializeMovies_lines {header : Text} (hh : '\n' ∉ header)
    (hlen : header.length + 1 ≤ MAX_LEN - 1) (h : ∀ r ∈ rows, r.Legal) (hmax : rows.length ≤ MAX_MOVIES) :
    initializeMovies profile (moviesFile header rows) = some (rows.map (Row.movie profile)) := by
  rw [initializeMovies, moviesFile, fgets_line hh hlen, Option.bind_some]
  exact rowLoop_lines h (le_refl _) (by omega)

theorem initializeData_lines {file : Text} {movies : List (MovieProfile P)} {qs : List Query}
    (h : initializeMovies profile file = some movies) (hqs : ∀ q ∈ qs, q.Legal)
    (hreqs : qs.length ≤ MAX_REQ) :
    initializeData profile file (requestsInput qs) = some (movies, qs.map (Query.asked profile)) := by
  rw [MAX_REQ] at hreqs
  have hn : (BitVec.ofNat 32 qs.length).toNat = qs.length := by
    rw [BitVec.toNat_ofNat]
    omega
  have hscan : scanD (requestsInput qs) =
      some (BitVec.ofNat 32 qs.length, '\n' :: qs.flatMap Query.line) :=
    scanD_decimal _ (stops_cons (by decide) _)
  rw [initializeData, h, Option.bind_some, hscan]
  show (if (BitVec.ofNat 32 qs.length).toNat ≤ MAX_REQ then _ else none) = _
  rw [hn, if_pos (by rw [MAX_REQ]; exact hreqs), requestLoop_lines hqs]
  rfl

end

/-- What has been written to the two inputs is what the server works with. -/
theorem initialize_reads {P : Type} (profile : List Text → P) (header : Text) (rows : List Row)
    (qs : List Query) (hh : '\n' ∉ header) (hlen : header.length + 1 ≤ MAX_LEN - 1)
    (hrows : ∀ r ∈ rows, r.Legal) (hmax : rows.length ≤ MAX_MOVIES) (hqs : ∀ q ∈ qs, q.Legal)
    (hreqs : qs.length ≤ MAX_REQ) :
    initializeData profile (moviesFile header rows) (requestsInput qs) =
      some (rows.map (Row.movie profile), qs.map (Query.asked profile)) :=
  initializeData_lines (initializeMovies_lines hh hlen hrows hmax) hqs hreqs

def heat : Row where
  id := "6".toList
  title := "Heat (1995)".toList
  genres := List.replicate 18 "0".toList
  last := "1".toList

def heatQuery : Query where
  id := 7
  keywords := "Heat".toList
  genres := List.replicate 19 "1".toList

theorem heat_legal : heat.Legal := by decide

theorem heatQuery_legal : heatQuery.Legal := by decide

theorem initialize_reads_heat :
    initializeData (List.map strtol) (moviesFile "movieId title".toList [heat]) (requestsInput [heatQuery]) =
      some ([heat.movie (List.map strtol)], [heatQuery.asked (List.map strtol)]) :=
  initialize_reads (List.map strtol) "movieId title".toList [heat] [heatQuery] (by decide) (by decide)
    (List.forall_mem_singleton.2 heat_legal) (by decide) (List.forall_mem_singleton.2 heatQuery_legal)
    (by decide)

end SysProg.Movies
