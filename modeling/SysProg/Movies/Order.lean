import Mathlib.Data.List.Lex
import Mathlib.Data.Prod.Lex
import SysProg.MergeTree
import SysProg.Movies.Data

/-!
# SysProg.Movies.Order

The order of the answers: descending score, then ascending title.

* `strcmp_eq`: `strcmp` compares in the lexicographic order of bytes.
* `rank`: the movies that can be compared, as elements of a linear order.
* `append_key_lt`: adding the secret keeps the order of titles whose bytes are all above the tab the
  secret starts with.
* `merge_sorted`: merging sorted lists by `takesLeft`; `takesLeft_secret`: the secret changes nothing.
-/

namespace SysProg.Movies

theorem strcmp_eq (s t : Text) : strcmp s t = if s < t then -1 else if t < s then 1 else 0 := by
  induction s generalizing t with
  | nil =>
    cases t with
    | nil => simp [strcmp]
    | cons d t => simp [strcmp]
  | cons c s ih =>
    cases t with
    | nil => simp [strcmp]
    | cons d t =>
      simp only [strcmp, List.cons_lt_cons_iff]
      rcases lt_trichotomy c d with h | rfl | h
      · simp [h]
      · simp [ih]
      · simp [h, h.not_gt, h.ne']

theorem strcmp_neg {s t : Text} : strcmp s t < 0 ↔ s < t := by
  rw [strcmp_eq]
  split
  · simp [*]
  · split <;> simp [*]

theorem strcmp_pos {s t : Text} : 0 < strcmp s t ↔ t < s := by
  rw [strcmp_eq]
  split
  · rename_i h
    simp [h.not_gt]
  · split <;> simp [*]

theorem strcmp_nonpos {s t : Text} : strcmp s t ≤ 0 ↔ s ≤ t := by
  rw [← not_lt, strcmp_pos, not_lt]

variable {S : Type} [Double S]

/-- The score is a number, and not negative. -/
def Movie.Comparable (x : Movie S) : Prop := ∃ z, 0 ≤ z ∧ Double.place x.score = some z

/-- `a` may stand before `b` in the answer. -/
def InOrder (a b : Movie S) : Prop :=
  Double.gt a.score b.score ∨ (Double.eq a.score b.score ∧ strcmp a.title b.title ≤ 0)

def rank (x : Movie S) : Intᵒᵈ ×ₗ Text :=
  toLex (OrderDual.toDual ((Double.place x.score).getD 0), x.title)

theorem rank_le_iff {a b : Movie S} (ha : a.Comparable) (hb : b.Comparable) :
    rank a ≤ rank b ↔ InOrder a b := by
  obtain ⟨x, -, hx⟩ := ha
  obtain ⟨y, -, hy⟩ := hb
  rw [InOrder, rank, rank, Prod.Lex.toLex_le_toLex, strcmp_nonpos]
  simp [Double.gt, Double.eq, Double.compare, hx, hy]

theorem rank_lt_iff {a b : Movie S} (ha : a.Comparable) (hb : b.Comparable) :
    rank a < rank b ↔ takesLeft a b = true := by
  obtain ⟨x, -, hx⟩ := ha
  obtain ⟨y, -, hy⟩ := hb
  rw [takesLeft, rank, rank, Prod.Lex.toLex_lt_toLex]
  simp [Double.gt, Double.eq, Double.compare, hx, hy, strcmp_neg]

/-! ## The secret -/

/-- Every byte of the title sorts after the tab. -/
def Plain (s : Text) : Prop := ∀ c ∈ s, '\t' < c

theorem append_key_lt {s t : Text} (hs : Plain s) (ht : Plain t) :
    s ++ key < t ++ key ↔ s < t := by
  obtain ⟨rest, hkey⟩ : ∃ rest, key = '\t' :: rest := ⟨_, rfl⟩
  induction s generalizing t with
  | nil =>
    cases t with
    | nil => simp
    | cons d t =>
      have hd : '\t' < d := ht d (by simp)
      rw [List.nil_append, hkey, List.cons_append, List.cons_lt_cons_iff]
      simp [hd]
  | cons c s ih =>
    have hc : '\t' < c := hs c (by simp)
    cases t with
    | nil =>
      have hne : c ≠ '\t' := fun e => by rw [e] at hc; exact lt_irrefl _ hc
      rw [List.nil_append, hkey, List.cons_append, List.cons_lt_cons_iff]
      simp [hc.not_gt, hne]
    | cons d t =>
      rw [List.cons_append, List.cons_append, List.cons_lt_cons_iff, List.cons_lt_cons_iff,
        ih (fun x hx => hs x (by simp [hx])) (fun x hx => ht x (by simp [hx]))]

theorem takesLeft_secret {a b : Movie S} (ha : Plain a.title) (hb : Plain b.title) :
    takesLeft a.secret b.secret = takesLeft a b := by
  simp only [takesLeft, Movie.secret, strcmp_neg, append_key_lt ha hb]

/-- Movies with scores that can be compared, and with titles that fit a buffer together with `room`
more bytes. -/
structure Proper (room : Nat) (xs : List (Movie S)) : Prop where
  comparable : ∀ x ∈ xs, x.Comparable
  plain : ∀ x ∈ xs, Plain x.title
  fits : ∀ x ∈ xs, x.title.length + room ≤ MAX_LEN

theorem Proper.append {room : Nat} {us vs : List (Movie S)} (h : Proper room (us ++ vs)) :
    Proper room us ∧ Proper room vs :=
  ⟨⟨fun x hx => h.1 x (List.mem_append_left _ hx), fun x hx => h.2 x (List.mem_append_left _ hx),
    fun x hx => h.3 x (List.mem_append_left _ hx)⟩,
   ⟨fun x hx => h.1 x (List.mem_append_right _ hx), fun x hx => h.2 x (List.mem_append_right _ hx),
    fun x hx => h.3 x (List.mem_append_right _ hx)⟩⟩

theorem Proper.perm {room : Nat} {xs ys : List (Movie S)} (h : Proper room xs) (hp : ys.Perm xs) :
    Proper room ys :=
  ⟨fun x hx => h.1 x (hp.mem_iff.1 hx), fun x hx => h.2 x (hp.mem_iff.1 hx),
    fun x hx => h.3 x (hp.mem_iff.1 hx)⟩

theorem Proper.mono {room room' : Nat} {xs : List (Movie S)} (h : Proper room xs)
    (hr : room' ≤ room) : Proper room' xs :=
  ⟨h.1, h.2, fun x hx => by have := h.3 x hx; omega⟩

/-! ## Sorted lists -/

theorem merge_sorted {xs ys : List (Movie S)} (hx : ∀ a ∈ xs, a.Comparable)
    (hy : ∀ a ∈ ys, a.Comparable) (hxs : xs.Pairwise fun a b => rank a ≤ rank b)
    (hys : ys.Pairwise fun a b => rank a ≤ rank b) :
    (xs.merge ys takesLeft).Pairwise fun a b => rank a ≤ rank b := by
  refine MergeTree.pairwise_merge (fun _ _ _ h h' => h.trans h') (fun a ha b hb h => ?_)
    (fun a ha b hb h => ?_) hxs hys
  · exact ((rank_lt_iff (hx a ha) (hy b hb)).2 h).le
  · exact not_lt.1 fun h' => h ((rank_lt_iff (hx a ha) (hy b hb)).1 h')

/-! ## Two movies -/

def twoMovies : List (MovieProfile Int) := [⟨['a'], 1⟩, ⟨['b'], 2⟩]

def everything : Request Int := ⟨['*'], 1⟩

/-- A memory nothing has been written to. -/
def blank : Memory Int
  | .name _ _ => .null
  | .score _ _ => 0
  | .buf _ => []
  | .copying _ _ _ => false
  | .out _ => []

theorem twoMovies_matching :
    matching (· * ·) everything twoMovies = [⟨['a'], 1⟩, ⟨['b'], (2 : Int)⟩] := by decide

theorem twoMovies_proper : Proper (key.length + 1) (matching (· * ·) everything twoMovies) := by
  rw [twoMovies_matching]
  refine ⟨fun x hx => ?_, fun x hx => ?_, fun x hx => ?_⟩
  · simp only [List.mem_cons, List.not_mem_nil, or_false] at hx
    rcases hx with rfl | rfl
    · exact ⟨1, by decide, rfl⟩
    · exact ⟨2, by decide, rfl⟩
  · simp only [List.mem_cons, List.not_mem_nil, or_false] at hx
    rcases hx with rfl | rfl <;> simp [Plain]
  · simp only [List.mem_cons, List.not_mem_nil, or_false] at hx
    rcases hx with rfl | rfl <;> decide

end SysProg.Movies
