import SysProg.CLib
import SysProg.ForkJoin

/-!
# SysProg.Movies.Data

The memory of the movie server and the movies in it.

* `Double`: the type of the scores, as far as comparisons look at it.
* `Ptr`: a `char *`. Strings that are never written again are their text (`lit`); `buf` is a
  shared buffer of `MAX_LEN` bytes.
* `Loc`, `Cell`: the cells of the memory shared by the threads or processes.
* `Movie`, `Entry`: a title with its score, and the same together with the pointer to the title.
* `wanted`, `matching`: the movies of a request, with their scores.
* `takesLeft`: the comparison in the loops of `merge`.
* `printMovies`: the answer, written to the file of the request (`out`).
-/

namespace SysProg.Movies

open SysProg.ForkJoin (Prog Mem)

/-- Values are compared by their place in the order of the doubles (`0.0` and `-0.0` are at 0);
`none` is NaN, for which every comparison is false. -/
class Double (S : Type) where
  place : S → Option Int
  negOne : S
  place_negOne : ∃ z < 0, place negOne = some z

variable {S : Type} [Double S]

namespace Double

def compare (r : Int → Int → Bool) (a b : S) : Bool :=
  match place a, place b with
  | some x, some y => r x y
  | _, _ => false

def gt (a b : S) : Bool := compare (fun x y => decide (x > y)) a b

def eq (a b : S) : Bool := compare (fun x y => decide (x = y)) a b

/-- `a >= 0.0` -/
def nonneg (a : S) : Bool :=
  match place a with
  | some x => decide (0 ≤ x)
  | none => false

end Double

instance : Double Int := ⟨some, -1, -1, by decide, rfl⟩

def MAX_MOVIES : Nat := 70000

def MAX_LEN : Nat := 0xff

def MAX_LEVEL : Nat := 4

inductive Ptr where
  | null
  | lit (s : Text)
  | buf (b : Nat)
  deriving DecidableEq, Repr

/-- `name d i` and `score d i` are `movie_name[i]` and `score[i]` of `data[d]`, in the `PROCESS`
build of the shared `Range`. `copying d l r` is a ghost: it is set while a `merge` of `[l, r]`
copies its result back. -/
inductive Loc where
  | name (d : Nat) (i : Int)
  | score (d : Nat) (i : Int)
  | buf (b : Nat)
  | copying (d : Nat) (l r : Int)
  | out (d : Nat)
  deriving DecidableEq

abbrev Cell (S : Type) : Loc → Type
  | .name _ _ => Ptr
  | .score _ _ => S
  | .buf _ => Text
  | .copying _ _ _ => Bool
  | .out _ => List Text

abbrev Code (S : Type) := Prog Loc (Cell S)

abbrev Memory (S : Type) := Mem (Cell S)

def readName (d : Nat) (i : Int) (k : Ptr → Code S) : Code S := .read (.name d i) k

def readScore (d : Nat) (i : Int) (k : S → Code S) : Code S := .read (.score d i) k

def writeName (d : Nat) (i : Int) (p : Ptr) (k : Code S) : Code S := .write (.name d i) p k

def writeScore (d : Nat) (i : Int) (x : S) (k : Code S) : Code S := .write (.score d i) x k

/-- Reads the string a pointer points to. -/
def deref (p : Ptr) (k : Text → Code S) : Code S :=
  match p with
  | .null => .fail
  | .lit s => k s
  | .buf b => .read (.buf b) k

def strcpy (dst src : Ptr) (k : Code S) : Code S :=
  deref src fun s =>
    match dst with
    | .buf b => if s.length + 1 ≤ MAX_LEN then .write (.buf b) s k else .fail
    | _ => .fail

structure MovieProfile (P : Type) where
  title : Text
  profile : P

structure Request (P : Type) where
  keywords : Text
  profile : P

/-- The movies a request asks for: `"*"` stands for all of them. -/
def wanted {P : Type} (req : Request P) (mv : MovieProfile P) : Bool :=
  decide (strcmp req.keywords ['*'] = 0) || strstr mv.title req.keywords

structure Movie (S : Type) where
  title : Text
  score : S
  deriving DecidableEq, Repr

structure Entry (S : Type) extends Movie S where
  ptr : Ptr
  deriving DecidableEq, Repr

/-- `cross` is the scalar product of the two profiles. -/
def matching {P : Type} (cross : P → P → S) (req : Request P) (movies : List (MovieProfile P)) :
    List (Movie S) :=
  (movies.filter (wanted req)).map fun mv => ⟨mv.title, cross mv.profile req.profile⟩

/-- The condition under which `merge` takes the movie of the left half. -/
def takesLeft (a b : Movie S) : Bool :=
  Double.gt a.score b.score || (Double.eq a.score b.score && decide (strcmp a.title b.title < 0))

def key : Text := "\t[It's top secret.]".toList

def Movie.secret (x : Movie S) : Movie S := ⟨x.title ++ key, x.score⟩

/-- The loop that prints the answer: `fopen` has emptied the file. -/
def printLoop (d : Nat) : Nat → Int → Code S → Code S
  | 0, _, k => k
  | n + 1, i, k =>
    readName d i fun p => deref p fun t =>
      .read (.out d) fun o => .write (.out d) (List.append o [t]) (printLoop d n (i + 1) k)

def printMovies (d : Nat) (len : Int) (k : Code S) : Code S :=
  .write (.out d) ([] : List Text) (printLoop d len.toNat 0 k)

/-- The string at `p` is `s`, and reading it stays inside `A`. -/
def Titled (A : Set Loc) (m : Memory S) (p : Ptr) (s : Text) : Prop :=
  match p with
  | .null => False
  | .lit t => t = s
  | .buf b => Loc.buf b ∈ A ∧ m (.buf b) = s

/-- Cell `i` of the arrays `d` is the entry `e`. -/
structure Shows (A : Set Loc) (d : Nat) (m : Memory S) (i : Int) (e : Entry S) : Prop where
  name : m (.name d i) = e.ptr
  score : m (.score d i) = e.score
  titled : Titled A m e.ptr e.title

end SysProg.Movies
