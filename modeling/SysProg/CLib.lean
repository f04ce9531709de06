import Mathlib.Data.BitVec
import Mathlib.Data.Char
import Mathlib.Data.List.Infix

/-!
# SysProg.CLib

The part of C and its library that the programs share.

* `CInt`: `int`, 32 bits with wrap-around.
* `Text`: a buffer or string; each `Char` stands for one byte.
* `strcmp`: of strings without their terminating NUL.
* `cstr`: what the string functions see of a buffer, up to the first NUL.
* `atoi`: `(int) strtol(s, NULL, 10)`, with the clamping of `strtol` to `long`.
-/

namespace SysProg

abbrev CInt := BitVec 32

abbrev Text := List Char

namespace CInt

theorem toInt_bounds (x : CInt) : -2147483648 ≤ x.toInt ∧ x.toInt < 2147483648 := by
  have := BitVec.le_toInt x
  have := BitVec.toInt_lt (x := x)
  omega

/-- Signed addition, with the two ways it can wrap around. -/
theorem toInt_add_cases (x y : CInt) :
    (-2147483648 ≤ x.toInt + y.toInt ∧ x.toInt + y.toInt < 2147483648 ∧
      (x + y).toInt = x.toInt + y.toInt) ∨
    (2147483648 ≤ x.toInt + y.toInt ∧ (x + y).toInt = x.toInt + y.toInt - 4294967296) ∨
    (x.toInt + y.toInt < -2147483648 ∧ (x + y).toInt = x.toInt + y.toInt + 4294967296) := by
  have h : (x + y).toInt = (x.toInt + y.toInt).bmod (2 ^ 32) := BitVec.toInt_add x y
  have hx := toInt_bounds x
  have hy := toInt_bounds y
  rw [Int.bmod_def] at h
  split at h <;> omega

end CInt

def cstr (buf : Text) : Text := buf.takeWhile (· ≠ '\x00')

def isspace (c : Char) : Bool :=
  c = ' ' || c = '\t' || c = '\n' || c = '\x0b' || c = '\x0c' || c = '\r'

/-- Does `needle` occur in `s`? The callers only test the result of `strstr` for `NULL`. -/
def strstr (s needle : Text) : Bool := decide (needle <:+: s)

/-- The sign of the first difference; a string that ends first is the smaller one. -/
def strcmp : Text → Text → Int
  | [], [] => 0
  | [], _ :: _ => -1
  | _ :: _, [] => 1
  | c :: s, d :: t => if c < d then -1 else if d < c then 1 else strcmp s t

/-- The value of `c - '0'` for a digit. -/
def digitVal (c : Char) : Nat := c.toNat - 48

def digitsVal (ds : Text) : Nat := ds.foldl (fun n c => 10 * n + digitVal c) 0

def strtol (s : Text) : Int :=
  let digits (t : Text) : Nat := digitsVal (t.takeWhile Char.isDigit)
  match s.dropWhile isspace with
  | '-' :: t => max (-(2 ^ 63)) (-(digits t : Int))
  | '+' :: t => min (2 ^ 63 - 1) (digits t : Int)
  | t => min (2 ^ 63 - 1) (digits t : Int)

def atoi (s : Text) : CInt := BitVec.ofInt 32 (strtol s)

/-- `%d` -/
def decimal (x : CInt) : Text :=
  if x.toInt < 0 then '-' :: Nat.toDigits 10 (-x.toInt).toNat else Nat.toDigits 10 x.toInt.toNat

example : atoi "  -12a".toList = -12 := by decide

example : atoi "4294967297".toList = 1 := by decide

end SysProg
