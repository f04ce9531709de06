import Mathlib.Data.Fin.VecNotation
import Mathlib.Tactic.FinCases
import SysProg.Booking.Server

/-!
# SysProg.Booking.Command

The booking command of a client: three integers on a line.

* `isSep`, `fields`: `myatoi` takes every character that is neither a letter, a digit nor a minus
  sign for a separator, the two of the line end among them.
* `scan`: what the loop of `myatoi` makes of one field.
* `Command`: what a command should be: three decimal integers with single spaces between them.
* `myatoi_ne_none`: which lines `myatoi` takes.
* `myatoi_exact_iff`: for which lines it is right about them.
* `myatoi_decimal`: the numbers as a client prints them come back.
-/

namespace SysProg.Booking

def isSep (c : Char) : Bool := !c.isAlpha && c ≠ '-' && !c.isDigit

def fields (line : Text) : List Text := line.splitOnP isSep

/-- The sign and the sum so far are those of the loop. -/
def scan : Text → CInt → CInt → Option CInt
  | [], niga, sum => some (sum * niga)
  | c :: cs, niga, sum =>
    if c.isAlpha then none
    else if c = '-' then if sum ≠ 0 then none else scan cs (-1) sum
    else scan cs niga (sum * 10 + BitVec.ofNat 32 (digitVal c))

/-- Digits and minus signs, no minus sign after digits that the 32-bit sum does not show as 0. -/
def Scannable (f : Text) : Prop :=
  (∀ c ∈ f, c.isDigit = true ∨ c = '-') ∧
    ∀ p q, f = p ++ '-' :: q → digitsVal (p.filter Char.isDigit) % 2 ^ 32 = 0

/-- What `myatoi` takes for a command: the fields after the third it does not look at, and a third
that is not there it finds empty. -/
def Accepted (line : Text) : Prop :=
  2 ≤ (fields line).length ∧ ∀ f ∈ (fields line).take 3, Scannable f

/-! ## Commands -/

def IsInteger (f : Text) : Prop :=
  ∃ d : Text, d ≠ [] ∧ (∀ c ∈ d, c.isDigit = true) ∧ (f = d ∨ f = '-' :: d)

def integerVal : Text → Int
  | '-' :: d => -(digitsVal d : Int)
  | d => digitsVal d

def joined (f : Fin 3 → Text) : Text := f 0 ++ ' ' :: (f 1 ++ ' ' :: f 2)

/-- The line is a command for these numbers. -/
def Command (line : Text) (nums : Fin 3 → CInt) : Prop :=
  ∃ f : Fin 3 → Text, (∀ i, IsInteger (f i)) ∧ line = joined f ∧
    ∀ i, nums i = BitVec.ofInt 32 (integerVal (f i))

/-! ## The loop, field by field -/

section

variable {f rest : Text} {c : Char} {niga sum : CInt} {nums : List CInt}

theorem not_isSep_iff : isSep c = false ↔ c.isAlpha = true ∨ c = '-' ∨ c.isDigit = true := by
  simp only [isSep, ne_eq, Bool.and_eq_false_iff, Bool.not_eq_false', decide_eq_false_iff_not,
    not_not, or_assoc]

theorem isSep_iff : isSep c = true ↔ c.isAlpha = false ∧ c ≠ '-' ∧ c.isDigit = false := by
  simp only [isSep, ne_eq, Bool.and_eq_true, Bool.not_eq_true', decide_eq_true_eq, and_assoc]

theorem not_isAlpha_of_isDigit (h : c.isDigit = true) : c.isAlpha = false ∧ c ≠ '-' := by
  constructor
  · simp only [Char.isDigit, Bool.and_eq_true, decide_eq_true_eq, ge_iff_le, UInt32.le_iff_toNat_le] at h
    delta Char.isAlpha Char.isUpper Char.isLower
    simp only [Bool.or_eq_false_iff, Bool.and_eq_false_iff, decide_eq_false_iff_not, ge_iff_le,
      UInt32.le_iff_toNat_le] at *
    have h9 : ('9' : Char).val.toNat = 57 := rfl
    have hA : ('A' : Char).val.toNat = 65 := rfl
    have ha : ('a' : Char).val.toNat = 97 := rfl
    omega
  · rintro rfl
    cases h

theorem loop_sep (hc : isSep c = true) : myatoiLoop (c :: rest) niga sum nums =
    if nums.length + 1 ≥ 3 then some (nums ++ [sum * niga])
    else myatoiLoop rest 1 0 (nums ++ [sum * niga]) := by
  obtain ⟨ha, hm, hd⟩ := isSep_iff.1 hc
  rw [myatoiLoop, if_neg (by simp [ha]), if_neg hm, if_neg (by simp [hd])]

theorem loop_alpha (hc : c.isAlpha = true) : myatoiLoop (c :: rest) niga sum nums = none := by
  rw [myatoiLoop, if_pos hc]

theorem loop_minus : myatoiLoop ('-' :: rest) niga sum nums =
    if sum ≠ 0 then none else myatoiLoop rest (-1) sum nums := rfl

theorem loop_digit (hc : c.isDigit = true) : myatoiLoop (c :: rest) niga sum nums =
    myatoiLoop rest niga (sum * 10 + BitVec.ofNat 32 (digitVal c)) nums := by
  obtain ⟨ha, hm⟩ := not_isAlpha_of_isDigit hc
  rw [myatoiLoop, if_neg (by simp [ha]), if_neg hm, if_pos hc]

theorem scan_alpha (hc : c.isAlpha = true) : scan (c :: rest) niga sum = none := by
  rw [scan, if_pos hc]

theorem scan_minus :
    scan ('-' :: rest) niga sum = if sum ≠ 0 then none else scan rest (-1) sum := rfl

theorem scan_digit (hc : c.isDigit = true) : scan (c :: rest) niga sum =
    scan rest niga (sum * 10 + BitVec.ofNat 32 (digitVal c)) := by
  obtain ⟨ha, hm⟩ := not_isAlpha_of_isDigit hc
  rw [scan, if_neg (by simp [ha]), if_neg hm]

theorem loop_field (hf : ∀ c ∈ f, isSep c = false) (hc : isSep c = true) :
    myatoiLoop (f ++ c :: rest) niga sum nums = (scan f niga sum).bind fun v =>
      if nums.length + 1 ≥ 3 then some (nums ++ [v]) else myatoiLoop rest 1 0 (nums ++ [v]) := by
  induction f generalizing niga sum with
  | nil => exact loop_sep hc
  | cons x xs ih =>
    have hxs : ∀ c ∈ xs, isSep c = false := fun y hy => hf y (.tail _ hy)
    rw [List.cons_append]
    rcases not_isSep_iff.1 (hf x (.head _)) with hx | rfl | hx
    · rw [loop_alpha hx, scan_alpha hx]
      rfl
    · rw [loop_minus, scan_minus]
      split
      · rfl
      · exact ih hxs
    · rw [loop_digit hx, scan_digit hx]
      exact ih hxs

/-- A text without separator, or its first field and the rest. -/
theorem first_field (t : Text) : (∀ c ∈ t, isSep c = false) ∨
    ∃ f c r, t = f ++ c :: r ∧ (∀ c ∈ f, isSep c = false) ∧ isSep c = true := by
  induction t with
  | nil => exact .inl nofun
  | cons x xs ih =>
    cases hx : isSep x with
    | true => exact .inr ⟨[], x, xs, rfl, nofun, hx⟩
    | false =>
      rcases ih with ih | ⟨f, c, r, rfl, hf, hc⟩
      · left
        rintro c (_ | ⟨_, hc⟩)
        · exact hx
        · exact ih c hc
      · refine .inr ⟨x :: f, c, r, rfl, ?_, hc⟩
        rintro y (_ | ⟨_, hy⟩)
        · exact hx
        · exact hf y hy

/-! ## One field -/

/-- The sum after the digits `d`. -/
theorem scan_digits (hd : ∀ c ∈ f, c.isDigit = true) (niga : CInt) (n : Nat) :
    scan f niga (BitVec.ofNat 32 n) =
      some (BitVec.ofNat 32 (f.foldl (fun n c => 10 * n + digitVal c) n) * niga) := by
  induction f generalizing n with
  | nil => rfl
  | cons x xs ih =>
    rw [scan_digit (hd x (.head _)), List.foldl_cons, ← ih fun c hc => hd c (.tail _ hc)]
    rw [Nat.mul_comm, BitVec.ofNat_add, BitVec.ofNat_mul]
    rfl

theorem integerVal_digits (hd : ∀ c ∈ f, c.isDigit = true) : integerVal f = digitsVal f := by
  cases f with
  | nil => rfl
  | cons x xs =>
    have hx : x ≠ '-' := (not_isAlpha_of_isDigit (hd x (.head _))).2
    rw [integerVal]
    rintro d ⟨⟩
    exact hx rfl

theorem scan_integer (hf : IsInteger f) : scan f 1 0 = some (BitVec.ofInt 32 (integerVal f)) := by
  have hone : (1 : CInt) = 1#32 := rfl
  obtain ⟨d, -, hd, rfl | rfl⟩ := hf
  · rw [integerVal_digits hd]
    have h := scan_digits hd (1 : CInt) 0
    rw [hone, BitVec.mul_one] at h
    exact h
  · rw [scan_minus, if_neg (by simp), integerVal]
    have h := scan_digits hd (-1 : CInt) 0
    rw [BitVec.mul_neg, hone, BitVec.mul_one] at h
    rw [BitVec.ofInt_neg]
    exact h

theorem isSep_of_integer (hf : IsInteger f) : ∀ c ∈ f, isSep c = false := by
  obtain ⟨d, -, hd, rfl | rfl⟩ := hf
  · exact fun c hc => not_isSep_iff.2 (.inr (.inr (hd c hc)))
  · rintro c (_ | ⟨_, hc⟩)
    · rfl
    · exact not_isSep_iff.2 (.inr (.inr (hd c hc)))

theorem forall_split_cons {x : Char} {xs : Text} {P : Text → Prop} :
    (∀ p q, x :: xs = p ++ '-' :: q → P p) ↔
      (x = '-' → P []) ∧ ∀ p q, xs = p ++ '-' :: q → P (x :: p) := by
  constructor
  · intro h
    refine ⟨fun hx => h [] xs (by rw [hx]; rfl), fun p q hp => h (x :: p) q (by rw [hp]; rfl)⟩
  · rintro ⟨h₁, h₂⟩ p q hp
    cases p with
    | nil =>
      cases hp
      exact h₁ rfl
    | cons y p =>
      cases hp
      exact h₂ p q rfl

theorem ofNat_eq_zero {n : Nat} : BitVec.ofNat 32 n = (0 : CInt) ↔ n % 2 ^ 32 = 0 := by
  rw [← BitVec.toNat_inj, BitVec.toNat_ofNat]
  rfl

/-- The sum is the value of the digits so far; `n` is that of those before `f`. -/
theorem scan_ne_none (hf : ∀ c ∈ f, isSep c = false) (niga : CInt) (n : Nat) :
    scan f niga (BitVec.ofNat 32 n) ≠ none ↔ (∀ c ∈ f, c.isDigit = true ∨ c = '-') ∧
      ∀ p q, f = p ++ '-' :: q →
        ((p.filter Char.isDigit).foldl (fun n c => 10 * n + digitVal c) n) % 2 ^ 32 = 0 := by
  induction f generalizing niga n with
  | nil => simp [scan]
  | cons x xs ih =>
    have hxs : ∀ c ∈ xs, isSep c = false := fun y hy => hf y (.tail _ hy)
    rw [forall_split_cons, List.forall_mem_cons]
    rcases not_isSep_iff.1 (hf x (.head _)) with hx | rfl | hx
    · rw [scan_alpha hx]
      have hnd : ¬ (x.isDigit = true ∨ x = '-') := by
        rintro (h | rfl)
        · rw [(not_isAlpha_of_isDigit h).1] at hx
          cases hx
        · cases hx
      simp only [ne_eq, not_true_eq_false, hnd, false_and]
    · rw [scan_minus]
      have hd : ('-' : Char).isDigit = false := rfl
      simp only [hd, or_true, true_and, forall_const, List.filter_nil, List.foldl_nil,
        List.filter_cons, Bool.false_eq_true, if_false]
      split
      · rename_i hn
        rw [ne_eq, ofNat_eq_zero] at hn
        simp only [ne_eq, not_true_eq_false, hn, false_and, and_false]
      · rename_i hn
        rw [ne_eq, not_not, ofNat_eq_zero] at hn
        rw [ih hxs]
        simp only [hn, true_and]
    · rw [scan_digit hx]
      have hm := (not_isAlpha_of_isDigit hx).2
      have hsum : BitVec.ofNat 32 n * 10 + BitVec.ofNat 32 (digitVal x) =
          BitVec.ofNat 32 (10 * n + digitVal x) := by
        rw [Nat.mul_comm, BitVec.ofNat_add, BitVec.ofNat_mul]
        rfl
      rw [hsum, ih hxs]
      simp only [hx, true_or, true_and, hm, false_implies, List.filter_cons, if_true,
        List.foldl_cons]

theorem scan_ne_none_iff (hf : ∀ c ∈ f, isSep c = false) : scan f 1 0 ≠ none ↔ Scannable f :=
  scan_ne_none hf 1 0

end

/-! ## Lines -/

def crlf : Text := ['\r', '\n']

section

variable {f t : Text} {c : Char} {nums : List CInt}

theorem fields_open (hf : ∀ c ∈ f, isSep c = false) : fields f = [f] :=
  List.splitOnP_eq_singleton hf

theorem fields_cons (hf : ∀ c ∈ f, isSep c = false) (hc : isSep c = true) :
    fields (f ++ c :: t) = f :: fields t := List.splitOnP_append_cons_of_forall_mem hf c hc t

theorem bind_ne_none {α β : Type} {o : Option α} {k : α → Option β} {P : Prop}
    (hk : ∀ v, k v ≠ none ↔ P) : o.bind k ≠ none ↔ o ≠ none ∧ P := by
  cases o with
  | none => simp
  | some v => simp [← hk v]

/-- The loop from a field on, when the line ends with that field or goes on. -/
theorem loop_crlf (hf : ∀ c ∈ f, isSep c = false) : myatoiLoop (f ++ crlf) 1 0 nums =
    (scan f 1 0).bind fun v =>
      if nums.length + 1 ≥ 3 then some (nums ++ [v]) else myatoiLoop ['\n'] 1 0 (nums ++ [v]) :=
  loop_field hf rfl

theorem third_ne_none (hn : nums.length = 2) :
    myatoiLoop (t ++ crlf) 1 0 nums ≠ none ↔ ∀ g ∈ (fields t).take 1, Scannable g := by
  have hk : ∀ r : CInt → Option (List CInt), ∀ v : CInt,
      (if nums.length + 1 ≥ 3 then some (nums ++ [v]) else r v) ≠ none ↔ True := by
    intro r v
    rw [if_pos (by omega)]
    simp
  rcases first_field t with ht | ⟨f, c, r, rfl, hf, hc⟩
  · rw [loop_crlf ht, bind_ne_none (hk _), scan_ne_none_iff ht, fields_open ht]
    simp
  · rw [List.append_assoc, List.cons_append, loop_field hf hc, bind_ne_none (hk _),
      scan_ne_none_iff hf, fields_cons hf hc]
    simp

theorem second_ne_none (hn : nums.length = 1) :
    myatoiLoop (t ++ crlf) 1 0 nums ≠ none ↔ ∀ g ∈ (fields t).take 2, Scannable g := by
  rcases first_field t with ht | ⟨f, c, r, rfl, hf, hc⟩
  · rw [loop_crlf ht, bind_ne_none (P := True), scan_ne_none_iff ht, fields_open ht]
    · simp
    · intro v
      rw [if_neg (by omega), loop_sep rfl, if_pos (by simp [hn])]
      simp
  · rw [List.append_assoc, List.cons_append, loop_field hf hc,
      bind_ne_none (P := ∀ g ∈ (fields r).take 1, Scannable g), scan_ne_none_iff hf, fields_cons hf hc]
    · simp
    · intro v
      rw [if_neg (by omega)]
      exact third_ne_none (by simp [hn])

theorem myatoi_ne_none : myatoi (t ++ crlf) ≠ none ↔ Accepted t := by
  rw [myatoi, ne_eq, Option.map_eq_none_iff, ← ne_eq, Accepted]
  rcases first_field t with ht | ⟨f, c, r, rfl, hf, hc⟩
  · rw [loop_crlf ht, bind_ne_none (P := False), fields_open ht]
    · simp
    · intro v
      rw [if_neg (by simp), loop_sep rfl, if_neg (by simp), myatoiLoop]
      simp
  · rw [List.append_assoc, List.cons_append, loop_field hf hc,
      bind_ne_none (P := ∀ g ∈ (fields r).take 2, Scannable g), scan_ne_none_iff hf, fields_cons hf hc]
    · have hr : 1 ≤ (fields r).length := List.length_pos_of_ne_nil (List.splitOnP_ne_nil _ _)
      simp [hr]
    · intro v
      rw [if_neg (by simp)]
      exact second_ne_none rfl

/-- A command, whatever follows its separator. -/
theorem myatoi_joined {f : Fin 3 → Text} (hf : ∀ i, IsInteger (f i)) (hc : isSep c = true) :
    myatoi (joined f ++ c :: t) = some fun i => BitVec.ofInt 32 (integerVal (f i)) := by
  have hs : isSep ' ' = true := rfl
  have hl : myatoiLoop (joined f ++ c :: t) 1 0 [] = some [BitVec.ofInt 32 (integerVal (f 0)),
      BitVec.ofInt 32 (integerVal (f 1)), BitVec.ofInt 32 (integerVal (f 2))] := by
    simp only [joined, List.append_assoc, List.cons_append]
    rw [loop_field (isSep_of_integer (hf 0)) hs, scan_integer (hf 0), Option.bind_some,
      if_neg (by simp), loop_field (isSep_of_integer (hf 1)) hs, scan_integer (hf 1),
      Option.bind_some, if_neg (by simp), loop_field (isSep_of_integer (hf 2)) hc,
      scan_integer (hf 2), Option.bind_some, if_pos (by simp)]
    rfl
  rw [myatoi, hl, Option.map_some]
  congr 1
  funext i
  fin_cases i <;> rfl

end

/-- `myatoi` is right about a line exactly if it is a command or not `Accepted`. -/
theorem myatoi_exact_iff (line : Text) :
    (∀ nums, myatoi (line ++ ['\r', '\n']) = some nums → Command line nums) ↔
      ((∃ nums, Command line nums) ∨ ¬ Accepted line) := by
  constructor
  · intro h
    cases hm : myatoi (line ++ crlf) with
    | none => exact .inr fun ha => myatoi_ne_none.2 ha hm
    | some nums => exact .inl ⟨nums, h nums hm⟩
  · rintro (⟨_, f, hf, rfl, -⟩ | h) nums hm
    · have h := myatoi_joined (t := ['\n']) hf (c := '\r') rfl
      rw [h] at hm
      cases hm
      exact ⟨f, hf, rfl, fun _ => rfl⟩
    · exact absurd (myatoi_ne_none.1 (by rw [crlf, hm]; nofun)) h

/-- Two fields are enough: the third number is read between the characters of the line end. -/
theorem myatoi_two_fields : ¬ ∀ (line : Text) (nums : Fin 3 → CInt), '\x00' ∉ line → '\r' ∉ line →
    '\n' ∉ line → myatoi (line ++ ['\r', '\n']) = some nums → Command line nums := by
  intro h
  obtain ⟨f, hf, hl, -⟩ := h "1 2".toList _ (by decide) (by decide) (by decide) rfl
  have hpos : ∀ i, 0 < (f i).length := by
    intro i
    obtain ⟨d, hd, -, e | e⟩ := hf i
    · rw [e]
      exact List.length_pos_of_ne_nil hd
    · rw [e]
      exact Nat.succ_pos _
  have h0 := hpos 0
  have h1 := hpos 1
  have h2 := hpos 2
  have hlen := congrArg List.length hl
  simp only [joined, List.length_append, List.length_cons] at hlen
  have h3 : "1 2".toList.length = 3 := rfl
  omega

/-! ## Printed numbers -/

theorem digitsVal_toDigits (n : Nat) : digitsVal (Nat.toDigits 10 n) = n :=
  Nat.ofDigitChars_ten_toDigits

theorem isInteger_decimal (x : CInt) : IsInteger (decimal x) := by
  have hd : ∀ n, ∀ c ∈ Nat.toDigits 10 n, c.isDigit = true :=
    fun n c hc => Nat.isDigit_of_mem_toDigits (by decide) (by decide) hc
  rw [decimal]
  split
  · exact ⟨_, Nat.toDigits_ne_nil, hd _, .inr rfl⟩
  · exact ⟨_, Nat.toDigits_ne_nil, hd _, .inl rfl⟩

theorem integerVal_decimal (x : CInt) : integerVal (decimal x) = x.toInt := by
  rw [decimal]
  split
  · rw [integerVal, digitsVal_toDigits]
    omega
  · rw [integerVal_digits fun c hc => Nat.isDigit_of_mem_toDigits (by decide) (by decide) hc,
      digitsVal_toDigits]
    omega

/-- A printed command comes back as its numbers. -/
theorem myatoi_decimal (nums : Fin 3 → CInt) :
    myatoi (joined (fun i => decimal (nums i)) ++ ['\r', '\n']) = some nums ∧
      myatoi (joined (fun i => decimal (nums i)) ++ ['\n']) = some nums := by
  have hi := fun i => isInteger_decimal (nums i)
  have hv : (fun i => BitVec.ofInt 32 (integerVal (decimal (nums i)))) = nums := by
    funext i
    rw [integerVal_decimal, BitVec.ofInt_toInt]
  constructor
  · rw [myatoi_joined hi rfl, hv]
  · rw [myatoi_joined hi rfl, hv]

end SysProg.Booking
