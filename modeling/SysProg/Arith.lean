import Mathlib.Data.Int.GCD
import Mathlib.Data.Nat.Prime.Pow
import Mathlib.Tactic.LinearCombination
import Mathlib.Tactic.Linarith
import Mathlib.Tactic.Ring

/-!
# SysProg.Arith

The arithmetic of a signed type. Values are integers, and `wrap` brings the result of an operation back
to a value of the type.

* `Arith.wrapping`: two's complement with wrap-around; `Arith.int` is that of `int`.
* `Arith.integers`: nothing overflows.
* `Arith.falls`: by the same number over and over, every value is brought down to 0 or below, if need
  be through the other end of the range.

What holds for any `Arith` holds with and without overflow.
-/

namespace SysProg

class Arith where
  wrap : Int → Int
  wrap_zero : wrap 0 = 0
  wrap_wrap (x : Int) : wrap (wrap x) = wrap x
  wrap_of_abs_le {x y : Int} : wrap x = x → |y| ≤ x → wrap y = y
  wrap_double {x : Int} : wrap x = x → 0 < x → wrap (x * 2) ≠ 0
  /-- Enough subtractions for `falls`. -/
  bound : Int → Nat
  falls {h c : Int} : wrap h = h → 0 < h → 0 < c → wrap c ≠ 0 →
    ∃ n ≤ bound h, (fun x => wrap (x - wrap c))^[n] h ≤ 0

namespace Arith

@[reducible] def integers : Arith where
  wrap x := x
  wrap_zero := rfl
  wrap_wrap _ := rfl
  wrap_of_abs_le _ _ := rfl
  wrap_double _ hx := by omega
  bound h := h.toNat
  falls {h c} _ h0 hc _ := by
    have hsub : ∀ n : Nat, (fun x => x - c)^[n] h = h - n * c := by
      intro n
      induction n with
      | zero => simp
      | succ n ih =>
        rw [Function.iterate_succ_apply', ih]
        push_cast
        ring
    refine ⟨h.toNat, Nat.le_refl _, ?_⟩
    rw [hsub, Int.toNat_of_nonneg h0.le]
    nlinarith

section

variable {w : Nat} {x h c : Int}

theorem bmod_eq_self : x.bmod (2 ^ (w + 1)) = x ↔ -2 ^ w ≤ x ∧ x < 2 ^ w := by
  have hpos : 0 < 2 ^ (w + 1) := Nat.two_pow_pos _
  have hpow : ((2 ^ (w + 1) : Nat) : Int) = 2 * 2 ^ w := by
    push_cast
    ring
  constructor
  · intro hx
    have h1 := Int.le_bmod (x := x) hpos
    have h2 := Int.bmod_lt (x := x) hpos
    rw [hx, hpow] at h1 h2
    omega
  · rintro ⟨h1, h2⟩
    refine Int.bmod_eq_of_le_mul_two ?_ ?_
    · rw [hpow]; omega
    · rw [hpow]; omega

theorem iterate_bmod (hh : h.bmod (2 ^ (w + 1)) = h) (n : Nat) :
    (fun x => (x - c.bmod (2 ^ (w + 1))).bmod (2 ^ (w + 1)))^[n] h = (h - n * c).bmod (2 ^ (w + 1)) := by
  induction n with
  | zero => simpa using hh.symm
  | succ n ih =>
    rw [Function.iterate_succ_apply', ih, Int.sub_bmod_bmod, Int.bmod_sub_bmod]
    congr 1
    push_cast
    ring

/-- Some multiple of a number that is not 0 in the type is the least value of the type. -/
theorem exists_mul_eq (hc : c.bmod (2 ^ (w + 1)) ≠ 0) :
    ∃ n ≤ 2 ^ (w + 1), ((2 ^ (w + 1) : Nat) : Int) ∣ 2 ^ w - (n : Nat) * c := by
  have hpos : 0 < 2 ^ (w + 1) := Nat.two_pow_pos _
  have hdvd : Int.gcd c (2 ^ (w + 1) : Nat) ∣ 2 ^ w := by
    have hg : Int.gcd c (2 ^ (w + 1) : Nat) ∣ 2 ^ (w + 1) := by
      have := Int.gcd_dvd_natAbs_right c (2 ^ (w + 1) : Nat)
      simpa using this
    obtain ⟨j, hj, hgj⟩ := (Nat.dvd_prime_pow Nat.prime_two).1 hg
    rw [hgj]
    refine pow_dvd_pow 2 ?_
    by_contra hlt
    have hjw : j = w + 1 := by omega
    rw [hjw] at hgj
    have hdc : ((2 ^ (w + 1) : Nat) : Int) ∣ c := by
      rw [← hgj]
      exact Int.gcd_dvd_left ..
    exact hc (Int.bmod_eq_zero_of_dvd hdc)
  obtain ⟨a, b, hab⟩ := Int.gcd_dvd_iff.1 hdvd
  have hM : (0 : Int) < (2 ^ (w + 1) : Nat) := by exact_mod_cast hpos
  have ha := Int.emod_nonneg a hM.ne'
  refine ⟨(a % (2 ^ (w + 1) : Nat)).toNat, ?_, ?_⟩
  · have := Int.emod_lt_of_pos a hM
    omega
  · rw [Int.toNat_of_nonneg ha]
    refine ⟨a / (2 ^ (w + 1) : Nat) * c + b, ?_⟩
    have hdiv := Int.emod_add_mul_ediv a (2 ^ (w + 1) : Nat)
    push_cast at hab hdiv ⊢
    linear_combination hab - c * hdiv

end

@[reducible] def wrapping (w : Nat) : Arith where
  wrap x := x.bmod (2 ^ (w + 1))
  wrap_zero := Int.zero_bmod
  wrap_wrap _ := Int.bmod_bmod
  wrap_of_abs_le {x y} hx hy := by
    rw [bmod_eq_self] at hx ⊢
    have := abs_le.1 hy
    omega
  wrap_double {x} hx h0 h := by
    have hx := bmod_eq_self.1 hx
    have hdvd := Int.le_of_dvd (by omega) (Int.dvd_of_bmod_eq_zero h)
    push_cast [pow_succ] at hdvd
    omega
  bound _ := 2 ^ (w + 1)
  falls {h c} hh h0 _ hc := by
    obtain ⟨n, hn, hdvd⟩ := exists_mul_eq hc
    have hb := bmod_eq_self.1 hh
    refine ⟨n, hn, ?_⟩
    have hlow : (h - n * c).bmod (2 ^ (w + 1)) = h - 2 ^ w := by
      have hself : (h - 2 ^ w).bmod (2 ^ (w + 1)) = h - 2 ^ w := bmod_eq_self.2 (by omega)
      rw [← hself, Int.bmod_eq_bmod_iff_bmod_sub_eq_zero]
      refine Int.bmod_eq_zero_of_dvd ?_
      have heq : h - n * c - (h - 2 ^ w) = 2 ^ w - n * c := by ring
      rwa [heq]
    rw [iterate_bmod hh, hlow]
    omega

/-- `int`, with wrap-around. -/
@[reducible] def int : Arith := wrapping 31

section

variable [Arith] {x y : Int}

/-- A value of the type. -/
def Fits (x : Int) : Prop := wrap x = x

instance (x : Int) : Decidable (Fits x) := inferInstanceAs (Decidable (wrap x = x))

theorem fits_wrap (x : Int) : Fits (wrap x) := wrap_wrap x

theorem fits_zero : Fits 0 := wrap_zero

theorem Fits.of_abs_le (hx : Fits x) (h : |y| ≤ x) : Fits y := wrap_of_abs_le hx h

/-- Between 0 and a value of the type. -/
theorem Fits.of_le (hx : Fits x) (h0 : 0 ≤ y) (h : y ≤ x) : Fits y :=
  hx.of_abs_le (by rwa [abs_of_nonneg h0])

theorem Fits.sub (hx : Fits x) (hy : Fits y) (hx0 : 0 ≤ x) (hy0 : 0 ≤ y) : Fits (x - y) := by
  rcases le_total x y with h | h
  · exact hy.of_abs_le (by rw [abs_le]; omega)
  · exact hx.of_abs_le (by rw [abs_le]; omega)

end

end Arith

end SysProg
