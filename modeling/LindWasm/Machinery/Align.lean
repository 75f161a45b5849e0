import Mathlib.Data.Nat.Bitwise
import Mathlib.Order.Nat

/-!
# Machinery/Align — rounding to multiples

    floorTo m n  ≤  n  ≤  ceilTo m n             the multiples of `m` on either side of `n`

Two multiples that differ by less than `m` are the same (`le_of_dvd_of_lt_add`); the rest is read
off that. A mask that clears the low bits of a number rounds it down to a power of two
(`and_sub_two_pow`).
-/

namespace LindWasm.Align

variable {m n a b : ℕ}

/-- The largest multiple of `m` that is at most `n`. -/
def floorTo (m n : ℕ) : ℕ := n / m * m

/-- The least multiple of `m` that is at least `n`. -/
def ceilTo (m n : ℕ) : ℕ := (n + m - 1) / m * m

theorem dvd_floorTo : m ∣ floorTo m n := Nat.dvd_mul_left m _

theorem dvd_ceilTo : m ∣ ceilTo m n := Nat.dvd_mul_left m _

theorem floorTo_le : floorTo m n ≤ n := Nat.div_mul_le_self n m

theorem lt_floorTo_add (hm : 0 < m) : n < floorTo m n + m := by
  have h := Nat.div_add_mod n m
  have hlt := Nat.mod_lt n hm
  unfold floorTo
  rw [Nat.mul_comm]
  omega

theorem le_ceilTo (hm : 0 < m) : n ≤ ceilTo m n := by
  have h := lt_floorTo_add (n := n + m - 1) hm
  unfold floorTo at h
  unfold ceilTo
  omega

theorem ceilTo_lt_add (hm : 0 < m) : ceilTo m n < n + m := by
  have h : ceilTo m n ≤ n + m - 1 := floorTo_le
  omega

/-- **Multiples are at least `m` apart.** -/
theorem le_of_dvd_of_lt_add (ha : m ∣ a) (hb : m ∣ b) (h : a < b + m) : a ≤ b := by
  by_contra hlt
  have hsub := Nat.le_of_dvd (by omega) (Nat.dvd_sub ha hb)
  omega

/-- The rounding up is the least multiple… -/
theorem ceilTo_le (hm : 0 < m) (ha : m ∣ a) (h : n ≤ a) : ceilTo m n ≤ a := by
  have hlt : ceilTo m n < n + m := ceilTo_lt_add hm
  exact le_of_dvd_of_lt_add dvd_ceilTo ha (by omega)

/-- …and the rounding down the largest. -/
theorem le_floorTo (hm : 0 < m) (ha : m ∣ a) (h : a ≤ n) : a ≤ floorTo m n := by
  have hlt : n < floorTo m n + m := lt_floorTo_add hm
  exact le_of_dvd_of_lt_add ha dvd_floorTo (by omega)

theorem ceilTo_pos (hm : 0 < m) (hn : 0 < n) : 0 < ceilTo m n :=
  Nat.lt_of_lt_of_le hn (le_ceilTo hm)

/-- **Clearing the `k` low bits of a `w`-bit number rounds it down to a multiple of `2 ^ k`.** -/
theorem and_sub_two_pow {k w : ℕ} (hk : k ≤ w) (hn : n < 2 ^ w) :
    n &&& (2 ^ w - 2 ^ k) = floorTo (2 ^ k) n := by
  have hmask : 2 ^ w - 2 ^ k = 2 ^ k * (2 ^ (w - k) - 1) := by
    rw [Nat.mul_sub, ← Nat.pow_add, Nat.add_sub_cancel' hk, Nat.mul_one]
  refine Nat.eq_of_testBit_eq fun i => ?_
  rw [Nat.testBit_and, hmask, floorTo, Nat.mul_comm (n / 2 ^ k), Nat.testBit_two_pow_mul,
    Nat.testBit_two_pow_mul, Nat.testBit_two_pow_sub_one, Nat.testBit_div_two_pow]
  by_cases hi : k ≤ i
  · by_cases hw : i < w
    · have hlt : i - k < w - k := by omega
      simp [hi, hlt]
    · have hbit : n.testBit i = false :=
        Nat.testBit_lt_two_pow (Nat.lt_of_lt_of_le hn (Nat.pow_le_pow_right (by decide) (by omega)))
      simp [hi, hbit]
  · simp [hi]

end LindWasm.Align
