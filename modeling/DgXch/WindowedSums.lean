/-
Exponents written in a base `2 ^ k`.  The digits of a quotient `2 ^ t / b` can
be computed one by one from remainders; a number is the sum of its digits, also
when they are summed stride by stride, and a weighted sum over buckets may be
split over the halves of the bucket number.
-/
import Mathlib.Algebra.BigOperators.Intervals
import Mathlib.Algebra.BigOperators.Ring.Finset
import Mathlib.Tactic.Ring

namespace WindowedSums

open Finset Nat

/-- Digit `n` of `2 ^ t / b` in base `2 ^ k`, from a remainder modulo `b`. -/
theorem digit_of_quotient {t k n b : Nat} (hb : 0 < b) (hn : k * (n + 1) ≤ t) :
    2 ^ (t - k * (n + 1)) % b * 2 ^ k / b = 2 ^ t / b / 2 ^ (k * n) % 2 ^ k := by
  have hpow : 2 ^ t = 2 ^ (t - k * (n + 1)) * 2 ^ k * 2 ^ (k * n) := by
    rw [← pow_add, ← pow_add]
    congr 1
    have : k * (n + 1) = k * n + k := by ring
    omega
  rw [Nat.div_div_eq_div_mul, hpow,
    Nat.mul_div_mul_right _ _ (Nat.two_pow_pos (k * n))]
  have hrem : 2 ^ (t - k * (n + 1)) % b * 2 ^ k / b < 2 ^ k := by
    rw [Nat.div_lt_iff_lt_mul hb, mul_comm (2 ^ k) b]
    exact Nat.mul_lt_mul_of_pos_right (Nat.mod_lt _ hb) (Nat.two_pow_pos k)
  have hsplit : 2 ^ (t - k * (n + 1)) * 2 ^ k =
      2 ^ (t - k * (n + 1)) % b * 2 ^ k +
        b * (2 ^ (t - k * (n + 1)) / b * 2 ^ k) := by
    conv_lhs => rw [← Nat.mod_add_div (2 ^ (t - k * (n + 1))) b]
    ring
  rw [hsplit, Nat.add_mul_div_left _ _ hb, Nat.add_mul_mod_self_right,
    mod_eq_of_lt hrem]

/-- The low digits of a number add up to its low part. -/
theorem sum_digits (w k m : Nat) :
    ∑ n ∈ range m, w / 2 ^ (k * n) % 2 ^ k * 2 ^ (k * n) = w % 2 ^ (k * m) := by
  induction m with
  | zero => simp [mod_one]
  | succ m ih =>
    rw [sum_range_succ, ih, mul_succ, pow_add, mod_mul]
    ring

/-- A quotient by a divisor of at least `2 ^ k` has no digit above the last full
one. -/
theorem quotient_lt {t k b : Nat} (hk : 0 < k) (hb : 2 ^ k ≤ b) :
    2 ^ t / b < 2 ^ (k * (t / k)) := by
  have hpos : 0 < b := (Nat.two_pow_pos k).trans_le hb
  rw [Nat.div_lt_iff_lt_mul hpos]
  have hlt : t < k * (t / k) + k := by
    have := Nat.div_add_mod t k
    have := Nat.mod_lt t hk
    omega
  calc 2 ^ t < 2 ^ (k * (t / k) + k) := Nat.pow_lt_pow_right (by decide) hlt
    _ = 2 ^ (k * (t / k)) * 2 ^ k := pow_add _ _ _
    _ ≤ 2 ^ (k * (t / k)) * b := Nat.mul_le_mul_left _ hb

/-- A sum over a product of ranges, row by row. -/
theorem sum_range_mul (f : Nat → Nat) (rows width : Nat) :
    ∑ n ∈ range (rows * width), f n =
      ∑ i ∈ range rows, ∑ j ∈ range width, f (i * width + j) := by
  induction rows with
  | zero => simp
  | succ rows ih => rw [succ_mul, sum_range_add, ih, sum_range_succ]

/-- Horner's rule, from the last coefficient down. -/
theorem foldl_horner (f : Nat → Nat) (base start width : Nat) :
    (List.range width).reverse.foldl (fun e j => e * base + f j) start =
      start * base ^ width + ∑ j ∈ range width, f j * base ^ j := by
  induction width generalizing start with
  | zero => simp
  | succ width ih =>
    rw [List.range_succ, List.reverse_append, List.reverse_singleton,
      List.singleton_append, List.foldl_cons, ih, sum_range_succ]
    ring

/-- The digits of `2 ^ t / b`, taken column by column from a table of `rows`
rows, add up to it. -/
theorem sum_columns {t k l rows b : Nat} (hk : 0 < k) (hb : 2 ^ k ≤ b)
    (hrows : t ≤ rows * (k * l)) :
    ∑ j ∈ range l, (∑ i ∈ range rows,
      if k * (i * l + j + 1) ≤ t then
        2 ^ t / b / 2 ^ (k * (i * l + j)) % 2 ^ k * 2 ^ (i * (k * l))
      else 0) * (2 ^ k) ^ j = 2 ^ t / b := by
  have hplace : ∀ i j, 2 ^ (i * (k * l)) * (2 ^ k) ^ j =
      2 ^ (k * (i * l + j)) := by
    intro i j
    rw [← pow_mul, ← pow_add]
    congr 1
    ring
  simp only [sum_mul, ite_mul, zero_mul, mul_assoc _ _ ((2 ^ k) ^ _), hplace]
  rw [sum_comm, ← sum_range_mul (fun n => if k * (n + 1) ≤ t then
      2 ^ t / b / 2 ^ (k * n) % 2 ^ k * 2 ^ (k * n) else 0)]
  have hfull : t / k ≤ rows * l := by
    rw [div_le_iff_le_mul_add_pred hk]
    have : k * (rows * l) = rows * (k * l) := by ring
    omega
  have hguard : ∀ n, k * (n + 1) ≤ t ↔ n < t / k := by
    intro n
    rw [lt_iff_add_one_le, le_div_iff_mul_le hk, mul_comm]
  simp only [hguard]
  rw [← sum_filter]
  have hrange : (range (rows * l)).filter (· < t / k) = range (t / k) := by
    ext n
    simp only [mem_filter, mem_range]
    omega
  rw [hrange, sum_digits, mod_eq_of_lt (quotient_lt hk hb)]

/-- A weighted sum over buckets, by the high and the low half of the bucket
number. -/
theorem sum_buckets (e : Nat → Nat) (high low : Nat) :
    (∑ b1 ∈ range high, (∑ b0 ∈ range low, e (b1 * low + b0)) * (b1 * low)) +
      ∑ b0 ∈ range low, (∑ b1 ∈ range high, e (b1 * low + b0)) * b0 =
      ∑ v ∈ range (high * low), e v * v := by
  rw [sum_range_mul]
  have hlow : ∑ b0 ∈ range low, (∑ b1 ∈ range high, e (b1 * low + b0)) * b0 =
      ∑ b1 ∈ range high, ∑ b0 ∈ range low, e (b1 * low + b0) * b0 := by
    rw [sum_comm]
    exact sum_congr rfl fun b0 _ => sum_mul _ _ _
  rw [hlow, ← sum_add_distrib]
  apply sum_congr rfl
  intro b1 _
  rw [sum_mul, ← sum_add_distrib]
  exact sum_congr rfl fun b0 _ => (mul_add _ _ _).symm

/-- What falls into the buckets, weighted by their numbers, is the sum of what
fell, each weighted by its bucket. -/
theorem sum_bucketed (digit weight : Nat → Nat) (rows buckets : Nat)
    (hdigit : ∀ i < rows, digit i < buckets) :
    ∑ v ∈ range buckets, (∑ i ∈ range rows,
      if digit i = v then weight i else 0) * v =
        ∑ i ∈ range rows, digit i * weight i := by
  simp only [sum_mul]
  rw [sum_comm]
  apply sum_congr rfl
  intro i hi
  have hmem : digit i ∈ range buckets :=
    mem_range.mpr (hdigit i (mem_range.mp hi))
  simp only [ite_mul, zero_mul]
  rw [sum_ite_eq, if_pos hmem, mul_comm]

end WindowedSums
