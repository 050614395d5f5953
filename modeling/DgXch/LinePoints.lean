/-
Line points (`encoding.rs`): a pair of different numbers as the number of pairs
below the larger one, plus the smaller one.  The decoder searches the larger
number bit by bit.
-/
import DgXch.BitReader

namespace DgXch

open Nat

def getXEnc (x : Nat) : Nat :=
  if x % 2 = 0 then x / 2 * usizeSub x 1 % 2 ^ 64
  else x * (usizeSub x 1 / 2) % 2 ^ 64

def getXEnc128 (x : Nat) : Nat :=
  if x % 2 = 0 then x / 2 * usizeSub x 1 else x * (usizeSub x 1 / 2)

def squareToLinePoint (x y : Nat) : Nat :=
  if y > x then (getXEnc y + x) % 2 ^ 64 else (getXEnc x + y) % 2 ^ 64

def squareToLinePoint128 (x y : Nat) : Nat :=
  if y > x then getXEnc128 y + x else getXEnc128 x + y

/-- The loops over the bits below `i`; `fits` is the test of the loop. -/
def searchBits (fits : Nat → Bool) : Nat → Nat → Nat
  | 0, x => x
  | i + 1, x => searchBits fits i (if fits (x + 2 ^ i) then x + 2 ^ i else x)

def linePointToSquare (index : Nat) : Nat × Nat :=
  let x := searchBits (fun x => getXEnc128 x ≤ index) 64 0
  (x, (index - getXEnc128 x) % 2 ^ 64)

def linePointToSquare64 (index : Nat) : Nat × Nat :=
  let x := searchBits (fun x => getXEnc x ≤ index) 64 0
  (x, index - getXEnc x)

section Search

variable {fits : Nat → Bool} {i x r : Nat}

/-- The search finds the last number that fits. -/
theorem searchBits_eq (hfits : ∀ v < x + 2 ^ i, fits v ↔ v ≤ r)
    (hlow : x ≤ r) (hhigh : r < x + 2 ^ i) : searchBits fits i x = r := by
  induction i generalizing x with
  | zero => exact le_antisymm hlow (Nat.lt_succ_iff.mp hhigh)
  | succ i ih =>
    have hpos := Nat.two_pow_pos i
    rw [Nat.pow_succ, Nat.mul_two] at hfits hhigh
    have hnew := hfits (x + 2 ^ i) (by omega)
    rw [searchBits]
    split
    case isTrue hle =>
      exact ih (fun v hv => hfits v (by omega)) (hnew.mp hle) (by omega)
    case isFalse hgt =>
      have hlt := lt_of_not_ge fun hle => hgt (hnew.mpr hle)
      exact ih (fun v hv => hfits v (by omega)) hlow hlt

theorem searchBits_lt : searchBits fits i x < x + 2 ^ i := by
  induction i generalizing x with
  | zero => exact lt_succ_self x
  | succ i ih =>
    have hpos := Nat.two_pow_pos i
    refine ih.trans_le ?_
    rw [Nat.pow_succ, Nat.mul_two]
    split <;> omega

/-- Bits that do not fit on their own stay clear. -/
theorem searchBits_skip {j : Nat} (hle : i ≤ j)
    (hskip : ∀ k, i ≤ k → k < j → fits (2 ^ k) = false) :
    searchBits fits j 0 = searchBits fits i 0 := by
  induction j, hle using Nat.le_induction with
  | base => rfl
  | succ j hle ih =>
    have hclear := hskip j hle (lt_succ_self j)
    simp only [searchBits, Nat.zero_add, hclear, Bool.false_eq_true, ↓reduceIte]
    exact ih fun k hk hlt => hskip k hk (lt_succ_of_lt hlt)

end Search

variable {x y index : Nat}

theorem getXEnc128_eq (hx : x < 2 ^ 64) : getXEnc128 x = x.choose 2 := by
  rcases Nat.eq_zero_or_pos x with rfl | hpos
  · rfl
  · rw [getXEnc128, usizeSub_of_le hpos hx, choose_two_right]
    split
    case isTrue heven =>
      rw [Nat.div_mul_right_comm (dvd_of_mod_eq_zero heven)]
    case isFalse hodd =>
      rw [Nat.mul_div_assoc _ (dvd_of_mod_eq_zero (by omega))]

theorem choose_two_succ (x : Nat) : (x + 1).choose 2 = x.choose 2 + x := by
  rw [choose_succ_succ' x 1, choose_one_right, Nat.add_comm]

theorem choose_two_le_iff (hy : y < x) (v : Nat) :
    v.choose 2 ≤ x.choose 2 + y ↔ v ≤ x := by
  constructor
  · intro hle
    by_contra hlt
    have hmono := choose_le_choose 2 (succ_le_of_lt (lt_of_not_ge hlt))
    rw [succ_eq_add_one, choose_two_succ] at hmono
    omega
  · intro hle
    exact le_add_right (choose_le_choose 2 hle)

theorem linePointToSquare_choose (hy : y < x) (hx : x < 2 ^ 64) :
    linePointToSquare (x.choose 2 + y) = (x, y) := by
  have hsearch :
      searchBits (fun v => getXEnc128 v ≤ x.choose 2 + y) 64 0 = x := by
    refine searchBits_eq (fun v hv => ?_) (Nat.zero_le x) (by omega)
    rw [decide_eq_true_iff, getXEnc128_eq (by omega), choose_two_le_iff hy]
  rw [linePointToSquare, hsearch, getXEnc128_eq hx, Nat.add_sub_cancel_left,
    mod_eq_of_lt (by omega)]

theorem linePointToSquare_fst_lt (index : Nat) :
    (linePointToSquare index).1 < 2 ^ 64 := by
  have hlt := @searchBits_lt (fun x => getXEnc128 x ≤ index) 64 0
  rw [Nat.zero_add] at hlt
  rw [linePointToSquare]
  exact hlt

theorem squareToLinePoint128_eq (hy : y < x) (hx : x < 2 ^ 64) :
    squareToLinePoint128 x y = x.choose 2 + y := by
  rw [squareToLinePoint128, if_neg (by omega), getXEnc128_eq hx]

theorem squareToLinePoint128_comm (x y : Nat) :
    squareToLinePoint128 x y = squareToLinePoint128 y x := by
  rcases lt_trichotomy x y with hlt | rfl | hlt
  · simp only [squareToLinePoint128, if_pos hlt, if_neg hlt.not_gt]
  · rfl
  · simp only [squareToLinePoint128, if_pos hlt, if_neg hlt.not_gt]

/-- Every number is a line point. -/
theorem exists_choose_two (index : Nat) :
    ∃ x y, y < x ∧ index = x.choose 2 + y := by
  induction index with
  | zero => exact ⟨1, 0, by omega, rfl⟩
  | succ index ih =>
    obtain ⟨x, y, hy, rfl⟩ := ih
    rcases lt_or_eq_of_le (succ_le_of_lt hy) with hlt | rfl
    · exact ⟨x, y + 1, hlt, rfl⟩
    · refine ⟨y + 2, 0, by omega, ?_⟩
      rw [choose_two_succ (y + 1)]
      rfl

theorem choose_two_add_le {n : Nat} (hx : x < n) :
    x.choose 2 + x ≤ n * (n - 1) / 2 := by
  rw [← choose_two_succ, ← choose_two_right]
  exact choose_le_choose 2 (succ_le_of_lt hx)

/-- The line points of words end at the number of pairs. -/
theorem squareToLinePoint128_le (hx : x < 2 ^ 64) (hy : y < 2 ^ 64) :
    squareToLinePoint128 x y ≤ 2 ^ 127 - 2 ^ 63 := by
  have hxle := choose_two_add_le hx
  have hyle := choose_two_add_le hy
  rw [squareToLinePoint128, getXEnc128_eq hx, getXEnc128_eq hy]
  split <;> omega

theorem getXEnc_eq (hx : x < 2 ^ 32) : getXEnc x = x.choose 2 := by
  have hle := choose_two_add_le hx
  have hexact := getXEnc128_eq (show x < 2 ^ 64 by omega)
  rw [getXEnc128] at hexact
  rw [getXEnc]
  split_ifs at hexact ⊢ <;> rw [hexact, mod_eq_of_lt (by omega)]

theorem squareToLinePoint_eq (hx : x < 2 ^ 32) (hy : y < 2 ^ 32) :
    squareToLinePoint x y = squareToLinePoint128 x y := by
  have hxle := choose_two_add_le hx
  have hyle := choose_two_add_le hy
  rw [squareToLinePoint, squareToLinePoint128, getXEnc_eq hx, getXEnc_eq hy,
    getXEnc128_eq (by omega), getXEnc128_eq (by omega)]
  split <;> exact mod_eq_of_lt (by omega)

/-- On powers of two from `2 ^ 32` on the wrapped encodings are too large. -/
theorem linePointToSquare64_choose (hy : y < x) (hx : x < 2 ^ 32) :
    linePointToSquare64 (x.choose 2 + y) = (x, y) := by
  have hlarge : ∀ k < 64, 32 ≤ k → 2 ^ 63 - 2 ^ 31 ≤ getXEnc (2 ^ k) := by
    decide +kernel
  have hlast := choose_two_add_le hx
  have hsearch : searchBits (fun v => getXEnc v ≤ x.choose 2 + y) 64 0 = x := by
    rw [searchBits_skip (show 32 ≤ 64 by omega) fun k hk hlt => ?_]
    · refine searchBits_eq (fun v hv => ?_) (Nat.zero_le x) (by omega)
      rw [decide_eq_true_iff, getXEnc_eq (by omega), choose_two_le_iff hy]
    · have hk := hlarge k hlt hk
      rw [decide_eq_false_iff_not]
      omega
  rw [linePointToSquare64, hsearch, getXEnc_eq hx, Nat.add_sub_cancel_left]

/-- The 128-bit functions encode the unordered pairs of words; exactly the
numbers up to `2 ^ 127 - 2 ^ 63` are the line points of what they decode to,
and no two words have a larger one.  On words of 32 bits the 64-bit functions
agree with them. -/
theorem line_points :
    (∀ x y, y < x → x < 2 ^ 64 →
      linePointToSquare (squareToLinePoint128 x y) = (x, y)) ∧
    (∀ x y, squareToLinePoint128 x y = squareToLinePoint128 y x) ∧
    (∀ index < 2 ^ 127 - 2 ^ 63, ∃ x y, y < x ∧ x < 2 ^ 64 ∧
      linePointToSquare index = (x, y) ∧ squareToLinePoint128 x y = index) ∧
    (∀ index, squareToLinePoint128 (linePointToSquare index).1
        (linePointToSquare index).2 = index ↔ index ≤ 2 ^ 127 - 2 ^ 63) ∧
    (∀ x y, x < 2 ^ 64 → y < 2 ^ 64 →
      squareToLinePoint128 x y ≤ 2 ^ 127 - 2 ^ 63) ∧
    ∀ x y, x ≠ y → x < 2 ^ 32 → y < 2 ^ 32 →
      squareToLinePoint x y = squareToLinePoint128 x y ∧
      linePointToSquare64 (squareToLinePoint x y) =
        linePointToSquare (squareToLinePoint128 x y) := by
  have hdecodes (index : Nat) (hindex : index < 2 ^ 127 - 2 ^ 63) :
      ∃ x y, y < x ∧ x < 2 ^ 64 ∧ linePointToSquare index = (x, y) ∧
        squareToLinePoint128 x y = index := by
    obtain ⟨x, y, hy, rfl⟩ := exists_choose_two index
    have hx : x < 2 ^ 64 := by
      by_contra hle
      have hmono := choose_le_choose 2 (le_of_not_gt hle)
      rw [choose_two_right (2 ^ 64)] at hmono
      omega
    exact ⟨x, y, hy, hx, linePointToSquare_choose hy hx,
      squareToLinePoint128_eq hy hx⟩
  refine ⟨fun x y hy hx => ?_, squareToLinePoint128_comm, hdecodes,
    fun index => ⟨fun heq => ?_, fun hle => ?_⟩,
    fun x y => squareToLinePoint128_le,
    fun x y hne hx hy => ⟨squareToLinePoint_eq hx hy, ?_⟩⟩
  · rw [squareToLinePoint128_eq hy hx, linePointToSquare_choose hy hx]
  · rw [← heq]
    exact squareToLinePoint128_le (linePointToSquare_fst_lt index)
      (mod_lt _ (Nat.two_pow_pos 64))
  · rcases lt_or_eq_of_le hle with hlt | rfl
    · obtain ⟨x, y, -, -, hdecode, hencode⟩ := hdecodes index hlt
      rw [hdecode, hencode]
    · -- the last line point is that of two equal words
      decide +kernel
  · rw [squareToLinePoint_eq hx hy]
    wlog hlt : y < x generalizing x y
    · rw [squareToLinePoint128_comm]
      exact this y x hne.symm hy hx (by omega)
    rw [squareToLinePoint128_eq hlt (by omega),
      linePointToSquare64_choose hlt hx,
      linePointToSquare_choose hlt (by omega)]

/-- Above the line points of words, the smaller member is cut off. -/
theorem line_point_lost :
    squareToLinePoint128 (linePointToSquare (2 ^ 127 - 1)).1
      (linePointToSquare (2 ^ 127 - 1)).2 ≠ 2 ^ 127 - 1 := by
  decide +kernel

end DgXch
