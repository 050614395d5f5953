/-
Numbers as byte strings and bit strings, most significant first.  `beNat` and
`beBytes` read and write natural numbers, `beInt` and `intBytes` integers in
two's complement with the fewest bytes.  `bitsOf` writes the low bits of a
number, so that shifts and masks are list operations, and `packBits` packs bits
into bytes with zeros behind the last.  SHA-256 works on natural numbers below
`2 ^ 32`, so that the kernel can evaluate a digest.
-/
import Mathlib.Data.Nat.Digits.Lemmas
import Mathlib.Data.Nat.Bitwise
import Mathlib.Data.Nat.Size

namespace BigEndian

open List Nat UInt8

/-- The number whose base-256 digits, most significant first, are `bytes`. -/
def beNat (bytes : List UInt8) : Nat :=
  bytes.foldl (fun value byte => value * 256 + byte.toNat) 0

/-- The low `width` base-256 digits of `n`, most significant first. -/
def beBytes : Nat → Nat → List UInt8
  | 0, _ => []
  | width + 1, n => beBytes width (n / 256) ++ [UInt8.ofNat n]

@[simp]
theorem beNat_nil : beNat [] = 0 := rfl

variable (bytes : List UInt8)

theorem foldl_eq_beNat (start : Nat) :
    bytes.foldl (fun value byte => value * 256 + byte.toNat) start =
      start * 256 ^ bytes.length + beNat bytes := by
  induction bytes generalizing start with
  | nil => simp
  | cons head tail ih =>
    simp only [beNat, foldl_cons, length_cons]
    rw [ih, ih (0 * 256 + head.toNat)]
    ring

theorem beNat_cons (head : UInt8) (tail : List UInt8) :
    beNat (head :: tail) = head.toNat * 256 ^ tail.length + beNat tail := by
  rw [beNat, foldl_cons, foldl_eq_beNat]
  simp

theorem beNat_append (front back : List UInt8) :
    beNat (front ++ back) = beNat front * 256 ^ back.length + beNat back := by
  rw [beNat, foldl_append, foldl_eq_beNat]
  rfl

theorem beNat_lt : beNat bytes < 256 ^ bytes.length := by
  induction bytes with
  | nil => simp
  | cons head tail ih =>
    have hhead : head.toNat < 256 := head.toNat_lt
    have hstep : (head.toNat + 1) * 256 ^ tail.length ≤
        256 * 256 ^ tail.length := mul_le_mul_right _ hhead
    rw [beNat_cons, length_cons, pow_succ]
    linarith

@[simp]
theorem length_beBytes (width n : Nat) : (beBytes width n).length = width := by
  induction width generalizing n with
  | zero => rfl
  | succ width ih => simp [beBytes, ih]

theorem beNat_beBytes (width n : Nat) :
    beNat (beBytes width n) = n % 256 ^ width := by
  induction width generalizing n with
  | zero => simp [beBytes, mod_one]
  | succ width ih =>
    have hlast : beNat [ofNat n] = n % 256 := by simp [beNat]
    rw [beBytes, beNat_append, ih, hlast, pow_succ, mul_comm,
      length_singleton, pow_one, mul_comm, mul_comm (256 ^ width), mod_mul]
    ring

/-- A byte string is recovered from its length and its value. -/
theorem beBytes_beNat (high : Nat) :
    beBytes bytes.length (high * 256 ^ bytes.length + beNat bytes) = bytes := by
  induction bytes using List.reverseRecOn generalizing high with
  | nil => rfl
  | append_singleton front last ih =>
    have hlast : last.toNat < 256 := last.toNat_lt
    have hvalue : high * 256 ^ (front.length + 1) + beNat (front ++ [last]) =
        (high * 256 ^ front.length + beNat front) * 256 + last.toNat := by
      rw [beNat_append]
      simp only [beNat, foldl_cons, foldl_nil, length_singleton]
      ring
    rw [length_append, length_singleton, hvalue, beBytes]
    replace ih := ih high
    generalize high * 256 ^ front.length + beNat front = value at ih ⊢
    have hmod : ofNat (value * 256 + last.toNat) = last := by
      apply UInt8.toNat_inj.mp
      simp only [UInt8.toNat_ofNat']
      omega
    rw [show (value * 256 + last.toNat) / 256 = value by omega, ih, hmod]

theorem shiftLeft_or_byte (value : Nat) {next : UInt8} :
    (value <<< 8) ||| next.toNat = value * 256 + next.toNat := by
  rw [← shiftLeft_add_eq_or_of_lt next.toNat_lt value, shiftLeft_eq]

/-- One step of reading a big-endian 64-bit word, which drops its high bits. -/
theorem toNat_shift_or64 (value : UInt64) (next : UInt8) :
    ((value <<< 8) ||| next.toUInt64).toNat =
      (value.toNat * 256 + next.toNat) % 2 ^ 64 := by
  have hnext : next.toNat < 2 ^ 64 := lt_trans next.toNat_lt (by norm_num)
  rw [← shiftLeft_or_byte, or_mod_two_pow, mod_eq_of_lt hnext,
    UInt64.toNat_or, UInt64.toNat_shiftLeft, toNat_toUInt64]
  rfl

theorem toNat_shift_or32 (value : UInt32) (next : UInt8) :
    ((value <<< 8) ||| next.toUInt32).toNat =
      (value.toNat * 256 + next.toNat) % 2 ^ 32 := by
  have hnext : next.toNat < 2 ^ 32 := lt_trans next.toNat_lt (by norm_num)
  rw [← shiftLeft_or_byte, or_mod_two_pow, mod_eq_of_lt hnext,
    UInt32.toNat_or, UInt32.toNat_shiftLeft, toNat_toUInt32]
  rfl

/-- A fold whose step reads one byte modulo `modulus` reads a whole byte string
modulo `modulus`. -/
theorem foldl_mod_eq {A : Type} (step : A → UInt8 → A) {value : A → Nat}
    {modulus : Nat}
    (hstep : ∀ a b, value (step a b) = (value a * 256 + b.toNat) % modulus)
    (bytes : List UInt8) (start : A) (hstart : value start < modulus) :
    value (bytes.foldl step start) =
      (value start * 256 ^ bytes.length + beNat bytes) % modulus := by
  induction bytes generalizing start with
  | nil => simp [mod_eq_of_lt hstart]
  | cons head tail ih =>
    have hnext : value (step start head) < modulus := by
      rw [hstep]
      exact mod_lt _ (zero_lt_of_lt hstart)
    rw [foldl_cons, ih _ hnext, hstep, beNat_cons, length_cons,
      add_mod, mod_mul_mod, ← add_mod]
    congr 1
    ring

end BigEndian

namespace ByteBits

open Nat List

/-- A fact about bytes is checked on 256 values. -/
theorem forall_byte {P : UInt8 → Prop}
    (h : ∀ n : Fin 256, P (UInt8.ofNat n.val)) (b : UInt8) : P b := by
  have hb := h ⟨b.toNat, b.toNat_lt⟩
  rwa [UInt8.ofNat_toNat] at hb

/-- Bit `i` of a byte string; past its end the bits are clear. -/
def bitOf (bytes : List UInt8) (i : Nat) : Bool :=
  (bytes.getD (i / 8) 0).toNat.testBit (7 - i % 8)

theorem bitOf_cons_lt {b : UInt8} {bytes : List UInt8} {i : Nat} (hi : i < 8) :
    bitOf (b :: bytes) i = b.toNat.testBit (7 - i) := by
  unfold bitOf
  rw [div_eq_of_lt hi, mod_eq_of_lt hi, getD_cons_zero]

theorem bitOf_cons_add {b : UInt8} {bytes : List UInt8} (i : Nat) :
    bitOf (b :: bytes) (i + 8) = bitOf bytes i := by
  unfold bitOf
  rw [add_div_right i (by decide), add_mod_right, getD_cons_succ]

/-- The high bits of two bytes, down to bit `7 - d`. -/
theorem testBit_high_eq {x y : UInt8} {d : Nat}
    (hsame : ∀ i < d, i < 8 → x.toNat.testBit (7 - i) = y.toNat.testBit (7 - i))
    {j : Nat} (hj : 7 - d < j) :
    x.toNat.testBit j = y.toNat.testBit j := by
  by_cases hhigh : j < 8
  · have := hsame (7 - j) (by omega) (by omega)
    rwa [show 7 - (7 - j) = j by omega] at this
  · have hpow : 2 ^ 8 ≤ 2 ^ j := Nat.pow_le_pow_right (by decide) (by omega)
    rw [Nat.testBit_lt_two_pow (x.toNat_lt.trans_le hpow),
      Nat.testBit_lt_two_pow (y.toNat_lt.trans_le hpow)]

theorem eq_of_testBit {x y : UInt8}
    (hsame : ∀ i < 8, x.toNat.testBit (7 - i) = y.toNat.testBit (7 - i)) :
    x = y := by
  apply UInt8.toNat_inj.mp
  apply eq_of_testBit_eq
  intro j
  rcases Nat.eq_zero_or_pos j with rfl | hpos
  · exact hsame 7 (by decide)
  · exact testBit_high_eq (d := 8) (fun i hi _ => hsame i hi) (by omega)

/-- Byte strings of one length are determined by their bits. -/
theorem eq_of_bitOf {x y : List UInt8} (hlength : x.length = y.length)
    (hsame : ∀ i < 8 * x.length, bitOf x i = bitOf y i) : x = y := by
  induction x generalizing y with
  | nil => exact (length_eq_zero_iff.mp hlength.symm).symm
  | cons a x ih =>
    cases y with
    | nil => cases hlength
    | cons b y =>
      rw [length_cons] at hsame
      have hhead : a = b := by
        apply eq_of_testBit
        intro i hi
        have := hsame i (by omega)
        rwa [bitOf_cons_lt hi, bitOf_cons_lt hi] at this
      have htail : x = y := by
        apply ih (succ.inj hlength)
        intro i hi
        have := hsame (i + 8) (by omega)
        rwa [bitOf_cons_add, bitOf_cons_add] at this
      rw [hhead, htail]

/-- Where a smaller byte string has the first differing bit, the larger one
has it too. -/
theorem bitOf_of_lt {x y : List UInt8} {d : Nat} (hlt : x < y)
    (hlength : x.length = y.length)
    (hsame : ∀ i < d, bitOf x i = bitOf y i) (hbit : bitOf x d = true) :
    bitOf y d = true := by
  induction x generalizing y d with
  | nil =>
    obtain rfl := length_eq_zero_iff.mp hlength.symm
    exact hbit
  | cons a x ih =>
    cases y with
    | nil => cases hlength
    | cons b y =>
      have hhigh : ∀ i < d, i < 8 →
          a.toNat.testBit (7 - i) = b.toNat.testBit (7 - i) := by
        intro i hi hbyte
        have := hsame i hi
        rwa [bitOf_cons_lt hbyte, bitOf_cons_lt hbyte] at this
      by_cases hd : d < 8
      · rw [bitOf_cons_lt hd] at hbit ⊢
        rcases cons_lt_cons_iff.mp hlt with hhead | ⟨rfl, -⟩
        · by_contra hclear
          have hswap := lt_of_testBit (7 - d)
            (Bool.eq_false_iff.mpr hclear) hbit
            fun j hj => (testBit_high_eq hhigh hj).symm
          exact absurd (UInt8.lt_iff_toNat_lt.mp hhead) (lt_asymm hswap)
        · exact hbit
      · obtain ⟨k, rfl⟩ : ∃ k, d = k + 8 := ⟨d - 8, by omega⟩
        have hhead : a = b := eq_of_testBit fun i hi => hhigh i (by omega) hi
        subst hhead
        rw [bitOf_cons_add] at hbit ⊢
        rcases cons_lt_cons_iff.mp hlt with hhead | ⟨-, htail⟩
        · exact absurd hhead (UInt8.lt_irrefl a)
        · apply ih htail (succ.inj hlength) _ hbit
          intro i hi
          have := hsame (i + 8) (by omega)
          rwa [bitOf_cons_add, bitOf_cons_add] at this

end ByteBits

namespace TwosComplement

open BigEndian ByteBits Int

/-- The sign bit of a byte string. -/
def negative (bytes : List UInt8) : Bool := 0x80 ≤ bytes.headD 0

/-- A leading zero byte that the sign does not need. -/
def zeroPadded : List UInt8 → Bool
  | [] => false
  | first :: tail => first = 0 && !negative tail

/-- The integer that a byte string stands for. -/
def beInt (bytes : List UInt8) : Int :=
  if negative bytes then (beNat bytes : Int) - 256 ^ bytes.length
  else beNat bytes

/-- The number of bytes that hold an integer and its sign. -/
def signedLength (n : Int) : Nat :=
  (if 0 ≤ n then n.toNat else (-n - 1).toNat).size / 8 + 1

/-- The shortest big-endian two's-complement form of an integer. -/
def intBytes (n : Int) : List UInt8 :=
  beBytes (signedLength n) (n % 256 ^ signedLength n).toNat

variable {bytes : List UInt8}

theorem beInt_of_not_negative (hsign : negative bytes = false) :
    beInt bytes = beNat bytes := by
  rw [beInt, hsign]
  rfl

theorem beInt_neg_iff : beInt bytes < 0 ↔ negative bytes = true := by
  have hlt : (beNat bytes : Int) < 256 ^ bytes.length := by
    exact_mod_cast beNat_lt bytes
  unfold beInt
  split_ifs with hsign
  · exact iff_of_true (by omega) hsign
  · exact iff_of_false (by omega) hsign

variable {head : UInt8} {tail : List UInt8}

theorem negative_cons : negative (head :: tail) = true ↔ 128 ≤ head.toNat := by
  rw [negative, List.headD_cons, decide_eq_true_iff, UInt8.le_iff_toNat_le]
  rfl

/-- The head of a string decides which half of the range its value is in. -/
theorem negative_iff (hne : bytes ≠ []) :
    negative bytes = true ↔ 256 ^ bytes.length ≤ 2 * beNat bytes := by
  cases bytes with
  | nil => exact absurd rfl hne
  | cons head tail =>
    have htail := beNat_lt tail
    have hpos : 0 < 256 ^ tail.length := Nat.pow_pos (by decide)
    rw [negative_cons, List.length_cons, pow_succ, beNat_cons]
    generalize 256 ^ tail.length = place at *
    constructor
    · intro hhead
      have := Nat.mul_le_mul_right place hhead
      linarith
    · intro hle
      by_contra hhead
      have hsmall : head.toNat ≤ 127 := by omega
      have := Nat.mul_le_mul_right place hsmall
      linarith

/-- A leading byte other than zero keeps the length of a value. -/
theorem le_beNat_cons (hhead : head ≠ 0) (tail : List UInt8) :
    256 ^ tail.length ≤ beNat (head :: tail) := by
  have hpos : 1 ≤ head.toNat := by
    apply Nat.one_le_iff_ne_zero.mpr
    intro hzero
    exact hhead (UInt8.toNat_inj.mp hzero)
  rw [beNat_cons]
  calc 256 ^ tail.length = 1 * 256 ^ tail.length := (one_mul _).symm
    _ ≤ head.toNat * 256 ^ tail.length := Nat.mul_le_mul_right _ hpos
    _ ≤ head.toNat * 256 ^ tail.length + beNat tail := Nat.le_add_right _ _

theorem topBit_ne_zero_iff (b : UInt8) : b &&& 0x80 ≠ 0 ↔ 128 ≤ b.toNat :=
  forall_byte (P := fun b => b &&& 0x80 ≠ 0 ↔ 128 ≤ b.toNat)
    (by decide +kernel) b

theorem negative_cons_iff (head : UInt8) (tail : List UInt8) :
    negative (head :: tail) = true ↔ head &&& 0x80 ≠ 0 :=
  negative_cons.trans (topBit_ne_zero_iff head).symm

/-- Without a leading zero the length of a string decides which powers it
reaches. -/
theorem pow_le_beNat_iff (hhead : head ≠ 0) (k : Nat) :
    256 ^ k ≤ beNat (head :: tail) ↔ k ≤ tail.length := by
  constructor
  · intro hle
    have hlt := lt_of_le_of_lt hle (beNat_lt (head :: tail))
    exact Nat.le_of_lt_succ ((Nat.pow_lt_pow_iff_right (by decide)).mp hlt)
  · intro hle
    exact le_trans (Nat.pow_le_pow_right (by decide) hle)
      (le_beNat_cons hhead tail)

@[simp]
theorem beNat_zero_cons : beNat (0 :: tail) = beNat tail := by simp [beNat_cons]

/-- The magnitude that `signedLength` measures stays below the sign bit. -/
theorem size_lt (n : Nat) : n < 2 ^ (8 * (n.size / 8 + 1) - 1) :=
  Nat.size_le.mp (by omega)

theorem signedLength_range (n : Int) :
    -(2 ^ (8 * signedLength n - 1)) ≤ n ∧ n < 2 ^ (8 * signedLength n - 1) := by
  by_cases hsign : 0 ≤ n
  · have hsize := size_lt n.toNat
    rw [signedLength, if_pos hsign]
    zify at hsize
    rw [toNat_of_nonneg hsign] at hsize
    constructor
    · exact le_trans (neg_nonpos.mpr (by positivity)) hsign
    · exact hsize
  · have hsize := size_lt (-n - 1).toNat
    rw [signedLength, if_neg hsign]
    zify at hsize
    rw [toNat_of_nonneg (by omega)] at hsize
    constructor
    · linarith
    · exact lt_of_lt_of_le (not_le.mp hsign) (by positivity)

/-- Reading what was written. -/
theorem beInt_intBytes (n : Int) : beInt (intBytes n) = n := by
  have hlen : (intBytes n).length = signedLength n := length_beBytes _ _
  have hpos : 0 < signedLength n := Nat.succ_pos _
  have hne : intBytes n ≠ [] := List.length_pos_iff.mp (hlen ▸ hpos)
  have hhalf : (256 : Int) ^ signedLength n =
      2 * 2 ^ (8 * signedLength n - 1) := by
    rw [show (256 : Int) = 2 ^ 8 from rfl, ← pow_mul, ← pow_succ',
      Nat.sub_add_cancel (by omega)]
  have hmodulus : (0 : Int) < 256 ^ signedLength n := by positivity
  have hlow := emod_nonneg n hmodulus.ne'
  have hhigh := emod_lt_of_pos n hmodulus
  -- The written value is the residue of `n`.
  have hvalue : (beNat (intBytes n) : Int) = n % 256 ^ signedLength n := by
    rw [intBytes, beNat_beBytes, Nat.mod_eq_of_lt]
    · exact toNat_of_nonneg hlow
    · zify
      rwa [toNat_of_nonneg hlow]
  obtain ⟨hge, hlt⟩ := signedLength_range n
  have hsign : negative (intBytes n) = true ↔ n < 0 := by
    rw [negative_iff hne, hlen]
    zify
    rw [hvalue]
    constructor
    · intro hle
      by_contra hneg
      rw [emod_eq_of_lt (not_lt.mp hneg) (by linarith)] at hle
      linarith
    · intro hneg
      rw [← add_emod_right, emod_eq_of_lt (by linarith) (by linarith)]
      linarith
  unfold beInt
  rw [hlen, hvalue]
  split_ifs with hbit
  · have hneg := hsign.mp hbit
    rw [← add_emod_right, emod_eq_of_lt (by linarith) (by linarith)]
    ring
  · have hnonneg := not_lt.mp (mt hsign.mpr hbit)
    exact emod_eq_of_lt hnonneg (by linarith)

end TwosComplement

namespace BitStrings

open BigEndian List Nat

variable {left right : List UInt8}

theorem beNat_inj (hlength : left.length = right.length)
    (hvalue : beNat left = beNat right) : left = right := by
  have hleft := beBytes_beNat left 0
  have hright := beBytes_beNat right 0
  rw [← hleft, hlength, hvalue, hright]

/-- The low `width` bits of a number, most significant first. -/
def bitsOf : Nat → Nat → List Bool
  | 0, _ => []
  | width + 1, value => value.testBit width :: bitsOf width value

/-- The number a bit string spells. -/
def bitsNat : List Bool → Nat
  | [] => 0
  | bit :: rest => bit.toNat * 2 ^ rest.length + bitsNat rest

def byteBits (bytes : List UInt8) : List Bool :=
  bytes.flatMap fun byte => bitsOf 8 byte.toNat

/-- The bytes of a bit string, its last byte filled up with zeros. -/
def packBits (bits : List Bool) : List UInt8 :=
  beBytes ((bits.length + 7) / 8)
    (bitsNat bits * 2 ^ (8 * ((bits.length + 7) / 8) - bits.length))

/-- Two numbers written one behind the other need the sum of their widths. -/
theorem mul_add_lt_two_pow {high low left right : Nat}
    (hhigh : high < 2 ^ left) (hlow : low < 2 ^ right) :
    high * 2 ^ right + low < 2 ^ (left + right) := by
  have hstep : (high + 1) * 2 ^ right ≤ 2 ^ left * 2 ^ right :=
    mul_le_mul_right _ hhigh
  rw [pow_add]
  linarith

theorem div_two_pow_lt {value width size : Nat} (hvalue : value < 2 ^ width)
    (hsize : size ≤ width) : value / 2 ^ (width - size) < 2 ^ size := by
  rwa [Nat.div_lt_iff_lt_mul (Nat.two_pow_pos _), ← pow_add,
    Nat.add_sub_cancel' hsize]

@[simp]
theorem length_bitsOf {width value : Nat} :
    (bitsOf width value).length = width := by
  induction width with
  | zero => rfl
  | succ width ih => simp [bitsOf, ih]

variable {value : Nat}

theorem bitsOf_mod {width bound : Nat} (h : width ≤ bound) :
    bitsOf width (value % 2 ^ bound) = bitsOf width value := by
  induction width with
  | zero => rfl
  | succ width ih =>
    have hlt : width < bound := h
    simp [bitsOf, ih (le_of_lt hlt), testBit_mod_two_pow, hlt]

/-- A number above another one is written in front of it. -/
theorem bitsOf_add (left : Nat) {right : Nat} (high low : Nat)
    (hlow : low < 2 ^ right) :
    bitsOf (left + right) (high * 2 ^ right + low) =
      bitsOf left high ++ bitsOf right low := by
  induction left with
  | zero =>
    rw [zero_add, ← bitsOf_mod (le_refl right),
      mul_add_mod_self_right, mod_eq_of_lt hlow]
    rfl
  | succ left ih =>
    have hbit : (high * 2 ^ right + low).testBit (left + right) =
        high.testBit left := by
      rw [mul_comm, testBit_two_pow_mul_add high hlow]
      simp
    rw [add_right_comm, bitsOf, hbit, ih]
    rfl

theorem bitsOf_split (left right value : Nat) :
    bitsOf (left + right) value =
      bitsOf left (value / 2 ^ right) ++ bitsOf right value := by
  have hlow : value % 2 ^ right < 2 ^ right :=
    Nat.mod_lt _ (Nat.two_pow_pos right)
  have hsum := bitsOf_add left (value / 2 ^ right) (value % 2 ^ right) hlow
  rwa [mul_comm, Nat.div_add_mod, bitsOf_mod (le_refl right)] at hsum

/-- A shift to the right keeps the front of the string. -/
theorem take_bitsOf {width count : Nat} (h : count ≤ width) :
    (bitsOf width value).take count =
      bitsOf count (value / 2 ^ (width - count)) := by
  have hsplit := bitsOf_split count (width - count) value
  rw [Nat.add_sub_cancel' h] at hsplit
  rw [hsplit]
  exact take_left' length_bitsOf

/-- A mask keeps the back of the string. -/
theorem drop_bitsOf {width count : Nat} (h : count ≤ width) :
    (bitsOf width value).drop count = bitsOf (width - count) value := by
  have hsplit := bitsOf_split count (width - count) value
  rw [Nat.add_sub_cancel' h] at hsplit
  rw [hsplit]
  exact drop_left' length_bitsOf

variable (bits : List Bool)

theorem bitsNat_lt : bitsNat bits < 2 ^ bits.length := by
  induction bits with
  | nil => simp [bitsNat]
  | cons bit rest ih =>
    have hbit : bit.toNat ≤ 1 := Bool.toNat_le bit
    have hhead : bit.toNat * 2 ^ rest.length ≤ 1 * 2 ^ rest.length :=
      mul_le_mul_right _ hbit
    simp only [bitsNat, length_cons, pow_succ]
    omega

theorem bitsNat_append (front back : List Bool) :
    bitsNat (front ++ back) =
      bitsNat front * 2 ^ back.length + bitsNat back := by
  induction front with
  | nil => simp [bitsNat]
  | cons bit rest ih =>
    simp only [cons_append, bitsNat, ih, length_append, pow_add]
    ring

@[simp]
theorem bitsNat_bitsOf {width : Nat} :
    bitsNat (bitsOf width value) = value % 2 ^ width := by
  induction width with
  | zero => simp [bitsOf, bitsNat, mod_one]
  | succ width ih =>
    have hbit : (value.testBit width).toNat = value / 2 ^ width % 2 := by
      rw [toNat_testBit]
    simp only [bitsOf, bitsNat, ih, length_bitsOf, hbit, pow_succ]
    rw [mod_mul]
    ring

theorem bitsNat_bitsOf_of_lt {width : Nat} (h : value < 2 ^ width) :
    bitsNat (bitsOf width value) = value := by
  rw [bitsNat_bitsOf, mod_eq_of_lt h]

/-- A bit string is recovered from its length and its value. -/
theorem bitsOf_bitsNat : bitsOf bits.length (bitsNat bits) = bits := by
  induction bits with
  | nil => rfl
  | cons bit rest ih =>
    have hsum := bitsOf_add 1 bit.toNat (bitsNat rest) (bitsNat_lt rest)
    have hbit : bitsOf 1 bit.toNat = [bit] := by cases bit <;> rfl
    rw [length_cons, bitsNat, add_comm rest.length 1, hsum, hbit, ih]
    rfl

@[simp]
theorem byteBits_append (front back : List UInt8) :
    byteBits (front ++ back) = byteBits front ++ byteBits back := by
  simp [byteBits]

variable (bytes : List UInt8)

@[simp]
theorem length_byteBits : (byteBits bytes).length = 8 * bytes.length := by
  induction bytes with
  | nil => rfl
  | cons head tail ih =>
    simp only [byteBits, flatMap_cons, length_append,
      length_bitsOf, length_cons] at ih ⊢
    omega

/-- A byte string and its bits spell the same number. -/
theorem bitsNat_byteBits : bitsNat (byteBits bytes) = beNat bytes := by
  induction bytes with
  | nil => rfl
  | cons head tail ih =>
    have hhead : head.toNat < 2 ^ 8 := head.toNat_lt
    have htail := length_byteBits tail
    simp only [byteBits, flatMap_cons] at ih htail ⊢
    rw [bitsNat_append, ih, beNat_cons, bitsNat_bitsOf_of_lt hhead, htail,
      pow_mul]
    norm_num

theorem bitsOf_beNat :
    bitsOf (8 * bytes.length) (beNat bytes) = byteBits bytes := by
  rw [← bitsNat_byteBits, ← length_byteBits, bitsOf_bitsNat]

variable {count : Nat}

theorem byteBits_take :
    byteBits (bytes.take count) = (byteBits bytes).take (8 * count) := by
  have hsplit := byteBits_append (bytes.take count) (bytes.drop count)
  rw [take_append_drop] at hsplit
  by_cases hcount : count ≤ bytes.length
  · rw [hsplit, take_left' (by simp [hcount])]
  · rw [take_of_length_le (by omega), take_of_length_le (by simp; omega)]

theorem byteBits_drop :
    byteBits (bytes.drop count) = (byteBits bytes).drop (8 * count) := by
  have hsplit := byteBits_append (bytes.take count) (bytes.drop count)
  rw [take_append_drop, byteBits_take] at hsplit
  exact append_cancel_left (hsplit.symm.trans (take_append_drop _ _).symm)

@[simp]
theorem length_packBits : (packBits bits).length = (bits.length + 7) / 8 := by
  simp [packBits]

theorem beNat_packBits :
    beNat (packBits bits) =
      bitsNat bits * 2 ^ (8 * ((bits.length + 7) / 8) - bits.length) := by
  rw [packBits, beNat_beBytes]
  generalize hcount : (bits.length + 7) / 8 = count
  have hwidth : bits.length + (8 * count - bits.length) = 8 * count := by omega
  apply mod_eq_of_lt
  calc bitsNat bits * 2 ^ (8 * count - bits.length)
      < 2 ^ bits.length * 2 ^ (8 * count - bits.length) :=
        Nat.mul_lt_mul_of_pos_right (bitsNat_lt bits) (Nat.two_pow_pos _)
    _ = 256 ^ count := by
        rw [← pow_add, hwidth, pow_mul]
        norm_num

/-- Whole bytes in front of a bit string are packed on their own. -/
theorem packBits_append :
    packBits (byteBits bytes ++ bits) = bytes ++ packBits bits := by
  have hcount : (8 * bytes.length + bits.length + 7) / 8 =
      bytes.length + (bits.length + 7) / 8 := by omega
  have hpad : 8 * (bytes.length + (bits.length + 7) / 8) -
      (8 * bytes.length + bits.length) =
      8 * ((bits.length + 7) / 8) - bits.length := by omega
  have hwidth : bits.length +
      (8 * ((bits.length + 7) / 8) - bits.length) =
      8 * ((bits.length + 7) / 8) := by omega
  apply beNat_inj
  · simp [hcount]
  · rw [beNat_append, beNat_packBits, beNat_packBits, bitsNat_append,
      bitsNat_byteBits, length_append, length_byteBits, hcount, hpad,
      length_packBits, add_mul, mul_assoc, ← pow_add, hwidth, pow_mul]
    norm_num

/-- Fields of a fixed width while they are being filled: the full ones, the
one in progress, and how many bits it still takes. -/
structure Cells where
  done : List Nat
  cell : Nat
  left : Nat

namespace Cells

variable {width : Nat} {taken : List Bool} {c : Cells}

/-- A piece of `count` bits, shifted to its place, enters the field in
progress; a full field is closed. -/
def write (width piece count : Nat) (c : Cells) : Cells :=
  if c.left - count = 0 then ⟨c.done ++ [c.cell ||| piece], 0, width⟩
  else ⟨c.done, c.cell ||| piece, c.left - count⟩

/-- The low `count` bits of a number enter from the top, as many in a round as
there is room for; `piece count left` are those of one round.  A round takes a
bit, so `count` rounds are enough. -/
def feed (width : Nat) (piece : Nat → Nat → Nat) : Nat → Nat → Cells → Cells
  | 0, _, c => c
  | rounds + 1, count, c =>
    if count = 0 then c
    else feed width piece rounds (count - min count c.left)
      (c.write width (piece count c.left) (min count c.left))

/-- The bits written so far are `taken`. -/
def Holds (width : Nat) (taken : List Bool) (c : Cells) : Prop :=
  ∃ tail, taken = c.done.flatMap (bitsOf width) ++ tail ∧
    tail.length + c.left = width ∧ 0 < c.left ∧
    c.cell = bitsNat tail * 2 ^ c.left ∧ ∀ value ∈ c.done, value < 2 ^ width

theorem Holds.write (h : Holds width taken c) (chunk : List Bool)
    (hroom : chunk.length ≤ c.left) :
    Holds width (taken ++ chunk) (c.write width
      (bitsNat chunk * 2 ^ (c.left - chunk.length)) chunk.length) := by
  obtain ⟨tail, rfl, hwidth, hleft, hcell, hfit⟩ := h
  have hpow : 2 ^ c.left = 2 ^ chunk.length * 2 ^ (c.left - chunk.length) := by
    rw [← pow_add, Nat.add_sub_cancel' hroom]
  have hpiece : bitsNat chunk * 2 ^ (c.left - chunk.length) < 2 ^ c.left := by
    rw [hpow]
    exact Nat.mul_lt_mul_of_pos_right (bitsNat_lt chunk) (Nat.two_pow_pos _)
  have hor : c.cell ||| bitsNat chunk * 2 ^ (c.left - chunk.length) =
      bitsNat (tail ++ chunk) * 2 ^ (c.left - chunk.length) := by
    rw [hcell, ← shiftLeft_eq, ← shiftLeft_add_eq_or_of_lt hpiece,
      shiftLeft_eq, hpow, bitsNat_append, add_mul, mul_assoc]
  have hlength : (tail ++ chunk).length + (c.left - chunk.length) = width := by
    rw [length_append]
    omega
  rw [Cells.write, hor]
  split_ifs with hfull
  · have hwhole := bitsOf_bitsNat (tail ++ chunk)
    have hlast := bitsNat_lt (tail ++ chunk)
    rw [hfull, add_zero] at hlength
    rw [hlength] at hwhole hlast
    rw [hfull, pow_zero, mul_one]
    refine ⟨[], by simp [hwhole], zero_add width, show 0 < width by omega,
      by simp [bitsNat], ?_⟩
    exact forall_mem_append.mpr ⟨hfit, forall_mem_singleton.mpr hlast⟩
  · exact ⟨tail ++ chunk, by simp, hlength, Nat.pos_of_ne_zero hfull, rfl, hfit⟩

theorem Holds.feed (value : Nat) {limit count rounds : Nat}
    {piece : Nat → Nat → Nat}
    (hpiece : ∀ {count left copied}, count ≤ limit → 0 < left → left ≤ width →
      min count left = copied → piece count left =
        value / 2 ^ (count - copied) % 2 ^ copied * 2 ^ (left - copied))
    (hrounds : count ≤ rounds) (hcount : count ≤ limit)
    (h : Holds width taken c) :
    Holds width (taken ++ bitsOf count value)
      (c.feed width piece rounds count) := by
  induction rounds generalizing count c taken with
  | zero =>
    obtain rfl := Nat.le_zero.mp hrounds
    simpa [Cells.feed, bitsOf] using h
  | succ rounds ih =>
    rw [Cells.feed]
    split_ifs with hzero
    · subst hzero
      simpa [bitsOf] using h
    · obtain ⟨tail, -, hwidth, hleft, -⟩ := id h
      generalize hcopied : min count c.left = copied
      have hle : copied ≤ count := by omega
      have hstep := h.write (bitsOf copied (value / 2 ^ (count - copied)))
      rw [length_bitsOf, bitsNat_bitsOf, ← take_bitsOf hle,
        ← hpiece hcount hleft (by omega) hcopied] at hstep
      have hrest := ih (by omega : count - copied ≤ rounds) (by omega)
        (hstep (by omega))
      rwa [← drop_bitsOf hle, append_assoc, take_append_drop] at hrest

/-- Writing a list item by item. -/
theorem Holds.foldl {A : Type} {step : Cells → A → Cells}
    {bitsFor : A → List Bool} (hstep : ∀ {taken c} a, Holds width taken c →
      Holds width (taken ++ bitsFor a) (step c a))
    (items : List A) (h : Holds width taken c) :
    Holds width (taken ++ items.flatMap bitsFor) (items.foldl step c) := by
  induction items generalizing taken c with
  | nil => simpa using h
  | cons head tail ih =>
    rw [flatMap_cons, ← append_assoc]
    exact ih (hstep head h)

end Cells

theorem length_flatMap_bitsOf {width : Nat} (values : List Nat) :
    (values.flatMap (bitsOf width)).length = width * values.length := by
  simp [length_flatMap, mul_comm]

/-- Fields of one width are read off a bit string in only one way. -/
theorem flatMap_bitsOf_inj {width : Nat} {left right : List Nat}
    {front back : List Bool} (h : left.flatMap (bitsOf width) ++ front =
      right.flatMap (bitsOf width) ++ back)
    (hleft : ∀ value ∈ left, value < 2 ^ width)
    (hright : ∀ value ∈ right, value < 2 ^ width)
    (hfront : front.length < width) (hback : back.length < width) :
    left = right ∧ front = back := by
  induction left generalizing right with
  | nil =>
    cases right with
    | nil => exact ⟨rfl, h⟩
    | cons head tail =>
      have hlength := congrArg length h
      simp at hlength
      omega
  | cons value left ih =>
    cases right with
    | nil =>
      have hlength := congrArg length h
      simp at hlength
      omega
    | cons head tail =>
      rw [flatMap_cons, flatMap_cons, append_assoc, append_assoc] at h
      obtain ⟨hhead, htail⟩ := append_inj h (by simp)
      rw [forall_mem_cons] at hleft hright
      have heq := congrArg bitsNat hhead
      rw [bitsNat_bitsOf_of_lt hleft.1, bitsNat_bitsOf_of_lt hright.1] at heq
      obtain ⟨rfl, rfl⟩ := ih htail hleft.2 hright.2
      exact ⟨by rw [heq], rfl⟩

theorem bitsOf_zero {width : Nat} : bitsOf width 0 = replicate width false := by
  induction width with
  | zero => rfl
  | succ width ih => simp [bitsOf, ih, replicate_succ]

theorem byteBits_map_ofNat (values : List Nat) :
    byteBits (values.map UInt8.ofNat) = values.flatMap (bitsOf 8) := by
  have hbyte : ∀ value, bitsOf 8 (value % 256) = bitsOf 8 value :=
    fun value => bitsOf_mod (le_refl 8)
  simp [byteBits, flatMap_map, hbyte]

theorem byteBits_zeros :
    byteBits (replicate count 0) = replicate (8 * count) false := by
  induction count with
  | zero => rfl
  | succ count ih =>
    rw [mul_succ, replicate_succ', byteBits_append, ih, replicate_add]
    rfl

theorem byteBits_inj (h : byteBits left = byteBits right) : left = right := by
  have hlength := congrArg length h
  rw [length_byteBits, length_byteBits] at hlength
  exact beNat_inj (by omega) (by rw [← bitsNat_byteBits, h, bitsNat_byteBits])

end BitStrings

namespace Sha256

open BigEndian

def add (left right : Nat) : Nat := (left + right) % 2 ^ 32

/-- Rotation of a word to the right. -/
def rotr (word count : Nat) : Nat :=
  (word >>> count ||| word <<< (32 - count)) % 2 ^ 32

variable (word : Nat)

def bigSigma0 : Nat := rotr word 2 ^^^ rotr word 13 ^^^ rotr word 22

def bigSigma1 : Nat := rotr word 6 ^^^ rotr word 11 ^^^ rotr word 25

def smallSigma0 : Nat := rotr word 7 ^^^ rotr word 18 ^^^ word >>> 3

def smallSigma1 : Nat := rotr word 17 ^^^ rotr word 19 ^^^ word >>> 10

def choice (e f g : Nat) : Nat := (e &&& f) ^^^ ((2 ^ 32 - 1 - e) &&& g)

def majority (a b c : Nat) : Nat := (a &&& b) ^^^ (a &&& c) ^^^ (b &&& c)

/-- The eight working variables. -/
structure State where
  a : Nat
  b : Nat
  c : Nat
  d : Nat
  e : Nat
  f : Nat
  g : Nat
  h : Nat
deriving Repr, DecidableEq

/-- The round constants: the first bits of the cube roots of the primes. -/
def roundConstants : List Nat :=
  [ 0x428a2f98, 0x71374491, 0xb5c0fbcf, 0xe9b5dba5, 0x3956c25b, 0x59f111f1,
    0x923f82a4, 0xab1c5ed5, 0xd807aa98, 0x12835b01, 0x243185be, 0x550c7dc3,
    0x72be5d74, 0x80deb1fe, 0x9bdc06a7, 0xc19bf174, 0xe49b69c1, 0xefbe4786,
    0x0fc19dc6, 0x240ca1cc, 0x2de92c6f, 0x4a7484aa, 0x5cb0a9dc, 0x76f988da,
    0x983e5152, 0xa831c66d, 0xb00327c8, 0xbf597fc7, 0xc6e00bf3, 0xd5a79147,
    0x06ca6351, 0x14292967, 0x27b70a85, 0x2e1b2138, 0x4d2c6dfc, 0x53380d13,
    0x650a7354, 0x766a0abb, 0x81c2c92e, 0x92722c85, 0xa2bfe8a1, 0xa81a664b,
    0xc24b8b70, 0xc76c51a3, 0xd192e819, 0xd6990624, 0xf40e3585, 0x106aa070,
    0x19a4c116, 0x1e376c08, 0x2748774c, 0x34b0bcb5, 0x391c0cb3, 0x4ed8aa4a,
    0x5b9cca4f, 0x682e6ff3, 0x748f82ee, 0x78a5636f, 0x84c87814, 0x8cc70208,
    0x90befffa, 0xa4506ceb, 0xbef9a3f7, 0xc67178f2 ]

/-- The initial state: the first bits of the square roots of the primes. -/
def initial : State :=
  ⟨0x6a09e667, 0xbb67ae85, 0x3c6ef372, 0xa54ff53a,
    0x510e527f, 0x9b05688c, 0x1f83d9ab, 0x5be0cd19⟩

/-- The message schedule, read off a window of its next sixteen words. -/
def schedule : Nat → List Nat → List Nat
  | 0, _ => []
  | count + 1, window =>
    let next := add (add (smallSigma1 (window.getD 14 0)) (window.getD 9 0))
      (add (smallSigma0 (window.getD 1 0)) (window.getD 0 0))
    window.getD 0 0 :: schedule count (window.tail ++ [next])

def round (s : State) (constant word : Nat) : State :=
  let t1 := add (add (add s.h (bigSigma1 s.e)) (choice s.e s.f s.g))
    (add constant word)
  let t2 := add (bigSigma0 s.a) (majority s.a s.b s.c)
  ⟨add t1 t2, s.a, s.b, s.c, add s.d t1, s.e, s.f, s.g⟩

def blockWords : Nat → List UInt8 → List Nat
  | 0, _ => []
  | count + 1, block => beNat (block.take 4) :: blockWords count (block.drop 4)

/-- The compression function on one block of 64 bytes. -/
def compress (s : State) (block : List UInt8) : State :=
  let out := (roundConstants.zip (schedule 64 (blockWords 16 block))).foldl
    (fun s kw => round s kw.1 kw.2) s
  ⟨add s.a out.a, add s.b out.b, add s.c out.c, add s.d out.d,
    add s.e out.e, add s.f out.f, add s.g out.g, add s.h out.h⟩

/-- The message followed by a one bit, zeros and its length in bits. -/
def pad (message : List UInt8) : List UInt8 :=
  message ++ [0x80] ++ List.replicate ((119 - message.length % 64) % 64) 0 ++
    beBytes 8 (8 * message.length)

def blocks : Nat → State → List UInt8 → State
  | 0, s, _ => s
  | count + 1, s, message =>
    blocks count (compress s (message.take 64)) (message.drop 64)

def digest (message : List UInt8) : List UInt8 :=
  let s := blocks ((pad message).length / 64) initial (pad message)
  beBytes 4 s.a ++ beBytes 4 s.b ++ beBytes 4 s.c ++ beBytes 4 s.d ++
    beBytes 4 s.e ++ beBytes 4 s.f ++ beBytes 4 s.g ++ beBytes 4 s.h

theorem length_digest (message : List UInt8) : (digest message).length = 32 := by
  simp [digest]

/-- The digest of `abc`. -/
example : beNat (digest [0x61, 0x62, 0x63]) =
    0xba7816bf8f01cfea414140de5dae2223b00361a396177a9cb410ff61f20015ad := by
  decide +kernel

end Sha256
