/-
Honest proofs verify.  Every form the prover handles is a power of the input, so
its loops are followed in the exponent: the passes over the buckets build
`2 ^ t / b` from its digits, and the verifier multiplies the witness back to
`x ^ (2 ^ t)`.
-/
import DgXch.Wesolowski
import DgXch.WindowedSums

namespace DgXch

open ClassForms Finset List DgXch.Except Nat BigEndian WindowedSums

variable {segments : List VdfSegment} {n t kl : Nat}
  {weights : Nat → Nat} {indices : List Nat} {i : Nat} {front back : Bytes}
  {final : Bytes}

variable {D : Type} {G : D → Type} [∀ d, CommGroup (G d)] {seams : VdfSeams D G}
  {d : D}

section Prover

theorem ceil_succ (hkl : 0 < kl) :
    (t + 1 + kl - 1) / kl =
      if t % kl = 0 then (t + kl - 1) / kl + 1 else (t + kl - 1) / kl := by
  have hone : t + 1 + kl - 1 = t + kl - 1 + 1 := by omega
  have hdvd : kl ∣ t + kl - 1 + 1 ↔ t % kl = 0 := by
    rw [Nat.sub_add_cancel (by omega), Nat.dvd_add_self_right,
      Nat.dvd_iff_mod_eq_zero]
  rw [hone, Nat.succ_div, if_congr hdvd rfl rfl]
  split_ifs <;> rfl

abbrev rowCount (t kl : Nat) : Nat := (t + kl - 1) / kl

/-- Every `kl`-th form of the squaring loop. -/
abbrev keptForms (x : G d) (t kl : Nat) : List (G d) :=
  (List.range (rowCount t kl)).map fun i => x ^ 2 ^ (i * kl)

theorem squareRun_eq (x : G d) (hkl : 0 < kl) :
    squareRun x t kl = (x ^ 2 ^ t, keptForms x t kl) := by
  unfold squareRun keptForms rowCount
  induction t with
  | zero =>
    rw [show (0 + kl - 1) / kl = 0 from div_eq_of_lt (by omega)]
    simp
  | succ t ih =>
    rw [range_succ, foldl_append, ih, foldl_cons, foldl_nil, ceil_succ hkl]
    apply Prod.ext
    · rw [pow_succ 2 t, pow_mul, pow_two]
    · dsimp only
      split_ifs with hmod
      · have hindex : (t + kl - 1) / kl * kl = t := by
          have hdvd : kl ∣ t := dvd_of_mod_eq_zero hmod
          obtain ⟨q, rfl⟩ := hdvd
          rw [show kl * q + kl - 1 = kl * q + (kl - 1) by omega,
            mul_add_div hkl, div_eq_of_lt (by omega), add_zero, mul_comm]
        rw [range_succ, map_append]
        simp [hindex]
      · rfl

/-- A fold that adds to the exponent. -/
theorem foldlM_range_pow {g : G d} {step : G d → Nat → Except VdfError (G d)}
    {f : Nat → Nat} (hstep : ∀ i < n, ∀ e, step (g ^ e) i = .ok (g ^ (e + f i)))
    (e : Nat) :
    (List.range n).foldlM step (g ^ e) =
      .ok (g ^ (e + ∑ i ∈ range n, f i)) := by
  induction n with
  | zero => rfl
  | succ n ih =>
    rw [range_succ, foldlM_append, ih fun i hi => hstep i (by omega)]
    simp only [foldlM_cons, foldlM_nil, bind_ok]
    rw [hstep n (by omega), Finset.sum_range_succ, add_assoc]
    rfl

section

variable {g : G d} {ys : List (G d)}
  (h : ∀ v ∈ indices, ys.getD v 1 = g ^ weights v)

include h

theorem foldl_mul_getD (e : Nat) :
    indices.foldl (fun z index => z * ys.getD index 1) (g ^ e) =
      g ^ (e + (indices.map weights).sum) := by
  induction indices generalizing e with
  | nil => rfl
  | cons index indices ih =>
    rw [foldl_cons, h index mem_cons_self, ← pow_add,
      ih fun v hv => h v (List.mem_cons_of_mem _ hv), List.map_cons,
      List.sum_cons, add_assoc]

theorem raiseBuckets_pow (weight e : Nat) :
    raiseBuckets ys indices weight (g ^ e) =
      .ok (g ^ (e + (indices.map weights).sum * weight)) := by
  have hfold := foldl_mul_getD h 0
  rw [pow_zero, zero_add] at hfold
  unfold raiseBuckets
  rw [hfold, fastPowForm_eq, bind_ok, ← pow_mul, ← pow_add]

end

theorem sum_map_range (f : Nat → Nat) :
    ((List.range n).map f).sum = ∑ i ∈ range n, f i :=
  rfl

/-- The digit of `2 ^ t / b` that goes into the bucket of row `i`, in pass
`j`. -/
def rowDigit (t k l b j i : Nat) : Nat :=
  2 ^ t / b / 2 ^ (k * (i * l + j)) % 2 ^ k

/-- The exponent of the intermediate of row `i`; nothing where the block is not
full. -/
def rowWeight (t k l j i : Nat) : Nat :=
  if k * (i * l + j + 1) ≤ t then 2 ^ (i * (k * l)) else 0

/-- What a pass may rely on: a divisor larger than a window, and block ends that
fit in 64 bits. -/
structure PassFits (t k l b : Nat) : Prop where
  window : 0 < k
  stride : 0 < l
  narrow : k < 64
  divisor : 2 ^ k ≤ b
  ends : ∀ i < (t + k * l - 1) / (k * l), ∀ j < l,
    k * (i * l + j + 1) < 2 ^ 64

variable {k l b j : Nat}

section Pass

variable {g : G d} (hfits : PassFits t k l b) (hj : j < l)

include hfits hj

theorem getBlock_eq (hi : i < rowCount t (k * l))
    (hfull : k * (i * l + j + 1) ≤ t) :
    getBlock (i * l + j) k t b = .ok (rowDigit t k l b j i) := by
  have hb : 0 < b := (Nat.two_pow_pos k).trans_le hfits.divisor
  have hend : blockEnd k (i * l + j) = k * (i * l + j + 1) :=
    mod_eq_of_lt (hfits.ends i hi j hj)
  have hdigit := digit_of_quotient hb hfull
  have hlt : rowDigit t k l b j i < 2 ^ 64 :=
    (mod_lt _ (Nat.two_pow_pos k)).trans_le
      (Nat.pow_le_pow_right (by decide) hfits.narrow.le)
  unfold getBlock fastPowMod
  rw [if_neg hb.ne', bind_ok, hend, hdigit]
  exact congrArg Except.ok (mod_eq_of_lt hlt)

/-- One intermediate goes into the bucket of its digit. -/
theorem fillBucket_eq {ys : List (G d)} (hi : i < rowCount t (k * l))
    (hlength : ys.length = 2 ^ k) :
    ∃ ys', fillBucket (keptForms g t (k * l)) t k l j b ys i = .ok ys' ∧
      ys'.length = 2 ^ k ∧
      ∀ v, ys'.getD v 1 = ys.getD v 1 *
        g ^ (if rowDigit t k l b j i = v then rowWeight t k l j i else 0) := by
  have hend : blockEnd k (i * l + j) = k * (i * l + j + 1) :=
    mod_eq_of_lt (hfits.ends i hi j hj)
  unfold fillBucket
  rw [hend]
  by_cases hfull : k * (i * l + j + 1) ≤ t
  · have hdigit : rowDigit t k l b j i < ys.length := by
      rw [hlength]
      exact mod_lt _ (Nat.two_pow_pos k)
    have hform : (keptForms g t (k * l))[i]? =
        some (g ^ 2 ^ (i * (k * l))) := by
      rw [getElem?_map, getElem?_range hi]
      rfl
    rw [if_pos hfull, getBlock_eq hfits hj hi hfull, bind_ok,
      if_neg (not_le.mpr hdigit), hform]
    refine ⟨_, rfl, by rw [length_modify, hlength], ?_⟩
    intro v
    rw [getD_eq_getElem?_getD, getD_eq_getElem?_getD, getElem?_modify]
    unfold rowWeight
    rw [if_pos hfull]
    by_cases hv : rowDigit t k l b j i = v
    · subst hv
      simp [getElem?_eq_getElem hdigit]
    · simp [hv]
  · rw [if_neg hfull]
    refine ⟨ys, rfl, hlength, ?_⟩
    intro v
    unfold rowWeight
    rw [if_neg hfull]
    simp

/-- The buckets after some rows. -/
theorem foldlM_fillBucket (hn : n ≤ rowCount t (k * l)) :
    ∃ ys, (List.range n).foldlM (fillBucket (keptForms g t (k * l)) t k l j b)
        (replicate (2 ^ k) 1) = .ok ys ∧
      ys.length = 2 ^ k ∧
      ∀ v, ys.getD v 1 = g ^ ∑ i ∈ range n,
        if rowDigit t k l b j i = v then rowWeight t k l j i else 0 := by
  induction n with
  | zero =>
    refine ⟨_, rfl, length_replicate, ?_⟩
    intro v
    rw [getD_eq_getElem?_getD, getElem?_replicate]
    split_ifs <;> simp
  | succ n ih =>
    obtain ⟨ys, hys, hlength, hvalue⟩ := ih (by omega)
    obtain ⟨ys', hys', hlength', hvalue'⟩ :=
      fillBucket_eq (g := g) hfits hj (show n < _ by omega) hlength
    refine ⟨ys', ?_, hlength', ?_⟩
    · rw [range_succ, foldlM_append, hys, bind_ok, foldlM_cons, hys']
      rfl
    · intro v
      rw [hvalue', hvalue, ← pow_add, Finset.sum_range_succ]

/-- One pass shifts the exponent by a window and adds a column of digits. -/
theorem wesolowskiPass_eq (e : Nat) :
    wesolowskiPass (keptForms g t (k * l)) t k l b (g ^ e) j =
      .ok (g ^ (e * 2 ^ k + ∑ i ∈ range (rowCount t (k * l)),
        rowDigit t k l b j i * rowWeight t k l j i)) := by
  obtain ⟨ys, hys, -, hvalue⟩ := foldlM_fillBucket (g := g) hfits hj le_rfl
  let weights : Nat → Nat := fun v => ∑ i ∈ range (rowCount t (k * l)),
      if rowDigit t k l b j i = v then rowWeight t k l j i else 0
  have hbuckets : ∀ indices : List Nat, ∀ v ∈ indices,
      ys.getD v 1 = g ^ weights v := fun _ v _ => hvalue v
  -- the loop over the high digits and the one over the low digits
  have hraise : ∀ n width (index : Nat → Nat → Nat) (digit : Nat → Nat) e,
      (List.range n).foldlM (fun x b => raiseBuckets ys
        ((List.range width).map (index b)) (digit b) x) (g ^ e) =
      .ok (g ^ (e + ∑ b ∈ range n,
        (∑ c ∈ range width, weights (index b c)) * digit b)) := by
    intro n width index digit
    apply foldlM_range_pow
    intro b _ e
    rw [raiseBuckets_pow (hbuckets _), List.map_map, sum_map_range]
    rfl
  have hsum := sum_buckets weights (2 ^ (k / 2)) (2 ^ (k - k / 2))
  have hfell : ∑ v ∈ range (2 ^ k), weights v * v =
      ∑ i ∈ range (rowCount t (k * l)),
        rowDigit t k l b j i * rowWeight t k l j i :=
    sum_bucketed _ _ _ _ fun i _ => mod_lt _ (Nat.two_pow_pos k)
  rw [← pow_add, Nat.add_sub_cancel' (Nat.div_le_self k 2), hfell] at hsum
  unfold wesolowskiPass
  dsimp only
  rw [fastPowForm_eq, bind_ok, hys, bind_ok, ← pow_mul, hraise,
    bind_ok, hraise, add_assoc, hsum]

end Pass

theorem foldlM_passes {g : G d} (hfits : PassFits t k l b) (hn : n ≤ l)
    (e : Nat) :
    (List.range n).reverse.foldlM
        (wesolowskiPass (keptForms g t (k * l)) t k l b) (g ^ e) =
      .ok (g ^ (List.range n).reverse.foldl (fun e j => e * 2 ^ k +
        ∑ i ∈ range (rowCount t (k * l)),
          rowDigit t k l b j i * rowWeight t k l j i) e) := by
  induction n generalizing e with
  | zero => rfl
  | succ n ih =>
    rw [range_succ, reverse_append, reverse_singleton,
      singleton_append, foldlM_cons, foldl_cons,
      wesolowskiPass_eq hfits (by omega), bind_ok, ih (by omega)]

/-- The witness is the input to the power `2 ^ t / b`. -/
theorem generateWesolowski_eq {x : G d}
    (hb : getB seams x (x ^ 2 ^ t) = .ok b) (hfits : PassFits t k l b) :
    generateWesolowski seams (x ^ 2 ^ t) x (keptForms x t (k * l)) t k l =
      .ok (x ^ (2 ^ t / b)) := by
  have hkl : 0 < k * l := mul_pos hfits.window hfits.stride
  have hrows : t ≤ (t + k * l - 1) / (k * l) * (k * l) := by
    have := div_add_mod (t + k * l - 1) (k * l)
    have := mod_lt (t + k * l - 1) hkl
    rw [mul_comm]
    omega
  have hpasses := foldlM_passes (g := x) hfits le_rfl 0
  rw [foldl_horner, zero_mul, zero_add] at hpasses
  have hcolumns := sum_columns hfits.window hfits.divisor hrows
  unfold generateWesolowski
  rw [hb, bind_ok, if_neg (not_le.mpr hfits.narrow), ← pow_zero x, hpasses]
  congr 2
  rw [← hcolumns]
  apply sum_congr rfl
  intro j _
  congr 1
  apply sum_congr rfl
  intro i _
  unfold rowDigit rowWeight
  split_ifs <;> simp

/-- What is assumed of the seams: an encoded form is read back, the hash is a
number of 264 bits, a discriminant has at most 1024 bits, and a window of at
most 20 bits is only estimated for iteration counts that leave room in 64
bits. -/
structure VdfSeams.Lawful (seams : VdfSeams D G) : Prop where
  roundTrip : ∀ {d : D} {form : G d} {bytes : Bytes},
    seams.serialize form = .ok bytes →
      bytes.length = formSize ∧ seams.deserialize d bytes = .ok form
  prime : ∀ bytes, 2 ^ 263 ≤ seams.hashPrime bytes ∧
    seams.hashPrime bytes < 2 ^ 264
  bits : ∀ challenge sizeBits d,
    seams.createDiscriminant challenge sizeBits = .ok d →
      0 < seams.bitLen d ∧ seams.bitLen d ≤ 1024
  estimate : ∀ t, (seams.estimate t).2 ≤ 20 →
    t + (seams.estimate t).2 * (seams.estimate t).1 ≤ 2 ^ 64

omit [∀ d, CommGroup (G d)] in
theorem getB_range (hlawful : seams.Lawful) {x y : G d}
    (h : getB seams x y = .ok b) : 2 ^ 263 ≤ b ∧ b < 2 ^ 264 := by
  obtain ⟨xBytes, -, h⟩ := bind_eq_ok.mp h
  obtain ⟨yBytes, -, h⟩ := bind_eq_ok.mp h
  cases h
  exact hlawful.prime _

omit [∀ d, CommGroup (G d)] in
theorem getB_ne_zero (hlawful : seams.Lawful) {x y : G d}
    (h : getB seams x y = .ok b) : b ≠ 0 := by
  have hrange := (getB_range hlawful h).1
  rintro rfl
  exact absurd (Nat.le_zero.mp hrange) (Nat.two_pow_pos _).ne'

omit [∀ d, CommGroup (G d)] in
theorem approximateParameters_ok (hlawful : seams.Lawful)
    (h : approximateParameters seams t = .ok (l, k)) :
    0 < l ∧ 0 < k ∧ k ≤ 20 ∧ t + k * l ≤ 2 ^ 64 := by
  unfold approximateParameters at h
  split_ifs at h with hzero
  · cases h
    subst hzero
    decide
  · have hroom := hlawful.estimate t
    rcases hestimate : seams.estimate t with ⟨l', k'⟩
    rw [hestimate] at h hroom
    dsimp only at h
    split_ifs at h with hbad
    cases h
    simp only [not_or, not_lt] at hbad
    obtain ⟨hl, hk, hle⟩ := hbad
    exact ⟨pos_of_ne_zero hl, pos_of_ne_zero hk, hle, hroom hle⟩

theorem passFits (hl : 0 < l) (hk : 0 < k) (hle : k ≤ 20)
    (hroom : t + k * l ≤ 2 ^ 64) (hb : 2 ^ 263 ≤ b) : PassFits t k l b := by
  constructor
  · exact hk
  · exact hl
  · omega
  · exact (Nat.pow_le_pow_right (by decide) (by omega)).trans hb
  · intro i hi j hj
    have hrow : k * (i * l + j + 1) ≤ (i + 1) * (k * l) := by
      calc k * (i * l + j + 1) ≤ k * (i * l + l) :=
            Nat.mul_le_mul_left k (by omega)
        _ = (i + 1) * (k * l) := by ring
    have hrows : (i + 1) * (k * l) ≤ t + k * l - 1 :=
      (Nat.mul_le_mul_right _ hi).trans (Nat.div_mul_le_self _ _)
    have hkl : 0 < k * l := mul_pos hk hl
    omega

/-- Some bytes encode the result of `t` squarings and its witness. -/
def EncodesRun (seams : VdfSeams D G) (x : G d) (t : Nat) (bytes : Bytes) :
    Prop :=
  ∃ b yBytes witnessBytes, getB seams x (x ^ 2 ^ t) = .ok b ∧
    seams.serialize (x ^ 2 ^ t) = .ok yBytes ∧
    seams.serialize (x ^ (2 ^ t / b)) = .ok witnessBytes ∧
    bytes = yBytes ++ witnessBytes

theorem proveWithDiscriminant_encodes (hlawful : seams.Lawful) {x : G d}
    {bytes : Bytes} (h : proveWithDiscriminant seams x t = .ok bytes) :
    EncodesRun seams x t bytes := by
  obtain ⟨⟨l, k⟩, hparams, h⟩ := bind_eq_ok.mp h
  obtain ⟨hl, hk, hle, hroom⟩ := approximateParameters_ok hlawful hparams
  dsimp only at h
  split_ifs at h
  rw [squareRun_eq x (mul_pos hk hl)] at h
  obtain ⟨witness, hwitness, h⟩ := bind_eq_ok.mp h
  obtain ⟨b, hb, -⟩ := bind_eq_ok.mp hwitness
  have hfits := passFits hl hk hle hroom (getB_range hlawful hb).1
  rw [generateWesolowski_eq hb hfits] at hwitness
  cases hwitness
  obtain ⟨yBytes, hy, h⟩ := bind_eq_ok.mp h
  obtain ⟨witnessBytes, hw, h⟩ := bind_eq_ok.mp h
  cases h
  exact ⟨b, yBytes, witnessBytes, hb, hy, hw, rfl⟩

end Prover

variable {parallel : Bool}

section Verifier

variable {b : Nat}

/-- Both ways to compute the product agree. -/
theorem powPairProduct_eq (witness : G d) (witnessExp : Nat) (x : G d)
    (xExp : Nat) :
    powPairProduct witness witnessExp x xExp parallel =
      .ok (witness ^ witnessExp * x ^ xExp) := by
  unfold powPairProduct
  split_ifs
  · rw [fastPowForm_eq, fastPowForm_eq]
    rfl
  · rw [fastPowFormPair_eq]

/-- The witness and the remainder multiply back to the result. -/
theorem witness_mul_remainder (x : G d) :
    (x ^ (2 ^ t / b)) ^ b * x ^ (2 ^ t % b) = x ^ 2 ^ t := by
  rw [← pow_mul, ← pow_add, div_add_mod' (2 ^ t) b]

theorem verifySegment_honest (hlawful : seams.Lawful) {x : G d}
    (hb : getB seams x (x ^ 2 ^ t) = .ok b) :
    verifySegment seams x (x ^ (2 ^ t / b)) b t parallel = .ok (x ^ 2 ^ t) := by
  have hpos := getB_ne_zero hlawful hb
  unfold verifySegment fastPowMod
  rw [if_neg hpos, bind_ok, powPairProduct_eq, bind_ok,
    witness_mul_remainder, hb, bind_ok, if_pos rfl]

variable [∀ d, DecidableEq (G d)]

theorem verifyWesolowski_honest (hlawful : seams.Lawful) {x : G d}
    (hb : getB seams x (x ^ 2 ^ t) = .ok b) :
    verifyWesolowski seams x (x ^ 2 ^ t) (x ^ (2 ^ t / b)) t parallel =
      .ok () := by
  have hpos := getB_ne_zero hlawful hb
  unfold verifyWesolowski fastPowMod
  rw [hb, bind_ok, if_neg hpos, bind_ok, powPairProduct_eq,
    bind_ok, witness_mul_remainder, if_pos rfl]

end Verifier

section Segments

structure VdfSegment where
  iterations : Nat
  b : Nat
  witness : Bytes

def VdfSegment.bytes (s : VdfSegment) : Bytes :=
  BigEndian.beBytes 8 s.iterations ++ BigEndian.beBytes bBytes s.b ++ s.witness

/-- Honest segments that lead from one form to another. -/
def HonestSegments (seams : VdfSeams D G) {d : D} :
    G d → List VdfSegment → G d → Prop
  | x, [], z => z = x
  | x, s :: rest, z =>
    s.iterations < 2 ^ 64 ∧
    getB seams x (x ^ 2 ^ s.iterations) = .ok s.b ∧
    seams.serialize (x ^ (2 ^ s.iterations / s.b)) = .ok s.witness ∧
    HonestSegments seams (x ^ 2 ^ s.iterations) rest z

/-- A proof: the final pair of forms, then the segments, the first one last. -/
def proofBytes (final : Bytes) (segments : List VdfSegment) : Bytes :=
  final ++ segments.reverse.flatMap VdfSegment.bytes

def segmentSum (segments : List VdfSegment) : Nat :=
  (segments.map VdfSegment.iterations).sum

theorem slice_append_left {start len : Nat} (h : start + len ≤ front.length) :
    slice (front ++ back) start len = slice front start len := by
  unfold slice
  rw [drop_append_of_le_length (by omega), take_append_of_le_length]
  rw [length_drop]
  omega

/-- The bytes of a segment behind everything that is read later. -/
theorem slice_segment (s : VdfSegment) {start : Nat}
    (hstart : front.length = start) (hiterations : s.iterations < 2 ^ 64)
    (hb : s.b < 2 ^ 264) (hwitness : s.witness.length = formSize) :
    beNat (slice (front ++ s.bytes) start 8) = s.iterations ∧
      beNat (slice (front ++ s.bytes) (start + 8) bBytes) = s.b ∧
      slice (front ++ s.bytes) (start + 8 + bBytes) formSize = s.witness := by
  have hwide : (beBytes 8 s.iterations).length = 8 := length_beBytes 8 _
  have hprime : (beBytes bBytes s.b).length = bBytes := length_beBytes bBytes _
  subst hstart
  unfold slice VdfSegment.bytes
  refine ⟨?_, ?_, ?_⟩
  · rw [drop_left, append_assoc, take_left' hwide, beNat_beBytes, mod_eq_of_lt]
    exact hiterations
  · rw [← drop_drop, drop_left, append_assoc, drop_left' hwide,
      take_left' hprime, beNat_beBytes, mod_eq_of_lt]
    exact hb
  · rw [add_assoc, ← drop_drop, drop_left,
      drop_left' (by rw [length_append, hwide, hprime]),
      ← hwitness, take_length]

/-- Reading `n` segments does not look past them. -/
theorem checkSegments_append (h : formSize * 2 + n * segmentLen ≤ front.length)
    (x : G d) (iterations : Nat) :
    checkSegments seams d (front ++ back) parallel n x iterations =
      checkSegments seams d front parallel n x iterations := by
  induction n generalizing x iterations with
  | zero => rfl
  | succ n ih =>
    have hsegment : segmentLen = 8 + bBytes + formSize := rfl
    rw [succ_mul] at h
    simp (disch := omega) only [checkSegments, slice_append_left]
    congr 1
    funext proofForm
    congr 1
    funext y
    split_ifs
    · rfl
    · exact ih (by omega) y _

theorem length_segment {x z : G d} {s : VdfSegment} {rest : List VdfSegment}
    (hlawful : seams.Lawful) (h : HonestSegments seams x (s :: rest) z) :
    s.bytes.length = segmentLen := by
  obtain ⟨-, -, hwitness, -⟩ := h
  unfold VdfSegment.bytes segmentLen
  rw [length_append, length_append, length_beBytes,
    length_beBytes, (hlawful.roundTrip hwitness).1]

variable {x z : G d} (hlawful : seams.Lawful)
  (h : HonestSegments seams x segments z)

include hlawful h

theorem length_proofBytes (hfinal : final.length = formSize * 2) :
    (proofBytes final segments).length =
      formSize * 2 + segments.length * segmentLen := by
  unfold proofBytes
  induction segments generalizing x with
  | nil => simp [hfinal]
  | cons s rest ih =>
    have hrest := ih h.2.2.2
    simp only [reverse_cons, flatMap_append, flatMap_cons,
      flatMap_nil, append_nil, length_append] at hrest ⊢
    rw [length_segment hlawful h, length_cons, succ_mul]
    omega

/-- What the loop does with honest segments: it comes to the last form with the
remaining iterations, or stops where they run out. -/
theorem checkSegments_honest (hfinal : final.length = formSize * 2)
    (parallel : Bool) (iterations : Nat) :
    checkSegments seams d (proofBytes final segments) parallel segments.length x
        iterations =
      if segmentSum segments ≤ iterations then
        .ok (z, iterations - segmentSum segments)
      else .error .invalidSegmentIterations := by
  induction segments generalizing x iterations with
  | nil =>
    obtain rfl : z = x := h
    simp [checkSegments, segmentSum]
  | cons s rest ih =>
    obtain ⟨hiterations, hb, hwitness, hrest⟩ := h
    have hlength := length_proofBytes hlawful hrest hfinal
    have hlayout : proofBytes final (s :: rest) =
        proofBytes final rest ++ s.bytes := by
      simp [proofBytes]
    obtain ⟨hfirst, hsecond, hthird⟩ := slice_segment s hlength hiterations
      (getB_range hlawful hb).2 (hlawful.roundTrip hwitness).1
    have hsum : segmentSum (s :: rest) = s.iterations + segmentSum rest := rfl
    rw [hlayout, length_cons]
    unfold checkSegments
    dsimp only
    rw [hfirst, hsecond, hthird, (hlawful.roundTrip hwitness).2,
      bind_ok, verifySegment_honest hlawful hb, bind_ok,
      checkSegments_append hlength.ge, ih hrest, hsum]
    by_cases hfew : iterations < s.iterations
    · rw [if_pos hfew, if_neg (by omega)]
    · rw [if_neg hfew]
      by_cases henough : s.iterations + segmentSum rest ≤ iterations
      · rw [if_pos henough, if_pos (by omega), Nat.sub_sub]
      · rw [if_neg henough, if_neg (by omega)]

variable [∀ d, DecidableEq (G d)]

/-- Honest segments with an honest final proof, for the sum of all iterations. -/
theorem checkNWesolowski_honest {x_s : Bytes}
    (hbits : 0 < seams.bitLen d ∧ seams.bitLen d ≤ 1024)
    (hx : seams.deserialize d x_s = .ok x) (hrun : EncodesRun seams z t final)
    (hmemory : (proofBytes final segments).length < 2 ^ 64) :
    checkNWesolowski seams d x_s (proofBytes final segments)
      (segmentSum segments + t) segments.length parallel = .ok () := by
  obtain ⟨b, yBytes, witnessBytes, hb, hy, hw, rfl⟩ := hrun
  obtain ⟨hyLength, hyForm⟩ := hlawful.roundTrip hy
  obtain ⟨hwLength, hwForm⟩ := hlawful.roundTrip hw
  have hfinal : (yBytes ++ witnessBytes).length = formSize * 2 := by
    rw [length_append, hyLength, hwLength, mul_two]
  have hlength := length_proofBytes hlawful h hfinal
  rw [mul_comm segments.length] at hlength
  have hfirst : slice (proofBytes (yBytes ++ witnessBytes) segments) 0 formSize =
      yBytes := by
    unfold proofBytes slice
    rw [drop_zero, append_assoc, take_left' hyLength]
  have hsecond : slice (proofBytes (yBytes ++ witnessBytes) segments) formSize
      formSize = witnessBytes := by
    unfold proofBytes slice
    rw [append_assoc, drop_left' hyLength, take_left' hwLength]
  have hsegments := checkSegments_honest hlawful h hfinal parallel
    (segmentSum segments + t)
  rw [if_pos (Nat.le_add_right _ _), Nat.add_sub_cancel_left] at hsegments
  unfold checkNWesolowski
  rw [if_neg (by omega), if_neg (not_or.mpr
    ⟨not_le.mpr (hlength ▸ hmemory), not_not.mpr hlength⟩), hx, bind_ok,
    hsegments, bind_ok]
  dsimp only
  rw [hfirst, hyForm, bind_ok, hsecond, hwForm, bind_ok,
    verifyWesolowski_honest hlawful hb]

end Segments

end DgXch
