/-
The wire form of a version-two proof of space (`pos2/bits.rs`): 128 values of
`k` bits, packed without gaps.  The unpacker does not count the bits behind the
values, so that a proof is also accepted with zero bytes behind it.
-/
import DgXch.ProofOfSpace

namespace DgXch

open BigEndian BitStrings List Nat

/-- The values are `u32`, here numbers; a shift of one counts modulo 32, and the
cast to `u8` keeps eight bits. -/
def compactBits (xValues : List Nat) (k : Nat) : IoResult Bytes :=
  if k < 8 then
    .error (.panic "k below 8 would let trailing padding read as a value")
  else
    let c := xValues.foldl (fun (c : Cells) x => c.feed 8
        (fun xBits bitsLeft =>
      let copied := min xBits bitsLeft
      let chunk := x >>> ((xBits - copied) % 32) % 256 &&& (2 ^ copied - 1)
      chunk <<< (bitsLeft - copied)) k k) ⟨[], 0, 8⟩
    .ok ((if c.left < 8 then c.done ++ [c.cell] else c.done).map UInt8.ofNat)

/-- `byte_mask` is shifted along with the bits copied, so it is a function of
how many are left. -/
def expandBits (proof : Bytes) (k : Nat) : Option (List Nat) :=
  if k = 0 ∨ 32 < k then none
  else
    let c := proof.foldl (fun (c : Cells) byte => c.feed k
        (fun byteBits bitsLeft =>
      let low := byte.toNat &&& 0xFF >>> (8 - byteBits)
      if byteBits < bitsLeft then low <<< (bitsLeft - byteBits)
      else low >>> (byteBits - bitsLeft)) 8 8) ⟨[], 0, k⟩
    if c.cell = 0 then some c.done else none

def totalXsInProof : Nat := 128

/-- `ProofValidator` for a plot, when its parameters are valid: the links it
finds for 128 values and a challenge. -/
abbrev ProofValidator := Bytes32 → Nat → UInt8 → Bool →
  Option (List Nat → Bytes32 → Option (List UInt64))

def serializeQuality (fragments : List UInt64) (strength : UInt8) : Bytes :=
  strength :: fragments.flatMap fun fragment =>
    (beBytes 8 fragment.toNat).reverse

/-- `get_quality_string_v2`; `k` and `testnet` are constants of the chain. -/
def getQualityStringV2 (sha256 : HashFn) (validator : ProofValidator)
    (pos : ProofOfSpace) (plotId : Bytes32) (k : Nat) (testnet : Bool) :
    Option Bytes32 := do
  let validateFullProof ← validator plotId k pos.strength testnet
  let xs ← expandBits pos.proof k
  if xs.length = totalXsInProof then
    let fragments ← validateFullProof xs pos.challenge
    return sha256 (serializeQuality fragments pos.strength)
  else none

variable {k : Nat} {xs : List Nat} {proof : Bytes}

theorem compactBits_bits (xs : List Nat) (hlow : 8 ≤ k) (hhigh : k ≤ 32) :
    ∃ bytes pad, compactBits xs k = .ok bytes ∧ pad < 8 ∧
      byteBits bytes = xs.flatMap (bitsOf k) ++ replicate pad false := by
  rw [compactBits, if_neg (not_lt.mpr hlow)]
  extract_lets c
  have hholds : c.Holds 8 ([] ++ xs.flatMap (bitsOf k)) := by
    refine .foldl (fun x h => h.feed x ?_ (le_refl k) (le_refl k)) xs
      ⟨[], by simp [bitsNat]⟩
    rintro xBits bitsLeft copied hbits hpos hleft rfl
    dsimp only
    have hshift : xBits - min xBits bitsLeft < 32 := by omega
    rw [Nat.mod_eq_of_lt hshift, and_two_pow_sub_one_eq_mod, shiftLeft_eq,
      shiftRight_eq_div_pow]
    congr 1
    exact mod_mod_of_dvd _ (Nat.pow_dvd_pow 2 (min_le_of_right_le hleft))
  obtain ⟨tail, htaken, hwidth, hleft, hcell, -⟩ := hholds
  rw [nil_append] at htaken
  by_cases hpartial : c.left < 8
  · have hlast := bitsOf_add tail.length (bitsNat tail) 0
      (Nat.two_pow_pos c.left)
    rw [add_zero, hwidth, ← hcell, bitsOf_bitsNat, bitsOf_zero] at hlast
    refine ⟨_, c.left, rfl, hpartial, ?_⟩
    rw [if_pos hpartial, byteBits_map_ofNat, flatMap_append, htaken]
    simp [hlast]
  · obtain rfl := length_eq_zero_iff.mp (by omega : tail.length = 0)
    refine ⟨_, 0, rfl, by decide, ?_⟩
    rw [if_neg hpartial, byteBits_map_ofNat, htaken]
    simp

/-- A proof is unpacked into the values whose bits it begins with, when fewer
than `k` bits follow and these are zero. -/
theorem expandBits_eq_some_iff (hpos : 0 < k) (hhigh : k ≤ 32) :
    expandBits proof k = some xs ↔ (∀ x ∈ xs, x < 2 ^ k) ∧
      ∃ rest < k,
        byteBits proof = xs.flatMap (bitsOf k) ++ replicate rest false := by
  rw [expandBits, if_neg (by omega)]
  extract_lets c
  have hholds : c.Holds k ([] ++ byteBits proof) := by
    refine .foldl (fun byte h => h.feed byte.toNat ?_ (le_refl 8) (le_refl 8))
      proof ⟨[], by simp [bitsNat, hpos]⟩
    rintro byteBits bitsLeft copied hbits - - rfl
    dsimp only
    have hmask : 0xFF >>> (8 - byteBits) = 2 ^ byteBits - 1 := by
      interval_cases byteBits <;> rfl
    rw [hmask, and_two_pow_sub_one_eq_mod]
    split_ifs with hless
    · rw [min_eq_left hless.le, shiftLeft_eq]
      simp
    · have hle := not_lt.mp hless
      have hsplit : 2 ^ byteBits =
        2 ^ (byteBits - bitsLeft) * 2 ^ bitsLeft := by
        rw [← pow_add, Nat.sub_add_cancel hle]
      rw [min_eq_right hle, shiftRight_eq_div_pow, hsplit,
        mod_mul_right_div_self]
      simp
  obtain ⟨tail, htaken, hwidth, hleft, hcell, hfit⟩ := hholds
  rw [nil_append] at htaken
  constructor
  · intro hsome
    split_ifs at hsome with hzero
    cases hsome
    have hnone : bitsNat tail = 0 := by
      rw [hzero, eq_comm, mul_eq_zero] at hcell
      exact hcell.resolve_right (Nat.two_pow_pos _).ne'
    have htail := bitsOf_bitsNat tail
    rw [hnone, bitsOf_zero] at htail
    refine ⟨hfit, tail.length, by omega, ?_⟩
    rw [htail, htaken]
  · rintro ⟨hfits, rest, hrest, hproof⟩
    obtain ⟨hvalues, htail⟩ := flatMap_bitsOf_inj (htaken.symm.trans hproof)
      hfit hfits (by omega) (by simpa using hrest)
    have hzero : c.cell = 0 := by
      rw [hcell, htail, ← bitsOf_zero, bitsNat_bitsOf]
      simp
    rw [if_pos hzero, hvalues]

/-- What is packed is unpacked again. -/
theorem expandBits_compactBits (hlow : 8 ≤ k) (hhigh : k ≤ 32)
    (hfits : ∀ x ∈ xs, x < 2 ^ k) :
    ∃ bytes, compactBits xs k = .ok bytes ∧ expandBits bytes k = some xs := by
  obtain ⟨bytes, pad, hok, hpad, hbits⟩ := compactBits_bits xs hlow hhigh
  have hexpand := (expandBits_eq_some_iff (by omega) hhigh).mpr
    ⟨hfits, pad, by omega, hbits⟩
  exact ⟨bytes, hok, hexpand⟩

section Accepted

variable (hlow : 8 ≤ k) (hhigh : k ≤ 32)
  (hexpand : expandBits proof k = some xs) (hcount : xs.length = totalXsInProof)

include hlow hhigh hexpand hcount

/-- A proof of 128 values is the packed one exactly when it has its length. -/
theorem compactBits_eq_iff :
    compactBits xs k = .ok proof ↔ proof.length = 16 * k := by
  obtain ⟨bytes, pad, hok, hpad, hbytes⟩ := compactBits_bits xs hlow hhigh
  obtain ⟨-, rest, -, hproof⟩ :=
    (expandBits_eq_some_iff (by omega) hhigh).mp hexpand
  have hlength := congrArg length hbytes
  have hlength' := congrArg length hproof
  simp only [length_byteBits, length_append, length_flatMap_bitsOf, hcount,
    length_replicate, totalXsInProof] at hlength hlength'
  constructor
  · intro hsame
    obtain rfl : bytes = proof := Except.ok.inj (hok.symm.trans hsame)
    omega
  · intro hexact
    obtain rfl : rest = 0 := by omega
    obtain rfl : pad = 0 := by omega
    rw [hok, byteBits_inj (hbytes.trans hproof.symm)]

/-- Zero bytes behind it are not noticed. -/
theorem expandBits_append_zeros (hexact : proof.length = 16 * k) {extra : Nat}
    (hextra : 8 * extra < k) :
    expandBits (proof ++ replicate extra 0) k = some xs := by
  obtain ⟨hfits, rest, -, hproof⟩ :=
    (expandBits_eq_some_iff (by omega) hhigh).mp hexpand
  have hlength := congrArg length hproof
  simp only [length_byteBits, length_append, length_flatMap_bitsOf, hcount,
    length_replicate, totalXsInProof] at hlength
  obtain rfl : rest = 0 := by omega
  refine (expandBits_eq_some_iff (by omega) hhigh).mpr
    ⟨hfits, 8 * extra, hextra, ?_⟩
  rw [byteBits_append, hproof, byteBits_zeros, replicate_zero, append_nil]

end Accepted

/-- Packed values are unpacked again, and an accepted proof is the packed form
of its values exactly when it has `16 k` bytes; followed by zero bytes of less
than `k` bits, it is accepted as the same proof. -/
theorem proof_wire_form (hlow : 8 ≤ k) (hhigh : k ≤ 32) :
    (∀ xs : List Nat, (∀ x ∈ xs, x < 2 ^ k) →
      ∃ bytes, compactBits xs k = .ok bytes ∧ expandBits bytes k = some xs) ∧
    ∀ sha256 validator pos plotId testnet quality,
      getQualityStringV2 sha256 validator pos plotId k testnet =
        some quality →
      (∃ xs, expandBits pos.proof k = some xs ∧ xs.length = totalXsInProof ∧
        (compactBits xs k = .ok pos.proof ↔ pos.proof.length = 16 * k)) ∧
      (pos.proof.length = 16 * k → ∀ extra, 8 * extra < k →
        getQualityStringV2 sha256 validator
          { pos with proof := pos.proof ++ replicate extra 0 } plotId k
          testnet = some quality) := by
  refine ⟨fun xs hfits => expandBits_compactBits hlow hhigh hfits, ?_⟩
  intro sha256 validator pos plotId testnet quality haccepts
  obtain ⟨validate, -, hread⟩ := Option.bind_eq_some_iff.mp haccepts
  obtain ⟨xs, hexpand, hchecked⟩ := Option.bind_eq_some_iff.mp hread
  split_ifs at hchecked with hcount
  refine ⟨⟨xs, hexpand, hcount,
    compactBits_eq_iff hlow hhigh hexpand hcount⟩, ?_⟩
  intro hexact extra hextra
  have hsame := expandBits_append_zeros hlow hhigh hexpand hcount hexact hextra
  rw [← haccepts, getQualityStringV2, getQualityStringV2, hsame, hexpand]

section Recorded

def recordedPlotId : Bytes32 :=
  ⟨beBytes 32
    0x0123456789ABCDEF0123456789ABCDEF0123456789ABCDEF0123456789ABCDEF,
    length_beBytes _ _⟩

def recordedBytes : Bytes :=
  [0xe1f2a972453be5d7b941ab6af512678cfd2eb98fd6203ce22e194e593b6fa2a1,
    0x2d712e6f4c4ef358ec91fd86e5a735525e999ab8bd9114cfa8c9f1092e904f57,
    0x83b180d5939ff7eb7fb6824d654cae8a219b6499356f790b2a88e38ba3c6e0bc,
    0x8d3dc6dd77dc60aa65a178845613bc89ab3cd732788b1d2c405b738548d6bce2,
    0xea9203caa8b958d345f0bc5ff4a60e7e5745f192552b1c6b347a62ab52628c47,
    0xb4282e0ecaa0c8d4ba3d18654332fdb97b2aea25fe142bdd82b389f2b711e086,
    0xbe41c97ec9e0e826780b6f35021dd2291f007e40d91edecd382feff1113b963d,
    0x4105d774ee5092549f2f00c84d9b90ba60c111d9bbfb7f7d34df9acf4a454427,
    0x98636706659d7c0ef05e8c866b53deacbbf6a6bd509e7af64fea03bd598e4395].flatMap
      (beBytes 32)

/-- The proof for a plot of size 18 that the tests record. -/
def recordedProof : ProofOfSpace where
  challenge := ⟨1 :: replicate 31 0, rfl⟩
  poolPublicKey := none
  poolContractPuzzleHash := some Bytes32.default
  plotPublicKey := ⟨replicate 48 0, length_replicate⟩
  version := 1
  plotIndex := 0
  metaGroup := 0
  strength := 2
  size := 0
  proof := recordedBytes

def recordedFragments : List UInt64 :=
  [25078806449, 118437799, 50946205485, 27200007405, 25066125455, 125785320,
    50940638819, 27210765036, 25075426666, 119333627, 50943925885, 27208104175,
    25065941201, 133143305, 50944978770, 27201925752]

/-- The verdict on the recorded proof; nothing else is accepted. -/
def recordedValidator : ProofValidator := fun plotId k strength testnet =>
  if plotId = recordedPlotId ∧ k = 18 ∧ strength = 2 ∧ testnet = false then
    some fun xs challenge =>
      if some xs = expandBits recordedBytes 18 ∧
          challenge = recordedProof.challenge then some recordedFragments
      else none
  else none

/-- A stand-in for the hash: the first bytes of its input. -/
def leadingBytes (input : Bytes) : Bytes32 := .ofVec (input.take 32)

theorem proof_wire_form_at_recorded :
    ∃ xs, expandBits recordedProof.proof 18 = some xs ∧
      xs.length = totalXsInProof ∧
      (compactBits xs 18 = .ok recordedProof.proof ↔
        recordedProof.proof.length = 16 * 18) :=
  (proof_wire_form (by decide) (by decide)).2 leadingBytes recordedValidator
    recordedProof recordedPlotId false
    (leadingBytes (serializeQuality recordedFragments 2))
    (by decide +kernel) |>.1

/-- With one more zero byte the recorded proof is accepted again, with the same
quality string, though its values are packed into the shorter one. -/
theorem longer_proof_accepted :
    let longer := { recordedProof with proof := recordedBytes ++ [0] }
    (getQualityStringV2 leadingBytes recordedValidator recordedProof
      recordedPlotId 18 false).isSome ∧
    getQualityStringV2 leadingBytes recordedValidator longer recordedPlotId 18
        false =
      getQualityStringV2 leadingBytes recordedValidator recordedProof
        recordedPlotId 18 false ∧
    (expandBits longer.proof 18).map (compactBits · 18) =
      some (.ok recordedBytes) := by
  decide +kernel

end Recorded

end DgXch
