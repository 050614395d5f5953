/-
The verifier of a version-one proof of space: the 64 x values are unpacked
from the proof, evaluated by f1, propagated in place through the six further
tables, and the f7 they reach is compared with the challenge.  The propagation
computes a tree over the x values.  BLAKE3, ChaCha8 and SHA-256 are parameters.
-/
import DgXch.BitReader
import DgXch.ListTrees

open BigEndian BitStrings PairTree

namespace DgXch

/-- One block of a ChaCha8 key stream. -/
structure KeystreamBlock where
  bytes : Bytes
  length_eq : bytes.length = 64

/-- The hash functions of the verifier.  `keystream` is
`chacha8_get_keystream` of one block, after `chacha8_keysetup`. -/
structure PlotHashes where
  keystream : Bytes → UInt64 → KeystreamBlock
  blake3 : HashFn
  sha256 : HashFn

/-- The tables a proof is propagated through. -/
inductive PlotTable where
  | table2
  | table3
  | table4
  | table5
  | table6
  | table7
deriving Repr, DecidableEq

def PlotTable.metaOutMultiplier : PlotTable → Nat
  | .table2 => 2
  | .table3 => 4
  | .table4 => 4
  | .table5 => 3
  | .table6 => 2
  | .table7 => 0

def kExtraBits : Nat := 6
def kB : Nat := 119
def kC : Nat := 127
def kBC : Nat := kB * kC
def proofXCount : Nat := 64
def kF1BlockSizeBits : Nat := 512

def lTargets (parity i : Nat) : List Nat :=
  (List.range 64).map fun m =>
    (i / kC + m) % kB * kC + ((2 * m + parity) * (2 * m + parity) + i) % kC

def fxMatch (yL yR : UInt64) : Bool :=
  let groupL := yL.toNat / kBC
  let groupR := yR.toNat / kBC
  if usizeSub groupR groupL ≠ 1 then false
  else (lTargets (groupL % 2) (yL.toNat - groupL * kBC)).contains
    (yR.toNat - groupR * kBC)

def bytesToU64 (bytes : Bytes) : UInt64 :=
  UInt64.ofNat (beNat ((bytes ++ List.replicate 8 0).take 8))

section Verifier

variable (hashes : PlotHashes)

/-- The key of the f1 cipher: a one, then the plot id without its last
byte. -/
def encKey (plotId : Bytes32) : Bytes := 1 :: plotId.bytes.take 31

variable (k : Nat)

/-- The key stream bits f1 reads for one x value. -/
def f1OutputBits (plotId : Bytes32) (x : UInt64) : IoResult BitReader :=
  let blockIndexBits := x.toNat * k
  let blockIndex := UInt64.ofNat (blockIndexBits / kF1BlockSizeBits)
  let prefixBits := blockIndexBits % kF1BlockSizeBits
  let firstBlock := BitReader.fromBytesBe
    (hashes.keystream (encKey plotId) blockIndex).bytes kF1BlockSizeBits
  if min (kF1BlockSizeBits - prefixBits) k < k then do
    let secondBlock := BitReader.fromBytesBe
      (hashes.keystream (encKey plotId) (blockIndex + 1)).bytes
      kF1BlockSizeBits
    let front ← firstBlock.slice prefixBits
    let back ← secondBlock.range 0 (prefixBits + k)
    return front.addAssign back
  else firstBlock.range prefixBits (prefixBits + k)

/-- The y value `get_proof_f1_and_meta` computes for one x value; `k` is a
`u32`, so that the difference wraps. -/
def f1Value (plotId : Bytes32) (x : UInt64) : IoResult UInt64 := do
  let outputBits ← f1OutputBits hashes k plotId x
  let y ← outputBits.readU64 k
  return shl64 y kExtraBits |||
    shr64 x ((k + 2 ^ 32 - kExtraBits) % 2 ^ 32)

def getProofF1AndMeta (plotId : Bytes32) (proof : List UInt64) :
    IoResult (List UInt64 × List BitReader) := do
  let fx ← proof.mapM (f1Value hashes k plotId)
  return (fx, proof.map fun x => BitReader.new x k)

/-- `fx_gen`: the y value and the metadata of a matched pair. -/
def fxGen (table : PlotTable) (k : Nat) (y : UInt64) (lMeta rMeta : BitReader) :
    IoResult (UInt64 × BitReader) := do
  let early := table = .table2 ∨ table = .table3
  let joined := (BitReader.empty.addAssign lMeta).addAssign rMeta
  let start := BitReader.new y (k + kExtraBits)
  let input := if early then start.addAssign joined
    else (start.addAssign lMeta).addAssign rMeta
  let bytes ← input.toBytes
  let hash := hashes.blake3 bytes
  let yBits := k + kExtraBits
  let outY := shr64 (bytesToU64 hash.bytes) (usizeSub 64 yBits)
  if early then return (outY, joined)
  else if table = .table7 then return (outY, BitReader.empty)
  else do
    let startByte := yBits / 8
    let outMeta ← BitReader.fromBytesBeOffset (hash.bytes.drop startByte)
      (k * table.metaOutMultiplier) (yBits - startByte * 8)
    return (outY, outMeta)

def elementAt {A : Type} (slice : List A) (index : Nat) : IoResult A :=
  match slice[index]? with
  | some value => .ok value
  | none => .error (.panic "index out of bounds")

/-- One pair of `forward_prop_f1_to_f7`: the two values are swapped into
order, must match, and go through `fx_gen`. -/
def forwardPropPair (table : PlotTable) (k : Nat) (y0 y1 : UInt64)
    (m0 m1 : BitReader) : IoResult (UInt64 × BitReader) :=
  let yL := if y0 > y1 then y1 else y0
  let yR := if y0 > y1 then y0 else y1
  let lMeta := if y0 > y1 then m1 else m0
  let rMeta := if y0 > y1 then m0 else m1
  if fxMatch yL yR then fxGen hashes table k yL lMeta rMeta
  else .error (.error ⟨.invalidData, "Values Not in Same Group"⟩)

/-- One table of `forward_prop_f1_to_f7`: `pairs` neighbours are left, the
next is read at `i` and its result written at `dst`. -/
def forwardPropTable (table : PlotTable) (k : Nat) :
    Nat → Nat → Nat → List UInt64 → List BitReader →
      IoResult (List UInt64 × List BitReader)
  | 0, _, _, fx, metas => .ok (fx, metas)
  | pairs + 1, i, dst, fx, metas => do
      let y0 ← elementAt fx i
      let y1 ← elementAt fx (i + 1)
      let m0 ← elementAt metas i
      let m1 ← elementAt metas (i + 1)
      let out ← forwardPropPair hashes table k y0 y1 m0 m1
      forwardPropTable table k pairs (i + 2) (dst + 1) (fx.set dst out.1)
        (metas.set dst out.2)

/-- The tables of `forward_prop_f1_to_f7`, each with half the pairs of the one
before. -/
def forwardPropTables (k : Nat) :
    List PlotTable → Nat → List UInt64 → List BitReader →
      IoResult (List UInt64 × List BitReader)
  | [], _, fx, metas => .ok (fx, metas)
  | table :: tables, iterCount, fx, metas => do
      let out ← forwardPropTable hashes table k (iterCount / 2) 0 0 fx metas
      forwardPropTables k tables (iterCount / 2) out.1 out.2

/-- `forward_prop_f1_to_f7`, without the proof it can reorder. -/
def forwardPropF1ToF7 (fx : List UInt64) (metas : List BitReader) :
    IoResult (List UInt64 × List BitReader) :=
  forwardPropTables hashes k
    [.table2, .table3, .table4, .table5, .table6, .table7] proofXCount fx metas

def getF7FromProof (plotId : Bytes32) (proof : List UInt64) :
    IoResult UInt64 := do
  let leaves ← getProofF1AndMeta hashes k plotId proof
  let out ← forwardPropF1ToF7 hashes k leaves.1 leaves.2
  let y ← elementAt out.1 0
  return shr64 y kExtraBits

def uncompressProof (proof : Bytes) (k : Nat) : IoResult (List UInt64) :=
  let proofBits := BitReader.fromBytesBe proof (proof.length * 8)
  (List.range proofXCount).mapM fun index =>
    proofBits.sliceToInt (k * index) (k * (index + 1))

/-- The comparisons of `compare_proof_bits`, from x value `count - 1` down. -/
def compareFrom (left right : BitReader) (k : Nat) :
    Nat → IoResult Bool
  | 0 => .ok false
  | i + 1 => do
      let leftVal ← left.range (k * i) (k * (i + 1))
      let rightVal ← right.range (k * i) (k * (i + 1))
      match ← leftVal.cmp rightVal with
      | .lt => return true
      | .gt => return false
      | .eq => compareFrom left right k i

def compareProofBits (left right : BitReader) (k : Nat) : IoResult Bool :=
  if k = 0 then .error (.panic "attempt to divide by zero")
  else if left.getSize ≠ right.getSize then
    .error (.error ⟨.invalidData, "Right and Left are not Equal"⟩)
  else compareFrom left right k (left.getSize / k)

/-- One table of `get_quality_string`: `pairs` neighbours of `size` bits are
left, from number `j` on. -/
def reorderPairs (proofBits : BitReader) (k size : Nat) :
    Nat → Nat → BitReader → IoResult BitReader
  | 0, _, newProof => .ok newProof
  | pairs + 1, j, newProof => do
      let left ← proofBits.range (j * size) ((j + 1) * size)
      let right ← proofBits.range ((j + 1) * size) ((j + 2) * size)
      let inOrder ← compareProofBits left right k
      let joined := if inOrder then left.addAssign right
        else right.addAssign left
      reorderPairs proofBits k size pairs (j + 2) (newProof.addAssign joined)

/-- The tables of `get_quality_string`, from `tableIndex` to 6. -/
def reorderTables (k : Nat) :
    Nat → Nat → BitReader → IoResult BitReader
  | 0, _, proofBits => .ok proofBits
  | tables + 1, tableIndex, proofBits => do
      let newProof ← reorderPairs proofBits k (k * 2 ^ (tableIndex - 1))
        (2 ^ (6 - tableIndex)) 0 BitReader.empty
      reorderTables k tables (tableIndex + 1) newProof

def proofQualityString (proof : Bytes) (qualityIndex : Nat) (challenge : Bytes) :
    IoResult Bytes32 := do
  let proofBits := BitReader.fromBytesBe proof (proof.length * 8)
  let ordered ← reorderTables k 6 1 proofBits
  let pair ← ordered.range (k * qualityIndex) (k * (qualityIndex + 2))
  let bytes ← pair.toBytes
  return hashes.sha256 (challenge ++ bytes)

def Bytes32.default : Bytes32 := ⟨List.replicate 32 0, List.length_replicate⟩

def validateProof (id : Bytes32) (k : Nat) (proof challenge : Bytes) :
    IoResult Bytes32 := do
  let xs ← uncompressProof proof k
  let f7 ← getF7FromProof hashes k id xs
  let challengeBits := BitReader.fromBytesBe challenge (challenge.length * 8)
  let tail ← challengeBits.range (256 - 5) challengeBits.getSize
  let index ← tail.readU64 5
  let head ← challengeBits.range 0 k
  let first ← head.firstU64
  if first = f7 then
    proofQualityString hashes k proof (2 * index.toNat % 2 ^ 16) challenge
  else return Bytes32.default

structure ProofOfSpace where
  challenge : Bytes32
  poolPublicKey : Option Bytes48
  poolContractPuzzleHash : Option Bytes32
  plotPublicKey : Bytes48
  version : UInt8
  plotIndex : UInt16
  metaGroup : UInt8
  strength : UInt8
  size : UInt8
  proof : Bytes
deriving Repr, DecidableEq

/-- The fields of `ConsensusConstants` that the proof of space depends on. -/
structure PlotConstants where
  numberZeroBitsPlotFilter : UInt8
  minPlotSize : UInt8
  maxPlotSize : UInt8
  hardForkHeight : UInt32
  plotFilter128Height : UInt32
  plotFilter64Height : UInt32
  plotFilter32Height : UInt32
  numberZeroBitsPlotFilterV2 : UInt8
  minPlotStrength : UInt8
  maxPlotStrength : UInt8
  plotFilterV2FirstAdjustmentHeight : UInt32
  plotFilterV2SecondAdjustmentHeight : UInt32
  plotFilterV2ThirdAdjustmentHeight : UInt32
  plotSizeV2 : UInt8
  isTestnet : Bool
deriving Repr, DecidableEq

def PlotConstants.mainnet : PlotConstants where
  numberZeroBitsPlotFilter := 9
  minPlotSize := 32
  maxPlotSize := 50
  hardForkHeight := 5496000
  plotFilter128Height := 10542000
  plotFilter64Height := 15592000
  plotFilter32Height := 20643000
  numberZeroBitsPlotFilterV2 := 5
  minPlotStrength := 2
  maxPlotStrength := 32
  plotFilterV2FirstAdjustmentHeight := 0xFFFFFFFB
  plotFilterV2SecondAdjustmentHeight := 0xFFFFFFFC
  plotFilterV2ThirdAdjustmentHeight := 0xFFFFFFFD
  plotSizeV2 := 28
  isTestnet := false

variable (pos : ProofOfSpace)

def calculatePlotGroupIdV2 : Bytes32 :=
  hashes.sha256 ([pos.strength] ++ pos.plotPublicKey.bytes ++
    match pos.poolPublicKey, pos.poolContractPuzzleHash with
    | some pool, _ => pool.bytes
    | none, some contract => contract.bytes
    | none, none => [])

def calculatePlotIdV2 : Bytes32 :=
  hashes.sha256 ((calculatePlotGroupIdV2 hashes pos).bytes ++
    beBytes 2 pos.plotIndex.toNat ++ [pos.metaGroup])

def calculatePlotIdPuzzleHash (poolContractPuzzleHash : Bytes32)
    (plotPublicKey : Bytes48) : Bytes32 :=
  hashes.sha256 (poolContractPuzzleHash.bytes ++ plotPublicKey.bytes)

def calculatePlotIdPublicKey (poolPublicKey plotPublicKey : Bytes48) :
    Bytes32 :=
  hashes.sha256 (poolPublicKey.bytes ++ plotPublicKey.bytes)

def ProofOfSpace.getPlotId : Option Bytes32 :=
  match pos.poolPublicKey, pos.poolContractPuzzleHash with
  | some _, some _ => none
  | none, none => none
  | some poolKey, none =>
    if pos.version = 1 then some (calculatePlotIdV2 hashes pos)
    else some (calculatePlotIdPublicKey hashes poolKey pos.plotPublicKey)
  | none, some contract =>
    if pos.version = 1 then some (calculatePlotIdV2 hashes pos)
    else some (calculatePlotIdPuzzleHash hashes contract pos.plotPublicKey)

def calculatePlotFilterInput (plotId challengeHash signagePoint : Bytes32) :
    Bytes32 :=
  hashes.sha256 (plotId.bytes ++ challengeHash.bytes ++ signagePoint.bytes)

def calculatePosChallenge (plotId challengeHash signagePoint : Bytes32) :
    Bytes32 :=
  hashes.sha256
    (calculatePlotFilterInput hashes plotId challengeHash signagePoint).bytes

/-- `max(0, prefix_bits)` on `i8`. -/
def atLeastZero (bits : Int8) : Int8 := if bits < 0 then 0 else bits

def calculatePrefixBits (constants : PlotConstants) (height : UInt32) : Int8 :=
  let bits := constants.numberZeroBitsPlotFilter.toInt8
  atLeastZero
    (if height ≥ constants.plotFilter32Height then bits - 4
    else if height ≥ constants.plotFilter64Height then bits - 3
    else if height ≥ constants.plotFilter128Height then bits - 2
    else if height ≥ constants.hardForkHeight then bits - 1
    else bits)

def calculatePrefixBitsV2 (constants : PlotConstants) (height : UInt32) :
    Int8 :=
  let bits := constants.numberZeroBitsPlotFilterV2.toInt8
  atLeastZero
    (if height ≥ constants.plotFilterV2ThirdAdjustmentHeight then bits - 3
    else if height ≥ constants.plotFilterV2SecondAdjustmentHeight then bits - 2
    else if height ≥ constants.plotFilterV2FirstAdjustmentHeight then bits - 1
    else bits)

def passesPlotFilter (prefixBits : Int8)
    (plotId challengeHash signagePoint : Bytes32) : Bool :=
  prefixBits == 0 ||
    ((BitStrings.byteBits (calculatePlotFilterInput hashes plotId challengeHash
      signagePoint).bytes).take prefixBits.toNatClampNeg).all (! ·)

/-- `get_quality_string`: an error is `None`. -/
def getQualityString (plotId : Bytes32) : IoResult (Option Bytes32) :=
  match validateProof hashes plotId pos.size.toNat pos.proof
      pos.challenge.bytes with
  | .ok quality => .ok (some quality)
  | .error (.error _) => .ok none
  | .error (.panic text) => .error (.panic text)

end Verifier

open List DgXch.Except BitReader UInt64 Nat

variable {fx : List UInt64} {metas : List BitReader} {entries : List PlotEntry}
  {x : UInt64} {offset : Nat} {entry : PlotEntry} {y0 y1 : UInt64}
  {m0 m1 : BitReader}

/-- `outcome` ends with a value related to the specified one, or with an error
where none is specified. -/
def Settles {A B : Type} (outcome : IoResult A) (spec : Option B)
    (Rel : A → B → Prop) : Prop :=
  match spec with
  | some b => ∃ a, outcome = .ok a ∧ Rel a b
  | none => ∃ e, outcome = .error (.error e)

theorem Settles.bind {A B C D : Type} {outcome : IoResult A}
    {spec : Option B} {Rel : A → B → Prop}
    {next : A → IoResult C} {specNext : B → Option D}
    {Goal : C → D → Prop} (h : Settles outcome spec Rel)
    (hnext : ∀ a b, Rel a b → Settles (next a) (specNext b) Goal) :
    Settles (outcome >>= next) (spec.bind specNext) Goal := by
  cases spec with
  | none =>
    obtain ⟨e, rfl⟩ := h
    exact ⟨e, rfl⟩
  | some b =>
    obtain ⟨a, rfl, hrel⟩ := h
    exact hnext a b hrel

/-- An entry of a table: its y value and its metadata. -/
structure PlotEntry where
  y : Nat
  info : List Bool
deriving Repr, DecidableEq

section Meaning

variable (hashes : PlotHashes) (k : Nat) (plotId : Bytes32)

/-- The `k` bits of the key stream at bit `x * k`. -/
def f1Bits (x : Nat) : List Bool :=
  let block := UInt64.ofNat (x * k / 512)
  ((byteBits (hashes.keystream (encKey plotId) block).bytes ++
    byteBits (hashes.keystream (encKey plotId) (block + 1)).bytes).drop
      (x * k % 512)).take k

/-- The leaf of an x value: f1 and the six leading bits of x. -/
def f1Entry (x : Nat) : PlotEntry where
  y := bitsNat (f1Bits hashes k plotId x) * 64 +
    if k < 6 then 0 else x / 2 ^ (k - 6)
  info := bitsOf k x

/-- Two y values match: their groups are neighbours, and the right one is a
target of the left one. -/
def matchesY (left right : Nat) : Bool :=
  right / kBC == left / kBC + 1 &&
    (lTargets (left / kBC % 2) (left % kBC)).contains (right % kBC)

def fxEntry (table : PlotTable) (left right : PlotEntry) : PlotEntry :=
  let hash := hashes.blake3
    (packBits (bitsOf (k + 6) left.y ++ (left.info ++ right.info)))
  { y := bitsNat ((byteBits hash.bytes).take (k + 6))
    info := match table with
      | .table2 | .table3 => left.info ++ right.info
      | .table4 | .table5 | .table6 =>
        ((BitReader.zeroPadded hash.bytes).drop (k + 6)).take
          (k * table.metaOutMultiplier)
      | .table7 => [] }

/-- The table that the pairs of a round go to. -/
def tableAt : Nat → PlotTable
  | 0 => .table2
  | 1 => .table3
  | 2 => .table4
  | 3 => .table5
  | 4 => .table6
  | _ => .table7

/-- A node of the tree: the entry with the smaller y is the left one. -/
def combineEntries (level : Nat) (first second : PlotEntry) :
    Option PlotEntry :=
  let left := if first.y > second.y then second else first
  let right := if first.y > second.y then first else second
  if matchesY left.y right.y then
    some (fxEntry hashes k (tableAt level) left right)
  else none

/-- The tree over the 64 x values of a proof: its entry, if all six levels
match. -/
def propagate (xs : List Nat) : Option PlotEntry :=
  treeFold (combineEntries hashes k) 6 (xs.map (f1Entry hashes k plotId))

end Meaning

/-- A y value and a reader of the code hold an entry. -/
structure Stores (k : Nat) (y : UInt64) (reader : BitReader)
    (entry : PlotEntry) : Prop where
  y_eq : y.toNat = entry.y
  y_lt : entry.y < 2 ^ (k + 6)
  info : reader.Packs entry.info

variable {hashes : PlotHashes} {k : Nat} {plotId : Bytes32}

theorem matchesY_eq_fxMatch {left right : UInt64} (hle : left ≤ right) :
    fxMatch left right = matchesY left.toNat right.toNat := by
  have hgroups : left.toNat / kBC ≤ right.toNat / kBC :=
    Nat.div_le_div_right (le_iff_toNat_le.mp hle)
  have hbound : right.toNat / kBC < 2 ^ 64 :=
    lt_of_le_of_lt (Nat.div_le_self _ _) right.toNat_lt
  have hleft : left.toNat - left.toNat / kBC * kBC = left.toNat % kBC := by
    rw [Nat.mod_eq_sub_div_mul]
  have hright : right.toNat - right.toNat / kBC * kBC = right.toNat % kBC := by
    rw [Nat.mod_eq_sub_div_mul]
  simp only [fxMatch, matchesY, usizeSub_of_le hgroups hbound, hleft, hright]
  by_cases hnext : right.toNat / kBC = left.toNat / kBC + 1
  · have hone : right.toNat / kBC - left.toNat / kBC = 1 := by omega
    simp [hnext]
  · have hone : right.toNat / kBC - left.toNat / kBC ≠ 1 := by omega
    simp [hnext, hone]

/-- The y value `fx_gen` takes from the front of the hash. -/
theorem hash_front (hash : Bytes32) (hk : k ≤ 58) :
    (shr64 (bytesToU64 hash.bytes) (usizeSub 64 (k + 6))).toNat =
      bitsNat ((byteBits hash.bytes).take (k + 6)) := by
  obtain ⟨hlt, hfront⟩ := loadField_front hash.bytes
    (show 0 < k + 6 by omega) (show k + 6 ≤ 64 by omega)
  have hlength : k + 6 ≤ (byteBits hash.bytes).length := by
    rw [length_byteBits, hash.length_eq]
    omega
  rw [zeroPadded, byteBits_append, take_append_of_le_length hlength] at hfront
  rw [← hfront, bitsNat_bitsOf_of_lt hlt]
  rfl

/-- The metadata `fx_gen` takes from the hash behind the y value. -/
theorem hash_info (hash : Bytes32) (multiplier : Nat) (hone : 1 ≤ k)
    (hk : k ≤ 58) (hpos : 1 ≤ multiplier) (hmost : multiplier ≤ 4) :
    ∃ out, fromBytesBeOffset (hash.bytes.drop ((k + 6) / 8))
        (k * multiplier) (k + 6 - (k + 6) / 8 * 8) = .ok out ∧
      out.Packs (((zeroPadded hash.bytes).drop (k + 6)).take
        (k * multiplier)) := by
  have hlength : (hash.bytes.drop ((k + 6) / 8)).length = 32 - (k + 6) / 8 := by
    rw [length_drop, hash.length_eq]
  have hbits : k * multiplier ≤ 58 * 4 := Nat.mul_le_mul hk hmost
  have hsome : 1 * 1 ≤ k * multiplier := Nat.mul_le_mul hone hpos
  obtain ⟨out, hout, hpacks⟩ := packs_fromBytesBeOffset_inside
    (show 0 < k * multiplier by omega)
    (show k + 6 - (k + 6) / 8 * 8 + k * multiplier < 2 ^ 64 by omega)
    (show k + 6 - (k + 6) / 8 * 8 < 64 by omega)
    (show 8 ≤ (hash.bytes.drop ((k + 6) / 8)).length by omega) (by omega)
  have hdrop : 8 * ((k + 6) / 8) + (k + 6 - (k + 6) / 8 * 8) = k + 6 := by omega
  rw [zeroPadded_drop (by rw [hash.length_eq]; omega),
    drop_drop, hdrop] at hpacks
  exact ⟨out, hout, hpacks⟩

/-- `fx_gen` computes the entry of a matched pair. -/
theorem fxGen_stores {table : PlotTable} (hone : 1 ≤ k) (hk : k ≤ 58)
    {yL yR : UInt64} {lMeta rMeta : BitReader} {left right : PlotEntry}
    (hleft : Stores k yL lMeta left) (hright : Stores k yR rMeta right) :
    ∃ y out, fxGen hashes table k yL lMeta rMeta = .ok (y, out) ∧
      Stores k y out (fxEntry hashes k table left right) := by
  have hjoined := (packs_empty.addAssign hleft.info).addAssign hright.info
  rw [nil_append] at hjoined
  have hy : yL.toNat < 2 ^ (k + 6) := hleft.y_eq ▸ hleft.y_lt
  have hstart := packs_new (by omega) (by omega) hy
  rw [hleft.y_eq] at hstart
  have hearly := hstart.addAssign hjoined
  have hlate := (hstart.addAssign hleft.info).addAssign hright.info
  rw [append_assoc] at hlate
  let hash := hashes.blake3
    (packBits (bitsOf (k + 6) left.y ++ (left.info ++ right.info)))
  have hfront := hash_front hash hk
  have hyLt : bitsNat ((byteBits hash.bytes).take (k + 6)) < 2 ^ (k + 6) := by
    have hlt := bitsNat_lt ((byteBits hash.bytes).take (k + 6))
    have hlength : ((byteBits hash.bytes).take (k + 6)).length = k + 6 := by
      rw [length_take, length_byteBits, hash.length_eq]
      omega
    rwa [hlength] at hlt
  cases table with
  | table2 | table3 =>
    refine ⟨_, _, ?_, hfront, hyLt, hjoined⟩
    simp only [fxGen, kExtraBits, hearly.toBytes_eq, bind_ok,
      reduceCtorEq, or_true, true_or, ↓reduceIte]
    rfl
  | table4 | table5 | table6 =>
    refine (hash_info hash _ hone hk ?_ ?_).elim fun out hpart =>
      ⟨_, out, ?_, hfront, hyLt, hpart.2⟩
    · decide
    · decide
    · simp only [fxGen, kExtraBits, hlate.toBytes_eq, bind_ok,
        reduceCtorEq, or_self, ↓reduceIte]
      exact bind_eq_ok.mpr ⟨out, hpart.1, rfl⟩
  | table7 =>
    refine ⟨_, _, ?_, hfront, hyLt, packs_empty⟩
    simp only [fxGen, kExtraBits, hlate.toBytes_eq, bind_ok,
      reduceCtorEq, or_self, ↓reduceIte]
    rfl

theorem packs_keystream (block : KeystreamBlock) :
    (fromBytesBe block.bytes kF1BlockSizeBits).Packs
      (byteBits block.bytes) := by
  have hpacks := packs_fromBytesBe block.bytes
  rwa [block.length_eq] at hpacks

section

variable (hone : 1 ≤ k) (hk : k ≤ 58)

include hone hk

/-- f1 reads its bits from one block, or from two where they span both. -/
theorem f1OutputBits_packs (x : UInt64) :
    ∃ out bits, f1OutputBits hashes k plotId x = .ok out ∧ out.Packs bits ∧
      k ≤ bits.length ∧
      bits.take k = f1Bits hashes k plotId x.toNat := by
  let block := ofNat (x.toNat * k / 512)
  let first := hashes.keystream (encKey plotId) block
  let second := hashes.keystream (encKey plotId) (block + 1)
  let place := x.toNat * k % 512
  have hfirst := packs_keystream first
  have hsecond := packs_keystream second
  have hlength (b : KeystreamBlock) : (byteBits b.bytes).length = 512 := by
    rw [length_byteBits, b.length_eq]
  have hfirstLength := hlength first
  have hsecondLength := hlength second
  have hplace : place < 512 := Nat.mod_lt _ (by norm_num)
  have hmeaning : f1Bits hashes k plotId x.toNat =
      ((byteBits first.bytes ++ byteBits second.bytes).drop place).take k := rfl
  rw [hmeaning, drop_append_of_le_length (by omega)]
  by_cases hspan : min (512 - place) k < k
  · obtain ⟨front, hfront, hfrontPacks⟩ := hfirst.range_eq hplace (by omega)
    obtain ⟨back, hback, hbackPacks⟩ := hsecond.range_eq
      (show 0 < 512 by omega) (by omega)
    rw [drop_zero, take_of_length_le (by omega)] at hbackPacks
    rw [take_of_length_le (by rw [length_drop]; omega)] at hfrontPacks
    refine ⟨_, _, ?_, hfrontPacks.addAssign hbackPacks, ?_, rfl⟩
    · have hclamp := range_clamp (fromBytesBe second.bytes kF1BlockSizeBits) 0
        (place + k)
      have hwhole : min (place + k) 512 = 512 := by omega
      rw [hsecond.getSize_eq, hsecondLength, hwhole, hback] at hclamp
      have hslice : (fromBytesBe first.bytes kF1BlockSizeBits).slice place =
          .ok front := by
        rw [slice, hfirst.getSize_eq, hfirstLength, hfront]
      rw [f1OutputBits, if_pos (show min (kF1BlockSizeBits -
        x.toNat * k % kF1BlockSizeBits) k < k from hspan)]
      exact bind_eq_ok.mpr ⟨front, hslice, bind_eq_ok.mpr ⟨back, hclamp, rfl⟩⟩
    · rw [length_append, length_drop, hfirstLength, hsecondLength]
      omega
  · obtain ⟨out, hout, hpacks⟩ := hfirst.range_eq
      (show place < place + k by omega) (by omega)
    have hinside : k ≤ ((byteBits first.bytes).drop place).length := by
      rw [length_drop]
      omega
    rw [Nat.add_sub_cancel_left] at hpacks
    refine ⟨out, _, ?_, hpacks, ?_, ?_⟩
    · rw [f1OutputBits, if_neg (show ¬ min (kF1BlockSizeBits -
        x.toNat * k % kF1BlockSizeBits) k < k from hspan)]
      exact hout
    · rw [length_take]
      omega
    · rw [take_take, Nat.min_self, take_append_of_le_length hinside]

/-- The leading bits of x that f1 appends. -/
theorem leading_toNat (hx : x.toNat < 2 ^ k) :
    (shr64 x ((k + 2 ^ 32 - kExtraBits) % 2 ^ 32)).toNat =
      (if k < 6 then 0 else x.toNat / 2 ^ (k - 6)) ∧
    (if k < 6 then 0 else x.toNat / 2 ^ (k - 6)) < 2 ^ 6 := by
  by_cases hsmall : k < 6
  · -- the difference wraps; the count modulo 64 shifts every bit out
    have hcount : (ofNat ((k + 2 ^ 32 - kExtraBits) % 2 ^ 32)).toNat %
        64 = 58 + k := by
      rw [UInt64.toNat_ofNat', kExtraBits]
      omega
    have hzero : x.toNat / 2 ^ (58 + k) = 0 :=
      Nat.div_eq_of_lt (lt_of_lt_of_le hx
        (Nat.pow_le_pow_right (by omega) (by omega)))
    rw [shr64, UInt64.toNat_shiftRight, hcount, Nat.shiftRight_eq_div_pow,
      hzero]
    simp [hsmall]
  · have hcount : (k + 2 ^ 32 - kExtraBits) % 2 ^ 32 = k - 6 := by
      rw [kExtraBits]
      omega
    have hlt := div_two_pow_lt hx (show 6 ≤ k by omega)
    rw [hcount, shr64_toNat (by omega)]
    simp only [hsmall, ↓reduceIte, true_and]
    exact hlt

theorem f1Value_stores (hx : x.toNat < 2 ^ k) :
    ∃ y, f1Value hashes k plotId x = .ok y ∧
      Stores k y (new x k) (f1Entry hashes k plotId x.toNat) := by
  obtain ⟨out, bits, hout, hpacks, hlength, hbits⟩ :=
    @f1OutputBits_packs hashes k plotId hone hk x
  obtain ⟨value, hread, hvalue⟩ := hpacks.readU64_eq hone (by omega) hlength
  rw [hbits] at hvalue
  have hbitsLength : (f1Bits hashes k plotId x.toNat).length = k := by
    rw [← hbits, length_take]
    omega
  have hvalueLt : bitsNat (f1Bits hashes k plotId x.toNat) < 2 ^ k := by
    have hlt := bitsNat_lt (f1Bits hashes k plotId x.toNat)
    rwa [hbitsLength] at hlt
  obtain ⟨hleading, hleadingLt⟩ := leading_toNat hone hk hx
  have hsum := mul_add_lt_two_pow hvalueLt hleadingLt
  have hbound : 2 ^ (k + 6) ≤ 2 ^ 64 :=
    Nat.pow_le_pow_right (by omega) (by omega)
  have hhigh : (shl64 value kExtraBits).toNat =
      bitsNat (f1Bits hashes k plotId x.toNat) * 2 ^ 6 := by
    rw [shl64_toNat (by rw [kExtraBits]; omega), kExtraBits, hvalue,
      Nat.mod_eq_of_lt (by omega)]
  refine ⟨_, bind_eq_ok.mpr ⟨out, hout,
    bind_eq_ok.mpr ⟨value, hread, rfl⟩⟩, ?_, hsum, ?_⟩
  · rw [UInt64.toNat_or, hhigh, hleading, ← Nat.shiftLeft_eq,
      ← Nat.shiftLeft_add_eq_or_of_lt hleadingLt, Nat.shiftLeft_eq]
    rfl
  · exact packs_new hone (by omega) hx

end

/-- The arrays of the propagation hold `entries` from `offset` on. -/
def Lays (k : Nat) (fx : List UInt64) (metas : List BitReader) (offset : Nat)
    (entries : List PlotEntry) : Prop :=
  ∀ j entry, entries[j]? = some entry →
    ∃ y reader, fx[offset + j]? = some y ∧ metas[offset + j]? = some reader ∧
      Stores k y reader entry

theorem Lays.head (h : Lays k fx metas offset (entry :: entries)) :
    ∃ y reader, fx[offset]? = some y ∧ metas[offset]? = some reader ∧
      Stores k y reader entry :=
  h 0 entry rfl

theorem Lays.tail (h : Lays k fx metas offset (entry :: entries)) :
    Lays k fx metas (offset + 1) entries := by
  intro j later hlater
  have hplace : offset + (j + 1) = offset + 1 + j := by omega
  have hmem := h (j + 1) later hlater
  rwa [hplace] at hmem

/-- A write in front of the entries does not touch them. -/
theorem Lays.set {offset dst : Nat} (h : Lays k fx metas offset entries)
    (hdst : dst < offset) (y : UInt64) (reader : BitReader) :
    Lays k (fx.set dst y) (metas.set dst reader) offset entries := by
  intro j entry hentry
  have hne : dst ≠ offset + j := by omega
  simpa [getElem?_set_ne hne] using h j entry hentry

theorem elementAt_eq {A : Type} {slice : List A} {index : Nat} {value : A}
    (h : slice[index]? = some value) : elementAt slice index = .ok value := by
  simp [elementAt, h]

/-- One pair of the propagation: the entries in the order of their y values,
and their combination where they match. -/
theorem forwardPropPair_settles (level : Nat) (hone : 1 ≤ k) (hk : k ≤ 58)
    {first second : PlotEntry} (hfirst : Stores k y0 m0 first)
    (hsecond : Stores k y1 m1 second) :
    Settles (forwardPropPair hashes (tableAt level) k y0 y1 m0 m1)
      (combineEntries hashes k level first second)
      fun out entry => Stores k out.1 out.2 entry := by
  have hgt : y0 > y1 ↔ first.y > second.y := by
    rw [gt_iff_lt, UInt64.lt_iff_toNat_lt, hfirst.y_eq, hsecond.y_eq]
  by_cases hswap : first.y > second.y
  · have hle : y1 ≤ y0 := UInt64.le_of_lt (hgt.mpr hswap)
    obtain ⟨y, out, hgen, hstores⟩ := @fxGen_stores hashes k (tableAt level)
      hone hk _ _ _ _ _ _ hsecond hfirst
    simp only [forwardPropPair, combineEntries, hgt, hswap, ↓reduceIte,
      matchesY_eq_fxMatch hle, hfirst.y_eq, hsecond.y_eq]
    cases matchesY second.y first.y
    · exact ⟨_, rfl⟩
    · exact ⟨(y, out), hgen, hstores⟩
  · have hle : y0 ≤ y1 := UInt64.not_lt.mp fun hlt => hswap (hgt.mp hlt)
    obtain ⟨y, out, hgen, hstores⟩ := @fxGen_stores hashes k (tableAt level)
      hone hk _ _ _ _ _ _ hfirst hsecond
    simp only [forwardPropPair, combineEntries, hgt, hswap, ↓reduceIte,
      matchesY_eq_fxMatch hle, hfirst.y_eq, hsecond.y_eq]
    cases matchesY first.y second.y
    · exact ⟨_, rfl⟩
    · exact ⟨(y, out), hgen, hstores⟩

/-- One table in place is one round of the knock-out: the results stand at the
front, what lies before them is untouched. -/
theorem forwardPropTable_settles (level : Nat) (hone : 1 ≤ k) (hk : k ≤ 58)
    {pairs i dst : Nat} (hlength : entries.length = 2 * pairs) (hdst : dst ≤ i)
    (h : Lays k fx metas i entries) :
    Settles (forwardPropTable hashes (tableAt level) k pairs i dst fx metas)
      (pairUp (combineEntries hashes k) level entries)
      fun out winners => Lays k out.1 out.2 dst winners ∧
        (∀ j, j < dst → out.1[j]? = fx[j]?) ∧
        ∀ j, j < dst → out.2[j]? = metas[j]? := by
  induction pairs generalizing i dst fx metas entries with
  | zero =>
    have hnil : entries = [] := length_eq_zero_iff.mp hlength
    subst hnil
    refine ⟨(fx, metas), rfl, ?_, fun _ _ => rfl, fun _ _ => rfl⟩
    intro j entry hentry
    simp at hentry
  | succ pairs ih =>
    match entries, hlength with
    | first :: second :: rest, hlength =>
      obtain ⟨y0, m0, hy0, hm0, hfirst⟩ := h.head
      obtain ⟨y1, m1, hy1, hm1, hsecond⟩ := h.tail.head
      have hrest : rest.length = 2 * pairs := by
        simp only [length_cons] at hlength
        omega
      rw [forwardPropTable, elementAt_eq hy0, bind_ok, elementAt_eq hy1,
        bind_ok, elementAt_eq hm0, bind_ok, elementAt_eq hm1, bind_ok]
      apply (forwardPropPair_settles level hone hk hfirst hsecond).bind
      intro out winner hwinner
      have hlater := h.tail.tail.set (show dst < i + 1 + 1 by omega) out.1 out.2
      have hround := ih hrest (show dst + 1 ≤ i + 1 + 1 by omega) hlater
      cases hothers : pairUp (combineEntries hashes k) level rest with
      | none =>
        rwa [hothers] at hround
      | some winners =>
        rw [hothers] at hround
        obtain ⟨last, hlast, hlays, hfx, hmetas⟩ := hround
        refine ⟨last, hlast, ?_, ?_, ?_⟩
        · intro j entry hentry
          cases j with
          | zero =>
            have hhead : winner = entry := Option.some.inj hentry
            have hroomFx : dst < fx.length :=
              lt_of_le_of_lt hdst (List.getElem?_eq_some_iff.mp hy0).1
            have hroomMetas : dst < metas.length :=
              lt_of_le_of_lt hdst (List.getElem?_eq_some_iff.mp hm0).1
            refine ⟨out.1, out.2, ?_, ?_, hhead ▸ hwinner⟩
            · rw [add_zero, hfx dst (by omega)]
              simp [hroomFx]
            · rw [add_zero, hmetas dst (by omega)]
              simp [hroomMetas]
          | succ j =>
            have hplace : dst + (j + 1) = dst + 1 + j := by omega
            have hmem := hlays j entry hentry
            rwa [← hplace] at hmem
        · intro j hj
          rw [hfx j (by omega), getElem?_set_ne (by omega)]
        · intro j hj
          rw [hmetas j (by omega), getElem?_set_ne (by omega)]

/-- The tables in a row are the rounds of the knock-out. -/
theorem forwardPropTables_settles (hone : 1 ≤ k) (hk : k ≤ 58)
    {level count : Nat} (hlength : entries.length = 2 ^ count)
    (h : Lays k fx metas 0 entries) :
    Settles (forwardPropTables hashes k ((List.range' level count).map tableAt)
        (2 ^ count) fx metas)
      (rounds (combineEntries hashes k) level count entries)
      fun out winners => Lays k out.1 out.2 0 winners := by
  induction count generalizing level fx metas entries with
  | zero => exact ⟨(fx, metas), rfl, h⟩
  | succ count ih =>
    have hhalf : 2 ^ (count + 1) / 2 = 2 ^ count := by
      rw [pow_succ, Nat.mul_div_cancel _ (by norm_num)]
    have htwice : entries.length = 2 * 2 ^ count := by
      rw [hlength, pow_succ, Nat.mul_comm]
    rw [range'_succ, map_cons, forwardPropTables, hhalf, rounds]
    cases hround : pairUp (combineEntries hashes k) level entries with
    | none =>
      have htable := @forwardPropTable_settles _ _ _ hashes k level hone
        hk _ 0 0 htwice (Nat.le_refl 0) h
      rw [hround] at htable
      obtain ⟨e, he⟩ := htable
      rw [he]
      exact ⟨e, rfl⟩
    | some winners =>
      have htable := @forwardPropTable_settles _ _ _ hashes k level hone
        hk _ 0 0 htwice (Nat.le_refl 0) h
      rw [hround] at htable
      obtain ⟨out, hout, hlays, -, -⟩ := htable
      rw [hout]
      exact ih (length_pairUp htwice hround) hlays

/-- The leaves lie in the arrays after `get_proof_f1_and_meta`. -/
theorem lays_leaves {xs fx : List UInt64}
    (h : Forall₂ (fun x y => Stores k y (new x k)
      (f1Entry hashes k plotId x.toNat)) xs fx) :
    Lays k fx (xs.map fun x => new x k) 0
      ((xs.map UInt64.toNat).map (f1Entry hashes k plotId)) := by
  induction h with
  | nil =>
    intro j entry hentry
    simp at hentry
  | cons hhead _ ih =>
    intro j entry hentry
    cases j with
    | zero =>
      have heq := Option.some.inj hentry
      exact ⟨_, _, rfl, rfl, heq ▸ hhead⟩
    | succ j =>
      have hmem := ih j entry hentry
      rw [zero_add] at hmem ⊢
      exact hmem

/-- `get_f7_from_proof` computes the root of the tree over the x values. -/
theorem getF7FromProof_settles (hone : 1 ≤ k) (hk : k ≤ 58)
    {xs : List UInt64} (hcount : xs.length = 64)
    (hxs : ∀ x ∈ xs, x.toNat < 2 ^ k) :
    Settles (getF7FromProof hashes k plotId xs)
      (propagate hashes k plotId (xs.map UInt64.toNat))
      fun f7 entry => f7.toNat = entry.y / 64 := by
  obtain ⟨fx, hfx, hleaves⟩ := mapM_exists fun x hx =>
    @f1Value_stores x hashes k plotId hone hk (hxs x hx)
  have hlays := lays_leaves hleaves
  have hlength : ((xs.map toNat).map
      (f1Entry hashes k plotId)).length = 2 ^ 6 := by
    rw [length_map, length_map, hcount]
    norm_num
  have hrounds := @forwardPropTables_settles _ _ _ hashes k hone hk 0 6 hlength
    hlays
  rw [rounds_eq_treeFold hlength] at hrounds
  have hstart : getProofF1AndMeta hashes k plotId xs =
      .ok (fx, xs.map fun x => new x k) := by
    rw [getProofF1AndMeta, hfx]
    rfl
  rw [getF7FromProof, hstart, bind_ok, propagate]
  cases htree : treeFold (combineEntries hashes k) 6
      ((xs.map toNat).map (f1Entry hashes k plotId)) with
  | none =>
    rw [htree] at hrounds
    obtain ⟨e, he⟩ := hrounds
    have hprop : forwardPropF1ToF7 hashes k fx
        (xs.map fun x => new x k) = .error (.error e) := he
    rw [hprop]
    exact ⟨e, rfl⟩
  | some root =>
    rw [htree] at hrounds
    obtain ⟨out, hout, hroot⟩ := hrounds
    obtain ⟨y, reader, hy, -, hstores⟩ := hroot.head
    refine ⟨shr64 y kExtraBits, ?_, ?_⟩
    · have hprop : forwardPropF1ToF7 hashes k fx
          (xs.map fun x => new x k) = .ok out := hout
      rw [hprop, bind_ok, elementAt_eq hy]
      rfl
    · have hsix : kExtraBits < 64 := by decide
      change (shr64 y kExtraBits).toNat = root.y / 64
      rw [shr64_toNat hsix, hstores.y_eq]
      rfl

end DgXch
