/-
The quality string of a proof, and which proofs the verifier accepts.  The x
values are the k-bit fields of the proof, put in plot order block by block.  A
proof that reaches another f7 than the one asked for is accepted, with a
quality string of zeros.
-/
import DgXch.PlotV2

open BigEndian BitStrings PairTree

namespace DgXch

open List DgXch.Except Nat

/-- The 64 x values of a proof: its first 64 fields of `k` bits. -/
def proofXs (k : Nat) (proof : Bytes) : List Nat :=
  (List.range 64).map fun index =>
    bitsNat (((byteBits proof).drop (k * index)).take k)

/-- One block of x values comes before another: at the last place where they
differ, its x value is the smaller one. -/
def precedes (left right : List Nat) : Bool :=
  decide (left.reverse < right.reverse)

/-- Two neighbouring blocks in their order. -/
def orderedPair (left right : List Nat) : List Nat :=
  if precedes left right then left ++ right else right ++ left

/-- The rule of a round over blocks of x values. -/
def orderBlocks (_level : Nat) (left right : List Nat) : Option (List Nat) :=
  some (orderedPair left right)

def plotOrder (xs : List Nat) : List Nat :=
  (treeFold orderBlocks 6 (xs.map fun x => [x])).getD []

/-- The packed bits of x values. -/
def xsBits (k : Nat) (xs : List Nat) : List Bool := xs.flatMap (bitsOf k)

/-- The quality string of a proof for a challenge: the hash of the challenge
and of the two x values that its last five bits select. -/
def qualityOf (hashes : PlotHashes) (k : Nat) (xs : List Nat)
    (challenge : Bytes) : Bytes32 :=
  let index := bitsNat ((byteBits challenge).drop 251)
  hashes.sha256 (challenge ++
    packBits (xsBits k (((plotOrder xs).drop (2 * index)).take 2)))

variable {k : Nat}

@[simp]
theorem xsBits_append (front back : List Nat) :
    xsBits k (front ++ back) = xsBits k front ++ xsBits k back := by
  simp [xsBits]

@[simp]
theorem length_xsBits (xs : List Nat) : (xsBits k xs).length = k * xs.length :=
  length_flatMap_bitsOf xs

/-- A block of x values, read from where it stands. -/
theorem range_after (hone : 1 ≤ k) {reader : BitReader} {front block : List Nat}
    {rest : List Bool} (h : reader.Packs (xsBits k (front ++ block) ++ rest))
    (hblock : block ≠ []) :
    ∃ out, reader.range (k * front.length)
        (k * (front.length + block.length)) = .ok out ∧
      out.Packs (xsBits k block) := by
  have hpos : 0 < block.length := length_pos_iff.mpr hblock
  have hless : k * front.length < k * (front.length + block.length) :=
    Nat.mul_lt_mul_of_pos_left (by omega) (by omega)
  obtain ⟨out, hout, hpacks⟩ := h.range_eq hless
    (by simp [Nat.mul_add, ← Nat.add_assoc])
  rw [Nat.mul_add, Nat.add_sub_cancel_left, xsBits_append, append_assoc,
    drop_left' (length_xsBits front),
    take_left' (length_xsBits block)] at hpacks
  exact ⟨out, hout, hpacks⟩

variable {xs : List Nat}

/-- The same for a slice of the x values. -/
theorem range_block (hone : 1 ≤ k) {reader : BitReader} {rest : List Bool}
    (h : reader.Packs (xsBits k xs ++ rest)) {start stop : Nat}
    (hstart : start < stop) (hstop : stop ≤ xs.length) :
    ∃ out, reader.range (k * start) (k * stop) = .ok out ∧
      out.Packs (xsBits k ((xs.drop start).take (stop - start))) := by
  have hfront : (xs.take start).length = start := by
    rw [length_take]
    omega
  have hblock : ((xs.drop start).take (stop - start)).length = stop - start := by
    rw [length_take, length_drop]
    omega
  have hsplit : xs = xs.take start ++ (xs.drop start).take (stop - start) ++
      (xs.drop start).drop (stop - start) := by
    rw [append_assoc, take_append_drop, take_append_drop]
  rw [hsplit, xsBits_append, append_assoc] at h
  have hrange := range_after hone h (ne_nil_of_length_pos (by omega))
  rwa [hfront, hblock, Nat.add_sub_cancel' hstart.le] at hrange

/-- Blocks are compared from the back. -/
theorem precedes_concat (lefts rights : List Nat) (a b : Nat) :
    precedes (lefts ++ [a]) (rights ++ [b]) =
      match compare a b with
      | .lt => true
      | .gt => false
      | .eq => precedes lefts rights := by
  simp only [precedes, reverse_append, reverse_singleton, singleton_append]
  rcases Nat.lt_trichotomy a b with hlt | rfl | hgt
  · simp [Nat.compare_eq_lt.mpr hlt, cons_lt_cons_iff, hlt]
  · simp
  · have hne : a ≠ b := by omega
    have hnot : ¬ a < b := by omega
    simp [Nat.compare_eq_gt.mpr hgt, cons_lt_cons_iff, hne, hnot]

section

variable {left right : BitReader} {lefts rights : List Nat} (hone : 1 ≤ k)
  (hleft : left.Packs (xsBits k lefts)) (hright : right.Packs (xsBits k rights))
  (hleftLt : ∀ x ∈ lefts, x < 2 ^ k) (hrightLt : ∀ x ∈ rights, x < 2 ^ k)

include hone hleft hright hleftLt hrightLt

/-- The comparison from x value `count - 1` down reads the blocks from their
backs. -/
theorem compareFrom_eq {count : Nat} (hleftCount : count ≤ lefts.length)
    (hrightCount : count ≤ rights.length) :
    compareFrom left right k count =
      .ok (precedes (lefts.take count) (rights.take count)) := by
  induction count with
  | zero => simp [compareFrom, precedes]
  | succ count ih =>
    have hleftAll : left.Packs (xsBits k lefts ++ []) := by rwa [append_nil]
    have hrightAll : right.Packs (xsBits k rights ++ []) := by rwa [append_nil]
    obtain ⟨leftVal, hleftVal, hleftPacks⟩ :=
      range_block hone hleftAll (lt_succ_self count) hleftCount
    obtain ⟨rightVal, hrightVal, hrightPacks⟩ :=
      range_block hone hrightAll (lt_succ_self count) hrightCount
    have hone' : count + 1 - count = 1 := by omega
    have hleftX : (lefts.drop count).take 1 = [lefts[count]] := by
      rw [← getElem_cons_drop hleftCount]
      rfl
    have hrightX : (rights.drop count).take 1 = [rights[count]] := by
      rw [← getElem_cons_drop hrightCount]
      rfl
    have hsingle : ∀ x, xsBits k [x] = bitsOf k x := by
      intro x
      simp [xsBits]
    rw [hone', hleftX, hsingle] at hleftPacks
    rw [hone', hrightX, hsingle] at hrightPacks
    have hcmp := hleftPacks.cmp_eq hrightPacks (by simp)
    rw [bitsNat_bitsOf_of_lt (hleftLt _ (getElem_mem _)),
      bitsNat_bitsOf_of_lt (hrightLt _ (getElem_mem _))] at hcmp
    have hrest := ih (by omega) (by omega)
    rw [compareFrom, hleftVal, bind_ok, hrightVal, bind_ok, hcmp,
      bind_ok, hrest, take_succ_eq_append_getElem hleftCount,
      take_succ_eq_append_getElem hrightCount, precedes_concat]
    cases compare lefts[count] rights[count] <;> rfl

/-- `compare_proof_bits` of two blocks of one length. -/
theorem compareProofBits_eq (hsame : lefts.length = rights.length) :
    compareProofBits left right k = .ok (precedes lefts rights) := by
  have hsizes : left.getSize = right.getSize := by
    rw [hleft.getSize_eq, hright.getSize_eq, length_xsBits, length_xsBits,
      hsame]
  have hcount : left.getSize / k = lefts.length := by
    rw [hleft.getSize_eq, length_xsBits, Nat.mul_div_cancel_left _ hone]
  have hnonzero : k ≠ 0 := by omega
  have hall := compareFrom_eq hone hleft hright hleftLt hrightLt
    (le_refl lefts.length) (by omega)
  rw [take_length, hsame, take_length] at hall
  rw [compareProofBits, if_neg hnonzero, if_neg (by simpa using hsizes),
    hcount, hsame]
  exact hall

end

/-- Blocks of `width` x values, each below `2 ^ k`. -/
def Blocks (k width : Nat) (blocks : List (List Nat)) : Prop :=
  ∀ block ∈ blocks, block.length = width ∧ ∀ x ∈ block, x < 2 ^ k

theorem packs_orderedPair {leftBits rightBits : BitReader}
    {left right : List Nat} (hleft : leftBits.Packs (xsBits k left))
    (hright : rightBits.Packs (xsBits k right)) :
    (if precedes left right then leftBits.addAssign rightBits
      else rightBits.addAssign leftBits).Packs
        (xsBits k (orderedPair left right)) := by
  by_cases horder : precedes left right
  · simpa [orderedPair, horder] using hleft.addAssign hright
  · simpa [orderedPair, horder] using hright.addAssign hleft

theorem orderedPair_block {width : Nat} {left right : List Nat}
    (hleft : left.length = width ∧ ∀ x ∈ left, x < 2 ^ k)
    (hright : right.length = width ∧ ∀ x ∈ right, x < 2 ^ k) :
    (orderedPair left right).length = 2 * width ∧
      ∀ x ∈ orderedPair left right, x < 2 ^ k := by
  have hlength : left.length + right.length = 2 * width := by
    rw [hleft.1, hright.1]
    omega
  rw [orderedPair]
  split
  · refine ⟨by rw [length_append]; exact hlength, ?_⟩
    intro x hx
    exact (mem_append.mp hx).elim (hleft.2 x) (hright.2 x)
  · refine ⟨by rw [length_append]; omega, ?_⟩
    intro x hx
    exact (mem_append.mp hx).elim (hright.2 x) (hleft.2 x)

/-- One table of the reordering is one round over the blocks. -/
theorem reorderPairs_eq (level : Nat) (hone : 1 ≤ k) {width pairs j : Nat}
    (hwidth : 1 ≤ width) {proofBits newProof : BitReader} {front : List Nat}
    {rest newBits : List Bool} {todo : List (List Nat)}
    (h : proofBits.Packs (xsBits k (front ++ todo.flatten) ++ rest))
    (hfront : front.length = j * width) (htodo : todo.length = 2 * pairs)
    (hblocks : Blocks k width todo) (hnew : newProof.Packs newBits) :
    ∃ out winners,
      reorderPairs proofBits k (k * width) pairs j newProof = .ok out ∧
      pairUp orderBlocks level todo = some winners ∧
      out.Packs (newBits ++ xsBits k winners.flatten) ∧
      Blocks k (2 * width) winners := by
  induction pairs generalizing j front todo newProof newBits with
  | zero =>
    have hnil : todo = [] := length_eq_zero_iff.mp htodo
    subst hnil
    refine ⟨newProof, [], rfl, rfl, by simpa [xsBits] using hnew, ?_⟩
    intro block hblock
    simp at hblock
  | succ pairs ih =>
    match todo, htodo with
    | left :: right :: others, htodo =>
      obtain ⟨hleftLength, hleftLt⟩ := hblocks left (by simp)
      obtain ⟨hrightLength, hrightLt⟩ := hblocks right (by simp)
      have hleftAt : proofBits.Packs (xsBits k (front ++ left) ++
          (xsBits k (right ++ others.flatten) ++ rest)) := by
        simpa using h
      have hrightAt : proofBits.Packs (xsBits k (front ++ left ++ right) ++
          (xsBits k others.flatten ++ rest)) := by
        simpa using h
      -- the two blocks, as the reader cuts them
      obtain ⟨leftBits, hleftRange, hleftPacks⟩ := range_after hone hleftAt
        (ne_nil_of_length_pos (by omega))
      obtain ⟨rightBits, hrightRange, hrightPacks⟩ := range_after hone
        hrightAt (ne_nil_of_length_pos (by omega))
      have hcompare := compareProofBits_eq hone hleftPacks hrightPacks
        hleftLt hrightLt (by omega)
      have hjoined := packs_orderedPair hleftPacks hrightPacks
      have hwinner := orderedPair_block (hblocks left (by simp))
        (hblocks right (by simp))
      have hfrontLeft : (front ++ left).length = (j + 1) * width := by
        rw [length_append, hfront, hleftLength]
        ring
      have hfrontAll : (front ++ left ++ right).length = (j + 2) * width := by
        rw [length_append, hfrontLeft, hrightLength]
        ring
      rw [← append_assoc, ← xsBits_append] at hrightAt
      obtain ⟨out, winners, hout, hpairs, hpacks, hwide⟩ := ih hrightAt
        hfrontAll (by simp only [length_cons] at htodo; omega)
        (fun block hblock => hblocks block (by simp [hblock]))
        (hnew.addAssign hjoined)
      refine ⟨out, orderedPair left right :: winners, ?_, ?_, ?_, ?_⟩
      · have hplace : ∀ place, k * (place * width) = place * (k * width) :=
          fun place => by ring
        rw [← length_append, hfrontLeft, hfront, hplace, hplace] at hleftRange
        rw [← length_append, hfrontAll, hfrontLeft, hplace, hplace]
          at hrightRange
        rw [reorderPairs, hleftRange, bind_ok, hrightRange,
          bind_ok, hcompare, bind_ok]
        exact hout
      · simp only [pairUp, orderBlocks, hpairs, Option.bind_eq_bind,
          Option.bind_some, Option.pure_def]
      · simpa [append_assoc] using hpacks
      · exact forall_mem_cons.mpr ⟨hwinner, hwide⟩

/-- The tables of the reordering are the rounds over the blocks. -/
theorem reorderTables_eq (hone : 1 ≤ k) {level tables : Nat}
    (htables : tables ≤ 6) {proofBits : BitReader} {rest : List Bool}
    {blocks : List (List Nat)}
    (h : proofBits.Packs (xsBits k blocks.flatten ++ rest))
    (hcount : blocks.length = 2 ^ tables)
    (hblocks : Blocks k (2 ^ (6 - tables)) blocks) :
    ∃ out winners tail,
      reorderTables k tables (7 - tables) proofBits = .ok out ∧
      rounds orderBlocks level tables blocks = some winners ∧
      out.Packs (xsBits k winners.flatten ++ tail) ∧
      Blocks k (2 ^ 6) winners := by
  induction tables generalizing level proofBits rest blocks with
  | zero => exact ⟨proofBits, blocks, rest, rfl, rfl, h, hblocks⟩
  | succ tables ih =>
    have hexp : 7 - (tables + 1) - 1 = 6 - (tables + 1) := by omega
    have hpairs : 6 - (7 - (tables + 1)) = tables := by omega
    have hindex : 7 - (tables + 1) + 1 = 7 - tables := by omega
    have hwide : 2 * 2 ^ (6 - (tables + 1)) = 2 ^ (6 - tables) := by
      rw [← pow_succ']
      congr 1
      omega
    have htwice : blocks.length = 2 * 2 ^ tables := by
      rw [hcount, pow_succ, Nat.mul_comm]
    obtain ⟨newProof, winners, hnew, hround, hpacks, hwinners⟩ :=
      @reorderPairs_eq k level hone _ (2 ^ tables) 0 Nat.one_le_two_pow
        proofBits _ [] rest _ blocks h (by simp) htwice hblocks
        BitReader.packs_empty
    rw [hwide] at hwinners
    rw [nil_append, ← append_nil (xsBits k winners.flatten)] at hpacks
    obtain ⟨out, last, tail, hout, hrounds, hlast, hwidth⟩ :=
      @ih (level + 1) (by omega) newProof [] winners hpacks
        (length_pairUp htwice hround) hwinners
    refine ⟨out, last, tail, ?_, ?_, hlast, hwidth⟩
    · rw [reorderTables, hexp, hpairs, hnew, bind_ok, hindex, hout]
    · rw [rounds, hround]
      exact hrounds

/-- The packed proof after all six tables is in plot order. -/
theorem reorderTables_plotOrder (hone : 1 ≤ k) {proofBits : BitReader}
    {rest : List Bool}
    (h : proofBits.Packs (xsBits k xs ++ rest)) (hcount : xs.length = 64)
    (hlt : ∀ x ∈ xs, x < 2 ^ k) :
    ∃ out tail, reorderTables k 6 1 proofBits = .ok out ∧
      out.Packs (xsBits k (plotOrder xs) ++ tail) ∧
      (plotOrder xs).length = 64 := by
  have hflat : (xs.map fun x => [x]).flatten = xs := by
    simp [flatten_eq_flatMap, flatMap_map]
  have hlength : (xs.map fun x => [x]).length = 2 ^ 6 := by
    rw [length_map, hcount]
    norm_num
  have hsingles : Blocks k (2 ^ (6 - 6)) (xs.map fun x => [x]) := by
    intro block hblock
    obtain ⟨x, hx, rfl⟩ := mem_map.mp hblock
    exact ⟨rfl, by simpa using hlt x hx⟩
  rw [← hflat] at h
  obtain ⟨out, winners, tail, hout, hrounds, hpacks, hblocks⟩ :=
    @reorderTables_eq k hone 0 6 (le_refl 6) _ _ _ h hlength hsingles
  rw [rounds_eq_treeFold hlength] at hrounds
  cases htree : treeFold orderBlocks 6 (xs.map fun x => [x]) with
  | none => simp [htree] at hrounds
  | some order =>
    rw [htree, Option.map_some, Option.some.injEq] at hrounds
    have horder : plotOrder xs = order := by simp [plotOrder, htree]
    subst hrounds
    rw [horder]
    exact ⟨out, tail, hout, by simpa using hpacks, (hblocks order (by simp)).1⟩

/-- The bits of a challenge that select the x values. -/
theorem selected_lt {challenge : Bytes} (hlength : challenge.length = 32) :
    bitsNat ((byteBits challenge).drop 251) < 32 := by
  have hlt := bitsNat_lt ((byteBits challenge).drop 251)
  rwa [length_drop, length_byteBits, hlength] at hlt

/-- The quality string of a proof that holds its 64 x values. -/
theorem proofQualityString_eq {hashes : PlotHashes} (hone : 1 ≤ k)
    {proof challenge : Bytes} {rest : List Bool}
    (hproof : byteBits proof = xsBits k xs ++ rest) (hcount : xs.length = 64)
    (hlt : ∀ x ∈ xs, x < 2 ^ k) (hlength : challenge.length = 32) :
    proofQualityString hashes k proof
        (2 * bitsNat ((byteBits challenge).drop 251)) challenge =
      .ok (qualityOf hashes k xs challenge) := by
  have hpacks := BitReader.packs_fromBytesBe proof
  rw [hproof] at hpacks
  obtain ⟨ordered, tail, hordered, horderedPacks, horder⟩ :=
    reorderTables_plotOrder hone hpacks hcount hlt
  have hselected := selected_lt hlength
  obtain ⟨pair, hpair, hpairPacks⟩ := range_block hone horderedPacks
    (show 2 * bitsNat ((byteBits challenge).drop 251) <
      2 * bitsNat ((byteBits challenge).drop 251) + 2 by omega) (by omega)
  rw [Nat.add_sub_cancel_left] at hpairPacks
  rw [proofQualityString, hordered, bind_ok, hpair, bind_ok,
    hpairPacks.toBytes_eq]
  rfl

variable {proof : Bytes}

@[simp]
theorem length_proofXs : (proofXs k proof).length = 64 := by simp [proofXs]

theorem proofXs_lt {x : Nat} (hx : x ∈ proofXs k proof) : x < 2 ^ k := by
  obtain ⟨index, -, rfl⟩ := mem_map.mp hx
  refine lt_of_lt_of_le (bitsNat_lt _) (Nat.pow_le_pow_right (by omega) ?_)
  rw [length_take]
  omega

/-- The first fields of a bit string, packed again. -/
theorem xsBits_fields {bits : List Bool} {count : Nat}
    (hcount : k * count ≤ bits.length) :
    xsBits k ((List.range count).map fun index =>
      bitsNat ((bits.drop (k * index)).take k)) = bits.take (k * count) := by
  induction count with
  | zero => simp [xsBits]
  | succ count ih =>
    have hnext : k * (count + 1) = k * count + k := by ring
    have hfield : ((bits.drop (k * count)).take k).length = k := by
      rw [length_take, length_drop]
      omega
    have hone := bitsOf_bitsNat ((bits.drop (k * count)).take k)
    rw [hfield] at hone
    rw [range_succ, map_append, xsBits_append, ih (by omega), hnext, take_add]
    simp [xsBits, hone]

/-- A proof that is long enough starts with its x values. -/
theorem byteBits_proof (hlength : 64 * k ≤ 8 * proof.length) :
    byteBits proof = xsBits k (proofXs k proof) ++
      (byteBits proof).drop (k * 64) := by
  have hinside : k * 64 ≤ (byteBits proof).length := by
    rw [length_byteBits]
    omega
  have hfields := xsBits_fields hinside
  rw [proofXs, hfields, take_append_drop]

open BitReader

variable {hashes : PlotHashes} {plotId : Bytes32}

/-- A proof that holds its 64 x values is unpacked into them. -/
theorem uncompressProof_eq (hone : 1 ≤ k) (hk : k ≤ 58)
    (hlength : 8 * k ≤ proof.length) :
    ∃ xs, uncompressProof proof k = .ok xs ∧
      xs.map UInt64.toNat = proofXs k proof := by
  have hfields : ∃ xs, uncompressProof proof k = .ok xs ∧
      Forall₂ (fun index value => value.toNat =
        bitsNat (((byteBits proof).drop (k * index)).take k)) (range 64) xs := by
    apply mapM_exists
    intro index hindex
    have hend : k * (index + 1) ≤ k * 64 :=
      mul_le_mul_left k (mem_range.mp hindex)
    have hnext : k * (index + 1) - k * index = k := by
      rw [mul_succ, Nat.add_sub_cancel_left]
    have hread := (packs_fromBytesBe proof).sliceToInt_eq
      (show k * index < k * (index + 1) by omega)
      (by rw [length_byteBits]; omega) (by omega)
    rwa [hnext] at hread
  obtain ⟨xs, hxs, hvalues⟩ := hfields
  exact ⟨xs, hxs, forall₂_map_eq (fun _ _ heq => heq) hvalues⟩

section Validation

variable {challenge : Bytes} (hone : 1 ≤ k) (hk : k ≤ 58)
  (hchallenge : challenge.length = 32)

include hone hk hchallenge

/-- The challenge's bits as `validate_proof` reads them, and the branch they
decide. -/
theorem validateProof_of_f7 {xs : List UInt64} {f7 : UInt64}
    (hxs : uncompressProof proof k = .ok xs)
    (hf7 : getF7FromProof hashes k plotId xs = .ok f7) :
    validateProof hashes plotId k proof challenge =
      if bitsNat ((byteBits challenge).take k) = f7.toNat then
        proofQualityString hashes k proof
          (2 * bitsNat ((byteBits challenge).drop 251)) challenge
      else .ok Bytes32.default := by
  have hpacks := packs_fromBytesBe challenge
  have hlength : (byteBits challenge).length = 256 := by
    rw [length_byteBits, hchallenge]
  obtain ⟨tail, htail, htailPacks⟩ := hpacks.range_eq
    (show 256 - 5 < 256 by omega) (by omega)
  have htailLength : (((byteBits challenge).drop (256 - 5)).take
      (256 - (256 - 5))).length = 5 := by
    rw [length_take, length_drop, hlength]
    rfl
  obtain ⟨index, hindex, hindexValue⟩ := htailPacks.readU64_eq
    (show 0 < 5 by omega) (by omega) (by omega)
  rw [take_of_length_le (by omega), take_of_length_le (by
    rw [length_drop, hlength])] at hindexValue
  obtain ⟨head, hhead, hheadPacks⟩ := hpacks.range_eq
    (show 0 < k by omega) (by omega)
  rw [drop_zero, Nat.sub_zero] at hheadPacks
  have hheadLength : ((byteBits challenge).take k).length = k := by
    rw [length_take, hlength]
    omega
  obtain ⟨first, hfirst, hfirstValue⟩ := hheadPacks.firstU64_eq (by omega)
    (by omega)
  have hselected := selected_lt hchallenge
  have hshift : 2 * index.toNat % 2 ^ 16 =
      2 * bitsNat ((byteBits challenge).drop 251) := by
    rw [hindexValue]
    change 2 * bitsNat ((byteBits challenge).drop 251) % 2 ^ 16 = _
    omega
  rw [validateProof, hxs, bind_ok, hf7, bind_ok]
  dsimp only
  rw [hpacks.getSize_eq, hlength, htail, bind_ok, hindex, bind_ok,
    hhead, bind_ok, hfirst, bind_ok, hshift, ← hfirstValue]
  simp only [UInt64.toNat_inj]
  rfl

/-- `validate_proof` of a proof that holds its x values: an error where they do
not match, and a quality string of zeros for another f7. -/
theorem validateProof_settles (hlength : 8 * k ≤ proof.length) :
    Settles (validateProof hashes plotId k proof challenge)
      (propagate hashes k plotId (proofXs k proof)) fun quality root =>
        quality = if bitsNat ((byteBits challenge).take k) = root.y / 64 then
          qualityOf hashes k (proofXs k proof) challenge
        else Bytes32.default := by
  obtain ⟨xs, hxs, hvalues⟩ := uncompressProof_eq hone hk hlength
  have hcount : xs.length = 64 := by
    rw [← length_map UInt64.toNat, hvalues, length_proofXs]
  have hsmall : ∀ x ∈ xs, x.toNat < 2 ^ k := fun x hx =>
    proofXs_lt (hvalues ▸ mem_map_of_mem hx)
  have hsettles := @getF7FromProof_settles hashes _ plotId hone hk _ hcount
    hsmall
  rw [hvalues] at hsettles
  cases hroot : propagate hashes k plotId (proofXs k proof) with
  | none =>
    rw [hroot] at hsettles
    obtain ⟨e, he⟩ := hsettles
    refine ⟨e, ?_⟩
    rw [validateProof, hxs, bind_ok, he]
    rfl
  | some root =>
    rw [hroot] at hsettles
    obtain ⟨f7, hf7, hvalue⟩ := hsettles
    have hquality := @proofQualityString_eq k _ hashes hone proof challenge _
      (byteBits_proof (by omega)) length_proofXs (fun x hx => proofXs_lt hx)
      hchallenge
    refine ⟨_, ?_, rfl⟩
    rw [validateProof_of_f7 hone hk hchallenge hxs hf7, hvalue, hquality]
    split_ifs <;> rfl

end Validation

/-- `verify_and_get_quality_string`; `validator` is the validator of later
versions. -/
def verifyAndGetQualityString (hashes : PlotHashes) (validator : ProofValidator)
    (pos : ProofOfSpace) (constants : PlotConstants)
    (originalChallengeHash signagePoint : Bytes32) (height : UInt32) :
    IoResult (Option Bytes32) :=
  if pos.poolPublicKey.isNone ∧ pos.poolContractPuzzleHash.isNone then
    .ok none
  else if pos.poolPublicKey.isSome ∧ pos.poolContractPuzzleHash.isSome then
    .ok none
  else if pos.version = 0 ∧ pos.size < constants.minPlotSize then .ok none
  else if pos.version = 0 ∧ pos.size > constants.maxPlotSize then .ok none
  else if pos.version ≠ 0 ∧ (pos.strength < constants.minPlotStrength ∨
      pos.strength > constants.maxPlotStrength) then .ok none
  else
    match pos.getPlotId hashes with
    | none => .ok none
    | some plotId =>
      if pos.challenge ≠ calculatePosChallenge hashes plotId
          originalChallengeHash signagePoint then .ok none
      else
        let prefixBits := if pos.version = 0 then
            calculatePrefixBits constants height
          else calculatePrefixBitsV2 constants height
        if ¬ passesPlotFilter hashes prefixBits plotId originalChallengeHash
            signagePoint then .ok none
        else if pos.version = 0 then getQualityString hashes pos plotId
        else .ok (getQualityStringV2 hashes.sha256 validator pos plotId
          constants.plotSizeV2.toNat constants.isTestnet)

section Acceptance

variable (hashes : PlotHashes) (validator : ProofValidator)
  (pos : ProofOfSpace) (constants : PlotConstants)
  (challengeHash signagePoint : Bytes32) (height : UInt32)

/-- The proof is looked at: one pool key, an admissible size, the derived
challenge, and a plot that passes the filter. -/
structure ReachesProof (plotId : Bytes32) : Prop where
  minSize : constants.minPlotSize ≤ pos.size
  maxSize : pos.size ≤ constants.maxPlotSize
  plotId_eq : pos.getPlotId hashes = some plotId
  challenge_eq : pos.challenge =
    calculatePosChallenge hashes plotId challengeHash signagePoint
  filter : passesPlotFilter hashes (calculatePrefixBits constants height)
    plotId challengeHash signagePoint = true

/-- The size is one that the tables are made for, and the proof has all its 64
fields. -/
structure ProofOfSpace.HoldsFields : Prop where
  sizePos : 1 ≤ pos.size.toNat
  sizeLe : pos.size.toNat ≤ 58
  long : 8 * pos.size.toNat ≤ pos.proof.length

/-- The f7 value that the challenge of a proof asks for. -/
def ProofOfSpace.wantedF7 : Nat :=
  bitsNat ((byteBits pos.challenge.bytes).take pos.size.toNat)

/-- The proof answers its challenge, and `quality` is its quality string. -/
def AnswersChallenge (quality : Bytes32) : Prop :=
  ∃ plotId root,
    64 * pos.size.toNat ≤ 8 * pos.proof.length ∧
    propagate hashes pos.size.toNat plotId
      (proofXs pos.size.toNat pos.proof) = some root ∧
    root.y / 64 = pos.wantedF7 ∧
    pos.getPlotId hashes = some plotId ∧
    pos.challenge =
      calculatePosChallenge hashes plotId challengeHash signagePoint ∧
    quality = qualityOf hashes pos.size.toNat
      (proofXs pos.size.toNat pos.proof) pos.challenge.bytes

/-- The verifier returns the quality string of a proof that answers its
challenge, or `None`. -/
def AcceptsOnlyAnswers : Prop :=
  verifyAndGetQualityString hashes validator pos constants challengeHash
      signagePoint height = .ok none ∨
    ∃ quality,
      verifyAndGetQualityString hashes validator pos constants
        challengeHash signagePoint height = .ok (some quality) ∧
      AnswersChallenge hashes pos challengeHash signagePoint quality

variable {hashes pos constants challengeHash signagePoint height}

/-- A proof that is looked at and holds its fields: the verdict is that of its
tree. -/
theorem verify_of_reaches (hversion : pos.version = 0)
    (hreach : ReachesProof hashes pos constants challengeHash signagePoint
      height plotId) (hfields : pos.HoldsFields) :
    verifyAndGetQualityString hashes validator pos constants challengeHash
        signagePoint height =
      .ok ((propagate hashes pos.size.toNat plotId
        (proofXs pos.size.toNat pos.proof)).map fun root =>
          if pos.wantedF7 = root.y / 64 then qualityOf hashes pos.size.toNat
            (proofXs pos.size.toNat pos.proof) pos.challenge.bytes
          else Bytes32.default) := by
  obtain ⟨hmin, hmax, hid, hchallenge, hfilter⟩ := hreach
  replace hmin : ¬ pos.size < constants.minPlotSize := UInt8.not_lt.mpr hmin
  replace hmax : ¬ pos.size > constants.maxPlotSize := UInt8.not_lt.mpr hmax
  have hkeys : ¬ (pos.poolPublicKey.isNone ∧
        pos.poolContractPuzzleHash.isNone) ∧
      ¬ (pos.poolPublicKey.isSome ∧ pos.poolContractPuzzleHash.isSome) := by
    rw [ProofOfSpace.getPlotId] at hid
    cases hkey : pos.poolPublicKey <;>
      cases hcontract : pos.poolContractPuzzleHash <;> simp_all
  have hsettles := @validateProof_settles _ pos.proof hashes plotId _
    hfields.sizePos hfields.sizeLe pos.challenge.length_eq hfields.long
  simp only [verifyAndGetQualityString, hkeys, hversion, hmin, hmax, hid,
    ← hchallenge, hfilter, and_false, ne_eq, not_true_eq_false, false_and,
    ↓reduceIte, getQualityString]
  cases hroot : propagate hashes pos.size.toNat plotId
      (proofXs pos.size.toNat pos.proof) with
  | none =>
    rw [hroot] at hsettles
    obtain ⟨e, he⟩ := hsettles
    rw [he]
    rfl
  | some root =>
    rw [hroot] at hsettles
    obtain ⟨quality, hquality, rfl⟩ := hsettles
    rw [hquality]
    rfl

theorem verify_of_not_reaches (hversion : pos.version = 0)
    (h : ∀ plotId, ¬ ReachesProof hashes pos constants challengeHash
      signagePoint height plotId) :
    verifyAndGetQualityString hashes validator pos constants
      challengeHash signagePoint height = .ok none := by
  rw [verifyAndGetQualityString]
  split_ifs with hnone hsome hmin hmax hstrength
  all_goals try rfl
  cases hid : pos.getPlotId hashes with
  | none => rfl
  | some plotId =>
    by_cases hchallenge : pos.challenge = calculatePosChallenge hashes plotId
        challengeHash signagePoint
    · by_cases hfilter : passesPlotFilter hashes (calculatePrefixBits
          constants height) plotId challengeHash signagePoint = true
      · refine absurd ⟨?_, ?_, hid, hchallenge, hfilter⟩ (h plotId)
        · exact UInt8.not_lt.mp fun hlt => hmin ⟨hversion, hlt⟩
        · exact UInt8.not_lt.mp fun hlt => hmax ⟨hversion, hlt⟩
      · simp only [← hchallenge, ne_eq, not_true_eq_false, hfilter,
          Bool.false_eq_true, not_false_eq_true, ↓reduceIte]
    · simp only [hchallenge, ne_eq, not_false_eq_true, ↓reduceIte]

/-- Where every proof that is looked at holds its fields, the verifier accepts
no proof but one that answers its challenge exactly if each of them reaches the
wanted f7, when its x values match at all. -/
theorem verifyAndGetQualityString_acceptsOnlyAnswers_iff
    (hversion : pos.version = 0)
    (hfields : ∀ plotId, ReachesProof hashes pos constants challengeHash
      signagePoint height plotId → pos.HoldsFields) :
    AcceptsOnlyAnswers hashes validator pos constants challengeHash
        signagePoint height ↔
      ∀ plotId root, ReachesProof hashes pos constants challengeHash
          signagePoint height plotId →
        propagate hashes pos.size.toNat plotId
            (proofXs pos.size.toNat pos.proof) = some root →
        root.y / 64 = pos.wantedF7 := by
  constructor
  · intro haccepts plotId root hreach hroot
    by_contra hf7
    rw [AcceptsOnlyAnswers, verify_of_reaches validator hversion hreach
      (hfields plotId hreach), hroot, Option.map_some,
      if_neg (Ne.symm hf7)] at haccepts
    obtain hnone | ⟨quality, -, other, otherRoot, -, hother, hotherF7,
      hotherId, -, -⟩ := haccepts
    · cases hnone
    · have hplot : other = plotId :=
        Option.some.inj (hotherId.symm.trans hreach.plotId_eq)
      rw [hplot, hroot] at hother
      exact hf7 (Option.some.inj hother ▸ hotherF7)
  · intro hcond
    by_cases hreaches : ∃ plotId, ReachesProof hashes pos constants
        challengeHash signagePoint height plotId
    · obtain ⟨plotId, hreach⟩ := hreaches
      have hholds := hfields plotId hreach
      rw [AcceptsOnlyAnswers, verify_of_reaches validator hversion hreach
        hholds]
      cases hroot : propagate hashes pos.size.toNat plotId
          (proofXs pos.size.toNat pos.proof) with
      | none => exact Or.inl rfl
      | some root =>
        have hf7 := hcond plotId root hreach hroot
        refine Or.inr ⟨_, congrArg (Except.ok ∘ some) (if_pos hf7.symm), plotId,
          root, ?_, hroot, hf7, hreach.plotId_eq, hreach.challenge_eq, rfl⟩
        have hlong := hholds.long
        omega
    · exact Or.inl (verify_of_not_reaches validator hversion
        fun plotId hreach => hreaches ⟨plotId, hreach⟩)

end Acceptance

section SmallPlot

/-- A key stream of equal words, by the parity of the block. -/
def smallKeystream (block : UInt64) : KeystreamBlock :=
  ⟨(List.replicate 16 (beBytes 4 (if block % 2 = 0 then 1 else 326))).flatten,
    by simp⟩

/-- A hash that reads the code in front of the metadata, gives one of two
matching y values by a bit of it, and hands a code on to the next table. -/
def smallBlake3 (input : Bytes) : Bytes32 :=
  let code := bitsNat (((byteBits input).drop 38).take 32) / 32
  let bit :=
    match input.length with
    | 13 => code % 2
    | 37 => if code < 32 then code / 4 % 2 else code / 2 % 2
    | _ => code / 2 % 2
  let next := if code < 32 then 32 + code / 4 else 64 + (code - 32) / 2
  ⟨beBytes 32 ((if bit = 0 then 64 else 20864) * 2 ^ 218 +
    32 * next * 2 ^ 186), length_beBytes _ _⟩

/-- Hashes for a plot of size 32; SHA-256 is constant. -/
def smallHashes (digest : Bytes32) : PlotHashes where
  keystream _ block := smallKeystream block
  blake3 := smallBlake3
  sha256 _ := digest

/-- 64 x values whose y values match pairwise. -/
def smallProof : Bytes :=
  (List.range 32).flatMap fun i => beBytes 4 (32 * i) ++ beBytes 4 (32 * i + 16)

/-- A SHA-256 value that passes the plot filter and asks for f7 `0x00000707`. -/
def foreignDigest : Bytes32 := ⟨[0, 0] ++ List.replicate 30 7, rfl⟩

/-- The same for f7 1. -/
def answeredDigest : Bytes32 := ⟨[0, 0, 0, 1] ++ List.replicate 28 7, rfl⟩

def smallPos (challenge : Bytes32) : ProofOfSpace :=
  { recordedProof with
    challenge, version := 0, strength := 0, size := 32, proof := smallProof }

def verifySmall (digest : Bytes32) : IoResult (Option Bytes32) :=
  verifyAndGetQualityString (smallHashes digest) recordedValidator
    (smallPos digest) PlotConstants.mainnet Bytes32.default Bytes32.default 0

/-- Under the mainnet constants, a proof whose x values match at all six levels
but propagate to f7 1, where the challenge asks for `0x00000707`, is accepted;
its quality string is 32 zero bytes. -/
theorem foreign_f7_accepted :
    verifySmall foreignDigest = .ok (some Bytes32.default) ∧
      ¬ AcceptsOnlyAnswers (smallHashes foreignDigest) recordedValidator
        (smallPos foreignDigest) PlotConstants.mainnet Bytes32.default
        Bytes32.default 0 := by
  refine (fun hrun => ⟨hrun, ?_⟩) (by decide +kernel)
  rw [AcceptsOnlyAnswers, ← verifySmall, hrun]
  rintro (hnone | ⟨quality, hsome, _, _, _, _, _, _, _, hquality⟩)
  · cases hnone
  · have hzero : Bytes32.default = quality :=
      Option.some.inj (Except.ok.inj hsome)
    have hdigest : Bytes32.default = foreignDigest := hzero.trans hquality
    exact absurd hdigest (by decide)

/-- The same proof answers a challenge that asks for f7 1, and is accepted with
its quality string. -/
theorem verifyAndGetQualityString_acceptsOnlyAnswers_iff_at_answered :
    verifySmall answeredDigest = .ok (some answeredDigest) ∧
      AcceptsOnlyAnswers (smallHashes answeredDigest) recordedValidator
        (smallPos answeredDigest) PlotConstants.mainnet Bytes32.default
        Bytes32.default 0 := by
  refine ⟨by decide +kernel,
    (verifyAndGetQualityString_acceptsOnlyAnswers_iff recordedValidator rfl
      fun _ _ => ⟨by decide, by decide, by decide +kernel⟩).mpr ?_⟩
  intro plotId root hreach hroot
  have hplot : plotId = answeredDigest :=
    (Option.some.inj hreach.plotId_eq).symm
  have hf7 : (propagate (smallHashes answeredDigest)
      (smallPos answeredDigest).size.toNat answeredDigest
      (proofXs (smallPos answeredDigest).size.toNat
        (smallPos answeredDigest).proof)).map (fun root => root.y / 64) =
      some (smallPos answeredDigest).wantedF7 := by
    decide +kernel
  rw [hplot] at hroot
  rw [hroot] at hf7
  exact Option.some.inj hf7

end SmallPlot

end DgXch
