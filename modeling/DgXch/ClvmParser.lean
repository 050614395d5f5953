/-
CLVM trees and their plain serialization (`sexp_to_bytes`, `sexp_from_bytes`),
with the length prefix of an atom (`encode_size`, `decode_size`).  The parser is
the operation-and-value-stack loop of the source; the bytes it consumes for one
expression are exactly those that the grammar `Reads` relates to the tree it
returns.
-/
import DgXch.ByteStream

namespace DgXch

open BigEndian ByteBits UInt8 Nat Cursor DgXch.Except

variable {size : Nat} {lead : UInt8} {tail : Bytes}

def maxDecodeSize : Nat := 0x400000000

def consBoxMarker : UInt8 := 0xff

def maxSingleByte : UInt8 := 0x7f

/-- `encode_size`: the bytes written for the length `size`. -/
def encodeSize (size : Nat) : Except IoError Bytes :=
  if size < 0x40 then
    .ok [UInt8.ofNat (0x80 ||| size)]
  else if size < 0x2000 then
    .ok [UInt8.ofNat (0xc0 ||| (size >>> 8)), UInt8.ofNat (size &&& 0xff)]
  else if size < 0x100000 then
    .ok [UInt8.ofNat (0xe0 ||| (size >>> 16)),
      UInt8.ofNat ((size >>> 8) &&& 0xff), UInt8.ofNat (size &&& 0xff)]
  else if size < 0x8000000 then
    .ok [UInt8.ofNat (0xf0 ||| (size >>> 24)),
      UInt8.ofNat ((size >>> 16) &&& 0xff),
      UInt8.ofNat ((size >>> 8) &&& 0xff), UInt8.ofNat (size &&& 0xff)]
  else if size < 0x400000000 then
    .ok [UInt8.ofNat (0xf8 ||| (size >>> 32)),
      UInt8.ofNat ((size >>> 24) &&& 0xff),
      UInt8.ofNat ((size >>> 16) &&& 0xff),
      UInt8.ofNat ((size >>> 8) &&& 0xff), UInt8.ofNat (size &&& 0xff)]
  else
    .error ⟨.invalidData, "atom too big"⟩

/-- The loop of `decode_size` that strips the leading one bits.  `maskBits` is
the number of bits at or below `bit_mask`, so zero is an exhausted mask. -/
def stripLeadingOnes : Nat → UInt8 → Nat → Nat × UInt8
  | 0, b, bitCount => (bitCount, b)
  | maskBits + 1, b, bitCount =>
    let bitMask : UInt8 := 1 <<< UInt8.ofNat maskBits
    if b &&& bitMask ≠ 0 then
      stripLeadingOnes maskBits (b &&& (0xff ^^^ bitMask)) (bitCount + 1)
    else (bitCount, b)

def leadingOnes (b : UInt8) : Nat := (stripLeadingOnes 8 b 0).1

/-- The bits of `b` below its leading ones. -/
def sizeBits (b : UInt8) : UInt8 := (stripLeadingOnes 8 b 0).2

/-- `decode_size`: the length whose prefix starts with `initialB`, the other
prefix bytes being read from the stream. -/
def decodeSize (stream : Cursor) (initialB : UInt8) :
    Except IoError (Nat × Cursor) :=
  if initialB &&& 0x80 = 0 then
    .error ⟨.invalidInput, "bad encoding"⟩
  else do
    let (bitCount, b) := stripLeadingOnes 8 initialB 0
    let (blob, stream) ← stream.readExact (bitCount - 1)
    if bitCount > 6 then
      .error ⟨.invalidInput, "bad encoding"⟩
    else
      let v := (b :: blob).foldl (fun v b => v * 256 + b.toNat) 0
      if v ≥ maxDecodeSize then
        .error ⟨.invalidInput, "bad encoding"⟩
      else
        .ok (v, stream)

/-- A size prefix of `width` bytes whose value is `size`. -/
structure IsSizePrefix (lead : UInt8) (tail : Bytes) (size : Nat) : Prop where
  high : 0x80 ≤ lead
  width : tail.length + 1 = leadingOnes lead
  value : beNat (sizeBits lead :: tail) = size

/-- The smallest length that needs a prefix of `width` bytes. -/
def widthFloor : Nat → Nat
  | 0 => 0
  | 1 => 1
  | width + 2 => 2 ^ (7 * width + 6)

/-- The number of prefix bytes `encode_size` writes. -/
def sizeWidth (size : Nat) : Nat :=
  if size < 0x40 then 1 else if size < 0x2000 then 2
  else if size < 0x100000 then 3 else if size < 0x8000000 then 4 else 5

/-- The first byte of a prefix of `width` bytes with no length bits set. -/
def widthMarker (width : Nat) : Nat := 0x100 - 2 ^ (8 - width)

variable (b : UInt8)

/-- How the bits of a prefix byte split into its width and its length bits,
over all bytes. -/
theorem prefixByte_table :
    (b &&& 0x80 = 0 ↔ ¬ 0x80 ≤ b) ∧ (0 < leadingOnes b ↔ 0x80 ≤ b) ∧
      (leadingOnes b = 1 → (sizeBits b).toNat = 1 → b = 0x81) ∧
      (leadingOnes b = 1 → (sizeBits b).toNat = 0 → b = 0x80) ∧
      (sizeBits b).toNat < 2 ^ (7 - leadingOnes b) ∧
      UInt8.ofNat (widthMarker (leadingOnes b) ||| (sizeBits b).toNat) = b := by
  revert b
  apply forall_byte
  decide +kernel

theorem and_high_eq_zero_iff : b &&& 0x80 = 0 ↔ ¬ 0x80 ≤ b :=
  (prefixByte_table b).1

theorem high_iff_not_le_single : 0x80 ≤ b ↔ ¬ b ≤ maxSingleByte := by
  rw [le_iff_toNat_le, le_iff_toNat_le]
  exact Nat.not_le.symm

theorem not_le_high_imp : ¬ b ≤ 0x80 → 0x80 ≤ b := by
  rw [le_iff_toNat_le, le_iff_toNat_le]
  exact fun h => Nat.le_of_lt (Nat.lt_of_not_le h)

theorem leadingOnes_pos_iff : 0 < leadingOnes b ↔ 0x80 ≤ b :=
  (prefixByte_table b).2.1

theorem sizeBits_lt : (sizeBits b).toNat < 2 ^ (7 - leadingOnes b) :=
  (prefixByte_table b).2.2.2.2.1

/-- The width and the length bits of a prefix byte are read back. -/
theorem stripLeadingOnes_widthMarker {width bits : Nat} (hpos : 0 < width)
    (hwidth : width ≤ 5) (hbits : bits < 2 ^ (7 - width)) :
    stripLeadingOnes 8 (UInt8.ofNat (widthMarker width ||| bits)) 0 =
        (width, UInt8.ofNat bits) ∧
      bits < 256 := by
  have hall : ∀ w : Fin 6, 0 < w.val → ∀ x : Fin (2 ^ (7 - w.val)),
      stripLeadingOnes 8 (ofNat (widthMarker w.val ||| x.val)) 0 =
          (w.val, ofNat x.val) ∧ x.val < 256 := by
    decide +kernel
  exact hall ⟨width, by omega⟩ hpos ⟨bits, hbits⟩

variable {width : Nat}

theorem widthFloor_pos (hpos : 0 < width) : 0 < widthFloor width := by
  match width with
  | 1 => decide
  | width + 2 => exact Nat.two_pow_pos _

theorem eq_one_of_widthFloor_le_one (hpos : 0 < width)
    (hfloor : widthFloor width ≤ 1) : width = 1 := by
  match width with
  | 1 => rfl
  | width + 2 =>
    have : 2 ^ 6 ≤ 2 ^ (7 * width + 6) :=
      Nat.pow_le_pow_right (by decide) (by omega)
    rw [widthFloor] at hfloor
    omega

theorem sizeWidth_pos (size : Nat) : 0 < sizeWidth size := by
  unfold sizeWidth
  split_ifs <;> decide

theorem sizeWidth_le (size : Nat) : sizeWidth size ≤ 5 := by
  unfold sizeWidth
  split_ifs <;> decide

theorem widthFloor_sizeWidth_le (hpos : 0 < size) :
    widthFloor (sizeWidth size) ≤ size := by
  unfold sizeWidth
  split_ifs <;> simp only [widthFloor] <;> omega

theorem lt_pow_sizeWidth (hsize : size < maxDecodeSize) :
    size < 2 ^ (7 - sizeWidth size) * 256 ^ (sizeWidth size - 1) := by
  unfold maxDecodeSize at hsize
  unfold sizeWidth
  split_ifs <;> omega

/-- The width is determined by the range its prefixes cover. -/
theorem sizeWidth_eq (hpos : 0 < width) (hwidth : width ≤ 5)
    (hfloor : widthFloor width ≤ size)
    (hlt : size < 2 ^ (7 - width) * 256 ^ (width - 1)) :
    sizeWidth size = width := by
  unfold sizeWidth
  interval_cases width <;> simp only [widthFloor] at hfloor <;>
    split_ifs <;> omega

/-- `encode_size` writes the width marker with the top length bits, then the
low bytes of the length. -/
theorem encodeSize_eq (hsize : size < maxDecodeSize) :
    encodeSize size =
      .ok (UInt8.ofNat (widthMarker (sizeWidth size) |||
            size / 256 ^ (sizeWidth size - 1)) ::
          beBytes (sizeWidth size - 1) size) := by
  have hmask (n : Nat) : ofNat (n &&& 255) = ofNat n := by
    apply UInt8.toNat_inj.mp
    rw [Nat.and_two_pow_sub_one_eq_mod n 8]
    simp
  unfold maxDecodeSize at hsize
  unfold encodeSize sizeWidth
  split_ifs <;>
    simp [widthMarker, beBytes, hmask, Nat.shiftRight_eq_div_pow,
      Nat.div_div_eq_div_mul]

theorem encodeSize_too_big (hsize : maxDecodeSize ≤ size) :
    encodeSize size = .error ⟨.invalidData, "atom too big"⟩ := by
  unfold maxDecodeSize at hsize
  unfold encodeSize
  iterate 5 rw [if_neg (by omega)]

/-- What `encode_size` writes is a prefix of the width it should have. -/
theorem encodeSize_eq_ok {out : Bytes} (hencode : encodeSize size = .ok out) :
    size < maxDecodeSize ∧ ∃ lead tail, out = lead :: tail ∧
      IsSizePrefix lead tail size ∧ leadingOnes lead = sizeWidth size := by
  have hsize : size < maxDecodeSize := by
    by_contra hbig
    rw [encodeSize_too_big (not_lt.mp hbig)] at hencode
    cases hencode
  rw [encodeSize_eq hsize] at hencode
  cases hencode
  have hbits : size / 256 ^ (sizeWidth size - 1) < 2 ^ (7 - sizeWidth size) :=
    Nat.div_lt_of_lt_mul (Nat.mul_comm _ _ ▸ lt_pow_sizeWidth hsize)
  obtain ⟨hstrip, hbyte⟩ := stripLeadingOnes_widthMarker (sizeWidth_pos size)
    (sizeWidth_le size) hbits
  have hpos := sizeWidth_pos size
  refine ⟨hsize, _, _, rfl, ⟨?_, ?_, ?_⟩, ?_⟩
  · rw [← leadingOnes_pos_iff, leadingOnes, hstrip]
    exact hpos
  · rw [leadingOnes, hstrip, length_beBytes]
    omega
  · rw [sizeBits, hstrip, beNat_cons, length_beBytes, beNat_beBytes,
      toNat_ofNat', Nat.mod_eq_of_lt hbyte]
    exact Nat.div_add_mod' size _
  · rw [leadingOnes, hstrip]

theorem IsSizePrefix.lt_pow (h : IsSizePrefix lead tail size) :
    size < 2 ^ (7 - leadingOnes lead) * 256 ^ (leadingOnes lead - 1) := by
  have hbits := sizeBits_lt lead
  have htail := beNat_lt tail
  have hlength := Nat.eq_sub_of_add_eq h.width
  have hstep : ((sizeBits lead).toNat + 1) * 256 ^ tail.length ≤
      2 ^ (7 - leadingOnes lead) * 256 ^ tail.length :=
    mul_le_mul_right _ hbits
  rw [← h.value, beNat_cons, ← hlength]
  linarith

/-- A prefix at or above its width's floor is the one `encode_size` writes. -/
theorem IsSizePrefix.eq_encodeSize (h : IsSizePrefix lead tail size)
    (hwidth : leadingOnes lead ≤ 6) (hsize : size < maxDecodeSize)
    (hfloor : widthFloor (leadingOnes lead) ≤ size) :
    encodeSize size = .ok (lead :: tail) := by
  have hlength := h.width
  have hpos : 0 < leadingOnes lead := (leadingOnes_pos_iff lead).mpr h.high
  have hfive : leadingOnes lead ≤ 5 := by
    by_contra hsix
    have hsix : leadingOnes lead = 6 := by omega
    rw [hsix] at hfloor
    simp only [widthFloor] at hfloor
    unfold maxDecodeSize at hsize
    omega
  have htail : tail.length = leadingOnes lead - 1 := by omega
  have hvalue : (sizeBits lead).toNat * 256 ^ tail.length + beNat tail =
      size := by
    rw [← beNat_cons]
    exact h.value
  have hbits : size / 256 ^ tail.length = (sizeBits lead).toNat := by
    rw [← hvalue, mul_comm, mul_add_div (by positivity),
      div_eq_of_lt (beNat_lt tail), add_zero]
  have hlead : ofNat (widthMarker (leadingOnes lead) |||
      (sizeBits lead).toNat) = lead :=
    (prefixByte_table lead).2.2.2.2.2
  rw [encodeSize_eq hsize, sizeWidth_eq hpos hfive hfloor h.lt_pow, ← htail,
    hbits, hlead, ← hvalue, beBytes_beNat]

/-- A written prefix is determined by its width's floor. -/
theorem widthFloor_le_of_encodeSize (hpos : 0 < size)
    (hencode : encodeSize size = .ok (lead :: tail)) :
    widthFloor (leadingOnes lead) ≤ size := by
  obtain ⟨-, _, _, ⟨⟩, -, hwidth⟩ := encodeSize_eq_ok hencode
  rw [hwidth]
  exact widthFloor_sizeWidth_le hpos

/-- `decode_size` succeeds exactly on the prefixes of at most six bytes whose
value is below `MAX_DECODE_SIZE`, and reads no byte after them. -/
theorem decodeSize_eq_ok {stream next : Cursor} :
    decodeSize stream lead = .ok (size, next) ↔
      ∃ tail back, stream.rest = tail ++ back ∧ IsSizePrefix lead tail size ∧
        leadingOnes lead ≤ 6 ∧ size < maxDecodeSize ∧
        next = stream.advance tail.length := by
  have hmark := and_high_eq_zero_iff lead
  constructor
  · intro hdecode
    unfold decodeSize at hdecode
    split_ifs at hdecode with hhigh
    obtain ⟨⟨blob, stream'⟩, hread, hdecode⟩ := bind_eq_ok.mp hdecode
    obtain ⟨hlength, ⟨back, hrest⟩, rfl⟩ := readExact_eq_ok.mp hread
    have hlead : 0x80 ≤ lead := by tauto
    have hpos := (leadingOnes_pos_iff lead).mpr hlead
    change blob.length = leadingOnes lead - 1 at hlength
    dsimp only at hdecode
    split_ifs at hdecode with hwidth hsize
    cases hdecode
    have hvalue : IsSizePrefix lead blob (beNat (sizeBits lead :: blob)) :=
      ⟨hlead, by omega, rfl⟩
    exact ⟨blob, back, hrest, hvalue, not_lt.mp hwidth,
      not_le.mp hsize, hlength ▸ rfl⟩
  · rintro ⟨tail, back, hrest, hspells, hwidth, hsize, rfl⟩
    have hlength := Nat.eq_sub_of_add_eq hspells.width
    have hread := readExact_append hrest
    rw [hlength] at hread
    have hhigh : ¬ lead &&& 0x80 = 0 := by
      have := hspells.high
      tauto
    rw [decodeSize, if_neg hhigh]
    change (stream.readExact (leadingOnes lead - 1) >>= _) = _
    rw [hread]
    change (if leadingOnes lead > 6 then _ else
      if beNat (sizeBits lead :: tail) ≥ maxDecodeSize then _ else
        Except.ok (beNat (sizeBits lead :: tail), _)) = _
    rw [if_neg (by omega), hspells.value, if_neg (by omega), hlength]

open List Cursor

variable {stream next : Cursor} {t : SExp}

namespace SExp

/-- Every atom is short enough for a size prefix. -/
def Encodable (t : SExp) : Prop := ∀ data ∈ t.atoms, data.length < maxDecodeSize

instance (t : SExp) : Decidable t.Encodable :=
  inferInstanceAs (Decidable (∀ data ∈ t.atoms, _))

end SExp

/-- The work list of `sexp_to_bytes`, top of stack first. -/
def sexpToBytesLoop : List SExp → Bytes → Except IoError Bytes
  | [], buffer => .ok buffer
  | .atom data :: stack, buffer =>
    if data = [] then
      sexpToBytesLoop stack (buffer ++ [0x80])
    else if data.length = 1 ∧ data.headD 0 ≤ maxSingleByte then
      sexpToBytesLoop stack (buffer ++ [data.headD 0])
    else do
      let lead ← encodeSize data.length
      sexpToBytesLoop stack (buffer ++ lead ++ data)
  | .pair first rest :: stack, buffer =>
    sexpToBytesLoop (first :: rest :: stack) (buffer ++ [consBoxMarker])
termination_by stack => (stack.map SExp.size).sum
decreasing_by
  all_goals simp [SExp.size]
  all_goals omega

def sexpToBytes (sexp : SExp) : Except IoError Bytes :=
  sexpToBytesLoop [sexp] []

inductive ParserOp where
  | exp
  | cons
deriving Repr, DecidableEq

theorem Cursor.remaining_lt_of_readByte {byte : UInt8}
    (hread : stream.readByte = .ok (byte, next)) :
    next.remaining < stream.remaining := by
  obtain ⟨⟨back, hrest⟩, rfl⟩ := readByte_eq_ok.mp hread
  have hlength := stream.length_rest
  rw [hrest, length_cons] at hlength
  simp only [remaining_advance]
  omega

def parseAtomFromFirstByte (stream : Cursor) (firstByte : UInt8) :
    ClvmResult (SExp × Cursor) :=
  if firstByte = 0x80 then .ok (SExp.nil, stream)
  else if firstByte ≤ maxSingleByte then .ok (.atom [firstByte], stream)
  else do
    let (blobSize, stream) ← liftIo (decodeSize stream firstByte)
    if stream.remaining < blobSize then .error .badEncoding
    else do
      let (blob, stream) ← liftIo (stream.readExact blobSize)
      .ok (.atom blob, stream)

/-- The bytes of one atom token and the atom it stands for. -/
inductive AtomToken : Bytes → Bytes → Prop where
  | nil : AtomToken [0x80] []
  | byte (b : UInt8) (hb : b ≤ maxSingleByte) : AtomToken [b] [b]
  | sized (lead : UInt8) (tail data : Bytes) (hlead : lead ≠ 0x80)
      (hwidth : leadingOnes lead ≤ 6) (hsize : data.length < maxDecodeSize)
      (hspells : IsSizePrefix lead tail data.length) :
      AtomToken (lead :: (tail ++ data)) data

/-- An atom is parsed exactly when its token is next in the stream. -/
theorem parseAtomFromFirstByte_eq_ok :
    parseAtomFromFirstByte stream lead = .ok (t, next) ↔
      ∃ tail back data, AtomToken (lead :: tail) data ∧
        stream.rest = tail ++ back ∧ t = .atom data ∧
        next = stream.advance tail.length := by
  constructor
  · intro hparse
    unfold parseAtomFromFirstByte at hparse
    split_ifs at hparse with hnil hbyte
    · cases hparse
      exact ⟨[], stream.rest, [], hnil ▸ .nil, rfl, rfl, rfl⟩
    · cases hparse
      exact ⟨[], stream.rest, [lead], .byte lead hbyte, rfl, rfl, rfl⟩
    · obtain ⟨⟨blobSize, mid⟩, hdecode, hparse⟩ := bind_eq_ok.mp hparse
      obtain ⟨tail, back, hrest, hspells, hwidth, hsize, rfl⟩ :=
        decodeSize_eq_ok.mp (liftIo_eq_ok.mp hdecode)
      dsimp only at hparse
      split_ifs at hparse
      obtain ⟨⟨blob, last⟩, hread, hparse⟩ := bind_eq_ok.mp hparse
      cases hparse
      obtain ⟨rfl, ⟨back', hback⟩, rfl⟩ :=
        readExact_eq_ok.mp (liftIo_eq_ok.mp hread)
      rw [rest_advance, hrest, drop_left] at hback
      refine ⟨tail ++ blob, back', blob,
        .sized lead tail blob hnil hwidth hsize hspells, ?_, rfl, ?_⟩
      · rw [hrest, hback, append_assoc]
      · simp
  · rintro ⟨tail, back, data, htoken, hrest, rfl, rfl⟩
    unfold parseAtomFromFirstByte
    cases htoken with
    | nil => rfl
    | byte b hb =>
      have hne : lead ≠ 0x80 := by
        rintro rfl
        exact absurd hb (by decide)
      rw [if_neg hne, if_pos hb]
      rfl
    | sized lead tail data hlead hwidth hsize hspells =>
      have hnot := (high_iff_not_le_single lead).mp hspells.high
      rw [append_assoc] at hrest
      have hdecode : decodeSize stream lead =
          .ok (data.length, stream.advance tail.length) :=
        decodeSize_eq_ok.mpr ⟨tail, data ++ back, hrest, hspells, hwidth,
          hsize, rfl⟩
      have hmid : (stream.advance tail.length).rest = data ++ back := by
        rw [rest_advance, hrest, drop_left]
      have hroom : ¬ (stream.advance tail.length).remaining < data.length := by
        rw [← length_rest, hmid, length_append]
        omega
      rw [if_neg hlead, if_neg hnot, hdecode]
      simp only [liftIo_ok, bind_ok, if_neg hroom, readExact_append hmid,
        advance_advance, length_append]

theorem remaining_le_of_parseAtomFromFirstByte
    (hparse : parseAtomFromFirstByte stream lead = .ok (t, next)) :
    next.remaining ≤ stream.remaining := by
  obtain ⟨tail, -, -, -, -, -, rfl⟩ := parseAtomFromFirstByte_eq_ok.mp hparse
  rw [remaining_advance]
  exact Nat.sub_le _ _

/-- The loop of `sexp_from_bytes`; both stacks have their top first.  The source
writes the body of `parse_atom_from_first_byte` out in this function. -/
def sexpFromBytesLoop (opBuf : List ParserOp) (valBuf : List SExp)
    (stream : Cursor) : ClvmResult (SExp × Cursor) :=
  match opBuf with
  | [] =>
    match valBuf with
    | [] => .error (.invalidSyntax "Failed to Parse SExp")
    | value :: _ => .ok (value, stream)
  | .exp :: opBuf =>
    if ¬ stream.hasRemaining then
      .error (.unexpectedEndOfValues "Unexpected End of SExp Stream")
    else
      match _hbyte : stream.readByte with
      | .error e => .error (.ioError e)
      | .ok (byte, next) =>
        if byte = consBoxMarker then
          sexpFromBytesLoop (.exp :: .exp :: .cons :: opBuf) valBuf next
        else
          match _hatom : parseAtomFromFirstByte next byte with
          | .error e => .error e
          | .ok (value, next) => sexpFromBytesLoop opBuf (value :: valBuf) next
  | .cons :: opBuf =>
    match valBuf with
    | second :: first :: valBuf =>
      sexpFromBytesLoop opBuf (.pair first second :: valBuf) stream
    | _ => .error .badEncoding
termination_by 3 * stream.remaining + opBuf.length
decreasing_by
  · have := Cursor.remaining_lt_of_readByte _hbyte
    simp only [List.length_cons]
    omega
  · have := Cursor.remaining_lt_of_readByte _hbyte
    have := remaining_le_of_parseAtomFromFirstByte _hatom
    simp only [List.length_cons]
    omega
  · simp

/-- `sexp_from_bytes`: the tree and the cursor after it. -/
def sexpFromBytes (stream : Cursor) : ClvmResult (SExp × Cursor) :=
  if ¬ stream.hasRemaining then .ok (SExp.nil, stream)
  else sexpFromBytesLoop [.exp] [] stream

/-- The concrete syntax accepted by the parser: `Reads w t` when the bytes `w`
are one serialized expression, minimal or not, with the value `t`. -/
inductive Reads : Bytes → SExp → Prop where
  | atom {token data : Bytes} (htoken : AtomToken token data) :
      Reads token (.atom data)
  | pair {front back : Bytes} {first rest : SExp} (hfirst : Reads front first)
      (hrest : Reads back rest) :
      Reads (consBoxMarker :: (front ++ back)) (.pair first rest)

theorem AtomToken.lead_ne_cons {data : Bytes}
    (htoken : AtomToken (lead :: tail) data) : lead ≠ consBoxMarker := by
  rintro rfl
  cases htoken with
  | byte b hb => exact absurd hb (by decide)
  | sized lead tail data hlead hwidth hsize hspells =>
    exact absurd hwidth (by decide +kernel)

section Loop

variable {opBuf : List ParserOp} {valBuf : List SExp}

theorem sexpFromBytesLoop_cons (first second : SExp) :
    sexpFromBytesLoop (.cons :: opBuf) (second :: first :: valBuf) stream =
      sexpFromBytesLoop opBuf (.pair first second :: valBuf) stream := by
  rw [sexpFromBytesLoop]

/-- Once its first byte is known, an expression is read by its kind. -/
theorem sexpFromBytesLoop_exp (hrest : stream.rest = lead :: tail) :
    sexpFromBytesLoop (.exp :: opBuf) valBuf stream =
      if lead = consBoxMarker then
        sexpFromBytesLoop (.exp :: .exp :: .cons :: opBuf) valBuf
          (stream.advance 1)
      else
        parseAtomFromFirstByte (stream.advance 1) lead >>= fun (value, next) =>
          sexpFromBytesLoop opBuf (value :: valBuf) next := by
  rw [sexpFromBytesLoop, if_neg (by simp [stream.hasRemaining_iff, hrest])]
  split
  · rename_i hread
    simp [readByte_cons hrest] at hread
  · rename_i hread
    rw [readByte_cons hrest] at hread
    cases hread
    split_ifs
    · rfl
    · cases hatom : parseAtomFromFirstByte (stream.advance 1) lead <;> simp

theorem AtomToken.exists_cons {token data : Bytes}
    (htoken : AtomToken token data) : ∃ lead tail, token = lead :: tail := by
  cases htoken <;> exact ⟨_, _, rfl⟩

theorem AtomToken.parse {data back : Bytes}
    (htoken : AtomToken (lead :: tail) data)
    (hrest : stream.rest = lead :: tail ++ back) :
    parseAtomFromFirstByte (stream.advance 1) lead =
      .ok (.atom data, stream.advance (lead :: tail).length) :=
  parseAtomFromFirstByte_eq_ok.mpr
    ⟨tail, back, data, htoken, by simp [hrest], rfl, by simp [add_comm]⟩

/-- Where the two parts of a pair stand. -/
theorem Cursor.rest_pair {front rear back : Bytes}
    (hrest : stream.rest = lead :: (front ++ rear) ++ back) :
    (stream.advance 1).rest = front ++ (rear ++ back) ∧
      (stream.advance (1 + front.length)).rest = rear ++ back := by
  have hfront : (stream.advance 1).rest = front ++ (rear ++ back) := by
    simp [hrest]
  rw [← advance_advance, rest_advance front.length, hfront]
  exact ⟨rfl, drop_left⟩

theorem length_pair_bytes (lead : UInt8) (front back : Bytes) :
    1 + front.length + back.length = (lead :: (front ++ back)).length := by
  simp only [length_cons, length_append]
  omega

/-- The loop reads one expression wherever its concrete syntax is next. -/
theorem sexpFromBytesLoop_reads {w back : Bytes} (hreads : Reads w t)
    (hrest : stream.rest = w ++ back) :
    sexpFromBytesLoop (.exp :: opBuf) valBuf stream =
      sexpFromBytesLoop opBuf (t :: valBuf) (stream.advance w.length) := by
  induction hreads generalizing opBuf valBuf stream back with
  | atom htoken =>
    obtain ⟨lead, tail, rfl⟩ := htoken.exists_cons
    rw [sexpFromBytesLoop_exp hrest, if_neg htoken.lead_ne_cons,
      htoken.parse hrest]
    rfl
  | @pair front rear first rest _ _ ihfirst ihrest =>
    obtain ⟨hfront, hrear⟩ := rest_pair hrest
    rw [sexpFromBytesLoop_exp hrest, if_pos rfl, ihfirst hfront,
      advance_advance, ihrest hrear, advance_advance,
      sexpFromBytesLoop_cons, length_pair_bytes consBoxMarker]

/-- A successful loop has read one expression for its top operation. -/
theorem sexpFromBytesLoop_split {out : SExp}
    (hloop : sexpFromBytesLoop (.exp :: opBuf) valBuf stream = .ok (out, next)) :
    ∃ w back t, Reads w t ∧ stream.rest = w ++ back ∧
      sexpFromBytesLoop opBuf (t :: valBuf) (stream.advance w.length) =
        .ok (out, next) := by
  induction hn : stream.remaining using Nat.strong_induction_on
    generalizing opBuf valBuf stream with
  | _ n ih =>
    rw [sexpFromBytesLoop] at hloop
    split_ifs at hloop
    split at hloop
    · cases hloop
    · rename_i lead mid hread
      have hlt := remaining_lt_of_readByte hread
      obtain ⟨⟨tail, hrest⟩, rfl⟩ := readByte_eq_ok.mp hread
      split_ifs at hloop with hmarker
      · -- a pair: the two pushed expressions, then the pushed `Cons`
        obtain ⟨front, back, first, hfirst, hfront, hloop⟩ :=
          ih _ (hn ▸ hlt) hloop rfl
        have hlt' : ((stream.advance 1).advance front.length).remaining < n := by
          simp only [remaining_advance] at hlt ⊢
          omega
        obtain ⟨rear, back', rest, hsecond, hrear, hloop⟩ := ih _ hlt' hloop rfl
        rw [sexpFromBytesLoop_cons] at hloop
        rw [rest_advance, hfront, drop_left] at hrear
        rw [rest_advance, hrest] at hfront
        refine ⟨lead :: (front ++ rear), back', .pair first rest, ?_, ?_, ?_⟩
        · exact hmarker ▸ .pair hfirst hsecond
        · simp only [drop_succ_cons, drop_zero] at hfront
          rw [hrest, hfront, hrear]
          simp
        · simpa only [advance_advance, length_pair_bytes lead] using hloop
      · split at hloop
        · cases hloop
        · rename_i hatom
          obtain ⟨tail', back, data, htoken, hback, rfl, rfl⟩ :=
            parseAtomFromFirstByte_eq_ok.mp hatom
          rw [rest_advance, hrest] at hback
          simp only [drop_succ_cons, drop_zero] at hback
          refine ⟨lead :: tail', back, .atom data, .atom htoken, ?_, ?_⟩
          · rw [hrest, hback, cons_append]
          · simpa [add_comm] using hloop

end Loop

/-- On a nonempty stream the parser returns exactly the tree whose concrete
syntax comes next, with the cursor behind it. -/
theorem sexpFromBytes_eq_ok (hne : stream.rest ≠ []) :
    sexpFromBytes stream = .ok (t, next) ↔
      ∃ w back, Reads w t ∧ stream.rest = w ++ back ∧
        next = stream.advance w.length := by
  rw [sexpFromBytes, if_neg (by simp [stream.hasRemaining_iff, hne])]
  constructor
  · intro hloop
    obtain ⟨w, back, t', hreads, hrest, hloop⟩ := sexpFromBytesLoop_split hloop
    rw [sexpFromBytesLoop] at hloop
    cases hloop
    exact ⟨w, back, hreads, hrest, rfl⟩
  · rintro ⟨w, back, hreads, hrest, rfl⟩
    rw [sexpFromBytesLoop_reads hreads hrest, sexpFromBytesLoop]

theorem Reads.ne_nil {w : Bytes} (hreads : Reads w t) : w ≠ [] := by
  cases hreads with
  | atom htoken => cases htoken <;> simp
  | pair => simp

/-- The grammar is prefix-free: a stream starts with at most one expression. -/
theorem Reads.unique {w w' back back' : Bytes} {t' : SExp} (hreads : Reads w t)
    (hreads' : Reads w' t') (heq : w ++ back = w' ++ back') :
    w = w' ∧ t = t' := by
  have hne : (⟨w ++ back, 0⟩ : Cursor).rest ≠ [] := by simp [hreads.ne_nil]
  have hparse := (sexpFromBytes_eq_ok hne).mpr ⟨w, back, hreads, rfl, rfl⟩
  have hparse' := (sexpFromBytes_eq_ok hne).mpr ⟨w', back', hreads', heq, rfl⟩
  rw [hparse] at hparse'
  simp only [Except.ok.injEq, Prod.mk.injEq, advance,
    Cursor.mk.injEq, true_and, zero_add] at hparse'
  exact ⟨(append_inj heq hparse'.2).1, hparse'.1⟩

end DgXch
