/-
`BitReader`, the packed bit string of the proof-of-space crate: words of 64
bits, of which the last holds `last_size` bits.  The definitions follow the
word arithmetic of the release build.  `Packs reader bits` says that the words
of a reader spell a bit string.
-/
import DgXch.ByteStream
import Mathlib.Data.List.SplitLengths

open BigEndian BitStrings

namespace DgXch

def usizeSub (a b : Nat) : Nat := (a + 2 ^ 64 - b) % 2 ^ 64

/-- `a << b` on `u64`; the count is taken modulo 64. -/
def shl64 (a : UInt64) (b : Nat) : UInt64 := a <<< UInt64.ofNat b

/-- `a >> b` on `u64`; the count is taken modulo 64. -/
def shr64 (a : UInt64) (b : Nat) : UInt64 := a >>> UInt64.ofNat b

/-- `split_number_by_prefix`; the sizes are `u8`. -/
def splitNumberByPrefix (number : UInt64) (numBits prefixSize : Nat) :
    UInt64 × UInt64 :=
  if prefixSize = 0 then (0, number)
  else
    let shiftAmt := (numBits + 256 - prefixSize) % 256
    (shr64 number shiftAmt, number &&& (shl64 1 shiftAmt - 1))

/-- The bits `start .. stop` of a word of `size` bits: the front is cut off,
then the back is shifted out. -/
def cutBits (value : UInt64) (size start stop : Nat) : UInt64 :=
  let cut := if start ≠ 0 then value &&& (shl64 1 (usizeSub size start) - 1)
    else value
  shr64 cut (usizeSub size stop)

structure BitReader where
  buffer : List UInt64
  size : Nat
  position : Nat
  lastSize : Nat
deriving Repr, DecidableEq

namespace BitReader

/-- `BitReader::default` and `with_capacity`. -/
def empty : BitReader := ⟨[], 0, 0, 0⟩

variable (reader : BitReader)

def appendValue (value : UInt64) (length : Nat) : BitReader :=
  if reader.buffer = [] ∨ reader.lastSize = 64 then
    { reader with
      buffer := reader.buffer ++ [value]
      lastSize := length
      size := reader.size + length }
  else
    let freeBits := usizeSub 64 reader.lastSize
    let last := reader.buffer.getLastD 0
    if reader.lastSize = 0 ∧ length = 64 then
      { reader with
        buffer := reader.buffer.dropLast ++ [value]
        lastSize := length
        size := reader.size + length }
    else if length ≤ freeBits then
      { reader with
        buffer := reader.buffer.dropLast ++ [shl64 last length + value]
        lastSize := reader.lastSize + length
        size := reader.size + length }
    else
      let split := splitNumberByPrefix value (length % 256) (freeBits % 256)
      { reader with
        buffer := reader.buffer.dropLast ++
          [shl64 last freeBits + split.1, split.2]
        lastSize := length - freeBits
        size := reader.size + length }

def new (value : UInt64) (length : Nat) : BitReader :=
  empty.appendValue value length

/-- The words `from_bytes_be` reads, eight bytes each but the last. -/
def appendWords : Nat → Bytes → BitReader → BitReader
  | 0, _, reader => reader
  | count + 1, bytes, reader =>
    let chunk := bytes.take 8
    let value := chunk.foldl (fun v b => shl64 v 8 + b.toUInt64) 0
    appendWords count (bytes.drop 8)
      (reader.appendValue value (8 * chunk.length))

/-- The words of zeros in front; `size` counts them twice. -/
def appendZeros : Nat → BitReader → BitReader
  | 0, reader => reader
  | count + 1, reader =>
    let next := reader.appendValue 0 64
    appendZeros count { next with size := next.size + 64 }

variable (bytes : Bytes)

def fromBytesBe (bitSize : Nat) : BitReader :=
  if bytes = [] then empty
  else
    let numBytes := min bytes.length (bitSize / 8)
    let extraSpace := bitSize - numBytes * 8
    let zeroed := appendZeros (extraSpace / 64) empty
    let padded :=
      if 0 < extraSpace % 64 then
        let next := zeroed.appendValue 0 (extraSpace % 64)
        { next with size := next.size + extraSpace % 64 }
      else zeroed
    appendWords ((numBytes + 7) / 8) (bytes.take numBytes) padded

def getSize : Nat :=
  if reader.buffer = [] then 0
  else (reader.buffer.length - 1) * 64 + reader.lastSize

/-- `self.buffer[index]`. -/
def word (index : Nat) : IoResult UInt64 :=
  match reader.buffer[index]? with
  | some value => .ok value
  | none => .error (.panic "index out of bounds")

/-- The number of bits in the word at `index`. -/
def bucketSize (index : Nat) : Nat :=
  if index + 1 = reader.buffer.length then reader.lastSize else 64

/-- The whole words of `range`. -/
def appendBuckets (reader : BitReader) :
    Nat → Nat → BitReader → IoResult BitReader
  | 0, _, result => .ok result
  | count + 1, index, result => do
      let value ← reader.word index
      appendBuckets reader count (index + 1) (result.appendValue value 64)

def rangeInside (bucket start stop : Nat) : IoResult BitReader := do
  let value ← reader.word bucket
  return new (cutBits value (reader.bucketSize bucket) start stop)
    (usizeSub stop start)

/-- `range` over several words. -/
def rangeAcross (startIndex endIndex : Nat) : IoResult BitReader := do
  let startBucket := startIndex / 64
  let endBucket := endIndex / 64
  let first ← reader.word startBucket
  let split := splitNumberByPrefix first 64 (startIndex % 64)
  let result := empty.appendValue split.2 (64 - startIndex % 64)
  let result ← reader.appendBuckets (endBucket - (startBucket + 1))
    (startBucket + 1) result
  if endIndex % 64 ≠ 0 then
    let last ← reader.word endBucket
    let split := splitNumberByPrefix last (reader.bucketSize endBucket % 256)
      (endIndex % 64)
    return result.appendValue split.1 (endIndex % 64)
  else return result

def range (startIndex endIndex : Nat) : IoResult BitReader :=
  let endIndex := min endIndex reader.getSize
  if endIndex = startIndex then .ok empty
  else if startIndex / 64 = endIndex / 64 then
    reader.rangeInside (startIndex / 64) (startIndex % 64) (endIndex % 64)
  else reader.rangeAcross startIndex endIndex

def slice (startIndex : Nat) : IoResult BitReader :=
  reader.range startIndex reader.getSize

def sliceToInt (startIndex endIndex : Nat) : IoResult UInt64 := do
  let first ← reader.word (startIndex / 64)
  if startIndex / 64 = endIndex / 64 then
    let size := reader.bucketSize (startIndex / 64)
    let shifted := shr64 first (usizeSub size (endIndex % 64))
    return shifted &&&
      (shl64 1 (usizeSub (endIndex % 64) (startIndex % 64)) - 1)
  else
    let result := (splitNumberByPrefix first 64 (startIndex % 64)).2
    if endIndex % 64 ≠ 0 then
      let last ← reader.word (endIndex / 64)
      let split := splitNumberByPrefix last
        (reader.bucketSize (endIndex / 64) % 256) (endIndex % 64)
      return shl64 result (endIndex % 64) + split.1
    else return result

def readU64At (bitCount position : Nat) : IoResult UInt64 := do
  let endIndex := position + bitCount
  let first ← reader.word (position / 64)
  if position / 64 = endIndex / 64 then
    return cutBits first (reader.bucketSize (position / 64)) (position % 64)
      (endIndex % 64)
  else
    let result := (splitNumberByPrefix first 64 (position % 64)).2
    if endIndex % 64 ≠ 0 then
      let last ← reader.word (endIndex / 64)
      let split := splitNumberByPrefix last
        (reader.bucketSize (endIndex / 64) % 256) (endIndex % 64)
      return shl64 result (endIndex % 64) ||| split.1
    else return result

/-- `read_u64`, without the reader it moves on. -/
def readU64 (bitCount : Nat) : IoResult UInt64 :=
  if reader.position + bitCount > reader.size then
    .error (.error ⟨.invalidInput, s!"Seek is past end of buffer: {
      reader.position} > {reader.size}"⟩)
  else reader.readU64At bitCount reader.position

/-- Successive calls of `read_u64`. -/
def reads (reader : BitReader) :
    List Nat → IoResult (List UInt64)
  | [] => .ok []
  | bitCount :: counts => do
      let value ← reader.readU64 bitCount
      let moved := { reader with position := reader.position + bitCount }
      let values ← moved.reads counts
      return value :: values

def firstU64 : IoResult UInt64 :=
  if reader.buffer = [] then .ok 0
  else reader.readU64At reader.lastSize 0

/-- `+=`: the words of the other reader, one after the other. -/
def addAssign (reader rhs : BitReader) : BitReader :=
  if rhs.buffer = [] then reader
  else
    let whole := rhs.buffer.dropLast.foldl
      (fun acc value => acc.appendValue value 64) reader
    whole.appendValue (rhs.buffer.getLastD 0) rhs.lastSize

def toBeBytes (value : UInt64) : Bytes := beBytes 8 value.toNat

/-- `to_bytes`; the slice of the last word's eight bytes panics past its
end. -/
def toBytes : IoResult Bytes :=
  if reader.buffer = [] then .ok []
  else
    let size := (reader.lastSize + 7) / 8
    let last := toBeBytes
      (shl64 (reader.buffer.getLastD 0) (usizeSub 64 reader.lastSize))
    if size ≤ 8 then
      .ok (reader.buffer.dropLast.flatMap toBeBytes ++ last.take size)
    else .error (.panic "range end index out of range for slice of length 8")

/-- The words of `cmp`, most significant first. -/
def cmpWords : List UInt64 → List UInt64 → IoResult Ordering
  | [], _ => .ok .eq
  | _ :: _, [] => .error (.panic "index out of bounds")
  | left :: lefts, right :: rights =>
    if left < right then .ok .lt
    else if left > right then .ok .gt
    else cmpWords lefts rights

def cmp (reader other : BitReader) : IoResult Ordering :=
  if reader.getSize ≠ other.getSize then
    .ok (compare reader.getSize other.getSize)
  else cmpWords reader.buffer other.buffer

/-- The eight bytes `from_bytes_be_offset` loads, zeros behind the end. -/
def loadField : UInt64 :=
  UInt64.ofNat (beNat ((bytes ++ List.replicate 8 0).take 8))

/-- `&big_endian_bytes[8..]`. -/
def skipField : IoResult Bytes :=
  if 8 ≤ bytes.length then .ok (bytes.drop 8)
  else .error (.panic "range start index out of range")

/-- The full fields of `from_bytes_be_offset`. -/
def appendFields :
    Nat → Bytes → BitReader → IoResult (Bytes × BitReader)
  | 0, bytes, reader => .ok (bytes, reader)
  | count + 1, bytes, reader => do
      let rest ← skipField bytes
      appendFields count rest (reader.appendValue (loadField bytes) 64)

def fromBytesBeOffset (bitSize bitOffset : Nat) : IoResult BitReader :=
  if bytes = [] then .ok empty
  else if bytes.length < bitOffset / 64 * 8 then
    .error (.panic "range start index out of range")
  else do
    let startField := bitOffset / 64
    let endField := usizeSub (bitOffset + bitSize) 1 / 64
    let fieldCount := usizeSub endField startField + 1
    let bytes := bytes.drop (startField * 8)
    let bitOffset := bitOffset - startField * 64
    let firstFieldAvail := 64 - bitOffset
    let firstFieldBits := min firstFieldAvail bitSize
    let mask := shr64 0xFFFFFFFFFFFFFFFF (64 - firstFieldBits)
    let field := shr64 (loadField bytes) (firstFieldAvail - firstFieldBits)
    let reader := empty.appendValue (field &&& mask) firstFieldBits
    let bytes ← skipField bytes
    let (bytes, reader) ← appendFields (fieldCount - 2) bytes reader
    if 1 < fieldCount then
      let lastFieldBits := usizeSub (bitSize + bitOffset)
        ((fieldCount - 1) * 64)
      let last := shr64 (loadField bytes) (usizeSub 64 lastFieldBits)
      return reader.appendValue last lastFieldBits
    else return reader

end BitReader

open List DgXch.Except Nat BitReader

variable {width start stop : Nat} {last value : UInt64} {numBits size : Nat}
  {index : Nat} {front : List Bool} {bitCount : Nat} {bitSize bitOffset : Nat}

variable {reader : BitReader} {bits : List Bool} {count : Nat} {bytes : Bytes}
  {b : Nat} {length : Nat}

theorem usizeSub_of_le {a : Nat} (hle : b ≤ a) (ha : a < 2 ^ 64) :
    usizeSub a b = a - b := by
  have hsum : a + 2 ^ 64 - b = a - b + 2 ^ 64 := by omega
  rw [usizeSub, hsum, add_mod_right, mod_eq_of_lt (by omega)]

variable {a : UInt64}

theorem toNat_ofNat_mod (hb : b < 64) : (UInt64.ofNat b).toNat % 64 = b := by
  rw [UInt64.toNat_ofNat']
  omega

theorem shl64_toNat (hb : b < 64) :
    (shl64 a b).toNat = a.toNat * 2 ^ b % 2 ^ 64 := by
  rw [shl64, UInt64.toNat_shiftLeft, toNat_ofNat_mod hb, shiftLeft_eq]

theorem shr64_toNat (hb : b < 64) : (shr64 a b).toNat = a.toNat / 2 ^ b := by
  rw [shr64, UInt64.toNat_shiftRight, toNat_ofNat_mod hb, shiftRight_eq_div_pow]

/-- The mask `(1 << b) - 1` keeps the low `b` bits. -/
theorem and_mask_toNat (hb : b < 64) :
    (a &&& (shl64 1 b - 1)).toNat = a.toNat % 2 ^ b := by
  have hpow : 2 ^ b < 2 ^ 64 := Nat.pow_lt_pow_right (by omega) hb
  have hone : (shl64 1 b).toNat = 2 ^ b := by
    rw [shl64_toNat hb, UInt64.toNat_one, Nat.one_mul, mod_eq_of_lt hpow]
  have hpos : 1 ≤ 2 ^ b := Nat.one_le_two_pow
  have hmask : (shl64 1 b - 1).toNat = 2 ^ b - 1 := by
    rw [UInt64.toNat_sub_of_le _ _
      (UInt64.le_iff_toNat_le.mpr (by simpa [hone] using hpos)), hone]
    rfl
  rw [UInt64.toNat_and, hmask, Nat.and_two_pow_sub_one_eq_mod]

/-- Shifting a value in behind the bits of a word. -/
theorem shl64_add_toNat {left right : Nat} (hlast : last.toNat < 2 ^ left)
    (hvalue : value.toNat < 2 ^ right) (hright : right < 64)
    (hsum : left + right ≤ 64) :
    (shl64 last right + value).toNat =
      last.toNat * 2 ^ right + value.toNat := by
  have hlt := mul_add_lt_two_pow hlast hvalue
  have hbound : 2 ^ (left + right) ≤ 2 ^ 64 :=
    Nat.pow_le_pow_right (by omega) hsum
  have hhigh : last.toNat * 2 ^ right % 2 ^ 64 = last.toNat * 2 ^ right :=
    mod_eq_of_lt (by omega)
  rw [UInt64.toNat_add, shl64_toNat hright, hhigh, mod_eq_of_lt (by omega)]

/-- The front of a number of `numBits` bits. -/
theorem splitNumberByPrefix_fst (number : UInt64) (hsize : 0 < size)
    (hle : size ≤ numBits) (hbits : numBits ≤ 64) :
    (splitNumberByPrefix number numBits size).1.toNat =
      number.toNat / 2 ^ (numBits - size) := by
  have hamount : (numBits + 256 - size) % 256 = numBits - size := by omega
  have hne : size ≠ 0 := by omega
  simp only [splitNumberByPrefix, hne, ↓reduceIte, hamount]
  exact shr64_toNat (by omega)

/-- The back of a number of `numBits` bits. -/
theorem splitNumberByPrefix_snd {number : UInt64} (hle : size ≤ numBits)
    (hbits : numBits ≤ 64) (hlt : number.toNat < 2 ^ numBits) :
    (splitNumberByPrefix number numBits size).2.toNat =
      number.toNat % 2 ^ (numBits - size) := by
  by_cases hzero : size = 0
  · simp [splitNumberByPrefix, hzero, mod_eq_of_lt hlt]
  · have hamount : (numBits + 256 - size) % 256 = numBits - size := by omega
    simp only [splitNumberByPrefix, hzero, ↓reduceIte, hamount]
    exact and_mask_toNat (by omega)

namespace BitReader

def wordBits (words : List UInt64) : List Bool :=
  words.flatMap fun word => bitsOf 64 word.toNat

@[simp]
theorem wordBits_append (front back : List UInt64) :
    wordBits (front ++ back) = wordBits front ++ wordBits back := by
  simp [wordBits]

@[simp]
theorem length_wordBits (words : List UInt64) :
    (wordBits words).length = 64 * words.length := by
  induction words with
  | nil => rfl
  | cons head tail ih =>
    simp only [wordBits, flatMap_cons, length_append,
      length_bitsOf, length_cons] at ih ⊢
    omega

/-- The words of a reader that was not read from yet spell a bit string. -/
structure Packs (reader : BitReader) (bits : List Bool) : Prop where
  size : reader.size = bits.length
  position : reader.position = 0
  words : (reader.buffer = [] ∧ reader.lastSize = 0 ∧ bits = []) ∨
    ∃ whole last, reader.buffer = whole ++ [last] ∧ 0 < reader.lastSize ∧
      reader.lastSize ≤ 64 ∧ last.toNat < 2 ^ reader.lastSize ∧
      bits = wordBits whole ++ bitsOf reader.lastSize last.toNat

theorem packs_empty : Packs empty [] := ⟨rfl, rfl, Or.inl ⟨rfl, rfl, rfl⟩⟩

section

variable (h : Packs reader bits)

include h

theorem Packs.getSize_eq : reader.getSize = bits.length := by
  obtain ⟨hbuffer, -, rfl⟩ | ⟨whole, last, hbuffer, -, -, -, rfl⟩ := h.words
  · simp [getSize, hbuffer]
  · simp [getSize, hbuffer, mul_comm]

/-- Appending a value that does not fit behind the last word's bits. -/
theorem Packs.appendValue_split {whole : List UInt64}
    (hbuffer : reader.buffer = whole ++ [last]) (hsome : 0 < reader.lastSize)
    (hlast : last.toNat < 2 ^ reader.lastSize)
    (hbits : bits = wordBits whole ++ bitsOf reader.lastSize last.toNat)
    {room : Nat} (hfull : reader.lastSize + room = 64) (hpos : 0 < room)
    (hroom : room < length) (hlength : length ≤ 64)
    (hvalue : value.toNat < 2 ^ length) :
    Packs (reader.appendValue value length)
      (bits ++ bitsOf length value.toNat) := by
  have hfree : usizeSub 64 reader.lastSize = room := by
    rw [usizeSub_of_le (by omega) (by norm_num)]
    omega
  have hnonempty : ¬ (reader.buffer = [] ∨ reader.lastSize = 64) := by
    simp only [hbuffer, append_eq_nil_iff, cons_ne_nil, and_false, false_or]
    omega
  have hspecial : ¬ (reader.lastSize = 0 ∧ length = 64) := by omega
  have hwhere : ¬ length ≤ room := by omega
  have hsizes : length % 256 = length ∧ room % 256 = room := by omega
  let front := splitNumberByPrefix value length room
  have hfront : front.1.toNat = value.toNat / 2 ^ (length - room) :=
    splitNumberByPrefix_fst value (by omega) (by omega) hlength
  have hback : front.2.toNat = value.toNat % 2 ^ (length - room) :=
    splitNumberByPrefix_snd (by omega) hlength hvalue
  have hfrontLt : front.1.toNat < 2 ^ room := by
    rw [hfront]
    exact div_two_pow_lt hvalue hroom.le
  have hword := shl64_add_toNat hlast hfrontLt (by omega) (by omega)
  have hsplit := bitsOf_split room (length - room) value.toNat
  rw [Nat.add_sub_cancel' (by omega)] at hsplit
  have hjoined := bitsOf_add reader.lastSize last.toNat front.1.toNat hfrontLt
  rw [hfull] at hjoined
  refine ⟨?_, ?_, Or.inr ⟨whole ++ [shl64 last room + front.1], front.2,
    ?_, ?_, ?_, ?_, ?_⟩⟩
  all_goals simp only [appendValue, hnonempty, hspecial, hfree,
    hwhere, hsizes, ↓reduceIte, h.size, h.position, length_append,
    length_bitsOf]
  · simp [hbuffer, front]
  · omega
  · omega
  · rw [hback]
    exact Nat.mod_lt _ (Nat.two_pow_pos _)
  · rw [hback, bitsOf_mod (le_refl _), hsplit, ← hfront, hbits]
    simp [wordBits, hword, hjoined]

/-- An empty value may stand behind the bits of a word, but opens none. -/
theorem Packs.appendValue (hpos : bits.length % 64 = 0 → 0 < length)
    (hlength : length ≤ 64) (hvalue : value.toNat < 2 ^ length) :
    Packs (reader.appendValue value length)
      (bits ++ bitsOf length value.toNat) := by
  obtain ⟨hbuffer, -, rfl⟩ | ⟨whole, last, hbuffer, hsome, hmost, hlast, hbits⟩ :=
    h.words
  · refine ⟨?_, ?_, Or.inr ⟨[], value, ?_, ?_, ?_, ?_, ?_⟩⟩ <;>
      simp [BitReader.appendValue, hbuffer, h.size, h.position, hpos rfl,
        hlength, hvalue, wordBits]
  · have hfree : usizeSub 64 reader.lastSize = 64 - reader.lastSize :=
      usizeSub_of_le hmost (by norm_num)
    by_cases hfull : reader.lastSize = 64
    · -- a full last word: the value opens a new one
      have hopens : 0 < length := hpos (by simp [hbits, hfull])
      refine ⟨?_, ?_, Or.inr ⟨whole ++ [last], value, ?_, ?_, ?_, ?_, ?_⟩⟩ <;>
        simp [BitReader.appendValue, hfull, hbuffer, h.size, h.position,
          hopens, hlength, hvalue, hbits, wordBits, Nat.add_assoc]
    · have hnonempty : ¬ (reader.buffer = [] ∨ reader.lastSize = 64) := by
        simp [hbuffer, hfull]
      have hspecial : ¬ (reader.lastSize = 0 ∧ length = 64) := by omega
      by_cases hroom : length ≤ 64 - reader.lastSize
      · -- the value fits behind the bits of the last word
        have hword := shl64_add_toNat hlast hvalue (by omega) (by omega)
        refine ⟨?_, ?_, Or.inr
          ⟨whole, shl64 last length + value, ?_, ?_, ?_, ?_, ?_⟩⟩
        all_goals simp only [BitReader.appendValue, hnonempty, hspecial, hfree,
          hroom, ↓reduceIte, h.size, h.position, length_append, length_bitsOf]
        · simp [hbuffer]
        · omega
        · omega
        · rw [hword]
          exact mul_add_lt_two_pow hlast hvalue
        · rw [hword, bitsOf_add _ _ _ hvalue, hbits, append_assoc]
      · -- the value is split between the last word and a new one
        exact h.appendValue_split hbuffer hsome hlast hbits
          (Nat.add_sub_cancel' hmost) (by omega) (by omega) hlength hvalue

/-- The word at `index`, by the bits it holds. -/
theorem Packs.word_eq (hindex : 64 * index < bits.length) :
    ∃ value, reader.word index = .ok value ∧
      reader.bucketSize index = min 64 (bits.length - 64 * index) ∧
      value.toNat < 2 ^ reader.bucketSize index ∧
      bitsOf (reader.bucketSize index) value.toNat =
        (bits.drop (64 * index)).take 64 := by
  obtain ⟨-, -, rfl⟩ | ⟨whole, last, hbuffer, hsome, hmost, hlast, rfl⟩ :=
    h.words
  · simp at hindex
  · rw [length_append, length_wordBits, length_bitsOf] at hindex
    by_cases hwhole : index < whole.length
    · have hsize : reader.bucketSize index = 64 := by
        have hne : index ≠ whole.length := by omega
        simp [bucketSize, hbuffer, hne]
      have hsplit : whole = whole.take index ++
          ([whole[index]] ++ whole.drop (index + 1)) := by simp
      refine ⟨whole[index], ?_, ?_, ?_, ?_⟩
      · simp [word, hbuffer, getElem?_append_left hwhole, hwhole]
      · rw [hsize, length_append, length_wordBits, length_bitsOf]
        omega
      · rw [hsize]
        exact whole[index].toNat_lt
      · have hlength : (wordBits (whole.take index)).length = 64 * index := by
          rw [length_wordBits, length_take]
          omega
        have hone : wordBits [whole[index]] = bitsOf 64 whole[index].toNat := by
          simp [wordBits]
        rw [hsize]
        conv_rhs => rw [hsplit]
        rw [wordBits_append, wordBits_append, append_assoc, drop_left' hlength,
          hone, append_assoc, take_left' length_bitsOf]
    · have hlastIndex : index = whole.length := by omega
      have hsize : reader.bucketSize index = reader.lastSize := by
        simp [bucketSize, hbuffer, hlastIndex]
      refine ⟨last, ?_, ?_, ?_, ?_⟩
      · simp [word, hbuffer, hlastIndex]
      · rw [hsize, length_append, length_wordBits, length_bitsOf]
        omega
      · rw [hsize]
        exact hlast
      · rw [hsize, hlastIndex, drop_left' (length_wordBits whole),
          take_of_length_le (by simpa using hmost)]

end

/-- A stretch inside one word of the string. -/
theorem slice_of_word {value : Nat} (hword : bitsOf width value = front.take 64)
    (hstart : start < stop) (hstop : stop ≤ width) (hwidth : width ≤ 64) :
    bitsOf (stop - start) (value / 2 ^ (width - stop)) =
      (front.drop start).take (stop - start) := by
  have hback : width - start - (stop - start) = width - stop := by omega
  rw [← hback, ← take_bitsOf (by omega), ← drop_bitsOf (by omega),
    hword, drop_take, take_take]
  congr 1
  omega

theorem cutBits_toNat (hvalue : value.toNat < 2 ^ width) (hstart : start ≤ stop)
    (hstop : stop ≤ width) (hwidth : width ≤ 64) (hshift : width < stop + 64) :
    (cutBits value width start stop).toNat =
      value.toNat / 2 ^ (width - stop) % 2 ^ (stop - start) := by
  have hcut : (if start ≠ 0 then value &&& (shl64 1 (usizeSub width start) - 1)
      else value).toNat = value.toNat % 2 ^ (width - start) := by
    by_cases hzero : start = 0
    · simp [hzero, mod_eq_of_lt hvalue]
    · rw [if_pos hzero, usizeSub_of_le (by omega) (by omega),
        and_mask_toNat (by omega)]
  have hpow : width - start = (width - stop) + (stop - start) := by omega
  rw [cutBits, usizeSub_of_le hstop (by omega), shr64_toNat (by omega), hcut,
    hpow, pow_add, mod_mul_right_div_self]

/-- Two neighbouring stretches of a string. -/
theorem take_drop_add (start left right : Nat) :
    (bits.drop start).take (left + right) =
      (bits.drop start).take left ++ (bits.drop (start + left)).take right := by
  rw [take_add, drop_drop]

theorem packs_new (hpos : 0 < length) (hlength : length ≤ 64)
    (hvalue : value.toNat < 2 ^ length) :
    Packs (new value length) (bitsOf length value.toNat) :=
  packs_empty.appendValue (fun _ => hpos) hlength hvalue

section

variable (h : Packs reader bits)

include h

/-- A stretch inside one word, which is cut out in one of two ways. -/
theorem Packs.word_inside (hstart : start < stop) (hstop : stop ≤ bits.length)
    (hbucket : start / 64 = stop / 64) :
    ∃ value cut, reader.word (start / 64) = .ok value ∧
      cutBits value (reader.bucketSize (start / 64)) (start % 64) (stop % 64) =
        cut ∧
      shr64 value (usizeSub (reader.bucketSize (start / 64)) (stop % 64)) &&&
        (shl64 1 (usizeSub (stop % 64) (start % 64)) - 1) = cut ∧
      cut.toNat < 2 ^ (stop - start) ∧
      bitsOf (stop - start) cut.toNat =
        (bits.drop start).take (stop - start) := by
  have hindex : 64 * (start / 64) < bits.length := by omega
  obtain ⟨value, hword, hsize, hvalue, hbits⟩ := h.word_eq hindex
  have hwidth : reader.bucketSize (start / 64) ≤ 64 := by omega
  have hfits : stop % 64 ≤ reader.bucketSize (start / 64) := by omega
  have hlt : start % 64 < stop % 64 := by omega
  have hlength : stop % 64 - start % 64 = stop - start := by omega
  have hplace : 64 * (start / 64) + start % 64 = start := by omega
  have hcut := cutBits_toNat hvalue hlt.le hfits hwidth (by omega)
  have hslice := slice_of_word hbits hlt hfits hwidth
  rw [hlength] at hcut
  rw [drop_drop, hplace, hlength] at hslice
  refine ⟨value, _, hword, rfl, ?_, ?_, ?_⟩
  · rw [← UInt64.toNat_inj, hcut, usizeSub_of_le hfits (by omega),
      usizeSub_of_le hlt.le (by omega), hlength, and_mask_toNat (by omega),
      shr64_toNat (by omega)]
  · rw [hcut]
    exact Nat.mod_lt _ (Nat.two_pow_pos _)
  · rw [hcut, bitsOf_mod (le_refl _), hslice]

theorem Packs.range_inside (hstart : start < stop) (hstop : stop ≤ bits.length)
    (hbucket : start / 64 = stop / 64) :
    ∃ out, reader.rangeInside (start / 64) (start % 64) (stop % 64) = .ok out ∧
      Packs out ((bits.drop start).take (stop - start)) := by
  obtain ⟨value, cut, hword, hcut, -, hlow, hbits⟩ :=
    h.word_inside hstart hstop hbucket
  have hlength : usizeSub (stop % 64) (start % 64) = stop - start := by
    rw [usizeSub_of_le (by omega) (by omega)]
    omega
  refine ⟨new cut (stop - start), ?_, ?_⟩
  · simp only [rangeInside, hword, bind_ok, hcut, hlength]
    rfl
  · rw [← hbits]
    exact packs_new (by omega) (by omega) hlow

/-- A word all of whose 64 bits lie in the string. -/
theorem Packs.word_full (hindex : 64 * index + 64 ≤ bits.length) :
    ∃ value, reader.word index = .ok value ∧
      bitsOf 64 value.toNat = (bits.drop (64 * index)).take 64 := by
  have hlt : 64 * index < bits.length := by omega
  obtain ⟨value, hword, hsize, -, hbits⟩ := h.word_eq hlt
  have hwidth : reader.bucketSize index = 64 := by omega
  rw [hwidth] at hbits
  exact ⟨value, hword, hbits⟩

/-- The back of a full word, from bit `start` of the string on. -/
theorem Packs.word_back (hstart : 64 * (start / 64) + 64 ≤ bits.length) :
    ∃ value, reader.word (start / 64) = .ok value ∧
      (splitNumberByPrefix value 64 (start % 64)).2.toNat <
        2 ^ (64 - start % 64) ∧
      bitsOf (64 - start % 64)
          (splitNumberByPrefix value 64 (start % 64)).2.toNat =
        (bits.drop start).take (64 - start % 64) := by
  obtain ⟨value, hword, hbits⟩ := h.word_full hstart
  have hback : (splitNumberByPrefix value 64 (start % 64)).2.toNat =
      value.toNat % 2 ^ (64 - start % 64) :=
    splitNumberByPrefix_snd (by omega) (by omega) value.toNat_lt
  have hplace : 64 * (start / 64) + start % 64 = start := by omega
  refine ⟨value, hword, ?_, ?_⟩
  · rw [hback]
    exact Nat.mod_lt _ (Nat.two_pow_pos _)
  · rw [hback, bitsOf_mod (le_refl _),
      ← drop_bitsOf (by omega), hbits, drop_take, drop_drop, hplace]

/-- The front of a word, up to bit `stop` of the string. -/
theorem Packs.word_front (hstop : stop ≤ bits.length) (hrest : stop % 64 ≠ 0) :
    ∃ value, reader.word (stop / 64) = .ok value ∧
      (splitNumberByPrefix value (reader.bucketSize (stop / 64) % 256)
        (stop % 64)).1.toNat < 2 ^ (stop % 64) ∧
      bitsOf (stop % 64) (splitNumberByPrefix value
          (reader.bucketSize (stop / 64) % 256) (stop % 64)).1.toNat =
        (bits.drop (64 * (stop / 64))).take (stop % 64) := by
  have hindex : 64 * (stop / 64) < bits.length := by omega
  obtain ⟨value, hword, hsize, hvalue, hbits⟩ := h.word_eq hindex
  have hwidth : reader.bucketSize (stop / 64) ≤ 64 := by omega
  have hfits : stop % 64 ≤ reader.bucketSize (stop / 64) := by omega
  have hsmall : reader.bucketSize (stop / 64) % 256 =
      reader.bucketSize (stop / 64) := by omega
  have hfront := splitNumberByPrefix_fst value (Nat.pos_of_ne_zero hrest) hfits
    hwidth
  have hslice := slice_of_word hbits (Nat.pos_of_ne_zero hrest) hfits hwidth
  refine ⟨value, hword, ?_, ?_⟩
  · rw [hsmall, hfront]
    exact div_two_pow_lt hvalue hfits
  · rw [hsmall, hfront]
    simpa using hslice

theorem Packs.appendBuckets {result : BitReader} (hresult : Packs result front)
    (hcount : 64 * (index + count) ≤ bits.length) :
    ∃ out, reader.appendBuckets count index result = .ok out ∧
      Packs out (front ++ (bits.drop (64 * index)).take (64 * count)) := by
  induction count generalizing index result front with
  | zero => exact ⟨result, rfl, by simpa using hresult⟩
  | succ count ih =>
    have hindex : 64 * index + 64 ≤ bits.length := by omega
    obtain ⟨value, hword, hbits⟩ := h.word_full hindex
    have hnext := hresult.appendValue (by omega) (le_refl 64) value.toNat_lt
    have hrest : 64 * (index + 1 + count) ≤ bits.length := by omega
    obtain ⟨out, hout, hpacks⟩ := ih hnext hrest
    refine ⟨out, ?_, ?_⟩
    · simp only [appendBuckets, hword, bind_ok, hout]
    · have hsum : 64 * (count + 1) = 64 + 64 * count := by omega
      rw [hsum, take_drop_add, ← hbits, ← append_assoc]
      exact hpacks

theorem Packs.range_across (hstop : stop ≤ bits.length)
    (hbucket : start / 64 < stop / 64) :
    ∃ out, reader.rangeAcross start stop = .ok out ∧
      Packs out ((bits.drop start).take (stop - start)) := by
  have hfirst : 64 * (start / 64) + 64 ≤ bits.length := by omega
  obtain ⟨first, hword, hlow, hback⟩ := h.word_back hfirst
  have hopened := packs_empty.appendValue (by omega) (by omega) hlow
  rw [hback, nil_append] at hopened
  have hcount : 64 * (start / 64 + 1 + (stop / 64 - (start / 64 + 1))) ≤
      bits.length := by omega
  obtain ⟨middle, hmiddle, hpacks⟩ := h.appendBuckets hopened hcount
  -- the first stretch and the whole words are one stretch
  have hplace : 64 * (start / 64 + 1) = start + (64 - start % 64) := by omega
  rw [hplace, ← take_drop_add] at hpacks
  by_cases hrest : stop % 64 = 0
  · have hsum : 64 - start % 64 + 64 * (stop / 64 - (start / 64 + 1)) =
        stop - start := by omega
    rw [hsum] at hpacks
    refine ⟨middle, ?_, hpacks⟩
    simp only [rangeAcross, hword, bind_ok, hmiddle, hrest, ne_eq,
      not_true_eq_false, ↓reduceIte]
    rfl
  · obtain ⟨last, hlast, hsmall, hfront⟩ := h.word_front hstop hrest
    have hclosed := hpacks.appendValue (by omega) (by omega) hsmall
    have hnext : 64 * (stop / 64) = start +
        (64 - start % 64 + 64 * (stop / 64 - (start / 64 + 1))) := by omega
    have hsum : 64 - start % 64 + 64 * (stop / 64 - (start / 64 + 1)) +
        stop % 64 = stop - start := by omega
    rw [hfront, hnext, ← take_drop_add, hsum] at hclosed
    refine ⟨_, ?_, hclosed⟩
    simp only [rangeAcross, hword, bind_ok, hmiddle, hrest, ne_eq,
      not_false_eq_true, ↓reduceIte, hlast]
    rfl

/-- `range` inside the string. -/
theorem Packs.range_eq (hstart : start < stop) (hstop : stop ≤ bits.length) :
    ∃ out, reader.range start stop = .ok out ∧
      Packs out ((bits.drop start).take (stop - start)) := by
  have hmin : min stop reader.getSize = stop := by
    rw [h.getSize_eq]
    omega
  have hne : stop ≠ start := by omega
  by_cases hbucket : start / 64 = stop / 64
  · simp only [range, hmin, hne, hbucket, ↓reduceIte]
    rw [← hbucket]
    exact h.range_inside hstart hstop hbucket
  · simp only [range, hmin, hne, hbucket, ↓reduceIte]
    exact h.range_across hstop (by omega)

end

theorem range_clamp (reader : BitReader) (start stop : Nat) :
    reader.range start stop = reader.range start (min stop reader.getSize) := by
  simp only [range, min_assoc, min_self]

theorem Packs.sliceToInt_eq (h : Packs reader bits) (hstart : start < stop)
    (hstop : stop ≤ bits.length) (hlength : stop - start ≤ 64) :
    ∃ value, reader.sliceToInt start stop = .ok value ∧
      value.toNat = bitsNat ((bits.drop start).take (stop - start)) := by
  by_cases hbucket : start / 64 = stop / 64
  · obtain ⟨first, cut, hword, -, hcut, hlow, hbits⟩ :=
      h.word_inside hstart hstop hbucket
    refine ⟨cut, ?_, by rw [← hbits, bitsNat_bitsOf_of_lt hlow]⟩
    simp only [sliceToInt, hword, bind_ok, ← hbucket, ↓reduceIte, hcut]
    rfl
  · have hnext : stop / 64 = start / 64 + 1 := by omega
    have hfirst : 64 * (start / 64) + 64 ≤ bits.length := by omega
    obtain ⟨first, hword, hlow, hback⟩ := h.word_back hfirst
    by_cases hrest : stop % 64 = 0
    · have hspan : 64 - start % 64 = stop - start := by omega
      refine ⟨_, by simp only [sliceToInt, hword, bind_ok]
                    rw [if_neg hbucket, if_neg (by simpa using hrest)]
                    rfl, ?_⟩
      rw [hspan] at hback hlow
      rw [← hback, bitsNat_bitsOf_of_lt hlow]
    · obtain ⟨last, hlast, hsmall, hfront⟩ := h.word_front hstop hrest
      refine ⟨_, by simp only [sliceToInt, hword, bind_ok]
                    rw [if_neg hbucket, if_pos hrest]
                    simp only [hlast, bind_ok]
                    rfl, ?_⟩
      have hspan : 64 - start % 64 + stop % 64 = stop - start := by omega
      have hplace : 64 * (stop / 64) = start + (64 - start % 64) := by omega
      rw [shl64_add_toNat hlow hsmall (by omega) (by omega), ← hspan,
        take_drop_add, ← hplace, ← hback, ← hfront, bitsNat_append,
        bitsNat_bitsOf_of_lt hlow, bitsNat_bitsOf_of_lt hsmall, length_bitsOf]

theorem shl64_or_eq {left right : Nat} (hlast : last.toNat < 2 ^ left)
    (hvalue : value.toNat < 2 ^ right) (hright : right < 64)
    (hsum : left + right ≤ 64) :
    shl64 last right ||| value = shl64 last right + value := by
  have hroom := mul_add_lt_two_pow hlast (Nat.two_pow_pos right)
  have hpow : 2 ^ (left + right) ≤ 2 ^ 64 :=
    Nat.pow_le_pow_right (by omega) hsum
  rw [← UInt64.toNat_inj, UInt64.toNat_or, shl64_add_toNat hlast hvalue hright
    hsum, shl64_toNat hright, mod_eq_of_lt (by omega), Nat.mul_comm,
    two_pow_add_eq_or_of_lt hvalue]

/-- In range, `_read_u64` reads what `slice_to_int` cuts out. -/
theorem Packs.readU64At_eq (h : Packs reader bits) (hpos : 0 < bitCount)
    (hcount : bitCount ≤ 64) (hfits : start + bitCount ≤ bits.length) :
    ∃ value, reader.readU64At bitCount start = .ok value ∧
      value.toNat = bitsNat ((bits.drop start).take bitCount) := by
  have hstart : start < start + bitCount := Nat.lt_add_of_pos_right hpos
  have hslice := h.sliceToInt_eq hstart hfits (by omega)
  rw [Nat.add_sub_cancel_left] at hslice
  convert hslice using 4
  unfold readU64At sliceToInt
  by_cases hbucket : start / 64 = (start + bitCount) / 64
  · obtain ⟨first, cut, hword, hcut, hmask, -, -⟩ :=
      h.word_inside hstart hfits hbucket
    simp only [hword, bind_ok, ← hbucket, ↓reduceIte, hcut, hmask]
  · have hfirst : 64 * (start / 64) + 64 ≤ bits.length := by omega
    obtain ⟨first, hword, hlow, -⟩ := h.word_back hfirst
    by_cases hrest : (start + bitCount) % 64 = 0
    · simp only [hword, bind_ok, hbucket, hrest, ne_eq, not_true_eq_false,
        ↓reduceIte]
    · obtain ⟨last, hlast, hsmall, -⟩ := h.word_front hfits hrest
      simp only [hword, hlast, bind_ok, hbucket, hrest, ne_eq,
        not_false_eq_true, ↓reduceIte]
      rw [shl64_or_eq hlow hsmall (by omega) (by omega)]

theorem Packs.readU64_eq (h : Packs reader bits) (hpos : 0 < bitCount)
    (hcount : bitCount ≤ 64) (hfits : bitCount ≤ bits.length) :
    ∃ value, reader.readU64 bitCount = .ok value ∧
      value.toNat = bitsNat (bits.take bitCount) := by
  have hroom : ¬ 0 + bitCount > bits.length := by omega
  simp only [readU64, h.position, h.size, hroom, ↓reduceIte]
  exact h.readU64At_eq hpos hcount (by omega)

/-- `first_u64` of a string of fewer than 64 bits. -/
theorem Packs.firstU64_eq (h : Packs reader bits) (hpos : 0 < bits.length)
    (hlength : bits.length < 64) :
    ∃ value, reader.firstU64 = .ok value ∧ value.toNat = bitsNat bits := by
  have hsize := h.getSize_eq
  obtain ⟨-, -, rfl⟩ | ⟨whole, last, hbuffer, -, -, -, hbits⟩ := h.words
  · simp at hpos
  · have hlast : reader.lastSize = bits.length := by
      have hsum : bits.length = 64 * whole.length + reader.lastSize := by
        simp [hbits]
      omega
    have hread := h.readU64At_eq hpos (le_of_lt hlength) (Nat.zero_add _).le
    rw [drop_zero, take_length] at hread
    have hne : reader.buffer ≠ [] := by simp [hbuffer]
    simpa only [firstU64, hne, ↓reduceIte, hlast] using hread

theorem Packs.appendWhole (h : Packs reader bits) (whole : List UInt64) :
    Packs (whole.foldl (fun acc value => acc.appendValue value 64) reader)
      (bits ++ wordBits whole) := by
  induction whole generalizing reader bits with
  | nil => simpa [wordBits] using h
  | cons head tail ih =>
    have hnext := ih (h.appendValue (by omega) (le_refl 64) head.toNat_lt)
    simpa [wordBits] using hnext

/-- `+=` appends the other string. -/
theorem Packs.addAssign {rhs : BitReader} {others : List Bool}
    (h : Packs reader bits) (hrhs : Packs rhs others) :
    Packs (reader.addAssign rhs) (bits ++ others) := by
  obtain ⟨hbuffer, -, rfl⟩ | ⟨whole, last, hbuffer, hsome, hmost, hlast, rfl⟩ :=
    hrhs.words
  · simpa [BitReader.addAssign, hbuffer] using h
  · have hne : whole ++ [last] ≠ [] := by simp
    have hdone := (h.appendWhole whole).appendValue (fun _ => hsome) hmost hlast
    simp only [BitReader.addAssign, hbuffer, hne, ↓reduceIte,
      dropLast_concat, getLastD_concat]
    rwa [append_assoc] at hdone

theorem byteBits_toBeBytes :
    byteBits (toBeBytes value) = bitsOf 64 value.toNat := by
  have hlength : (toBeBytes value).length = 8 := length_beBytes 8 _
  have hvalue : beNat (toBeBytes value) = value.toNat := by
    rw [toBeBytes, beNat_beBytes, mod_eq_of_lt]
    exact value.toNat_lt
  rw [← bitsOf_beNat, hlength, hvalue]

theorem byteBits_flatMap_toBeBytes (words : List UInt64) :
    byteBits (words.flatMap toBeBytes) = wordBits words := by
  induction words with
  | nil => rfl
  | cons head tail ih =>
    simp only [flatMap_cons, byteBits_append, ih, byteBits_toBeBytes, wordBits]

/-- The bytes of a partly filled word. -/
theorem take_toBeBytes (hpos : 0 < size) (hmost : size ≤ 64)
    (hlast : last.toNat < 2 ^ size) :
    (toBeBytes (shl64 last (usizeSub 64 size))).take ((size + 7) / 8) =
      packBits (bitsOf size last.toNat) := by
  have hshifted : (shl64 last (64 - size)).toNat =
      last.toNat * 2 ^ (64 - size) := by
    have hlt := mul_add_lt_two_pow hlast (Nat.two_pow_pos (64 - size))
    rw [Nat.add_zero, Nat.add_sub_cancel' hmost] at hlt
    rw [shl64_toNat (by omega), mod_eq_of_lt hlt]
  have hcount : min ((size + 7) / 8) 8 = (size + 7) / 8 := by omega
  apply beNat_inj
  · simp [toBeBytes, hcount]
  · have hpad : 64 - size =
        8 * ((size + 7) / 8) - size + (64 - 8 * ((size + 7) / 8)) := by omega
    have hwhole : size + (8 * ((size + 7) / 8) - size) =
        8 * ((size + 7) / 8) := by omega
    have hlt := mul_add_lt_two_pow hlast
      (Nat.two_pow_pos (8 * ((size + 7) / 8) - size))
    rw [Nat.add_zero, hwhole] at hlt
    rw [← bitsNat_byteBits, byteBits_take, byteBits_toBeBytes,
      take_bitsOf (by omega), usizeSub_of_le hmost (by norm_num), hshifted,
      beNat_packBits, length_bitsOf, bitsNat_bitsOf_of_lt hlast,
      bitsNat_bitsOf, hpad, pow_add, ← Nat.mul_assoc,
      Nat.mul_div_cancel _ (Nat.two_pow_pos _), mod_eq_of_lt hlt]

theorem Packs.toBytes_eq
    (h : Packs reader bits) : reader.toBytes = .ok (packBits bits) := by
  obtain ⟨hbuffer, -, rfl⟩ | ⟨whole, last, hbuffer, hsome, hmost, hlast, rfl⟩ :=
    h.words
  · simp only [toBytes, hbuffer, ↓reduceIte]
    rfl
  · have hne : whole ++ [last] ≠ [] := by simp
    have hfits : (reader.lastSize + 7) / 8 ≤ 8 := by omega
    simp only [toBytes, hbuffer, hne, ↓reduceIte, hfits,
      dropLast_concat, getLastD_concat]
    rw [take_toBeBytes hsome hmost hlast, ← byteBits_flatMap_toBeBytes,
      packBits_append]

theorem bitsNat_append_lt {left right front back : List Bool}
    (hlt : bitsNat left < bitsNat right) (hsame : front.length = back.length) :
    bitsNat (left ++ front) < bitsNat (right ++ back) := by
  have hfront := bitsNat_lt front
  have hroom := Nat.mul_le_mul_right (2 ^ back.length) (succ_le_of_lt hlt)
  rw [hsame] at hfront
  rw [bitsNat_append, bitsNat_append, hsame, Nat.succ_mul] at *
  omega

/-- Word by word comparison is comparison of the numbers. -/
theorem cmpWords_eq {lefts rights : List UInt64} {left right : UInt64}
    (hleft : left.toNat < 2 ^ size) (hright : right.toNat < 2 ^ size)
    (hsame : lefts.length = rights.length) :
    cmpWords (lefts ++ [left]) (rights ++ [right]) = .ok (compare
      (bitsNat (wordBits lefts ++ bitsOf size left.toNat))
      (bitsNat (wordBits rights ++ bitsOf size right.toNat))) := by
  induction lefts generalizing rights with
  | nil =>
    obtain rfl := length_eq_zero_iff.mp hsame.symm
    simp only [wordBits, flatMap_nil, nil_append, bitsNat_bitsOf_of_lt hleft,
      bitsNat_bitsOf_of_lt hright, cmpWords, UInt64.lt_iff_toNat_lt, gt_iff_lt,
      compare, compareOfLessAndEq]
    split_ifs <;> first | rfl | omega
  | cons head tail ih =>
    obtain ⟨head', tail', rfl⟩ := exists_cons_of_length_eq_add_one hsame.symm
    have hrest : tail.length = tail'.length := Nat.succ.inj hsame
    have hbits (word : UInt64) : bitsNat (bitsOf 64 word.toNat) = word.toNat :=
      bitsNat_bitsOf_of_lt word.toNat_lt
    have hbacks : (wordBits tail ++ bitsOf size left.toNat).length =
        (wordBits tail' ++ bitsOf size right.toNat).length := by simp [hrest]
    simp only [wordBits, flatMap_cons, append_assoc, cons_append, cmpWords] at *
    split_ifs with hlt hgt
    · rw [compare_lt_iff_lt.mpr
        (bitsNat_append_lt (by rwa [hbits, hbits]) hbacks)]
    · rw [compare_gt_iff_gt.mpr
        (bitsNat_append_lt (by rwa [hbits, hbits]) hbacks.symm)]
    · obtain rfl :=
        UInt64.le_antisymm (UInt64.not_lt.mp hgt) (UInt64.not_lt.mp hlt)
      rw [ih hrest, bitsNat_append (bitsOf 64 _), bitsNat_append (bitsOf 64 _),
        hbacks]
      simp only [compare, compareOfLessAndEq, Nat.add_lt_add_iff_left,
        Nat.add_left_cancel_iff]

/-- The order of two strings of one length is that of their numbers. -/
theorem Packs.cmp_eq {left right : BitReader} {lefts rights : List Bool}
    (hleft : Packs left lefts) (hright : Packs right rights)
    (hsame : lefts.length = rights.length) :
    left.cmp right = .ok (compare (bitsNat lefts) (bitsNat rights)) := by
  have hsizes : left.getSize = right.getSize := by
    rw [hleft.getSize_eq, hright.getSize_eq, hsame]
  rw [cmp, if_neg (by simpa using hsizes)]
  obtain ⟨hnil, -, rfl⟩ | ⟨whole, last, hwords, hsome, hmost, hlast, rfl⟩ :=
    hleft.words
  · rw [hnil, length_eq_zero_iff.mp hsame.symm]
    rfl
  · obtain ⟨-, -, rfl⟩ |
      ⟨whole', last', hwords', hsome', hmost', hlast', rfl⟩ := hright.words
    · simp at hsame
      omega
    · simp only [length_append, length_wordBits, length_bitsOf] at hsame
      have hwidth : right.lastSize = left.lastSize := by omega
      rw [hwidth] at hlast' ⊢
      rw [hwords, hwords', cmpWords_eq hlast hlast' (by omega)]

/-- A chunk of bytes as `from_bytes_be` adds it up. -/
theorem foldl_bytes_toNat (chunk : Bytes) {front : UInt64}
    (hfront : front.toNat < 256 ^ count) (hcount : count + chunk.length ≤ 8) :
    (chunk.foldl (fun v b => shl64 v 8 + b.toUInt64) front).toNat =
      front.toNat * 256 ^ chunk.length + beNat chunk := by
  induction chunk generalizing front count with
  | nil => simp
  | cons head tail ih =>
    rw [length_cons] at hcount
    have hhead : head.toUInt64.toNat < 2 ^ 8 := by
      rw [UInt8.toNat_toUInt64]
      exact head.toNat_lt
    rw [show 256 = 2 ^ 8 from rfl, ← pow_mul] at hfront
    have hstep := shl64_add_toNat hfront hhead (by omega) (by omega)
    have hnext := mul_add_lt_two_pow hfront hhead
    rw [← hstep, ← mul_succ, pow_mul] at hnext
    rw [foldl_cons, ih hnext (by omega), hstep, UInt8.toNat_toUInt64,
      beNat_cons, length_cons, pow_succ]
    ring

theorem Packs.appendWords (h : Packs reader bits)
    (hcount : count = (bytes.length + 7) / 8) :
    Packs (appendWords count bytes reader) (bits ++ byteBits bytes) := by
  induction count generalizing bytes reader bits with
  | zero =>
    have hnil : bytes = [] := length_eq_zero_iff.mp (by omega)
    subst hnil
    simpa [appendWords, byteBits] using h
  | succ count ih =>
    have hchunk : (bytes.take 8).length = min 8 bytes.length := length_take
    have hvalue := foldl_bytes_toNat (bytes.take 8)
      (by decide : UInt64.toNat 0 < 256 ^ 0) (by omega)
    rw [UInt64.toNat_zero, zero_mul, zero_add] at hvalue
    have hlt := beNat_lt (bytes.take 8)
    rw [← hvalue, show (256 : Nat) = 2 ^ 8 from rfl, ← pow_mul] at hlt
    have hnext := h.appendValue (by omega) (by omega) hlt
    rw [hvalue, bitsOf_beNat] at hnext
    have hrest : count = ((bytes.drop 8).length + 7) / 8 := by
      rw [length_drop]
      omega
    have hdone := ih hnext hrest
    rwa [append_assoc, ← byteBits_append, take_append_drop] at hdone

/-- `from_bytes_be` of whole bytes. -/
theorem packs_fromBytesBe_take (hcount : count ≤ bytes.length) :
    Packs (fromBytesBe bytes (count * 8)) (byteBits (bytes.take count)) := by
  by_cases hnil : bytes = []
  · subst hnil
    simpa [fromBytesBe, byteBits] using packs_empty
  · have hbytes : count * 8 / 8 = count := by omega
    have hwords : (count + 7) / 8 = ((bytes.take count).length + 7) / 8 := by
      rw [length_take, Nat.min_eq_left hcount]
    have hdone := packs_empty.appendWords hwords
    simpa [fromBytesBe, hnil, hbytes, hcount, appendZeros] using hdone

theorem packs_fromBytesBe (bytes : Bytes) :
    Packs (fromBytesBe bytes (bytes.length * 8)) (byteBits bytes) := by
  simpa using packs_fromBytesBe_take (le_refl bytes.length)

/-- A byte string with the zeros `from_bytes_be_offset` reads behind it. -/
def zeroPadded (bytes : Bytes) : List Bool :=
  byteBits (bytes ++ List.replicate 8 0)

theorem bitsOf_loadField (bytes : Bytes) :
    bitsOf 64 (loadField bytes).toNat = (zeroPadded bytes).take 64 := by
  have hlength : ((bytes ++ replicate 8 0).take 8).length = 8 := by simp
  have hlt := beNat_lt ((bytes ++ replicate 8 0).take 8)
  rw [hlength] at hlt
  have hvalue : (loadField bytes).toNat =
      beNat ((bytes ++ replicate 8 0).take 8) := by
    rw [loadField, UInt64.toNat_ofNat', mod_eq_of_lt]
    exact hlt
  have hbits := bitsOf_beNat ((bytes ++ replicate 8 0).take 8)
  rw [hlength, byteBits_take] at hbits
  rw [hvalue]
  exact hbits

theorem zeroPadded_drop (hcount : count ≤ bytes.length) :
    zeroPadded (bytes.drop count) = (zeroPadded bytes).drop (8 * count) := by
  rw [zeroPadded, zeroPadded, ← byteBits_drop, drop_append_of_le_length hcount]

theorem Packs.appendFields (h : Packs reader bits)
    (hcount : 8 * count ≤ bytes.length) :
    ∃ out, appendFields count bytes reader = .ok (bytes.drop (8 * count), out) ∧
      Packs out (bits ++ (zeroPadded bytes).take (64 * count)) := by
  induction count generalizing bytes reader bits with
  | zero => exact ⟨reader, by simp [appendFields], by simpa using h⟩
  | succ count ih =>
    have hskip : skipField bytes = .ok (bytes.drop 8) := by
      rw [skipField, if_pos (by omega)]
    have hnext := h.appendValue (by omega) (le_refl 64)
      (loadField bytes).toNat_lt
    have hrest : 8 * count ≤ (bytes.drop 8).length := by
      rw [length_drop]
      omega
    obtain ⟨out, hout, hpacks⟩ := ih hnext hrest
    refine ⟨out, ?_, ?_⟩
    · rw [drop_drop, show 8 + 8 * count = 8 * (count + 1) by omega] at hout
      simp only [appendFields, hskip, bind_ok, hout]
    · rwa [bitsOf_loadField, zeroPadded_drop (by omega), append_assoc,
        ← take_add, show 64 + 64 * count = 64 * (count + 1) by omega] at hpacks

theorem and_allOnes_shr (hpos : 0 < count) (hcount : count ≤ 64) :
    (value &&& shr64 0xFFFFFFFFFFFFFFFF (64 - count)).toNat =
      value.toNat % 2 ^ count := by
  have hall : (0xFFFFFFFFFFFFFFFF : UInt64).toNat = 2 ^ 64 - 1 := rfl
  have hsplit : 2 ^ 64 = 2 ^ count * 2 ^ (64 - count) := by
    rw [← pow_add, Nat.add_sub_cancel' hcount]
  have hmask : (shr64 0xFFFFFFFFFFFFFFFF (64 - count)).toNat =
      2 ^ count - 1 := by
    have hlast := Nat.mul_sub_div 0 (2 ^ (64 - count)) (2 ^ count)
      (Nat.mul_pos (Nat.two_pow_pos _) (Nat.two_pow_pos _))
    rw [shr64_toNat (by omega), hall, hsplit, mul_comm]
    simpa using hlast
  rw [UInt64.toNat_and, hmask, Nat.and_two_pow_sub_one_eq_mod]

theorem packs_firstField (bytes : Bytes) (hpos : 0 < count)
    (hfits : bitOffset + count ≤ 64) :
    Packs (empty.appendValue (shr64 (loadField bytes) (64 - bitOffset - count)
        &&& shr64 0xFFFFFFFFFFFFFFFF (64 - count)) count)
      (((zeroPadded bytes).drop bitOffset).take count) := by
  have hvalue : (shr64 (loadField bytes) (64 - bitOffset - count) &&&
        shr64 0xFFFFFFFFFFFFFFFF (64 - count)).toNat =
      (loadField bytes).toNat / 2 ^ (64 - (bitOffset + count)) % 2 ^ count := by
    rw [and_allOnes_shr hpos (by omega), shr64_toNat (by omega), Nat.sub_sub]
  have hslice := slice_of_word (bitsOf_loadField bytes)
    (show bitOffset < bitOffset + count by omega) hfits (le_refl 64)
  rw [Nat.add_sub_cancel_left] at hslice
  have hlt := hvalue.trans_lt (Nat.mod_lt _ (Nat.two_pow_pos _))
  have hpacks := packs_empty.appendValue (fun _ => hpos) (by omega) hlt
  rwa [hvalue, bitsOf_mod (le_refl _), hslice] at hpacks

/-- A field that is read from its front. -/
theorem loadField_front (bytes : Bytes) (hpos : 0 < count)
    (hcount : count ≤ 64) :
    (shr64 (loadField bytes) (usizeSub 64 count)).toNat < 2 ^ count ∧
      bitsOf count (shr64 (loadField bytes) (usizeSub 64 count)).toNat =
        (zeroPadded bytes).take count := by
  have hslice := slice_of_word (bitsOf_loadField bytes) hpos hcount (le_refl 64)
  rw [usizeSub_of_le hcount (by norm_num), shr64_toNat (by omega)]
  exact ⟨div_two_pow_lt (loadField bytes).toNat_lt hcount, hslice⟩

/-- The bits of `from_bytes_be_offset` from inside the first word on. -/
theorem packs_fromBytesBeOffset_inside (hpos : 0 < bitSize)
    (hsum : bitOffset + bitSize < 2 ^ 64) (hoffset : bitOffset < 64)
    (hbytes : 8 ≤ bytes.length)
    (hfields : 8 * ((bitOffset + bitSize - 1) / 64) ≤ bytes.length) :
    ∃ out, fromBytesBeOffset bytes bitSize bitOffset = .ok out ∧
      Packs out (((zeroPadded bytes).drop bitOffset).take bitSize) := by
  have hne : bytes ≠ [] := by
    intro hnil
    simp [hnil] at hbytes
  have hstartField : bitOffset / 64 = 0 := by omega
  have hend : usizeSub (bitOffset + bitSize) 1 = bitOffset + bitSize - 1 :=
    usizeSub_of_le (by omega) (by omega)
  obtain ⟨fields, hlastField⟩ :
    ∃ fields, (bitOffset + bitSize - 1) / 64 = fields := ⟨_, rfl⟩
  rw [hlastField] at hfields
  have hcount : usizeSub fields 0 = fields :=
    usizeSub_of_le (Nat.zero_le _) (by omega)
  have hskip : skipField bytes = .ok (bytes.drop 8) := by
    rw [skipField, if_pos hbytes]
  -- the first field
  have hfirst := packs_firstField bytes
    (show 0 < min (64 - bitOffset) bitSize by omega)
    (show bitOffset + min (64 - bitOffset) bitSize ≤ 64 by omega)
  simp only [fromBytesBeOffset, hne, ↓reduceIte, hstartField, zero_mul,
    Nat.not_lt_zero, drop_zero, Nat.sub_zero, hend, hlastField, hcount, hskip,
    bind_ok, Nat.add_sub_cancel]
  by_cases hone : fields = 0
  · -- one field holds all the bits
    have hbits : min (64 - bitOffset) bitSize = bitSize := by omega
    have hnone : fields + 1 - 2 = 0 := by omega
    have hlast : ¬ 1 < fields + 1 := by omega
    rw [hbits] at hfirst
    simp only [hnone, appendFields, bind_ok, hlast, ↓reduceIte, hbits]
    exact ⟨_, rfl, hfirst⟩
  · have hbits : min (64 - bitOffset) bitSize = 64 - bitOffset := by omega
    have hrest : 8 * (fields + 1 - 2) ≤ (bytes.drop 8).length := by
      rw [length_drop]
      omega
    have hlast : 1 < fields + 1 := by omega
    have hlastBits : usizeSub (bitSize + bitOffset) (fields * 64) =
        bitSize + bitOffset - fields * 64 :=
      usizeSub_of_le (by omega) (by omega)
    rw [hbits] at hfirst
    obtain ⟨middle, hmiddle, hpacks⟩ := hfirst.appendFields hrest
    have hplace : 8 * 8 = bitOffset + (64 - bitOffset) := by omega
    have hbehind : 8 + 8 * (fields + 1 - 2) = 8 * fields := by omega
    rw [zeroPadded_drop hbytes, hplace, ← take_drop_add] at hpacks
    rw [drop_drop, hbehind] at hmiddle
    -- the front of the field behind the whole ones
    have hpos' : 0 < bitSize + bitOffset - fields * 64 := by omega
    obtain ⟨hlow, hfront⟩ :=
      loadField_front (bytes.drop (8 * fields)) hpos' (by omega)
    have hpart := hpacks.appendValue (fun _ => hpos') (by omega) hlow
    have hnext : 8 * (8 * fields) =
        bitOffset + (64 - bitOffset + 64 * (fields + 1 - 2)) := by omega
    have hsum : 64 - bitOffset + 64 * (fields + 1 - 2) +
        (bitSize + bitOffset - fields * 64) = bitSize := by omega
    rw [hfront, zeroPadded_drop hfields, hnext, ← take_drop_add, hsum] at hpart
    simp only [hmiddle, bind_ok, hlast, ↓reduceIte, hbits, hlastBits]
    exact ⟨_, rfl, hpart⟩

theorem le_of_appendFields {out : Bytes × BitReader}
    (hok : appendFields count bytes reader = .ok out) :
    8 * count ≤ bytes.length := by
  induction count generalizing bytes reader with
  | zero => exact Nat.zero_le _
  | succ count ih =>
    obtain ⟨rest, hrest, hfields⟩ := bind_eq_ok.mp hok
    rw [skipField] at hrest
    split_ifs at hrest with hlength
    cases hrest
    have hmore := ih hfields
    rw [length_drop] at hmore
    omega

section Offset

variable (hpos : 0 < bitSize) (hsum : bitOffset + bitSize < 2 ^ 64)

include hpos hsum

/-- `from_bytes_be_offset` takes `bitSize` bits from bit `bitOffset` on. -/
theorem packs_fromBytesBeOffset
    (hfirst : 8 * (bitOffset / 64) + 8 ≤ bytes.length)
    (hfields : 8 * ((bitOffset + bitSize - 1) / 64) ≤ bytes.length) :
    ∃ out, fromBytesBeOffset bytes bitSize bitOffset = .ok out ∧
      Packs out (((zeroPadded bytes).drop bitOffset).take bitSize) := by
  have hlength : (bytes.drop (bitOffset / 64 * 8)).length =
      bytes.length - bitOffset / 64 * 8 := length_drop
  obtain ⟨out, hout, hpacks⟩ := @packs_fromBytesBeOffset_inside bitSize
    (bitOffset % 64) (bytes.drop (bitOffset / 64 * 8)) hpos (by omega)
    (by omega) (by omega) (by omega)
  -- the words in front are skipped
  have hplace : 8 * (bitOffset / 64 * 8) + bitOffset % 64 = bitOffset := by
    omega
  rw [zeroPadded_drop (by omega), drop_drop, hplace] at hpacks
  refine ⟨out, ?_, hpacks⟩
  have hne : bytes ≠ [] := ne_nil_of_length_pos (by omega)
  have hne' : bytes.drop (bitOffset / 64 * 8) ≠ [] :=
    ne_nil_of_length_pos (by omega)
  have hlong : ¬ bytes.length < bitOffset / 64 * 8 := by omega
  have hzero : bitOffset % 64 / 64 = 0 := by omega
  have hinner : bitOffset - bitOffset / 64 * 64 = bitOffset % 64 := by omega
  have hcount : usizeSub (usizeSub (bitOffset + bitSize) 1 / 64)
        (bitOffset / 64) =
      usizeSub (usizeSub (bitOffset % 64 + bitSize) 1 / 64) 0 := by
    simp only [usizeSub]
    omega
  simp only [fromBytesBeOffset, hne', hzero, ↓reduceIte, zero_mul, drop_zero,
    Nat.not_lt_zero, Nat.sub_zero] at hout
  simp only [fromBytesBeOffset, hne, hlong, ↓reduceIte, hinner, hcount]
  exact hout

/-- It returns where the bytes reach to the end of the first field and to the
last. -/
theorem lengths_of_fromBytesBeOffset (hne : bytes ≠ []) {out : BitReader}
    (hok : fromBytesBeOffset bytes bitSize bitOffset = .ok out) :
    8 * (bitOffset / 64) + 8 ≤ bytes.length ∧
      8 * ((bitOffset + bitSize - 1) / 64) ≤ bytes.length := by
  rw [fromBytesBeOffset, if_neg hne] at hok
  split_ifs at hok with hshort
  obtain ⟨rest, hskip, hok⟩ := bind_eq_ok.mp hok
  obtain ⟨fields, hfields, -⟩ := bind_eq_ok.mp hok
  rw [skipField] at hskip
  split_ifs at hskip with hfirst
  cases hskip
  have hlast := le_of_appendFields hfields
  simp only [length_drop, usizeSub] at hfirst hlast
  omega

end Offset

/-- `Built reader bits`: the reader was built from fields of at most 64 bits
(`new` appends one to the empty reader), of which an empty one does not open a
word, from whole bytes without padding, or from the bits behind an offset. -/
inductive Built : BitReader → List Bool → Prop
  | empty : Built empty []
  | appendValue {reader : BitReader} {bits : List Bool} {value : UInt64}
      {length : Nat} : Built reader bits →
      (bits.length % 64 = 0 → 0 < length) → length ≤ 64 →
      value.toNat < 2 ^ length →
      Built (reader.appendValue value length)
        (bits ++ bitsOf length value.toNat)
  | addAssign {reader rhs : BitReader} {bits others : List Bool} :
      Built reader bits → Built rhs others →
      Built (reader.addAssign rhs) (bits ++ others)
  | fromBytesBe {bytes : Bytes} {count : Nat} : count ≤ bytes.length →
      Built (fromBytesBe bytes (count * 8)) (byteBits (bytes.take count))
  | fromBytesBeOffset {bytes : Bytes} {bitSize bitOffset : Nat}
      {reader : BitReader} : bytes ≠ [] → 0 < bitSize →
      bitOffset + bitSize < 2 ^ 64 →
      fromBytesBeOffset bytes bitSize bitOffset = .ok reader →
      Built reader (((zeroPadded bytes).drop bitOffset).take bitSize)

theorem Built.packs (h : Built reader bits) : Packs reader bits := by
  induction h with
  | empty => exact packs_empty
  | appendValue _ hpos hlength hvalue ih =>
    exact ih.appendValue hpos hlength hvalue
  | addAssign _ _ ih ih' => exact ih.addAssign ih'
  | fromBytesBe hcount => exact packs_fromBytesBe_take hcount
  | fromBytesBeOffset hne hpos hsum hok =>
    obtain ⟨hfirst, hlast⟩ := lengths_of_fromBytesBeOffset hpos hsum hne hok
    obtain ⟨out, hout, hpacks⟩ :=
      packs_fromBytesBeOffset hpos hsum hfirst hlast
    cases hout.symm.trans hok
    exact hpacks

/-- Where a read of no bits is answered: inside a word, or in front of a word
that is not full. -/
def EmptyReadAt (length position : Nat) : Prop :=
  position % 64 ≠ 0 ∨ position < length ∧ length < position + 64

/-- Successive reads of at most 64 bits each. -/
def Readable (length : Nat) : Nat → List Nat → Prop
  | _, [] => True
  | position, count :: counts =>
    (count = 0 → EmptyReadAt length position) ∧ count ≤ 64 ∧
      Readable length (position + count) counts

theorem Packs.readU64At_of_readable (h : Packs reader bits)
    (hempty : bitCount = 0 → EmptyReadAt bits.length start)
    (hcount : bitCount ≤ 64) (hfits : start + bitCount ≤ bits.length) :
    ∃ value, reader.readU64At bitCount start = .ok value ∧
      value.toNat = bitsNat ((bits.drop start).take bitCount) := by
  rcases Nat.eq_zero_or_pos bitCount with rfl | hpos
  · have hplace := hempty rfl
    rw [EmptyReadAt] at hplace
    have hindex : 64 * (start / 64) < bits.length := by omega
    obtain ⟨first, hword, hsize, hvalue, -⟩ := h.word_eq hindex
    refine ⟨_, by rw [readU64At, hword, bind_ok, Nat.add_zero, if_pos rfl]; rfl,
      ?_⟩
    rw [cutBits_toNat hvalue (le_refl _) (by omega) (by omega) (by omega)]
    simp [Nat.mod_one, bitsNat]
  · exact h.readU64At_eq hpos hcount hfits

/-- Reads take one field after the other; the first that goes past the end
fails. -/
theorem Packs.reads_eq (h : Packs reader bits) {counts : List Nat}
    (hcounts : Readable bits.length start counts)
    (hstart : start ≤ bits.length) :
    if start + counts.sum ≤ bits.length then
      ∃ values, { reader with position := start }.reads counts = .ok values ∧
        values.map UInt64.toNat =
          (counts.splitLengths (bits.drop start)).map bitsNat
    else ∃ e, { reader with position := start }.reads counts =
      .error (.error e) := by
  induction counts generalizing start with
  | nil =>
    rw [sum_nil, if_pos (Nat.add_zero start ▸ hstart)]
    exact ⟨[], rfl, rfl⟩
  | cons count counts ih =>
    obtain ⟨hempty, hcount, hcounts⟩ := hcounts
    rw [sum_cons, ← Nat.add_assoc]
    have hsize := h.size
    simp only [reads, readU64]
    by_cases hfits : start + count ≤ bits.length
    · obtain ⟨value, hread, hvalue⟩ :=
        h.readU64At_of_readable hempty hcount hfits
      have hmoved : readU64At { reader with position := start } count start =
        .ok value := hread
      have hroom : ¬ start + count > reader.size := by omega
      have hrest := ih hcounts hfits
      rw [if_neg hroom, hmoved, bind_ok]
      split_ifs at hrest ⊢ with hsum
      · obtain ⟨values, hvalues, heq⟩ := hrest
        refine ⟨value :: values, by rw [hvalues]; rfl, ?_⟩
        rw [map_cons, hvalue, heq, splitLengths_cons, map_cons, drop_drop]
      · obtain ⟨e, he⟩ := hrest
        exact ⟨e, by rw [he]; rfl⟩
    · have hpast : start + count > reader.size := by omega
      rw [if_neg (by omega), if_pos hpast]
      exact ⟨_, rfl⟩

/-- A stretch of no bits, in a word that is there. -/
theorem Packs.sliceToInt_self (h : Packs reader bits)
    (hindex : 64 * (start / 64) < bits.length) :
    reader.sliceToInt start start = .ok 0 := by
  obtain ⟨first, hword, -, -, -⟩ := h.word_eq hindex
  have hnone : usizeSub (start % 64) (start % 64) = 0 := by
    rw [usizeSub_of_le (le_refl _) (by omega), Nat.sub_self]
  have hmask : shl64 1 0 - 1 = 0 := by decide
  rw [sliceToInt, hword, bind_ok, if_pos rfl, hnone, hmask]
  exact congrArg Except.ok UInt64.and_zero

theorem Built.holds_bits (h : Built reader bits) :
    reader.getSize = bits.length ∧
    (∀ i j, i ≤ j → j ≤ bits.length → ∃ out, reader.range i j = .ok out ∧
      Packs out ((bits.drop i).take (j - i))) ∧
    (∀ i ≤ bits.length, ∃ out, reader.slice i = .ok out ∧
      Packs out (bits.drop i)) ∧
    (∀ i j, i ≤ j → 64 * (i / 64) < bits.length → j ≤ bits.length →
      j - i ≤ 64 → ∃ value, reader.sliceToInt i j = .ok value ∧
        value.toNat = bitsNat ((bits.drop i).take (j - i))) ∧
    (∀ counts : List Nat, Readable bits.length 0 counts →
      if counts.sum ≤ bits.length then
        ∃ values, reader.reads counts = .ok values ∧
          values.map UInt64.toNat = (counts.splitLengths bits).map bitsNat
      else ∃ e, reader.reads counts = .error (.error e)) ∧
    reader.toBytes = .ok (packBits bits) ∧
    ∀ other others, Built other others → others.length = bits.length →
      reader.cmp other = .ok (compare (bitsNat bits) (bitsNat others)) := by
  have hpacks := h.packs
  have hrange (i j : Nat) (hle : i ≤ j) (hj : j ≤ bits.length) :
      ∃ out, reader.range i j = .ok out ∧
        Packs out ((bits.drop i).take (j - i)) := by
    rcases hle.eq_or_lt with rfl | hlt
    · refine ⟨BitReader.empty, ?_, by simpa using packs_empty⟩
      rw [BitReader.range, hpacks.getSize_eq, Nat.min_eq_left hj, if_pos rfl]
    · exact hpacks.range_eq hlt hj
  refine ⟨hpacks.getSize_eq, hrange, fun i hi => ?_,
    fun i j hle hword hj hwidth => ?_, fun counts hcounts => ?_,
    hpacks.toBytes_eq,
    fun other others hother hsame => hpacks.cmp_eq hother.packs hsame.symm⟩
  · have hslice := hrange i bits.length hi le_rfl
    rwa [← hpacks.getSize_eq, take_of_length_le (by simp [hpacks.getSize_eq])]
      at hslice
  · rcases hle.eq_or_lt with rfl | hlt
    · exact ⟨0, hpacks.sliceToInt_self hword, by simp [bitsNat]⟩
    · exact hpacks.sliceToInt_eq hlt hj hwidth
  · have hreads := hpacks.reads_eq hcounts (Nat.zero_le _)
    rwa [Nat.zero_add, drop_zero, show { reader with position := 0 } = reader
      by rw [← hpacks.position]] at hreads

/-- The zeros that `from_bytes_be` puts in front are counted twice, so a read
past the end returns. -/
theorem fromBytesBe_reads_past_end :
    (fromBytesBe [1] 72).getSize = 72 ∧
      (fromBytesBe [1] 72).reads [64, 64] = .ok [0, 1] := by
  decide +kernel

def mixedBytes : Bytes := (List.range 24).map UInt8.ofNat

/-- A field, the front of a byte string and bits from its second word on, read
in pieces that cross the words, and then past the end. -/
theorem holds_bits_at_mixed :
    ∃ back, fromBytesBeOffset mixedBytes 80 70 = .ok back ∧
      let reader := ((BitReader.empty.appendValue 5 3).addAssign
        (fromBytesBe mixedBytes (2 * 8))).addAssign back
      (∃ values, reader.reads [3, 0, 40, 56] = .ok values ∧
        values.map UInt64.toNat = [5, 0, 16925314, 54891208966931524]) ∧
      ∃ e, reader.reads [64, 64] = .error (.error e) := by
  obtain ⟨back, hback, -⟩ := @packs_fromBytesBeOffset 80 70 mixedBytes
    (by decide) (by decide) (by decide) (by decide)
  have hfield := @Built.appendValue _ _ 5 3 .empty (by decide) (by decide)
    (by decide)
  have hfront := @Built.fromBytesBe mixedBytes 2 (by decide)
  have hback' := Built.fromBytesBeOffset (by decide) (by decide) (by decide)
    hback
  have hreads :=
    (Built.holds_bits ((hfield.addAssign hfront).addAssign hback')).2.2.2.2.1
  refine ⟨back, hback, ?_, ?_⟩
  · obtain ⟨values, hvalues, heq⟩ := hreads [3, 0, 40, 56]
      (by simp [Readable, EmptyReadAt])
    exact ⟨values, hvalues, heq.trans (by decide +kernel)⟩
  · exact hreads [64, 64] (by simp [Readable])

end BitReader

end DgXch
