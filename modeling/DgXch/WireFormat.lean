/-
The wire format (`ChiaSerialize`).  A serializer writes the values of a type and
reads them at a cursor; `Lawful` says that what it writes is read back in front
of anything, and that what it reads is what it writes.  Both laws go from the
parts of a type to the whole.
-/
import DgXch.BackrefSerializer
import DgXch.ProofOfSpace

namespace DgXch

open BigEndian DgXch.Except Cursor Nat List

variable {w : Bytes} {byte : UInt8} {count : Nat} {bytes : Bytes} {lead : UInt8}
  {version : UInt8} {contract : Option Bytes32}

variable {stream next : Cursor} {t : SExp}

namespace Cursor

/-- `next` comes after the bytes `w` that are read at `stream`. -/
structure Takes (stream : Cursor) (w : Bytes) (next : Cursor) : Prop where
  rest : stream.rest = w ++ next.rest
  advance : next = stream.advance w.length

theorem takes_of_rest {back : Bytes} (hrest : stream.rest = w ++ back) :
    stream.Takes w (stream.advance w.length) :=
  ⟨by simp [hrest], rfl⟩

theorem Takes.slice (htakes : stream.Takes w next) :
    (stream.data.drop stream.pos).take (next.pos - stream.pos) = w := by
  have hnext : next.pos - stream.pos = w.length := by
    rw [htakes.advance]
    exact Nat.add_sub_cancel_left _ _
  have hrest : stream.data.drop stream.pos = w ++ next.rest := htakes.rest
  rw [hnext, hrest, take_left]

@[simp]
theorem takes_nil : stream.Takes [] next ↔ next = stream := by
  constructor
  · exact Takes.advance
  · rintro rfl
    exact ⟨rfl, rfl⟩

theorem takes_append {front back : Bytes} :
    stream.Takes (front ++ back) next ↔
      ∃ mid, stream.Takes front mid ∧ mid.Takes back next := by
  constructor
  · rintro ⟨hrest, hnext⟩
    rw [append_assoc] at hrest
    refine ⟨_, takes_of_rest hrest, ?_, ?_⟩
    · rw [rest_advance, hrest, drop_left]
    · rw [hnext, advance_advance, length_append]
  · rintro ⟨mid, ⟨hrest, hmid⟩, ⟨hrest', rfl⟩⟩
    refine ⟨by rw [hrest, hrest', append_assoc], ?_⟩
    rw [hmid, advance_advance, length_append]

theorem takes_cons {back : Bytes} :
    stream.Takes (byte :: back) next ↔
      ∃ mid, stream.readByte = .ok (byte, mid) ∧ mid.Takes back next := by
  rw [← singleton_append, takes_append]
  apply exists_congr
  intro mid
  rw [readByte_eq_ok]
  apply and_congr_left'
  constructor
  · rintro ⟨hrest, hmid⟩
    exact ⟨⟨_, hrest⟩, hmid⟩
  · rintro ⟨⟨back, hrest⟩, rfl⟩
    exact takes_of_rest (w := [byte]) hrest

theorem readExact_takes {out : Bytes} :
    stream.readExact count = .ok (out, next) ↔
      out.length = count ∧ stream.Takes out next := by
  rw [readExact_eq_ok]
  apply and_congr_right
  rintro rfl
  constructor
  · rintro ⟨⟨back, hrest⟩, rfl⟩
    exact takes_of_rest hrest
  · rintro ⟨hrest, rfl⟩
    exact ⟨⟨_, hrest⟩, rfl⟩

end Cursor

/-- `ChiaSerialize`: how the values of a type are written, and read at a
cursor. -/
structure ChiaSerialize (A : Type) where
  toBytes : A → Except IoError Bytes
  fromBytes : Cursor → Except IoError (A × Cursor)

namespace ChiaSerialize

variable {A B C : Type}

def fromBytesExact (c : ChiaSerialize A) (bytes : Bytes) :
    Except IoError A := do
  let (value, cursor) ← c.fromBytes ⟨bytes, 0⟩
  if cursor.pos ≠ bytes.length then
    .error ⟨.invalidData,
      toString (bytes.length - cursor.pos) ++ " bytes not consumed"⟩
  else .ok value

/-- `impl_arrays`, `impl_sized_bytes`: exactly `size` bytes. -/
def array (name : String) (size : Nat) :
    ChiaSerialize { bytes : Bytes // bytes.length = size } where
  toBytes value := .ok value.1
  fromBytes bytes :=
    if bytes.remaining < size then
      .error ⟨.invalidInput, "Failed to Parse " ++ name ++
        ", expected length " ++ toString size ++ ", found " ++
        toString bytes.remaining⟩
    else
      match hread : bytes.readExact size with
      | .error e => .error e
      | .ok (buffer, bytes) =>
        .ok (⟨buffer, (Cursor.readExact_takes.mp hread).1⟩, bytes)

/-- `impl_primitives`: an integer of `size` bytes, by its bits. -/
def integer (name : String) (size : Nat) :
    ChiaSerialize (BitVec (8 * size)) where
  toBytes value := .ok (beBytes size value.toNat)
  fromBytes bytes := do
    let (buffer, bytes) ← (array name size).fromBytes bytes
    return (BitVec.ofNat _ (beNat buffer.1), bytes)

def bool : ChiaSerialize Bool where
  toBytes value := .ok [if value then 1 else 0]
  fromBytes bytes := do
    let (byte, bytes) ← bytes.readByte
    if byte = 0 then return (false, bytes)
    else if byte = 1 then return (true, bytes)
    else .error ⟨.invalidInput,
      "Failed to parse bool, invalid value: " ++ toString byte⟩

def option (t : ChiaSerialize A) : ChiaSerialize (Option A) where
  toBytes
    | some value => do
        let bytes ← t.toBytes value
        return 1 :: bytes
    | none => .ok [0]
  fromBytes bytes := do
    let (byte, bytes) ← bytes.readByte
    if byte = 0 then return (none, bytes)
    else if byte = 1 then do
      let (value, bytes) ← t.fromBytes bytes
      return (some value, bytes)
    else .error ⟨.invalidInput,
      "Optional must be 0 or 1, found: " ++ toString byte⟩

/-- `(T, U)`; also one field of a derived struct, in front of the others. -/
def pair (t : ChiaSerialize A) (u : ChiaSerialize B) :
    ChiaSerialize (A × B) where
  toBytes value := do
    let first ← t.toBytes value.1
    let second ← u.toBytes value.2
    return first ++ second
  fromBytes bytes := do
    let (first, bytes) ← t.fromBytes bytes
    let (second, bytes) ← u.fromBytes bytes
    return ((first, second), bytes)

/-- `(T, U, V)`. -/
def triple (t : ChiaSerialize A) (u : ChiaSerialize B) (v : ChiaSerialize C) :
    ChiaSerialize (A × B × C) where
  toBytes value := do
    let first ← t.toBytes value.1
    let second ← u.toBytes value.2.1
    let third ← v.toBytes value.2.2
    return first ++ second ++ third
  fromBytes bytes := do
    let (first, bytes) ← t.fromBytes bytes
    let (second, bytes) ← u.fromBytes bytes
    let (third, bytes) ← v.fromBytes bytes
    return ((first, second, third), bytes)

/-- The elements of a `Vec<T>` one after another. -/
def writeAll (t : ChiaSerialize A) : List A → Except IoError Bytes
  | [] => .ok []
  | head :: tail => do
      let front ← t.toBytes head
      let back ← writeAll t tail
      return front ++ back

/-- The `try_fold` of `Vec<T>`. -/
def readAll (t : ChiaSerialize A) : Nat → List A → Cursor →
    Except IoError (List A × Cursor)
  | 0, vec, bytes => .ok (vec, bytes)
  | count + 1, vec, bytes => do
      let (value, bytes) ← t.fromBytes bytes
      readAll t count (vec ++ [value]) bytes

/-- `Vec<T>`, after its length as a `u32`. -/
def vec (t : ChiaSerialize A) : ChiaSerialize (List A) where
  toBytes value := do
    let elements ← t.writeAll value
    return beBytes 4 value.length ++ elements
  fromBytes bytes := do
    let (buffer, bytes) ← bytes.readExact 4
    t.readAll (beNat buffer) [] bytes

/-- `String`, after its length in bytes as a `u32`. -/
def string : ChiaSerialize String where
  toBytes value := .ok (beBytes 4 value.toUTF8.size ++ value.toUTF8.data.toList)
  fromBytes bytes := do
    let (buffer, bytes) ← bytes.readExact 4
    let count := beNat buffer
    if bytes.remaining < count then
      .error ⟨.invalidInput, "String length " ++ toString count ++ " exceeds " ++
        toString bytes.remaining ++ " remaining bytes"⟩
    else do
      let (buffer, bytes) ← bytes.readExact count
      match String.fromUTF8? ⟨buffer.toArray⟩ with
      | some value => return (value, bytes)
      | none => .error ⟨.invalidInput,
          "Failed to parse Utf-8 String from Bytes"⟩

/-- A derived struct without fields, or what follows the last field. -/
def noFields : ChiaSerialize Unit where
  toBytes _ := .ok []
  fromBytes bytes := .ok ((), bytes)

/-- A derived struct, from its fields in their order. -/
def derived (fields : ChiaSerialize A) (assign : A ≃ B) : ChiaSerialize B where
  toBytes value := fields.toBytes (assign.symm value)
  fromBytes bytes := do
    let (value, bytes) ← fields.fromBytes bytes
    return (assign value, bytes)

/-- `SerializedProgram`: the bytes of one program, kept as they are. -/
def serializedProgram : ChiaSerialize Bytes where
  toBytes value := .ok value
  fromBytes bytes := do
    let start := bytes.pos
    let (_, next) ← (sexpFromBytesBackrefs bytes).mapError fun _ =>
      ⟨.invalidInput, "SerializedProgram"⟩
    if start ≤ next.pos ∧ next.pos ≤ bytes.data.length then
      return ((bytes.data.drop start).take (next.pos - start), next)
    else .error ⟨.invalidInput, "SerializedProgram slice out of range"⟩

def bytes32 : ChiaSerialize Bytes32 :=
  (array "Bytes32" 32).derived
    ⟨fun value => ⟨value.1, value.2⟩, fun value => ⟨value.1, value.2⟩,
      fun _ => rfl, fun _ => rfl⟩

def bytes48 : ChiaSerialize Bytes48 :=
  (array "Bytes48" 48).derived
    ⟨fun value => ⟨value.1, value.2⟩, fun value => ⟨value.1, value.2⟩,
      fun _ => rfl, fun _ => rfl⟩

def u8 : ChiaSerialize UInt8 :=
  (integer "u8" 1).derived
    ⟨UInt8.ofBitVec, UInt8.toBitVec, fun _ => rfl, fun _ => rfl⟩

def u16 : ChiaSerialize UInt16 :=
  (integer "u16" 2).derived
    ⟨UInt16.ofBitVec, UInt16.toBitVec, fun _ => rfl, fun _ => rfl⟩

end ChiaSerialize

namespace ProofOfSpace

def v1 (challenge : Bytes32) (poolPublicKey : Option Bytes48)
    (poolContractPuzzleHash : Option Bytes32) (plotPublicKey : Bytes48)
    (size : UInt8) (proof : Bytes) : ProofOfSpace :=
  ⟨challenge, poolPublicKey, poolContractPuzzleHash, plotPublicKey, 0, 0, 0, 0,
    size, proof⟩

def v2 (challenge : Bytes32) (poolPublicKey : Option Bytes48)
    (poolContractPuzzleHash : Option Bytes32) (plotPublicKey : Bytes48)
    (plotIndex : UInt16) (metaGroup strength : UInt8) (proof : Bytes) :
    ProofOfSpace :=
  ⟨challenge, poolPublicKey, poolContractPuzzleHash, plotPublicKey, 1, plotIndex,
    metaGroup, strength, 0, proof⟩

end ProofOfSpace

namespace ChiaSerialize

/-- What `ProofOfSpace::from_bytes` reads after the tag of the
contract. -/
def readContract (lead : UInt8) (bytes : Cursor) :
    Except IoError (Option Bytes32 × Cursor) :=
  if lead &&& 1 ≠ 0 then do
    let (contract, bytes) ← bytes32.fromBytes bytes
    .ok (some contract, bytes)
  else .ok (none, bytes)

def proofOfSpace : ChiaSerialize ProofOfSpace where
  toBytes self := do
    let challenge ← bytes32.toBytes self.challenge
    let poolPublicKey ← bytes48.option.toBytes self.poolPublicKey
    let fields ←
      if self.version = 0 then do
        let contract ← bytes32.option.toBytes self.poolContractPuzzleHash
        let plotPublicKey ← bytes48.toBytes self.plotPublicKey
        let size ← u8.toBytes self.size
        .ok (contract ++ (plotPublicKey ++ size))
      else if self.version = 1 then do
        let contract ← match self.poolContractPuzzleHash with
          | some contract => (bytes32.toBytes contract).map (0b11 :: ·)
          | none => .ok [0b10]
        let plotPublicKey ← bytes48.toBytes self.plotPublicKey
        let plotIndex ← u16.toBytes self.plotIndex
        let metaGroup ← u8.toBytes self.metaGroup
        let strength ← u8.toBytes self.strength
        .ok (contract ++ (plotPublicKey ++ (plotIndex ++
          (metaGroup ++ strength))))
      else .error ⟨.invalidData,
        "unknown proof of space version: " ++ toString self.version⟩
    let proof ← u8.vec.toBytes self.proof
    return challenge ++ (poolPublicKey ++ (fields ++ proof))
  fromBytes bytes := do
    let (challenge, bytes) ← bytes32.fromBytes bytes
    let (poolPublicKey, bytes) ← bytes48.option.fromBytes bytes
    let (lead, bytes) ← u8.fromBytes bytes
    if lead > 0b11 then
      .error ⟨.invalidInput,
        "invalid proof of space prefix: " ++ toString lead⟩
    else do
      let (contract, bytes) ← readContract lead bytes
      let (plotPublicKey, bytes) ← bytes48.fromBytes bytes
      if lead >>> 1 = 0 then do
        let (size, bytes) ← u8.fromBytes bytes
        let (proof, bytes) ← u8.vec.fromBytes bytes
        .ok (.v1 challenge poolPublicKey contract plotPublicKey size proof,
          bytes)
      else do
        let (plotIndex, bytes) ← u16.fromBytes bytes
        let (metaGroup, bytes) ← u8.fromBytes bytes
        let (strength, bytes) ← u8.fromBytes bytes
        let (proof, bytes) ← u8.vec.fromBytes bytes
        if poolPublicKey.isSome = contract.isSome then
          .error ⟨.invalidInput, "a v2 proof needs exactly one of " ++
            "pool_public_key and pool_contract_puzzle_hash"⟩
        else
          .ok (.v2 challenge poolPublicKey contract plotPublicKey plotIndex
            metaGroup strength proof, bytes)

/-- What is written of a valid value is read back in front of anything, and
whatever is read is what is written of the result. -/
structure Lawful (c : ChiaSerialize A) (valid : A → Prop) : Prop where
  reads : ∀ value, valid value → ∃ w, c.toBytes value = .ok w ∧
    ∀ stream next : Cursor, stream.Takes w next →
      c.fromBytes stream = .ok (value, next)
  writes : ∀ stream value next, c.fromBytes stream = .ok (value, next) →
    ∃ w, c.toBytes value = .ok w ∧ stream.Takes w next

theorem Lawful.fromBytes_eq_ok {c : ChiaSerialize A} {valid : A → Prop}
    (hc : c.Lawful valid) {value : A} (hvalid : valid value)
    (hwrite : c.toBytes value = .ok w) :
    c.fromBytes stream = .ok (value, next) ↔ stream.Takes w next := by
  constructor
  · intro hread
    obtain ⟨w', hwrite', htakes⟩ := hc.writes _ _ _ hread
    cases hwrite.symm.trans hwrite'
    exact htakes
  · intro htakes
    obtain ⟨w', hwrite', hreads⟩ := hc.reads _ hvalid
    cases hwrite.symm.trans hwrite'
    exact hreads _ _ htakes

section Laws

variable {t : ChiaSerialize A} {u : ChiaSerialize B} {v : ChiaSerialize C}
  {validA : A → Prop} {validB : B → Prop} {validC : C → Prop}

theorem array_fromBytes_eq_ok {name : String} {size : Nat}
    {value : { bytes : Bytes // bytes.length = size }} :
    (array name size).fromBytes stream = .ok (value, next) ↔
      stream.Takes value.1 next := by
  constructor
  · intro hread
    simp only [array] at hread
    split_ifs at hread with hshort
    split at hread
    · cases hread
    · rename_i hexact
      cases hread
      exact (readExact_takes.mp hexact).2
  · intro htakes
    have hexact := readExact_takes.mpr ⟨value.2, htakes⟩
    have henough : ¬ stream.remaining < size := by
      rw [← length_rest, htakes.rest, length_append, value.2]
      omega
    simp only [array, if_neg henough]
    split
    · rename_i hread
      cases hexact.symm.trans hread
    · rename_i hread
      cases hexact.symm.trans hread
      rfl

theorem lawful_array (name : String) (size : Nat) :
    (array name size).Lawful fun _ => True where
  reads value _ := ⟨value.1, rfl, fun _ _ => array_fromBytes_eq_ok.mpr⟩
  writes _ value _ hread := ⟨value.1, rfl, array_fromBytes_eq_ok.mp hread⟩

theorem beBytes_beNat_of_length {width : Nat}
    (hlength : bytes.length = width) : beBytes width (beNat bytes) = bytes := by
  have hbytes := beBytes_beNat bytes 0
  rwa [zero_mul, zero_add, hlength] at hbytes

theorem lawful_integer (name : String) (size : Nat) :
    (integer name size).Lawful fun _ => True := by
  have hpow : 256 ^ size = 2 ^ (8 * size) := by rw [Nat.pow_mul]
  constructor
  · intro value _
    refine ⟨_, rfl, ?_⟩
    intro stream next htakes
    have hread : (array name size).fromBytes stream =
        .ok (⟨_, length_beBytes size value.toNat⟩, next) :=
      array_fromBytes_eq_ok.mpr htakes
    have hvalue : BitVec.ofNat (8 * size) (beNat (beBytes size value.toNat)) =
        value := by
      apply BitVec.eq_of_toNat_eq
      rw [beNat_beBytes, hpow, BitVec.toNat_ofNat, Nat.mod_mod,
        mod_eq_of_lt value.isLt]
    simp only [integer, hread, bind_ok, hvalue]
    rfl
  · intro stream value next hread
    obtain ⟨⟨buffer, mid⟩, hread, hvalue⟩ := bind_eq_ok.mp hread
    cases hvalue
    refine ⟨buffer.1, ?_, array_fromBytes_eq_ok.mp hread⟩
    have hlt := beNat_lt buffer.1
    rw [buffer.2, hpow] at hlt
    simp only [integer, BitVec.toNat_ofNat, mod_eq_of_lt hlt]
    rw [beBytes_beNat_of_length buffer.2]

theorem lawful_bool : bool.Lawful fun _ => True := by
  constructor
  · intro value _
    refine ⟨_, rfl, ?_⟩
    intro stream next htakes
    obtain ⟨mid, hread, hnil⟩ := takes_cons.mp htakes
    cases takes_nil.mp hnil
    simp only [bool, hread, bind_ok]
    cases value <;> rfl
  · intro stream value next hread
    obtain ⟨⟨byte, mid⟩, hbyte, hread⟩ := bind_eq_ok.mp hread
    dsimp only at hread
    split_ifs at hread with hzero hone
    · cases hread
      exact ⟨[0], rfl, takes_cons.mpr ⟨_, hzero ▸ hbyte, takes_nil.mpr rfl⟩⟩
    · cases hread
      exact ⟨[1], rfl, takes_cons.mpr ⟨_, hone ▸ hbyte, takes_nil.mpr rfl⟩⟩

theorem Lawful.option (ht : t.Lawful validA) :
    t.option.Lawful fun value => ∀ x ∈ value, validA x := by
  constructor
  · intro value hvalid
    cases value with
    | none =>
      refine ⟨[0], rfl, ?_⟩
      intro stream next htakes
      obtain ⟨mid, hread, hnil⟩ := takes_cons.mp htakes
      cases takes_nil.mp hnil
      simp only [ChiaSerialize.option, hread, bind_ok]
      rfl
    | some x =>
      obtain ⟨w, hwrite, hreads⟩ := ht.reads x (hvalid x rfl)
      refine ⟨1 :: w, by simp only [ChiaSerialize.option, hwrite]; rfl, ?_⟩
      intro stream next htakes
      obtain ⟨mid, hread, htakes⟩ := takes_cons.mp htakes
      simp only [ChiaSerialize.option, hread, bind_ok, hreads _ _ htakes]
      rfl
  · intro stream value next hread
    obtain ⟨⟨byte, mid⟩, hbyte, hread⟩ := bind_eq_ok.mp hread
    dsimp only at hread
    split_ifs at hread with hzero hone
    · cases hread
      exact ⟨[0], rfl, takes_cons.mpr ⟨_, hzero ▸ hbyte, takes_nil.mpr rfl⟩⟩
    · obtain ⟨⟨x, last⟩, hx, hvalue⟩ := bind_eq_ok.mp hread
      cases hvalue
      obtain ⟨w, hwrite, htakes⟩ := ht.writes _ _ _ hx
      refine ⟨1 :: w, by simp only [ChiaSerialize.option, hwrite]; rfl, ?_⟩
      exact takes_cons.mpr ⟨_, hone ▸ hbyte, htakes⟩

theorem Lawful.pair (ht : t.Lawful validA) (hu : u.Lawful validB) :
    (t.pair u).Lawful fun value => validA value.1 ∧ validB value.2 := by
  constructor
  · rintro ⟨first, second⟩ ⟨hfirst, hsecond⟩
    obtain ⟨front, hfront, hreads⟩ := ht.reads first hfirst
    obtain ⟨back, hback, hreads'⟩ := hu.reads second hsecond
    refine ⟨front ++ back,
      by simp only [ChiaSerialize.pair, hfront, hback]; rfl, ?_⟩
    intro stream next htakes
    obtain ⟨mid, htakes, htakes'⟩ := takes_append.mp htakes
    simp only [ChiaSerialize.pair, hreads _ _ htakes, hreads' _ _ htakes',
      bind_ok]
    rfl
  · intro stream value next hread
    obtain ⟨⟨first, mid⟩, hfirst, hread⟩ := bind_eq_ok.mp hread
    obtain ⟨⟨second, last⟩, hsecond, hvalue⟩ := bind_eq_ok.mp hread
    cases hvalue
    obtain ⟨front, hfront, htakes⟩ := ht.writes _ _ _ hfirst
    obtain ⟨back, hback, htakes'⟩ := hu.writes _ _ _ hsecond
    exact ⟨front ++ back, by simp only [ChiaSerialize.pair, hfront, hback]; rfl,
      takes_append.mpr ⟨_, htakes, htakes'⟩⟩

/-- A triple is written and read as nested pairs are. -/
theorem triple_eq_pair : t.triple u v = t.pair (u.pair v) := by
  simp only [triple, pair, bind_assoc, pure_bind, append_assoc]

theorem lawful_noFields : noFields.Lawful fun _ => True where
  reads _ _ := ⟨[], rfl, fun _ _ htakes => by
    rw [Cursor.takes_nil.mp htakes]
    rfl⟩
  writes _ _ _ hread := by
    cases hread
    exact ⟨[], rfl, takes_nil.mpr rfl⟩

section

variable (ht : t.Lawful validA)

include ht

theorem Lawful.derived (assign : A ≃ B) :
    (t.derived assign).Lawful fun value => validA (assign.symm value) := by
  constructor
  · intro value hvalid
    obtain ⟨w, hwrite, hreads⟩ := ht.reads _ hvalid
    refine ⟨w, hwrite, ?_⟩
    intro stream next htakes
    simp only [ChiaSerialize.derived, hreads _ _ htakes, bind_ok,
      assign.apply_symm_apply]
    rfl
  · intro stream value next hread
    obtain ⟨⟨fields, mid⟩, hread, hvalue⟩ := bind_eq_ok.mp hread
    cases hvalue
    obtain ⟨w, hwrite, htakes⟩ := ht.writes _ _ _ hread
    refine ⟨w, ?_, htakes⟩
    simp only [ChiaSerialize.derived, assign.symm_apply_apply, hwrite]

theorem Lawful.readAll {list : List A} (hvalid : ∀ x ∈ list, validA x) :
    ∃ w, t.writeAll list = .ok w ∧ ∀ vec (stream next : Cursor),
      stream.Takes w next →
        t.readAll list.length vec stream = .ok (vec ++ list, next) := by
  induction list with
  | nil =>
    refine ⟨[], rfl, ?_⟩
    intro vec stream next htakes
    rw [takes_nil.mp htakes, append_nil]
    rfl
  | cons head tail ih =>
    obtain ⟨front, hfront, hreads⟩ := ht.reads head (hvalid _ (by simp))
    obtain ⟨back, hback, hrest⟩ :=
      ih fun x hx => hvalid x (mem_cons_of_mem _ hx)
    refine ⟨front ++ back, by simp only [writeAll, hfront, hback]; rfl, ?_⟩
    intro vec stream next htakes
    obtain ⟨mid, htakes, htakes'⟩ := takes_append.mp htakes
    simp only [length_cons, ChiaSerialize.readAll, hreads _ _ htakes,
      bind_ok, hrest _ _ _ htakes', append_assoc, singleton_append]

theorem Lawful.writeAll {vec out : List A}
    (hread : t.readAll count vec stream = .ok (out, next)) :
    ∃ list w, out = vec ++ list ∧ list.length = count ∧
      t.writeAll list = .ok w ∧ stream.Takes w next := by
  induction count generalizing vec stream with
  | zero =>
    cases hread
    exact ⟨[], [], by simp, rfl, rfl, takes_nil.mpr rfl⟩
  | succ count ih =>
    obtain ⟨⟨x, mid⟩, hx, hread⟩ := bind_eq_ok.mp hread
    obtain ⟨tail, back, rfl, rfl, hback, htakes'⟩ := ih hread
    obtain ⟨front, hfront, htakes⟩ := ht.writes _ _ _ hx
    exact ⟨x :: tail, front ++ back, by simp, rfl,
      by simp only [ChiaSerialize.writeAll, hfront, hback]; rfl,
      takes_append.mpr ⟨_, htakes, htakes'⟩⟩

theorem Lawful.vec :
    t.vec.Lawful fun value =>
      value.length < 2 ^ 32 ∧ ∀ x ∈ value, validA x := by
  constructor
  · rintro value ⟨hlength, hvalid⟩
    obtain ⟨w, hwrite, hreads⟩ := ht.readAll hvalid
    refine ⟨beBytes 4 value.length ++ w,
      by simp only [ChiaSerialize.vec, hwrite]; rfl, ?_⟩
    intro stream next htakes
    obtain ⟨mid, htakes, htakes'⟩ := takes_append.mp htakes
    have hread := readExact_takes.mpr ⟨length_beBytes 4 _, htakes⟩
    have hcount : beNat (beBytes 4 value.length) = value.length := by
      rw [beNat_beBytes]
      exact mod_eq_of_lt hlength
    simp only [ChiaSerialize.vec, hread, bind_ok, hcount,
      hreads _ _ _ htakes', nil_append]
  · intro stream value next hread
    obtain ⟨⟨buffer, mid⟩, hbuffer, hread⟩ := bind_eq_ok.mp hread
    obtain ⟨hwidth, htakes⟩ := readExact_takes.mp hbuffer
    obtain ⟨list, w, rfl, hlength, hwrite, htakes'⟩ := ht.writeAll hread
    refine ⟨buffer ++ w, ?_, takes_append.mpr ⟨_, htakes, htakes'⟩⟩
    simp only [ChiaSerialize.vec, hwrite, bind_ok, hlength,
      beBytes_beNat_of_length hwidth]
    rfl

end

theorem fromUTF8?_eq_some {value : String} :
    String.fromUTF8? ⟨bytes.toArray⟩ = some value ↔
      value.toUTF8.data.toList = bytes := by
  have hsame : value.toUTF8.data.toList = bytes ↔
      value.toByteArray = ⟨bytes.toArray⟩ := by
    rw [ByteArray.ext_iff, ← Array.toList_inj]
    rfl
  rw [hsame, String.fromUTF8?]
  constructor
  · intro h
    split_ifs at h
    cases h
    rfl
  · intro h
    have hvalid := value.isValidUTF8
    rw [h] at hvalid
    rw [dif_pos hvalid]
    exact congrArg some (String.toByteArray_inj.mp h.symm)

theorem lawful_string :
    string.Lawful fun value => value.utf8ByteSize < 2 ^ 32 := by
  constructor
  · intro value hlength
    refine ⟨_, rfl, ?_⟩
    intro stream next htakes
    obtain ⟨mid, htakes, htakes'⟩ := takes_append.mp htakes
    have hread := readExact_takes.mpr ⟨length_beBytes 4 _, htakes⟩
    have hcount : beNat (beBytes 4 value.toUTF8.size) =
        value.toUTF8.data.toList.length := by
      rw [beNat_beBytes]
      exact mod_eq_of_lt hlength
    have hread' := readExact_takes.mpr ⟨rfl, htakes'⟩
    have henough : ¬ mid.remaining < value.toUTF8.data.toList.length := by
      rw [← length_rest, htakes'.rest, length_append]
      omega
    simp only [string, hread, bind_ok, hcount, if_neg henough, hread',
      fromUTF8?_eq_some.mpr rfl]
    rfl
  · intro stream value next hread
    obtain ⟨⟨buffer, mid⟩, hbuffer, hread⟩ := bind_eq_ok.mp hread
    obtain ⟨hwidth, htakes⟩ := readExact_takes.mp hbuffer
    dsimp only at hread
    split_ifs at hread
    obtain ⟨⟨content, last⟩, hcontent, hread⟩ := bind_eq_ok.mp hread
    obtain ⟨hlength, htakes'⟩ := readExact_takes.mp hcontent
    dsimp only at hread
    split at hread
    · rename_i hvalue
      cases hread
      refine ⟨buffer ++ content, ?_, takes_append.mpr ⟨_, htakes, htakes'⟩⟩
      have hdata := fromUTF8?_eq_some.mp hvalue
      have hsize : value.toUTF8.size = beNat buffer := by
        rw [← hlength, ← hdata]
        rfl
      simp only [string, hdata, hsize, beBytes_beNat_of_length hwidth]
    · cases hread

end Laws

section Programs

theorem parseBackrefPath_takes {path : Bytes} :
    parseBackrefPath stream = .ok (path, next) ↔
      ∃ token, AtomToken token path ∧ stream.Takes token next := by
  constructor
  · intro hparse
    rw [parseBackrefPath] at hparse
    split_ifs at hparse
    obtain ⟨⟨lead, mid⟩, hread, hparse⟩ := bind_eq_ok.mp hparse
    dsimp only at hparse
    split_ifs at hparse
    obtain ⟨⟨value, last⟩, hatom, hparse⟩ := bind_eq_ok.mp hparse
    obtain ⟨tail, back, data, htoken, hrest, rfl, rfl⟩ :=
      parseAtomFromFirstByte_eq_ok.mp hatom
    cases hparse
    exact ⟨lead :: tail, htoken, takes_cons.mpr
      ⟨mid, liftIo_eq_ok.mp hread, takes_of_rest hrest⟩⟩
  · rintro ⟨token, htoken, hrest, rfl⟩
    exact parseBackrefPath_token htoken hrest

theorem parseAtom_takes :
    parseAtomFromFirstByte stream lead = .ok (t, next) ↔
      ∃ tail data, AtomToken (lead :: tail) data ∧ t = .atom data ∧
        stream.Takes tail next := by
  rw [parseAtomFromFirstByte_eq_ok]
  constructor
  · rintro ⟨tail, back, data, htoken, hrest, rfl, rfl⟩
    exact ⟨tail, data, htoken, rfl, takes_of_rest hrest⟩
  · rintro ⟨tail, data, htoken, rfl, hrest, rfl⟩
    exact ⟨tail, _, data, htoken, hrest, rfl, rfl⟩

/-- A parser takes some bytes, and reads them in the same way wherever they are
next. -/
def Delimits {E : Type} (parse : Cursor → Except E (A × Cursor)) (value : A)
    (stream next : Cursor) (w : Bytes) : Prop :=
  stream.Takes w next ∧ ∀ stream' next' : Cursor, stream'.Takes w next' →
    parse stream' = .ok (value, next')

theorem backrefsLoop_delimits {opBuf : List ParserOp} {valBuf : List StackEntry}
    (hloop : sexpFromBytesBackrefsLoop opBuf valBuf stream = .ok (t, next)) :
    ∃ w, Delimits (sexpFromBytesBackrefsLoop opBuf valBuf) t stream next w := by
  fun_induction sexpFromBytesBackrefsLoop opBuf valBuf stream with
  | case2 stream value memo valBuf =>
    cases hloop
    refine ⟨[], takes_nil.mpr rfl, ?_⟩
    intro stream' next' htakes
    rw [takes_nil.mp htakes, sexpFromBytesBackrefsLoop]
  | case5 valBuf stream opBuf _ mid hbyte ih =>
    obtain ⟨w, htakes, hreads⟩ := ih hloop
    refine ⟨_ :: w, takes_cons.mpr ⟨_, hbyte, htakes⟩, ?_⟩
    intro stream' next' htakes'
    obtain ⟨mid', hbyte', htakes'⟩ := takes_cons.mp htakes'
    obtain ⟨⟨back, hrest⟩, rfl⟩ := readByte_eq_ok.mp hbyte'
    rw [backrefsLoop_exp hrest, if_pos rfl, hreads _ _ htakes']
  | case8 valBuf stream opBuf _ mid path last hpath backref valBuf' htraverse
      hbyte hmarker ih =>
    obtain ⟨w, htakes, hreads⟩ := ih hloop
    obtain ⟨token, htoken, hpath⟩ := parseBackrefPath_takes.mp hpath
    refine ⟨_ :: (token ++ w), takes_cons.mpr
      ⟨_, hbyte, takes_append.mpr ⟨_, hpath, htakes⟩⟩, ?_⟩
    intro stream' next' htakes'
    obtain ⟨mid', hbyte', htakes'⟩ := takes_cons.mp htakes'
    obtain ⟨⟨back, hrest⟩, rfl⟩ := readByte_eq_ok.mp hbyte'
    obtain ⟨last', hpath', hlast⟩ := takes_append.mp htakes'
    rw [backrefsLoop_exp hrest, if_neg hmarker, if_pos rfl,
      parseBackrefPath_takes.mpr ⟨token, htoken, hpath'⟩, bind_ok]
    dsimp only
    rw [htraverse, bind_ok, hreads _ _ hlast]
  | case10 valBuf stream opBuf _ lead mid hbyte hmarker hbackref value last hatom
      ih =>
    obtain ⟨w, htakes, hreads⟩ := ih hloop
    obtain ⟨tail, data, htoken, rfl, htail⟩ := parseAtom_takes.mp hatom
    refine ⟨_ :: (tail ++ w), takes_cons.mpr
      ⟨_, hbyte, takes_append.mpr ⟨_, htail, htakes⟩⟩, ?_⟩
    intro stream' next' htakes'
    obtain ⟨mid', hbyte', htakes'⟩ := takes_cons.mp htakes'
    obtain ⟨⟨back, hrest⟩, rfl⟩ := readByte_eq_ok.mp hbyte'
    obtain ⟨last', hatom', hlast⟩ := takes_append.mp htakes'
    rw [backrefsLoop_exp hrest, if_neg hmarker, if_neg hbackref,
      parseAtom_takes.mpr ⟨tail, data, htoken, rfl, hatom'⟩, bind_ok]
    exact hreads _ _ hlast
  | case11 stream opBuf second _ first _ valBuf ih =>
    obtain ⟨w, htakes, hreads⟩ := ih hloop
    refine ⟨w, htakes, ?_⟩
    intro stream' next' htakes'
    rw [backrefsLoop_cons, hreads _ _ htakes']
  | _ => cases hloop

/-- A program is delimited by its own bytes, unless the stream is at its end. -/
theorem sexpFromBytesBackrefs_delimits
    (hparse : sexpFromBytesBackrefs stream = .ok (t, next)) :
    ∃ w, stream.Takes w next ∧
      (w ≠ [] → Delimits sexpFromBytesBackrefs t stream next w) := by
  rw [sexpFromBytesBackrefs] at hparse
  split_ifs at hparse with hremaining
  · obtain ⟨w, htakes, hreads⟩ := backrefsLoop_delimits hparse
    refine ⟨w, htakes, fun hne => ⟨htakes, ?_⟩⟩
    intro stream' next' htakes'
    have hremaining : stream'.hasRemaining = true :=
      stream'.hasRemaining_iff.mpr (by simp [htakes'.rest, hne])
    rw [sexpFromBytesBackrefs, if_neg (by simp [hremaining]),
      hreads _ _ htakes']
  · cases hparse
    exact ⟨[], takes_nil.mpr rfl, fun hne => absurd rfl hne⟩

/-- Exactly one serialization, with or without back-references. -/
def IsProgram (bytes : Bytes) : Prop :=
  bytes ≠ [] ∧
    ∃ t, sexpFromBytesBackrefs ⟨bytes, 0⟩ = .ok (t, ⟨bytes, bytes.length⟩)

theorem lawful_serializedProgram : serializedProgram.Lawful IsProgram := by
  constructor
  · rintro value ⟨hne, t, hparse⟩
    refine ⟨value, rfl, ?_⟩
    intro stream next htakes
    obtain ⟨w, hw, hdelimits⟩ := sexpFromBytesBackrefs_delimits hparse
    obtain rfl : w = value := by
      have hrest := hw.rest
      simpa [rest] using hrest.symm
    have hread := (hdelimits hne).2 stream next htakes
    have hlength := congrArg length htakes.rest
    rw [length_rest, length_append, remaining] at hlength
    have hpos : 0 < w.length := length_pos_iff.mpr hne
    have hnext : next.pos = stream.pos + w.length := congrArg pos htakes.advance
    simp only [serializedProgram, hread, Except.mapError, bind_ok, htakes.slice]
    rw [if_pos (by omega)]
    rfl
  · intro stream value next hread
    obtain ⟨⟨t, mid⟩, hparse, hread⟩ := bind_eq_ok.mp hread
    dsimp only at hread
    split_ifs at hread
    cases hread
    obtain ⟨w, htakes, -⟩ :=
      sexpFromBytesBackrefs_delimits (mapError_eq_ok.mp hparse)
    refine ⟨_, rfl, ?_⟩
    rwa [htakes.slice]

end Programs

section Proofs

theorem lawful_bytes32 : bytes32.Lawful fun _ => True :=
  (lawful_array "Bytes32" 32).derived _

theorem lawful_bytes48 : bytes48.Lawful fun _ => True :=
  (lawful_array "Bytes48" 48).derived _

theorem lawful_u8 : u8.Lawful fun _ => True := (lawful_integer "u8" 1).derived _

theorem lawful_u16 : u16.Lawful fun _ => True :=
  (lawful_integer "u16" 2).derived _

/-- A proof made by one of the constructors, with exactly one pool field where it
is of version 2. -/
inductive Constructed : ProofOfSpace → Prop where
  | v1 (challenge : Bytes32) (poolPublicKey : Option Bytes48)
      (contract : Option Bytes32) (plotPublicKey : Bytes48) (size : UInt8)
      {proof : Bytes} (hproof : proof.length < 2 ^ 32) :
      Constructed (.v1 challenge poolPublicKey contract plotPublicKey size proof)
  | v2 (challenge : Bytes32) {poolPublicKey : Option Bytes48}
      {contract : Option Bytes32} (plotPublicKey : Bytes48) (plotIndex : UInt16)
      (metaGroup strength : UInt8) {proof : Bytes}
      (hproof : proof.length < 2 ^ 32)
      (hpool : poolPublicKey.isSome ≠ contract.isSome) :
      Constructed (.v2 challenge poolPublicKey contract plotPublicKey plotIndex
        metaGroup strength proof)

/-- The version and the contract of a proof of space in one tag. -/
def contractBytes (version : UInt8) : Option Bytes32 → Bytes
  | none => [version <<< 1]
  | some contract => (version <<< 1 ||| 1) :: contract.bytes

theorem u8_toBytes : u8.toBytes byte = .ok [byte] := by
  simp [u8, derived, integer, beBytes]

theorem bytes32_toBytes (hash : Bytes32) :
    bytes32.toBytes hash = .ok hash.bytes := rfl

theorem bytes48_toBytes (publicKey : Bytes48) :
    bytes48.toBytes publicKey = .ok publicKey.bytes := rfl

theorem u8_fromBytes :
    u8.fromBytes stream = .ok (byte, next) ↔ stream.Takes [byte] next :=
  lawful_u8.fromBytes_eq_ok trivial u8_toBytes

theorem u16_fromBytes {value : UInt16} :
    u16.fromBytes stream = .ok (value, next) ↔
      stream.Takes (beBytes 2 value.toNat) next :=
  lawful_u16.fromBytes_eq_ok trivial rfl

theorem bytes32_fromBytes {hash : Bytes32} :
    bytes32.fromBytes stream = .ok (hash, next) ↔
      stream.Takes hash.bytes next :=
  lawful_bytes32.fromBytes_eq_ok trivial (bytes32_toBytes hash)

theorem lead_cases (hsmall : ¬ lead > 0b11) :
    lead = 0 ∨ lead = 1 ∨ lead = 2 ∨ lead = 3 := by
  simp only [gt_iff_lt, UInt8.lt_iff_toNat_lt, ← UInt8.toNat_inj] at hsmall ⊢
  simp at hsmall ⊢
  omega

theorem readContract_iff (hversion : version = 0 ∨ version = 1) :
    stream.Takes (contractBytes version contract) next ↔
      ∃ lead mid, u8.fromBytes stream = .ok (lead, mid) ∧ ¬ lead > 0b11 ∧
        readContract lead mid = .ok (contract, next) ∧ lead >>> 1 = version := by
  simp only [u8_fromBytes]
  constructor
  · intro htakes
    cases contract with
    | none =>
      refine ⟨_, next, htakes, ?_⟩
      rcases hversion with rfl | rfl <;> exact ⟨by decide, rfl, rfl⟩
    | some contract =>
      rw [contractBytes, ← singleton_append, takes_append] at htakes
      obtain ⟨mid, hlead, hcontract⟩ := htakes
      have hread := bytes32_fromBytes.mpr hcontract
      refine ⟨_, mid, hlead, ?_⟩
      rcases hversion with rfl | rfl <;>
        exact ⟨by decide, by rw [readContract, if_pos (by decide), hread]; rfl,
          rfl⟩
  · rintro ⟨lead, mid, hlead, hsmall, hread, rfl⟩
    have hflag : lead &&& 1 ≠ 0 ∧ lead = (lead >>> 1 <<< 1 ||| 1) ∨
        ¬ lead &&& 1 ≠ 0 ∧ lead = lead >>> 1 <<< 1 := by
      rcases lead_cases hsmall with rfl | rfl | rfl | rfl <;> decide
    rw [readContract] at hread
    rcases hflag with ⟨hflag, hvalue⟩ | ⟨hflag, hvalue⟩
    · rw [if_pos hflag] at hread
      obtain ⟨⟨hash, last⟩, hhash, hcontract⟩ := bind_eq_ok.mp hread
      cases hcontract
      rw [contractBytes, ← hvalue, ← singleton_append, takes_append]
      exact ⟨mid, hlead, bytes32_fromBytes.mp hhash⟩
    · rw [if_neg hflag] at hread
      cases hread
      rw [contractBytes, ← hvalue]
      exact hlead

/-- The fields that both versions of a proof of space begin with. -/
theorem header_takes {challenge : Bytes32} {poolPublicKey : Option Bytes48}
    {key : Bytes} (hkey : bytes48.option.toBytes poolPublicKey = .ok key)
    (hversion : version = 0 ∨ version = 1) {plotPublicKey : Bytes48}
    {rear : Bytes} :
    stream.Takes (challenge.bytes ++ (key ++ (contractBytes version contract ++
        (plotPublicKey.bytes ++ rear)))) next ↔
      ∃ a, bytes32.fromBytes stream = .ok (challenge, a) ∧
      ∃ b, bytes48.option.fromBytes a = .ok (poolPublicKey, b) ∧
      ∃ c, (∃ lead d, u8.fromBytes b = .ok (lead, d) ∧ ¬ lead > 0b11 ∧
        readContract lead d = .ok (contract, c) ∧ lead >>> 1 = version) ∧
      ∃ d, bytes48.fromBytes c = .ok (plotPublicKey, d) ∧ d.Takes rear next := by
  simp only [takes_append, readContract_iff hversion, bytes32_fromBytes,
    lawful_bytes48.option.fromBytes_eq_ok (fun _ _ => trivial) hkey,
    lawful_bytes48.fromBytes_eq_ok trivial (bytes48_toBytes _)]

section Parts

variable {challenge : Bytes32} {poolPublicKey : Option Bytes48} {key : Bytes}
  {plotPublicKey : Bytes48} {proof w : Bytes}
  (hkey : bytes48.option.toBytes poolPublicKey = .ok key)
  (hproof : u8.vec.toBytes proof = .ok w)

include hkey hproof

theorem toBytes_v1 (size : UInt8) :
    proofOfSpace.toBytes
        (.v1 challenge poolPublicKey contract plotPublicKey size proof) =
      .ok (challenge.bytes ++ (key ++ (contractBytes 0 contract ++
        (plotPublicKey.bytes ++ ([size] ++ w))))) := by
  have hcontract : bytes32.option.toBytes contract =
      .ok (contractBytes 0 contract) := by
    cases contract <;> rfl
  simp only [proofOfSpace, ProofOfSpace.v1, bytes32_toBytes, bytes48_toBytes,
    u8_toBytes, hkey, hcontract, hproof, bind_ok, if_pos, append_assoc]
  rfl

theorem toBytes_v2 {plotIndex : UInt16} {metaGroup strength : UInt8} :
    proofOfSpace.toBytes (.v2 challenge poolPublicKey contract plotPublicKey
        plotIndex metaGroup strength proof) =
      .ok (challenge.bytes ++ (key ++ (contractBytes 1 contract ++
        (plotPublicKey.bytes ++ (beBytes 2 plotIndex.toNat ++ ([metaGroup] ++
          ([strength] ++ w))))))) := by
  simp only [proofOfSpace, ProofOfSpace.v2, bytes32_toBytes, bytes48_toBytes,
    u8_toBytes, hkey, hproof, bind_ok, append_assoc]
  cases contract <;> rfl

end Parts

theorem lawful_proofOfSpace : proofOfSpace.Lawful Constructed := by
  constructor
  · intro value hvalue
    cases hvalue with
    | v1 challenge poolPublicKey contract plotPublicKey size hproof =>
      obtain ⟨key, hkey, -⟩ :=
        lawful_bytes48.option.reads poolPublicKey (fun _ _ => trivial)
      obtain ⟨proof, hwrite, hreads⟩ :=
        lawful_u8.vec.reads _ ⟨hproof, fun _ _ => trivial⟩
      refine ⟨_, toBytes_v1 hkey hwrite size, ?_⟩
      intro stream next htakes
      obtain ⟨a, ha, b, hb, c, ⟨lead, d, hlead, hsmall, hc, hversion⟩, e, he,
        htakes⟩ := (header_takes hkey (.inl rfl)).mp htakes
      obtain ⟨f, hf, htakes⟩ := takes_append.mp htakes
      simp only [proofOfSpace, ha, hb, hlead, if_neg hsmall, hc, he,
        if_pos hversion, u8_fromBytes.mpr hf, hreads _ _ htakes, bind_ok]
    | @v2 challenge poolPublicKey _ plotPublicKey plotIndex metaGroup strength _
        hproof hpool =>
      obtain ⟨key, hkey, -⟩ :=
        lawful_bytes48.option.reads poolPublicKey (fun _ _ => trivial)
      obtain ⟨proof, hwrite, hreads⟩ :=
        lawful_u8.vec.reads _ ⟨hproof, fun _ _ => trivial⟩
      refine ⟨_, toBytes_v2 hkey hwrite, ?_⟩
      intro stream next htakes
      obtain ⟨a, ha, b, hb, c, ⟨lead, d, hlead, hsmall, hc, hversion⟩, e, he,
        htakes⟩ := (header_takes hkey (.inr rfl)).mp htakes
      obtain ⟨f, hf, htakes⟩ := takes_append.mp htakes
      obtain ⟨g, hg, htakes⟩ := takes_append.mp htakes
      obtain ⟨h, hh, htakes⟩ := takes_append.mp htakes
      have hlater : ¬ lead >>> 1 = 0 := by
        rw [hversion]
        decide
      simp only [proofOfSpace, ha, hb, hlead, if_neg hsmall, hc, he,
        if_neg hlater, u16_fromBytes.mpr hf, u8_fromBytes.mpr hg,
        u8_fromBytes.mpr hh, hreads _ _ htakes, if_neg hpool, bind_ok]
  · intro stream value next hread
    obtain ⟨⟨challenge, a⟩, ha, hread⟩ := bind_eq_ok.mp hread
    obtain ⟨⟨poolPublicKey, b⟩, hb, hread⟩ := bind_eq_ok.mp hread
    obtain ⟨⟨lead, c⟩, hlead, hread⟩ := bind_eq_ok.mp hread
    obtain ⟨key, hkey, -⟩ := lawful_bytes48.option.writes _ _ _ hb
    dsimp only at hread
    by_cases hsmall : lead > 0b11
    · rw [if_pos hsmall] at hread
      cases hread
    rw [if_neg hsmall] at hread
    obtain ⟨⟨contract, d⟩, hcontract, hread⟩ := bind_eq_ok.mp hread
    obtain ⟨⟨plotPublicKey, e⟩, he, hread⟩ := bind_eq_ok.mp hread
    dsimp only at hread
    by_cases hversion : lead >>> 1 = 0
    · rw [if_pos hversion] at hread
      obtain ⟨⟨size, f⟩, hf, hread⟩ := bind_eq_ok.mp hread
      obtain ⟨⟨proof, g⟩, hg, hvalue⟩ := bind_eq_ok.mp hread
      cases hvalue
      obtain ⟨w, hproof, htakes⟩ := lawful_u8.vec.writes _ _ _ hg
      refine ⟨_, toBytes_v1 hkey hproof size, ?_⟩
      exact (header_takes hkey (.inl rfl)).mpr ⟨a, ha, b, hb, d,
        ⟨lead, c, hlead, hsmall, hcontract, hversion⟩, e, he,
        takes_append.mpr ⟨f, u8_fromBytes.mp hf, htakes⟩⟩
    · rw [if_neg hversion] at hread
      obtain ⟨⟨plotIndex, f⟩, hf, hread⟩ := bind_eq_ok.mp hread
      obtain ⟨⟨metaGroup, g⟩, hg, hread⟩ := bind_eq_ok.mp hread
      obtain ⟨⟨strength, h⟩, hh, hread⟩ := bind_eq_ok.mp hread
      obtain ⟨⟨proof, i⟩, hi, hread⟩ := bind_eq_ok.mp hread
      dsimp only at hread
      split_ifs at hread
      cases hread
      obtain ⟨w, hproof, htakes⟩ := lawful_u8.vec.writes _ _ _ hi
      have hlater : lead >>> 1 = 1 := by
        rcases lead_cases hsmall with rfl | rfl | rfl | rfl
        · exact absurd rfl hversion
        · exact absurd rfl hversion
        · rfl
        · rfl
      refine ⟨_, toBytes_v2 hkey hproof, ?_⟩
      exact (header_takes hkey (.inr rfl)).mpr ⟨a, ha, b, hb, d,
        ⟨lead, c, hlead, hsmall, hcontract, hlater⟩, e, he,
        takes_append.mpr ⟨f, u16_fromBytes.mp hf,
          takes_append.mpr ⟨g, u8_fromBytes.mp hg,
            takes_append.mpr ⟨h, u8_fromBytes.mp hh, htakes⟩⟩⟩⟩

end Proofs

/-- The serializers of the types that are built from integers, byte arrays,
`bool`, `String`, programs and proofs of space by `Option`, tuples, `Vec` and
derived structs, with the values that the format holds for. -/
inductive Wire : {A : Type} → ChiaSerialize A → (A → Prop) → Prop where
  | integer (name : String) (size : Nat) :
      Wire (integer name size) fun _ => True
  | array (name : String) (size : Nat) : Wire (array name size) fun _ => True
  | bool : Wire bool fun _ => True
  | string : Wire string fun value => value.utf8ByteSize < 2 ^ 32
  | serializedProgram : Wire serializedProgram IsProgram
  | proofOfSpace : Wire proofOfSpace Constructed
  | option {A : Type} {t : ChiaSerialize A} {valid : A → Prop}
      (ht : Wire t valid) : Wire t.option fun value => ∀ x ∈ value, valid x
  | pair {A B : Type} {t : ChiaSerialize A} {u : ChiaSerialize B}
      {validA : A → Prop} {validB : B → Prop} (ht : Wire t validA)
      (hu : Wire u validB) :
      Wire (t.pair u) fun value => validA value.1 ∧ validB value.2
  | triple {A B C : Type} {t : ChiaSerialize A} {u : ChiaSerialize B}
      {v : ChiaSerialize C} {validA : A → Prop} {validB : B → Prop}
      {validC : C → Prop} (ht : Wire t validA) (hu : Wire u validB)
      (hv : Wire v validC) :
      Wire (t.triple u v) fun value =>
        validA value.1 ∧ validB value.2.1 ∧ validC value.2.2
  | vec {A : Type} {t : ChiaSerialize A} {valid : A → Prop} (ht : Wire t valid) :
      Wire t.vec fun value => value.length < 2 ^ 32 ∧ ∀ x ∈ value, valid x
  | noFields : Wire noFields fun _ => True
  | derived {A B : Type} {fields : ChiaSerialize A} {valid : A → Prop}
      (hfields : Wire fields valid) (assign : A ≃ B) :
      Wire (fields.derived assign) fun value => valid (assign.symm value)

theorem Wire.lawful {c : ChiaSerialize A} {valid : A → Prop}
    (hc : Wire c valid) : c.Lawful valid := by
  induction hc with
  | integer name size => exact lawful_integer name size
  | array name size => exact lawful_array name size
  | bool => exact lawful_bool
  | string => exact lawful_string
  | serializedProgram => exact lawful_serializedProgram
  | proofOfSpace => exact lawful_proofOfSpace
  | option _ ht => exact ht.option
  | pair _ _ ht hu => exact ht.pair hu
  | triple _ _ _ ht hu hv => exact triple_eq_pair ▸ ht.pair (hu.pair hv)
  | vec _ ht => exact ht.vec
  | noFields => exact lawful_noFields
  | derived _ assign hfields => exact hfields.derived assign

/-- The wire format is self-delimiting, since a value is read back in front of
any suffix with the cursor at the suffix, and canonical, since a byte string
that decodes completely is what is written of the value; so no two byte strings
decode to one value. -/
theorem wire_selfDelimiting_canonical {c : ChiaSerialize A} {valid : A → Prop}
    (hc : Wire c valid) :
    (∀ value, valid value → ∃ w, c.toBytes value = .ok w ∧ ∀ back,
      c.fromBytes ⟨w ++ back, 0⟩ = .ok (value, ⟨w ++ back, w.length⟩)) ∧
    (∀ bytes value, c.fromBytesExact bytes = .ok value →
      c.toBytes value = .ok bytes) ∧
    ∀ bytes bytes' value, c.fromBytesExact bytes = .ok value →
      c.fromBytesExact bytes' = .ok value → bytes = bytes' := by
  have hcanonical (bytes : Bytes) (value : A)
      (hread : c.fromBytesExact bytes = .ok value) :
      c.toBytes value = .ok bytes := by
    obtain ⟨⟨out, cursor⟩, hread, hend⟩ := bind_eq_ok.mp hread
    dsimp only at hend
    split_ifs at hend with hpos
    cases hend
    obtain ⟨w, hwrite, htakes⟩ := hc.lawful.writes _ _ _ hread
    have hlength : bytes.length = w.length := by
      rw [← not_not.mp hpos, htakes.advance]
      exact zero_add _
    have hrest : bytes = w ++ cursor.rest := htakes.rest
    have hnil : cursor.rest = [] := by
      rw [hrest, length_append] at hlength
      exact eq_nil_of_length_eq_zero (by omega)
    rw [hwrite, hrest, hnil, append_nil]
  refine ⟨?_, hcanonical, ?_⟩
  · intro value hvalid
    obtain ⟨w, hwrite, hreads⟩ := hc.lawful.reads value hvalid
    refine ⟨w, hwrite, ?_⟩
    intro back
    have htakes := takes_of_rest (rest_start (w ++ back))
    rw [hreads _ _ htakes, advance, zero_add]
  · intro bytes bytes' value hread hread'
    exact Except.ok.inj ((hcanonical _ _ hread).symm.trans
      (hcanonical _ _ hread'))

/-- A list of pairs of a program, whose second part is a back-reference, and an
optional amount. -/
theorem wire_selfDelimiting_canonical_programs :
    ∃ w, (serializedProgram.pair (integer "u64" 8).option).vec.toBytes
        [([0xff, 0x83, 1, 2, 3, 0xfe, 2], some 5)] = .ok w ∧
      ∀ back, (serializedProgram.pair (integer "u64" 8).option).vec.fromBytes
          ⟨w ++ back, 0⟩ =
        .ok ([([0xff, 0x83, 1, 2, 3, 0xfe, 2], some 5)],
          ⟨w ++ back, w.length⟩) := by
  have hprogram : IsProgram [0xff, 0x83, 1, 2, 3, 0xfe, 2] :=
    ⟨by decide, .pair (.atom [1, 2, 3]) (.atom [1, 2, 3]), by decide +kernel⟩
  apply (wire_selfDelimiting_canonical
    (.vec (.pair .serializedProgram (.option (.integer "u64" 8))))).1
  refine ⟨by decide, ?_⟩
  simp [hprogram]

end ChiaSerialize

end DgXch
