/-
Byte strings, I/O errors, the read cursor, CLVM trees, the error values of the
CLVM and consensus code, and numbers as CLVM atoms (`SExpNumber`).  The reading
operations of a `Cursor` are specified by how they split what has not been read.
An error whose text renders a tree or a coin id carries that tree or id here.
-/
import DgXch.BitStrings

namespace DgXch

variable {E : Type u} {A B : Type v} {stream : Cursor} {byte : UInt8}

universe u v

variable {next : A → Except E B}

/-- A bind succeeds exactly when both of its steps do. -/
theorem Except.bind_eq_ok {first : Except E A} {out : B} :
    (first >>= next) = .ok out ↔ ∃ mid, first = .ok mid ∧ next mid = .ok out := by
  cases first with
  | error e => simp [Bind.bind, Except.bind]
  | ok mid => simp [Bind.bind, Except.bind]

/-- Renaming the error of a step does not change when it succeeds. -/
theorem Except.mapError_eq_ok {F : Type u} {rename : E → F} {step : Except E A}
    {out : A} :
    step.mapError rename = .ok out ↔ step = .ok out := by
  cases step with
  | error e => simp [Except.mapError]
  | ok mid => simp [Except.mapError]

theorem Except.toOption_eq_some {step : Except E A} {out : A} :
    step.toOption = some out ↔ step = .ok out := by
  cases step <;> simp [Except.toOption]

@[simp]
theorem Except.bind_ok (mid : A) : (Except.ok mid >>= next) = next mid := rfl

@[simp]
theorem Except.bind_error (e : E) :
    ((Except.error e : Except E A) >>= next) = .error e := rfl

/-- A byte string (`Vec<u8>`, `&[u8]`). -/
abbrev Bytes := List UInt8

@[ext]
structure Bytes32 where
  bytes : Bytes
  length_eq : bytes.length = 32
deriving Repr, DecidableEq

/-- The type of `hash_256`, which is an argument of the model. -/
abbrev HashFn := Bytes → Bytes32

def Bytes32.zero : Bytes32 := ⟨List.replicate 32 0, rfl⟩

/-- A hash that ends in one byte. -/
def plainHash (byte : UInt8) : Bytes32 := ⟨List.replicate 31 0 ++ [byte], rfl⟩

def hash256 (message : Bytes) : Bytes32 :=
  ⟨Sha256.digest message, Sha256.length_digest message⟩

/-- The `std::io::ErrorKind` values raised by the modelled code. -/
inductive ErrorKind where
  | invalidData
  | invalidInput
  | unexpectedEof
  | other
deriving Repr, DecidableEq

/-- `std::io::Error`: a kind and a text. -/
structure IoError where
  kind : ErrorKind
  message : String
deriving Repr, DecidableEq

/-- How a call can end without a result: with an error value, or by a panic. -/
inductive Fault (E : Type u) where
  | panic (text : String)
  | error (e : E)
deriving Repr, DecidableEq

/-- `io::Result`, or a panic. -/
abbrev IoResult := Except (Fault IoError)

/-- `Cursor<&[u8]>`: the underlying bytes and the position, which a seek may
move past the end. -/
structure Cursor where
  data : Bytes
  pos : Nat
deriving Repr, DecidableEq

variable {count : Nat}

namespace Cursor

/-- The unread bytes. -/
def rest (stream : Cursor) : Bytes := stream.data.drop stream.pos

def remaining (stream : Cursor) : Nat := stream.data.length - stream.pos

def hasRemaining (stream : Cursor) : Bool := 0 < stream.remaining

/-- `Seek::seek(SeekFrom::Current(count))` for a non-negative count. -/
def advance (stream : Cursor) (count : Nat) : Cursor :=
  ⟨stream.data, stream.pos + count⟩

/-- `Read::read_exact` into a buffer of `count` bytes. -/
def readExact (stream : Cursor) (count : Nat) :
    Except IoError (Bytes × Cursor) :=
  if count ≤ stream.remaining then
    .ok (stream.rest.take count, stream.advance count)
  else
    .error ⟨.unexpectedEof, "failed to fill whole buffer"⟩

/-- `Read::read_exact` into a one-byte buffer. -/
def readByte (stream : Cursor) : Except IoError (UInt8 × Cursor) :=
  match stream.rest with
  | [] => .error ⟨.unexpectedEof, "failed to fill whole buffer"⟩
  | byte :: _ => .ok (byte, stream.advance 1)

@[simp]
theorem length_rest (stream : Cursor) :
    stream.rest.length = stream.remaining := by
  simp [rest, remaining]

@[simp]
theorem rest_advance (count : Nat) :
    (stream.advance count).rest = stream.rest.drop count := by
  simp [rest, advance, List.drop_drop]

@[simp]
theorem remaining_advance :
    (stream.advance count).remaining = stream.remaining - count := by
  simp only [remaining, advance]
  omega

@[simp]
theorem advance_advance (first second : Nat) :
    (stream.advance first).advance second =
      stream.advance (first + second) := by
  simp [advance, Nat.add_assoc]

@[simp]
theorem rest_start (data : Bytes) : (⟨data, 0⟩ : Cursor).rest = data := rfl

theorem hasRemaining_iff (stream : Cursor) :
    stream.hasRemaining = true ↔ stream.rest ≠ [] := by
  rw [hasRemaining, ← length_rest, decide_eq_true_iff, List.length_pos_iff]

/-- Reading succeeds exactly on a split of the unread bytes. -/
theorem readExact_eq_ok {next : Cursor} {out : Bytes} :
    stream.readExact count = .ok (out, next) ↔
      out.length = count ∧ (∃ back, stream.rest = out ++ back) ∧
        next = stream.advance count := by
  unfold readExact
  constructor
  · intro hread
    split at hread
    · rename_i hle
      cases hread
      refine ⟨by simp [hle], ⟨stream.rest.drop count, ?_⟩, rfl⟩
      exact (List.take_append_drop count stream.rest).symm
    · cases hread
  · rintro ⟨hlength, ⟨back, hrest⟩, rfl⟩
    have hremaining : count ≤ stream.remaining := by
      rw [← length_rest, hrest, List.length_append, hlength]
      exact Nat.le_add_right _ _
    rw [if_pos hremaining, hrest, List.take_left' hlength]

theorem readExact_append {out back : Bytes}
    (hrest : stream.rest = out ++ back) :
    stream.readExact out.length = .ok (out, stream.advance out.length) :=
  readExact_eq_ok.mpr ⟨rfl, ⟨back, hrest⟩, rfl⟩

theorem readByte_cons {back : Bytes} (hrest : stream.rest = byte :: back) :
    stream.readByte = .ok (byte, stream.advance 1) := by
  simp [readByte, hrest]

theorem readByte_eq_ok {next : Cursor} :
    stream.readByte = .ok (byte, next) ↔
      (∃ back, stream.rest = byte :: back) ∧ next = stream.advance 1 := by
  cases hrest : stream.rest with
  | nil => simp [readByte, hrest]
  | cons head tail =>
    rw [readByte_cons hrest]
    constructor
    · intro hread
      cases hread
      exact ⟨⟨tail, rfl⟩, rfl⟩
    · rintro ⟨⟨back, hback⟩, rfl⟩
      cases hback
      rfl

end Cursor

@[ext]
structure Bytes48 where
  bytes : Bytes
  length_eq : bytes.length = 48
deriving Repr, DecidableEq

/-- `impl From<Vec<u8>> for SizedBytesImpl<SIZE>`. -/
def sizedFromVec (size : Nat) (vec : Bytes) : Bytes :=
  vec.take size ++ List.replicate (size - vec.length) 0

theorem length_sizedFromVec (size : Nat) (vec : Bytes) :
    (sizedFromVec size vec).length = size := by
  simp only [sizedFromVec, List.length_append, List.length_take,
    List.length_replicate]
  omega

def Bytes32.ofVec (vec : Bytes) : Bytes32 :=
  ⟨sizedFromVec 32 vec, length_sizedFromVec 32 vec⟩

def Bytes48.ofVec (vec : Bytes) : Bytes48 :=
  ⟨sizedFromVec 48 vec, length_sizedFromVec 48 vec⟩

theorem Bytes32.ofVec_bytes_of_length {vec : Bytes} (hlength : vec.length = 32) :
    (Bytes32.ofVec vec).bytes = vec := by
  simp [ofVec, sizedFromVec, ← hlength]

/-- `SExp`: an atom of raw bytes or a pair. -/
inductive SExp where
  | atom (data : Bytes)
  | pair (first rest : SExp)
deriving Repr, DecidableEq

namespace SExp

/-- `NULL_SEXP`. -/
def nil : SExp := .atom []

/-- The number of nodes of a tree. -/
def size : SExp → Nat
  | .atom _ => 1
  | .pair first rest => first.size + rest.size + 1

/-- The atoms of a tree, left to right. -/
def atoms : SExp → List Bytes
  | .atom data => [data]
  | .pair first rest => first.atoms ++ rest.atoms

theorem size_pos (t : SExp) : 0 < t.size := by cases t <;> simp [size]

/-- `SExpIter`: the first of each pair along the spine, then the tail if it is
not nil. -/
def iter : SExp → List SExp
  | .atom [] => []
  | .atom data => [.atom data]
  | .pair first rest => first :: rest.iter

def refList : SExp → List SExp := iter

def asList : SExp → List SExp := iter

/-- `impl From<Vec<SExp>> for SExp`: the proper list of some trees. -/
def ofList : List SExp → SExp
  | [] => nil
  | first :: rest => .pair first (ofList rest)

@[simp]
theorem iter_ofList {items : List SExp} : (ofList items).iter = items := by
  induction items with
  | nil => rfl
  | cons first rest ih => rw [ofList, iter, ih]

end SExp

/-- The `ChiaError` values raised by the modelled code. -/
inductive ChiaError where
  | invalidBlockSolution
  | duplicateOutput
  | doubleSpend
  | wrongPuzzleHash
  | invalidCondition
  | assertAnnounceConsumedFailed
  | assertHeightRelativeFailed
  | assertHeightAbsoluteFailed
  | assertSecondsAbsoluteFailed
  | coinAmountExceedsMaximum
  | blockCostExceedsMax
  | invalidTransactionsGeneratorHash
  | reserveFeeConditionFailed
  | assertSecondsRelativeFailed
  | generatorRefHasNoGenerator
  | generatorRuntimeError
  | invalidCostResult
  | tooManyGeneratorRefs
  | futureGeneratorRefs
  | coinAmountNegative
  | assertConcurrentSpendFailed
  | assertConcurrentPuzzleFailed
  | assertEphemeralFailed
  | messageNotSentOrReceived
  | complexGeneratorReceived
deriving Repr, DecidableEq

inductive ClvmError where
  | atomNotValidU64 (atom : SExp)
  | badEncoding
  | conditionFailure (error : ChiaError)
  | costExceeded (limit cost : UInt64)
  | doubleSpend (coinId : Bytes32)
  | duplicateCreate (coinId : Bytes32)
  | expectedPairGotAtom (tree : SExp)
  | expectedAtomGotPair (tree : SExp)
  | expectedAtomGotPairText (text : String)
  | invalidInput (text : String)
  | invalidPublicKey (publicKey : Bytes48)
  | invalidSyntax (text : String)
  | invalidSpendbundle (text : String)
  | ioError (error : IoError)
  | outOfMemory
  | overflow (text : String)
  | serializationError (text : String)
  | tooManyAtoms
  | tooManyPairs
  | unexpectedEndOfValues (text : String)
  | valueStackEmpty
deriving Repr, DecidableEq

abbrev ClvmResult := Except ClvmError

/-- The `?` operator on an I/O result inside a CLVM function. -/
def liftIo {A : Type} (result : Except IoError A) : ClvmResult A :=
  result.mapError .ioError

@[simp]
theorem liftIo_ok {A : Type} (out : A) : liftIo (.ok out) = .ok out := rfl

theorem liftIo_eq_ok {A : Type} {result : Except IoError A} {out : A} :
    liftIo result = .ok out ↔ result = .ok out := by
  cases result <;> simp [liftIo, Except.mapError]

open BigEndian TwosComplement List

/-- `SExpNumber`: a machine integer where the atom allows it. -/
inductive SExpNumber where
  | i128 (v : BitVec 128)
  | bigInt (v : Int)
deriving Repr, DecidableEq

def SExpNumber.value : SExpNumber → Int
  | .i128 v => v.toInt
  | .bigInt v => v

/-- The loop of `bigint_to_bytes` that drops redundant sign bytes. -/
def stripSign : Bytes → Bytes
  | first :: second :: rest =>
    if (first = 0 ∧ second &&& 0x80 = 0) ∨
        (first = 0xff ∧ second &&& 0x80 ≠ 0) then
      stripSign (second :: rest)
    else first :: second :: rest
  | bytes => bytes

def bigintToBytes (v : Int) : Bytes :=
  if v = 0 then [] else stripSign (intBytes v)

/-- The loop of `new_i128` that drops redundant sign bytes. -/
def stripI128 : Bytes → Bytes
  | first :: second :: rest =>
    if first = (if 0 < second &&& 0x80 then 1 else 0) * 0xff then
      stripI128 (second :: rest)
    else first :: second :: rest
  | bytes => bytes

/-- The bytes that `new_i128` stores. -/
def i128ToBytes (v : BitVec 128) : Bytes :=
  if v = 0 then [] else stripI128 (beBytes 16 v.toNat)

/-- The bytes that `new_number` stores. -/
def SExpNumber.bytes : SExpNumber → Bytes
  | .i128 v => i128ToBytes v
  | .bigInt v => bigintToBytes v

/-- `SExpNumber::from(&AtomBuf)`, which `Arena::number` repeats: up to 16 bytes
are a machine integer, filled up with the sign. -/
def SExpNumber.ofBytes (buf : Bytes) : SExpNumber :=
  match buf with
  | [] => .i128 0
  | first :: _ =>
    if buf.length ≤ 16 then
      let fill : UInt8 := if first &&& 0x80 ≠ 0 then 0xff else 0
      .i128 (BitVec.ofNat 128
        (beNat (List.replicate (16 - buf.length) fill ++ buf)))
    else .bigInt (beInt buf)

/-- A byte that repeats the sign of the byte behind it adds nothing. -/
theorem beInt_signByte {first second : UInt8} {rest : Bytes}
    (hsign : (first = 0 ∧ second &&& 0x80 = 0) ∨
      (first = 0xff ∧ second &&& 0x80 ≠ 0)) :
    beInt (first :: second :: rest) = beInt (second :: rest) := by
  have hsecond := negative_cons_iff second rest
  rcases hsign with ⟨rfl, hclear⟩ | ⟨rfl, hset⟩
  · have hpositive : negative (second :: rest) = false := by
      rw [← Bool.not_eq_true, hsecond, not_not]
      exact hclear
    rw [beInt_of_not_negative (by rfl), beInt_of_not_negative hpositive,
      beNat_zero_cons]
  · have hnegative : negative (second :: rest) = true := hsecond.mpr hset
    have hfirst : negative (0xff :: second :: rest) = true := by rfl
    rw [beInt, if_pos hfirst, beInt, if_pos hnegative, beNat_cons,
      length_cons (a := (0xff : UInt8))]
    have hff : (0xff : UInt8).toNat = 255 := rfl
    rw [hff]
    push_cast
    ring

variable (bytes : Bytes)

theorem beInt_stripSign : beInt (stripSign bytes) = beInt bytes := by
  fun_induction stripSign bytes with
  | case1 first second rest hsign ih => rw [ih, beInt_signByte hsign]
  | case2 first second rest hsign => rfl
  | case3 bytes hshort => rfl

theorem length_stripSign_le : (stripSign bytes).length ≤ bytes.length := by
  fun_induction stripSign bytes with
  | case1 first second rest hsign ih => exact ih.trans (by simp)
  | case2 first second rest hsign => rfl
  | case3 bytes hshort => rfl

theorem stripI128_eq_stripSign : stripI128 bytes = stripSign bytes := by
  fun_induction stripSign bytes with
  | case1 first second rest hsign ih =>
    rw [stripI128, if_pos, ih]
    rcases hsign with ⟨rfl, hclear⟩ | ⟨rfl, hset⟩
    · rw [hclear]
      rfl
    · rw [if_pos (UInt8.pos_iff_ne_zero.mpr hset)]
      rfl
  | case2 first second rest hsign =>
    rw [stripI128, if_neg]
    rintro rfl
    apply hsign
    by_cases hset : second &&& 0x80 = 0
    · exact .inl ⟨by rw [hset]; rfl, hset⟩
    · exact .inr ⟨by rw [if_pos (UInt8.pos_iff_ne_zero.mpr hset)]; rfl, hset⟩
  | case3 bytes hshort =>
    unfold stripI128
    split
    · exact absurd rfl (hshort _ _ _)
    · rfl

/-- The bytes of a word denote its signed value. -/
theorem beInt_beBytes {width n : Nat} (hwidth : 0 < width)
    (hn : n < 256 ^ width) :
    beInt (beBytes width n) =
      if 2 * n < 256 ^ width then (n : Int) else n - 256 ^ width := by
  have hvalue : beNat (beBytes width n) = n := by
    rw [beNat_beBytes, Nat.mod_eq_of_lt hn]
  have hne : beBytes width n ≠ [] := by
    rw [← length_pos_iff, length_beBytes]
    exact hwidth
  have hsign := negative_iff hne
  rw [hvalue, length_beBytes] at hsign
  rw [beInt, hvalue, length_beBytes]
  by_cases hlow : 2 * n < 256 ^ width
  · rw [if_pos hlow, if_neg (hsign.not.mpr (not_le.mpr hlow))]
  · rw [if_neg hlow, if_pos (hsign.mpr (not_lt.mp hlow))]

theorem beInt_beBytes_toNat (v : BitVec 128) :
    beInt (beBytes 16 v.toNat) = v.toInt := by
  rw [beInt_beBytes (by decide) (lt_of_lt_of_le v.isLt (by norm_num)),
    BitVec.toInt_eq_toNat_cond]
  norm_num

theorem beInt_bigintToBytes (v : Int) : beInt (bigintToBytes v) = v := by
  unfold bigintToBytes
  split_ifs with hzero
  · rw [hzero]
    rfl
  · rw [beInt_stripSign, beInt_intBytes]

theorem SExpNumber.beInt_bytes (n : SExpNumber) : beInt n.bytes = n.value := by
  cases n with
  | i128 v =>
    rw [SExpNumber.bytes, i128ToBytes]
    split_ifs with hzero
    · subst hzero
      rfl
    · rw [stripI128_eq_stripSign, beInt_stripSign, beInt_beBytes_toNat]
      rfl
  | bigInt v => exact beInt_bigintToBytes v

/-- The sign byte that a number is filled up with. -/
def fillByte (first : UInt8) : UInt8 := if first &&& 0x80 ≠ 0 then 0xff else 0

/-- A filled-up number starts with a byte of its sign. -/
theorem fillByte_signByte (first : UInt8) {rest : Bytes} (count : Nat) :
    ∃ second tail, replicate count (fillByte first) ++ first :: rest =
        second :: tail ∧
      ((fillByte first = 0 ∧ second &&& 0x80 = 0) ∨
        (fillByte first = 0xff ∧ second &&& 0x80 ≠ 0)) := by
  by_cases hset : first &&& 0x80 = 0
  · have hfill : fillByte first = 0 := if_neg (not_not.mpr hset)
    cases count with
    | zero => exact ⟨first, rest, rfl, .inl ⟨hfill, hset⟩⟩
    | succ count => exact ⟨_, _, rfl, .inl ⟨hfill, by rw [hfill]; rfl⟩⟩
  · have hfill : fillByte first = 0xff := if_pos hset
    cases count with
    | zero => exact ⟨first, rest, rfl, .inr ⟨hfill, hset⟩⟩
    | succ count => exact ⟨_, _, rfl, .inr ⟨hfill, by rw [hfill]; decide⟩⟩

/-- Filling up with the sign does not change the number. -/
theorem beInt_fill (first : UInt8) {rest : Bytes} :
    beInt (replicate count (fillByte first) ++ first :: rest) =
      beInt (first :: rest) := by
  induction count with
  | zero => rfl
  | succ count ih =>
    obtain ⟨second, tail, hsplit, hsign⟩ := fillByte_signByte first count
    rw [← ih, replicate_succ, cons_append, hsplit]
    exact beInt_signByte hsign

/-- Sixteen bytes as a machine integer. -/
theorem toInt_ofNat_beNat {bytes : Bytes} (hlength : bytes.length = 16) :
    (BitVec.ofNat 128 (beNat bytes)).toInt = beInt bytes := by
  have hlt : beNat bytes < 2 ^ 128 := by
    have hbound := beNat_lt bytes
    rw [hlength] at hbound
    exact lt_of_lt_of_le hbound (by norm_num)
  have hbytes := beBytes_beNat bytes 0
  rw [hlength, Nat.zero_mul, Nat.zero_add] at hbytes
  rw [← beInt_beBytes_toNat, BitVec.toNat_ofNat, Nat.mod_eq_of_lt hlt, hbytes]

/-- Reading an atom as a number. -/
theorem SExpNumber.value_ofBytes (buf : Bytes) :
    (SExpNumber.ofBytes buf).value = beInt buf := by
  cases buf with
  | nil => rfl
  | cons first rest =>
    by_cases hlength : (first :: rest).length ≤ 16
    · rw [← beInt_fill first, SExpNumber.ofBytes, if_pos hlength]
      apply toInt_ofNat_beNat
      rw [length_append, length_replicate]
      omega
    · rw [SExpNumber.ofBytes, if_neg hlength]
      rfl

open List

variable {A B C E : Type} {R S : A → B → Prop} {left : List A} {right : List B}
  {f : A → Except E B}

theorem mapM_ok {list : List A} {out : List B} (h : list.mapM f = .ok out) :
    Forall₂ (fun a b => f a = .ok b) list out := by
  induction list generalizing out with
  | nil =>
    cases h
    exact .nil
  | cons head tail ih =>
    rw [mapM_cons] at h
    obtain ⟨b, hb, h⟩ := Except.bind_eq_ok.mp h
    obtain ⟨rest, hrest, h⟩ := Except.bind_eq_ok.mp h
    cases h
    exact .cons hb (ih hrest)

theorem forall₂_mem_right (h : Forall₂ R left right) {b : B}
    (hb : b ∈ right) : ∃ a ∈ left, R a b := by
  induction h with
  | nil => exact absurd hb not_mem_nil
  | cons hhead htail ih =>
    rcases mem_cons.mp hb with rfl | hb
    · exact ⟨_, mem_cons_self, hhead⟩
    · obtain ⟨a, ha, hR⟩ := ih hb
      exact ⟨a, mem_cons_of_mem _ ha, hR⟩

theorem forall₂_imp_of_mem (himp : ∀ a ∈ left, ∀ b ∈ right, R a b → S a b)
    (h : Forall₂ R left right) : Forall₂ S left right := by
  induction h with
  | nil => exact .nil
  | cons hhead htail ih =>
    refine .cons (himp _ mem_cons_self _ mem_cons_self hhead) ?_
    apply ih
    intro a ha b hb
    exact himp a (mem_cons_of_mem _ ha) b (mem_cons_of_mem _ hb)

theorem forall₂_map_eq_of_mem {f : A → C} {g : B → C}
    (hfg : ∀ a ∈ left, ∀ b ∈ right, R a b → g b = f a)
    (h : Forall₂ R left right) : right.map g = left.map f := by
  rw [eq_comm, ← forall₂_eq_eq_eq, forall₂_map_left_iff, forall₂_map_right_iff]
  exact forall₂_imp_of_mem (fun a ha b hb hR => (hfg a ha b hb hR).symm) h

theorem forall₂_map_eq {f : A → C} {g : B → C} (hfg : ∀ a b, R a b → g b = f a)
    (h : Forall₂ R left right) : right.map g = left.map f :=
  forall₂_map_eq_of_mem (fun a _ b _ => hfg a b) h

theorem mapM_exists {list : List A} (h : ∀ a ∈ list, ∃ b, f a = .ok b ∧ R a b) :
    ∃ out, list.mapM f = .ok out ∧ Forall₂ R list out := by
  induction list with
  | nil => exact ⟨[], rfl, .nil⟩
  | cons head tail ih =>
    obtain ⟨b, hb, hrel⟩ := h head mem_cons_self
    obtain ⟨out, hout, hrest⟩ := ih fun a ha => h a (mem_cons_of_mem _ ha)
    refine ⟨b :: out, ?_, .cons hrel hrest⟩
    rw [mapM_cons, hb, Except.bind_ok, hout]
    rfl

end DgXch
