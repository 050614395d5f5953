/-
The two canonicality checkers of serialized CLVM, `is_clvm_canonical` and
`is_canonical_serialization`, as scanners of a token lexer, and the plain
serialization as a bijection between CLVM trees and the byte strings that are
spelled with minimal tokens.
-/
import DgXch.ClvmParser
import DgXch.ListTrees

namespace DgXch

open BigEndian ByteBits TokenStream List

variable {k : Nat} {stream : Bytes} {lead : UInt8} {clvm : Bytes}

def backReference : UInt8 := 0xfe

/-- Prefix bytes after the first, length mask and smallest length, as
`is_clvm_canonical` chooses them from the first byte of a sized atom. -/
def clvmPrefix (b : UInt8) : Nat × UInt8 × Nat :=
  if b &&& 0b11000000 = 0b10000000 then (0, 0b00111111, 1)
  else if b &&& 0b11100000 = 0b11000000 then (1, 0b00011111, 1 <<< 6)
  else if b &&& 0b11110000 = 0b11100000 then (2, 0b00001111, 1 <<< 13)
  else if b &&& 0b11111000 = 0b11110000 then (3, 0b00000111, 1 <<< 20)
  else if b &&& 0b11111100 = 0b11111000 then (4, 0b00000011, 1 <<< 27)
  else (5, 0b00000001, 1 <<< 34)

/-- The loop of `is_clvm_canonical` over the length bytes: `count` of them from
position `start`. -/
def clvmLengthLoop (clvm : Bytes) : Nat → Nat → Nat → Option Nat
  | 0, _, atomLen => some atomLen
  | count + 1, start, atomLen =>
    match clvm[start]? with
    | none => none
    | some next =>
      clvmLengthLoop clvm count (start + 1)
        ((atomLen <<< 8) ||| next.toNat)

/-- The token loop of `is_clvm_canonical`.  Slices are shorter than `2^63`
bytes, so neither counter can overflow. -/
def clvmCanonicalLoop (clvm : Bytes) (offset tokensLeft : Nat) : Bool :=
  match _hbyte : clvm[offset]? with
  | none => false
  | some b =>
    if b = 0xff then clvmCanonicalLoop clvm (offset + 1) (tokensLeft + 1)
    else if b = 0xfe then false
    else if b ≤ 0x80 then
      if tokensLeft - 1 = 0 then offset + 1 = clvm.length
      else clvmCanonicalLoop clvm (offset + 1) (tokensLeft - 1)
    else
      let (prefixLen, mask, minValue) := clvmPrefix b
      match clvmLengthLoop clvm prefixLen (offset + 1) (b &&& mask).toNat with
      | none => false
      | some atomLen =>
        if atomLen < minValue then false
        else if tokensLeft - 1 = 0 then
          offset + (1 + prefixLen + atomLen) = clvm.length
        else
          clvmCanonicalLoop clvm (offset + (1 + prefixLen + atomLen))
            (tokensLeft - 1)
termination_by clvm.length - offset
decreasing_by
  all_goals
    have hlt : offset < clvm.length :=
      (List.getElem?_eq_some_iff.mp _hbyte).choose
    omega

def isClvmCanonical (clvm : Bytes) : Bool :=
  if clvm = [] then false else clvmCanonicalLoop clvm 0 1

/-- The smallest length `is_canonical_atom` accepts after a prefix of
`prefixLen` bytes. -/
def canonicalFloor : Nat → Option Nat
  | 1 => some 1
  | 2 => some (1 <<< 6)
  | 3 => some (1 <<< 13)
  | 4 => some (1 <<< 20)
  | 5 => some (1 <<< 28)
  | 6 => some (1 <<< 36)
  | _ => none

/-- `is_canonical_atom`: the verdict and the cursor it leaves. -/
def isCanonicalAtom (stream : Cursor) (firstByte : UInt8) : Bool × Cursor :=
  if firstByte = 0x80 ∨ firstByte ≤ maxSingleByte then (true, stream)
  else
    let prefixLen := leadingOnes firstByte
    match decodeSize stream firstByte with
    | .error _ => (false, stream)
    | .ok (atomLen, stream) =>
      match canonicalFloor prefixLen with
      | none => (false, stream)
      | some minValue => (minValue ≤ atomLen, stream.advance atomLen)

theorem pos_lt_of_readByte {stream next : Cursor} {byte : UInt8}
    (hread : stream.readByte = .ok (byte, next)) :
    next.data = stream.data ∧ next.pos = stream.pos + 1 ∧
      stream.pos < stream.data.length := by
  have hlt := Cursor.remaining_lt_of_readByte hread
  obtain ⟨-, rfl⟩ := Cursor.readByte_eq_ok.mp hread
  refine ⟨rfl, rfl, ?_⟩
  simp only [Cursor.remaining] at hlt
  omega

theorem isCanonicalAtom_advances {stream : Cursor} (firstByte : UInt8) :
    ∃ count, (isCanonicalAtom stream firstByte).2 = stream.advance count := by
  unfold isCanonicalAtom
  split_ifs
  · exact ⟨0, rfl⟩
  · dsimp only
    split
    · exact ⟨0, rfl⟩
    · rename_i hdecode
      obtain ⟨tail, -, -, -, -, -, rfl⟩ := decodeSize_eq_ok.mp hdecode
      split
      · exact ⟨_, rfl⟩
      · exact ⟨_, Cursor.advance_advance _ _⟩

/-- The token loop of `is_canonical_serialization`. -/
def canonicalLoop (bytes : Bytes) (counter : Nat) (stream : Cursor) : Bool :=
  match counter with
  | 0 => bytes.length = stream.pos
  | counter + 1 =>
    match _hread : stream.readByte with
    | .error _ => false
    | .ok (b, next) =>
      if b = consBoxMarker then
        if bytes.length < next.pos then false
        else canonicalLoop bytes (counter + 2) next
      else if b = backReference then
        match _hpath : next.readByte with
        | .error _ => false
        | .ok (b, next) =>
          if (isCanonicalAtom next b).1 = false then false
          else if bytes.length < (isCanonicalAtom next b).2.pos then false
          else canonicalLoop bytes counter (isCanonicalAtom next b).2
      else if (isCanonicalAtom next b).1 = false then false
      else if bytes.length < (isCanonicalAtom next b).2.pos then false
      else canonicalLoop bytes counter (isCanonicalAtom next b).2
termination_by stream.remaining
decreasing_by
  · exact Cursor.remaining_lt_of_readByte _hread
  · have hread := Cursor.remaining_lt_of_readByte _hread
    have hpath := Cursor.remaining_lt_of_readByte _hpath
    obtain ⟨count, hcount⟩ := isCanonicalAtom_advances b
    rw [hcount, Cursor.remaining_advance]
    omega
  · have hread := Cursor.remaining_lt_of_readByte _hread
    obtain ⟨count, hcount⟩ := isCanonicalAtom_advances b
    rw [hcount, Cursor.remaining_advance]
    omega

def isCanonicalSerialization (bytes : Bytes) : Bool :=
  canonicalLoop bytes 1 ⟨bytes, 0⟩

variable (accept : Nat → Nat → Bool)

/-- The length of the atom token at the front of a stream, when `accept` admits
its prefix width and its length. -/
def atomTokenLen : Bytes → Option Nat
  | [] => none
  | lead :: tail =>
    if lead ≤ 0x80 then some 1
    else if leadingOnes lead ≤ 6 ∧ leadingOnes lead - 1 ≤ tail.length then
      let size := beNat (sizeBits lead :: tail.take (leadingOnes lead - 1))
      if accept (leadingOnes lead) size then some (leadingOnes lead + size)
      else none
    else none

/-- The length of the atom or back-reference token at the front of a stream. -/
def backrefTokenLen : Bytes → Option Nat
  | [] => none
  | lead :: tail =>
    if lead = backReference then (atomTokenLen accept tail).map (· + 1)
    else atomTokenLen accept (lead :: tail)

variable {tail : Bytes}

section TokenLen

variable {accept : Nat → Nat → Bool}

theorem atomTokenLen_low (hlow : lead ≤ 0x80) :
    atomTokenLen accept (lead :: tail) = some 1 :=
  if_pos hlow

theorem atomTokenLen_none (hlead : ¬ lead ≤ 0x80)
    (hroom : ¬ (leadingOnes lead ≤ 6 ∧ leadingOnes lead - 1 ≤ tail.length)) :
    atomTokenLen accept (lead :: tail) = none :=
  (if_neg hlead).trans (if_neg hroom)

variable (accept) in
/-- A sized token: its prefix and the length its prefix announces. -/
theorem atomTokenLen_sized (back : Bytes) {size : Nat} (hlead : ¬ lead ≤ 0x80)
    (hwidth : leadingOnes lead ≤ 6) (hspells : IsSizePrefix lead tail size) :
    atomTokenLen accept (lead :: (tail ++ back)) =
      if accept (leadingOnes lead) size then some (leadingOnes lead + size)
      else none := by
  have hlength := Nat.eq_sub_of_add_eq hspells.width
  rw [atomTokenLen, if_neg hlead, if_pos ⟨hwidth, by rw [length_append]; omega⟩,
    take_left' hlength, hspells.value]

/-- The prefix of a sized token that is not cut off. -/
theorem isSizePrefix_take (hlead : ¬ lead ≤ 0x80)
    (hroom : leadingOnes lead - 1 ≤ tail.length) :
    IsSizePrefix lead (tail.take (leadingOnes lead - 1))
      (beNat (sizeBits lead :: tail.take (leadingOnes lead - 1))) := by
  have hhigh : 0x80 ≤ lead := not_le_high_imp lead hlead
  have hpos := (leadingOnes_pos_iff lead).mpr hhigh
  refine ⟨hhigh, ?_, rfl⟩
  rw [length_take_of_le hroom]
  omega

theorem atomTokenLen_eq_some :
    atomTokenLen accept stream = some k ↔
      (∃ lead tail, stream = lead :: tail ∧ lead ≤ 0x80 ∧ k = 1) ∨
      ∃ lead tail back size, stream = lead :: (tail ++ back) ∧
        ¬ lead ≤ 0x80 ∧ leadingOnes lead ≤ 6 ∧ IsSizePrefix lead tail size ∧
        accept (leadingOnes lead) size = true ∧ k = leadingOnes lead + size := by
  constructor
  · intro hlen
    cases stream with
    | nil => cases hlen
    | cons lead tail =>
      by_cases hsmall : lead ≤ 0x80
      · rw [atomTokenLen_low hsmall] at hlen
        cases hlen
        exact .inl ⟨lead, tail, rfl, hsmall, rfl⟩
      · by_cases hwidth : leadingOnes lead ≤ 6 ∧
            leadingOnes lead - 1 ≤ tail.length
        · have hspells := isSizePrefix_take hsmall hwidth.2
          rw [← take_append_drop (leadingOnes lead - 1) tail,
            atomTokenLen_sized accept _ hsmall hwidth.1 hspells] at hlen
          split_ifs at hlen with haccept
          cases hlen
          refine .inr ⟨lead, _, tail.drop (leadingOnes lead - 1), _, ?_,
            hsmall, hwidth.1, hspells, haccept, rfl⟩
          rw [take_append_drop]
        · rw [atomTokenLen_none hsmall hwidth] at hlen
          cases hlen
  · rintro (⟨lead, tail, rfl, hsmall, rfl⟩ |
      ⟨lead, tail, back, size, rfl, hlead, hwidth, hspells, haccept, rfl⟩)
    · exact atomTokenLen_low hsmall
    · rw [atomTokenLen_sized accept back hlead hwidth hspells, if_pos haccept]

/-- Accepting more lengths delimits no token differently. -/
theorem atomTokenLen_any (hlen : atomTokenLen accept stream = some k) :
    atomTokenLen (fun _ _ => true) stream = some k := by
  refine atomTokenLen_eq_some.2 ((atomTokenLen_eq_some.1 hlen).imp_right ?_)
  rintro ⟨lead, tail, back, size, rfl, hlead, hwidth, hspells, -, rfl⟩
  exact ⟨lead, tail, back, size, rfl, hlead, hwidth, hspells, rfl, rfl⟩

theorem atomTokenLen_pos
    (hlen : atomTokenLen accept stream = some k) : 0 < k := by
  rcases atomTokenLen_eq_some.1 hlen with ⟨_, _, _, _, rfl⟩ |
    ⟨lead, tail, _, size, _, _, _, hspells, _, rfl⟩
  · decide
  · have := hspells.width
    omega

theorem atomTokenLen_stable (hlen : atomTokenLen accept stream = some k)
    (back : Bytes) :
    atomTokenLen accept (stream.take k ++ back) = some k := by
  rcases atomTokenLen_eq_some.1 hlen with ⟨lead, tail, rfl, hsmall, rfl⟩ |
    ⟨lead, tail, rest, size, rfl, hlead, hwidth, hspells, haccept, rfl⟩
  · exact atomTokenLen_eq_some.2 (.inl ⟨lead, back, rfl, hsmall, rfl⟩)
  · refine atomTokenLen_eq_some.2 (.inr ⟨lead, tail, rest.take size ++ back,
      size, ?_, hlead, hwidth, hspells, haccept, rfl⟩)
    have htake : (lead :: (tail ++ rest)).take (leadingOnes lead + size) =
        lead :: (tail ++ rest.take size) := by
      rw [← hspells.width, Nat.add_right_comm, take_succ_cons,
        take_length_add_append]
    rw [htake, cons_append, append_assoc]

theorem atomTokenLen_marker (stream : Bytes) :
    atomTokenLen accept (consBoxMarker :: stream) = none :=
  atomTokenLen_none (by decide) fun h => absurd h.1 (by decide)

variable (accept) in
theorem atomTokenLen_backReference (stream : Bytes) :
    atomTokenLen accept (backReference :: stream) = none :=
  atomTokenLen_none (by decide) fun h => absurd h.1 (by decide)

theorem backrefTokenLen_stable (hlen : backrefTokenLen accept stream = some k)
    {back : Bytes} :
    backrefTokenLen accept (stream.take k ++ back) = some k := by
  cases stream with
  | nil => cases hlen
  | cons lead tail =>
    by_cases hback : lead = backReference
    · rw [backrefTokenLen, if_pos hback, Option.map_eq_some_iff] at hlen
      obtain ⟨n, hlen, rfl⟩ := hlen
      rw [take_succ_cons, cons_append, backrefTokenLen,
        if_pos hback, atomTokenLen_stable hlen back, Option.map_some]
    · rw [backrefTokenLen, if_neg hback] at hlen
      have hpos := atomTokenLen_pos hlen
      have hstable := atomTokenLen_stable hlen back
      obtain ⟨n, rfl⟩ : ∃ n, k = n + 1 := ⟨k - 1, by omega⟩
      rw [take_succ_cons, cons_append] at hstable ⊢
      rw [backrefTokenLen, if_neg hback, hstable]

end TokenLen

/-- Streams of atoms, no back-references. -/
def atomLexer : Lexer UInt8 where
  marker := consBoxMarker
  len := atomTokenLen accept
  pos := atomTokenLen_pos
  stable := atomTokenLen_stable
  not_marker := atomTokenLen_marker

/-- Streams of atoms and back-references. -/
def backrefLexer : Lexer UInt8 where
  marker := consBoxMarker
  len := backrefTokenLen accept
  pos := fun {stream k} hlen => by
    cases stream with
    | nil => cases hlen
    | cons lead tail =>
      rw [backrefTokenLen] at hlen
      split_ifs at hlen
      · obtain ⟨n, -, rfl⟩ := Option.map_eq_some_iff.mp hlen
        omega
      · exact atomTokenLen_pos hlen
  stable := backrefTokenLen_stable
  not_marker := fun stream => by
    rw [backrefTokenLen, if_neg (by decide)]
    exact atomTokenLen_marker stream

theorem backrefLexer_len (accept : Nat → Nat → Bool) :
    (backrefLexer accept).len stream = backrefTokenLen accept stream := rfl

/-- The lengths `is_clvm_canonical` accepts. -/
def clvmAccepts (width size : Nat) : Bool := widthFloor width ≤ size

/-- The lengths `is_canonical_atom` accepts. -/
def canonicalAccepts (width size : Nat) : Bool :=
  match canonicalFloor width with
  | none => false
  | some minValue => size < maxDecodeSize ∧ minValue ≤ size

abbrev clvmLexer : Lexer UInt8 := atomLexer clvmAccepts

abbrev canonicalLexer : Lexer UInt8 := backrefLexer canonicalAccepts

/-- All tokens, minimal or not. -/
abbrev anyAtoms : Lexer UInt8 := atomLexer fun _ _ => true

@[inherit_doc anyAtoms]
abbrev anyTokens : Lexer UInt8 := backrefLexer fun _ _ => true

theorem drop_eq_cons_of_getElem? {offset : Nat} {b : UInt8}
    (hget : clvm[offset]? = some b) :
    clvm.drop offset = b :: clvm.drop (offset + 1) := by
  obtain ⟨hlt, rfl⟩ := List.getElem?_eq_some_iff.mp hget
  exact List.drop_eq_getElem_cons hlt

/-- The length loop reads `count` big-endian bytes. -/
theorem clvmLengthLoop_eq (count start value : Nat) :
    clvmLengthLoop clvm count start value =
      if count ≤ (clvm.drop start).length then
        some (value * 256 ^ count + beNat ((clvm.drop start).take count))
      else none := by
  induction count generalizing start value with
  | zero => simp [clvmLengthLoop]
  | succ count ih =>
    rw [clvmLengthLoop]
    cases hget : clvm[start]? with
    | none =>
      have hout := getElem?_eq_none_iff.mp hget
      rw [if_neg (by rw [length_drop]; omega)]
    | some next =>
      dsimp only
      rw [ih, drop_eq_cons_of_getElem? hget, length_cons, take_succ_cons,
        shiftLeft_or_byte]
      by_cases hroom : count ≤ (clvm.drop (start + 1)).length
      · rw [if_pos hroom, if_pos (by omega), beNat_cons,
          length_take_of_le hroom]
        congr 1
        ring
      · rw [if_neg hroom, if_neg (by omega)]

theorem clvmPrefix_eq (b : UInt8) : ¬ b ≤ 0x80 → b ≠ 0xff → b ≠ 0xfe →
    (clvmPrefix b).1 = leadingOnes b - 1 ∧
      (b &&& (clvmPrefix b).2.1) = sizeBits b ∧
      (clvmPrefix b).2.2 = widthFloor (leadingOnes b) ∧
      leadingOnes b ≤ 6 := by
  revert b
  apply forall_byte
  decide +kernel

/-- Behind a token of `k` bytes the loop stops or goes on as the scanner. -/
theorem clvmCanonicalLoop_skip {offset pending k : Nat} {L : Lexer UInt8}
    (hk : 0 < k) (hlen : L.len (clvm.drop offset) = some k)
    (ih : ∀ next, offset < next → ∀ pending,
      clvmCanonicalLoop clvm next (pending + 1) =
        L.scan (pending + 1) (clvm.drop next)) :
    (if pending = 0 then decide (offset + k = clvm.length)
      else clvmCanonicalLoop clvm (offset + k) pending) =
      L.scan (pending + 1) (clvm.drop offset) := by
  rw [L.scan_of_len hlen, length_drop, drop_drop]
  cases pending with
  | zero =>
    simp only [↓reduceIte, Lexer.scan_zero]
    split_ifs with hroom
    · rw [Bool.eq_iff_iff]
      simp only [decide_eq_true_eq, List.isEmpty_iff, drop_eq_nil_iff]
      omega
    · simp only [decide_eq_false_iff_not]
      omega
  | succ pending =>
    rw [if_neg (by omega), ih _ (by omega)]
    split_ifs with hroom
    · rfl
    · rw [drop_eq_nil_of_le (by omega)]
      simp [Lexer.scan]

/-- The loop of `is_clvm_canonical` is the scanner of the minimal atoms. -/
theorem clvmCanonicalLoop_eq_scan (offset pending : Nat) :
    clvmCanonicalLoop clvm offset (pending + 1) =
      clvmLexer.scan (pending + 1) (clvm.drop offset) := by
  induction hn : clvm.length - offset using Nat.strongRecOn
    generalizing offset pending with
  | _ n ih =>
    rw [clvmCanonicalLoop]
    split
    · rename_i hget
      rw [drop_eq_nil_of_le (getElem?_eq_none_iff.mp hget)]
      simp [Lexer.scan]
    · rename_i b hget
      have hlt := (List.getElem?_eq_some_iff.mp hget).1
      have ih' (next : Nat) (hnext : offset < next) (pending : Nat) :
          clvmCanonicalLoop clvm next (pending + 1) =
            clvmLexer.scan (pending + 1) (clvm.drop next) :=
        ih _ (by omega) next pending rfl
      have hdrop := drop_eq_cons_of_getElem? hget
      rw [Nat.add_sub_cancel]
      by_cases hmarker : b = 0xff
      · rw [if_pos hmarker, ih' _ (by omega), hdrop, hmarker]
        exact clvmLexer.scan_marker.symm
      rw [if_neg hmarker]
      by_cases hback : b = 0xfe
      · have hnone := atomTokenLen_backReference clvmAccepts
          (clvm.drop (offset + 1))
        rw [if_pos hback, hdrop]
        subst hback
        exact (clvmLexer.scan_of_none hmarker hnone).symm
      rw [if_neg hback]
      by_cases hsmall : b ≤ 0x80
      · rw [if_pos hsmall]
        refine clvmCanonicalLoop_skip (by decide) ?_ ih'
        rw [hdrop]
        exact atomTokenLen_eq_some.2 (.inl ⟨b, _, rfl, hsmall, rfl⟩)
      rw [if_neg hsmall]
      obtain ⟨hlen, hmask, hfloor, hwidth⟩ := clvmPrefix_eq b hsmall hmarker hback
      have hpos := (leadingOnes_pos_iff b).mpr (not_le_high_imp b hsmall)
      simp only [hlen, hmask, hfloor, clvmLengthLoop_eq]
      by_cases hroom : leadingOnes b - 1 ≤ (clvm.drop (offset + 1)).length
      · have hspells := isSizePrefix_take hsmall hroom
        have htoken := atomTokenLen_sized clvmAccepts
          ((clvm.drop (offset + 1)).drop (leadingOnes b - 1)) hsmall hwidth
          hspells
        rw [take_append_drop, ← hdrop] at htoken
        have hvalue := beNat_cons (sizeBits b)
          ((clvm.drop (offset + 1)).take (leadingOnes b - 1))
        rw [length_take_of_le hroom] at hvalue
        rw [if_pos hroom, ← hvalue]
        generalize beNat (sizeBits b :: _) = size at htoken
        by_cases hmin : size < widthFloor (leadingOnes b)
        · rw [clvmAccepts, decide_eq_false (by omega)] at htoken
          simp only [if_pos hmin]
          rw [hdrop] at htoken ⊢
          exact (clvmLexer.scan_of_none hmarker htoken).symm
        · rw [clvmAccepts, decide_eq_true (by omega), if_pos rfl] at htoken
          simp only [if_neg hmin]
          have hk : 1 + (leadingOnes b - 1) + size = leadingOnes b + size := by
            omega
          rw [hk]
          exact clvmCanonicalLoop_skip (by omega) htoken ih'
      · have hnone : atomTokenLen clvmAccepts (b :: clvm.drop (offset + 1)) =
            none := by
          rw [atomTokenLen_none hsmall fun h => hroom h.2]
        rw [if_neg hroom, hdrop]
        exact (clvmLexer.scan_of_none hmarker hnone).symm

/-- `is_clvm_canonical` accepts exactly the expressions spelled with minimal
atom tokens. -/
theorem isClvmCanonical_iff :
    isClvmCanonical clvm = true ↔ clvmLexer.Expr clvm := by
  rw [isClvmCanonical]
  split_ifs with hnil
  · refine ⟨fun h => absurd h (by simp), fun hexpr => absurd hnil ?_⟩
    exact Lexer.Expr.ne_nil _ hexpr
  · rw [clvmCanonicalLoop_eq_scan 0 0, drop_zero]
    exact clvmLexer.scan_one_iff

theorem le_high_iff {b : UInt8} : b ≤ 0x80 ↔ b = 0x80 ∨ b ≤ maxSingleByte := by
  revert b
  apply forall_byte
  decide +kernel

theorem canonicalAccepts_iff {width size : Nat} :
    canonicalAccepts width size = true ↔
      ∃ minValue, canonicalFloor width = some minValue ∧
        size < maxDecodeSize ∧ minValue ≤ size := by
  rw [canonicalAccepts]
  split <;> simp_all

/-- `is_canonical_atom` accepts the tokens of its lexer and skips them. -/
theorem isCanonicalAtom_of_len {stream : Cursor}
    (hlen : atomTokenLen canonicalAccepts (lead :: stream.rest) = some k) :
    isCanonicalAtom stream lead = (true, stream.advance (k - 1)) := by
  rcases atomTokenLen_eq_some.1 hlen with ⟨_, _, heq, hsmall, rfl⟩ |
    ⟨_, tail, back, size, heq, hlead, hwidth, hspells, haccept, rfl⟩
  · cases heq
    rw [isCanonicalAtom, if_pos (le_high_iff.1 hsmall)]
    rfl
  · obtain ⟨rfl, hrest⟩ := List.cons.inj heq
    obtain ⟨minValue, hfloor, hsize, hmin⟩ := canonicalAccepts_iff.1 haccept
    have hdecode : decodeSize stream lead =
        .ok (size, stream.advance tail.length) :=
      decodeSize_eq_ok.mpr ⟨tail, back, hrest, hspells, hwidth, hsize, rfl⟩
    have hk : tail.length + size = leadingOnes lead + size - 1 := by
      have := hspells.width
      omega
    rw [isCanonicalAtom, if_neg (mt le_high_iff.2 hlead)]
    simp only [hdecode, hfloor, Cursor.advance_advance, decide_eq_true hmin, hk]

theorem isCanonicalAtom_of_none {stream : Cursor}
    (hlen : atomTokenLen canonicalAccepts (lead :: stream.rest) = none) :
    (isCanonicalAtom stream lead).1 = false := by
  by_contra htrue
  rw [Bool.not_eq_false, isCanonicalAtom] at htrue
  split_ifs at htrue with hsmall
  · have hlow := le_high_iff.2 hsmall
    rw [atomTokenLen_low hlow] at hlen
    cases hlen
  · dsimp only at htrue
    split at htrue
    · cases htrue
    · rename_i size next hdecode
      obtain ⟨tail, back, hrest, hspells, hwidth, hsize, rfl⟩ :=
        decodeSize_eq_ok.mp hdecode
      split at htrue
      · cases htrue
      · rename_i minValue hfloor
        have haccept : canonicalAccepts (leadingOnes lead) size = true :=
          canonicalAccepts_iff.2
            ⟨minValue, hfloor, hsize, of_decide_eq_true htrue⟩
        rw [hrest, atomTokenLen_sized canonicalAccepts back
          (mt le_high_iff.1 hsmall) hwidth hspells, if_pos haccept] at hlen
        cases hlen

/-- Behind an atom the loop goes on as the scanner does behind its token; `more`
is what the token has between its first byte and the atom read by the loop. -/
theorem canonicalLoop_atom {bytes more : Bytes} {stream : Cursor}
    {head lead : UInt8} {counter : Nat} (hdata : stream.data = bytes)
    (hpos : stream.pos ≤ bytes.length) (hmarker : head ≠ consBoxMarker)
    (hlen : backrefTokenLen canonicalAccepts (head :: (more ++ stream.rest)) =
      (atomTokenLen canonicalAccepts (lead :: stream.rest)).map
        (· + more.length))
    (ih : ∀ next : Cursor, next.data = bytes → stream.pos ≤ next.pos →
      next.pos ≤ bytes.length → canonicalLoop bytes counter next =
        canonicalLexer.scan counter next.rest) :
    (if (isCanonicalAtom stream lead).1 = false then false
      else if bytes.length < (isCanonicalAtom stream lead).2.pos then false
      else canonicalLoop bytes counter (isCanonicalAtom stream lead).2) =
      canonicalLexer.scan (counter + 1) (head :: (more ++ stream.rest)) := by
  cases hatom : atomTokenLen canonicalAccepts (lead :: stream.rest) with
  | none =>
    rw [hatom] at hlen
    rw [if_pos (isCanonicalAtom_of_none hatom)]
    exact (canonicalLexer.scan_of_none hmarker hlen).symm
  | some k =>
    rw [hatom, Option.map_some, ← backrefLexer_len] at hlen
    have hk := atomTokenLen_pos hatom
    have hdrop : (head :: (more ++ stream.rest)).drop (k + more.length) =
        stream.rest.drop (k - 1) := by
      obtain ⟨n, rfl⟩ : ∃ n, k = n + 1 := ⟨k - 1, by omega⟩
      rw [Nat.add_right_comm, drop_succ_cons, Nat.add_comm n,
        drop_length_add_append, Nat.add_sub_cancel]
    have hroom : k + more.length ≤ (head :: (more ++ stream.rest)).length ↔
        stream.pos + (k - 1) ≤ bytes.length := by
      rw [length_cons, length_append, Cursor.length_rest,
        Cursor.remaining, hdata]
      omega
    rw [canonicalLexer.scan_of_len hlen, hdrop,
      isCanonicalAtom_of_len hatom, if_neg (by simp)]
    change (if bytes.length < stream.pos + (k - 1) then false
      else canonicalLoop bytes counter (stream.advance (k - 1))) = _
    by_cases hle : stream.pos + (k - 1) ≤ bytes.length
    · rw [if_neg (Nat.not_lt.mpr hle), if_pos (hroom.mpr hle),
        ih (stream.advance (k - 1)) hdata (Nat.le_add_right _ _) hle,
        Cursor.rest_advance]
    · rw [if_pos (Nat.not_le.mp hle), if_neg (mt hroom.mp hle)]

/-- The loop of `is_canonical_serialization` is the scanner of the tokens
`is_canonical_atom` accepts. -/
theorem canonicalLoop_eq_scan {bytes : Bytes} {stream : Cursor}
    (hdata : stream.data = bytes) (hpos : stream.pos ≤ bytes.length)
    (counter : Nat) :
    canonicalLoop bytes counter stream =
      canonicalLexer.scan counter stream.rest := by
  induction hn : stream.remaining using Nat.strongRecOn
    generalizing stream counter with
  | _ n ih =>
    cases counter with
    | zero =>
      rw [canonicalLoop, Lexer.scan_zero, Bool.eq_iff_iff,
        decide_eq_true_iff, List.isEmpty_iff, ← List.length_eq_zero_iff,
        Cursor.length_rest, Cursor.remaining, hdata]
      omega
    | succ counter =>
      have ih' (next : Cursor) (hnext : next.data = bytes)
          (hlt : stream.pos + 1 ≤ next.pos) (hend : next.pos ≤ bytes.length)
          (counter : Nat) : canonicalLoop bytes counter next =
            canonicalLexer.scan counter next.rest := by
        refine ih _ ?_ hnext hend counter rfl
        rw [← hn, Cursor.remaining, Cursor.remaining, hnext, hdata]
        omega
      rw [canonicalLoop]
      split
      · rename_i hread
        cases hrest : stream.rest with
        | nil => simp [Lexer.scan]
        | cons head tail => simp [Cursor.readByte_cons hrest] at hread
      · rename_i b next hread
        obtain ⟨hnextData, hnextPos, hlt⟩ := pos_lt_of_readByte hread
        obtain ⟨⟨tail, hrest⟩, rfl⟩ := Cursor.readByte_eq_ok.mp hread
        have htail : (stream.advance 1).rest = tail := by simp [hrest]
        rw [hdata] at hnextData hlt
        by_cases hmarker : b = consBoxMarker
        · rw [if_pos hmarker, if_neg (by omega),
            ih' _ hnextData (by omega) (by omega), htail, hrest, hmarker]
          exact canonicalLexer.scan_marker.symm
        rw [if_neg hmarker]
        by_cases hback : b = backReference
        · rw [if_pos hback]
          split
          · rename_i hpath
            cases tail with
            | nil =>
              rw [hrest, hback]
              exact (canonicalLexer.scan_of_none (by decide) rfl).symm
            | cons lead tail => simp [Cursor.readByte_cons htail] at hpath
          · rename_i lead next hpath
            obtain ⟨hpathData, hpathPos, hpathLt⟩ := pos_lt_of_readByte hpath
            obtain ⟨⟨tail', hrest'⟩, rfl⟩ := Cursor.readByte_eq_ok.mp hpath
            rw [hnextData] at hpathData hpathLt
            have hsplit : stream.rest = b ::
                ([lead] ++ ((stream.advance 1).advance 1).rest) := by
              rw [hrest, ← htail, hrest', Cursor.rest_advance 1, hrest']
              rfl
            rw [hsplit]
            refine canonicalLoop_atom hpathData (by omega) hmarker ?_
              fun next hnext hge hend => ih' next hnext (by omega) hend counter
            rw [backrefTokenLen, if_pos hback]
            rfl
        · rw [if_neg hback]
          have hsplit : stream.rest = b :: ([] ++ (stream.advance 1).rest) := by
            rw [hrest, htail, nil_append]
          rw [hsplit]
          refine canonicalLoop_atom hnextData (by omega) hmarker ?_
            fun next hnext hge hend => ih' next hnext (by omega) hend counter
          rw [backrefTokenLen, if_neg hback]
          simp

/-- `is_canonical_serialization` accepts exactly the expressions spelled with
the tokens `is_canonical_atom` accepts. -/
theorem isCanonicalSerialization_iff (bytes : Bytes) :
    isCanonicalSerialization bytes = true ↔ canonicalLexer.Expr bytes := by
  have hscan : isCanonicalSerialization bytes = canonicalLexer.scan 1 bytes :=
    @canonicalLoop_eq_scan bytes ⟨bytes, 0⟩ rfl (Nat.zero_le _) 1
  rw [hscan]
  exact canonicalLexer.scan_one_iff

open DgXch.Except AtomToken

variable {w : Bytes} {t : SExp} {accept : Nat → Nat → Bool} {token data : Bytes}

/-- The bytes `sexp_to_bytes` writes for one atom. -/
def writeAtom (data : Bytes) : Except IoError Bytes :=
  if data = [] then .ok [0x80]
  else if data.length = 1 ∧ data.headD 0 ≤ maxSingleByte then
    .ok [data.headD 0]
  else do
    let lead ← encodeSize data.length
    .ok (lead ++ data)

/-- The bytes of a tree, by recursion on the tree. -/
def serialize : SExp → Except IoError Bytes
  | .atom data => writeAtom data
  | .pair first rest => do
      let front ← serialize first
      let back ← serialize rest
      .ok (consBoxMarker :: (front ++ back))

/-- The work list writes its trees one after the other. -/
theorem sexpToBytesLoop_cons (stack : List SExp) (buffer : Bytes) :
    sexpToBytesLoop (t :: stack) buffer =
      serialize t >>= fun w => sexpToBytesLoop stack (buffer ++ w) := by
  induction t generalizing stack buffer with
  | atom data =>
    rw [sexpToBytesLoop, serialize, writeAtom]
    split_ifs
    · rfl
    · rfl
    · cases encodeSize data.length with
      | error e => rfl
      | ok lead => simp only [bind_ok, append_assoc]
  | pair first rest ihfirst ihrest =>
    rw [sexpToBytesLoop, ihfirst, serialize]
    cases serialize first with
    | error e => rfl
    | ok front =>
      simp only [bind_ok, ihrest]
      cases serialize rest with
      | error e => rfl
      | ok back => simp only [bind_ok, append_assoc, cons_append, nil_append]

theorem sexpToBytes_eq_serialize : sexpToBytes t = serialize t := by
  rw [sexpToBytes, sexpToBytesLoop_cons]
  cases serialize t with
  | error e => rfl
  | ok w => simp [sexpToBytesLoop]

theorem serialize_pair_eq_ok {first rest : SExp} :
    serialize (.pair first rest) = .ok w ↔
      ∃ front back, serialize first = .ok front ∧ serialize rest = .ok back ∧
        w = consBoxMarker :: (front ++ back) := by
  rw [serialize]
  constructor
  · intro h
    obtain ⟨front, hfront, h⟩ := bind_eq_ok.mp h
    obtain ⟨back, hback, h⟩ := bind_eq_ok.mp h
    cases h
    exact ⟨front, back, hfront, hback, rfl⟩
  · rintro ⟨front, back, hfront, hback, rfl⟩
    rw [hfront, hback]
    rfl

/-- An atom the serializer accepts is written as a token for it. -/
theorem atomToken_of_writeAtom (hwrite : writeAtom data = .ok token) :
    AtomToken token data := by
  rw [writeAtom] at hwrite
  split_ifs at hwrite with hnil hone
  · cases hwrite
    exact hnil ▸ .nil
  · cases hwrite
    obtain ⟨hlength, hle⟩ := hone
    obtain ⟨b, rfl⟩ := length_eq_one_iff.mp hlength
    exact .byte b hle
  · obtain ⟨lead, hencode, hwrite⟩ := bind_eq_ok.mp hwrite
    cases hwrite
    obtain ⟨hsize, first, tail, rfl, hspells, hwidth⟩ :=
      encodeSize_eq_ok hencode
    have hpos : 0 < data.length := length_pos_iff.mpr hnil
    have hne : first ≠ 0x80 := by
      rintro rfl
      have hvalue := hspells.value
      have htail : tail = [] := by
        have := hspells.width
        rw [show leadingOnes 0x80 = 1 by decide] at this
        exact length_eq_zero_iff.mp (by omega)
      rw [htail, show sizeBits 0x80 = 0 by decide] at hvalue
      simp [beNat] at hvalue
      omega
    have hsix : leadingOnes first ≤ 6 := by
      have := sizeWidth_le data.length
      omega
    exact .sized first tail data hne hsix hsize hspells

theorem writeAtom_ok (hsize : data.length < maxDecodeSize) :
    ∃ token, writeAtom data = .ok token := by
  rw [writeAtom]
  split_ifs
  · exact ⟨_, rfl⟩
  · exact ⟨_, rfl⟩
  · rw [encodeSize_eq hsize]
    exact ⟨_, rfl⟩

/-- What the serializer writes is the concrete syntax of the tree. -/
theorem reads_of_serialize (hwrite : serialize t = .ok w) : Reads w t := by
  induction t generalizing w with
  | atom data => exact .atom (atomToken_of_writeAtom hwrite)
  | pair first rest ihfirst ihrest =>
    obtain ⟨front, back, hfront, hback, rfl⟩ := serialize_pair_eq_ok.1 hwrite
    exact .pair (ihfirst hfront) (ihrest hback)

/-- Every tree with short enough atoms is written. -/
theorem serialize_ok (hatoms : t.Encodable) : ∃ w, serialize t = .ok w := by
  induction t with
  | atom data => exact writeAtom_ok (hatoms data (by simp [SExp.atoms]))
  | pair first rest ihfirst ihrest =>
    obtain ⟨front, hfront⟩ := ihfirst fun data hdata =>
      hatoms data (by simp [SExp.atoms, hdata])
    obtain ⟨back, hback⟩ := ihrest fun data hdata =>
      hatoms data (by simp [SExp.atoms, hdata])
    exact ⟨_, serialize_pair_eq_ok.2 ⟨front, back, hfront, hback, rfl⟩⟩

/-- The atom tokens of a serialized expression, whatever their lengths. -/
def atomTokens (bytes : Bytes) : List Bytes :=
  anyAtoms.tokens 1 bytes

/-- A one-byte atom spelled with a size prefix although it stands for
itself. -/
def RedundantToken (token : Bytes) : Prop :=
  ∃ x, x ≤ maxSingleByte ∧ token = [0x81, x]

theorem clvmLexer_restricts : clvmLexer.Restricts anyAtoms where
  marker := rfl
  len := atomTokenLen_any

/-- The token of an atom is delimited when its length is accepted. -/
theorem AtomToken.len_eq (hlead : lead ≠ 0x80) (hwidth : leadingOnes lead ≤ 6)
    (hspells : IsSizePrefix lead tail data.length) :
    atomTokenLen accept (lead :: (tail ++ data)) =
        some (lead :: (tail ++ data)).length ↔
      accept (leadingOnes lead) data.length = true := by
  have hlength : (lead :: (tail ++ data)).length =
      leadingOnes lead + data.length := by
    rw [length_cons, length_append, ← hspells.width]
    omega
  have hhigh : ¬ lead ≤ 0x80 := by
    rw [le_high_iff, not_or]
    exact ⟨hlead, (high_iff_not_le_single lead).mp hspells.high⟩
  rw [atomTokenLen_sized accept data hhigh hwidth hspells, hlength]
  split_ifs with haccept
  · simp [haccept]
  · simp [haccept]

theorem AtomToken.len_short {b : UInt8}
    (hb : b ≤ 0x80) : atomTokenLen accept [b] = some [b].length :=
  atomTokenLen_low hb

theorem AtomToken.len_all (htoken : AtomToken token data) :
    atomTokenLen (fun _ _ => true) token = some token.length := by
  cases htoken with
  | nil => exact len_short (by decide)
  | byte b hb => exact len_short (le_high_iff.2 (.inr hb))
  | sized lead tail data hlead hwidth hsize hspells =>
    exact (len_eq hlead hwidth hspells).mpr rfl

theorem Reads.expr (hreads : Reads w t) : anyAtoms.Expr w := by
  induction hreads with
  | atom htoken => exact .token htoken.len_all
  | pair _ _ ihfirst ihrest => exact .pair ihfirst ihrest

/-- A parsed token is the one the serializer writes exactly when its prefix is
minimal and it is not a redundant one-byte token. -/
theorem AtomToken.writeAtom_iff (htoken : AtomToken token data) :
    writeAtom data = .ok token ↔
      atomTokenLen clvmAccepts token = some token.length ∧
        ¬ RedundantToken token := by
  cases htoken with
  | nil =>
    refine iff_of_true rfl ⟨len_short (by decide), ?_⟩
    rintro ⟨x, -, heq⟩
    cases heq
  | byte b hb =>
    refine iff_of_true ?_ ⟨len_short (le_high_iff.2 (.inr hb)), ?_⟩
    · rw [writeAtom, if_neg (by simp), if_pos ⟨rfl, hb⟩]
      rfl
    · rintro ⟨x, -, heq⟩
      cases heq
  | sized lead tail data hlead hwidth hsize hspells =>
    rw [len_eq hlead hwidth hspells, clvmAccepts, decide_eq_true_iff, writeAtom]
    have hpos := (leadingOnes_pos_iff lead).mpr hspells.high
    have hwidthLength := hspells.width
    split_ifs with hnil hone
    · -- an empty atom behind a size prefix
      refine iff_of_false (fun heq => ?_) fun h => ?_
      · exact hlead (cons.inj (Except.ok.inj heq)).1.symm
      · have := widthFloor_pos hpos
        rw [hnil, length_nil] at h
        omega
    · -- a one-byte atom that stands for itself
      obtain ⟨hlength, hsmall⟩ := hone
      obtain ⟨x, rfl⟩ := length_eq_one_iff.mp hlength
      refine iff_of_false (fun heq => ?_) fun h => h.2 ?_
      · have := congrArg length (Except.ok.inj heq)
        simp at this
      · have hone := eq_one_of_widthFloor_le_one hpos h.1
        obtain rfl : tail = [] := length_eq_zero_iff.mp (by omega)
        have hvalue : (sizeBits lead).toNat = 1 := by
          simpa [beNat] using hspells.value
        have hlead := (prefixByte_table lead).2.2.1 hone hvalue
        exact ⟨x, hsmall, by rw [hlead]; rfl⟩
    · constructor
      · intro hwrite
        obtain ⟨lead', hencode, hwrite⟩ := bind_eq_ok.mp hwrite
        have heq : lead' = lead :: tail := by
          have hcat := Except.ok.inj hwrite
          rw [← cons_append] at hcat
          exact append_cancel_right hcat
        rw [heq] at hencode
        refine ⟨widthFloor_le_of_encodeSize (length_pos_iff.mpr hnil)
          hencode, ?_⟩
        rintro ⟨x, hx, htoken⟩
        obtain ⟨rfl, hcat⟩ := cons.inj htoken
        rw [show leadingOnes 0x81 = 1 by decide] at hwidthLength
        obtain rfl : tail = [] := length_eq_zero_iff.mp (by omega)
        rw [nil_append] at hcat
        exact hone (by simp [hcat, hx])
      · rintro ⟨hfloor, -⟩
        rw [hspells.eq_encodeSize hwidth hsize hfloor]
        rfl

/-- A parsed expression is written back unchanged exactly when each of its
tokens is. -/
theorem Reads.serialize_iff (hreads : Reads w t) :
    serialize t = .ok w ↔ ∀ token ∈ atomTokens w,
      atomTokenLen clvmAccepts token = some token.length ∧
        ¬ RedundantToken token := by
  induction hreads with
  | atom htoken =>
    have htokens := anyAtoms.tokens_singleton htoken.len_all
    rw [atomTokens, htokens, forall_mem_singleton]
    exact htoken.writeAtom_iff
  | @pair front back first rest hfirst hrest ihfirst ihrest =>
    have htokens : atomTokens (consBoxMarker :: (front ++ back)) =
        atomTokens front ++ atomTokens back := by
      rw [atomTokens]
      exact anyAtoms.tokens_marker.trans (anyAtoms.tokens_expr hfirst.expr)
    rw [htokens, forall_mem_append, ← ihfirst, ← ihrest, serialize_pair_eq_ok]
    constructor
    · rintro ⟨front', back', hfront, hback, heq⟩
      have heq := (cons.inj heq).2
      obtain ⟨rfl, -⟩ := hfirst.unique (reads_of_serialize hfront) heq
      have hsame := append_cancel_left heq
      exact ⟨hfront, hsame ▸ hback⟩
    · rintro ⟨hfront, hback⟩
      exact ⟨front, back, hfront, hback, rfl⟩

/-- What is written is canonical. -/
theorem isClvmCanonical_of_serialize
    (hwrite : serialize t = .ok w) : isClvmCanonical w = true := by
  have hreads := reads_of_serialize hwrite
  rw [isClvmCanonical_iff, clvmLexer_restricts.expr_iff]
  exact ⟨hreads.expr, fun token hmem =>
    (hreads.serialize_iff.mp hwrite token hmem).1⟩

/-- The plain serialization is read back in front of any suffix, with the
cursor at the suffix; and a byte string that parses completely is written back
unchanged exactly when it is canonical and has no redundant token. -/
theorem sexpToBytes_prefixFree_bijection :
    (∀ t : SExp, t.Encodable → ∀ suffix : Bytes, ∃ w, sexpToBytes t = .ok w ∧
        sexpFromBytes ⟨w ++ suffix, 0⟩ = .ok (t, ⟨w ++ suffix, w.length⟩)) ∧
    ∀ (b : Bytes) (t : SExp), b ≠ [] →
      sexpFromBytes ⟨b, 0⟩ = .ok (t, ⟨b, b.length⟩) →
        (sexpToBytes t = .ok b ↔
          isClvmCanonical b = true ∧
            ∀ token ∈ atomTokens b, ¬ RedundantToken token) := by
  constructor
  · intro t hatoms suffix
    obtain ⟨w, hwrite⟩ := serialize_ok hatoms
    have hreads := reads_of_serialize hwrite
    have hne : (⟨w ++ suffix, 0⟩ : Cursor).rest ≠ [] := by simp [hreads.ne_nil]
    refine ⟨w, sexpToBytes_eq_serialize.trans hwrite, ?_⟩
    exact (sexpFromBytes_eq_ok hne).mpr ⟨w, suffix, hreads, rfl, by
      simp [Cursor.advance]⟩
  · intro b t hne hparse
    have hstart : (⟨b, 0⟩ : Cursor).rest ≠ [] := hne
    obtain ⟨w, back, hreads, hrest, hnext⟩ :=
      (sexpFromBytes_eq_ok hstart).mp hparse
    have hlength : b.length = w.length := by simpa [Cursor.advance] using hnext
    have hback : back = [] := by
      have := congrArg length hrest
      simp only [Cursor.rest_start, length_append] at this
      exact length_eq_zero_iff.mp (by omega)
    have hwhole : w = b := by simpa [hback] using hrest.symm
    subst hwhole
    rw [sexpToBytes_eq_serialize, hreads.serialize_iff, isClvmCanonical_iff,
      clvmLexer_restricts.expr_iff]
    constructor
    · intro hall
      exact ⟨⟨hreads.expr, fun token hmem => (hall token hmem).1⟩,
        fun token hmem => (hall token hmem).2⟩
    · rintro ⟨⟨-, hlen⟩, hredundant⟩ token hmem
      exact ⟨hlen token hmem, hredundant token hmem⟩

/-- Both halves at `(1 . nil)` and its three bytes. -/
theorem sexpToBytes_prefixFree_bijection_at_pair :
    (SExp.pair (.atom [1]) .nil).Encodable ∧
    (∃ w, sexpToBytes (.pair (.atom [1]) .nil) = .ok w ∧
      sexpFromBytes ⟨w ++ [0xff], 0⟩ =
        .ok (.pair (.atom [1]) .nil, ⟨w ++ [0xff], w.length⟩)) ∧
    sexpFromBytes ⟨[0xff, 0x01, 0x80], 0⟩ =
      .ok (.pair (.atom [1]) .nil, ⟨[0xff, 0x01, 0x80], 3⟩) ∧
    (sexpToBytes (.pair (.atom [1]) .nil) = .ok [0xff, 0x01, 0x80] ↔
      isClvmCanonical [0xff, 0x01, 0x80] = true ∧
        ∀ token ∈ atomTokens [0xff, 0x01, 0x80], ¬ RedundantToken token) := by
  have hatoms : (SExp.pair (.atom [1]) .nil).Encodable := by decide
  have hparse : sexpFromBytes ⟨[0xff, 0x01, 0x80], 0⟩ =
      .ok (.pair (.atom [1]) .nil, ⟨[0xff, 0x01, 0x80], 3⟩) := by
    decide +kernel
  exact ⟨hatoms, sexpToBytes_prefixFree_bijection.1 _ hatoms [0xff], hparse,
    sexpToBytes_prefixFree_bijection.2 _ _ (by simp) hparse⟩

end DgXch
