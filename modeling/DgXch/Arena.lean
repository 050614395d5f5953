/-
The CLVM node arena (`clvm/arena.rs`): handles into a byte heap, an atom pool
and a pair pool, small integers kept in the handle itself, and ghost counters
for what was not stored.  Each operation of a sound arena fails and leaves it
alone, or extends the pools, counts one node more, and returns a handle of
exactly what was asked for; only an import can stop half way.  Sizes are natural
numbers; the bounds of a span are cast to 32 bits where the source casts them.
-/
import DgXch.ByteStream

namespace DgXch

open BigEndian

def maxNumAtoms : Nat := 62500000

def maxNumPairs : Nat := 62500000

def nodePtrIdxBits : Nat := 26

/-- `HEAP_LIMIT`, the last `u32`. -/
def heapLimit : Nat := 2 ^ 32 - 1

def internMinAtomBytes : Nat := 32

inductive ObjectType where
  | pair
  | bytes
  | smallAtom
deriving Repr, DecidableEq

/-- `NodePtr`: an object type and an index, or the value of a small atom. -/
structure NodePtr where
  objectType : ObjectType
  index : Nat
deriving Repr, DecidableEq

namespace NodePtr

def nil : NodePtr := ⟨.smallAtom, 0⟩

def one : NodePtr := ⟨.smallAtom, 1⟩

end NodePtr

inductive NodeKind where
  | atom
  | pair (first rest : NodePtr)
deriving Repr, DecidableEq

structure AtomSpan where
  start : Nat
  stop : Nat
deriving Repr, DecidableEq

/-- `AtomSpan::len`, a wrapping difference. -/
def AtomSpan.len (span : AtomSpan) : Nat :=
  (span.stop + 2 ^ 32 - span.start) % 2 ^ 32

structure IntPair where
  first : NodePtr
  rest : NodePtr
deriving Repr, DecidableEq

def fitsInSmallAtom (v : Bytes) : Option Nat :=
  match v with
  | [] => some 0
  | first :: tail =>
    if 4 < v.length ∨ (v.length = 1 ∧ first = 0) ∨ first &&& 0x80 ≠ 0 ∨
        (first = 0 ∧ tail.headD 0 &&& 0x80 = 0) ∨
        (v.length = 4 ∧ 3 < first)
    then none
    else some (beNat v)

def lenForValue (val : Nat) : Nat :=
  if val = 0 then 0
  else if val < 0x80 then 1
  else if val < 0x8000 then 2
  else if val < 0x800000 then 3
  else if val < 0x80000000 then 4
  else 5

/-- The bytes of a small atom: the end of its four big-endian bytes. -/
def smallAtomBytes (val : Nat) : Bytes :=
  (beBytes 4 val).drop (4 - lenForValue val)

/-- The three pools of an arena. -/
structure Pools where
  u8Vec : Bytes
  pairVec : List IntPair
  atomVec : List AtomSpan
deriving Repr, DecidableEq

/-- `Arena`.  The intern map has its latest entries first. -/
structure Arena extends Pools where
  atomIntern : List (Bytes × NodePtr)
  ghostAtoms : Nat
  ghostPairs : Nat
  ghostHeap : Nat
deriving Repr, DecidableEq

structure Checkpoint where
  heap : Nat
  pairs : Nat
  atoms : Nat
deriving Repr, DecidableEq

/-- A CLVM result, or a panic. -/
abbrev ArenaResult := Except (Fault ClvmError)

/-- How an operation on an arena ends, and the arena it leaves. -/
abbrev ArenaOutcome := ArenaResult NodePtr × Arena

/-- `&bytes[start..stop]`. -/
def sliceRange (bytes : Bytes) (start stop : Nat) : ArenaResult Bytes :=
  if start ≤ stop ∧ stop ≤ bytes.length then
    .ok ((bytes.drop start).take (stop - start))
  else .error (.panic "range out of bounds")

def indexVec {A : Type} (vec : List A) (index : Nat) : ArenaResult A :=
  match vec[index]? with
  | some item => .ok item
  | none => .error (.panic "index out of bounds")

namespace Arena

/-- `Arena::new`: two ghost atoms and a ghost byte stand for nil and one. -/
def new : Arena := ⟨⟨[], [], []⟩, [], 2, 0, 1⟩

variable (a : Arena)

def checkpoint : Checkpoint :=
  ⟨a.u8Vec.length, a.pairVec.length, a.atomVec.length⟩

def restore (cp : Checkpoint) : Arena where
  u8Vec := a.u8Vec.take cp.heap
  pairVec := a.pairVec.take cp.pairs
  atomVec := a.atomVec.take cp.atoms
  atomIntern := []
  ghostHeap := a.ghostHeap + (a.u8Vec.length - cp.heap)
  ghostPairs := a.ghostPairs + (a.pairVec.length - cp.pairs)
  ghostAtoms := a.ghostAtoms + (a.atomVec.length - cp.atoms)

/-- Keep the old arena when an operation fails. -/
def attempt (result : ArenaResult (NodePtr × Arena)) : ArenaOutcome :=
  match result with
  | .ok (node, a') => (.ok node, a')
  | .error fault => (.error fault, a)

def checkAtomLimit : ArenaResult Unit :=
  if a.atomVec.length + a.ghostAtoms = maxNumAtoms then
    .error (.error .tooManyAtoms)
  else .ok ()

/-- Refuse what would take the heap past its limit. -/
def checkHeapLimit (size : Nat) : ArenaResult Unit :=
  if heapLimit < a.u8Vec.length + a.ghostHeap + size then
    .error (.error .outOfMemory)
  else .ok ()

/-- Count an atom, and some bytes, that are not stored. -/
def addGhost (size : Nat) : Arena :=
  { a with ghostAtoms := a.ghostAtoms + 1, ghostHeap := a.ghostHeap + size }

variable (v : Bytes)

/-- Append bytes to the heap and a span over them to the atom pool. -/
def pushBytes : NodePtr × Arena :=
  (⟨.bytes, a.atomVec.length⟩,
    { a with
      u8Vec := a.u8Vec ++ v
      atomVec := a.atomVec ++
        [⟨a.u8Vec.length % 2 ^ 32, (a.u8Vec.length + v.length) % 2 ^ 32⟩] })

/-- Store an atom, and its bytes in the intern map if they are long. -/
def storeAtom : NodePtr × Arena :=
  let (node, a') := a.pushBytes v
  (node, if internMinAtomBytes ≤ v.length then
    { a' with atomIntern := (v, node) :: a'.atomIntern } else a')

/-- The node that shares the bytes of a long atom. -/
def interned : Option NodePtr :=
  if internMinAtomBytes ≤ v.length then a.atomIntern.lookup v else none

def newAtom : ArenaOutcome :=
  a.attempt do
    a.checkHeapLimit v.length
    a.checkAtomLimit
    match fitsInSmallAtom v with
    | some val => .ok (⟨.smallAtom, val⟩, a.addGhost v.length)
    | none =>
      match a.interned v with
      | some existing => .ok (existing, a.addGhost v.length)
      | none => .ok (a.storeAtom v)

def newPair (first rest : NodePtr) : ArenaOutcome :=
  if maxNumPairs - a.ghostPairs ≤ a.pairVec.length then
    (.error (.error .tooManyPairs), a)
  else
    (.ok ⟨.pair, a.pairVec.length⟩,
      { a with pairVec := a.pairVec ++ [⟨first, rest⟩] })

def boundsCheck (start stop len : Nat) : ArenaResult Unit :=
  if len < start then
    .error (.error (.invalidInput ("substr start out of bounds: " ++
      toString start ++ " is > " ++ toString len)))
  else if len < stop then
    .error (.error (.invalidInput ("substr end out of bounds: " ++
      toString stop ++ " is > " ++ toString len)))
  else if stop < start then
    .error (.error (.invalidInput ("substr invalid bounds: " ++
      toString start ++ " is > " ++ toString stop)))
  else .ok ()

/-- `Arena::new_substr` of a stored atom: a new span over its bytes. -/
def substrOfSpan (atom : AtomSpan) (start stop : UInt32) :
    ArenaResult (NodePtr × Arena) := do
  boundsCheck start.toNat stop.toNat atom.len
  .ok (⟨.bytes, a.atomVec.length⟩,
    { a with atomVec := a.atomVec ++
      [⟨(atom.start + start.toNat) % 2 ^ 32,
        (atom.start + stop.toNat) % 2 ^ 32⟩] })

/-- `Arena::new_substr` of a small atom.  The bytes that are cut from it are
appended without a look at the heap limit. -/
def substrOfSmall (val : Nat) (start stop : UInt32) :
    ArenaResult (NodePtr × Arena) := do
  boundsCheck start.toNat stop.toNat (lenForValue val)
  let substr ← sliceRange (smallAtomBytes val) start.toNat stop.toNat
  match fitsInSmallAtom substr with
  | some newVal => .ok (⟨.smallAtom, newVal⟩, a.addGhost 0)
  | none => .ok (a.pushBytes substr)

variable (node : NodePtr)

def newSubstr (start stop : UInt32) : ArenaOutcome :=
  a.attempt do
    a.checkAtomLimit
    match node.objectType with
    | .pair => .error (.error (.expectedAtomGotPairText "substr on pair"))
    | .bytes =>
      let atom ← indexVec a.atomVec node.index
      a.substrOfSpan atom start stop
    | .smallAtom => a.substrOfSmall node.index start stop

def atom : ArenaResult (Option Bytes) :=
  match node.objectType with
  | .bytes => do
      let span ← indexVec a.atomVec node.index
      let bytes ← sliceRange a.u8Vec span.start span.stop
      .ok (some bytes)
  | .smallAtom => .ok (some (smallAtomBytes node.index))
  | .pair => .ok none

def atomLen : ArenaResult (Option Nat) :=
  match node.objectType with
  | .bytes => do
      let span ← indexVec a.atomVec node.index
      .ok (some span.len)
  | .smallAtom => .ok (some (lenForValue node.index))
  | .pair => .ok none

def number : ArenaResult (Option SExpNumber) :=
  match node.objectType with
  | .smallAtom => .ok (some (.i128 (BitVec.ofNat 128 node.index)))
  | .bytes => do
      let span ← indexVec a.atomVec node.index
      let buf ← sliceRange a.u8Vec span.start span.stop
      .ok (some (SExpNumber.ofBytes buf))
  | .pair => .ok none

def nodeKind : ArenaResult NodeKind :=
  match node.objectType with
  | .pair => do
      let pair ← indexVec a.pairVec node.index
      .ok (.pair pair.first pair.rest)
  | .bytes | .smallAtom => .ok .atom

def invalidNewSize {A : Type} : ArenaResult A :=
  .error (.error (.invalidInput "concat passed invalid new_size"))

def concatOnPair {A : Type} : ArenaResult A :=
  .error (.error (.expectedAtomGotPairText "concat on pair"))

/-- The loop of `new_concat`: the heap and the bytes appended so far. -/
def concatLoop (a : Arena) (newSize : Nat) :
    List NodePtr → Bytes → Nat → ArenaResult (Bytes × Nat)
  | [], heap, counter => .ok (heap, counter)
  | node :: nodes, heap, counter =>
    match node.objectType with
    | .pair => concatOnPair
    | .bytes => do
        let term ← indexVec a.atomVec node.index
        if newSize < counter + term.len then invalidNewSize
        else do
          let bytes ← sliceRange heap term.start term.stop
          concatLoop a newSize nodes (heap ++ bytes) (counter + term.len)
    | .smallAtom =>
      concatLoop a newSize nodes (heap ++ smallAtomBytes node.index)
        (counter + lenForValue node.index)

def newConcat (newSize : Nat) (nodes : List NodePtr) : ArenaOutcome :=
  a.attempt do
    a.checkAtomLimit
    a.checkHeapLimit newSize
    match nodes with
    | [] => if newSize ≠ 0 then invalidNewSize else .ok (.nil, a.addGhost 0)
    | [node] =>
      match ← a.atomLen node with
      | none => concatOnPair
      | some len =>
        if len ≠ newSize then invalidNewSize
        else .ok (node, a.addGhost newSize)
    | nodes => do
        let (heap, counter) ← concatLoop a newSize nodes a.u8Vec 0
        if counter ≠ newSize then invalidNewSize
        else
          .ok (⟨.bytes, a.atomVec.length⟩,
            { a with
              u8Vec := heap
              atomVec := a.atomVec ++
                [⟨a.u8Vec.length % 2 ^ 32, heap.length % 2 ^ 32⟩] })

def newNumber (n : SExpNumber) : ArenaOutcome := a.newAtom n.bytes

end Arena

/-- The jobs of `Arena::import`. -/
inductive ImportJob where
  | visit (sexp : SExp)
  | build
deriving Repr, DecidableEq

/-- The turns that a job takes. -/
def ImportJob.weight : ImportJob → Nat
  | .visit sexp => 2 * sexp.size
  | .build => 1

/-- The loop of `Arena::import`; the stacks have their top first. -/
def Arena.importLoop : List ImportJob → List NodePtr → Arena → ArenaOutcome
  | [], out, a =>
    match out with
    | node :: _ => (.ok node, a)
    | [] => (.error (.error .valueStackEmpty), a)
  | .visit (.atom data) :: jobs, out, a =>
    match a.newAtom data with
    | (.ok node, a') => importLoop jobs (node :: out) a'
    | (.error fault, a') => (.error fault, a')
  | .visit (.pair first rest) :: jobs, out, a =>
    importLoop (.visit first :: .visit rest :: .build :: jobs) out a
  | .build :: jobs, out, a =>
    match out with
    | rest :: first :: out =>
      match a.newPair first rest with
      | (.ok node, a') => importLoop jobs (node :: out) a'
      | (.error fault, a') => (.error fault, a')
    | _ => (.error (.error .valueStackEmpty), a)
termination_by jobs => (jobs.map ImportJob.weight).sum
decreasing_by
  all_goals simp [ImportJob.weight, SExp.size]
  all_goals omega

def Arena.importTree (a : Arena) (sexp : SExp) : ArenaOutcome :=
  Arena.importLoop [.visit sexp] [] a

/-- The jobs of `Arena::export`. -/
inductive ExportJob where
  | visit (node : NodePtr)
  | build
deriving Repr, DecidableEq

/-- The loop of `Arena::export`, for a number of turns: `none` if they do not
suffice. -/
def Arena.exportLoop (a : Arena) :
    Nat → List ExportJob → List SExp → Option (ArenaResult SExp)
  | _, [], out =>
    match out with
    | tree :: _ => some (.ok tree)
    | [] => some (.error (.panic "export produced a node"))
  | 0, _ :: _, _ => none
  | turns + 1, .visit node :: jobs, out =>
    match a.nodeKind node with
    | .error fault => some (.error fault)
    | .ok (.pair first rest) =>
      a.exportLoop turns (.visit first :: .visit rest :: .build :: jobs) out
    | .ok .atom =>
      match a.atom node with
      | .error fault => some (.error fault)
      | .ok none => some (.error (.panic "node_kind atom has bytes"))
      | .ok (some bytes) => a.exportLoop turns jobs (.atom bytes :: out)
  | turns + 1, .build :: jobs, out =>
    match out with
    | rest :: first :: out => a.exportLoop turns jobs (.pair first rest :: out)
    | _ => some (.error (.panic "build has rest"))

/-- `Arena::export` within a number of turns. -/
def Arena.exportTree (a : Arena) (turns : Nat) (node : NodePtr) :
    Option (ArenaResult SExp) :=
  a.exportLoop turns [.visit node] []

def Arena.counters (a : Arena) : Nat × Nat × Nat :=
  (a.atomVec.length + a.ghostAtoms, a.pairVec.length + a.ghostPairs,
    a.u8Vec.length + a.ghostHeap)

open TwosComplement List DgXch.Except Arena Nat

variable {v : Bytes} {data : Bytes} {trees : List SExp} {A : Type}
  {start stop : Nat} {left right : SExp} {val : Nat} {node : NodePtr}
  {nodes : List NodePtr}

/-- The tree that a handle denotes in some pools. -/
inductive Denotes (p : Pools) : NodePtr → SExp → Prop
  | small {val : Nat} (hval : val < 2 ^ nodePtrIdxBits) :
      Denotes p ⟨.smallAtom, val⟩ (.atom (smallAtomBytes val))
  | bytes {index : Nat} {span : AtomSpan}
      (hspan : p.atomVec[index]? = some span)
      (hle : span.start ≤ span.stop) (hstop : span.stop ≤ p.u8Vec.length) :
      Denotes p ⟨.bytes, index⟩
        (.atom ((p.u8Vec.drop span.start).take (span.stop - span.start)))
  | pair {index : Nat} {first rest : NodePtr} {left right : SExp}
      (hpair : p.pairVec[index]? = some ⟨first, rest⟩)
      (hfirst : Denotes p first left) (hrest : Denotes p rest right) :
      Denotes p ⟨.pair, index⟩ (.pair left right)

/-- Pools that only had something appended. -/
structure Pools.Le (p p' : Pools) : Prop where
  u8Vec : p.u8Vec <+: p'.u8Vec
  pairVec : p.pairVec <+: p'.pairVec
  atomVec : p.atomVec <+: p'.atomVec

theorem Pools.Le.refl (p : Pools) : p.Le p :=
  ⟨prefix_rfl, prefix_rfl, prefix_rfl⟩

theorem Pools.Le.trans {p q r : Pools} (hpq : p.Le q) (hqr : q.Le r) : p.Le r :=
  ⟨hpq.u8Vec.trans hqr.u8Vec, hpq.pairVec.trans hqr.pairVec,
    hpq.atomVec.trans hqr.atomVec⟩

variable {a : Arena}

section Reading

variable {p p' : Pools} {t t' : SExp} {front whole : List A}

theorem getElem?_of_isPrefixOf (hbegins : front <+: whole) {i : Nat} {item : A}
    (hitem : front[i]? = some item) : whole[i]? = some item := by
  obtain ⟨back, rfl⟩ := hbegins
  rw [List.getElem?_append_left (List.getElem?_eq_some_iff.mp hitem).1, hitem]

/-- A slice of a list is the slice of every extension of it. -/
theorem slice_of_prefix (hbegins : front <+: whole) (hle : start ≤ stop)
    (hstop : stop ≤ front.length) :
    (whole.drop start).take (stop - start) =
      (front.drop start).take (stop - start) := by
  obtain ⟨back, rfl⟩ := hbegins
  rw [drop_append_of_le_length (le_trans hle hstop), take_append_of_le_length]
  rw [length_drop]
  omega

/-- Appending to the pools does not change what a handle denotes. -/
theorem Denotes.mono (hdenotes : Denotes p node t) (hle : p.Le p') :
    Denotes p' node t := by
  induction hdenotes with
  | small hval => exact .small hval
  | bytes hspan hstart hstop =>
    rw [← slice_of_prefix hle.u8Vec hstart hstop]
    exact .bytes (getElem?_of_isPrefixOf hle.atomVec hspan) hstart
      (le_trans hstop hle.u8Vec.length_le)
  | pair hpair _ _ ihfirst ihrest =>
    exact .pair (getElem?_of_isPrefixOf hle.pairVec hpair) ihfirst ihrest

theorem indexVec_of_some {vec : List A} {index : Nat} {item : A}
    (hitem : vec[index]? = some item) : indexVec vec index = .ok item := by
  rw [indexVec, hitem]

theorem sliceRange_of_le {bytes : Bytes} (hle : start ≤ stop)
    (hstop : stop ≤ bytes.length) :
    sliceRange bytes start stop =
      .ok ((bytes.drop start).take (stop - start)) :=
  if_pos ⟨hle, hstop⟩

/-- A handle of an atom is read back as its bytes. -/
theorem Denotes.atom_eq (hdenotes : Denotes a.toPools node (.atom data)) :
    a.atom node = .ok (some data) := by
  cases hdenotes with
  | small hval => rfl
  | bytes hspan hle hstop =>
    rw [atom]
    simp only [indexVec_of_some hspan, bind_ok, sliceRange_of_le hle hstop]

theorem Denotes.nodeKind_eq_atom
    (hdenotes : Denotes a.toPools node (.atom data)) :
    a.nodeKind node = .ok .atom := by
  cases hdenotes <;> rfl

/-- A handle of a pair is read back as two handles of its parts. -/
theorem Denotes.nodeKind_eq_pair
    (hdenotes : Denotes a.toPools node (.pair left right)) :
    ∃ first rest, a.nodeKind node = .ok (.pair first rest) ∧
      Denotes a.toPools first left ∧ Denotes a.toPools rest right := by
  cases hdenotes with
  | pair hpair hfirst hrest =>
    refine ⟨_, _, ?_, hfirst, hrest⟩
    rw [nodeKind]
    simp only [indexVec_of_some hpair, bind_ok]

def SExp.exportTurns : SExp → Nat
  | .atom _ => 1
  | .pair first rest => first.exportTurns + rest.exportTurns + 2

/-- The loop of the export consumes a handle and pushes its tree. -/
theorem exportLoop_visit (hdenotes : Denotes a.toPools node t) (turns : Nat)
    (jobs : List ExportJob) (out : List SExp) :
    a.exportLoop (turns + t.exportTurns) (.visit node :: jobs) out =
      a.exportLoop turns jobs (t :: out) := by
  induction t generalizing node turns jobs out with
  | atom data =>
    rw [SExp.exportTurns, exportLoop]
    simp only [hdenotes.nodeKind_eq_atom, hdenotes.atom_eq]
  | pair left right ihleft ihright =>
    obtain ⟨first, rest, hkind, hfirst, hrest⟩ := hdenotes.nodeKind_eq_pair
    have hturns : turns + (SExp.pair left right).exportTurns =
        turns + 1 + right.exportTurns + left.exportTurns + 1 := by
      rw [SExp.exportTurns]
      omega
    rw [hturns, exportLoop]
    simp only [hkind]
    rw [ihleft hfirst, ihright hrest, exportLoop]

/-- A handle is exported as the tree it denotes. -/
theorem Denotes.exportTree_eq (hdenotes : Denotes a.toPools node t)
    {turns : Nat} (hturns : t.exportTurns ≤ turns) :
    a.exportTree turns node = some (.ok t) := by
  obtain ⟨more, rfl⟩ := Nat.exists_eq_add_of_le' hturns
  rw [exportTree, exportLoop_visit hdenotes, exportLoop]

end Reading

section SmallAtoms

/-- The number of bytes of a canonical number, by its first two bytes. -/
theorem lenForValue_beNat {first : UInt8} {tail : Bytes}
    (hlength : tail.length ≤ 3) (hsign : first.toNat < 128)
    (hzero : first.toNat = 0 → 128 ≤ (tail.headD 0).toNat) :
    lenForValue (beNat (first :: tail)) = (first :: tail).length := by
  have hbyte (b : UInt8) : b.toNat < 256 := b.toNat_lt
  rcases tail with - | ⟨second, - | ⟨third, - | ⟨fourth, - | ⟨fifth, tail⟩⟩⟩⟩
  all_goals
    simp only [beNat_cons, beNat_nil, length_cons, length_nil,
      headD_cons, headD_nil] at *
  · have := hbyte first
    have hpos : first.toNat ≠ 0 := fun h => absurd (hzero h) (by decide)
    simp only [lenForValue]
    split_ifs <;> omega
  · have := hbyte second
    simp only [lenForValue]
    split_ifs <;> omega
  · have := hbyte second
    have := hbyte third
    simp only [lenForValue]
    split_ifs <;> omega
  · have := hbyte second
    have := hbyte third
    have := hbyte fourth
    simp only [lenForValue]
    split_ifs <;> omega
  · omega

/-- Four big-endian bytes of a shorter number are that number behind zeros. -/
theorem drop_beBytes_beNat (hlength : v.length ≤ 4) :
    (beBytes 4 (beNat v)).drop (4 - v.length) = v := by
  have hzeros (count : Nat) : beNat (List.replicate count 0) = 0 := by
    induction count with
    | zero => rfl
    | succ count ih => rw [replicate_succ, beNat_zero_cons, ih]
  have hpadded := beBytes_beNat (List.replicate (4 - v.length) 0 ++ v) 0
  rw [beNat_append, hzeros, length_append, length_replicate,
    Nat.sub_add_cancel hlength] at hpadded
  simp only [Nat.zero_mul, zero_add] at hpadded
  rw [hpadded, drop_left' (by simp)]

/-- A small atom is the handle of exactly the bytes it was made from. -/
theorem fitsInSmallAtom_eq_some (hfits : fitsInSmallAtom v = some val) :
    val < 2 ^ nodePtrIdxBits ∧ smallAtomBytes val = v := by
  cases v with
  | nil =>
    cases hfits
    decide
  | cons first tail =>
    rw [fitsInSmallAtom] at hfits
    split_ifs at hfits with hrefused
    cases hfits
    push Not at hrefused
    obtain ⟨hlength, hblank, hsign, hzero, hlarge⟩ := hrefused
    have hsmall : first.toNat < 128 := by
      by_contra hle
      exact (topBit_ne_zero_iff first).mpr (not_lt.mp hle) hsign
    have hsecond (hfirst : first.toNat = 0) : 128 ≤ (tail.headD 0).toNat :=
      (topBit_ne_zero_iff _).mp (hzero (UInt8.toNat_inj.mp hfirst))
    have hcount := lenForValue_beNat (Nat.le_of_succ_le_succ hlength) hsmall
      hsecond
    constructor
    · rcases Nat.lt_or_ge tail.length 3 with hshort | hlong
      · have hbound := beNat_lt tail
        have hpow : 256 ^ tail.length ≤ 256 ^ 2 :=
          Nat.pow_le_pow_right (by decide) (by omega)
        rw [beNat_cons, nodePtrIdxBits]
        nlinarith
      · have hthree : tail.length = 3 := by
          simp only [length_cons] at hlength
          omega
        have hfirst : first.toNat ≤ (3 : UInt8).toNat :=
          UInt8.le_iff_toNat_le.mp (UInt8.not_lt.mp (hlarge (by simp [hthree])))
        have hbound := beNat_lt tail
        rw [hthree] at hbound
        rw [beNat_cons, nodePtrIdxBits, hthree]
        change first.toNat ≤ 3 at hfirst
        omega
    · rw [smallAtomBytes, hcount, drop_beBytes_beNat hlength]

theorem length_smallAtomBytes (hval : val < 2 ^ nodePtrIdxBits) :
    (smallAtomBytes val).length = lenForValue val := by
  have hlen : lenForValue val ≤ 4 := by
    rw [nodePtrIdxBits] at hval
    unfold lenForValue
    split_ifs <;> omega
  rw [smallAtomBytes, length_drop, length_beBytes]
  omega

end SmallAtoms

/-- What holds of an arena at all times: the spans lie in the heap, the heap in
32 bits, the pairs and the interned atoms point at nodes that exist, and the
counters keep to their limits. -/
structure Arena.Sound (a : Arena) : Prop where
  spans : ∀ span ∈ a.atomVec,
    span.start ≤ span.stop ∧ span.stop ≤ a.u8Vec.length
  heap : a.u8Vec.length ≤ heapLimit
  pairs : ∀ pair ∈ a.pairVec, (∃ left, Denotes a.toPools pair.first left) ∧
    ∃ right, Denotes a.toPools pair.rest right
  intern : ∀ v node, (v, node) ∈ a.atomIntern → Denotes a.toPools node (.atom v)
  atomLimit : a.atomVec.length + a.ghostAtoms ≤ maxNumAtoms
  pairLimit : a.pairVec.length + a.ghostPairs ≤ maxNumPairs

theorem Arena.sound_new : new.Sound where
  spans := by simp [new]
  heap := by decide
  pairs := by simp [new]
  intern := by simp [new]
  atomLimit := by decide
  pairLimit := by decide

/-- An arena after some atoms and pairs have been minted. -/
structure Arena.Grows (a : Arena) (atoms pairs : Nat) (a' : Arena) : Prop where
  le : a.toPools.Le a'.toPools
  sound : a'.Sound
  atoms : a'.atomVec.length + a'.ghostAtoms =
    a.atomVec.length + a.ghostAtoms + atoms
  pairs : a'.pairVec.length + a'.ghostPairs =
    a.pairVec.length + a.ghostPairs + pairs

theorem Arena.Grows.trans {b c : Arena} {n m k l : Nat} (hab : a.Grows n m b)
    (hbc : b.Grows k l c) :
    a.Grows (n + k) (m + l) c where
  le := hab.le.trans hbc.le
  sound := hbc.sound
  atoms := by rw [hbc.atoms, hab.atoms, Nat.add_assoc]
  pairs := by rw [hbc.pairs, hab.pairs, Nat.add_assoc]

/-- The two ways an operation ends: a new handle of a tree, or an error that
leaves the arena alone. -/
def Arena.Mints (a : Arena) (atoms pairs : Nat) (t : SExp)
    (out : ArenaOutcome) : Prop :=
  (∃ node a', out = (.ok node, a') ∧ a.Grows atoms pairs a' ∧
    Denotes a'.toPools node t) ∨
  ∃ e, out = (.error (.error e), a)

section Operations

@[simp]
theorem Arena.attempt_ok (out : NodePtr × Arena) :
    a.attempt (.ok out) = (.ok out.1, out.2) := rfl

variable {span : AtomSpan}

section

variable (hsound : a.Sound)
  (hlimit : a.atomVec.length + a.ghostAtoms ≠ maxNumAtoms)

include hsound hlimit

/-- An atom that is only counted. -/
theorem Arena.Sound.addGhost {size : Nat} : a.Grows 1 0 (a.addGhost size) where
  le := .refl _
  sound :=
    { spans := hsound.spans
      heap := hsound.heap
      pairs := hsound.pairs
      intern := hsound.intern
      atomLimit := by
        have := hsound.atomLimit
        simp only [Arena.addGhost]
        omega
      pairLimit := hsound.pairLimit }
  atoms := rfl
  pairs := rfl

/-- A new span over a stretch of the heap, which may have grown. -/
theorem Arena.Sound.pushSpan {heap : Bytes} (hbegins : a.u8Vec <+: heap)
    (hheap : heap.length ≤ heapLimit) (hle : span.start ≤ span.stop)
    (hstop : span.stop ≤ heap.length) :
    a.Grows 1 0 { a with u8Vec := heap, atomVec := a.atomVec ++ [span] } := by
  have hpools : a.toPools.Le ⟨heap, a.pairVec, a.atomVec ++ [span]⟩ :=
    ⟨hbegins, prefix_rfl, prefix_append _ _⟩
  refine ⟨hpools, ⟨?_, hheap, ?_, ?_, ?_, hsound.pairLimit⟩, ?_, rfl⟩
  · refine forall_mem_append.mpr
      ⟨fun span' hmem => ?_, forall_mem_singleton.mpr ⟨hle, hstop⟩⟩
    obtain ⟨hle', hstop'⟩ := hsound.spans span' hmem
    exact ⟨hle', le_trans hstop' hbegins.length_le⟩
  · intro pair hmem
    obtain ⟨⟨left, hleft⟩, right, hright⟩ := hsound.pairs pair hmem
    exact ⟨⟨left, hleft.mono hpools⟩, right, hright.mono hpools⟩
  · intro v node hmem
    exact (hsound.intern v node hmem).mono hpools
  · have := hsound.atomLimit
    simp only [length_append, length_singleton]
    omega
  · simp only [length_append, length_singleton]
    omega

end

/-- The span of an atom that still fits in the heap. -/
theorem Arena.pushBytes_eq (hroom : a.u8Vec.length + v.length ≤ heapLimit) :
    a.pushBytes v = (⟨.bytes, a.atomVec.length⟩, { a with
        u8Vec := a.u8Vec ++ v
        atomVec := a.atomVec ++
          [⟨a.u8Vec.length, a.u8Vec.length + v.length⟩] }) := by
  rw [heapLimit] at hroom
  rw [pushBytes, mod_eq_of_lt (by omega), mod_eq_of_lt (by omega)]

theorem Arena.pushBytes_denotes
    (hroom : a.u8Vec.length + v.length ≤ heapLimit) :
    Denotes (a.pushBytes v).2.toPools (a.pushBytes v).1 (.atom v) := by
  have hspan : (a.atomVec ++ [⟨a.u8Vec.length, a.u8Vec.length +
      v.length⟩])[a.atomVec.length]? =
        some (⟨a.u8Vec.length, a.u8Vec.length + v.length⟩ : AtomSpan) := by
    simp
  have hdenotes := Denotes.bytes (p := ⟨a.u8Vec ++ v, a.pairVec, _⟩) hspan
    (le_add_right _ _) (by simp)
  rw [pushBytes_eq hroom]
  simpa using hdenotes

/-- A new atom at the end of the heap. -/
theorem Arena.Sound.pushBytes (hsound : a.Sound)
    (hlimit : a.atomVec.length + a.ghostAtoms ≠ maxNumAtoms)
    (hroom : a.u8Vec.length + v.length ≤ heapLimit) :
    a.Grows 1 0 (a.pushBytes v).2 ∧
      Denotes (a.pushBytes v).2.toPools (a.pushBytes v).1 (.atom v) := by
  refine ⟨?_, pushBytes_denotes hroom⟩
  rw [pushBytes_eq hroom]
  exact hsound.pushSpan hlimit
    (prefix_append a.u8Vec v) (by rwa [length_append])
    (le_add_right _ _) (by rw [length_append])

theorem Arena.checkAtomLimit_cases (a : Arena) :
    a.checkAtomLimit = .error (.error .tooManyAtoms) ∨
      (a.checkAtomLimit = .ok () ∧
        a.atomVec.length + a.ghostAtoms ≠ maxNumAtoms) := by
  unfold checkAtomLimit
  split_ifs with hfull
  · exact .inl rfl
  · exact .inr ⟨rfl, hfull⟩

theorem Arena.checkHeapLimit_cases (a : Arena) {size : Nat} :
    a.checkHeapLimit size = .error (.error .outOfMemory) ∨
      (a.checkHeapLimit size = .ok () ∧
        a.u8Vec.length + a.ghostHeap + size ≤ heapLimit) := by
  unfold checkHeapLimit
  split_ifs with hover
  · exact .inl rfl
  · exact .inr ⟨rfl, not_lt.mp hover⟩

/-- A handle that the intern map holds is one of the bytes asked for. -/
theorem Arena.Sound.storeAtom (hsound : a.Sound)
    (hlimit : a.atomVec.length + a.ghostAtoms ≠ maxNumAtoms)
    (hroom : a.u8Vec.length + v.length ≤ heapLimit) :
    a.Grows 1 0 (a.storeAtom v).2 ∧
      Denotes (a.storeAtom v).2.toPools (a.storeAtom v).1 (.atom v) := by
  obtain ⟨hgrows, hdenotes⟩ := hsound.pushBytes hlimit hroom
  unfold Arena.storeAtom
  dsimp only
  split_ifs with hlong
  · refine ⟨⟨hgrows.le, ?_, hgrows.atoms, hgrows.pairs⟩, hdenotes⟩
    refine { hgrows.sound with intern := ?_ }
    intro v' node' hmem
    rcases mem_cons.mp hmem with heq | hmem
    · cases heq
      exact hdenotes
    · exact hgrows.sound.intern v' node' hmem
  · exact ⟨hgrows, hdenotes⟩

theorem Arena.newAtom_cases (a : Arena) :
    (∃ e, a.newAtom v = (.error (.error e), a)) ∨
    (a.atomVec.length + a.ghostAtoms ≠ maxNumAtoms ∧
      ((∃ val, fitsInSmallAtom v = some val ∧
        a.newAtom v = (.ok ⟨.smallAtom, val⟩, a.addGhost v.length)) ∨
      (∃ node, (v, node) ∈ a.atomIntern ∧
        a.newAtom v = (.ok node, a.addGhost v.length)) ∨
      (a.u8Vec.length + v.length ≤ heapLimit ∧
        a.newAtom v = (.ok (a.storeAtom v).1, (a.storeAtom v).2)))) := by
  rw [newAtom]
  rcases a.checkHeapLimit_cases with hheap | ⟨hheap, hroom⟩
  · rw [hheap]
    exact .inl ⟨_, rfl⟩
  rcases a.checkAtomLimit_cases with hatoms | ⟨hatoms, hlimit⟩
  · rw [hheap, hatoms]
    exact .inl ⟨_, rfl⟩
  rw [hheap, hatoms]
  simp only [bind_ok]
  refine .inr ⟨hlimit, ?_⟩
  cases hfits : fitsInSmallAtom v with
  | some val => exact .inl ⟨val, rfl, rfl⟩
  | none =>
    right
    cases hfound : a.interned v with
    | some node =>
      rw [interned, Option.ite_none_right_eq_some] at hfound
      obtain ⟨front, back, hsplit, -⟩ := lookup_eq_some_iff.mp hfound.2
      exact .inl ⟨node, by rw [hsplit]; simp, rfl⟩
    | none => exact .inr ⟨by omega, rfl⟩

theorem Arena.newAtom_mints (hsound : a.Sound) (v : Bytes) :
    a.Mints 1 0 (.atom v) (a.newAtom v) := by
  rcases a.newAtom_cases with ⟨e, hcase⟩ | ⟨hlimit, ⟨val, hfits, hcase⟩ |
    ⟨node, hmem, hcase⟩ | ⟨hroom, hcase⟩⟩ <;> rw [hcase]
  · exact .inr ⟨e, rfl⟩
  · obtain ⟨hval, hbytes⟩ := fitsInSmallAtom_eq_some hfits
    refine .inl ⟨_, _, rfl, hsound.addGhost hlimit, ?_⟩
    rw [← hbytes]
    exact .small hval
  · exact .inl ⟨_, _, rfl, hsound.addGhost hlimit, hsound.intern v node hmem⟩
  · obtain ⟨hgrows, hdenotes⟩ := hsound.storeAtom hlimit hroom
    exact .inl ⟨_, _, rfl, hgrows, hdenotes⟩

variable {first rest : NodePtr}

theorem Arena.newPair_mints (hsound : a.Sound)
    (hfirst : Denotes a.toPools first left)
    (hrest : Denotes a.toPools rest right) :
    a.Mints 0 1 (.pair left right) (a.newPair first rest) := by
  unfold newPair
  split_ifs with hfull
  · exact .inr ⟨_, rfl⟩
  have hpools : a.toPools.Le
      ⟨a.u8Vec, a.pairVec ++ [⟨first, rest⟩], a.atomVec⟩ :=
    ⟨prefix_rfl, prefix_append _ _, prefix_rfl⟩
  refine .inl ⟨_, _, rfl, ⟨hpools, ⟨hsound.spans, hsound.heap, ?_, ?_,
    hsound.atomLimit, ?_⟩, rfl, ?_⟩, ?_⟩
  · refine forall_mem_append.mpr ⟨fun pair hmem => ?_, forall_mem_singleton.mpr
      ⟨⟨left, hfirst.mono hpools⟩, right, hrest.mono hpools⟩⟩
    obtain ⟨⟨left', hleft'⟩, right', hright'⟩ := hsound.pairs pair hmem
    exact ⟨⟨left', hleft'.mono hpools⟩, right', hright'.mono hpools⟩
  · intro v node hmem
    exact (hsound.intern v node hmem).mono hpools
  · have := hsound.pairLimit
    simp only [length_append, length_singleton]
    omega
  · simp only [length_append, length_singleton]
    omega
  · have hpair : (a.pairVec ++ [⟨first, rest⟩])[a.pairVec.length]? =
        some (⟨first, rest⟩ : IntPair) := by
      simp
    exact Denotes.pair (p := ⟨_, a.pairVec ++ [⟨first, rest⟩], _⟩) hpair
      (hfirst.mono hpools) (hrest.mono hpools)

/-- The handle of a new pair is read back as the two handles it was made
from. -/
theorem Arena.newPair_nodeKind {a' : Arena}
    (hnew : a.newPair first rest = (.ok node, a')) :
    a'.nodeKind node = .ok (.pair first rest) := by
  unfold newPair at hnew
  split_ifs at hnew
  · cases hnew
  · cases hnew
    simp [nodeKind, indexVec]

theorem boundsCheck_cases {len : Nat} :
    (∃ e, boundsCheck start stop len = .error (.error e)) ∨
      (boundsCheck start stop len = .ok () ∧ start ≤ stop ∧ stop ≤ len) := by
  unfold boundsCheck
  split_ifs with hstart hstop horder
  · exact .inl ⟨_, rfl⟩
  · exact .inl ⟨_, rfl⟩
  · exact .inl ⟨_, rfl⟩
  · exact .inr ⟨rfl, not_lt.mp horder, not_lt.mp hstop⟩

theorem Arena.Sound.span_len (hsound : a.Sound) (hmem : span ∈ a.atomVec) :
    span.len = span.stop - span.start := by
  obtain ⟨hle, hstop⟩ := hsound.spans span hmem
  have hheap := hsound.heap
  rw [heapLimit] at hheap
  rw [AtomSpan.len]
  omega

/-- The bytes that a substring of a small atom would append to the heap: none
if they are small again. -/
def substrGrowth (node : NodePtr) (start stop : UInt32) : Nat :=
  match node.objectType with
  | .smallAtom =>
    let substr := ((smallAtomBytes node.index).drop start.toNat).take
      (stop.toNat - start.toNat)
    if (fitsInSmallAtom substr).isSome then 0 else substr.length
  | _ => 0

theorem Arena.substrOfSpan_mints (hsound : a.Sound)
    (hlimit : a.atomVec.length + a.ghostAtoms ≠ maxNumAtoms) {index : Nat}
    (hspan : a.atomVec[index]? = some span) {start stop : UInt32} :
    a.Mints 1 0 (.atom ((((a.u8Vec.drop span.start).take
      (span.stop - span.start)).drop start.toNat).take
        (stop.toNat - start.toNat)))
      (a.attempt (a.substrOfSpan span start stop)) := by
  have hmem := mem_of_getElem? hspan
  obtain ⟨hle, hstop⟩ := hsound.spans span hmem
  unfold substrOfSpan
  rcases boundsCheck_cases with
    ⟨e, hbounds⟩ | ⟨hbounds, horder, hinside⟩
  · rw [hbounds]
    exact .inr ⟨e, rfl⟩
  rw [hsound.span_len hmem] at hinside
  have hlast : span.start + stop.toNat < 2 ^ 32 := by
    have hheap := hsound.heap
    rw [heapLimit] at hheap
    omega
  have hsubstart : (span.start + start.toNat) % 2 ^ 32 =
      span.start + start.toNat := mod_eq_of_lt (by omega)
  have hsubstop : (span.start + stop.toNat) % 2 ^ 32 =
      span.start + stop.toNat := mod_eq_of_lt hlast
  rw [hbounds, hsubstart, hsubstop, bind_ok, attempt_ok]
  have horder' : span.start + start.toNat ≤ span.start + stop.toNat :=
    Nat.add_le_add_left horder _
  have hinside' : span.start + stop.toNat ≤ a.u8Vec.length := by omega
  refine .inl ⟨_, _, rfl, hsound.pushSpan hlimit prefix_rfl
    hsound.heap horder' hinside', ?_⟩
  have hnew : (a.atomVec ++ [⟨span.start + start.toNat, span.start +
      stop.toNat⟩])[a.atomVec.length]? = some (⟨span.start + start.toNat,
        span.start + stop.toNat⟩ : AtomSpan) := by
    simp
  have hsub := Denotes.bytes (p := ⟨a.u8Vec, a.pairVec, _⟩) hnew horder'
    hinside'
  simp only [Nat.add_sub_add_left] at hsub
  rwa [drop_take, drop_drop, take_take, min_eq_left (by omega)]

theorem Arena.substrOfSmall_mints (hsound : a.Sound)
    (hlimit : a.atomVec.length + a.ghostAtoms ≠ maxNumAtoms)
    (hval : val < 2 ^ nodePtrIdxBits) {start stop : UInt32}
    (hroom : a.u8Vec.length + substrGrowth ⟨.smallAtom, val⟩ start stop ≤
      heapLimit) :
    a.Mints 1 0 (.atom (((smallAtomBytes val).drop start.toNat).take
        (stop.toNat - start.toNat)))
      (a.attempt (a.substrOfSmall val start stop)) := by
  unfold substrOfSmall
  rcases boundsCheck_cases with ⟨e, hbounds⟩ | ⟨hbounds, horder, hinside⟩
  · rw [hbounds]
    exact .inr ⟨e, rfl⟩
  rw [← length_smallAtomBytes hval] at hinside
  rw [hbounds, sliceRange_of_le horder hinside, bind_ok, bind_ok]
  simp only [substrGrowth] at hroom
  generalize ((smallAtomBytes val).drop start.toNat).take
    (stop.toNat - start.toNat) = substr at *
  cases hfits : fitsInSmallAtom substr with
  | some newVal =>
    obtain ⟨hnewVal, hbytes⟩ := fitsInSmallAtom_eq_some hfits
    rw [attempt_ok]
    refine .inl ⟨_, _, rfl, hsound.addGhost hlimit, ?_⟩
    rw [← hbytes]
    exact .small hnewVal
  | none =>
    simp only [hfits, Option.isSome_none, Bool.false_eq_true, if_false] at hroom
    have hpushed := hsound.pushBytes hlimit hroom
    rw [attempt_ok]
    exact .inl ⟨_, _, rfl, hpushed.1, hpushed.2⟩

/-- A substring of an atom, if the bytes that it appends have room. -/
theorem Arena.newSubstr_mints (hsound : a.Sound) {start stop : UInt32}
    (hdenotes : Denotes a.toPools node (.atom data))
    (hroom : a.u8Vec.length + substrGrowth node start stop ≤ heapLimit) :
    a.Mints 1 0 (.atom ((data.drop start.toNat).take
      (stop.toNat - start.toNat))) (a.newSubstr node start stop) := by
  unfold newSubstr
  rcases a.checkAtomLimit_cases with hatoms | ⟨hatoms, hlimit⟩
  · rw [hatoms]
    exact .inr ⟨_, rfl⟩
  rw [hatoms, bind_ok]
  cases hdenotes with
  | bytes hspan hle hstop =>
    dsimp only
    rw [indexVec_of_some hspan, bind_ok]
    exact substrOfSpan_mints hsound hlimit hspan
  | small hval => exact substrOfSmall_mints hsound hlimit hval hroom

theorem length_slice {bytes : Bytes} (hstop : stop ≤ bytes.length) :
    ((bytes.drop start).take (stop - start)).length = stop - start := by
  rw [length_take, length_drop]
  omega

theorem Arena.Sound.atomLen (hsound : a.Sound)
    (hdenotes : Denotes a.toPools node (.atom data)) :
    a.atomLen node = .ok (some data.length) := by
  cases hdenotes with
  | small hval => rw [atomLen, length_smallAtomBytes hval]
  | bytes hspan hle hstop =>
    rw [atomLen]
    dsimp only
    rw [indexVec_of_some hspan, bind_ok,
      hsound.span_len (mem_of_getElem? hspan), length_slice hstop]

section

variable (hsound : a.Sound) (newSize : Nat)
  (hdenotes : Forall₂ (Denotes a.toPools) nodes trees)

include hsound newSize hdenotes

/-- The loop of the concatenation appends the bytes of its terms to the heap,
or stops at a pair or at a term too many. -/
theorem Arena.Sound.concatLoop {heap : Bytes} (hbegins : a.u8Vec <+: heap)
    (counter : Nat) :
    (∃ datas : List Bytes, trees = datas.map SExp.atom ∧
      a.concatLoop newSize nodes heap counter =
        .ok (heap ++ datas.flatten, counter + datas.flatten.length)) ∨
    ∃ e, a.concatLoop newSize nodes heap counter = .error (.error e) := by
  induction hdenotes generalizing heap counter with
  | nil => exact .inl ⟨[], rfl, by simp [Arena.concatLoop]⟩
  | @cons node tree nodes trees hnode _ ih =>
    cases hnode with
    | pair hpair hfirst hrest => exact .inr ⟨_, rfl⟩
    | small hval =>
      rename_i val
      rw [Arena.concatLoop]
      rcases ih (hbegins.trans (prefix_append _ (smallAtomBytes val)))
        (counter + lenForValue val) with ⟨datas, rfl, hloop⟩ | ⟨e, hloop⟩
      · refine .inl ⟨smallAtomBytes val :: datas, rfl, ?_⟩
        dsimp only
        rw [hloop, flatten_cons, length_append,
          length_smallAtomBytes hval, append_assoc, add_assoc]
      · exact .inr ⟨e, hloop⟩
    | bytes hspan hle hstop =>
      rename_i index span
      rw [Arena.concatLoop]
      dsimp only
      rw [indexVec_of_some hspan, bind_ok,
        hsound.span_len (mem_of_getElem? hspan)]
      split_ifs with hover
      · exact .inr ⟨_, rfl⟩
      rw [sliceRange_of_le hle (le_trans hstop hbegins.length_le),
        bind_ok, slice_of_prefix hbegins hle hstop]
      generalize hdata : (a.u8Vec.drop span.start).take
        (span.stop - span.start) = data
      have hlength : data.length = span.stop - span.start := by
        rw [← hdata, length_slice hstop]
      rcases ih (hbegins.trans (prefix_append _ data))
        (counter + (span.stop - span.start)) with
          ⟨datas, rfl, hloop⟩ | ⟨e, hloop⟩
      · refine .inl ⟨data :: datas, rfl, ?_⟩
        rw [hloop, flatten_cons, length_append, hlength,
          append_assoc, add_assoc]
      · exact .inr ⟨e, hloop⟩

/-- A concatenation is the bytes of its terms, and its size is the one that was
announced. -/
theorem Arena.newConcat_mints :
    (∃ datas : List Bytes, trees = datas.map SExp.atom ∧
      datas.flatten.length = newSize ∧
      a.Mints 1 0 (.atom datas.flatten) (a.newConcat newSize nodes)) ∨
    ∃ e, a.newConcat newSize nodes = (.error (.error e), a) := by
  unfold newConcat
  rcases a.checkAtomLimit_cases with hatoms | ⟨hatoms, hlimit⟩
  · rw [hatoms]
    exact .inr ⟨_, rfl⟩
  rcases a.checkHeapLimit_cases with hheap | ⟨hheap, hroom⟩
  · rw [hatoms, hheap]
    exact .inr ⟨_, rfl⟩
  rw [hatoms, hheap, bind_ok, bind_ok]
  rcases hdenotes with - | @⟨node, tree, tail, trees, hnode, htail⟩
  · split_ifs with hsize
    · exact .inr ⟨_, rfl⟩
    · exact .inl ⟨[], rfl, (not_not.mp hsize).symm, .inl ⟨_, _, rfl,
        hsound.addGhost hlimit, .small (by decide)⟩⟩
  rcases htail with - | @⟨second, tree', tail, trees, hsecond, htail⟩
  · cases tree with
    | pair left right =>
      cases hnode
      exact .inr ⟨_, rfl⟩
    | atom data =>
      dsimp only
      rw [hsound.atomLen hnode, bind_ok]
      dsimp only
      split_ifs with hsize
      · exact .inr ⟨_, rfl⟩
      · refine .inl ⟨[data], rfl, by simpa using hsize, .inl ⟨_, _, rfl,
          hsound.addGhost hlimit, ?_⟩⟩
        rw [flatten_cons, flatten_nil, append_nil]
        exact hnode
  · rcases hsound.concatLoop newSize (.cons hnode (.cons hsecond htail))
      prefix_rfl 0 with ⟨datas, htrees, hloop⟩ | ⟨e, hloop⟩
    · dsimp only
      rw [hloop, bind_ok]
      dsimp only
      split_ifs with hsize
      · exact .inr ⟨_, rfl⟩
      rw [zero_add, ne_eq, not_not] at hsize
      refine .inl ⟨datas, htrees, hsize, ?_⟩
      have hpushed := hsound.pushBytes hlimit (v := datas.flatten) (by omega)
      rw [attempt_ok, length_append]
      exact .inl ⟨_, _, rfl, hpushed.1, hpushed.2⟩
    · dsimp only
      rw [hloop]
      exact .inr ⟨e, rfl⟩

end

end Operations

/-- The atoms and pairs that the loop of an import mints before it ends. -/
def Arena.importMinted : List ImportJob → List NodePtr → Arena → Nat × Nat
  | [], _, _ => (0, 0)
  | .visit (.atom data) :: jobs, out, a =>
    match a.newAtom data with
    | (.ok node, a') =>
      let minted := importMinted jobs (node :: out) a'
      (1 + minted.1, minted.2)
    | (.error _, _) => (0, 0)
  | .visit (.pair first rest) :: jobs, out, a =>
    importMinted (.visit first :: .visit rest :: .build :: jobs) out a
  | .build :: jobs, out, a =>
    match out with
    | rest :: first :: out =>
      match a.newPair first rest with
      | (.ok node, a') =>
        let minted := importMinted jobs (node :: out) a'
        (minted.1, 1 + minted.2)
      | (.error _, _) => (0, 0)
    | _ => (0, 0)
termination_by jobs => (jobs.map ImportJob.weight).sum
decreasing_by
  all_goals simp [ImportJob.weight, SExp.size]
  all_goals omega

/-- What the jobs of an import do to a stack of trees. -/
def importStack : List ImportJob → List SExp → List SExp
  | [], stack => stack
  | .visit sexp :: jobs, stack => importStack jobs (sexp :: stack)
  | .build :: jobs, rest :: first :: stack =>
    importStack jobs (.pair first rest :: stack)
  | .build :: _, stack => stack

section Import

theorem Arena.Sound.grows_refl (hsound : a.Sound) : a.Grows 0 0 a :=
  ⟨.refl _, hsound, rfl, rfl⟩

theorem forall₂_mono {p p' : Pools} (hle : p.Le p')
    (hdenotes : Forall₂ (Denotes p) nodes trees) :
    Forall₂ (Denotes p') nodes trees :=
  hdenotes.imp fun _ _ hnode => hnode.mono hle

/-- How the loop of an import ends: the arena has grown by what was minted, and
a handle that is returned denotes the top of the stack of trees. -/
theorem Arena.Sound.importLoop (hsound : a.Sound) (jobs : List ImportJob)
    {out : List NodePtr} (hout : Forall₂ (Denotes a.toPools) out trees) :
    a.Grows (importMinted jobs out a).1
        (importMinted jobs out a).2 (importLoop jobs out a).2 ∧
      ((∃ node t rest, (importLoop jobs out a).1 = .ok node ∧
          importStack jobs trees = t :: rest ∧
          Denotes (importLoop jobs out a).2.toPools node t) ∨
        ∃ e, (importLoop jobs out a).1 = .error (.error e)) := by
  induction jobs, out, a using importLoop.induct generalizing trees with
  | case1 a node out =>
    rw [importLoop, importMinted]
    rcases hout with - | @⟨_, t, _, rest, hnode, -⟩
    exact ⟨hsound.grows_refl, .inl ⟨node, t, rest, rfl, rfl, hnode⟩⟩
  | case2 a =>
    rw [importLoop, importMinted]
    exact ⟨hsound.grows_refl, .inr ⟨_, rfl⟩⟩
  | case3 data jobs out a node a' hnew ih =>
    rw [importLoop, importMinted]
    simp only [hnew]
    rcases hnew ▸ a.newAtom_mints hsound data with
      ⟨_, _, ⟨⟩, hgrows, hdenotes⟩ | ⟨_, ⟨⟩⟩
    obtain ⟨hrest, hresult⟩ :=
      ih hgrows.sound (.cons hdenotes (forall₂_mono hgrows.le hout))
    exact ⟨by simpa using hgrows.trans hrest, hresult⟩
  | case4 data jobs out a fault a' hnew =>
    rw [importLoop, importMinted]
    simp only [hnew]
    rcases hnew ▸ a.newAtom_mints hsound data with ⟨_, _, ⟨⟩, -⟩ | ⟨e, ⟨⟩⟩
    exact ⟨hsound.grows_refl, .inr ⟨e, rfl⟩⟩
  | case5 first rest jobs out a ih =>
    rw [importLoop, importMinted]
    exact ih hsound hout
  | case6 jobs a rest first out node a' hnew ih =>
    rw [importLoop, importMinted]
    simp only [hnew]
    rcases hout with - | @⟨_, right, _, _, hright, hout⟩
    rcases hout with - | @⟨_, left, _, _, hleft, hout⟩
    rcases hnew ▸ a.newPair_mints hsound hleft hright with
      ⟨_, _, ⟨⟩, hgrows, hdenotes⟩ | ⟨_, ⟨⟩⟩
    obtain ⟨hrest, hresult⟩ :=
      ih hgrows.sound (.cons hdenotes (forall₂_mono hgrows.le hout))
    exact ⟨by simpa using hgrows.trans hrest, hresult⟩
  | case7 jobs a rest first out fault a' hnew =>
    rw [importLoop, importMinted]
    simp only [hnew]
    rcases hout with - | @⟨_, right, _, _, hright, hout⟩
    rcases hout with - | @⟨_, left, _, _, hleft, hout⟩
    rcases hnew ▸ a.newPair_mints hsound hleft hright with
      ⟨_, _, ⟨⟩, -⟩ | ⟨e, ⟨⟩⟩
    exact ⟨hsound.grows_refl, .inr ⟨e, rfl⟩⟩
  | case8 jobs out a hshort =>
    rw [importLoop, importMinted]
    · exact ⟨hsound.grows_refl, .inr ⟨_, rfl⟩⟩
    · exact hshort
    · exact hshort

/-- An import returns a handle of the tree, or stops with an error after it has
minted a part of it. -/
theorem Arena.Sound.importTree (hsound : a.Sound) (sexp : SExp) :
    a.Grows (importMinted [.visit sexp] [] a).1
        (importMinted [.visit sexp] [] a).2 (a.importTree sexp).2 ∧
      ((∃ node, (a.importTree sexp).1 = .ok node ∧
          Denotes (a.importTree sexp).2.toPools node sexp) ∨
        ∃ e, (a.importTree sexp).1 = .error (.error e)) := by
  obtain ⟨hgrows, hresult⟩ := hsound.importLoop [.visit sexp] .nil
  refine ⟨hgrows, ?_⟩
  rcases hresult with ⟨node, t, rest, hok, hstack, hdenotes⟩ | herror
  · cases hstack
    exact .inl ⟨node, hok, hdenotes⟩
  · exact .inr herror

end Import

end DgXch
