/-
The merkle set of `consensus/merkle_set.rs`: an in-place radix sort that keeps
every node, proofs of inclusion and exclusion, and their validation; with
`merkle_set_root` of `consensus/block_generator.rs`, the radix tree of the
leaves hashed from the bottom up.
-/
import DgXch.ByteStream
import DgXch.ListTrees
import Mathlib.Data.List.Destutter

namespace DgXch

structure SetError where
deriving Repr, DecidableEq

/-- The result of a merkle-set function: indexing and arithmetic can panic. -/
abbrev SetResult (A : Type) := Except (Fault SetError) A

inductive NodeType where
  | empty
  | term
  | mid
  | midDbl
deriving Repr, DecidableEq

def encodeType : NodeType → UInt8
  | .empty => 0
  | .term => 1
  | .mid | .midDbl => 2

def blank : Bytes32 := .zero

def emptyNodeHash : Bytes32 :=
  ⟨[0x66, 0x68, 0x7a, 0xad, 0xf8, 0x62, 0xbd, 0x77, 0x6c, 0x8f, 0xc1, 0x8b,
    0x8e, 0x9f, 0x8e, 0x20, 0x08, 0x97, 0x14, 0x85, 0x6e, 0xe2, 0x33, 0xb3,
    0x90, 0x2a, 0x59, 0x1d, 0x0d, 0x5f, 0x29, 0x25], rfl⟩

/-- The 96 bytes that `hash` feeds to SHA-256: `HASH_PREFIX`, the two type
bytes and the two children. -/
def hashInput (ltype rtype : NodeType) (left right : Bytes32) : Bytes :=
  List.replicate 30 0 ++ [encodeType ltype, encodeType rtype] ++
    left.bytes ++ right.bytes

/-- The 33 bytes that `hash_leaf` feeds to SHA-256. -/
def leafInput (leaf : Bytes32) : Bytes := 1 :: leaf.bytes

/-- `get_bit`; the byte index is at most 31. -/
def getBit (val : Bytes32) (bit : UInt8) : Bool :=
  val.bytes.getD (bit / 8).toNat 0 &&& (0x80 >>> (bit &&& 7)) ≠ 0

/-- `StoredKind`; the children of a middle node are `u32` indices. -/
inductive StoredKind where
  | leaf
  | middle (left right : Nat)
  | empty
  | truncated
deriving Repr, DecidableEq

/-- `impl From<StoredKind> for NodeType`. -/
def StoredKind.nodeType : StoredKind → NodeType
  | .empty => .empty
  | .leaf => .term
  | .middle _ _ | .truncated => .mid

structure StoredNode where
  kind : StoredKind
  hash : Bytes32
deriving Repr, DecidableEq

/-- `MerkleSet`; its field `from_proof` is `isFromProof` here.  `hashed` lists
the inputs given to SHA-256 while the set was built; the code does not keep it
and nothing here reads it. -/
structure MerkleSet where
  nodes : List StoredNode
  isFromProof : Bool
  hashed : List Bytes
deriving Repr, DecidableEq

def asU32 (n : Nat) : Nat := n % 2 ^ 32

def subU32 (n m : Nat) : Nat := (n + 2 ^ 32 - m) % 2 ^ 32

/-- `depth + 1` on `u8`, where an overflow is a panic. -/
def nextDepth (depth : UInt8) : SetResult UInt8 :=
  if depth = 255 then .error (.panic "attempt to add with overflow")
  else .ok (depth + 1)

theorem toNat_nextDepth {depth next : UInt8} (hnext : nextDepth depth = .ok next) :
    next.toNat = depth.toNat + 1 ∧ depth.toNat < 255 := by
  unfold nextDepth at hnext
  split_ifs at hnext with hlast
  cases hnext
  have hlt : depth.toNat < 255 := by
    have hne : depth.toNat ≠ 255 := by
      intro heq
      exact hlast (UInt8.toNat_inj.mp heq)
    have := depth.toNat_lt
    omega
  rw [UInt8.toNat_add]
  exact ⟨Nat.mod_eq_of_lt (Nat.succ_lt_succ hlt), hlt⟩

variable {i : Int32}

theorem toInt_add_one (hi : i.toInt < 2 ^ 31 - 1) :
    (i + 1).toInt = i.toInt + 1 := by
  have := i.le_toInt
  rw [Int32.toInt_add, show (1 : Int32).toInt = 1 from rfl]
  exact Int.bmod_eq_of_le (by omega) (by omega)

theorem toInt_add_one_cases (i : Int32) :
    (i + 1).toInt = i.toInt + 1 ∨ (i + 1).toInt < 0 := by
  by_cases hi : i.toInt < 2 ^ 31 - 1
  · exact .inl (toInt_add_one hi)
  · right
    have hlast : i.toInt = 2 ^ 31 - 1 := by
      have := i.toInt_lt
      omega
    rw [Int32.toInt_add, hlast]
    decide

theorem toInt_sub_one (hi : -2 ^ 31 < i.toInt) :
    (i - 1).toInt = i.toInt - 1 := by
  have := i.toInt_lt
  rw [Int32.toInt_sub, show (1 : Int32).toInt = 1 from rfl]
  exact Int.bmod_eq_of_le (by omega) (by omega)

/-- `range[i as usize]` for an `i32` index; a negative one is far out of
bounds. -/
def readLeaf (range : List Bytes32) (i : Int32) : SetResult Bytes32 :=
  if i < 0 then .error (.panic "index out of bounds")
  else
    match range[i.toInt.toNat]? with
    | none => .error (.panic "index out of bounds")
    | some leaf => .ok leaf

variable {leaf : Bytes32}

theorem readLeaf_nonneg {range : List Bytes32}
    (hread : readLeaf range i = .ok leaf) : 0 ≤ i.toInt := by
  unfold readLeaf at hread
  split_ifs at hread with hneg
  rw [Int32.lt_iff_toInt_lt] at hneg
  simpa using hneg

/-- What is left to do for the two pointers; a wrapped left pointer ends the
loop at its next read. -/
def pointerGap (left right : Int32) : Nat :=
  if left.toInt < 0 then 0 else (right.toInt - left.toInt + 2).toNat

theorem pointerGap_lt {left right left' right' : Int32}
    (hnonneg : 0 ≤ left.toInt) (hle : left ≤ right)
    (hmove : left' = left + 1 ∧ (right' = right ∨ right' = right - 1) ∨
      left' = left ∧ right' = right - 1) :
    pointerGap left' right' < pointerGap left right := by
  rw [Int32.le_iff_toInt_le] at hle
  have hright : (right - 1).toInt = right.toInt - 1 := toInt_sub_one (by omega)
  unfold pointerGap
  rw [if_neg (Int.not_lt.mpr hnonneg)]
  rcases hmove with ⟨rfl, hmove⟩ | ⟨rfl, rfl⟩
  · rcases toInt_add_one_cases left with hnext | hnext
    · rcases hmove with rfl | rfl <;> split_ifs <;> omega
    · rw [if_pos hnext]
      omega
  · rw [if_neg (Int.not_lt.mpr hnonneg)]
    omega

/-- The two-pointer loop of `generate_merkle_tree_recurse`. -/
def partitionLoop (depth : UInt8) (range : List Bytes32) (left right : Int32) :
    SetResult (List Bytes32 × Int32 × Int32) :=
  if left ≤ right then
    match hleft : readLeaf range left, readLeaf range right with
    | .error e, _ => .error e
    | .ok _, .error e => .error e
    | .ok leftLeaf, .ok rightLeaf =>
      let leftBit := getBit leftLeaf depth
      let rightBit := getBit rightLeaf depth
      if leftBit && !rightBit then
        partitionLoop depth
          ((range.set left.toInt.toNat rightLeaf).set right.toInt.toNat leftLeaf)
          (left + 1) (right - 1)
      else
        partitionLoop depth range (if !leftBit then left + 1 else left)
          (if rightBit then right - 1 else right)
  else .ok (range, left, right)
termination_by pointerGap left right
decreasing_by
  all_goals
    have hnonneg := readLeaf_nonneg hleft
    apply pointerGap_lt hnonneg ‹left ≤ right›
  · exact .inl ⟨rfl, .inr rfl⟩
  · split_ifs <;> simp_all [leftBit, rightBit]

/-- `&mut range[..left as usize]` and `&mut range[left as usize..]`. -/
def splitRange (range : List Bytes32) (left : Int32) :
    SetResult (List Bytes32 × List Bytes32) :=
  if left < 0 ∨ range.length < left.toInt.toNat then
    .error (.panic "range end index out of range for slice")
  else .ok (range.take left.toInt.toNat, range.drop left.toInt.toNat)

namespace MerkleSet

/-- `self.nodes.push(StoredNode::new(kind, hash))`. -/
def push (set : MerkleSet) (kind : StoredKind) (hash : Bytes32) : MerkleSet :=
  { set with nodes := set.nodes ++ [⟨kind, hash⟩] }

def node (set : MerkleSet) (index : Nat) : SetResult StoredNode :=
  match set.nodes[index]? with
  | none => .error (.panic "index out of bounds")
  | some stored => .ok stored

section Hash

variable (sha256 : HashFn) (set : MerkleSet)

/-- `hash`, which records its input. -/
def hash (ltype rtype : NodeType) (left right : Bytes32) :
    Bytes32 × MerkleSet :=
  let input := hashInput ltype rtype left right
  (sha256 input, { set with hashed := set.hashed ++ [input] })

/-- The set with a subtree's nodes, the subtree's hash and its type. -/
abbrev Subtree := MerkleSet × Bytes32 × NodeType

/-- A one-sided level of `generate_merkle_tree_recurse`: the child is forwarded,
with an empty sibling only next to a middle that does not collapse. -/
def forwardChild (leftEmpty : Bool) (child : Subtree) : Subtree :=
  let (set, childHash, childType) := child
  if childType == .mid then
    let set := set.push .empty emptyNodeHash
    let nodeLength := asU32 set.nodes.length
    if leftEmpty then
      let (nodeHash, set) := set.hash sha256 .empty childType blank childHash
      (set.push (.middle (subU32 nodeLength 1) (subU32 nodeLength 2)) nodeHash,
        nodeHash, .mid)
    else
      let (nodeHash, set) := set.hash sha256 childType .empty childHash blank
      (set.push (.middle (subU32 nodeLength 2) (subU32 nodeLength 1)) nodeHash,
        nodeHash, .mid)
  else child

/-- The split of the last distinct pair at depth 255. -/
def bottomPair (first second : Bytes32) : Subtree :=
  let set := (set.push .leaf first).push .leaf second
  let nodesLen := asU32 set.nodes.length
  let (nodeHash, set) := set.hash sha256 .term .term first second
  (set.push (.middle (subU32 nodesLen 2) (subU32 nodesLen 1)) nodeHash,
    nodeHash, .midDbl)

/-- The middle node over two subtrees, the right one stored after the left. -/
def joinChildren (left right : Subtree) : Subtree :=
  let (leftSet, leftHash, leftType) := left
  let (set, rightHash, rightType) := right
  let leftChildIndex := subU32 (asU32 leftSet.nodes.length) 1
  let (nodeHash, set) := set.hash sha256 leftType rightType leftHash rightHash
  let nodeType : NodeType :=
    if leftType == .term && rightType == .term then .midDbl else .mid
  (set.push (.middle leftChildIndex (subU32 (asU32 set.nodes.length) 1)) nodeHash,
    nodeHash, nodeType)

/-- `generate_merkle_tree_recurse`; the order in which it leaves the caller's
slice is not kept. -/
def generateMerkleTreeRecurse (set : MerkleSet) (range : List Bytes32)
    (depth : UInt8) : SetResult Subtree :=
  match range with
  | [] => .error (.panic "empty range in merkle tree recursion")
  | [leaf] => .ok (set.push .leaf leaf, leaf, .term)
  | range => do
      let last : Int32 := Int32.ofNat range.length - 1
      let (range, left, right) ← partitionLoop depth range 0 last
      let leftEmpty := left == 0
      let rightEmpty := right == last
      if leftEmpty || rightEmpty then
        if depth = 255 then
          let leaf ← readLeaf range 0
          .ok (set.push .leaf leaf, leaf, .term)
        else
          let child ← generateMerkleTreeRecurse set range (depth + 1)
          .ok (forwardChild sha256 leftEmpty child)
      else if depth = 255 then
        let first ← readLeaf range 0
        let second ← readLeaf range left
        .ok (set.bottomPair sha256 first second)
      else
        let (front, back) ← splitRange range left
        let leftChild ← generateMerkleTreeRecurse set front (depth + 1)
        let rightChild ← generateMerkleTreeRecurse leftChild.1 back (depth + 1)
        .ok (joinChildren sha256 leftChild rightChild)
termination_by 255 - depth.toNat
decreasing_by
  all_goals
    have hnext : nextDepth depth = .ok (depth + 1) := if_neg ‹_›
    have := toNat_nextDepth hnext
    omega

def fromLeafs (leafs : List Bytes32) : SetResult MerkleSet :=
  let merkleTree : MerkleSet := ⟨[], false, []⟩
  match leafs with
  | [] => .ok (merkleTree.push .empty blank)
  | leafs => do
      let (merkleTree, _, _) ← merkleTree.generateMerkleTreeRecurse sha256 leafs 0
      .ok merkleTree

def hashLeaf (leaf : Bytes32) : Bytes32 := sha256 (leafInput leaf)

def getRoot : Bytes32 :=
  match set.nodes.getLast? with
  | none => blank
  | some last =>
    match last.kind with
    | .leaf => hashLeaf sha256 last.hash
    | .middle _ _ | .truncated => last.hash
    | .empty => blank

/-- The inputs given to SHA-256 while the set was built and its root taken. -/
def hashInputs : List Bytes :=
  match set.nodes.getLast? with
  | some ⟨.leaf, leaf⟩ => set.hashed ++ [leafInput leaf]
  | _ => set.hashed

end Hash

end MerkleSet

/-! The codes that start the parts of a proof. -/

def emptyCode : UInt8 := 0

def terminalCode : UInt8 := 1

def middleCode : UInt8 := 2

def truncatedCode : UInt8 := 3

inductive ParseOp where
  | node
  | middle
deriving Repr, DecidableEq

/-- `?` on `Err(SetError)`. -/
def setError {A : Type} : SetResult A := .error (.error ⟨⟩)

/-- `read_exact(proof, &mut pos, 1)?[0]`. -/
def readCode (proof : Bytes) (pos : Nat) : SetResult (UInt8 × Nat) :=
  match proof[pos]? with
  | none => setError
  | some b => .ok (b, pos + 1)

/-- `read_exact(proof, &mut pos, 32)?` copied to an array. -/
def readHash (proof : Bytes) (pos : Nat) : SetResult (Bytes32 × Nat) :=
  if hlen : ((proof.drop pos).take 32).length = 32 then
    .ok (⟨(proof.drop pos).take 32, hlen⟩, pos + 32)
  else setError

/-- The leaf position audit: bit `p as u8` of the leaf retraces the route, from
position `p` on. -/
def auditLeaf (leaf : Bytes32) : Nat → List Bool → Bool
  | _, [] => true
  | p, v :: bits =>
    if getBit leaf (UInt8.ofNat p) ≠ v then false
    else auditLeaf leaf (p + 1) bits

theorem pos_of_readCode {proof : Bytes} {pos next : Nat} {b : UInt8}
    (hread : readCode proof pos = .ok (b, next)) :
    next = pos + 1 ∧ next ≤ proof.length := by
  unfold readCode at hread
  split at hread
  · cases hread
  · rename_i hget
    cases hread
    exact ⟨rfl, (List.getElem?_eq_some_iff.mp hget).1⟩

theorem pos_of_readHash {proof : Bytes} {pos next : Nat}
    (hread : readHash proof pos = .ok (leaf, next)) :
    next = pos + 32 ∧ next ≤ proof.length := by
  unfold readHash at hread
  split_ifs at hread with hlen
  · cases hread
    rw [List.length_take, List.length_drop] at hlen
    exact ⟨rfl, by omega⟩
  · cases hread

namespace MerkleSet

section Hash

variable (sha256 : HashFn)

/-- The `ParseOp::Middle` step of `deserialize_proof_impl`: the joined value
and the set with the new node. -/
def joinValues (set : MerkleSet) (left right : Nat × NodeType) :
    SetResult ((Nat × NodeType) × MerkleSet) := do
  let newNodeType : NodeType :=
    match left.2, right.2 with
    | .term, .term | .empty, .midDbl | .midDbl, .empty => .midDbl
    | _, _ => .mid
  match left.2, right.2 with
  | .empty, .midDbl =>
    let stored ← set.node right.1
    .ok (right, set.push (.middle left.1 right.1) stored.hash)
  | .midDbl, .empty =>
    let stored ← set.node left.1
    .ok (left, set.push (.middle left.1 right.1) stored.hash)
  | _, _ =>
    let value := (asU32 set.nodes.length, newNodeType)
    let leftNode ← set.node left.1
    let rightNode ← set.node right.1
    let (nodeHash, set) := set.hash sha256 leftNode.kind.nodeType
      rightNode.kind.nodeType leftNode.hash rightNode.hash
    .ok (value, set.push (.middle left.1 right.1) nodeHash)

/-- The loop of `deserialize_proof_impl`; stacks have their top first. -/
def deserializeProofLoop (proof : Bytes) (ops : List ParseOp)
    (bitsStack : List (List Bool)) (values : List (Nat × NodeType))
    (set : MerkleSet) (depth pos : Nat) : SetResult (MerkleSet × Nat) :=
  match ops with
  | [] => .ok (set, pos)
  | op :: ops =>
    match bitsStack with
    | [] => setError
    | bits :: bitsStack =>
      match op with
      | .node =>
        match hcode : readCode proof pos with
        | .error e => .error e
        | .ok (b, next) =>
          if b = emptyCode then
            deserializeProofLoop proof ops bitsStack
              ((asU32 set.nodes.length, .empty) :: values)
              (set.push .empty blank) depth next
          else if b = terminalCode then
            match _ : readHash proof next with
            | .error e => .error e
            | .ok (leaf, after) =>
              if auditLeaf leaf 0 bits then
                deserializeProofLoop proof ops bitsStack
                  ((asU32 set.nodes.length, .term) :: values)
                  (set.push .leaf leaf) depth after
              else setError
          else if b = truncatedCode then
            match _ : readHash proof next with
            | .error e => .error e
            | .ok (th, after) =>
              deserializeProofLoop proof ops bitsStack
                ((asU32 set.nodes.length, .mid) :: values)
                (set.push .truncated th) depth after
          else if b = middleCode then
            if depth > 256 then setError
            else
              deserializeProofLoop proof
                (.node :: .node :: .middle :: ops)
                ((bits ++ [false]) :: (bits ++ [true]) :: [] :: bitsStack)
                values set (depth + 1) next
          else setError
      | .middle =>
        match values with
        | right :: left :: values =>
          match set.joinValues sha256 left right with
          | .error e => .error e
          | .ok (value, set) =>
            if depth = 0 then
              .error (.panic "attempt to subtract with overflow")
            else
              deserializeProofLoop proof ops bitsStack
                (value :: values) set (depth - 1) pos
        | _ => setError
termination_by 3 * (proof.length - pos) + ops.length
decreasing_by
  · have := pos_of_readCode hcode
    simp only [List.length_cons]
    omega
  · have := pos_of_readCode hcode
    have := pos_of_readHash ‹readHash proof next = _›
    simp only [List.length_cons]
    omega
  · have := pos_of_readCode hcode
    have := pos_of_readHash ‹readHash proof next = _›
    simp only [List.length_cons]
    omega
  · have := pos_of_readCode hcode
    simp only [List.length_cons]
    omega
  · simp only [List.length_cons]
    omega

def fromProof (proof : Bytes) : SetResult MerkleSet := do
  let (merkleTree, pos) ←
    deserializeProofLoop sha256 proof [.node] [[]] [] ⟨[], true, []⟩ 0 0
  if pos = proof.length then .ok merkleTree else setError

end Hash

def otherIncluded (set : MerkleSet) (currentNodeIndex : Nat) (proof : Bytes) :
    SetResult Bytes := do
  let current ← set.node currentNodeIndex
  match current.kind with
  | .empty => .ok (proof ++ [emptyCode])
  | .middle _ _ | .truncated =>
    .ok (proof ++ [truncatedCode] ++ current.hash.bytes)
  | .leaf => .ok (proof ++ [terminalCode] ++ current.hash.bytes)

end MerkleSet

def padMiddlesForProofGen (proof : Bytes) (left right : Bytes32)
    (depth : UInt8) : SetResult Bytes :=
  let leftBit := getBit left depth
  let rightBit := getBit right depth
  let proof := proof ++ [middleCode]
  if leftBit ≠ rightBit then
    .ok (proof ++ [terminalCode] ++ left.bytes ++ [terminalCode] ++ right.bytes)
  else
    match _ : nextDepth depth with
    | .error e => .error e
    | .ok next =>
      if leftBit then
        padMiddlesForProofGen (proof ++ [emptyCode]) left right next
      else do
        let proof ← padMiddlesForProofGen proof left right next
        .ok (proof ++ [emptyCode])
termination_by 255 - depth.toNat
decreasing_by
  all_goals
    have := toNat_nextDepth ‹nextDepth depth = _›
    omega

namespace MerkleSet

/-- `generate_proof_impl`: whether the leaf is included, and the proof with
what this call appends. -/
def generateProofImpl (set : MerkleSet) (currentNodeIndex : Nat)
    (leaf : Bytes32) (proof : Bytes) (depth : UInt8) :
    SetResult (Bool × Bytes) := do
  let current ← set.node currentNodeIndex
  match current.kind with
  | .empty => .ok (false, proof ++ [emptyCode])
  | .leaf =>
    .ok (current.hash == leaf, proof ++ [terminalCode] ++ current.hash.bytes)
  | .middle left right =>
    let leftNode ← set.node left
    let rightNode ← set.node right
    if leftNode.kind = .leaf ∧ rightNode.kind = .leaf then
      let proof ← padMiddlesForProofGen proof leftNode.hash rightNode.hash depth
      .ok (leftNode.hash == leaf || rightNode.hash == leaf, proof)
    else
      let proof := proof ++ [middleCode]
      if getBit leaf depth then
        let proof ← set.otherIncluded left proof
        match _ : nextDepth depth with
        | .error e => .error e
        | .ok next => generateProofImpl set right leaf proof next
      else
        match _ : nextDepth depth with
        | .error e => .error e
        | .ok next =>
          let (r, proof) ← generateProofImpl set left leaf proof next
          let proof ← set.otherIncluded right proof
          .ok (r, proof)
  | .truncated => setError
termination_by 255 - depth.toNat
decreasing_by
  all_goals
    have := toNat_nextDepth ‹nextDepth depth = _›
    omega

def generateProof (set : MerkleSet) (leaf : Bytes32) :
    SetResult (Bool × Bytes) :=
  if set.nodes.length = 0 then setError
  else do
    let (included, proof) ←
      set.generateProofImpl (set.nodes.length - 1) leaf [] 0
    if set.isFromProof then .ok (included, []) else .ok (included, proof)

end MerkleSet

def validateMerkleProof (sha256 : HashFn) (proof : Bytes)
    (item root : Bytes32) : SetResult Bool := do
  let tree ← MerkleSet.fromProof sha256 proof
  if tree.getRoot sha256 ≠ root then setError
  else
    let (included, _) ← tree.generateProof item
    .ok included

open ByteBits RadixTree List

def leafBit (leaf : Bytes32) (i : Nat) : Bool := bitOf leaf.bytes i

theorem mask_eq_testBit (b : UInt8) (i : Nat) :
    decide (b &&& (0x80 >>> UInt8.ofNat (i % 8)) ≠ 0) =
      b.toNat.testBit (7 - i % 8) := by
  have hmask : ∀ (n : Fin 256) (k : Fin 8),
      decide (UInt8.ofNat n.val &&& (0x80 >>> UInt8.ofNat k.val) ≠ 0) =
        n.val.testBit (7 - k.val) := by
    decide +kernel
  have := hmask ⟨b.toNat, b.toNat_lt⟩ ⟨i % 8, Nat.mod_lt _ (by decide)⟩
  rwa [UInt8.ofNat_toNat] at this

theorem getBit_eq_leafBit (leaf : Bytes32) (bit : UInt8) :
    getBit leaf bit = leafBit leaf bit.toNat := by
  have hshift : ∀ bit : UInt8, bit &&& 7 = UInt8.ofNat (bit.toNat % 8) := by
    apply forall_byte
    decide +kernel
  unfold getBit leafBit bitOf
  rw [hshift, mask_eq_testBit, UInt8.toNat_div]
  rfl

/-- Leaves are determined by their 256 bits. -/
theorem leafBit_ext (x y : Bytes32)
    (hsame : ∀ i < 256, leafBit x i = leafBit y i) : x = y := by
  apply Bytes32.ext
  apply eq_of_bitOf (x.length_eq.trans y.length_eq.symm)
  intro i hi
  rw [x.length_eq] at hi
  exact hsame i hi

/-- The radix tree of a list of leaves. -/
def leafTree (leafs : List Bytes32) : KeyTree Bytes32 :=
  build leafBit 256 0 leafs

variable {leafs : List Bytes32}

theorem shares_zero : Shares leafBit 0 leafs :=
  fun _ _ _ _ _ hi => absurd hi (Nat.not_lt_zero _)

theorem mem_keys_leafTree : leaf ∈ (leafTree leafs).keys ↔ leaf ∈ leafs :=
  mem_keys_build leafBit_ext rfl shares_zero

/-- Order and repetition of the leaves do not matter. -/
theorem leafTree_congr {leafs leafs' : List Bytes32}
    (hmem : ∀ leaf, leaf ∈ leafs' ↔ leaf ∈ leafs) :
    leafTree leafs' = leafTree leafs :=
  build_congr leafBit_ext rfl shares_zero hmem

theorem placed_leafTree : Placed leafBit 256 0 (leafTree leafs) :=
  placed_build leafBit_ext rfl shares_zero

/-- The classification of a tree for its parent's hash. -/
def treeType : KeyTree Bytes32 → NodeType
  | .empty => .empty
  | .leaf _ => .term
  | .node (.leaf _) (.leaf _) => .midDbl
  | .node _ _ => .mid

theorem treeType_eq_mid_iff {t : KeyTree Bytes32} :
    treeType t = .mid ↔ t.isDeep = true := by
  cases t with
  | empty => simp [treeType, KeyTree.isDeep]
  | leaf _ => simp [treeType, KeyTree.isDeep]
  | node left right => cases left <;> cases right <;> simp [treeType, KeyTree.isDeep]

variable {left right : KeyTree Bytes32}

theorem treeType_node :
    treeType (.node left right) =
      if treeType left == .term && treeType right == .term then .midDbl
      else .mid := by
  cases left with
  | empty => rfl
  | leaf _ =>
    cases right with
    | empty => rfl
    | leaf _ => rfl
    | node l r => cases l <;> cases r <;> rfl
  | node l r => cases l <;> cases r <;> rfl

section Hash

variable (sha256 : HashFn)

/-- The hash of a tree as a child of a node; a leaf stands for itself. -/
def treeNodeHash : KeyTree Bytes32 → Bytes32
  | .empty => blank
  | .leaf leaf => leaf
  | .node left right =>
    sha256 (hashInput (treeType left) (treeType right) (treeNodeHash left)
      (treeNodeHash right))

def treeRoot : KeyTree Bytes32 → Bytes32
  | .empty => blank
  | .leaf leaf => sha256 (leafInput leaf)
  | .node left right => treeNodeHash sha256 (.node left right)

def treeInputs : KeyTree Bytes32 → List Bytes
  | .empty => []
  | .leaf _ => []
  | .node left right =>
    treeInputs left ++ treeInputs right ++
      [hashInput (treeType left) (treeType right) (treeNodeHash sha256 left)
        (treeNodeHash sha256 right)]

/-- The nodes stored for a tree whose first node gets the index `base`.  An
empty left side is stored after its sibling. -/
def layout (base : Nat) : KeyTree Bytes32 → List StoredNode
  | .empty => [⟨.empty, emptyNodeHash⟩]
  | .leaf leaf => [⟨.leaf, leaf⟩]
  | .node .empty right =>
    layout base right ++
      [⟨.empty, emptyNodeHash⟩,
        ⟨.middle (asU32 (base + right.size)) (asU32 (base + right.size - 1)),
          treeNodeHash sha256 (.node .empty right)⟩]
  | .node left right =>
    layout base left ++ layout (base + left.size) right ++
      [⟨.middle (asU32 (base + left.size - 1))
          (asU32 (base + left.size + right.size - 1)),
        treeNodeHash sha256 (.node left right)⟩]

variable {sha256}

theorem length_layout (base : Nat) (t : KeyTree Bytes32) :
    (layout sha256 base t).length = t.size := by
  induction base, t using layout.induct with
  | case1 base => rfl
  | case2 base leaf => rfl
  | case3 base right ih =>
    rw [layout, length_append, ih]
    simp [KeyTree.size]
    omega
  | case4 base left right hne ihleft ihright =>
    rw [layout, length_append, length_append, ihleft, ihright]
    · rfl
    · exact hne

variable {nodes : List StoredNode}

/-- The root of a tree is stored last. -/
theorem getLast?_layout {base : Nat} {t : KeyTree Bytes32} (hne : t ≠ .empty) :
    ∃ kind, (nodes ++ layout sha256 base t).getLast? =
        some ⟨kind, treeNodeHash sha256 t⟩ ∧
      ((kind = .leaf ∧ ∃ leaf, t = .leaf leaf) ∨
        (∃ l r, kind = .middle l r) ∧ ∃ left right, t = .node left right) := by
  cases t with
  | empty => exact absurd rfl hne
  | leaf leaf =>
    rw [layout, getLast?_concat]
    exact ⟨_, rfl, .inl ⟨rfl, leaf, rfl⟩⟩
  | node left right =>
    cases left with
    | empty =>
      rw [layout, ← append_assoc, getLast?_append]
      exact ⟨_, rfl, .inr ⟨⟨_, _, rfl⟩, _, _, rfl⟩⟩
    | leaf _ =>
      rw [layout, ← append_assoc, getLast?_concat]
      · exact ⟨_, rfl, .inr ⟨⟨_, _, rfl⟩, _, _, rfl⟩⟩
      · exact fun h => by cases h
    | node _ _ =>
      rw [layout, ← append_assoc, getLast?_concat]
      · exact ⟨_, rfl, .inr ⟨⟨_, _, rfl⟩, _, _, rfl⟩⟩
      · exact fun h => by cases h

theorem getRoot_layout {set : MerkleSet} {base : Nat} {t : KeyTree Bytes32}
    (hnodes : set.nodes = nodes ++ layout sha256 base t) (hne : t ≠ .empty) :
    set.getRoot sha256 = treeRoot sha256 t := by
  obtain ⟨kind, hlast, ⟨rfl, leaf, rfl⟩ | ⟨⟨l, r, rfl⟩, left, right, rfl⟩⟩ :=
    @getLast?_layout sha256 nodes base t hne
  · rw [MerkleSet.getRoot, hnodes, hlast]
    rfl
  · rw [MerkleSet.getRoot, hnodes, hlast]
    rfl

end Hash

variable {items : List Bytes32} {t : KeyTree Bytes32} {sha256 : HashFn}

inductive MerkleNodeType where
  | terminal
  | middle
  | middleDbl
deriving Repr, DecidableEq

def MerkleNodeType.tag : MerkleNodeType → UInt8
  | .terminal => 1
  | .middle | .middleDbl => 2

def bitIsSet (item : Bytes32) (bit : Nat) : Bool :=
  let byte := bit / 8
  let offset := 7 - bit % 8
  byte < item.bytes.length &&
    (item.bytes.getD byte 0 &&& (1 <<< UInt8.ofNat offset)) ≠ 0

section Hash

variable (sha256 : HashFn)

def merkleHashdown (ltag rtag : UInt8) (left right : Bytes32) : Bytes32 :=
  sha256 (List.replicate 30 0 ++ [ltag, rtag] ++ left.bytes ++ right.bytes)

/-- `merkle_set_recurse`.  From bit 256 on no bit is set and two items are
passed on for ever: the stack overflows. -/
def merkleSetRecurse (items : List Bytes32) (depth : Nat) :
    Except (Fault Empty) (Bytes32 × MerkleNodeType) :=
  match items with
  | [] => .error (.panic "merkle_set_recurse called on empty range")
  | [item] => .ok (item, .terminal)
  | items =>
    if 256 ≤ depth then .error (.panic "stack overflow")
    else
      let split := items.findIdx fun item => bitIsSet item depth
      let left := items.take split
      let right := items.drop split
      match left.isEmpty, right.isEmpty with
      | true, false => do
          let (child, childType) ← merkleSetRecurse right (depth + 1)
          if childType == .middle then
            .ok (merkleHashdown sha256 0 2 blank child, .middle)
          else .ok (child, childType)
      | false, true => do
          let (child, childType) ← merkleSetRecurse left (depth + 1)
          if childType == .middle then
            .ok (merkleHashdown sha256 2 0 child blank, .middle)
          else .ok (child, childType)
      | false, false => do
          let (lhash, ltype) ← merkleSetRecurse left (depth + 1)
          let (rhash, rtype) ← merkleSetRecurse right (depth + 1)
          .ok (merkleHashdown sha256 ltype.tag rtype.tag lhash rhash,
            if ltype == .terminal && rtype == .terminal then .middleDbl
            else .middle)
      | true, true => .error (.panic "merkle_set_recurse called on empty range")
termination_by 256 - depth

def merkleSetRoot (items : List Bytes32) : Except (Fault Empty) Bytes32 :=
  let items := items.mergeSort fun x y => decide (x.bytes ≤ y.bytes)
  let items := items.destutter (· ≠ ·)
  match items with
  | [] => .ok blank
  | items => do
      let (hash, nodeType) ← merkleSetRecurse sha256 items 0
      match nodeType with
      | .terminal => .ok (sha256 (1 :: hash.bytes))
      | .middle | .middleDbl => .ok hash

end Hash

theorem bitIsSet_eq_leafBit (item : Bytes32) (bit : Nat) :
    bitIsSet item bit = leafBit item bit := by
  have hshift : ∀ k < 8,
      (1 : UInt8) <<< UInt8.ofNat (7 - k) = 0x80 >>> UInt8.ofNat k := by
    decide
  unfold bitIsSet leafBit bitOf
  dsimp only
  rw [hshift _ (Nat.mod_lt _ (by decide)), mask_eq_testBit]
  by_cases hinside : bit / 8 < item.bytes.length
  · simp [hinside]
  · have hzero : item.bytes.getD (bit / 8) 0 = 0 := by
      rw [getD_eq_getElem?_getD, getElem?_eq_none (by omega)]
      rfl
    rw [hzero]
    simp [hinside]

/-- The node type of a tree that is not empty, as the producer names it. -/
def rootNodeType (t : KeyTree Bytes32) : MerkleNodeType :=
  match treeType t with
  | .term => .terminal
  | .midDbl => .middleDbl
  | _ => .middle

theorem tag_rootNodeType (hne : t ≠ .empty) :
    (rootNodeType t).tag = encodeType (treeType t) := by
  cases t with
  | empty => exact absurd rfl hne
  | leaf _ => rfl
  | node left right => cases left <;> cases right <;> rfl

/-- In a strictly sorted list the items with a clear bit come first. -/
theorem take_findIdx_eq_half {depth : Nat}
    (hsorted : items.Pairwise fun x y => x.bytes < y.bytes)
    (hshares : Shares leafBit depth items) :
    items.take (items.findIdx fun item => bitIsSet item depth) =
        half leafBit depth false items ∧
      items.drop (items.findIdx fun item => bitIsSet item depth) =
        half leafBit depth true items := by
  induction items with
  | nil => exact ⟨rfl, rfl⟩
  | cons item items ih =>
    obtain ⟨hfirst, hrest⟩ := pairwise_cons.mp hsorted
    have htail : Shares leafBit depth items := fun x hx y hy =>
      hshares x (mem_cons_of_mem _ hx) y (mem_cons_of_mem _ hy)
    rw [findIdx_cons, bitIsSet_eq_leafBit]
    cases hbit : leafBit item depth with
    | false =>
      obtain ⟨hzeros, hones⟩ := ih hrest htail
      simp only [cond_false, take_succ_cons, drop_succ_cons,
        hzeros, hones, half]
      constructor <;> simp [hbit]
    | true =>
      -- every later item is larger and agrees above, so its bit is set too
      have hall : ∀ other ∈ items, leafBit other depth = true := by
        intro other hother
        exact bitOf_of_lt (hfirst other hother)
          (item.length_eq.trans other.length_eq.symm)
          (hshares item mem_cons_self other (mem_cons_of_mem _ hother)) hbit
      simp only [cond_true, take_zero, drop_zero, half]
      constructor
      · apply Eq.symm
        apply filter_eq_nil_iff.mpr
        simpa [hbit] using hall
      · apply Eq.symm
        apply filter_eq_self.mpr
        simpa [hbit] using hall

theorem rootNodeType_eq_middle_iff (hne : t ≠ .empty) :
    rootNodeType t = .middle ↔ t.isDeep = true := by
  rw [← treeType_eq_mid_iff]
  unfold rootNodeType
  cases t with
  | empty => exact absurd rfl hne
  | leaf _ => simp [treeType]
  | node left right => cases left <;> cases right <;> simp [treeType]

/-- The level above a one-sided subtree, as both sides of the source write
it. -/
theorem wrap_hashdown (hne : t ≠ .empty) (side : Bool) :
    (if rootNodeType t == .middle then
        (if side then merkleHashdown sha256 0 2 blank (treeNodeHash sha256 t)
          else merkleHashdown sha256 2 0 (treeNodeHash sha256 t) blank,
          MerkleNodeType.middle)
      else (treeNodeHash sha256 t, rootNodeType t)) =
    (treeNodeHash sha256 (.wrap side t), rootNodeType (.wrap side t)) := by
  cases hdeep : t.isDeep with
  | false =>
    have hmiddle : rootNodeType t ≠ .middle := by
      intro h
      rw [rootNodeType_eq_middle_iff hne, hdeep] at h
      cases h
    rw [if_neg (by simpa using hmiddle), KeyTree.wrap, if_neg (by simp [hdeep])]
  | true =>
    have hmid : treeType t = .mid := treeType_eq_mid_iff.mpr hdeep
    rw [if_pos (by simpa using (rootNodeType_eq_middle_iff hne).mpr hdeep),
      KeyTree.wrap, if_pos hdeep]
    cases side with
    | true =>
      change (_, _) = (sha256 (hashInput .empty (treeType t) blank _), _)
      rw [hmid]
      rfl
    | false =>
      change (_, _) = (sha256 (hashInput (treeType t) .empty _ blank), _)
      rw [hmid]
      cases t with
      | empty => rfl
      | leaf _ => cases hdeep
      | node left right => rfl

/-- A level on which the items part. -/
theorem node_hashdown (hleft : left ≠ .empty) (hright : right ≠ .empty) :
    (merkleHashdown sha256 (rootNodeType left).tag (rootNodeType right).tag
        (treeNodeHash sha256 left) (treeNodeHash sha256 right),
      if rootNodeType left == .terminal && rootNodeType right == .terminal then
        MerkleNodeType.middleDbl
      else .middle) =
    (treeNodeHash sha256 (.node left right), rootNodeType (.node left right)) := by
  rw [tag_rootNodeType hleft, tag_rootNodeType hright]
  refine Prod.ext rfl ?_
  have hterm {t : KeyTree Bytes32} (hne : t ≠ .empty) :
      (rootNodeType t == .terminal) = (treeType t == .term) := by
    unfold rootNodeType
    cases t with
    | empty => exact absurd rfl hne
    | leaf _ => rfl
    | node l r => cases l <;> cases r <;> rfl
  simp only [hterm hleft, hterm hright]
  rw [rootNodeType, treeType_node]
  split_ifs <;> rfl

section Level

variable {depth : Nat} {first second : Bytes32} {rest : List Bytes32}
  (hitems : items = first :: second :: rest) (hdepth : depth < 256)
  (hsorted : items.Pairwise fun x y => x.bytes < y.bytes)
  (hshares : Shares leafBit depth items)

include hitems hdepth hsorted hshares

/-- A level on which the items part. -/
theorem merkleSetRecurse_split (hz : half leafBit depth false items ≠ [])
    (ho : half leafBit depth true items ≠ [])
    (hleft : merkleSetRecurse sha256 (half leafBit depth false items)
      (depth + 1) = .ok (treeNodeHash sha256 left, rootNodeType left))
    (hright : merkleSetRecurse sha256 (half leafBit depth true items)
      (depth + 1) = .ok (treeNodeHash sha256 right, rootNodeType right))
    (hleftNe : left ≠ .empty) (hrightNe : right ≠ .empty) :
    merkleSetRecurse sha256 items depth =
      .ok (treeNodeHash sha256 (.node left right),
        rootNodeType (.node left right)) := by
  obtain ⟨hzeros, hones⟩ := take_findIdx_eq_half hsorted hshares
  have hzFalse : (half leafBit depth false items).isEmpty = false := by
    simpa using hz
  have hoFalse : (half leafBit depth true items).isEmpty = false := by
    simpa using ho
  rw [hitems, merkleSetRecurse, if_neg (not_le.mpr hdepth), ← hitems]
  · simp only [hzeros, hones, hzFalse, hoFalse, hleft, hright, Except.bind_ok,
      node_hashdown hleftNe hrightNe]
  · intro h
    cases h
  · intro only h
    cases h

/-- A level on which all items go to one side. -/
theorem merkleSetRecurse_forward {side : Bool}
    (hside : ∀ key ∈ items, leafBit key depth = side)
    (hchild : merkleSetRecurse sha256 items (depth + 1) =
      .ok (treeNodeHash sha256 t, rootNodeType t)) (hne : t ≠ .empty) :
    merkleSetRecurse sha256 items depth =
      .ok (treeNodeHash sha256 (.wrap side t),
        rootNodeType (.wrap side t)) := by
  obtain ⟨hzeros, hones⟩ := take_findIdx_eq_half hsorted hshares
  have hone : half leafBit depth side items = items :=
    filter_eq_self.mpr fun key hkey => by simp [hside key hkey]
  have hnone : half leafBit depth (!side) items = [] :=
    filter_eq_nil_iff.mpr fun key hkey => by simp [hside key hkey]
  have hsome : items.isEmpty = false := by simp [hitems]
  rw [← wrap_hashdown hne side, hitems, merkleSetRecurse,
    if_neg (not_le.mpr hdepth), ← hitems]
  · cases side with
    | true =>
      rw [Bool.not_true] at hnone
      simp only [hzeros, hones, hone, hnone, hsome, isEmpty_nil, hchild,
        Except.bind_ok, if_true]
      split_ifs <;> rfl
    | false =>
      rw [Bool.not_false] at hnone
      simp only [hzeros, hones, hone, hnone, hsome, isEmpty_nil, hchild,
        Except.bind_ok, Bool.false_eq_true, if_false]
      split_ifs <;> rfl
  · intro h
    cases h
  · intro only h
    cases h

end Level

/-- The recursion computes the hash and the type of the radix tree. -/
theorem merkleSetRecurse_eq {levels depth : Nat}
    (hlevels : depth + levels = 256) (hne : items ≠ [])
    (hsorted : items.Pairwise fun x y => x.bytes < y.bytes)
    (hshares : Shares leafBit depth items) :
    merkleSetRecurse sha256 items depth =
      .ok (treeNodeHash sha256 (build leafBit levels depth items),
        rootNodeType (build leafBit levels depth items)) := by
  induction levels generalizing depth items with
  | zero =>
    obtain rfl : depth = 256 := hlevels
    rcases items with _ | ⟨item, _ | ⟨other, rest⟩⟩
    · exact absurd rfl hne
    · rw [merkleSetRecurse]
      rfl
    · -- two distinct items differ in one of the 256 bits
      have hlt : item.bytes < other.bytes :=
        (pairwise_cons.mp hsorted).1 other mem_cons_self
      have heq := hshares.eq_of_mem leafBit_ext mem_cons_self
        (mem_cons_of_mem item mem_cons_self)
      rw [heq] at hlt
      exact absurd hlt (List.lt_irrefl _)
  | succ levels ih =>
    have hnext : depth + 1 + levels = 256 := by omega
    have hhalf (side : Bool) :
        (half leafBit depth side items).Pairwise
          fun x y => x.bytes < y.bytes := hsorted.sublist filter_sublist
    rcases hitems : items with _ | ⟨item, _ | ⟨other, rest⟩⟩
    · exact absurd hitems hne
    · have hconst : build leafBit (levels + 1) depth [item] = .leaf item :=
        build_const (cons_ne_nil _ _) fun x hx => mem_singleton.mp hx
      rw [merkleSetRecurse, hconst]
      rfl
    rw [← hitems]
    rcases half_cases leafBit items with ⟨hz, ho⟩ | ⟨side, hside⟩
    · rw [build_split hz ho]
      exact merkleSetRecurse_split hitems (by omega) hsorted hshares hz ho
        (ih hnext hz (hhalf false) (hshares.half false))
        (ih hnext ho (hhalf true) (hshares.half true))
        (build_ne_empty leafBit_ext hnext (hshares.half false) hz)
        (build_ne_empty leafBit_ext hnext (hshares.half true) ho)
    · rw [build_forward hside]
      exact merkleSetRecurse_forward hitems (by omega) hsorted hshares hside
        (ih hnext hne hsorted (hshares.forward hside))
        (build_ne_empty leafBit_ext hnext (hshares.forward hside) hne)

theorem mem_destutter {item : Bytes32} :
    item ∈ items.destutter (· ≠ ·) ↔ item ∈ items := by
  have hcons (first : Bytes32) (items : List Bytes32) :
      item ∈ items.destutter' (· ≠ ·) first ↔ item ∈ first :: items := by
    induction items generalizing first with
    | nil => rfl
    | cons second items ih =>
      by_cases hne : first ≠ second
      · rw [destutter'_cons_pos items hne, mem_cons, ih]
        simp only [mem_cons]
      · rw [destutter'_cons_neg items hne, ih, not_not.mp hne]
        simp only [mem_cons, or_self_left]
  cases items with
  | nil => rfl
  | cons first items => exact hcons first items

theorem lt_of_le_of_ne {x y : Bytes32} (hle : x.bytes ≤ y.bytes)
    (hne : x ≠ y) : x.bytes < y.bytes := by
  rcases List.le_iff_lt_or_eq.mp hle with hlt | heq
  · exact hlt
  · exact absurd (Bytes32.ext heq) hne

theorem pairwise_lt_of_sorted
    (hsorted : items.Pairwise fun x y => x.bytes ≤ y.bytes)
    (hchain : items.IsChain (· ≠ ·)) :
    items.Pairwise fun x y => x.bytes < y.bytes := by
  induction items with
  | nil => exact .nil
  | cons first items ih =>
    obtain ⟨hfirst, hrest⟩ := List.pairwise_cons.mp hsorted
    cases items with
    | nil => exact List.pairwise_singleton _ _
    | cons second items =>
      obtain ⟨hne, htail⟩ := List.isChain_cons_cons.mp hchain
      have hstep : first.bytes < second.bytes :=
        lt_of_le_of_ne (hfirst second List.mem_cons_self) hne
      have hlater := ih hrest htail
      apply List.pairwise_cons.mpr ⟨_, hlater⟩
      exact List.forall_mem_cons.mpr ⟨hstep, fun other hother =>
        List.lt_trans hstep ((List.pairwise_cons.mp hlater).1 other hother)⟩

/-- Sorting and deduplicating leave a strictly increasing list. -/
theorem sorted_dedup (items : List Bytes32) :
    ((items.mergeSort fun x y => decide (x.bytes ≤ y.bytes)).destutter
      (· ≠ ·)).Pairwise fun x y => x.bytes < y.bytes := by
  have hsorted : (items.mergeSort fun x y => decide (x.bytes ≤ y.bytes)).Pairwise
      fun x y => decide (x.bytes ≤ y.bytes) = true := by
    apply pairwise_mergeSort
    · intro x y z hxy hyz
      exact decide_eq_true
        (List.le_trans (of_decide_eq_true hxy) (of_decide_eq_true hyz))
    · intro x y
      simpa using List.le_total x.bytes y.bytes
  apply pairwise_lt_of_sorted _ (isChain_destutter _ _)
  exact (hsorted.imp of_decide_eq_true).sublist (destutter_sublist _ _)

/-- The producer's root is the root of the radix tree of the items. -/
theorem merkleSetRoot_eq :
    merkleSetRoot sha256 items = .ok (treeRoot sha256 (leafTree items)) := by
  unfold merkleSetRoot
  have hsorted := sorted_dedup items
  have hmem (item : Bytes32) :
      item ∈ (items.mergeSort fun x y => decide (x.bytes ≤ y.bytes)).destutter
        (· ≠ ·) ↔ item ∈ items := by
    rw [mem_destutter, mem_mergeSort]
  rw [← leafTree_congr hmem]
  dsimp only
  generalize (items.mergeSort fun x y => decide (x.bytes ≤ y.bytes)).destutter
    (· ≠ ·) = sorted at hsorted
  cases sorted with
  | nil => rfl
  | cons item sorted =>
    have hne := cons_ne_nil item sorted
    have htree : leafTree (item :: sorted) ≠ .empty :=
      build_ne_empty leafBit_ext rfl shares_zero hne
    simp only [merkleSetRecurse_eq (Nat.zero_add 256) hne hsorted shares_zero,
      Except.bind_ok, leafTree]
    cases ht : build leafBit 256 0 (item :: sorted) with
    | empty => exact absurd ht htree
    | leaf leaf => rfl
    | node left right => cases left <;> cases right <;> rfl

end DgXch
