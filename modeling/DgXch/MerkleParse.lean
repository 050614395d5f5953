/-
`MerkleSet::from_leafs` stores the radix tree of its leaves, and
`MerkleSet::from_proof` accepts the bytes of a proof tree whose leaves retrace
the route that leads to them.  A layer with an empty side above a double
terminal is stored but passed over when its parent refers to its children.
-/
import DgXch.MerkleSet

namespace DgXch

open RadixTree List DgXch.Except Nat

section FromLeafs

open MerkleSet Int

variable {range : List Bytes32} {depth : UInt8} {leaf : Bytes32}
  {set : MerkleSet} {levels : Nat} {leafs : List Bytes32}

/-- What the two-pointer loop keeps true of the leaves before `l` and from `r`
on. -/
structure Partitioned (depth : UInt8) (start range : List Bytes32) (l r : Nat) :
    Prop where
  perm : range.Perm start
  zeros : ∀ i leaf, i < l → range[i]? = some leaf → getBit leaf depth = false
  ones : ∀ i leaf, r ≤ i → range[i]? = some leaf → getBit leaf depth = true

theorem readLeaf_ok {i : Int32} {n : Nat} (hi : i.toInt = n)
    (hget : range[n]? = some leaf) :
    readLeaf range i = .ok leaf := by
  have hnonneg : ¬ i < 0 := by
    rw [Int32.lt_iff_toInt_lt, hi]
    exact not_lt.mpr (natCast_nonneg n)
  unfold readLeaf
  rw [if_neg hnonneg, hi, toNat_natCast, hget]

namespace Partitioned

variable {start : List Bytes32} {l r : Nat} {x y : Bytes32}

theorem moveLeft (hpart : Partitioned depth start range l r)
    (hx : range[l]? = some x) (hbit : getBit x depth = false) :
    Partitioned depth start range (l + 1) r where
  perm := hpart.perm
  zeros := by
    intro i leaf hi hleaf
    rcases Nat.lt_succ_iff_lt_or_eq.mp hi with hlt | rfl
    · exact hpart.zeros i leaf hlt hleaf
    · rw [hx] at hleaf
      cases hleaf
      exact hbit
  ones := hpart.ones

theorem moveRight (hpart : Partitioned depth start range l (r + 1))
    (hy : range[r]? = some y) (hbit : getBit y depth = true) :
    Partitioned depth start range l r where
  perm := hpart.perm
  zeros := hpart.zeros
  ones := by
    intro i leaf hi hleaf
    rcases eq_or_lt_of_le hi with rfl | hlt
    · rw [hy] at hleaf
      cases hleaf
      exact hbit
    · exact hpart.ones i leaf hlt hleaf

/-- Swapping two misplaced leaves puts both in place. -/
theorem swap (hpart : Partitioned depth start range l (r + 1)) (hlt : l < r)
    (hx : range[l]? = some x) (hy : range[r]? = some y)
    (hxbit : getBit x depth = true) (hybit : getBit y depth = false) :
    Partitioned depth start ((range.set l y).set r x) (l + 1) r := by
  obtain ⟨hl, hxget⟩ := List.getElem?_eq_some_iff.mp hx
  obtain ⟨hr, hyget⟩ := List.getElem?_eq_some_iff.mp hy
  have hget (i : Nat) : ((range.set l y).set r x)[i]? =
      if i = r then some x else if i = l then some y else range[i]? := by
    rw [List.getElem?_set, List.getElem?_set, List.length_set]
    split_ifs <;> first | rfl | omega
  constructor
  · subst hxget hyget
    exact (List.set_set_perm hl hr).trans hpart.perm
  · intro i leaf hi hleaf
    rw [hget, if_neg (by omega)] at hleaf
    split_ifs at hleaf with hil
    · cases hleaf
      exact hybit
    · exact hpart.zeros i leaf (by omega) hleaf
  · intro i leaf hi hleaf
    rw [hget] at hleaf
    split_ifs at hleaf with hir hil
    · cases hleaf
      exact hxbit
    · omega
    · exact hpart.ones i leaf (by omega) hleaf

end Partitioned

/-- The loop ends with the pointers past each other, every leaf in place. -/
theorem partitionLoop_spec {start : List Bytes32}
    (hlength : start.length < 2 ^ 31) {l r : Nat} {left right : Int32}
    (hleft : left.toInt = l) (hright : right.toInt = (r : Int) - 1)
    (hle : l ≤ r) (hbound : r ≤ start.length)
    (hpart : Partitioned depth start range l r) :
    ∃ (range' : List Bytes32) (k : Nat) (left' right' : Int32),
      partitionLoop depth range left right = .ok (range', left', right') ∧
        left'.toInt = k ∧ right'.toInt = (k : Int) - 1 ∧ k ≤ start.length ∧
        Partitioned depth start range' k k := by
  induction hgap : r - l using Nat.strongRecOn generalizing
    range l r left right with
  | _ gap ih =>
    rw [partitionLoop]
    by_cases hdone : left ≤ right
    · rw [if_pos hdone]
      rw [Int32.le_iff_toInt_le, hleft, hright] at hdone
      obtain ⟨r, rfl⟩ : ∃ n, r = n + 1 := ⟨r - 1, by omega⟩
      have hrange : range.length = start.length := hpart.perm.length_eq
      have hleftNext : (left + 1).toInt = ((l + 1 : Nat) : Int) := by
        rw [toInt_add_one (by omega), hleft]
        rfl
      have hrightNow : right.toInt = (r : Int) := by omega
      have hrightNext : (right - 1).toInt = (r : Int) - 1 := by
        rw [toInt_sub_one (by omega), hrightNow]
      obtain ⟨x, hx⟩ : ∃ x, range[l]? = some x :=
        ⟨_, getElem?_eq_getElem (by omega)⟩
      obtain ⟨y, hy⟩ : ∃ y, range[r]? = some y :=
        ⟨_, getElem?_eq_getElem (by omega)⟩
      have hapart : getBit x depth ≠ getBit y depth → l < r := by
        intro hne
        have hlr : l ≠ r := by
          rintro rfl
          rw [hx] at hy
          cases hy
          exact hne rfl
        omega
      rw [readLeaf_ok hleft hx, readLeaf_ok hrightNow hy]
      dsimp only
      rcases Bool.eq_false_or_eq_true (getBit x depth) with hxbit | hxbit
      · rcases Bool.eq_false_or_eq_true (getBit y depth) with hybit | hybit
        · simp only [hxbit, hybit, Bool.not_true, Bool.and_false,
            Bool.false_eq_true, if_false, if_true]
          exact ih (r - l) (by omega) hleft hrightNext (by omega) (by omega)
            (hpart.moveRight hy hybit) rfl
        · have hlt : l < r := hapart (by rw [hxbit, hybit]; decide)
          simp only [hxbit, hybit, Bool.not_false, Bool.and_self, if_true,
            hleft, hrightNow, toNat_natCast]
          exact ih (r - (l + 1)) (by omega) hleftNext hrightNext (by omega)
            (by omega) (hpart.swap hlt hx hy hxbit hybit) rfl
      · have hnext := hpart.moveLeft hx hxbit
        rcases Bool.eq_false_or_eq_true (getBit y depth) with hybit | hybit
        · have hlt : l < r := hapart (by rw [hxbit, hybit]; decide)
          simp only [hxbit, hybit, Bool.not_false, Bool.false_and,
            Bool.false_eq_true, if_false, if_true]
          exact ih (r - (l + 1)) (by omega) hleftNext hrightNext (by omega)
            (by omega) (hnext.moveRight hy hybit) rfl
        · simp only [hxbit, hybit, Bool.not_false, Bool.false_and,
            Bool.false_eq_true, if_false, if_true]
          exact ih (r + 1 - (l + 1)) (by omega) hleftNext hright (by omega)
            hbound hnext rfl
    · rw [if_neg hdone]
      rw [Int32.le_iff_toInt_le, hleft, hright] at hdone
      obtain rfl : l = r := by omega
      exact ⟨range, l, left, right, rfl, hleft, hright, hbound, hpart⟩

variable {sha256 : HashFn}

section Build

theorem subU32_asU32 {n m : Nat} (hm : m ≤ n) (hsmall : m ≤ 2 ^ 32) :
    subU32 (asU32 n) m = asU32 (n - m) := by
  unfold subU32 asU32
  omega

theorem subU32_push (kind : StoredKind) (hash : Bytes32) :
    subU32 (asU32 (set.push kind hash).nodes.length) 2 =
      subU32 (asU32 set.nodes.length) 1 := by
  simp only [push, length_append, length_singleton, subU32, asU32]
  omega

/-- The set after a tree was stored. -/
def stored (sha256 : HashFn) (set : MerkleSet) (t : KeyTree Bytes32) :
    MerkleSet :=
  { set with
    nodes := set.nodes ++ layout sha256 set.nodes.length t
    hashed := set.hashed ++ treeInputs sha256 t }

theorem length_nodes_stored (t : KeyTree Bytes32) :
    (stored sha256 set t).nodes.length = set.nodes.length + t.size := by
  rw [stored, length_append, length_layout]

theorem stored_leaf : set.push .leaf leaf = stored sha256 set (.leaf leaf) := by
  simp [stored, push, layout, treeInputs]

theorem stored_empty :
    set.push .empty emptyNodeHash = stored sha256 set .empty := by
  simp [stored, push, layout, treeInputs]

theorem stored_node {left right : KeyTree Bytes32} (hleft : left ≠ .empty) :
    ((stored sha256 (stored sha256 set left) right).hash sha256 (treeType left)
        (treeType right) (treeNodeHash sha256 left)
        (treeNodeHash sha256 right)).2.push
      (.middle (subU32 (asU32 (stored sha256 set left).nodes.length) 1)
        (subU32 (asU32
          (stored sha256 (stored sha256 set left) right).nodes.length) 1))
      (treeNodeHash sha256 (.node left right)) =
    stored sha256 set (.node left right) := by
  have hpos := left.size_pos
  have hpos' := right.size_pos
  rw [length_nodes_stored, length_nodes_stored, subU32_asU32 (by omega) (by decide),
    subU32_asU32 (by omega) (by decide)]
  simp [stored, push, MerkleSet.hash, treeInputs, length_layout]
  rw [layout]
  · simp
  · exact hleft

/-- Storing a node whose left side is empty: its right side comes first. -/
theorem stored_empty_node (right : KeyTree Bytes32) :
    ((stored sha256 (stored sha256 set right) .empty).hash sha256 .empty
        (treeType right) blank (treeNodeHash sha256 right)).2.push
      (.middle (subU32 (asU32
          (stored sha256 (stored sha256 set right) .empty).nodes.length) 1)
        (subU32 (asU32
          (stored sha256 (stored sha256 set right) .empty).nodes.length) 2))
      (treeNodeHash sha256 (.node .empty right)) =
    stored sha256 set (.node .empty right) := by
  have hpos := right.size_pos
  have hone : (KeyTree.empty : KeyTree Bytes32).size = 1 := rfl
  rw [length_nodes_stored, length_nodes_stored, subU32_asU32 (by omega) (by decide),
    subU32_asU32 (by omega) (by decide)]
  simp [stored, push, MerkleSet.hash, treeInputs, layout, KeyTree.size,
    treeType, treeNodeHash]

end Build

/-- A partitioned range is its two halves. -/
theorem Partitioned.half_eq {start range : List Bytes32} {k : Nat}
    (hpart : Partitioned depth start range k k) :
    half leafBit depth.toNat false range = range.take k ∧
      half leafBit depth.toNat true range = range.drop k := by
  have hzeros : ∀ leaf ∈ range.take k, leafBit leaf depth.toNat = false := by
    intro leaf hleaf
    obtain ⟨i, hi⟩ := getElem?_of_mem hleaf
    rw [getElem?_take] at hi
    split_ifs at hi with hlt
    rw [← getBit_eq_leafBit]
    exact hpart.zeros i leaf hlt hi
  have hones : ∀ leaf ∈ range.drop k, leafBit leaf depth.toNat = true := by
    intro leaf hleaf
    obtain ⟨i, hi⟩ := getElem?_of_mem hleaf
    rw [getElem?_drop] at hi
    rw [← getBit_eq_leafBit]
    exact hpart.ones (k + i) leaf (le_add_right k i) hi
  unfold half
  constructor
  · conv_lhs => rw [← take_append_drop k range, filter_append]
    rw [filter_eq_self.mpr fun leaf h => by simp [hzeros leaf h],
      filter_eq_nil_iff.mpr fun leaf h => by simp [hones leaf h], append_nil]
  · conv_lhs => rw [← take_append_drop k range, filter_append]
    rw [filter_eq_nil_iff.mpr fun leaf h => by simp [hzeros leaf h],
      filter_eq_self.mpr fun leaf h => by simp [hones leaf h], nil_append]

section Recurse

/-- What the recursion returns for a tree. -/
def treeResult (sha256 : HashFn) (set : MerkleSet)
    (t : KeyTree Bytes32) : MerkleSet.Subtree :=
  (stored sha256 set t, treeNodeHash sha256 t, treeType t)

theorem treeResult_leaf :
    (set.push .leaf leaf, leaf, NodeType.term) =
      treeResult sha256 set (.leaf leaf) := by
  rw [stored_leaf]
  rfl

theorem forwardChild_treeResult {t : KeyTree Bytes32} (side : Bool) :
    forwardChild sha256 side (treeResult sha256 set t) =
      treeResult sha256 set (.wrap side t) := by
  cases hdeep : t.isDeep with
  | false =>
    have hmid : treeType t ≠ .mid := by
      intro h
      rw [treeType_eq_mid_iff, hdeep] at h
      cases h
    simp only [forwardChild, treeResult, KeyTree.wrap, hdeep,
      Bool.false_eq_true, if_false, beq_iff_eq, hmid]
  | true =>
    have hmid : treeType t = .mid := treeType_eq_mid_iff.mpr hdeep
    have hne : t ≠ .empty := by
      rintro rfl
      cases hdeep
    unfold treeResult
    rw [KeyTree.wrap, if_pos hdeep]
    cases side with
    | true =>
      rw [if_pos rfl, ← stored_empty_node t]
      simp only [forwardChild, hmid, beq_self_eq_true, if_true,
        ← stored_empty, treeNodeHash]
      rfl
    | false =>
      rw [if_neg Bool.false_ne_true, ← stored_node hne,
        ← subU32_push .empty emptyNodeHash, treeType_node]
      simp only [forwardChild, hmid, beq_self_eq_true, if_true,
        ← stored_empty, treeNodeHash]
      rfl

theorem bottomPair_eq (first second : Bytes32) :
    set.bottomPair sha256 first second =
      treeResult sha256 set (.node (.leaf first) (.leaf second)) := by
  unfold treeResult
  rw [← stored_node (by simp), ← stored_leaf, ← stored_leaf]
  rw [← subU32_push .leaf second]
  rfl

theorem levels_eq_zero (hlevels : depth.toNat + (levels + 1) = 256)
    (hbottom : depth = 255) :
    levels = 0 := by
  rw [hbottom] at hlevels
  exact succ.inj (add_left_cancel hlevels)

theorem splitRange_ok {left : Int32} {k : Nat} (hleft : left.toInt = k)
    (hk : k ≤ range.length) :
    splitRange range left = .ok (range.take k, range.drop k) := by
  have hnonneg : ¬ left < 0 := by
    rw [Int32.lt_iff_toInt_lt, hleft]
    exact not_lt.mpr (natCast_nonneg k)
  unfold splitRange
  rw [hleft, toNat_natCast, if_neg]
  exact not_or.mpr ⟨hnonneg, not_lt.mpr hk⟩

/-- The level below stores the radix tree of every part of a range. -/
def StoresBelow (sha256 : HashFn) (levels : Nat) (depth : UInt8) : Prop :=
  depth ≠ 255 → ∀ {set : MerkleSet} {part : List Bytes32}, part ≠ [] →
    part.length < 2 ^ 31 → Shares leafBit (depth.toNat + 1) part →
    set.generateMerkleTreeRecurse sha256 part (depth + 1) =
      .ok (treeResult sha256 set (build leafBit levels (depth.toNat + 1) part))

section Level

variable (hlevels : depth.toNat + (levels + 1) = 256)
  (hbelow : StoresBelow sha256 levels depth) (hlength : range.length < 2 ^ 31)
  (hshares : Shares leafBit depth.toNat range)

include hlevels hbelow hlength hshares

/-- A level on which all leaves go to one side. -/
theorem oneSided_eq {side : Bool} (hne : range ≠ [])
    (hside : ∀ leaf ∈ range, leafBit leaf depth.toNat = side) :
    (if depth = 255 then
        readLeaf range 0 >>= fun leaf => .ok (set.push .leaf leaf, leaf, .term)
      else
        set.generateMerkleTreeRecurse sha256 range (depth + 1) >>= fun child =>
          .ok (forwardChild sha256 side child)) =
      .ok (treeResult sha256 set
        (build leafBit (levels + 1) depth.toNat range)) := by
  rw [build_forward hside]
  by_cases hbottom : depth = 255
  · obtain rfl := levels_eq_zero hlevels hbottom
    obtain ⟨leaf, tail, rfl⟩ := exists_cons_of_ne_nil hne
    rw [if_pos hbottom, readLeaf_ok (n := 0) rfl rfl, bind_ok]
    exact congrArg Except.ok treeResult_leaf
  · rw [if_neg hbottom, hbelow hbottom hne hlength (hshares.forward hside),
      bind_ok]
    exact congrArg Except.ok (forwardChild_treeResult _)

/-- A level on which the leaves part. -/
theorem twoSided_eq {k : Nat} {left : Int32} (hleft : left.toInt = k)
    (hzero : 0 < k) (hk : k < range.length)
    (hzeros : half leafBit depth.toNat false range = range.take k)
    (hones : half leafBit depth.toNat true range = range.drop k) :
    (if depth = 255 then
        readLeaf range 0 >>= fun first => readLeaf range left >>= fun second =>
          .ok (set.bottomPair sha256 first second)
      else
        splitRange range left >>= fun parts =>
        set.generateMerkleTreeRecurse sha256 parts.1 (depth + 1) >>= fun leftChild =>
        leftChild.1.generateMerkleTreeRecurse sha256 parts.2 (depth + 1) >>=
          fun rightChild => .ok (joinChildren sha256 leftChild rightChild)) =
      .ok (treeResult sha256 set
        (build leafBit (levels + 1) depth.toNat range)) := by
  have hfront : range.take k ≠ [] :=
    length_pos_iff.mp (by rw [length_take]; omega)
  have hback : range.drop k ≠ [] :=
    length_pos_iff.mp (by rw [length_drop]; omega)
  have hleftShares := hshares.half false
  have hrightShares := hshares.half true
  rw [hzeros] at hleftShares
  rw [hones] at hrightShares
  rw [build_split (hzeros ▸ hfront) (hones ▸ hback), hzeros, hones]
  by_cases hbottom : depth = 255
  · obtain rfl := levels_eq_zero hlevels hbottom
    obtain ⟨x, front, hx⟩ := exists_cons_of_ne_nil hfront
    obtain ⟨y, back, hy⟩ := exists_cons_of_ne_nil hback
    have hxget : range[0]? = some x := by
      rw [← getElem?_take_of_lt hzero, hx]
      rfl
    have hyget : range[k]? = some y := by
      have := congrArg (fun part => part[0]?) hy
      simpa using this
    rw [if_pos hbottom, readLeaf_ok rfl hxget, bind_ok,
      readLeaf_ok hleft hyget, bind_ok, hx, hy]
    exact congrArg Except.ok (bottomPair_eq x y)
  · rw [if_neg hbottom, splitRange_ok hleft hk.le, bind_ok,
      hbelow hbottom hfront (by rw [length_take]; omega) hleftShares, bind_ok]
    change (generateMerkleTreeRecurse sha256
      (stored sha256 set _) (range.drop k) (depth + 1) >>= _) = _
    rw [hbelow hbottom hback (by rw [length_drop]; omega) hrightShares, bind_ok]
    unfold treeResult
    rw [← stored_node (build_ne_empty leafBit_ext (by omega) hleftShares
      hfront), treeType_node]
    rfl

end Level

theorem partitioned_start (depth : UInt8) :
    Partitioned depth range range 0 range.length where
  perm := .refl range
  zeros := fun _ _ h => absurd h (Nat.not_lt_zero _)
  ones := fun _ _ hi hget =>
    absurd (List.getElem?_eq_some_iff.mp hget).1 (Nat.not_lt.mpr hi)

/-- The loop leaves the two halves of the range behind each other, and its
pointers tell whether one of them is empty. -/
theorem partitionLoop_halves (hlength : range.length < 2 ^ 31)
    (depth : UInt8) : ∃ (range' : List Bytes32) (left right : Int32) (k : Nat),
      partitionLoop depth range 0 (Int32.ofNat range.length - 1) =
        .ok (range', left, right) ∧
      range'.Perm range ∧ left.toInt = k ∧ k ≤ range'.length ∧
      (left == 0) = decide (k = 0) ∧
      (right == Int32.ofNat range.length - 1) = decide (k = range'.length) ∧
      half leafBit depth.toNat false range' = range'.take k ∧
      half leafBit depth.toNat true range' = range'.drop k := by
  have hlast : (Int32.ofNat range.length - 1).toInt =
      (range.length : Int) - 1 := by
    have hcast := Int32.toInt_ofNat_of_lt hlength
    rw [toInt_sub_one (by omega), hcast]
  obtain ⟨range', k, left, right, hloop, hleft, hright, hk, hpart⟩ :=
    partitionLoop_spec hlength (show (0 : Int32).toInt = (0 : Nat) from rfl)
      hlast (zero_le _) le_rfl (partitioned_start depth)
  rw [← hpart.perm.length_eq] at hlast hk
  refine ⟨range', left, right, k, hloop, hpart.perm, hleft, hk, ?_, ?_,
    hpart.half_eq⟩
  · rw [Bool.eq_iff_iff, beq_iff_eq, decide_eq_true_iff, ← Int32.toInt_inj,
      hleft]
    exact natCast_eq_zero
  · rw [Bool.eq_iff_iff, beq_iff_eq, decide_eq_true_iff, ← Int32.toInt_inj,
      hright, ← hpart.perm.length_eq, hlast]
    omega

/-- The recursion stores the radix tree of its range. -/
theorem generateMerkleTreeRecurse_eq (hlevels : depth.toNat + levels = 256)
    (hne : range ≠ []) (hlength : range.length < 2 ^ 31)
    (hshares : Shares leafBit depth.toNat range) :
    set.generateMerkleTreeRecurse sha256 range depth =
      .ok (treeResult sha256 set (build leafBit levels depth.toNat range)) := by
  induction levels generalizing set range depth with
  | zero =>
    have := depth.toNat_lt
    omega
  | succ levels ih =>
    have hbelow : StoresBelow sha256 levels depth := by
      intro hbottom set part hpart hlength hshares
      have hdepth : (depth + 1).toNat = depth.toNat + 1 :=
        (toNat_nextDepth (if_neg hbottom)).1
      rw [← hdepth] at hshares ⊢
      exact ih (by omega) hpart hlength hshares
    rcases range with _ | ⟨first, _ | ⟨second, rest⟩⟩
    · exact absurd rfl hne
    · have hconst : build leafBit (levels + 1) depth.toNat [first] =
          .leaf first := build_const hne fun x hx => mem_singleton.mp hx
      rw [generateMerkleTreeRecurse, hconst]
      exact congrArg Except.ok treeResult_leaf
    rw [generateMerkleTreeRecurse]
    · generalize first :: second :: rest = range at *
      obtain ⟨range', left, right, k, hloop, hperm, hleft, hk, hleftEmpty,
        hrightEmpty, hzeros, hones⟩ := partitionLoop_halves hlength depth
      have hshares' : Shares leafBit depth.toNat range' := by
        intro x hx y hy
        exact hshares x (hperm.mem_iff.mp hx) y (hperm.mem_iff.mp hy)
      rw [← build_congr leafBit_ext hlevels hshares fun _ => hperm.mem_iff]
      simp only [hloop, bind_ok, hleftEmpty, hrightEmpty]
      rw [← hperm.length_eq] at hlength
      by_cases hone : k = 0 ∨ k = range'.length
      · have hne' : range' ≠ [] := by
          rintro rfl
          exact hne (nil_perm.mp hperm)
        rw [if_pos (by simpa using hone)]
        apply oneSided_eq hlevels hbelow hlength hshares' hne'
        intro leaf hleaf
        rcases hone with rfl | rfl
        · rw [← drop_zero (l := range'), ← hones] at hleaf
          exact (mem_half.mp hleaf).2
        · have hpos := length_pos_iff.mpr hne'
          rw [← take_length (l := range'), ← hzeros] at hleaf
          rw [(mem_half.mp hleaf).2, decide_eq_false hpos.ne']
      · rw [if_neg (by simpa using hone)]
        exact twoSided_eq hlevels hbelow hlength hshares' hleft (by omega)
          (by omega) hzeros hones
    · intro h
      cases h
    · intro leaf h
      cases h

theorem fromLeafs_of_recurse {node : MerkleSet × Bytes32 × NodeType}
    (hne : leafs ≠ []) (h : generateMerkleTreeRecurse sha256 ⟨[], false, []⟩
      leafs 0 = .ok node) : fromLeafs sha256 leafs = .ok node.1 := by
  unfold fromLeafs
  cases leafs with
  | nil => exact absurd rfl hne
  | cons leaf leafs => simp only [h, bind_ok]

/-- `from_leafs` stores the radix tree of its leaves. -/
theorem fromLeafs_eq (hne : leafs ≠ []) (hlength : leafs.length < 2 ^ 31) :
    fromLeafs sha256 leafs =
      .ok (stored sha256 ⟨[], false, []⟩ (leafTree leafs)) :=
  fromLeafs_of_recurse hne
    (generateMerkleTreeRecurse_eq rfl hne hlength shares_zero)

/-- The root of a set of fewer than 2^31 leaves. -/
theorem getRoot_fromLeafs (hlength : leafs.length < 2 ^ 31) :
    ∃ set, fromLeafs sha256 leafs = .ok set ∧
      set.getRoot sha256 = treeRoot sha256 (leafTree leafs) := by
  by_cases hne : leafs = []
  · subst hne
    exact ⟨_, rfl, rfl⟩
  · refine ⟨_, fromLeafs_eq hne hlength, ?_⟩
    exact getRoot_layout rfl (build_ne_empty leafBit_ext rfl shares_zero hne)

/-- Past 2^31 leaves the length is negative as an `i32`: the loop never runs,
no leaf is looked at, and the first one becomes the whole tree. -/
theorem generateMerkleTreeRecurse_long (hlong : 2 ^ 31 < range.length)
    (hlength : range.length < 2 ^ 32) (hfirst : range[0]? = some leaf)
    (depth : UInt8) :
    set.generateMerkleTreeRecurse sha256 range depth =
      .ok (set.push .leaf leaf, leaf, .term) := by
  have hcast : (Int32.ofNat range.length).toInt = (range.length : Int) - 2 ^ 32 := by
    rw [Int32.toInt_ofNat', show Int32.size = 2 ^ 32 from rfl, bmod]
    omega
  have hlast : (Int32.ofNat range.length - 1).toInt =
      (range.length : Int) - 2 ^ 32 - 1 := by
    rw [toInt_sub_one (by omega), hcast]
  have hloop (depth : UInt8) :
      partitionLoop depth range 0 (Int32.ofNat range.length - 1) =
        .ok (range, 0, Int32.ofNat range.length - 1) := by
    rw [partitionLoop, if_neg]
    rw [Int32.le_iff_toInt_le, hlast, Int32.toInt_zero]
    omega
  have hunfold (set : MerkleSet) (depth : UInt8) :
      set.generateMerkleTreeRecurse sha256 range depth =
        if depth = 255 then .ok (set.push .leaf leaf, leaf, .term)
        else set.generateMerkleTreeRecurse sha256 range (depth + 1) >>=
          fun child => .ok (forwardChild sha256 true child) := by
    rcases range with _ | ⟨first, _ | ⟨second, rest⟩⟩
    · cases hfirst
    · exact absurd hlong (by simp)
    · rw [generateMerkleTreeRecurse]
      · simp only [hloop, bind_ok, beq_self_eq_true, Bool.true_or,
          if_true, readLeaf_ok (i := 0) rfl hfirst]
      · intro h
        cases h
      · intro only h
        cases h
  induction hleft : 255 - depth.toNat generalizing depth with
  | zero =>
    have hbottom : depth = 255 := by
      apply UInt8.toNat_inj.mp
      have := depth.toNat_lt
      rw [show (255 : UInt8).toNat = 255 from rfl]
      omega
    rw [hunfold, if_pos hbottom]
  | succ levels ih =>
    have hbottom : depth ≠ 255 := by
      rintro rfl
      cases hleft
    have hnext := (toNat_nextDepth (if_neg hbottom)).1
    rw [hunfold, if_neg hbottom, ih (depth + 1) (by omega)]
    rfl

/-- Past 2^31 leaves the first leaf is the whole set. -/
theorem fromLeafs_long (hlong : 2 ^ 31 < leafs.length)
    (hlength : leafs.length < 2 ^ 32) (hfirst : leafs[0]? = some leaf) :
    fromLeafs sha256 leafs = .ok ⟨[⟨.leaf, leaf⟩], false, []⟩ :=
  fromLeafs_of_recurse (by rintro rfl; cases hfirst)
    (generateMerkleTreeRecurse_long hlong hlength hfirst 0)

end Recurse

/-- Where the two root computations agree: the producer's root depends on the
set of its items alone, and below 2^31 leaves `from_leafs` computes it too. -/
theorem merkleSet_roots_agree (sha256 : HashFn) (leafs : List Bytes32) :
    (∀ leafs' : List Bytes32, (∀ leaf, leaf ∈ leafs' ↔ leaf ∈ leafs) →
      merkleSetRoot sha256 leafs' = merkleSetRoot sha256 leafs) ∧
    (leafs.length < 2 ^ 31 → ∃ set root,
      MerkleSet.fromLeafs sha256 leafs = .ok set ∧
        merkleSetRoot sha256 leafs = .ok root ∧ set.getRoot sha256 = root ∧
        ∀ leafs' : List Bytes32, (∀ leaf, leaf ∈ leafs' ↔ leaf ∈ leafs) →
          leafs'.length < 2 ^ 31 → ∃ set',
            MerkleSet.fromLeafs sha256 leafs' = .ok set' ∧
              set'.getRoot sha256 = root) := by
  constructor
  · intro leafs' hmem
    rw [merkleSetRoot_eq, merkleSetRoot_eq, leafTree_congr hmem]
  · intro hlength
    obtain ⟨set, hset, hroot⟩ := @getRoot_fromLeafs leafs sha256 hlength
    refine ⟨set, _, hset, merkleSetRoot_eq, hroot, ?_⟩
    intro leafs' hmem hlength'
    obtain ⟨set', hset', hroot'⟩ := @getRoot_fromLeafs leafs' sha256 hlength'
    exact ⟨set', hset', hroot'.trans (by rw [leafTree_congr hmem])⟩

/-- Two leaves that part at the first bit, with one of them repeated. -/
theorem merkleSet_roots_agree_at_pair :
    merkleSetRoot hash256 [emptyNodeHash, emptyNodeHash, blank] =
        merkleSetRoot hash256 [blank, emptyNodeHash] ∧
    ∃ set root, MerkleSet.fromLeafs hash256 [blank, emptyNodeHash] = .ok set ∧
        merkleSetRoot hash256 [blank, emptyNodeHash] = .ok root ∧
        set.getRoot hash256 = root ∧
        ∃ set', MerkleSet.fromLeafs hash256
            [emptyNodeHash, emptyNodeHash, blank] = .ok set' ∧
          set'.getRoot hash256 = root := by
  have hmem (leaf : Bytes32) : leaf ∈ [emptyNodeHash, emptyNodeHash, blank] ↔
      leaf ∈ [blank, emptyNodeHash] := by
    simp only [mem_cons, not_mem_nil, or_false]
    tauto
  obtain ⟨hset, hroots⟩ := merkleSet_roots_agree hash256 [blank, emptyNodeHash]
  obtain ⟨set, root, hbuild, hroot, heq, hother⟩ := hroots (by decide)
  exact ⟨hset _ hmem, set, root, hbuild, hroot, heq, hother _ hmem (by decide)⟩

/-- A list of 2^31 + 1 leaves: one leaf, repeated, and a different one. -/
def longLeafs : List Bytes32 := List.replicate (2 ^ 31) blank ++ [emptyNodeHash]

theorem length_longLeafs : longLeafs.length = 2 ^ 31 + 1 := by
  rw [longLeafs, length_append, length_replicate]
  rfl

theorem mem_longLeafs : leaf ∈ longLeafs ↔ leaf ∈ [blank, emptyNodeHash] := by
  rw [longLeafs, mem_append, mem_replicate]
  simp

/-- What `from_leafs` makes of it: the repeated leaf alone. -/
theorem fromLeafs_longLeafs (sha256 : HashFn) :
    fromLeafs sha256 longLeafs = .ok ⟨[⟨.leaf, blank⟩], false, []⟩ := by
  apply fromLeafs_long
  · rw [length_longLeafs]
    decide
  · rw [length_longLeafs]
    decide
  · have hpos : 0 < (List.replicate (2 ^ 31) blank).length := by
      rw [length_replicate]
      decide
    rw [longLeafs, getElem?_append_left hpos, getElem?_replicate,
      if_pos (by decide)]

/-- On a list of 2^31 + 1 leaves the two roots differ. -/
theorem merkleSet_roots_differ_at_longLeafs :
    ∃ set root, MerkleSet.fromLeafs hash256 longLeafs = .ok set ∧
      merkleSetRoot hash256 longLeafs = .ok root ∧
      set.getRoot hash256 ≠ root := by
  refine ⟨_, _, fromLeafs_longLeafs hash256, merkleSetRoot_eq, ?_⟩
  rw [leafTree_congr fun leaf => mem_longLeafs]
  decide +kernel

end FromLeafs

variable {rest : Bytes} {p : ProofTree} {sha256 : HashFn}
  {left right : ProofTree} {code : UInt8} {stored : StoredNode}

/-- The tree that proof bytes spell. -/
inductive ProofTree where
  | empty
  | terminal (leaf : Bytes32)
  | truncated (hash : Bytes32)
  | middle (left right : ProofTree)
deriving Repr, DecidableEq

namespace ProofTree

def bytes : ProofTree → Bytes
  | .empty => [emptyCode]
  | .terminal leaf => terminalCode :: leaf.bytes
  | .truncated hash => truncatedCode :: hash.bytes
  | .middle left right => middleCode :: (left.bytes ++ right.bytes)

def size : ProofTree → Nat
  | .empty | .terminal _ | .truncated _ => 1
  | .middle left right => left.size + right.size + 1

/-- Which child a layer over two types is passed over for: an empty side above
a double terminal adds no layer. -/
def collapse : NodeType → NodeType → Option Bool
  | .empty, .midDbl => some true
  | .midDbl, .empty => some false
  | _, _ => none

theorem collapse_eq_true_iff {left right : NodeType} :
    collapse left right = some true ↔ left = .empty ∧ right = .midDbl := by
  cases left <;> cases right <;> simp [collapse]

theorem collapse_eq_false_iff {left right : NodeType} :
    collapse left right = some false ↔ left = .midDbl ∧ right = .empty := by
  cases left <;> cases right <;> simp [collapse]

/-- The type the parser gives to a subtree. -/
def type : ProofTree → NodeType
  | .empty => .empty
  | .terminal _ => .term
  | .truncated _ => .mid
  | .middle left right =>
    match collapse left.type right.type with
    | some _ => .midDbl
    | none =>
      if left.type == .term && right.type == .term then .midDbl else .mid

section Hash

variable (sha256 : HashFn)

/-- The hash the parser gives to a subtree. -/
def hash : ProofTree → Bytes32
  | .empty => blank
  | .terminal leaf => leaf
  | .truncated hash => hash
  | .middle left right =>
    match collapse left.type right.type with
    | some true => right.hash
    | some false => left.hash
    | none => sha256 (hashInput left.type right.type left.hash right.hash)

/-- The inputs the parser hashes for a subtree. -/
def inputs : ProofTree → List Bytes
  | .empty | .terminal _ | .truncated _ => []
  | .middle left right =>
    left.inputs ++ right.inputs ++
      match collapse left.type right.type with
      | some _ => []
      | none => [hashInput left.type right.type (left.hash sha256)
          (right.hash sha256)]

end Hash

/-- The index under which a parent refers to a subtree stored from `base`
on. -/
def index (base : Nat) : ProofTree → Nat
  | .empty | .terminal _ | .truncated _ => base
  | .middle left right =>
    match collapse left.type right.type with
    | some true => right.index (base + left.size)
    | some false => left.index base
    | none => base + left.size + right.size

/-- The nodes stored for a subtree from index `base` on. -/
def layout (sha256 : HashFn) (base : Nat) : ProofTree → List StoredNode
  | .empty => [⟨.empty, blank⟩]
  | .terminal leaf => [⟨.leaf, leaf⟩]
  | .truncated hash => [⟨.truncated, hash⟩]
  | .middle left right =>
    left.layout sha256 base ++ right.layout sha256 (base + left.size) ++
      [⟨.middle (left.index base) (right.index (base + left.size)),
        (ProofTree.middle left right).hash sha256⟩]

/-- What the parser checks of a subtree on the route `bits`, with `depth`
layers above it. -/
def Admissible : List Bool → Nat → ProofTree → Prop
  | _, _, .empty => True
  | bits, _, .terminal leaf => auditLeaf leaf 0 bits = true
  | _, _, .truncated _ => True
  | bits, depth, .middle left right =>
    depth ≤ 256 ∧ Admissible (bits ++ [false]) (depth + 1) left ∧
      Admissible (bits ++ [true]) (depth + 1) right

/-- What a layer over a right child it is passed over for amounts to. -/
theorem middle_of_right
    (hcollapse : collapse left.type right.type = some true) :
    (middle left right).type = right.type ∧
      (middle left right).hash sha256 = right.hash sha256 ∧
      (middle left right).inputs sha256 =
        left.inputs sha256 ++ right.inputs sha256 ∧
      ∀ base, (middle left right).index base = right.index (base + left.size) := by
  rw [type, hash, inputs, hcollapse, (collapse_eq_true_iff.mp hcollapse).2]
  refine ⟨rfl, rfl, append_nil _, fun base => ?_⟩
  rw [index, hcollapse]

/-- What a layer over a left child it is passed over for amounts to. -/
theorem middle_of_left
    (hcollapse : collapse left.type right.type = some false) :
    (middle left right).type = left.type ∧
      (middle left right).hash sha256 = left.hash sha256 ∧
      (middle left right).inputs sha256 =
        left.inputs sha256 ++ right.inputs sha256 ∧
      ∀ base, (middle left right).index base = left.index base := by
  rw [type, hash, inputs, hcollapse, (collapse_eq_false_iff.mp hcollapse).1]
  refine ⟨rfl, rfl, append_nil _, fun base => ?_⟩
  rw [index, hcollapse]

/-- What a layer that is not passed over amounts to. -/
theorem middle_of_none (hcollapse : collapse left.type right.type = none) :
    (middle left right).type =
        (if left.type == .term && right.type == .term then .midDbl else .mid) ∧
      (middle left right).hash sha256 = sha256 (hashInput left.type right.type
        (left.hash sha256) (right.hash sha256)) ∧
      (middle left right).inputs sha256 =
        left.inputs sha256 ++ right.inputs sha256 ++ [hashInput left.type
          right.type (left.hash sha256) (right.hash sha256)] ∧
      ∀ base, (middle left right).index base =
        base + left.size + right.size := by
  rw [type, hash, inputs, hcollapse]
  refine ⟨rfl, rfl, rfl, fun base => ?_⟩
  rw [index, hcollapse]

theorem size_pos (p : ProofTree) : 0 < p.size := by cases p <;> simp [size]

theorem length_layout (base : Nat) (p : ProofTree) :
    (p.layout sha256 base).length = p.size := by
  induction p generalizing base with
  | empty => rfl
  | terminal _ => rfl
  | truncated _ => rfl
  | middle left right ihleft ihright =>
    simp only [layout, length_append, ihleft, ihright, length_singleton, size]

end ProofTree

open ProofTree

theorem hashInput_congr {l l' r r' : NodeType} (left right : Bytes32)
    (hl : encodeType l = encodeType l') (hr : encodeType r = encodeType r') :
    hashInput l r left right = hashInput l' r' left right := by
  rw [hashInput, hashInput, hl, hr]

section Stored

variable {nodes : List StoredNode} {base : Nat}

variable (sha256) in
/-- A proof tree stands in the node vector from index `base` on. -/
def StoredAt (nodes : List StoredNode) (base : Nat) (p : ProofTree) : Prop :=
  ∃ before after, before.length = base ∧
    nodes = before ++ (p.layout sha256 base ++ after)

theorem StoredAt.sides
    (hstored : StoredAt sha256 nodes base (.middle left right)) :
    StoredAt sha256 nodes base left ∧
      StoredAt sha256 nodes (base + left.size) right ∧
      nodes[base + left.size + right.size]? =
        some ⟨.middle (left.index base) (right.index (base + left.size)),
          (ProofTree.middle left right).hash sha256⟩ := by
  obtain ⟨before, after, rfl, rfl⟩ := hstored
  simp only [ProofTree.layout, append_assoc]
  refine ⟨⟨before, _, rfl, rfl⟩, ⟨before ++ left.layout sha256 before.length,
    _, ?_, (append_assoc _ _ _).symm⟩, ?_⟩
  · rw [length_append, ProofTree.length_layout]
  · rw [getElem?_append_right (by omega),
      getElem?_append_right (by rw [ProofTree.length_layout]; omega),
      getElem?_append_right (by simp only [ProofTree.length_layout]; omega)]
    simp only [ProofTree.length_layout]
    rw [show before.length + left.size + right.size - before.length -
      left.size - right.size = 0 by omega]
    rfl

theorem StoredAt.single (hstored : StoredAt sha256 nodes base p)
    (hlayout : p.layout sha256 base = [stored]) :
    nodes[base]? = some stored := by
  obtain ⟨before, after, rfl, rfl⟩ := hstored
  rw [hlayout, getElem?_append_right le_rfl, Nat.sub_self]
  rfl

/-- The node a parent refers to has the subtree's hash and type code. -/
theorem StoredAt.getElem?_index (hstored : StoredAt sha256 nodes base p) :
    ∃ kind, nodes[p.index base]? = some ⟨kind, p.hash sha256⟩ ∧
      encodeType kind.nodeType = encodeType p.type := by
  induction p generalizing base with
  | empty => exact ⟨_, hstored.single rfl, rfl⟩
  | terminal leaf => exact ⟨_, hstored.single rfl, rfl⟩
  | truncated hash => exact ⟨_, hstored.single rfl, rfl⟩
  | middle left right ihleft ihright =>
    obtain ⟨hleft, hright, hget⟩ := hstored.sides
    rcases hcollapse : collapse left.type right.type with
      _ | _ | _
    · obtain ⟨htype, _, _, hindex⟩ := @middle_of_none sha256 _ _ hcollapse
      rw [hindex, htype]
      refine ⟨_, hget, ?_⟩
      simp only [StoredKind.nodeType]
      split_ifs <;> rfl
    · obtain ⟨htype, hhash, _, hindex⟩ := @middle_of_left sha256 _ _ hcollapse
      rw [hindex, htype, hhash]
      exact ihleft hleft
    · obtain ⟨htype, hhash, _, hindex⟩ := @middle_of_right sha256 _ _ hcollapse
      rw [hindex, htype, hhash]
      exact ihright hright

variable (sha256) in
/-- The set after a proof tree was parsed. -/
def parsed (set : MerkleSet) (p : ProofTree) : MerkleSet :=
  { set with
    nodes := set.nodes ++ p.layout sha256 set.nodes.length
    hashed := set.hashed ++ p.inputs sha256 }

theorem length_nodes_parsed (set : MerkleSet) (p : ProofTree) :
    (parsed sha256 set p).nodes.length = set.nodes.length + p.size := by
  rw [parsed, length_append, ProofTree.length_layout]

open MerkleSet

theorem node_eq_ok {set : MerkleSet} {i : Nat}
    (hget : set.nodes[i]? = some stored) : set.node i = .ok stored := by
  rw [node, hget]

theorem joinValues_eq {set : MerkleSet} (left right : Nat × NodeType) :
    set.joinValues sha256 left right =
      match collapse left.2 right.2 with
      | some true => set.node right.1 >>= fun stored =>
        .ok (right, set.push (.middle left.1 right.1) stored.hash)
      | some false => set.node left.1 >>= fun stored =>
        .ok (left, set.push (.middle left.1 right.1) stored.hash)
      | none => set.node left.1 >>= fun leftNode =>
        set.node right.1 >>= fun rightNode =>
          let joined := set.hash sha256 leftNode.kind.nodeType
            rightNode.kind.nodeType leftNode.hash rightNode.hash
          .ok ((asU32 set.nodes.length,
              if left.2 == .term && right.2 == .term then .midDbl else .mid),
            joined.2.push (.middle left.1 right.1) joined.1) := by
  obtain ⟨leftIndex, leftType⟩ := left
  obtain ⟨rightIndex, rightType⟩ := right
  cases leftType <;> cases rightType <;> rfl

/-- Joining two parsed subtrees stores their middle node. -/
theorem joinValues_parsed {set : MerkleSet}
    (hroom : set.nodes.length + left.size + right.size < 2 ^ 32) :
    (parsed sha256 (parsed sha256 set left) right).joinValues sha256
        (left.index set.nodes.length, left.type)
        (right.index (set.nodes.length + left.size), right.type) =
      .ok (((ProofTree.middle left right).index set.nodes.length,
          (ProofTree.middle left right).type),
        parsed sha256 set (.middle left right)) := by
  have hleft : StoredAt sha256 (parsed sha256 (parsed sha256 set left) right).nodes
      set.nodes.length left :=
    ⟨set.nodes, right.layout sha256 (parsed sha256 set left).nodes.length, rfl,
      append_assoc _ _ _⟩
  have hright : StoredAt sha256 (parsed sha256 (parsed sha256 set left) right).nodes
      (set.nodes.length + left.size) right := by
    refine ⟨(parsed sha256 set left).nodes, [], length_nodes_parsed set left, ?_⟩
    rw [← length_nodes_parsed set left, append_nil]
    rfl
  obtain ⟨lkind, hlget, hlcode⟩ := hleft.getElem?_index
  obtain ⟨rkind, hrget, hrcode⟩ := hright.getElem?_index
  have hcount : (parsed sha256 (parsed sha256 set left) right).nodes.length =
      set.nodes.length + left.size + right.size := by
    rw [length_nodes_parsed, length_nodes_parsed]
  have hlayout : (parsed sha256 (parsed sha256 set left) right).nodes ++
      [⟨.middle (left.index set.nodes.length)
        (right.index (set.nodes.length + left.size)),
        (ProofTree.middle left right).hash sha256⟩] =
      (parsed sha256 set (.middle left right)).nodes := by
    simp only [parsed, ProofTree.layout, length_append,
      ProofTree.length_layout, append_assoc]
  rw [joinValues_eq]
  dsimp only
  rcases hcollapse : collapse left.type right.type with _ | _ | _
  · obtain ⟨htype, hhash, hinputs, hindex⟩ :=
      @middle_of_none sha256 _ _ hcollapse
    have hlen : asU32 (parsed sha256 (parsed sha256 set left) right).nodes.length =
        set.nodes.length + left.size + right.size := by
      rw [hcount, asU32]
      exact mod_eq_of_lt hroom
    simp only [node_eq_ok hlget, node_eq_ok hrget, bind_ok, hlen,
      push, MerkleSet.hash, hashInput_congr _ _ hlcode hrcode,
      hindex, htype, ← hhash, hlayout]
    simp only [parsed, hinputs, append_assoc]
  · obtain ⟨htype, hhash, hinputs, hindex⟩ :=
      @middle_of_left sha256 _ _ hcollapse
    simp only [node_eq_ok hlget, bind_ok, push, hindex, htype, ← hhash, hlayout]
    simp only [parsed, hinputs, append_assoc]
  · obtain ⟨htype, hhash, hinputs, hindex⟩ :=
      @middle_of_right sha256 _ _ hcollapse
    simp only [node_eq_ok hrget, bind_ok, push, hindex, htype, ← hhash, hlayout]
    simp only [parsed, hinputs, append_assoc]

variable (sha256) in
/-- Reading a tree stores a node for each of its codes; where the indices fit in
a `u32`, these are its layout. -/
structure StoresTree (set : MerkleSet) (p : ProofTree) (value : Nat × NodeType)
    (after : MerkleSet) : Prop where
  count : after.nodes.length = set.nodes.length + p.size
  inRange : value.1 < after.nodes.length
  fits : after.nodes.length ≤ 2 ^ 32 →
    value = (p.index set.nodes.length, p.type) ∧ after = parsed sha256 set p

theorem StoresTree.push {set : MerkleSet} {kind : StoredKind} {hash : Bytes32}
    (hlayout : p.layout sha256 set.nodes.length = [⟨kind, hash⟩])
    (hinputs : p.inputs sha256 = [])
    (hindex : p.index set.nodes.length = set.nodes.length) :
    StoresTree sha256 set p (asU32 set.nodes.length, p.type)
      (set.push kind hash) := by
  have hcount : (set.push kind hash).nodes.length = set.nodes.length + 1 := by
    rw [MerkleSet.push, length_append, length_singleton]
  have hsize := congrArg length hlayout
  rw [ProofTree.length_layout, length_singleton] at hsize
  refine ⟨by rw [hcount, hsize], ?_, ?_⟩
  · rw [hcount]
    exact lt_succ_of_le (mod_le _ _)
  · intro hroom
    rw [hcount] at hroom
    rw [hindex, parsed, hlayout, hinputs, append_nil, asU32, mod_eq_of_lt hroom]
    exact ⟨rfl, rfl⟩

theorem joinValues_ok {set : MerkleSet} {l r : Nat × NodeType}
    (hl : l.1 < set.nodes.length) (hr : r.1 < set.nodes.length) :
    ∃ value after, set.joinValues sha256 l r = .ok (value, after) ∧
      value.1 < after.nodes.length ∧
      after.nodes.length = set.nodes.length + 1 := by
  rw [joinValues_eq, node_eq_ok (getElem?_eq_getElem hl),
    node_eq_ok (getElem?_eq_getElem hr)]
  rcases collapse l.2 r.2 with _ | _ | _
  all_goals
    refine ⟨_, _, rfl, ?_, by simp [MerkleSet.push, MerkleSet.hash]⟩
    simp only [MerkleSet.push, MerkleSet.hash, length_append, length_singleton]
  · exact lt_succ_of_le (mod_le _ _)
  · exact lt_succ_of_lt hl
  · exact lt_succ_of_lt hr

theorem StoresTree.join {set mid after : MerkleSet} {l r : Nat × NodeType}
    (hleft : StoresTree sha256 set left l mid)
    (hright : StoresTree sha256 mid right r after) :
    ∃ value joined, after.joinValues sha256 l r = .ok (value, joined) ∧
      StoresTree sha256 set (.middle left right) value joined := by
  have hmid := hleft.count
  have hafter := hright.count
  have hl := hleft.inRange
  obtain ⟨value, joined, hjoined, hrange, hcount⟩ :=
    @joinValues_ok sha256 after l r (by omega) hright.inRange
  refine ⟨value, joined, hjoined, ?_, hrange, ?_⟩
  · rw [ProofTree.size]
    omega
  · intro hroom
    obtain ⟨rfl, rfl⟩ := hleft.fits (by omega)
    obtain ⟨rfl, rfl⟩ := hright.fits (by omega)
    rw [length_nodes_parsed, joinValues_parsed (by omega)] at hjoined
    cases hjoined
    exact ⟨rfl, rfl⟩

end Stored

section Loop

variable {sha256 : HashFn} {proof : Bytes} {ops : List ParseOp}
  {bits : List Bool} {bitsStack : List (List Bool)}
  {values : List (Nat × NodeType)} {set : MerkleSet} {depth pos : Nat}

theorem readCode_of_drop (hdrop : proof.drop pos = code :: rest) :
    readCode proof pos = .ok (code, pos + 1) := by
  have hget : proof[pos]? = some code := by
    have := congrArg (fun rest => rest[0]?) hdrop
    simpa using this
  rw [readCode, hget]

theorem drop_succ
    (hdrop : proof.drop pos = code :: rest) : proof.drop (pos + 1) = rest := by
  rw [← drop_drop, hdrop]
  rfl

/-- Reading a hash fails, or takes 32 bytes off the rest. -/
theorem readHash_cases :
    readHash proof pos = setError ∨
      ∃ (hash : Bytes32) (rest : Bytes), proof.drop pos = hash.bytes ++ rest ∧
          readHash proof pos = .ok (hash, pos + 32) := by
  unfold readHash
  by_cases hlen : ((proof.drop pos).take 32).length = 32
  · exact .inr ⟨⟨_, hlen⟩, (proof.drop pos).drop 32,
      (take_append_drop 32 _).symm, dif_pos hlen⟩
  · exact .inl (dif_neg hlen)

/-- One `ParseOp::Node` step, without the recursion's bookkeeping. -/
theorem deserializeProofLoop_code (hdrop : proof.drop pos = code :: rest) :
    MerkleSet.deserializeProofLoop sha256 proof (.node :: ops)
        (bits :: bitsStack) values set depth pos =
      if code = emptyCode then
        MerkleSet.deserializeProofLoop sha256 proof ops bitsStack
          ((asU32 set.nodes.length, .empty) :: values)
          (set.push .empty blank) depth (pos + 1)
      else if code = terminalCode then
        readHash proof (pos + 1) >>= fun read =>
          if auditLeaf read.1 0 bits then
            MerkleSet.deserializeProofLoop sha256 proof ops bitsStack
              ((asU32 set.nodes.length, .term) :: values)
              (set.push .leaf read.1) depth read.2
          else setError
      else if code = truncatedCode then
        readHash proof (pos + 1) >>= fun read =>
          MerkleSet.deserializeProofLoop sha256 proof ops bitsStack
            ((asU32 set.nodes.length, .mid) :: values)
            (set.push .truncated read.1) depth read.2
      else if code = middleCode then
        if depth > 256 then setError
        else
          MerkleSet.deserializeProofLoop sha256 proof
            (.node :: .node :: .middle :: ops)
            ((bits ++ [false]) :: (bits ++ [true]) :: [] :: bitsStack)
            values set (depth + 1) (pos + 1)
      else setError := by
  have hcode := readCode_of_drop hdrop
  rw [MerkleSet.deserializeProofLoop]
  split
  · rename_i herror
    rw [hcode] at herror
    cases herror
  · rename_i hok
    rw [hcode] at hok
    cases hok
    split_ifs
    · rfl
    · split <;> simp_all [bind_ok, bind_error]
    · split <;> simp_all [bind_ok, bind_error]
    all_goals rfl

theorem readHash_of_drop {hash : Bytes32}
    (hdrop : proof.drop pos = hash.bytes ++ rest) :
    readHash proof pos = .ok (hash, pos + 32) := by
  have htake : (proof.drop pos).take 32 = hash.bytes := by
    rw [hdrop, take_left' hash.length_eq]
  rw [readHash, dif_pos (by rw [htake, hash.length_eq])]
  simp only [htake]

/-- The parser reads the bytes of an admissible tree and goes on after
them. -/
theorem deserializeProofLoop_bytes (hdrop : proof.drop pos = p.bytes ++ rest)
    (hadmissible : p.Admissible bits depth) :
    ∃ value after, StoresTree sha256 set p value after ∧
      MerkleSet.deserializeProofLoop sha256 proof (.node :: ops)
          (bits :: bitsStack) values set depth pos =
        MerkleSet.deserializeProofLoop sha256 proof ops bitsStack
          (value :: values) after depth (pos + p.bytes.length) := by
  induction p generalizing ops bits bitsStack values set depth pos rest with
  | empty =>
    refine ⟨_, _, .push rfl rfl rfl, ?_⟩
    rw [deserializeProofLoop_code hdrop, if_pos rfl]
    rfl
  | terminal leaf =>
    have haudit : auditLeaf leaf 0 bits = true := hadmissible
    refine ⟨_, _, .push rfl rfl rfl, ?_⟩
    rw [deserializeProofLoop_code hdrop, if_neg (by decide), if_pos rfl,
      readHash_of_drop (drop_succ hdrop), bind_ok, if_pos haudit,
      ProofTree.bytes, length_cons, leaf.length_eq]
    rfl
  | truncated hash =>
    refine ⟨_, _, .push rfl rfl rfl, ?_⟩
    rw [deserializeProofLoop_code hdrop, if_neg (by decide),
      if_neg (by decide), if_pos rfl, readHash_of_drop (drop_succ hdrop),
      bind_ok, ProofTree.bytes, length_cons, hash.length_eq]
    rfl
  | middle left right ihleft ihright =>
    obtain ⟨hdepth, hadmitl, hadmitr⟩ := hadmissible
    have hleft : proof.drop (pos + 1) = left.bytes ++ (right.bytes ++ rest) :=
      (drop_succ hdrop).trans (append_assoc _ _ _)
    have hright : proof.drop (pos + 1 + left.bytes.length) =
        right.bytes ++ rest := by
      rw [← drop_drop, hleft, drop_left]
    obtain ⟨l, mid, hleftStores, hloopl⟩ := ihleft hleft hadmitl
    obtain ⟨r, after, hrightStores, hloopr⟩ := ihright hright hadmitr
    obtain ⟨value, joined, hjoined, hreads⟩ := hleftStores.join hrightStores
    refine ⟨value, joined, hreads, ?_⟩
    rw [deserializeProofLoop_code hdrop, if_neg (by decide), if_neg (by decide),
      if_neg (by decide), if_pos rfl, if_neg (Nat.not_lt.mpr hdepth), hloopl,
      hloopr, MerkleSet.deserializeProofLoop, hjoined]
    dsimp only
    rw [if_neg (Nat.succ_ne_zero _), Nat.add_sub_cancel]
    congr 1
    rw [ProofTree.bytes, length_cons, length_append]
    omega

variable (sha256 proof ops bits bitsStack values set depth pos) in
/-- At a `ParseOp::Node` the parser rejects, or stands before the bytes of an
admissible tree. -/
def ReadsTree : Prop :=
  MerkleSet.deserializeProofLoop sha256 proof (.node :: ops)
      (bits :: bitsStack) values set depth pos = setError ∨
    ∃ (p : ProofTree) (rest : Bytes), proof.drop pos = p.bytes ++ rest ∧
      p.Admissible bits depth

theorem readsTree_nil (hdrop : proof.drop pos = []) :
    ReadsTree sha256 proof ops bits bitsStack values set depth pos := by
  left
  have hcode : readCode proof pos = setError := by
    rw [readCode, getElem?_eq_none (drop_eq_nil_iff.mp hdrop)]
  rw [MerkleSet.deserializeProofLoop]
  split
  · rename_i herror
    rw [hcode] at herror
    cases herror
    rfl
  · rename_i hok
    rw [hcode] at hok
    cases hok

theorem readsTree_terminal (hdrop : proof.drop pos = terminalCode :: rest) :
    ReadsTree sha256 proof ops bits bitsStack values set depth pos := by
  rcases readHash_cases with
    hread | ⟨leaf, after, hbytes, hread⟩
  · left
    rw [deserializeProofLoop_code hdrop, if_neg (by decide), if_pos rfl, hread]
    rfl
  by_cases haudit : auditLeaf leaf 0 bits = true
  · right
    refine ⟨.terminal leaf, after, ?_, haudit⟩
    rw [hdrop, ← drop_succ hdrop, hbytes]
    rfl
  · left
    rw [deserializeProofLoop_code hdrop, if_neg (by decide), if_pos rfl, hread,
      bind_ok, if_neg haudit]

theorem readsTree_truncated (hdrop : proof.drop pos = truncatedCode :: rest) :
    ReadsTree sha256 proof ops bits bitsStack values set depth pos := by
  rcases readHash_cases with
    hread | ⟨hash, after, hbytes, hread⟩
  · left
    rw [deserializeProofLoop_code hdrop, if_neg (by decide),
      if_neg (by decide), if_pos rfl, hread]
    rfl
  · right
    refine ⟨.truncated hash, after, ?_, trivial⟩
    rw [hdrop, ← drop_succ hdrop, hbytes]
    rfl

/-- Two subtrees read in turn after a middle code make one tree. -/
theorem readsTree_middle (hdrop : proof.drop pos = middleCode :: rest)
    (hleft : ReadsTree sha256 proof (.node :: .middle :: ops) (bits ++ [false])
      ((bits ++ [true]) :: [] :: bitsStack) values set (depth + 1) (pos + 1))
    (hright : ∀ (left : ProofTree) (after : Bytes), rest = left.bytes ++ after →
      ∀ value mid, ReadsTree sha256 proof (.middle :: ops) (bits ++ [true])
        ([] :: bitsStack) (value :: values) mid (depth + 1)
        (pos + 1 + left.bytes.length)) :
    ReadsTree sha256 proof ops bits bitsStack values set depth pos := by
  have hstep := @deserializeProofLoop_code _ _ sha256 proof ops bits bitsStack
    values set depth pos hdrop
  rw [if_neg (by decide), if_neg (by decide), if_neg (by decide), if_pos rfl]
    at hstep
  by_cases hdepth : depth > 256
  · left
    rw [hstep, if_pos hdepth]
  rw [if_neg hdepth] at hstep
  rcases hleft with herror | ⟨left, after, hbytes, hadmitl⟩
  · exact .inl (hstep.trans herror)
  have hrest : rest = left.bytes ++ after := by rw [← hbytes, drop_succ hdrop]
  obtain ⟨value, mid, -, hread⟩ := deserializeProofLoop_bytes hbytes hadmitl
  rcases hright left after hrest value mid with
    herror | ⟨right, last, hlast, hadmitr⟩
  · left
    rw [hstep, hread, herror]
  · right
    rw [← drop_drop, hbytes, drop_left] at hlast
    refine ⟨.middle left right, last, ?_, not_lt.mp hdepth, hadmitl, hadmitr⟩
    rw [hdrop, hrest, hlast, ProofTree.bytes, cons_append, append_assoc]

theorem readsTree :
    ReadsTree sha256 proof ops bits bitsStack values set depth pos := by
  -- Strong induction on the bytes that are left, as the loop consumes them.
  induction hlen : (proof.drop pos).length using Nat.strongRecOn generalizing
    ops bits bitsStack values set depth pos with
  | _ n ih =>
    rcases hdrop : proof.drop pos with _ | ⟨code, rest⟩
    · exact readsTree_nil hdrop
    rw [hdrop, length_cons] at hlen
    by_cases hempty : code = emptyCode
    · exact .inr ⟨.empty, rest, by rw [hdrop, hempty]; rfl, trivial⟩
    by_cases hterminal : code = terminalCode
    · exact readsTree_terminal (hterminal ▸ hdrop)
    by_cases htruncated : code = truncatedCode
    · exact readsTree_truncated (htruncated ▸ hdrop)
    by_cases hmiddle : code = middleCode
    · have hnext := drop_succ hdrop
      apply readsTree_middle (hmiddle ▸ hdrop)
      · apply ih _ _ rfl
        rw [hnext]
        omega
      · intro left after hbytes value mid
        have hlength := congrArg List.length hbytes
        rw [length_append] at hlength
        apply ih _ _ rfl
        rw [← drop_drop, hnext, hbytes, drop_left]
        omega
    · left
      rw [deserializeProofLoop_code hdrop, if_neg hempty, if_neg hterminal,
        if_neg htruncated, if_neg hmiddle]

/-- `from_proof` accepts the bytes of an admissible tree. -/
theorem fromProof_bytes (hadmissible : p.Admissible [] 0) :
    ∃ value set, StoresTree sha256 ⟨[], true, []⟩ p value set ∧
      MerkleSet.fromProof sha256 p.bytes = .ok set := by
  obtain ⟨value, set, hreads, hloop⟩ := @deserializeProofLoop_bytes _ _ sha256
    p.bytes [] _ [] [] ⟨[], true, []⟩ _ 0 (append_nil _).symm hadmissible
  refine ⟨value, set, hreads, ?_⟩
  rw [MerkleSet.fromProof, hloop, MerkleSet.deserializeProofLoop, bind_ok,
    zero_add]
  exact if_pos rfl

theorem fromProof_fits (hadmissible : p.Admissible [] 0)
    (hroom : p.size ≤ 2 ^ 32) :
    MerkleSet.fromProof sha256 p.bytes =
      .ok (parsed sha256 ⟨[], true, []⟩ p) := by
  obtain ⟨value, set, hreads, hset⟩ := @fromProof_bytes p sha256 hadmissible
  rw [hset, (hreads.fits (by simpa [hreads.count] using hroom)).2]

/-- What `from_proof` does not reject spells an admissible tree. -/
theorem fromProof_cases :
    MerkleSet.fromProof sha256 proof = setError ∨
      ∃ p : ProofTree, proof = p.bytes ∧ p.Admissible [] 0 := by
  have hreads : ReadsTree sha256 proof [] [] [] [] ⟨[], true, []⟩ 0 0 :=
    readsTree
  rcases hreads with herror | ⟨p, rest, hbytes, hadmissible⟩
  · left
    rw [MerkleSet.fromProof, herror]
    rfl
  obtain ⟨value, set, -, hloop⟩ :=
    deserializeProofLoop_bytes hbytes hadmissible
  rw [drop_zero] at hbytes
  by_cases hend : p.bytes.length = proof.length
  · right
    refine ⟨p, ?_, hadmissible⟩
    rw [hbytes, length_append] at hend
    rw [hbytes, eq_nil_of_length_eq_zero (left_eq_add.mp hend), append_nil]
  · left
    rw [MerkleSet.fromProof, hloop, MerkleSet.deserializeProofLoop, bind_ok,
      zero_add]
    exact if_neg hend

end Loop

end DgXch
