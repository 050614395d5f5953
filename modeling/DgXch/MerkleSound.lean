/-
Why merkle proofs cannot lie, and that they are complete.  A proof tree reveals
the radix tree it stands for as far as the item's path goes, and where the hash
has no collision on the inputs used, a proof tree with the root of a leaf set
reveals the radix tree of that set.  `generate_proof` spells such a proof tree.
-/
import DgXch.MerkleParse

namespace DgXch

open RadixTree List DgXch.Except ProofTree MerkleSet

section Sound

open KeyTree Nat

variable {hash : Bytes32} {l r : Nat} {set : MerkleSet} {depth : UInt8}
  {x y : Bytes32} {next : UInt8} {left right : KeyTree Bytes32} {leaf : Bytes32}
  {side : Bool}

section Reveals

variable (item : Bytes32) (allowed : Prop)

/-- A proof tree at `depth` stands for a radix tree.  Subtrees may be cut off
beside the item's path, and on it where that is `allowed`. -/
inductive Reveals : Bool → Nat → ProofTree → KeyTree Bytes32 → Prop where
  | empty {onPath : Bool} {depth : Nat} : Reveals onPath depth .empty .empty
  | terminal {onPath : Bool} {depth : Nat} {leaf : Bytes32} :
      Reveals onPath depth (.terminal leaf) (.leaf leaf)
  | truncated {onPath : Bool} {depth : Nat} {hash : Bytes32}
      {left right : KeyTree Bytes32} (hcut : onPath = true → allowed) :
      Reveals onPath depth (.truncated hash) (.node left right)
  | middle {onPath : Bool} {depth : Nat} {p q : ProofTree}
      {left right : KeyTree Bytes32}
      (hcollapse : ProofTree.collapse p.type q.type = none)
      (hleft : Reveals (onPath && !leafBit item depth) (depth + 1) p left)
      (hright : Reveals (onPath && leafBit item depth) (depth + 1) q right) :
      Reveals onPath depth (.middle p q) (.node left right)
  | overLeft {onPath : Bool} {depth : Nat} {p q : ProofTree}
      {t : KeyTree Bytes32}
      (hcollapse : ProofTree.collapse p.type q.type = some false)
      (hchild : Reveals onPath depth p t) : Reveals onPath depth (.middle p q) t
  | overRight {onPath : Bool} {depth : Nat} {p q : ProofTree}
      {t : KeyTree Bytes32}
      (hcollapse : ProofTree.collapse p.type q.type = some true)
      (hchild : Reveals onPath depth q t) : Reveals onPath depth (.middle p q) t

variable (nodes : List StoredNode)

/-- The node at an index stands for a radix tree, in the same sense. -/
inductive Shows : Bool → Nat → Nat → KeyTree Bytes32 → Prop where
  | empty {onPath : Bool} {depth i : Nat} {hash : Bytes32}
      (hget : nodes[i]? = some ⟨.empty, hash⟩) : Shows onPath depth i .empty
  | leaf {onPath : Bool} {depth i : Nat} {leaf : Bytes32}
      (hget : nodes[i]? = some ⟨.leaf, leaf⟩) : Shows onPath depth i (.leaf leaf)
  | truncated {onPath : Bool} {depth i : Nat} {hash : Bytes32}
      {left right : KeyTree Bytes32}
      (hget : nodes[i]? = some ⟨.truncated, hash⟩) (hcut : onPath = true → allowed) :
      Shows onPath depth i (.node left right)
  | middle {onPath : Bool} {depth i l r : Nat} {hash : Bytes32}
      {left right : KeyTree Bytes32}
      (hget : nodes[i]? = some ⟨.middle l r, hash⟩)
      (hleft : Shows (onPath && !leafBit item depth) (depth + 1) l left)
      (hright : Shows (onPath && leafBit item depth) (depth + 1) r right) :
      Shows onPath depth i (.node left right)

end Reveals

variable {item : Bytes32} {allowed : Prop} {onPath : Bool} {t : KeyTree Bytes32}

section Shows

variable {nodes : List StoredNode} {depth i : Nat}

/-- A stored proof tree shows at its index what the tree reveals. -/
theorem Reveals.shows {sha256 : HashFn} {base : Nat} {p : ProofTree}
    (hreveals : Reveals item allowed onPath depth p t)
    (hstored : StoredAt sha256 nodes base p) :
    Shows item allowed nodes onPath depth (p.index base) t := by
  induction hreveals generalizing base with
  | empty => exact .empty (hstored.single rfl)
  | terminal => exact .leaf (hstored.single rfl)
  | truncated hcut => exact .truncated (hstored.single rfl) hcut
  | middle hcollapse _ _ ihleft ihright =>
    obtain ⟨hleft, hright, hget⟩ := hstored.sides
    have hindex := (@middle_of_none sha256 _ _ hcollapse).2.2.2
    rw [hindex]
    exact .middle hget (ihleft hleft) (ihright hright)
  | overLeft hcollapse _ ih =>
    have hindex := (@middle_of_left sha256 _ _ hcollapse).2.2.2
    rw [hindex]
    exact ih hstored.sides.1
  | overRight hcollapse _ ih =>
    have hindex := (@middle_of_right sha256 _ _ hcollapse).2.2.2
    rw [hindex]
    exact ih hstored.sides.2.1

/-- A shown node is there, and it is a leaf node only for a leaf. -/
theorem Shows.node (hshows : Shows item allowed nodes onPath depth i t) :
    ∃ stored : StoredNode, nodes[i]? = some stored ∧
      (stored.kind = .leaf → t = .leaf stored.hash) ∧
      ∀ key, t = .leaf key → stored.kind = .leaf := by
  cases hshows with
  | empty hget => exact ⟨_, hget, by simp⟩
  | leaf hget => exact ⟨_, hget, by simp⟩
  | truncated hget _ => exact ⟨_, hget, by simp⟩
  | middle hget _ _ => exact ⟨_, hget, by simp⟩

end Shows

/-- `other_included` reads a node and appends to the proof. -/
theorem otherIncluded_ok {i : Nat} {stored : StoredNode}
    (hget : set.nodes[i]? = some stored) {proof : Bytes} :
    ∃ out, set.otherIncluded i proof = .ok out := by
  obtain ⟨kind, hash⟩ := stored
  rw [otherIncluded, node_eq_ok hget, bind_ok]
  cases kind with
  | leaf => exact ⟨_, rfl⟩
  | middle l r => exact ⟨_, rfl⟩
  | empty => exact ⟨_, rfl⟩
  | truncated => exact ⟨_, rfl⟩

theorem nextDepth_ok (hlt : depth.toNat < 255) :
    ∃ next, nextDepth depth = .ok next := by
  refine ⟨depth + 1, if_neg ?_⟩
  intro hlast
  rw [hlast] at hlt
  exact absurd hlt (by decide)

/-- A deep node is not at the last depth. -/
theorem nextDepth_of_deep (hplaced : Placed leafBit 256 depth.toNat (node left right))
    (hdeep : (node left right).isDeep = true) :
    ∃ next, nextDepth depth = .ok next ∧ next.toNat = depth.toNat + 1 := by
  have hlt := hplaced.succ_depth_lt hdeep
  obtain ⟨next, hnext⟩ := nextDepth_ok (Nat.lt_of_succ_lt_succ hlt)
  exact ⟨next, hnext, (toNat_nextDepth hnext).1⟩

/-- Two leaves part at a bit. -/
structure PartAt (x y : Bytes32) (n : Nat) : Prop where
  lt : n < 256
  same : ∀ i < n, leafBit x i = leafBit y i
  left : leafBit x n = false
  right : leafBit y n = true

/-- The layers above a pair of leaves that parts `gap` bits below `depth`. -/
def padTree (x y : Bytes32) : Nat → Nat → ProofTree
  | 0, _ => .middle (.terminal x) (.terminal y)
  | gap + 1, depth =>
    if leafBit x depth then .middle .empty (padTree x y gap (depth + 1))
    else .middle (padTree x y gap (depth + 1)) .empty

/-- `pad_middles_for_proof_gen` appends those layers. -/
theorem padMiddlesForProofGen_eq {gap : Nat}
    (hparts : PartAt x y (depth.toNat + gap)) (proof : Bytes) :
    padMiddlesForProofGen proof x y depth =
      .ok (proof ++ (padTree x y gap depth.toNat).bytes) := by
  induction gap generalizing depth proof with
  | zero =>
    rw [add_zero] at hparts
    rw [padMiddlesForProofGen, getBit_eq_leafBit, getBit_eq_leafBit,
      hparts.left, hparts.right, if_pos Bool.false_ne_true]
    simp [padTree, bytes]
  | succ gap ih =>
    have hwidth := hparts.lt
    obtain ⟨next, hnext⟩ := nextDepth_ok (show depth.toNat < 255 by omega)
    have htoNat := (toNat_nextDepth hnext).1
    have hshift : next.toNat + gap = depth.toNat + (gap + 1) := by omega
    have hbit := hparts.same depth.toNat (by omega)
    rw [← hshift] at hparts
    have hrest := ih hparts
    rw [padMiddlesForProofGen, getBit_eq_leafBit, getBit_eq_leafBit, ← hbit,
      if_neg (by simp)]
    split
    · rename_i herror
      rw [hnext] at herror
      cases herror
    · rename_i hok
      rw [hnext] at hok
      cases hok
      rw [padTree, ← htoNat]
      split_ifs
      · rw [hrest]
        simp [bytes]
      · rw [hrest]
        simp [bytes, bind_ok]

section Search

variable {i : Nat} {proof : Bytes}

theorem generateProofImpl_empty (hget : set.nodes[i]? = some ⟨.empty, hash⟩) :
    set.generateProofImpl i leaf proof depth =
      .ok (false, proof ++ [emptyCode]) := by
  rw [generateProofImpl, node_eq_ok hget, bind_ok]

theorem generateProofImpl_leaf {key : Bytes32}
    (hget : set.nodes[i]? = some ⟨.leaf, key⟩) :
    set.generateProofImpl i leaf proof depth =
      .ok (key == leaf, proof ++ [terminalCode] ++ key.bytes) := by
  rw [generateProofImpl, node_eq_ok hget, bind_ok]

theorem generateProofImpl_truncated
    (hget : set.nodes[i]? = some ⟨.truncated, hash⟩) :
    set.generateProofImpl i leaf proof depth = setError := by
  rw [generateProofImpl, node_eq_ok hget, bind_ok]

theorem beq_eq_mem_leaf (key : Bytes32) :
    (key == item) = decide (item ∈ (KeyTree.leaf key).keys) := by
  rw [Bool.eq_iff_iff, beq_iff_eq, decide_eq_true_eq, KeyTree.keys,
    mem_singleton]
  exact eq_comm

/-- A pair of leaves needs no path: both are compared with the item. -/
theorem search_twin {gap : Nat}
    (hget : set.nodes[i]? = some ⟨.middle l r, hash⟩)
    (hleft : set.nodes[l]? = some ⟨.leaf, x⟩)
    (hright : set.nodes[r]? = some ⟨.leaf, y⟩)
    (hparts : PartAt x y (depth.toNat + gap)) :
    set.generateProofImpl i item proof depth =
      .ok (decide (item ∈ (node (.leaf x) (.leaf y)).keys),
        proof ++ (padTree x y gap depth.toNat).bytes) := by
  have hanswer : (x == item || y == item) =
      decide (item ∈ (node (.leaf x) (.leaf y)).keys) := by
    rw [Bool.eq_iff_iff, Bool.or_eq_true, beq_eq_mem_leaf, beq_eq_mem_leaf,
      decide_eq_true_eq, decide_eq_true_eq, decide_eq_true_eq]
    exact mem_append.symm
  rw [generateProofImpl, node_eq_ok hget, bind_ok]
  dsimp only
  rw [node_eq_ok hleft, node_eq_ok hright, bind_ok, bind_ok,
    if_pos ⟨rfl, rfl⟩, padMiddlesForProofGen_eq hparts, bind_ok, hanswer]

/-- Under a deep node the item can only be on the side of its bit. -/
theorem mem_keys_deep {depth : Nat}
    (hzeros : ∀ key ∈ left.keys, leafBit key depth = false)
    (hones : ∀ key ∈ right.keys, leafBit key depth = true) :
    item ∈ (node left right).keys ↔
      if leafBit item depth then item ∈ right.keys else item ∈ left.keys := by
  rw [KeyTree.keys, mem_append]
  cases hbit : leafBit item depth with
  | true =>
    rw [if_pos rfl]
    refine or_iff_right fun hmem => ?_
    rw [hzeros item hmem] at hbit
    cases hbit
  | false =>
    rw [if_neg Bool.false_ne_true]
    refine or_iff_left fun hmem => ?_
    rw [hones item hmem] at hbit
    cases hbit

variable (set item allowed t) in
/-- The search for the item in a subtree answers membership, or meets a
truncated subtree. -/
def Answers (i : Nat) (depth : UInt8) : Prop :=
  ∀ proof, (allowed ∧ set.generateProofImpl i item proof depth = setError) ∨
    ∃ out, set.generateProofImpl i item proof depth =
      .ok (decide (item ∈ t.keys), out)

section Deep

variable {lstored rstored : StoredNode}
  (hget : set.nodes[i]? = some ⟨.middle l r, hash⟩)
  (hlget : set.nodes[l]? = some lstored) (hrget : set.nodes[r]? = some rstored)
  (hkinds : ¬ (lstored.kind = .leaf ∧ rstored.kind = .leaf))
  (hnext : nextDepth depth = .ok next)

include hget hlget hrget hkinds hnext

/-- A node above other than a pair of leaves: the search goes to one side and
records the other. -/
theorem generateProofImpl_deep :
    set.generateProofImpl i leaf proof depth =
      if leafBit leaf depth.toNat then
        set.otherIncluded l (proof ++ [middleCode]) >>= fun proof =>
          set.generateProofImpl r leaf proof next
      else
        set.generateProofImpl l leaf (proof ++ [middleCode]) next >>= fun found =>
          set.otherIncluded r found.2 >>= fun proof => .ok (found.1, proof) := by
  rw [generateProofImpl, node_eq_ok hget, bind_ok]
  dsimp only
  rw [node_eq_ok hlget, node_eq_ok hrget, bind_ok, bind_ok,
    if_neg hkinds, getBit_eq_leafBit]
  split_ifs
  · congr 1
    funext proof
    split
    · simp_all
    · simp_all
  · split
    · simp_all
    · simp_all

/-- A deep node answers as its side on the item's path. -/
theorem Answers.deep (hmem : item ∈ t.keys ↔
      if leafBit item depth.toNat then item ∈ right.keys else item ∈ left.keys)
    (hleft : leafBit item depth.toNat = false →
      Answers set item allowed left l next)
    (hright : leafBit item depth.toNat = true →
      Answers set item allowed right r next) :
    Answers set item allowed t i depth := by
  intro proof
  rw [generateProofImpl_deep hget hlget hrget hkinds hnext]
  cases hbit : leafBit item depth.toNat with
  | true =>
    rw [hbit, if_pos rfl] at hmem
    obtain ⟨out, hother⟩ := otherIncluded_ok hlget
    rw [if_pos rfl, hother, bind_ok]
    simp only [hmem]
    exact hright hbit out
  | false =>
    rw [hbit, if_neg Bool.false_ne_true] at hmem
    rw [if_neg Bool.false_ne_true]
    rcases hleft hbit (proof ++ [middleCode]) with ⟨hcut, hsearch⟩ | ⟨out, hsearch⟩
    · left
      rw [hsearch]
      exact ⟨hcut, rfl⟩
    · right
      obtain ⟨out', hother⟩ := otherIncluded_ok hrget
      rw [hsearch, bind_ok, hother, bind_ok]
      simp only [hmem]
      exact ⟨out', rfl⟩

end Deep

/-- The search answers from any shown node that is in its place. -/
theorem search_shows
    (hshows : Shows item allowed set.nodes true depth.toNat i t)
    (hplaced : Placed leafBit 256 depth.toNat t) :
    Answers set item allowed t i depth := by
  induction t generalizing i depth with
  | empty =>
    intro proof
    cases hshows with
    | empty hget => exact .inr ⟨_, generateProofImpl_empty hget⟩
  | leaf key =>
    intro proof
    cases hshows with
    | leaf hget =>
      right
      rw [generateProofImpl_leaf hget, beq_eq_mem_leaf]
      exact ⟨_, rfl⟩
  | node left right ihleft ihright =>
    cases hshows with
    | truncated hget hcut =>
      intro proof
      exact .inl ⟨hcut rfl, generateProofImpl_truncated hget⟩
    | @middle _ _ _ l r _ _ _ hget hleft hright =>
      obtain ⟨lstored, hlget, hlleaf, hlkind⟩ := hleft.node
      obtain ⟨rstored, hrget, hrleaf, hrkind⟩ := hright.node
      by_cases hkinds : lstored.kind = .leaf ∧ rstored.kind = .leaf
      · intro proof
        right
        obtain ⟨lkind, x⟩ := lstored
        obtain ⟨rkind, y⟩ := rstored
        obtain ⟨rfl, rfl⟩ := hkinds
        obtain rfl := hlleaf rfl
        obtain rfl := hrleaf rfl
        cases hplaced with
        | deep _ _ _ _ hdeep _ => cases hdeep
        | twin hle hwidth hsame hx hy =>
          obtain ⟨gap, rfl⟩ := Nat.exists_eq_add_of_le hle
          exact ⟨_, search_twin hget hlget hrget ⟨hwidth, hsame, hx, hy⟩⟩
      · cases hplaced with
        | twin => exact absurd ⟨hlkind _ rfl, hrkind _ rfl⟩ hkinds
        | deep hpleft hpright hzeros hones hdeep hsides =>
          obtain ⟨next, hnext, htoNat⟩ := nextDepth_of_deep
            (.deep hpleft hpright hzeros hones hdeep hsides) hdeep
          rw [← htoNat] at hpleft hpright hleft hright
          apply Answers.deep hget hlget hrget hkinds hnext
            (mem_keys_deep hzeros hones)
          · intro hbit
            rw [hbit] at hleft
            exact ihleft hleft hpleft
          · intro hbit
            rw [hbit] at hright
            exact ihright hright hpright

end Search

theorem auditLeaf_append {p : Nat} {bits more : List Bool}
    (haudit : auditLeaf leaf p (bits ++ more) = true) :
    auditLeaf leaf p bits = true := by
  induction bits generalizing p with
  | nil => rfl
  | cons v bits ih =>
    rw [cons_append, auditLeaf] at haudit
    rw [auditLeaf]
    split_ifs at haudit ⊢
    exact ih haudit

variable {p : ProofTree} {sha256 : HashFn}

section Root

variable {depth : Nat}

theorem code_middle {q : ProofTree} : encodeType (middle p q).type = 2 := by
  rw [type]
  split
  · rfl
  · split_ifs <;> rfl

theorem ProofTree.eq_empty_of_type (htype : p.type = .empty) : p = .empty := by
  cases p with
  | empty => rfl
  | terminal _ => cases htype
  | truncated _ => cases htype
  | middle left right => cases htype ▸ @code_middle left right

theorem ProofTree.eq_terminal_of_type (htype : p.type = .term) :
    ∃ leaf, p = .terminal leaf := by
  cases p with
  | empty => cases htype
  | terminal leaf => exact ⟨leaf, rfl⟩
  | truncated _ => cases htype
  | middle left right => cases htype ▸ @code_middle left right

/-- A double terminal reveals a pair of leaves that were audited against the
route above it. -/
theorem Reveals.twin (hreveals : Reveals item allowed onPath depth p t)
    {bits : List Bool} {level : Nat} (hadmissible : p.Admissible bits level)
    (htype : p.type = .midDbl) :
    ∃ x y, t = .node (.leaf x) (.leaf y) ∧ auditLeaf x 0 bits = true ∧
      auditLeaf y 0 bits = true ∧
      ∀ onPath depth, Reveals item allowed onPath depth p t := by
  induction hreveals generalizing bits level with
  | empty => cases htype
  | terminal => cases htype
  | truncated => cases htype
  | @middle _ _ p q left right hcollapse hleft hright _ _ =>
    rw [(@middle_of_none (fun _ => blank) _ _ hcollapse).1] at htype
    split_ifs at htype with hterm
    rw [Bool.and_eq_true, beq_iff_eq, beq_iff_eq] at hterm
    obtain ⟨x, rfl⟩ := eq_terminal_of_type hterm.1
    obtain ⟨y, rfl⟩ := eq_terminal_of_type hterm.2
    cases hleft
    cases hright
    obtain ⟨_, hx, hy⟩ := hadmissible
    exact ⟨x, y, rfl, auditLeaf_append hx, auditLeaf_append hy,
      fun _ _ => .middle hcollapse .terminal .terminal⟩
  | overLeft hcollapse _ ih =>
    obtain ⟨x, y, ht, hx, hy, hany⟩ :=
      ih hadmissible.2.1 (collapse_eq_false_iff.mp hcollapse).1
    exact ⟨x, y, ht, auditLeaf_append hx, auditLeaf_append hy,
      fun _ _ => .overLeft hcollapse (hany _ _)⟩
  | overRight hcollapse _ ih =>
    obtain ⟨x, y, ht, hx, hy, hany⟩ :=
      ih hadmissible.2.2 (collapse_eq_true_iff.mp hcollapse).2
    exact ⟨x, y, ht, auditLeaf_append hx, auditLeaf_append hy,
      fun _ _ => .overRight hcollapse (hany _ _)⟩

/-- A pair of leaves that agree on bit 0 is in its place one level down. -/
theorem placed_one_of_twin
    (hplaced : Placed leafBit 256 0 (.node (.leaf x) (.leaf y)))
    (hx : leafBit x 0 = side) (hy : leafBit y 0 = side) :
    Placed leafBit 256 1 (.node (.leaf x) (.leaf y)) := by
  cases hplaced with
  | deep _ _ _ _ hdeep _ => cases hdeep
  | @twin _ k _ _ _ hwidth hsame hzero hone =>
    refine .twin (Nat.pos_of_ne_zero ?_) hwidth hsame hzero hone
    rintro rfl
    rw [hzero] at hx
    rw [hone, ← hx] at hy
    cases hy

theorem leafBit_of_audit
    (haudit : auditLeaf leaf 0 [side] = true) : leafBit leaf 0 = side := by
  rw [auditLeaf, getBit_eq_leafBit] at haudit
  split_ifs at haudit with hbit
  exact not_not.mp hbit

/-- A layer above a pair of leaves, with an empty other side, answers as the
pair does. -/
theorem answers_layer {i l r : Nat} {x y hash blankHash : Bytes32} (side : Bool)
    (hget : set.nodes[i]? = some ⟨.middle l r, hash⟩)
    (hempty : set.nodes[if side then l else r]? = some ⟨.empty, blankHash⟩)
    (hchild : Shows item allowed set.nodes true 1 (if side then r else l)
      (.node (.leaf x) (.leaf y)))
    (hplaced : Placed leafBit 256 0 (.node (.leaf x) (.leaf y)))
    (hx : leafBit x 0 = side) (hy : leafBit y 0 = side) :
    Answers set item allowed (.node (.leaf x) (.leaf y)) i 0 := by
  have hside : item ∈ (node (.leaf x) (.leaf y)).keys →
      leafBit item 0 = side := by
    intro hmem
    simp only [KeyTree.keys, mem_append, mem_singleton] at hmem
    rcases hmem with rfl | rfl
    · exact hx
    · exact hy
  have hanswers : Answers set item allowed (.node (.leaf x) (.leaf y))
      (if side then r else l) 1 :=
    search_shows hchild (placed_one_of_twin hplaced hx hy)
  have hnothing : Answers set item allowed .empty (if side then l else r) 1 :=
    search_shows (.empty hempty) .empty
  obtain ⟨stored, hstored, hleaf, _⟩ := hchild.node
  have hkind : stored.kind ≠ .leaf := by
    intro h
    cases hleaf h
  have hnext : nextDepth 0 = .ok 1 := rfl
  cases side with
  | true =>
    refine .deep hget hempty hstored (fun h => hkind h.2) hnext ?_
      (fun _ => hnothing) (fun _ => hanswers)
    split_ifs with hbit
    · rfl
    · exact iff_of_false (fun h => hbit (hside h)) not_mem_nil
  | false =>
    refine .deep hget hstored hempty (fun h => hkind h.1) hnext ?_
      (fun _ => hanswers) (fun _ => hnothing)
    split_ifs with hbit
    · exact iff_of_false
        (fun h => Bool.false_ne_true ((hside h).symm.trans hbit)) not_mem_nil
    · rfl

/-- The root of a parsed proof answers, also where it is a layer that is passed
over. -/
theorem answers_root (hreveals : Reveals item allowed true 0 p t)
    (hplaced : Placed leafBit 256 0 t) (hadmissible : p.Admissible [] 0) :
    Answers (parsed sha256 ⟨[], true, []⟩ p) item allowed t (p.size - 1) 0 := by
  have hstored : StoredAt sha256 (parsed sha256 ⟨[], true, []⟩ p).nodes 0 p :=
    ⟨[], [], rfl, (append_nil _).symm⟩
  have hroot (hindex : p.index 0 = p.size - 1) :
      Answers (parsed sha256 ⟨[], true, []⟩ p) item allowed t (p.size - 1) 0 := by
    have hshows := hreveals.shows hstored
    rw [hindex] at hshows
    exact search_shows hshows hplaced
  cases hreveals with
  | empty => exact hroot rfl
  | terminal => exact hroot rfl
  | truncated => exact hroot rfl
  | middle hcollapse _ _ =>
    apply hroot
    rw [(@middle_of_none sha256 _ _ hcollapse).2.2.2, zero_add]
    rfl
  | @overLeft _ _ p q _ hcollapse hchild =>
    obtain ⟨hleft, hright, hget⟩ := hstored.sides
    obtain ⟨htype, hempty⟩ := collapse_eq_false_iff.mp hcollapse
    obtain rfl := eq_empty_of_type hempty
    obtain ⟨x, y, rfl, hx, hy, hany⟩ := hchild.twin hadmissible.2.1 htype
    rw [zero_add] at hget hright
    exact answers_layer false hget (hright.single rfl)
      ((hany true 1).shows hleft) hplaced (leafBit_of_audit hx)
      (leafBit_of_audit hy)
  | @overRight _ _ p q _ hcollapse hchild =>
    obtain ⟨hleft, hright, hget⟩ := hstored.sides
    obtain ⟨hempty, htype⟩ := collapse_eq_true_iff.mp hcollapse
    obtain rfl := eq_empty_of_type hempty
    obtain ⟨x, y, rfl, hx, hy, hany⟩ := hchild.twin hadmissible.2.2 htype
    rw [zero_add] at hget hright
    exact answers_layer true hget (hleft.single rfl)
      ((hany true 1).shows hright) hplaced (leafBit_of_audit hx)
      (leafBit_of_audit hy)

end Root

def ProofTree.root (sha256 : HashFn) : ProofTree → Bytes32
  | .terminal leaf => sha256 (leafInput leaf)
  | p => p.hash sha256

section Validate

variable {root : Bytes32}

theorem getRoot_parsed :
    (parsed sha256 ⟨[], true, []⟩ p).getRoot sha256 = p.root sha256 := by
  cases p with
  | empty => rfl
  | terminal leaf => rfl
  | truncated hash => rfl
  | middle left right =>
    rw [getRoot, parsed, nil_append, ProofTree.layout, getLast?_concat]
    rfl

/-- Validating the bytes of an admissible tree compares its root and searches
it. -/
theorem validateMerkleProof_bytes (hadmissible : p.Admissible [] 0)
    (hroom : p.size ≤ 2 ^ 32) :
    validateMerkleProof sha256 p.bytes item root =
      if p.root sha256 ≠ root then setError
      else
        (parsed sha256 ⟨[], true, []⟩ p).generateProofImpl (p.size - 1) item [] 0
          >>= fun found => .ok found.1 := by
  have hpos := p.size_pos
  rw [validateMerkleProof, fromProof_fits hadmissible hroom, bind_ok,
    getRoot_parsed]
  split_ifs with hroot
  · rfl
  rw [generateProof, length_nodes_parsed, length_nil,
    zero_add, if_neg (ne_of_gt hpos)]
  cases (parsed sha256 ⟨[], true, []⟩ p).generateProofImpl (p.size - 1) item [] 0 with
  | error e => rfl
  | ok found => rfl

end Validate

/-- What is assumed of SHA-256 on the inputs it is given. -/
structure HashSafe (sha256 : HashFn) (inputs : List Bytes) : Prop where
  injective : ∀ x ∈ inputs, ∀ y ∈ inputs, sha256 x = sha256 y → x = y
  nonzero : ∀ x ∈ inputs, sha256 x ≠ blank

/-- The inputs given to SHA-256 for the leaf set and for the proof. -/
def usedInputs (sha256 : HashFn) (leafs : List Bytes32) (proof : Bytes) :
    List Bytes :=
  (match MerkleSet.fromLeafs sha256 leafs with
    | .ok set => set.hashInputs
    | .error _ => []) ++
    match MerkleSet.fromProof sha256 proof with
    | .ok set => set.hashInputs
    | .error _ => []

theorem hashInput_ne_leafInput (ltype rtype : NodeType) (left right leaf : Bytes32) :
    hashInput ltype rtype left right ≠ leafInput leaf := by
  intro heq
  have hlength := congrArg length heq
  simp [hashInput, leafInput, left.length_eq, right.length_eq,
    leaf.length_eq] at hlength

/-- A node's hash input determines the type codes and hashes of its sides. -/
theorem hashInput_inj {l l' r r' : NodeType} {left left' right right' : Bytes32}
    (heq : hashInput l r left right = hashInput l' r' left' right') :
    (encodeType l = encodeType l' ∧ left = left') ∧
      encodeType r = encodeType r' ∧ right = right' := by
  unfold hashInput at heq
  obtain ⟨hrest, hright⟩ := append_inj' heq
    (right.length_eq.trans right'.length_eq.symm)
  obtain ⟨hcodes, hleft⟩ := append_inj' hrest
    (left.length_eq.trans left'.length_eq.symm)
  have htypes := append_cancel_left hcodes
  simp only [cons.injEq, and_true] at htypes
  exact ⟨⟨htypes.1, Bytes32.ext hleft⟩, htypes.2, Bytes32.ext hright⟩

theorem code_node : encodeType (treeType (.node left right)) = 2 := by
  rw [treeType_node]
  split_ifs <;> rfl

section Binding

variable {inputs : List Bytes} {item : Bytes32} {onPath : Bool} {depth : Nat}
  {p : ProofTree} {t : KeyTree Bytes32}

/-- Equal type codes and hashes bind a proof tree to a radix tree. -/
theorem reveals_of_hash (hsafe : HashSafe sha256 inputs)
    (hp : p.inputs sha256 ⊆ inputs) (ht : treeInputs sha256 t ⊆ inputs)
    (hcode : encodeType p.type = encodeType (treeType t))
    (hhash : p.hash sha256 = treeNodeHash sha256 t) :
    Reveals item True onPath depth p t := by
  induction p generalizing t onPath depth with
  | empty =>
    cases t with
    | empty => exact .empty
    | leaf => cases hcode
    | node => cases hcode.trans code_node
  | terminal leaf =>
    cases t with
    | empty => cases hcode
    | leaf key =>
      obtain rfl : leaf = key := hhash
      exact .terminal
    | node => cases hcode.trans code_node
  | truncated hash =>
    cases t with
    | empty => cases hcode
    | leaf => cases hcode
    | node => exact .truncated fun _ => trivial
  | middle p q ihp ihq =>
    rcases hcollapse : collapse p.type q.type with _ | _ | _
    · obtain ⟨htype, hsha, hinputs, _⟩ := @middle_of_none sha256 _ _ hcollapse
      rw [code_middle] at hcode
      cases t with
      | empty => cases hcode
      | leaf => cases hcode
      | node l r =>
        rw [hinputs, append_subset, append_subset] at hp
        rw [treeInputs, append_subset, append_subset] at ht
        have hinput := hsafe.injective _ (hp.2 (mem_singleton.mpr rfl)) _
          (ht.2 (mem_singleton.mpr rfl)) (hsha.symm.trans hhash)
        obtain ⟨⟨hlcode, hlhash⟩, hrcode, hrhash⟩ := hashInput_inj hinput
        exact .middle hcollapse (ihp hp.1.1 ht.1.1 hlcode hlhash)
          (ihq hp.1.2 ht.1.2 hrcode hrhash)
    · obtain ⟨htype, hsame, hinputs, _⟩ := @middle_of_left sha256 _ _ hcollapse
      rw [hinputs, append_subset] at hp
      rw [htype] at hcode
      exact .overLeft hcollapse (ihp hp.1 ht hcode (hsame.symm.trans hhash))
    · obtain ⟨htype, hsame, hinputs, _⟩ := @middle_of_right sha256 _ _ hcollapse
      rw [hinputs, append_subset] at hp
      rw [htype] at hcode
      exact .overRight hcollapse (ihq hp.2 ht hcode (hsame.symm.trans hhash))

theorem ProofTree.eq_middle_of_type (htype : p.type = .midDbl) :
    ∃ left right, p = .middle left right := by
  cases p with
  | empty => cases htype
  | terminal _ => cases htype
  | truncated _ => cases htype
  | middle left right => exact ⟨left, right, rfl⟩

/-- A middle's hash is that of one of its inputs. -/
theorem exists_input_middle {left right : ProofTree}
    (hmiddle : p = .middle left right) :
    ∃ ltype rtype lhash rhash,
      hashInput ltype rtype lhash rhash ∈ p.inputs sha256 ∧
        p.hash sha256 = sha256 (hashInput ltype rtype lhash rhash) := by
  induction p generalizing left right with
  | empty => cases hmiddle
  | terminal _ => cases hmiddle
  | truncated _ => cases hmiddle
  | middle p q ihp ihq =>
    rcases hcollapse : collapse p.type q.type with _ | _ | _
    · obtain ⟨_, hsha, hinputs, _⟩ := @middle_of_none sha256 _ _ hcollapse
      rw [hinputs, hsha]
      exact ⟨_, _, _, _, mem_append_right _ (mem_singleton.mpr rfl), rfl⟩
    · obtain ⟨_, hsame, hinputs, _⟩ := @middle_of_left sha256 _ _ hcollapse
      obtain ⟨a, b, hp⟩ := eq_middle_of_type
        (collapse_eq_false_iff.mp hcollapse).1
      obtain ⟨l, r, lhash, rhash, hmem, hsha⟩ := ihp hp
      rw [hinputs, hsame]
      exact ⟨l, r, lhash, rhash, mem_append_left _ hmem, hsha⟩
    · obtain ⟨_, hsame, hinputs, _⟩ := @middle_of_right sha256 _ _ hcollapse
      obtain ⟨a, b, hq⟩ := eq_middle_of_type
        (collapse_eq_true_iff.mp hcollapse).2
      obtain ⟨l, r, lhash, rhash, hmem, hsha⟩ := ihq hq
      rw [hinputs, hsame]
      exact ⟨l, r, lhash, rhash, mem_append_right _ hmem, hsha⟩

variable (sha256) in
def rootInputs : KeyTree Bytes32 → List Bytes
  | .leaf leaf => [leafInput leaf]
  | t => treeInputs sha256 t

variable (sha256) in
def ProofTree.rootInputs : ProofTree → List Bytes
  | .terminal leaf => [leafInput leaf]
  | p => p.inputs sha256

/-- A proof tree with the root of a radix tree is cut off at its root or
reveals the tree. -/
theorem reveals_of_root (hsafe : HashSafe sha256 inputs)
    (hp : p.rootInputs sha256 ⊆ inputs) (ht : rootInputs sha256 t ⊆ inputs)
    (hroot : p.root sha256 = treeRoot sha256 t) :
    (∃ hash, p = .truncated hash) ∨ Reveals item True true 0 p t := by
  cases p with
  | truncated hash => exact .inl ⟨hash, rfl⟩
  | empty =>
    right
    cases t with
    | empty => exact .empty
    | leaf leaf =>
      exact absurd hroot.symm (hsafe.nonzero _ (ht (mem_singleton.mpr rfl)))
    | node l r =>
      exact absurd hroot.symm (hsafe.nonzero _
        (ht (mem_append_right _ (mem_singleton.mpr rfl))))
  | terminal leaf =>
    right
    have hleaf := hp (mem_singleton.mpr rfl)
    cases t with
    | empty => exact absurd hroot (hsafe.nonzero _ hleaf)
    | leaf key =>
      have hkey := ht (mem_singleton.mpr rfl)
      have hinput := hsafe.injective _ hleaf _ hkey hroot
      obtain rfl := Bytes32.ext (cons.inj hinput).2
      exact .terminal
    | node l r =>
      have hnode := ht (mem_append_right _ (mem_singleton.mpr rfl))
      exact absurd (hsafe.injective _ hleaf _ hnode hroot).symm
        (hashInput_ne_leafInput _ _ _ _ _)
  | middle p q =>
    right
    obtain ⟨l, r, lhash, rhash, hmem, hsha⟩ :=
      @exists_input_middle sha256 (.middle p q) p q rfl
    have hinput := hp hmem
    have hroot' := hsha.symm.trans hroot
    cases t with
    | empty => exact absurd hroot' (hsafe.nonzero _ hinput)
    | leaf key =>
      have hkey := ht (mem_singleton.mpr rfl)
      exact absurd (hsafe.injective _ hinput _ hkey hroot')
        (hashInput_ne_leafInput _ _ _ _ _)
    | node left right =>
      exact reveals_of_hash hsafe hp ht (code_middle.trans code_node.symm) hroot

end Binding

section Inputs

theorem hashInputs_parsed :
    (parsed sha256 ⟨[], true, []⟩ p).hashInputs = p.rootInputs sha256 := by
  cases p with
  | empty => rfl
  | terminal leaf => rfl
  | truncated hash => rfl
  | middle left right =>
    rw [hashInputs, parsed, nil_append, ProofTree.layout, getLast?_concat]
    rfl

theorem hashInputs_stored (hne : t ≠ .empty) :
    (stored sha256 ⟨[], false, []⟩ t).hashInputs = rootInputs sha256 t := by
  obtain ⟨kind, hlast, hkind⟩ := @getLast?_layout sha256 [] 0 t hne
  rw [hashInputs, stored]
  dsimp only [length_nil]
  rw [hlast]
  obtain ⟨rfl, leaf, rfl⟩ | ⟨⟨l, r, rfl⟩, left, right, rfl⟩ := hkind
  · rfl
  · rfl

/-- The inputs hashed for a leaf set are those of its radix tree. -/
theorem hashInputs_fromLeafs {leafs : List Bytes32}
    (hlength : leafs.length < 2 ^ 31) :
    ∃ set, fromLeafs sha256 leafs = .ok set ∧
      set.getRoot sha256 = treeRoot sha256 (leafTree leafs) ∧
      set.hashInputs = rootInputs sha256 (leafTree leafs) := by
  by_cases hne : leafs = []
  · subst hne
    exact ⟨_, rfl, rfl, rfl⟩
  · have htree : leafTree leafs ≠ .empty :=
      build_ne_empty leafBit_ext rfl shares_zero hne
    exact ⟨_, fromLeafs_eq hne hlength, getRoot_layout rfl htree,
      hashInputs_stored htree⟩

end Inputs

/-- Where merkle proofs cannot lie: with fewer than 2^31 leaves, no more than
2^32 nodes read from the proof and a hash that is safe on the inputs used,
validation answers membership or rejects, and nothing panics. -/
theorem validateMerkleProof_sound (sha256 : HashFn)
    (leafs : List Bytes32) (item : Bytes32) (proof : Bytes)
    (hleafs : leafs.length < 2 ^ 31)
    (hnodes : ∀ read ∈ (MerkleSet.fromProof sha256 proof).toOption,
      read.nodes.length ≤ 2 ^ 32)
    (hsafe : HashSafe sha256 (usedInputs sha256 leafs proof)) :
    ∃ set, MerkleSet.fromLeafs sha256 leafs = .ok set ∧
      (validateMerkleProof sha256 proof item (set.getRoot sha256) = setError ∨
        validateMerkleProof sha256 proof item (set.getRoot sha256) =
          .ok (decide (item ∈ leafs))) := by
  obtain ⟨set, hset, hroot, hinputs⟩ := @hashInputs_fromLeafs sha256 leafs hleafs
  refine ⟨set, hset, ?_⟩
  rcases @fromProof_cases sha256 proof with herror | ⟨p, rfl, hadmissible⟩
  · left
    rw [validateMerkleProof, herror]
    rfl
  have hsize : p.size ≤ 2 ^ 32 := by
    obtain ⟨value, read, hstores, hproof⟩ := @fromProof_bytes p sha256 hadmissible
    rw [hproof] at hnodes
    simpa [hstores.count] using hnodes read rfl
  rw [usedInputs, hset, fromProof_fits hadmissible hsize] at hsafe
  dsimp only at hsafe
  rw [hinputs, hashInputs_parsed] at hsafe
  rw [validateMerkleProof_bytes hadmissible hsize]
  split_ifs with hdiffers
  · exact .inl rfl
  have hsame : p.root sha256 = treeRoot sha256 (leafTree leafs) :=
    (not_not.mp hdiffers).trans hroot
  rcases reveals_of_root hsafe (subset_append_right _ _)
    (subset_append_left _ _) hsame with ⟨hash, rfl⟩ | hreveals
  · left
    rw [generateProofImpl_truncated rfl]
    rfl
  have hanswers : Answers (parsed sha256 ⟨[], true, []⟩ p) item True (leafTree leafs)
      (p.size - 1) 0 :=
    answers_root hreveals placed_leafTree hadmissible
  rcases hanswers [] with ⟨_, hcut⟩ | ⟨out, hfound⟩
  · left
    rw [hcut]
    rfl
  · right
    rw [hfound, bind_ok]
    simp only [mem_keys_leafTree]

/-- Three leaves, and the proof for one of them that cuts the others off. -/
def lowLeaf : Bytes32 := .ofVec [0x40]

def highLeaf : Bytes32 := .ofVec [0x80]

def cutProof : Bytes :=
  middleCode :: truncatedCode :: (hash256
    (hashInput .term .term blank lowLeaf)).bytes ++
      terminalCode :: highLeaf.bytes

theorem validateMerkleProof_sound_at_cut :
    ∃ set, MerkleSet.fromLeafs hash256 [blank, lowLeaf, highLeaf] = .ok set ∧
      validateMerkleProof hash256 cutProof highLeaf (set.getRoot hash256) =
        .ok true := by
  have haccepts : (MerkleSet.fromLeafs hash256 [blank, lowLeaf, highLeaf] >>=
      fun set => validateMerkleProof hash256 cutProof highLeaf
        (set.getRoot hash256)) ≠ setError := by decide +kernel
  obtain ⟨set, hset, herror | hfound⟩ := validateMerkleProof_sound hash256
    [blank, lowLeaf, highLeaf] highLeaf cutProof (by decide)
    (by decide +kernel) ⟨by decide +kernel, by decide +kernel⟩
  · rw [hset] at haccepts
    exact absurd herror haccepts
  · exact ⟨set, hset, hfound⟩

/-- The proof that spells the zero leaf. -/
def blankProof : Bytes := terminalCode :: blank.bytes

/-- Past 2^31 leaves a proof does lie: it validates, and the answer for a
member is no. -/
theorem validateMerkleProof_lies_at_longLeafs :
    HashSafe hash256 (usedInputs hash256 longLeafs blankProof) ∧
      emptyNodeHash ∈ longLeafs ∧
      ∃ set, MerkleSet.fromLeafs hash256 longLeafs = .ok set ∧
        validateMerkleProof hash256 blankProof emptyNodeHash
          (set.getRoot hash256) = .ok false := by
  have hset := fromLeafs_longLeafs hash256
  refine ⟨?_, mem_longLeafs.mpr (by decide), _, hset, by decide +kernel⟩
  unfold usedInputs
  rw [hset]
  exact ⟨by decide +kernel, by decide +kernel⟩

section Roots

variable {inputs : List Bytes} {t u : KeyTree Bytes32}
  (hsafe : HashSafe sha256 inputs)

include hsafe

/-- Equal type codes and hashes bind a radix tree to another. -/
theorem tree_eq_of_hash (ht : treeInputs sha256 t ⊆ inputs)
    (hu : treeInputs sha256 u ⊆ inputs)
    (hcode : encodeType (treeType t) = encodeType (treeType u))
    (hhash : treeNodeHash sha256 t = treeNodeHash sha256 u) : t = u := by
  induction t generalizing u with
  | node left right ihleft ihright =>
    cases u with
    | empty => cases code_node.symm.trans hcode
    | leaf => cases code_node.symm.trans hcode
    | node l r =>
      rw [treeInputs, append_subset, append_subset] at ht hu
      have hinput := hsafe.injective _ (ht.2 (mem_singleton.mpr rfl)) _
        (hu.2 (mem_singleton.mpr rfl)) hhash
      obtain ⟨⟨hlcode, hlhash⟩, hrcode, hrhash⟩ := hashInput_inj hinput
      rw [ihleft ht.1.1 hu.1.1 hlcode hlhash,
        ihright ht.1.2 hu.1.2 hrcode hrhash]
  | _ => cases u <;> grind [code_node, treeNodeHash, treeType, encodeType]

theorem tree_eq_of_root (ht : rootInputs sha256 t ⊆ inputs)
    (hu : rootInputs sha256 u ⊆ inputs)
    (hroot : treeRoot sha256 t = treeRoot sha256 u) : t = u := by
  cases t <;> cases u
  case node.node =>
    exact tree_eq_of_hash hsafe ht hu (code_node.trans code_node.symm) hroot
  all_goals grind [HashSafe, rootInputs, treeRoot, treeInputs, treeNodeHash,
    hashInput_ne_leafInput, leafInput, Bytes32.ext]

omit hsafe in
/-- Where the hash is safe on the inputs of two leaf sets, their roots are equal
exactly when the sets are. -/
theorem merkleSetRoot_binds (leafs leafs' : List Bytes32)
    (hsafe : HashSafe sha256 (rootInputs sha256 (leafTree leafs) ++
      rootInputs sha256 (leafTree leafs'))) :
    merkleSetRoot sha256 leafs = merkleSetRoot sha256 leafs' ↔
      ∀ leaf, leaf ∈ leafs ↔ leaf ∈ leafs' := by
  rw [merkleSetRoot_eq, merkleSetRoot_eq, Except.ok.injEq]
  constructor
  · intro hroot leaf
    have htree := tree_eq_of_root hsafe (subset_append_left _ _)
      (subset_append_right _ _) hroot
    rw [← mem_keys_leafTree, htree, mem_keys_leafTree]
  · intro hmem
    rw [leafTree_congr hmem]

end Roots

theorem merkleSetRoot_binds_at_two :
    merkleSetRoot hash256 [blank, emptyNodeHash] ≠
      merkleSetRoot hash256 [emptyNodeHash] := by
  intro hroot
  have hmem := (merkleSetRoot_binds [blank, emptyNodeHash] [emptyNodeHash]
    ⟨by decide +kernel, by decide +kernel⟩).mp hroot
  exact absurd ((hmem blank).mp (by decide)) (by decide)

end Sound

variable {depth : Nat} {t : KeyTree Bytes32} {i : Nat} {x y : Bytes32}
  {before after : List StoredNode} {bits : List Bool} {p : ProofTree}

section Holds

variable (sha256 : HashFn) (nodes : List StoredNode)

/-- The node at an index stands for a whole radix tree. -/
inductive Holds : Nat → KeyTree Bytes32 → Prop where
  | empty {i : Nat} {hash : Bytes32} (hget : nodes[i]? = some ⟨.empty, hash⟩) :
      Holds i .empty
  | leaf {i : Nat} {leaf : Bytes32} (hget : nodes[i]? = some ⟨.leaf, leaf⟩) :
      Holds i (.leaf leaf)
  | node {i l r : Nat} {left right : KeyTree Bytes32}
      (hget : nodes[i]? =
        some ⟨.middle l r, treeNodeHash sha256 (.node left right)⟩)
      (hleft : Holds l left) (hright : Holds r right) :
      Holds i (.node left right)

variable {sha256 nodes}

theorem getElem?_stored {stored : StoredNode}
    (hnodes : nodes = before ++ stored :: after)
    (hi : i = before.length) : nodes[i]? = some stored := by
  rw [hnodes, hi, getElem?_append_right le_rfl, Nat.sub_self]
  rfl

/-- The layout of a tree holds it, as long as the indices fit in a `u32`. -/
theorem holds_layout {base : Nat} (hbase : before.length = base)
    (hnodes : nodes = before ++ (layout sha256 base t ++ after))
    (hroom : base + t.size ≤ 2 ^ 32) :
    Holds sha256 nodes (base + t.size - 1) t := by
  induction base, t using layout.induct generalizing before after with
  | case1 base => exact .empty (getElem?_stored hnodes hbase.symm)
  | case2 base leaf => exact .leaf (getElem?_stored hnodes hbase.symm)
  | case3 base right ih =>
    have hlength := @length_layout sha256 base right
    have hpos := right.size_pos
    rw [layout, append_assoc] at hnodes
    simp only [KeyTree.size] at hroom ⊢
    have hright := ih hbase hnodes (by omega)
    rw [← append_assoc] at hnodes
    have hempty := getElem?_stored hnodes
      (show base + right.size = _ by rw [length_append, hbase, hlength])
    rw [cons_append, append_cons] at hnodes
    have hroot := getElem?_stored hnodes
      (show base + (1 + right.size + 1) - 1 = _ by
        rw [length_append, length_append, hbase, hlength, length_singleton]
        omega)
    rw [asU32, asU32, Nat.mod_eq_of_lt (by omega), Nat.mod_eq_of_lt (by omega)]
      at hroot
    exact .node hroot (.empty hempty) hright
  | case4 base left right hne ihleft ihright =>
    have hlength := @length_layout sha256 base left
    have hlength' := @length_layout sha256 (base + left.size) right
    have hlpos := left.size_pos
    have hrpos := right.size_pos
    rw [layout] at hnodes
    · rw [append_assoc, append_assoc] at hnodes
      simp only [KeyTree.size] at hroom ⊢
      have hleft := ihleft hbase hnodes (by omega)
      rw [← append_assoc] at hnodes
      have hbase' : (before ++ layout sha256 base left).length =
          base + left.size := by
        rw [length_append, hbase, hlength]
      have hright := ihright hbase' hnodes (by omega)
      rw [← append_assoc] at hnodes
      have hroot := getElem?_stored hnodes
        (show base + (left.size + right.size + 1) - 1 = _ by
          rw [length_append, hbase', hlength']
          omega)
      rw [asU32, asU32, Nat.mod_eq_of_lt (by omega), Nat.mod_eq_of_lt (by omega)]
        at hroot
      exact .node hroot hleft hright
    · exact hne

end Holds

/-- The first bits of an item. -/
def route (item : Bytes32) (depth : Nat) : List Bool :=
  (List.range depth).map (leafBit item)

theorem route_succ (item : Bytes32) :
    route item (depth + 1) = route item depth ++ [leafBit item depth] := by
  rw [route, range_succ, map_append]
  rfl

theorem auditLeaf_concat {leaf : Bytes32} {p : Nat} {v : Bool} :
    auditLeaf leaf p (bits ++ [v]) =
      (auditLeaf leaf p bits &&
        getBit leaf (UInt8.ofNat (p + bits.length)) == v) := by
  induction bits generalizing p with
  | nil =>
    rw [nil_append, auditLeaf, auditLeaf, length_nil, Nat.add_zero]
    cases getBit leaf (UInt8.ofNat p) <;> cases v <;> rfl
  | cons b bits ih =>
    rw [cons_append, auditLeaf, auditLeaf, ih]
    split_ifs
    · rfl
    · simp [Nat.add_assoc, Nat.add_comm 1]

/-- A leaf that shares the item's first bits passes the audit of its route. -/
theorem auditLeaf_route {leaf item : Bytes32} (hdepth : depth ≤ 256)
    (hsame : ∀ i < depth, leafBit leaf i = leafBit item i) :
    auditLeaf leaf 0 (route item depth) = true := by
  induction depth with
  | zero => rfl
  | succ depth ih =>
    have hbyte : (UInt8.ofNat depth).toNat = depth := UInt8.toNat_ofNat_of_lt hdepth
    rw [route_succ, auditLeaf_concat, ih (Nat.le_of_succ_le hdepth)
      (fun i hi => hsame i (Nat.lt_succ_of_lt hi)), getBit_eq_leafBit]
    simp [route, hbyte, hsame depth (Nat.lt_succ_self depth)]

section Proves

variable (sha256 : HashFn) (item : Bytes32)

/-- A proof tree that speaks for a radix tree and the item at `depth`. -/
structure Proves (depth : Nat) (p : ProofTree) (t : KeyTree Bytes32) : Prop where
  admissible : p.Admissible (route item depth) depth
  type_eq : p.type = treeType t
  hash_eq : p.hash sha256 = treeNodeHash sha256 t
  reveals : Reveals item False true depth p t
  size_le : p.size ≤ 2 * (256 - depth) + 1

variable {sha256 item}

theorem route_congr (hsame : ∀ i < depth, leafBit x i = leafBit y i) :
    route x depth = route y depth := by
  apply map_congr_left
  intro i hi
  exact hsame i (mem_range.mp hi)

/-- The layers above a pair follow the route of its first leaf. -/
theorem admissible_padTree {gap depth : Nat}
    (hparts : PartAt x y (depth + gap)) :
    (padTree x y gap depth).Admissible (route x depth) depth := by
  have hwidth := hparts.lt
  induction gap generalizing depth with
  | zero =>
    rw [Nat.add_zero] at hparts
    have hleft : route x depth ++ [false] = route x (depth + 1) := by
      rw [route_succ, hparts.left]
    have hright : route x depth ++ [true] = route y (depth + 1) := by
      rw [route_succ, route_congr hparts.same, hparts.right]
    refine ⟨by omega, ?_, ?_⟩
    · rw [hleft]
      exact auditLeaf_route (by omega) fun _ _ => rfl
    · rw [hright]
      exact auditLeaf_route (by omega) fun _ _ => rfl
  | succ gap ih =>
    have hshift : depth + (gap + 1) = depth + 1 + gap := by omega
    rw [hshift] at hparts
    have hrest := ih hparts hparts.lt
    rw [route_succ] at hrest
    rw [padTree]
    split_ifs with hbit
    · rw [hbit] at hrest
      exact ⟨by omega, trivial, hrest⟩
    · rw [Bool.not_eq_true] at hbit
      rw [hbit] at hrest
      exact ⟨by omega, hrest, trivial⟩

/-- The layers above a pair are passed over. -/
theorem padTree_spec (x y : Bytes32) (gap level : Nat) :
    (padTree x y gap level).type = .midDbl ∧
      (padTree x y gap level).hash sha256 =
        treeNodeHash sha256 (.node (.leaf x) (.leaf y)) ∧
      (padTree x y gap level).size = 2 * gap + 3 ∧
      ∀ onPath depth, Reveals item False onPath depth (padTree x y gap level)
        (.node (.leaf x) (.leaf y)) := by
  induction gap generalizing level with
  | zero => exact ⟨rfl, rfl, rfl, fun _ _ => .middle rfl .terminal .terminal⟩
  | succ gap ih =>
    obtain ⟨htype, hhash, hsize, hreveals⟩ := ih (level + 1)
    rw [padTree]
    split_ifs
    · have hcollapse : collapse empty.type
          (padTree x y gap (level + 1)).type = some true :=
        collapse_eq_true_iff.mpr ⟨rfl, htype⟩
      obtain ⟨htype', hhash', _, _⟩ := @middle_of_right sha256 _ _ hcollapse
      refine ⟨htype'.trans htype, hhash'.trans hhash, ?_,
        fun _ _ => .overRight hcollapse (hreveals _ _)⟩
      rw [size, hsize, size]
      omega
    · have hcollapse : collapse (padTree x y gap (level + 1)).type
          empty.type = some false :=
        collapse_eq_false_iff.mpr ⟨htype, rfl⟩
      obtain ⟨htype', hhash', _, _⟩ := @middle_of_left sha256 _ _ hcollapse
      refine ⟨htype'.trans htype, hhash'.trans hhash, ?_,
        fun _ _ => .overLeft hcollapse (hreveals _ _)⟩
      rw [size, hsize, size]
      omega

variable (sha256) in
/-- What `other_included` records of a subtree beside the path. -/
def sibling : KeyTree Bytes32 → ProofTree
  | .empty => .empty
  | .leaf leaf => .terminal leaf
  | .node left right => .truncated (treeNodeHash sha256 (.node left right))

theorem otherIncluded_holds {set : MerkleSet}
    (hholds : Holds sha256 set.nodes i t) (proof : Bytes) :
    set.otherIncluded i proof = .ok (proof ++ (sibling sha256 t).bytes) := by
  unfold otherIncluded
  cases hholds with
  | empty hget =>
    rw [node_eq_ok hget]
    rfl
  | leaf hget =>
    rw [node_eq_ok hget, bind_ok]
    simp [sibling, bytes]
  | node hget _ _ =>
    rw [node_eq_ok hget, bind_ok]
    simp [sibling, bytes]

/-- A sibling has its subtree's type code and hash, but never the type of a
double terminal. -/
theorem sibling_spec (t : KeyTree Bytes32) :
    encodeType (sibling sha256 t).type = encodeType (treeType t) ∧
      (sibling sha256 t).hash sha256 = treeNodeHash sha256 t ∧
      (sibling sha256 t).size = 1 ∧ (sibling sha256 t).type ≠ .midDbl ∧
      ((sibling sha256 t).type = .empty → t = .empty) ∧
      ∀ depth, Reveals item False false depth (sibling sha256 t) t := by
  cases t with
  | empty => exact ⟨rfl, rfl, rfl, by simp [sibling, type],
      fun _ => rfl, fun _ => .empty⟩
  | leaf leaf => exact ⟨rfl, rfl, rfl, by simp [sibling, type],
      by simp [sibling, type], fun _ => .terminal⟩
  | node left right =>
    exact ⟨code_node.symm, rfl, rfl, by simp [sibling, type],
      by simp [sibling, type], fun _ => .truncated (by simp)⟩

theorem admissible_sibling
    (haudit : ∀ key ∈ t.keys, auditLeaf key 0 bits = true) :
    (sibling sha256 t).Admissible bits depth := by
  cases t with
  | empty => trivial
  | leaf leaf => exact haudit leaf (mem_singleton.mpr rfl)
  | node left right => trivial

/-- All keys of a subtree start with the item's first bits. -/
def SharesRoute (item : Bytes32) (depth : Nat) (t : KeyTree Bytes32) : Prop :=
  ∀ key ∈ t.keys, ∀ i < depth, leafBit key i = leafBit item i

theorem SharesRoute.audit (hshares : SharesRoute item depth t)
    (hdepth : depth < 256) {side : Bool}
    (hside : ∀ key ∈ t.keys, leafBit key depth = side) :
    ∀ key ∈ t.keys, auditLeaf key 0 (route item depth ++ [side]) = true := by
  intro key hkey
  have hroute : route item depth ++ [side] = route key (depth + 1) := by
    rw [route_succ, hside key hkey, route_congr (hshares key hkey)]
  rw [hroute]
  exact auditLeaf_route hdepth fun _ _ => rfl

theorem SharesRoute.side (hshares : SharesRoute item depth t)
    (hside : ∀ key ∈ t.keys, leafBit key depth = leafBit item depth) :
    SharesRoute item (depth + 1) t := by
  intro key hkey i hi
  rcases Nat.lt_succ_iff_lt_or_eq.mp hi with hlt | rfl
  · exact hshares key hkey i hlt
  · exact hside key hkey

theorem proves_twin {gap : Nat} (hparts : PartAt x y (depth + gap))
    (hshares : SharesRoute item depth (.node (.leaf x) (.leaf y))) :
    Proves sha256 item depth (padTree x y gap depth)
      (.node (.leaf x) (.leaf y)) := by
  obtain ⟨htype, hhash, hsize, hreveals⟩ :=
    @padTree_spec sha256 item x y gap depth
  have hwidth := hparts.lt
  have hadmissible := admissible_padTree hparts
  rw [route_congr (hshares x (by simp [KeyTree.keys]))] at hadmissible
  exact ⟨hadmissible, htype, hhash, hreveals _ _, by omega⟩

theorem isTerm_congr {a b : NodeType} (hcode : encodeType a = encodeType b) :
    (a == .term) = (b == .term) := by
  cases a <;> cases b <;> first | rfl | cases hcode

theorem collapse_eq_none {a b : NodeType} (hleft : a = .midDbl → b ≠ .empty)
    (hright : a = .empty → b ≠ .midDbl) : collapse a b = none := by
  rcases hcollapse : collapse a b with _ | _ | _
  · rfl
  · exact absurd (collapse_eq_false_iff.mp hcollapse).2
      (hleft (collapse_eq_false_iff.mp hcollapse).1)
  · exact absurd (collapse_eq_true_iff.mp hcollapse).2
      (hright (collapse_eq_true_iff.mp hcollapse).1)

/-- A layer that is not passed over, over proof trees for the two sides. -/
theorem Proves.of_sides {q : ProofTree} {left right : KeyTree Bytes32}
    (hdepth : depth + 1 < 256) (hcollapse : collapse p.type q.type = none)
    (hp : p.Admissible (route item depth ++ [false]) (depth + 1))
    (hq : q.Admissible (route item depth ++ [true]) (depth + 1))
    (hpcode : encodeType p.type = encodeType (treeType left))
    (hqcode : encodeType q.type = encodeType (treeType right))
    (hphash : p.hash sha256 = treeNodeHash sha256 left)
    (hqhash : q.hash sha256 = treeNodeHash sha256 right)
    (hleft : Reveals item False (!leafBit item depth) (depth + 1) p left)
    (hright : Reveals item False (leafBit item depth) (depth + 1) q right)
    (hsize : p.size + q.size ≤ 2 * (256 - depth)) :
    Proves sha256 item depth (.middle p q) (.node left right) := by
  obtain ⟨htype, hhash, _, _⟩ := @middle_of_none sha256 _ _ hcollapse
  refine ⟨⟨by omega, hp, hq⟩, ?_, ?_, .middle hcollapse hleft hright, ?_⟩
  · rw [htype, treeType_node, isTerm_congr hpcode, isTerm_congr hqcode]
  · rw [hhash, treeNodeHash, hphash, hqhash, hashInput_congr _ _ hpcode hqcode]
  · rw [size]
    omega

/-- A layer over a proof tree for the item's side and the recorded other. -/
theorem Proves.beside {side : Bool} {own other : KeyTree Bytes32}
    (hproves : Proves sha256 item (depth + 1) p own) (hdepth : depth + 1 < 256)
    (hbit : leafBit item depth = side)
    (hempty : other = .empty → own.isDeep = true)
    (hside : ∀ key ∈ other.keys, leafBit key depth = !side)
    (hshares : SharesRoute item depth other) :
    if side then
      Proves sha256 item depth (.middle (sibling sha256 other) p)
        (.node other own)
    else Proves sha256 item depth (.middle p (sibling sha256 other))
      (.node own other) := by
  obtain ⟨hcode, hhash, hsize, hdbl, hblank, hreveals⟩ :=
    @sibling_spec sha256 item other
  obtain ⟨hadmissible, htype, hhash', hrevealed, hsize'⟩ := hproves
  have hsibling : (sibling sha256 other).Admissible _ (depth + 1) :=
    admissible_sibling (hshares.audit (by omega) hside)
  have hdeep (hnil : (sibling sha256 other).type = .empty) :
      p.type ≠ .midDbl := by
    rw [htype, treeType_eq_mid_iff.mpr (hempty (hblank hnil))]
    nofun
  rw [route_succ, hbit] at hadmissible
  have hsame : encodeType p.type = encodeType (treeType own) := by rw [htype]
  cases side with
  | true =>
    have hcollapse := collapse_eq_none (fun hmid => absurd hmid hdbl) hdeep
    rw [← hbit] at hrevealed
    exact .of_sides hdepth hcollapse hsibling hadmissible hcode hsame hhash
      hhash' (by rw [hbit]; exact hreveals _) hrevealed (by omega)
  | false =>
    have hcollapse := collapse_eq_none (fun hmid hnil => hdeep hnil hmid)
      fun _ => hdbl
    exact .of_sides hdepth hcollapse hadmissible hsibling hsame hcode hhash'
      hhash (by rw [hbit]; exact hrevealed) (by rw [hbit]; exact hreveals _)
      (by omega)

end Proves

section Generate

variable {sha256 : HashFn} {item : Bytes32} {set : MerkleSet}

theorem Holds.getElem? (hholds : Holds sha256 set.nodes i t) :
    ∃ stored : StoredNode, set.nodes[i]? = some stored ∧
      (stored.kind = .leaf → t = .leaf stored.hash) := by
  cases hholds with
  | empty hget => exact ⟨_, hget, nofun⟩
  | leaf hget => exact ⟨_, hget, fun _ => rfl⟩
  | node hget _ _ => exact ⟨_, hget, nofun⟩

variable (sha256 item set) in
/-- `generate_proof_impl` appends a proof tree for the subtree it is at. -/
def Generates (i : Nat) (t : KeyTree Bytes32) (depth : UInt8) : Prop :=
  ∃ p, Proves sha256 item depth.toNat p t ∧
    ∀ proof, set.generateProofImpl i item proof depth =
      .ok (decide (item ∈ t.keys), proof ++ p.bytes)

/-- At a deep node it goes to the item's side and records the other. -/
theorem Generates.deep {l r : Nat} {hash : Bytes32} {next depth : UInt8}
    {left right : KeyTree Bytes32}
    (hget : set.nodes[i]? = some ⟨.middle l r, hash⟩)
    (hleft : Holds sha256 set.nodes l left)
    (hright : Holds sha256 set.nodes r right)
    (hzeros : ∀ key ∈ left.keys, leafBit key depth.toNat = false)
    (hones : ∀ key ∈ right.keys, leafBit key depth.toNat = true)
    (hdeep : (KeyTree.node left right).isDeep = true)
    (hsides : (left = .empty → right.isDeep = true) ∧
      (right = .empty → left.isDeep = true))
    (hnext : nextDepth depth = .ok next)
    (hshares : SharesRoute item depth.toNat (.node left right))
    (hown : if leafBit item depth.toNat then
        Generates sha256 item set r right next
      else Generates sha256 item set l left next) :
    Generates sha256 item set i (.node left right) depth := by
  have htoNat := (toNat_nextDepth hnext).1
  have hlt : depth.toNat + 1 < 256 := htoNat ▸ next.toNat_lt
  obtain ⟨lstored, hlget, hlleaf⟩ := hleft.getElem?
  obtain ⟨rstored, hrget, hrleaf⟩ := hright.getElem?
  have hkinds : ¬ (lstored.kind = .leaf ∧ rstored.kind = .leaf) := by
    rintro ⟨hl, hr⟩
    rw [hlleaf hl, hrleaf hr] at hdeep
    cases hdeep
  have hmem := @mem_keys_deep _ _ item _ hzeros hones
  cases hbit : leafBit item depth.toNat with
  | true =>
    rw [hbit, if_pos rfl] at hmem hown
    obtain ⟨q, hproves, hsearch⟩ := hown
    rw [htoNat] at hproves
    refine ⟨_, hproves.beside hlt hbit hsides.1 hzeros fun key hkey =>
      hshares key (mem_append_left _ hkey), fun proof => ?_⟩
    rw [generateProofImpl_deep hget hlget hrget hkinds hnext,
      if_pos hbit, otherIncluded_holds hleft, bind_ok, hsearch]
    simp [hmem, bytes]
  | false =>
    rw [hbit, if_neg Bool.false_ne_true] at hmem hown
    obtain ⟨p, hproves, hsearch⟩ := hown
    rw [htoNat] at hproves
    refine ⟨_, hproves.beside hlt hbit hsides.2 hones fun key hkey =>
      hshares key (mem_append_right _ hkey), fun proof => ?_⟩
    rw [generateProofImpl_deep hget hlget hrget hkinds hnext,
      hbit, if_neg Bool.false_ne_true, hsearch, bind_ok,
      otherIncluded_holds hright, bind_ok]
    simp [hmem, bytes]

theorem generateProofImpl_holds {depth : UInt8}
    (hholds : Holds sha256 set.nodes i t)
    (hplaced : Placed leafBit 256 depth.toNat t)
    (hshares : SharesRoute item depth.toNat t) :
    Generates sha256 item set i t depth := by
  have hdepth := depth.toNat_lt
  induction t generalizing i depth with
  | empty =>
    cases hholds with
    | empty hget =>
      refine ⟨.empty, ⟨trivial, rfl, rfl, .empty, ?_⟩, fun proof =>
        generateProofImpl_empty hget⟩
      rw [size]
      omega
  | leaf key =>
    cases hholds with
    | leaf hget =>
      refine ⟨.terminal key, ⟨?_, rfl, rfl, .terminal, ?_⟩, fun proof => ?_⟩
      · exact auditLeaf_route hdepth.le (hshares key (mem_singleton.mpr rfl))
      · rw [size]
        omega
      · rw [generateProofImpl_leaf hget, beq_eq_mem_leaf, append_assoc]
        rfl
  | node left right ihleft ihright =>
    cases hholds with
    | @node _ l r _ _ hget hleft hright =>
      cases hplaced with
      | twin hle hwidth hsame hx hy =>
        obtain ⟨gap, rfl⟩ := Nat.exists_eq_add_of_le hle
        cases hleft with
        | leaf hlget =>
          cases hright with
          | leaf hrget =>
            have hparts : PartAt _ _ _ := ⟨hwidth, hsame, hx, hy⟩
            exact ⟨_, proves_twin hparts hshares, fun proof =>
              search_twin hget hlget hrget hparts⟩
      | deep hpleft hpright hzeros hones hdeep hsides =>
        obtain ⟨next, hnext, htoNat⟩ := nextDepth_of_deep
          (.deep hpleft hpright hzeros hones hdeep hsides) hdeep
        rw [← htoNat] at hpleft hpright
        apply Generates.deep hget hleft hright hzeros hones hdeep hsides hnext
          hshares
        have hlshares : SharesRoute item depth.toNat left := fun key hkey =>
          hshares key (mem_append_left _ hkey)
        have hrshares : SharesRoute item depth.toNat right := fun key hkey =>
          hshares key (mem_append_right _ hkey)
        split_ifs with hbit
        · exact ihright hright hpright (htoNat ▸ hrshares.side fun key hkey =>
            (hones key hkey).trans hbit.symm) next.toNat_lt
        · rw [Bool.not_eq_true] at hbit
          exact ihleft hleft hpleft (htoNat ▸ hlshares.side fun key hkey =>
            (hzeros key hkey).trans hbit.symm) next.toNat_lt

theorem Proves.root_eq (hproves : Proves sha256 item depth p t) :
    p.root sha256 = treeRoot sha256 t := by
  have htype := hproves.type_eq
  have hhash := hproves.hash_eq
  cases t with
  | empty =>
    obtain rfl := eq_empty_of_type htype
    rfl
  | leaf key =>
    obtain ⟨leaf, rfl⟩ := eq_terminal_of_type htype
    exact congrArg (fun leaf => sha256 (leafInput leaf)) hhash
  | node left right =>
    cases p with
    | terminal leaf => cases (congrArg encodeType htype).trans code_node
    | empty => exact hhash
    | truncated _ => exact hhash
    | middle _ _ => exact hhash

/-- The set of fewer than 2^31 leaves holds their radix tree. -/
theorem fromLeafs_holds {leafs : List Bytes32} (hlength : leafs.length < 2 ^ 31)
    (hroom : (leafTree leafs).size ≤ 2 ^ 32) :
    ∃ set, fromLeafs sha256 leafs = .ok set ∧
      set.isFromProof = false ∧ set.nodes.length ≠ 0 ∧
      Holds sha256 set.nodes (set.nodes.length - 1) (leafTree leafs) ∧
      set.getRoot sha256 = treeRoot sha256 (leafTree leafs) := by
  by_cases hne : leafs = []
  · subst hne
    exact ⟨_, rfl, rfl, Nat.one_ne_zero, .empty rfl, rfl⟩
  · have htree : leafTree leafs ≠ .empty :=
      build_ne_empty leafBit_ext rfl shares_zero hne
    have hcount := @length_layout sha256 0 (leafTree leafs)
    have hholds := @holds_layout (leafTree leafs) [] [] sha256 _ 0 rfl rfl
      (by omega)
    refine ⟨_, fromLeafs_eq hne hlength, rfl, ?_, ?_, getRoot_layout rfl htree⟩
    · change (layout sha256 0 (leafTree leafs)).length ≠ 0
      have := (leafTree leafs).size_pos
      omega
    · change Holds sha256 (layout sha256 0 (leafTree leafs))
        ((layout sha256 0 (leafTree leafs)).length - 1) (leafTree leafs)
      rwa [hcount, ← Nat.zero_add (leafTree leafs).size, ← append_nil
        (layout sha256 0 (leafTree leafs))]

end Generate

/-- Where merkle proofs are complete: with fewer than 2^31 leaves and a tree of
at most 2^32 nodes, a proof is generated for every item, it tells whether the
item is among the leaves, and it validates to the same answer. -/
theorem generateProof_complete (sha256 : HashFn) (leafs : List Bytes32)
    (item : Bytes32) (hleafs : leafs.length < 2 ^ 31)
    (hroom : (leafTree leafs).size ≤ 2 ^ 32) :
    ∃ set proof, MerkleSet.fromLeafs sha256 leafs = .ok set ∧
      set.generateProof item = .ok (decide (item ∈ leafs), proof) ∧
      validateMerkleProof sha256 proof item (set.getRoot sha256) =
        .ok (decide (item ∈ leafs)) := by
  obtain ⟨set, hset, hnotProof, hne, hholds, hroot⟩ :=
    @fromLeafs_holds sha256 leafs hleafs hroom
  have hshares : SharesRoute item 0 (leafTree leafs) :=
    fun _ _ _ hi => absurd hi (Nat.not_lt_zero _)
  obtain ⟨p, hproves, hsearch⟩ :=
    @generateProofImpl_holds _ _ sha256 item set 0 hholds
      placed_leafTree hshares
  refine ⟨set, p.bytes, hset, ?_, ?_⟩
  · rw [generateProof, if_neg hne, hsearch, bind_ok, hnotProof]
    simp only [mem_keys_leafTree]
    rfl
  · have hsize : p.size ≤ 2 ^ 32 := hproves.size_le.trans (by decide)
    have hanswers : Answers (parsed sha256 ⟨[], true, []⟩ p) item False
        (leafTree leafs) (p.size - 1) 0 :=
      answers_root hproves.reveals placed_leafTree hproves.admissible
    rcases hanswers [] with ⟨hcut, _⟩ | ⟨out, hfound⟩
    · exact hcut.elim
    rw [validateMerkleProof_bytes hproves.admissible hsize, hroot,
      if_neg (not_not.mpr hproves.root_eq), hfound, bind_ok]
    simp only [mem_keys_leafTree]

theorem generateProof_complete_at_pair :
    ∃ set proof,
      MerkleSet.fromLeafs hash256 [emptyNodeHash, blank, blank] = .ok set ∧
      set.generateProof blank =
        .ok (decide (blank ∈ [emptyNodeHash, blank, blank]), proof) ∧
      validateMerkleProof hash256 proof blank (set.getRoot hash256) =
        .ok (decide (blank ∈ [emptyNodeHash, blank, blank])) :=
  generateProof_complete hash256 [emptyNodeHash, blank, blank] blank (by decide)
    (by decide +kernel)

/-- Past 2^31 leaves the proof generated for a member denies it. -/
theorem generateProof_incomplete_at_longLeafs :
    emptyNodeHash ∈ longLeafs ∧
      ∃ set proof, MerkleSet.fromLeafs hash256 longLeafs = .ok set ∧
        set.generateProof emptyNodeHash = .ok (false, proof) :=
  ⟨mem_longLeafs.mpr (by decide), _, blankProof, fromLeafs_longLeafs hash256,
    by decide +kernel⟩

end DgXch
