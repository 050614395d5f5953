/-
Back-reference compression loses nothing and never expands: the serializer's
index always describes the decoder's value stack.  The canonicality checkers
agree on what it writes, except where `is_canonical_atom` asks for `2^28` or
`2^36` bytes behind a prefix; minimality needs `2^27` and `2^34`.
-/
import DgXch.BackrefSerializer

namespace DgXch

open ByteBits List BackrefStackIndex SExp

variable {edge : ParentEdge} {queue : List SearchNode} {candidates : List Bytes}
  {hash : Bytes32} {data token : Bytes}

variable {index : BackrefStackIndex} {t : SExp} {seen : List Bytes32}
  {path : List Bool} {stack : List SExp} {start : Bytes32} {encoded : Bytes}

namespace BackrefStackIndex

/-- The directions `path` lead from `start` up to a hash along recorded
edges. -/
inductive Climb (index : BackrefStackIndex) (start : Bytes32) :
    List Bool → Bytes32 → Prop where
  | here : Climb index start [] start
  | up {path : List Bool} {edge : ParentEdge}
      (hclimb : Climb index start path edge.child)
      (hedge : edge ∈ index.parents) :
      Climb index start (path ++ [edge.direction]) edge.parent

/-- An encoded path to the root, short enough to be worth writing; it visits
no recorded parent twice. -/
def Candidate (index : BackrefStackIndex) (start : Bytes32)
    (maxAtomBytes : Nat) (encoded : Bytes) : Prop :=
  ∃ path k, encoded = encodeBackrefPath path ∧
    index.Climb start path index.root ∧
    path.length ≤ index.parents.length ∧
    atomLengthBits (path.length + 1) = some k ∧ k ≤ maxAtomBytes

/-- What holds of a queue entry: its path climbs to its hash, and is no longer
than the number of parents seen so far. -/
structure Reached (index : BackrefStackIndex) (start : Bytes32)
    (seen : List Bytes32) (entry : SearchNode) : Prop where
  climb : index.Climb start entry.2 entry.1
  length_le : entry.2.length + index.unseen seen ≤ index.parents.length

theorem Reached.cons_seen {entry : SearchNode}
    (hreached : index.Reached start seen entry) (hedge : edge ∈ index.parents)
    (hseen : edge.parent ∉ seen) :
    index.Reached start (edge.parent :: seen) entry where
  climb := hreached.climb
  length_le := by
    have := unseen_cons_lt hedge hseen
    have := hreached.length_le
    omega

/-- Following one more edge, to a parent not seen before. -/
theorem Reached.up (hreached : index.Reached start seen (edge.child, path))
    (hedge : edge ∈ index.parents) (hseen : edge.parent ∉ seen) :
    index.Reached start (edge.parent :: seen)
      (edge.parent, path ++ [edge.direction]) where
  climb := .up hreached.climb hedge
  length_le := by
    have := unseen_cons_lt hedge hseen
    have : path.length + index.unseen seen ≤ index.parents.length :=
      hreached.length_le
    rw [length_append, length_singleton]
    omega

theorem reached_expandParents {node : Bytes32} {edges : List ParentEdge}
    (hnode : index.Reached start seen (node, path))
    (hedges : ∀ edge ∈ edges, edge ∈ index.parents ∧ edge.child = node)
    (hqueue : ∀ entry ∈ queue, index.Reached start seen entry) :
    ∀ entry ∈ (expandParents index.active path edges queue seen).1,
      index.Reached start
        (expandParents index.active path edges queue seen).2 entry := by
  induction edges generalizing queue seen with
  | nil => exact hqueue
  | cons edge edges ih =>
    have htail : ∀ edge ∈ edges, edge ∈ index.parents ∧ edge.child = node :=
      fun edge hmem => hedges edge (mem_cons_of_mem _ hmem)
    obtain ⟨hedge, hchild⟩ := hedges edge mem_cons_self
    rw [expandParents]
    split_ifs with hskip
    · exact ih hnode htail hqueue
    · have hseen := (not_or.mp hskip).2
      refine ih (hnode.cons_seen hedge hseen) htail fun entry hmem => ?_
      rcases mem_append.mp hmem with hmem | hmem
      · exact (hqueue entry hmem).cons_seen hedge hseen
      · rw [mem_singleton.mp hmem]
        exact Reached.up (hchild.symm ▸ hnode) hedge hseen

/-- The search only reports climbs to the root. -/
theorem candidate_of_mem_shortestPathLoop {maxAtomBytes maxSteps : Nat}
    {resultDepth : Option Nat}
    (hqueue : ∀ entry ∈ queue, index.Reached start seen entry)
    (hcandidates : ∀ encoded ∈ candidates,
      index.Candidate start maxAtomBytes encoded) :
    ∀ encoded ∈ index.shortestPathLoop maxAtomBytes maxSteps queue seen
        candidates resultDepth,
      index.Candidate start maxAtomBytes encoded := by
  induction queue, seen, candidates, resultDepth using
      shortestPathLoop.induct index maxAtomBytes maxSteps with
  | case1 seen candidates resultDepth =>
    rw [shortestPathLoop]
    exact hcandidates
  | case2 seen candidates resultDepth node path queue hdeep =>
    rw [shortestPathLoop, if_pos hdeep]
    exact hcandidates
  | case3 seen candidates resultDepth path queue hdeep hfits ih =>
    rw [shortestPathLoop, if_neg hdeep, if_pos rfl, if_pos hfits]
    obtain ⟨hroot, hqueue⟩ := forall_mem_cons.mp hqueue
    refine ih hqueue (forall_mem_append.mpr
      ⟨hcandidates, forall_mem_singleton.mpr ?_⟩)
    cases hk : atomLengthBits (path.length + 1) with
    | none => simp [hk] at hfits
    | some k =>
      rw [hk, Option.any_some, decide_eq_true_iff] at hfits
      exact ⟨path, k, rfl, hroot.climb,
        (Nat.le_add_right _ _).trans hroot.length_le, hk, hfits⟩
  | case4 seen candidates resultDepth path queue hdeep hfits ih =>
    rw [shortestPathLoop, if_neg hdeep, if_pos rfl, if_neg hfits]
    exact ih (forall_mem_cons.mp hqueue).2 hcandidates
  | case5 seen candidates resultDepth node path queue hdeep hroot hlong ih =>
    rw [shortestPathLoop, if_neg hdeep, if_neg hroot, if_pos hlong]
    exact ih (forall_mem_cons.mp hqueue).2 hcandidates
  | case6 seen candidates resultDepth node path queue hdeep hroot hlong next ih =>
    rw [shortestPathLoop, if_neg hdeep, if_neg hroot, if_neg hlong]
    obtain ⟨hnode, hqueue⟩ := forall_mem_cons.mp hqueue
    refine ih (reached_expandParents hnode ?_ hqueue) hcandidates
    intro edge hmem
    exact ⟨(mem_filter.mp hmem).1, of_decide_eq_true (mem_filter.mp hmem).2⟩

theorem mem_of_minCandidate
    (hmin : minCandidate candidates = some encoded) : encoded ∈ candidates := by
  induction candidates generalizing encoded with
  | nil => cases hmin
  | cons candidate candidates ih =>
    rw [minCandidate] at hmin
    split at hmin
    · cases hmin
      exact mem_cons_self
    · rename_i other hother
      cases hmin
      split_ifs
      · exact mem_cons_of_mem _ (ih hother)
      · exact mem_cons_self

/-- A path reported for a hash is a climb from it to the root whose atom is
shorter than the serialization it replaces. -/
theorem candidate_of_shortestPath {plainLength : Nat}
    (hpath : index.shortestPath hash plainLength = some encoded) :
    4 ≤ plainLength ∧ index.Candidate hash (plainLength - 1) encoded := by
  rw [shortestPath] at hpath
  split_ifs at hpath with hshort
  refine ⟨Nat.not_lt.mp hshort, candidate_of_mem_shortestPathLoop ?_
    (fun _ h => absurd h not_mem_nil) _ (mem_of_minCandidate hpath)⟩
  intro entry hmem
  rw [mem_singleton.mp hmem]
  refine ⟨.here, ?_⟩
  rw [length_nil, Nat.zero_add, unseen,
    ← index.parents.length_map ParentEdge.parent]
  exact length_filter_le _ _

end BackrefStackIndex

/-- The trees whose hashes the serializer of `t` can compare, when it is read
on the value stack `stack`: the nodes and the stack lists. -/
def involvedTrees (stack : List SExp) : SExp → List SExp
  | .atom data => [.atom data, stackList stack, stackList (.atom data :: stack)]
  | .pair first rest =>
    [.pair first rest, stackList stack, stackList (.pair first rest :: stack)] ++
      involvedTrees stack first ++ involvedTrees (first :: stack) rest

theorem mem_involvedTrees :
    t ∈ involvedTrees stack t ∧ stackList stack ∈ involvedTrees stack t ∧
      stackList (t :: stack) ∈ involvedTrees stack t := by
  cases t <;> simp [involvedTrees]

def stackHashes (sha256 : HashFn) : List SExp → List (Bytes32 × Bytes32)
  | [] => []
  | value :: below =>
    (treeHash sha256 value, treeHash sha256 (stackList below)) ::
      stackHashes sha256 below

/-- The index describes the value stack, and its edges relate trees of
`trees`. -/
structure Indexes (sha256 : HashFn) (trees : Set SExp)
    (index : BackrefStackIndex) (stack : List SExp) : Prop where
  root : index.root = treeHash sha256 (stackList stack)
  hashes : index.stack = stackHashes sha256 stack
  edges : ∀ edge ∈ index.parents, ∃ first rest,
    SExp.pair first rest ∈ trees ∧ first ∈ trees ∧ rest ∈ trees ∧
      edge.parent = treeHash sha256 (.pair first rest) ∧
      edge.child = treeHash sha256 (if edge.direction then rest else first)

variable {sha256 : HashFn} {trees : Set SExp}

section Walk

/-- Where hashing is injective, a climb read downwards walks from the tree of
its last hash to the tree of its first. -/
theorem walk_of_climb (hinj : Set.InjOn (treeHash sha256) trees)
    (hindex : Indexes sha256 trees index stack) {top : SExp} (ht : t ∈ trees)
    (hclimb : index.Climb (treeHash sha256 t) path hash) (htop : top ∈ trees)
    (hhash : hash = treeHash sha256 top) :
    top.walk path.reverse = some t := by
  induction hclimb generalizing top with
  | here => rw [hinj ht htop hhash, reverse_nil, walk]
  | @up path edge _ hedge ih =>
    obtain ⟨first, rest, hpair, hfirst, hrest, hparent, hchild⟩ :=
      hindex.edges edge hedge
    obtain rfl : pair first rest = top :=
      hinj hpair htop (hparent.symm.trans hhash)
    rw [reverse_append, reverse_singleton, singleton_append, walk]
    cases hdir : edge.direction with
    | false =>
      rw [hdir] at hchild
      simpa using ih hfirst hchild
    | true =>
      rw [hdir] at hchild
      simpa using ih hrest hchild

theorem indexes_new : Indexes sha256 trees (.new sha256) [] where
  root := rfl
  hashes := rfl
  edges := fun _ hmem => absurd hmem not_mem_nil

/-- Activating a tree's hash pushes the tree. -/
theorem Indexes.activate (hindex : Indexes sha256 trees index stack)
    (ht : t ∈ trees) (hstack : stackList stack ∈ trees)
    (hpush : stackList (t :: stack) ∈ trees) :
    Indexes sha256 trees (index.activate sha256 (treeHash sha256 t))
      (t :: stack) where
  root := by
    rw [BackrefStackIndex.activate, hindex.root]
    rfl
  hashes := by
    rw [BackrefStackIndex.activate, hindex.root, hindex.hashes]
    rfl
  edges := fun edge hmem => by
    rw [BackrefStackIndex.activate] at hmem
    rcases mem_append.mp hmem with hmem | hmem
    · exact hindex.edges edge hmem
    · refine ⟨t, stackList stack, hpush, ht, hstack, ?_⟩
      rcases mem_pair.mp hmem with rfl | rfl
      · rw [hindex.root]
        exact ⟨rfl, rfl⟩
      · rw [hindex.root]
        exact ⟨rfl, rfl⟩

theorem length_parents_activate_le (index : BackrefStackIndex) (t : SExp) :
    (index.activate sha256 (treeHash sha256 t)).parents.length ≤
      index.parents.length + 4 * t.size := by
  have := t.size_pos
  simp only [activate, length_append, length_cons, length_nil]
  omega

theorem Indexes.deactivateTop {value : SExp}
    (hindex : Indexes sha256 trees index (value :: stack)) :
    ∃ next, index.deactivateTop =
        .ok ((treeHash sha256 value, treeHash sha256 (stackList stack)), next) ∧
      next.parents = index.parents ∧ Indexes sha256 trees next stack := by
  let next : BackrefStackIndex :=
    { index with
      root := treeHash sha256 (stackList stack)
      stack := stackHashes sha256 stack
      active := BackrefStackIndex.decrement (BackrefStackIndex.decrement
        index.active (treeHash sha256 value)) index.root }
  refine ⟨next, ?_, rfl, ⟨rfl, rfl, hindex.edges⟩⟩
  rw [BackrefStackIndex.deactivateTop, hindex.hashes]
  rfl

/-- Combining the two top entries replaces them by their pair. -/
theorem Indexes.combineTopPair {first rest : SExp}
    (hindex : Indexes sha256 trees index (rest :: first :: stack))
    (hfirst : first ∈ trees) (hrest : rest ∈ trees)
    (hpair : pair first rest ∈ trees) (hstack : stackList stack ∈ trees)
    (hpush : stackList (.pair first rest :: stack) ∈ trees) :
    ∃ next, index.combineTopPair sha256 = .ok next ∧
      next.parents.length = index.parents.length + 4 ∧
      Indexes sha256 trees next (.pair first rest :: stack) := by
  obtain ⟨mid, hright, hmidLe, hmid⟩ := hindex.deactivateTop
  obtain ⟨low, hleft, hlowLe, hlow⟩ := hmid.deactivateTop
  let left := treeHash sha256 first
  let right := treeHash sha256 rest
  let pair := pairTreeHash sha256 left right
  have hedges : Indexes sha256 trees { low with
        active := BackrefStackIndex.increment
          (BackrefStackIndex.increment low.active left) right
        parents := low.parents ++
          [⟨left, pair, false⟩, ⟨right, pair, true⟩] } stack := by
    refine ⟨hlow.root, hlow.hashes, fun edge hmem => ?_⟩
    rcases mem_append.mp hmem with hmem | hmem
    · exact hlow.edges edge hmem
    · refine ⟨first, rest, hpair, hfirst, hrest, ?_⟩
      rcases mem_pair.mp hmem with rfl | rfl
      · exact ⟨rfl, rfl⟩
      · exact ⟨rfl, rfl⟩
  refine ⟨_, ?_, ?_, hedges.activate hpair hstack hpush⟩
  · rw [BackrefStackIndex.combineTopPair, hright]
    simp only [Except.bind_ok, hleft]
    rfl
  · rw [← hmidLe, ← hlowLe]
    simp [BackrefStackIndex.activate]

end Walk

theorem length_encodeSize {size : Nat} {lead : Bytes}
    (hencode : encodeSize size = .ok lead) : lead.length = sizeWidth size := by
  obtain ⟨-, first, tail, rfl, hspells, hwidth⟩ := encodeSize_eq_ok hencode
  rw [length_cons, hspells.width, hwidth]

/-- `serialized_length_atom` is the length of what is written. -/
theorem length_writeAtom (hwrite : writeAtom data = .ok token) :
    token.length = serializedLengthAtom data := by
  have hbyte (b : UInt8) : b < 128 ↔ b ≤ maxSingleByte := by
    revert b
    apply forall_byte
    decide +kernel
  rw [writeAtom] at hwrite
  rw [serializedLengthAtom]
  split_ifs at hwrite with hnil hone
  · cases hwrite
    rw [if_pos (.inl (by rw [hnil]; rfl))]
    rfl
  · cases hwrite
    rw [if_pos (.inr ⟨hone.1, (hbyte _).mpr hone.2⟩)]
    rfl
  · obtain ⟨lead, hencode, hwrite⟩ := Except.bind_eq_ok.mp hwrite
    cases hwrite
    have hlong : ¬ (data.length = 0 ∨ data.length = 1 ∧ data.headD 0 < 128) := by
      rw [length_eq_zero_iff, hbyte]
      exact not_or.mpr ⟨hnil, hone⟩
    rw [if_neg hlong, length_append, length_encodeSize hencode, sizeWidth]
    split_ifs <;> rfl

/-- The path's atom is as long as `atom_length_bits` says. -/
theorem writeAtom_encodeBackrefPath {k : Nat}
    (hbits : atomLengthBits (path.length + 1) = some k) :
    ∃ token, writeAtom (encodeBackrefPath path) = .ok token ∧
      token.length = k := by
  obtain ⟨hlength, -, hsize⟩ := encodeBackrefPath_spec
  have hhead : (encodeBackrefPath path).headD 0 < 128 ↔
      path.length % 8 + 1 ≤ 7 := by
    rw [← hsize, Nat.size_le, headD_eq_head?_getD, head?_eq_getElem?,
      ← getD_eq_getElem?_getD, UInt8.lt_iff_toNat_lt]
    rfl
  have hbytes : (path.length + 1 + 7) / 8 = path.length / 8 + 1 := by omega
  have hsum : serializedLengthAtom (encodeBackrefPath path) = k ∧
      (encodeBackrefPath path).length < maxDecodeSize := by
    simp only [serializedLengthAtom, hlength, hhead, maxDecodeSize]
    simp only [atomLengthBits, hbytes] at hbits
    by_cases hshort : path.length + 1 < 8
    · rw [if_pos hshort] at hbits
      cases hbits
      rw [if_pos (by omega)]
      exact ⟨rfl, by omega⟩
    · rw [if_neg hshort] at hbits
      rw [if_neg (by omega)]
      clear hhead hsize hlength hbytes
      generalize path.length / 8 + 1 = bytes at hbits ⊢
      split_ifs at hbits ⊢ <;> cases hbits <;> omega
  obtain ⟨token, hwrite⟩ := writeAtom_ok hsum.2
  exact ⟨token, hwrite, (length_writeAtom hwrite).trans hsum.1⟩

/-- The memoised length never exceeds the real one. -/
theorem serializedLength_le {p : Bytes}
    (hwrite : serialize t = .ok p) : serializedLength t ≤ p.length := by
  induction t generalizing p with
  | atom data => exact (length_writeAtom hwrite).ge
  | pair first rest ihfirst ihrest =>
    obtain ⟨front, back, hfront, hback, rfl⟩ := serialize_pair_eq_ok.mp hwrite
    have hfirst := ihfirst hfront
    have hrest := ihrest hback
    simp only [serializedLength, saturatingAdd, length_cons, length_append]
    omega

theorem atomTokenLen_of_writeAtom (hwrite : writeAtom data = .ok token) :
    atomTokenLen clvmAccepts token = some token.length :=
  ((atomToken_of_writeAtom hwrite).writeAtom_iff.mp hwrite).1

section Run

variable {limit : Nat}

variable (sha256 trees limit) in
/-- What the serializer writes for a tree while the decoder's stack is `stack`.
A back-reference leads to the tree it replaces wherever hashing is injective on
`trees`; its path has at most `limit` directions. -/
inductive Compressed : List SExp → SExp → Bytes → Prop where
  | atom {stack : List SExp} {data token : Bytes}
      (hwrite : writeAtom data = .ok token) :
      Compressed stack (.atom data) token
  | backref {stack : List SExp} {path : List Bool} {t : SExp} {token : Bytes}
      (hwrite : writeAtom (encodeBackrefPath path) = .ok token)
      (hwalk : Set.InjOn (treeHash sha256) trees →
        (stackList stack).walk path.reverse = some t)
      (hshort : token.length < serializedLength t)
      (hpath : path.length ≤ limit) :
      Compressed stack t (backReference :: token)
  | pair {stack : List SExp} {first rest : SExp} {front back : Bytes}
      (hfirst : Compressed stack first front)
      (hrest : Compressed (first :: stack) rest back) :
      Compressed stack (.pair first rest) (consBoxMarker :: (front ++ back))

theorem Compressed.reads {w : Bytes}
    (hcompressed : Compressed sha256 trees limit stack t w)
    (hinj : Set.InjOn (treeHash sha256) trees) : BackrefReads stack w t := by
  induction hcompressed with
  | atom hwrite => exact .atom (atomToken_of_writeAtom hwrite)
  | backref hwrite hwalk _ _ =>
    exact .backref (atomToken_of_writeAtom hwrite) (hwalk hinj)
  | pair _ _ ihfirst ihrest => exact .pair ihfirst ihrest

theorem Compressed.length_le {w p : Bytes}
    (hcompressed : Compressed sha256 trees limit stack t w)
    (hwrite : serialize t = .ok p) : w.length ≤ p.length := by
  induction hcompressed generalizing p with
  | atom htoken =>
    rw [serialize, htoken] at hwrite
    cases hwrite
    exact le_rfl
  | backref _ _ hshort _ =>
    have := serializedLength_le hwrite
    rw [length_cons]
    omega
  | pair _ _ ihfirst ihrest =>
    obtain ⟨u, v, hu, hv, rfl⟩ := serialize_pair_eq_ok.mp hwrite
    have := ihfirst hu
    have := ihrest hv
    simp only [length_cons, length_append]
    omega

/-- A back-reference found in the index stands for the node it replaces. -/
theorem compressed_backref (hindex : Indexes sha256 trees index stack)
    (ht : t ∈ trees) (hstack : stackList stack ∈ trees)
    (hlimit : index.parents.length ≤ limit)
    (hpath : index.shortestPath (treeHash sha256 t) (serializedLength t) =
      some encoded) :
    ∃ token, writeAtom encoded = .ok token ∧
      Compressed sha256 trees limit stack t (backReference :: token) := by
  obtain ⟨hfour, path, k, rfl, hclimb, hsteps, hbits, hle⟩ :=
    candidate_of_shortestPath hpath
  obtain ⟨token, hwrite, hlength⟩ := writeAtom_encodeBackrefPath hbits
  refine ⟨token, hwrite, .backref hwrite (fun hinj => ?_) (by omega)
    (hsteps.trans hlimit)⟩
  exact walk_of_climb hinj hindex ht hclimb hstack hindex.root

/-- The loop writes one node, pushes it on the indexed stack, and replays the
`Cons` operations that are due. -/
theorem nodeToStreamBackrefsLoop_node {t : SExp} {index : BackrefStackIndex}
    {stack writeStack : List SExp} {readOps : List ReadOp} {buffer : Bytes}
    (hindex : Indexes sha256 trees index stack) (hatoms : t.Encodable)
    (htrees : ∀ u ∈ involvedTrees stack t, u ∈ trees)
    (hlimit : index.parents.length + 4 * t.size ≤ limit) :
    ∃ w next, nodeToStreamBackrefsLoop sha256 (t :: writeStack)
          (.parse :: readOps) index buffer =
        (drainCons sha256 readOps next >>= fun out =>
          nodeToStreamBackrefsLoop sha256 writeStack out.1 out.2
            (buffer ++ w)) ∧
      Indexes sha256 trees next (t :: stack) ∧
      next.parents.length ≤ index.parents.length + 4 * t.size ∧
      Compressed sha256 trees limit stack t w := by
  obtain ⟨ht, hstack, hpush⟩ := mem_involvedTrees
  have hactivate := hindex.activate (htrees _ ht) (htrees _ hstack)
    (htrees _ hpush)
  have hparents := @length_parents_activate_le sha256 index t
  rw [nodeToStreamBackrefsLoop.eq_def]
  cases hpath : index.shortestPath (treeHash sha256 t) (serializedLength t) with
  | some encoded =>
    obtain ⟨token, hwrite, hcompressed⟩ :=
      compressed_backref hindex (htrees _ ht) (htrees _ hstack)
        ((Nat.le_add_right _ _).trans hlimit) hpath
    refine ⟨_, _, ?_, hactivate, hparents, hcompressed⟩
    simp [hpath, hwrite]
  | none =>
    cases t with
    | atom data =>
      obtain ⟨token, hwrite⟩ := writeAtom_ok (hatoms data (by simp [atoms]))
      refine ⟨_, _, ?_, hactivate, hparents, .atom hwrite⟩
      simp [hpath, hwrite]
    | pair first rest =>
      have hfirstTrees : ∀ u ∈ involvedTrees stack first, u ∈ trees :=
        fun u hu => htrees u (by simp [involvedTrees, hu])
      have hrestTrees : ∀ u ∈ involvedTrees (first :: stack) rest, u ∈ trees :=
        fun u hu => htrees u (by simp [involvedTrees, hu])
      rw [size] at hlimit
      obtain ⟨front, next, hfront, hnext, hnextLe, hfirst⟩ :=
        nodeToStreamBackrefsLoop_node hindex (fun data hdata =>
          hatoms data (by simp [atoms, hdata])) hfirstTrees (by omega)
      obtain ⟨back, last, hback, hlast, hlastLe, hrest⟩ :=
        nodeToStreamBackrefsLoop_node hnext (fun data hdata =>
          hatoms data (by simp [atoms, hdata])) hrestTrees (by omega)
      obtain ⟨combined, hcombine, hcount, hindexed⟩ := hlast.combineTopPair
        (hfirstTrees _ mem_involvedTrees.1)
        (hrestTrees _ mem_involvedTrees.1) (htrees _ ht)
        (htrees _ hstack) (htrees _ hpush)
      refine ⟨_, combined, ?_, hindexed, by rw [hcount, size]; omega,
        .pair hfirst hrest⟩
      -- the first, then the rest, then the `Cons` pushed below them
      simp only [tail_cons, hpath, drainCons, Except.bind_ok]
      rw [hfront]
      simp only [drainCons, Except.bind_ok]
      rw [hback]
      simp only [drainCons, hcombine, Except.bind_ok, append_assoc,
        cons_append, nil_append]

end Run

/-- The serializer succeeds, whatever the hash function. -/
theorem sexpToBytesBackrefs_ok (sha256 : HashFn) (hatoms : t.Encodable) :
    ∃ w, sexpToBytesBackrefs sha256 t = .ok w ∧
      Compressed sha256 {u | u ∈ involvedTrees [] t} (4 * t.size) [] t w := by
  obtain ⟨w, next, hloop, -, -, hcompressed⟩ :=
    nodeToStreamBackrefsLoop_node indexes_new hatoms (fun u hu => hu)
      (Nat.zero_add _).le
  refine ⟨w, ?_, hcompressed⟩
  rw [sexpToBytesBackrefs, hloop]
  simp [drainCons, nodeToStreamBackrefsLoop]

/-- Compressing a tree and parsing the result returns the tree and uses every
byte; the result is no longer than the plain serialization. -/
theorem sexpToBytesBackrefs_lossless (sha256 : HashFn) (t : SExp)
    (hatoms : t.Encodable)
    (hinj : Set.InjOn (treeHash sha256) {u | u ∈ involvedTrees [] t}) :
    ∃ w plain, sexpToBytesBackrefs sha256 t = .ok w ∧
      sexpToBytes t = .ok plain ∧
      sexpFromBytesBackrefs ⟨w, 0⟩ = .ok (t, ⟨w, w.length⟩) ∧
      w.length ≤ plain.length := by
  obtain ⟨plain, hplain⟩ := serialize_ok hatoms
  obtain ⟨w, hwrite, hcompressed⟩ := sexpToBytesBackrefs_ok sha256 hatoms
  have hrest : (⟨w, 0⟩ : Cursor).rest = w ++ [] := (append_nil w).symm
  refine ⟨w, plain, hwrite, sexpToBytes_eq_serialize.trans hplain, ?_,
    hcompressed.length_le hplain⟩
  rw [sexpFromBytesBackrefs_reads (hcompressed.reads hinj) hrest,
    Cursor.advance, Nat.zero_add]

/-- A pair of two equal atoms, the second of which becomes a reference to the
top of the value stack. -/
def twins : SExp :=
  .pair (.atom [1, 2, 3, 4]) (.atom [1, 2, 3, 4])

theorem sexpToBytesBackrefs_lossless_at_twins :
    twins.Encodable ∧
    ∃ w plain, sexpToBytesBackrefs hash256 twins = .ok w ∧
        sexpToBytes twins = .ok plain ∧
        sexpFromBytesBackrefs ⟨w, 0⟩ = .ok (twins, ⟨w, w.length⟩) ∧
        w.length ≤ plain.length := by
  refine ⟨by decide, sexpToBytesBackrefs_lossless hash256 _ (by decide) ?_⟩
  simp only [Set.InjOn, Set.mem_ofPred_eq]
  decide +kernel

open BigEndian TokenStream Option

variable {accept : Nat → Nat → Bool} {w : Bytes}

/-- Prefix width and announced length of an atom token. -/
def atomTokenSize : Bytes → Nat × Nat
  | [] => (0, 0)
  | lead :: tail =>
    (leadingOnes lead,
      beNat (sizeBits lead :: tail.take (leadingOnes lead - 1)))

/-- The atom of an atom token or of a back-reference token. -/
def tokenAtom : Bytes → Bytes
  | [] => []
  | lead :: tail => if lead = backReference then tail else lead :: tail

/-- Prefix width and announced length of the atom of a token. -/
def tokenSize (token : Bytes) : Nat × Nat := atomTokenSize (tokenAtom token)

/-- The lengths that are minimal for their prefix width but that
`is_canonical_atom` refuses. -/
def GapSize (width size : Nat) : Prop :=
  (width = 5 ∧ 2 ^ 27 ≤ size ∧ size < 2 ^ 28) ∨ (width = 6 ∧ 2 ^ 34 ≤ size)

/-- The atom of the token has such a length. -/
def GapToken (token : Bytes) : Prop :=
  GapSize (tokenSize token).1 (tokenSize token).2

/-- The atom of a token has no prefix or the shortest one for its length. -/
def MinimalToken (token : Bytes) : Prop :=
  (tokenAtom token).length = 1 ∨
    widthFloor (tokenSize token).1 ≤ (tokenSize token).2

/-- The atom and back-reference tokens of a serialized expression. -/
def serializedTokens (bytes : Bytes) : List Bytes :=
  anyTokens.tokens 1 bytes

theorem backrefLexer_restricts : (backrefLexer accept).Restricts anyTokens where
  marker := rfl
  len := fun {stream k} hlen => by
    rw [backrefLexer_len] at hlen ⊢
    cases stream with
    | nil => cases hlen
    | cons lead tail =>
      rw [backrefTokenLen] at hlen ⊢
      split_ifs at hlen ⊢
      · obtain ⟨n, hn, rfl⟩ := Option.map_eq_some_iff.mp hlen
        rw [atomTokenLen_any hn]
        rfl
      · exact atomTokenLen_any hlen

theorem atomTokenLen_lead_ne {lead : UInt8} {tail : Bytes} {k : Nat}
    (hlen : atomTokenLen accept (lead :: tail) = some k) :
    lead ≠ backReference := by
  rintro rfl
  rw [atomTokenLen_backReference] at hlen
  cases hlen

theorem atomLexer_restricts_backref :
    (atomLexer accept).Restricts (backrefLexer accept) where
  marker := rfl
  len := fun {stream k} hlen => by
    rw [backrefLexer_len]
    cases stream with
    | nil => cases hlen
    | cons lead tail =>
      rw [backrefTokenLen, if_neg (atomTokenLen_lead_ne hlen)]
      exact hlen

section

variable (hlen : atomTokenLen (fun _ _ => true) token = some token.length)

include hlen

/-- The two forms of a delimited atom token: one byte, accepted by every
lexer, or a size prefix and its atom, accepted by their size. -/
theorem atomTokenSize_forms :
    (token.length = 1 ∧ (atomTokenSize token).1 ≤ 1 ∧
      ∀ accept, atomTokenLen accept token = some token.length) ∨
    (token.length ≠ 1 ∧ 1 ≤ (atomTokenSize token).1 ∧
      (atomTokenSize token).1 ≤ 6 ∧
      (atomTokenSize token).2 < 2 ^ (7 - (atomTokenSize token).1) *
        256 ^ ((atomTokenSize token).1 - 1) ∧
      ∀ accept, atomTokenLen accept token =
        if accept (atomTokenSize token).1 (atomTokenSize token).2 then
          some token.length else none) := by
  have hbyte (b : UInt8) : b ≤ 0x80 → leadingOnes b ≤ 1 := by
    revert b
    apply forall_byte
    decide +kernel
  rcases atomTokenLen_eq_some.mp hlen with ⟨lead, tail, rfl, hsmall, hone⟩ |
    ⟨lead, tail, back, size, rfl, hlead, hwidth, hspells, -, hlength⟩
  · refine .inl ⟨hone, hbyte lead hsmall, fun accept => ?_⟩
    rw [atomTokenLen_low hsmall, hone]
  · have hpos := (leadingOnes_pos_iff lead).mpr hspells.high
    have htail := Nat.eq_sub_of_add_eq hspells.width
    have hlong : leadingOnes lead + size ≠ 1 := by
      intro hone
      obtain rfl : tail = [] := length_eq_zero_iff.mp (by omega)
      have hzero : (sizeBits lead).toNat = 0 := by
        have hvalue := hspells.value
        simp only [beNat, foldl_cons, foldl_nil] at hvalue
        omega
      have := (prefixByte_table lead).2.2.2.1 (by omega) hzero
      exact hlead (by rw [this]; decide)
    rw [atomTokenSize, take_left' htail, hspells.value, hlength]
    exact .inr ⟨hlong, hpos, hwidth, hspells.lt_pow, fun accept =>
      atomTokenLen_sized accept back hlead hwidth hspells⟩

/-- A delimited atom token is accepted by its size alone. -/
theorem atomTokenLen_iff :
    atomTokenLen accept token = some token.length ↔
      token.length = 1 ∨
        accept (atomTokenSize token).1 (atomTokenSize token).2 = true := by
  rcases atomTokenSize_forms hlen with ⟨hone, -, hall⟩ | ⟨hlong, -, -, -, hall⟩
  · simp [hall, hone]
  · rw [hall]
    split_ifs with haccept <;> simp [haccept, hlong]

end

/-- A token is delimited where its atom is. -/
theorem backrefTokenLen_eq_length :
    backrefTokenLen accept token = some token.length ↔
      atomTokenLen accept (tokenAtom token) =
        some (tokenAtom token).length := by
  cases token with
  | nil => rfl
  | cons lead tail =>
    rw [backrefTokenLen, tokenAtom]
    split_ifs
    · simp
    · rfl

/-- Only the gap separates the two tables of minimum lengths. -/
theorem canonicalAccepts_iff_not_gap {width size : Nat} (hpos : 1 ≤ width)
    (hwidth : width ≤ 6) (hlt : size < 2 ^ (7 - width) * 256 ^ (width - 1)) :
    canonicalAccepts width size = true ↔
      clvmAccepts width size = true ∧ ¬ GapSize width size := by
  rw [canonicalAccepts_iff, clvmAccepts, decide_eq_true_iff, GapSize]
  interval_cases width <;>
    simp only [canonicalFloor, widthFloor, maxDecodeSize, some.injEq,
      exists_eq_left', Nat.reduceEqDiff, true_and, false_and, or_false,
      false_or, not_false_eq_true, and_true, not_and, not_lt] <;>
    omega

section

variable (hlen : backrefTokenLen (fun _ _ => true) token = some token.length)

include hlen

/-- A delimited token is accepted by the size of its atom alone. -/
theorem backrefTokenLen_iff :
    backrefTokenLen accept token = some token.length ↔
      (tokenAtom token).length = 1 ∨
        accept (tokenSize token).1 (tokenSize token).2 = true := by
  rw [backrefTokenLen_eq_length] at hlen ⊢
  exact atomTokenLen_iff hlen

/-- A token is accepted by `is_canonical_atom` exactly when it is minimal and
outside the gap. -/
theorem canonical_token_iff :
    backrefTokenLen canonicalAccepts token = some token.length ↔
      MinimalToken token ∧ ¬ GapToken token := by
  rw [backrefTokenLen_iff hlen, MinimalToken, GapToken]
  rcases atomTokenSize_forms (backrefTokenLen_eq_length.mp hlen) with
    ⟨hone, hwidth, -⟩ | ⟨hlong, hpos, hwidth, hlt, -⟩
  · have hgap : ¬ GapSize (tokenSize token).1 (tokenSize token).2 := by
      rw [tokenSize, GapSize]
      omega
    simp [hone, hgap]
  · rw [tokenSize, canonicalAccepts_iff_not_gap hpos hwidth hlt, clvmAccepts,
      decide_eq_true_iff]
    simp [hlong]

theorem minimal_token_iff :
    backrefTokenLen clvmAccepts token = some token.length ↔
      MinimalToken token := by
  rw [backrefTokenLen_iff hlen, MinimalToken, clvmAccepts, decide_eq_true_iff]

end

/-- `is_canonical_serialization` accepts the expressions spelled with minimal
tokens outside the gap. -/
theorem isCanonicalSerialization_iff_tokens (bytes : Bytes) :
    isCanonicalSerialization bytes = true ↔
      anyTokens.Expr bytes ∧
        ∀ token ∈ serializedTokens bytes,
          MinimalToken token ∧ ¬ GapToken token := by
  rw [isCanonicalSerialization_iff, backrefLexer_restricts.expr_iff]
  refine and_congr_right fun hexpr => forall₂_congr fun token hmem => ?_
  exact canonical_token_iff ((backrefLexer _).len_of_mem_tokens hexpr hmem)

/-- `is_clvm_canonical` accepts the expressions spelled with minimal atom
tokens. -/
theorem isClvmCanonical_iff_tokens (bytes : Bytes) :
    isClvmCanonical bytes = true ↔
      anyTokens.Expr bytes ∧
        ∀ token ∈ serializedTokens bytes,
          MinimalToken token ∧ token.head? ≠ some backReference := by
  have hrestrict : clvmLexer.Restricts anyTokens :=
    ⟨rfl, fun hlen =>
      backrefLexer_restricts.len (atomLexer_restricts_backref.len hlen)⟩
  rw [isClvmCanonical_iff, hrestrict.expr_iff]
  refine and_congr_right fun hexpr => forall₂_congr fun token hmem => ?_
  have hlen := (backrefLexer _).len_of_mem_tokens hexpr hmem
  rw [← minimal_token_iff hlen]
  cases token with
  | nil => cases hlen
  | cons lead tail =>
    rw [head?_cons, Ne, some.injEq, backrefTokenLen]
    split_ifs with hback
    · rw [hback]
      refine iff_of_false (fun h => ?_) (fun h => h.2 rfl)
      change atomTokenLen clvmAccepts (backReference :: tail) = _ at h
      exact atomTokenLen_lead_ne h rfl
    · exact (and_iff_left hback).symm

/-- The bytes spell one expression, each token of it minimally. -/
def SpelledMinimally (bytes : Bytes) : Prop :=
  anyTokens.Expr bytes ∧
    ∀ token ∈ serializedTokens bytes, MinimalToken token

/-- Without back-references the checkers differ exactly on minimally spelled
expressions with a token in the gap. -/
theorem checkers_agree_iff {b : Bytes} (hplain : ∀ token ∈ serializedTokens b,
      token.head? ≠ some backReference) :
    isCanonicalSerialization b = isClvmCanonical b ↔
      (SpelledMinimally b → ∀ token ∈ serializedTokens b, ¬ GapToken token) := by
  have hclvm : isClvmCanonical b = true ↔ SpelledMinimally b := by
    rw [isClvmCanonical_iff_tokens, SpelledMinimally]
    exact and_congr_right fun _ => forall₂_congr fun token hmem =>
      and_iff_left (hplain token hmem)
  have hcanonical : isCanonicalSerialization b = true ↔ SpelledMinimally b ∧
      ∀ token ∈ serializedTokens b, ¬ GapToken token := by
    rw [isCanonicalSerialization_iff_tokens, SpelledMinimally, and_assoc,
      ← forall₂_and]
  rw [Bool.eq_iff_iff, hclvm, hcanonical]
  tauto

/-- A written atom token is in the gap by the length of its atom. -/
theorem gapToken_writeAtom_iff (hwrite : writeAtom data = .ok token) :
    GapToken token ↔ 2 ^ 27 ≤ data.length ∧ data.length < 2 ^ 28 := by
  have htoken := atomToken_of_writeAtom hwrite
  have hminimal := htoken.writeAtom_iff.mp hwrite
  cases htoken with
  | nil =>
    rw [GapToken, GapSize, show (tokenSize [0x80]).1 = 1 by decide]
    simp
  | byte b hb =>
    have hbyte (b : UInt8) : b ≤ maxSingleByte → (tokenSize [b]).1 = 0 := by
      revert b
      apply forall_byte
      decide +kernel
    rw [GapToken, GapSize, hbyte b hb]
    simp
  | sized lead tail data hlead hwidth hsize hspells =>
    have htail := Nat.eq_sub_of_add_eq hspells.width
    have hback : lead ≠ backReference := by
      rintro rfl
      exact absurd hwidth (by decide +kernel)
    have hfloor : widthFloor (leadingOnes lead) ≤ data.length :=
      of_decide_eq_true ((AtomToken.len_eq hlead hwidth hspells).mp hminimal.1)
    have hpos := (leadingOnes_pos_iff lead).mpr hspells.high
    have hlt := hspells.lt_pow
    rw [GapToken, tokenSize, tokenAtom, if_neg hback, atomTokenSize,
      take_left' htail, hspells.value, GapSize]
    dsimp only
    generalize leadingOnes lead = width at hfloor hlt hpos hwidth
    rw [maxDecodeSize] at hsize
    interval_cases width <;>
      simp only [widthFloor, Nat.reduceEqDiff, true_and, false_and, or_false,
        false_or, false_iff, not_and, not_lt] at hfloor hlt ⊢ <;>
      omega

theorem serializedTokens_pair {front back : Bytes}
    (hfront : anyTokens.Expr front) :
    serializedTokens (consBoxMarker :: (front ++ back)) =
      serializedTokens front ++ serializedTokens back := by
  rw [serializedTokens]
  exact anyTokens.tokens_marker.trans (anyTokens.tokens_expr hfront)

/-- The minimal lexer only restricts the general one. -/
theorem spelledMinimally_of_expr
    (hexpr : (backrefLexer clvmAccepts).Expr w) : SpelledMinimally w := by
  obtain ⟨hall, htokens⟩ := backrefLexer_restricts.expr_iff.mp hexpr
  refine ⟨hall, fun token hmem => ?_⟩
  exact (minimal_token_iff ((backrefLexer _).len_of_mem_tokens hall hmem)).mp
    (htokens token hmem)

theorem backrefTokenLen_of_writeAtom (hwrite : writeAtom data = .ok token) :
    backrefTokenLen clvmAccepts token = some token.length := by
  obtain ⟨lead, tail, rfl⟩ := (atomToken_of_writeAtom hwrite).exists_cons
  have hlen := atomTokenLen_of_writeAtom hwrite
  rw [backrefTokenLen, if_neg (atomTokenLen_lead_ne hlen), hlen]

theorem backrefTokenLen_backReference (hwrite : writeAtom data = .ok token) :
    backrefTokenLen clvmAccepts (backReference :: token) =
      some (backReference :: token).length := by
  rw [backrefTokenLen, if_pos rfl, atomTokenLen_of_writeAtom hwrite]
  rfl

theorem serializedTokens_minimal
    (hlen : backrefTokenLen clvmAccepts token = some token.length) :
    serializedTokens token = [token] :=
  anyTokens.tokens_singleton (backrefLexer_restricts.len hlen)

/-- A back-reference is in the gap when the atom of its path is. -/
theorem gapToken_backReference (hwrite : writeAtom data = .ok token) :
    GapToken (backReference :: token) ↔ GapToken token := by
  obtain ⟨lead, tail, rfl⟩ := (atomToken_of_writeAtom hwrite).exists_cons
  have hlead := atomTokenLen_lead_ne (atomTokenLen_of_writeAtom hwrite)
  simp only [GapToken, tokenSize, tokenAtom, if_pos, if_neg hlead]

/-- No atom of the tree has a length that `is_canonical_atom` refuses. -/
def SExp.OutsideGap (t : SExp) : Prop :=
  ∀ data ∈ t.atoms, ¬ (2 ^ 27 ≤ data.length ∧ data.length < 2 ^ 28)

theorem SExp.outsideGap_pair {first rest : SExp} :
    (pair first rest).OutsideGap ↔ first.OutsideGap ∧ rest.OutsideGap :=
  forall_mem_append

/-- The plain serialization is spelled minimally, and its gap tokens are those
of the tree's atoms. -/
theorem serialize_spelledMinimally (hwrite : serialize t = .ok w) :
    (backrefLexer clvmAccepts).Expr w ∧
      ((∀ token ∈ serializedTokens w, ¬ GapToken token) ↔ t.OutsideGap) := by
  induction t generalizing w with
  | atom data =>
    have hlen := backrefTokenLen_of_writeAtom hwrite
    refine ⟨.token hlen, ?_⟩
    rw [serializedTokens_minimal hlen, SExp.OutsideGap, atoms,
      forall_mem_singleton, forall_mem_singleton, gapToken_writeAtom_iff hwrite]
  | pair first rest ihfirst ihrest =>
    obtain ⟨front, back, hfront, hback, rfl⟩ := serialize_pair_eq_ok.mp hwrite
    obtain ⟨hfirst, hfirstGap⟩ := ihfirst hfront
    obtain ⟨hrest, hrestGap⟩ := ihrest hback
    refine ⟨.pair hfirst hrest, ?_⟩
    rw [serializedTokens_pair (spelledMinimally_of_expr hfirst).1,
      outsideGap_pair, forall_mem_append, hfirstGap, hrestGap]

section Compressed

variable {limit : Nat}

theorem Compressed.minimal
    (hcompressed : Compressed sha256 trees limit stack t w) :
    (backrefLexer clvmAccepts).Expr w := by
  induction hcompressed with
  | atom hwrite => exact .token (backrefTokenLen_of_writeAtom hwrite)
  | backref hwrite _ _ _ => exact .token (backrefTokenLen_backReference hwrite)
  | pair _ _ ihfirst ihrest => exact .pair ihfirst ihrest

/-- A token of the compressed form is in the gap for an atom of the tree, or as
a back-reference of at least `2^30 - 8` directions. -/
theorem Compressed.of_gapToken
    (hcompressed : Compressed sha256 trees limit stack t w)
    (hmem : token ∈ serializedTokens w) (hgap : GapToken token) :
    ¬ t.OutsideGap ∨
      token.head? = some backReference ∧ 2 ^ 30 - 8 ≤ limit := by
  induction hcompressed with
  | atom hwrite =>
    rw [serializedTokens_minimal (backrefTokenLen_of_writeAtom hwrite)] at hmem
    obtain rfl := mem_singleton.mp hmem
    exact .inl fun hatoms => hatoms _ (mem_singleton.mpr rfl)
      ((gapToken_writeAtom_iff hwrite).mp hgap)
  | @backref _ path _ _ hwrite _ _ hpath =>
    rw [serializedTokens_minimal (backrefTokenLen_backReference hwrite)] at hmem
    obtain rfl := mem_singleton.mp hmem
    rw [gapToken_backReference hwrite, gapToken_writeAtom_iff hwrite,
      encodeBackrefPath_spec.1] at hgap
    exact .inr ⟨rfl, by omega⟩
  | pair hfirst _ ihfirst ihrest =>
    rw [serializedTokens_pair (spelledMinimally_of_expr hfirst.minimal).1,
      mem_append] at hmem
    rw [outsideGap_pair]
    rcases hmem with hmem | hmem
    · exact (ihfirst hmem).imp_left fun h hatoms => h hatoms.1
    · exact (ihrest hmem).imp_left fun h hatoms => h hatoms.2

theorem SExp.mem_atoms_of_walk {top : SExp} (hwalk : top.walk path = some t)
    (hdata : data ∈ t.atoms) :
    data ∈ top.atoms := by
  induction path generalizing top with
  | nil =>
    rw [walk, some.injEq] at hwalk
    exact hwalk ▸ hdata
  | cons direction path ih =>
    cases top with
    | atom _ => cases hwalk
    | pair first rest =>
      rw [walk] at hwalk
      split_ifs at hwalk
      · exact mem_append_right _ (ih hwalk)
      · exact mem_append_left _ (ih hwalk)

theorem mem_atoms_stackList (hdata : data ∈ (stackList stack).atoms) :
    data = [] ∨ ∃ value ∈ stack, data ∈ value.atoms := by
  induction stack with
  | nil => exact .inl (mem_singleton.mp hdata)
  | cons value below ih =>
    rcases mem_append.mp hdata with hdata | hdata
    · exact .inr ⟨value, mem_cons_self, hdata⟩
    · exact (ih hdata).imp_right fun ⟨other, hmem, hatom⟩ =>
        ⟨other, mem_cons_of_mem _ hmem, hatom⟩

/-- Every atom of the tree is on the stack already, is the end of the stack
list, or is written. -/
theorem Compressed.mem_tokens
    (hcompressed : Compressed sha256 trees limit stack t w)
    (hinj : Set.InjOn (treeHash sha256) trees) (hdata : data ∈ t.atoms) :
    data = [] ∨ (∃ value ∈ stack, data ∈ value.atoms) ∨
      ∃ token ∈ serializedTokens w, writeAtom data = .ok token := by
  induction hcompressed with
  | @atom _ _ token hwrite =>
    rw [atoms, mem_singleton] at hdata
    rw [serializedTokens_minimal (backrefTokenLen_of_writeAtom hwrite), hdata]
    exact .inr (.inr ⟨token, mem_singleton.mpr rfl, hwrite⟩)
  | backref _ hwalk _ _ =>
    exact (mem_atoms_stackList
      (mem_atoms_of_walk (hwalk hinj) hdata)).imp_right .inl
  | @pair _ _ _ _ back hfirst _ ihfirst ihrest =>
    rw [serializedTokens_pair (spelledMinimally_of_expr hfirst.minimal).1]
    have hleft := fun h => (ihfirst h).imp_right (Or.imp_right
      (Exists.imp fun token => And.imp_left
        (mem_append_left (serializedTokens back))))
    rcases mem_append.mp hdata with hdata | hdata
    · exact hleft hdata
    · rcases ihrest hdata with hnil | ⟨value, hvalue, hatom⟩ |
        ⟨token, hmem, hwrite⟩
      · exact .inl hnil
      · rcases mem_cons.mp hvalue with rfl | hvalue
        · exact hleft hatom
        · exact .inr (.inl ⟨value, hvalue, hatom⟩)
      · exact .inr (.inr ⟨token, mem_append_right _ hmem, hwrite⟩)

end Compressed

theorem isCanonicalSerialization_of_minimal
    (hexpr : (backrefLexer clvmAccepts).Expr w) :
    isCanonicalSerialization w = true ↔
      ∀ token ∈ serializedTokens w, ¬ GapToken token := by
  obtain ⟨hall, hminimal⟩ := spelledMinimally_of_expr hexpr
  rw [isCanonicalSerialization_iff_tokens]
  exact ⟨fun h token hmem => (h.2 token hmem).2,
    fun h => ⟨hall, fun token hmem => ⟨hminimal token hmem, h token hmem⟩⟩⟩

theorem sexpToBytes_canonical_iff (hatoms : t.Encodable) :
    ∃ w, sexpToBytes t = .ok w ∧ (backrefLexer clvmAccepts).Expr w ∧
      (isCanonicalSerialization w = true ↔ t.OutsideGap) := by
  obtain ⟨w, hwrite⟩ := serialize_ok hatoms
  obtain ⟨hexpr, hgap⟩ := serialize_spelledMinimally hwrite
  exact ⟨w, sexpToBytes_eq_serialize.trans hwrite, hexpr,
    (isCanonicalSerialization_of_minimal hexpr).trans hgap⟩

/-- No back-reference of a serialization has a path in the gap. -/
def PathsOutsideGap (bytes : Bytes) : Prop :=
  ∀ token ∈ serializedTokens bytes, token.head? = some backReference →
    ¬ GapToken token

/-- The compressed form is accepted when neither an atom of the tree nor a path
that is written is in the gap, and, where hashing is injective, only then. -/
theorem sexpToBytesBackrefs_canonical (sha256 : HashFn) (hatoms : t.Encodable) :
    ∃ w, sexpToBytesBackrefs sha256 t = .ok w ∧
      (t.OutsideGap →
        (isCanonicalSerialization w = true ↔ PathsOutsideGap w)) ∧
      (t.size < 2 ^ 28 - 2 → t.OutsideGap → PathsOutsideGap w) ∧
      (Set.InjOn (treeHash sha256) {u | u ∈ involvedTrees [] t} →
        isCanonicalSerialization w = true → t.OutsideGap) := by
  obtain ⟨w, hwrite, hcompressed⟩ := sexpToBytesBackrefs_ok sha256 hatoms
  have hiff := isCanonicalSerialization_of_minimal hcompressed.minimal
  refine ⟨w, hwrite, fun hgap => hiff.trans ⟨fun h token hmem _ =>
    h token hmem, ?_⟩, ?_, ?_⟩
  · intro hpaths token hmem htoken
    rcases hcompressed.of_gapToken hmem htoken with hatom | ⟨hpath, -⟩
    · exact hatom hgap
    · exact hpaths token hmem hpath htoken
  · intro hsize hgap token hmem _ htoken
    rcases hcompressed.of_gapToken hmem htoken with hatom | ⟨-, hlong⟩
    · exact hatom hgap
    · omega
  intro hinj hcanonical data hdata hlength
  rcases hcompressed.mem_tokens hinj hdata with rfl | ⟨value, hmem, -⟩ |
    ⟨token, hmem, htoken⟩
  · exact absurd hlength.1 (by decide)
  · cases hmem
  · exact hiff.mp hcanonical token hmem
      ((gapToken_writeAtom_iff htoken).mpr hlength)

/-- Exactly where the canonicality checkers agree and accept what the
serializers write: no minimally spelled token, no atom of the tree and no path
that the compressing one writes may lie in the gap between the two tables of
minimum lengths.  Trees of fewer than `2^28 - 2` nodes have no such path. -/
theorem canonicality_holds_iff_no_gap (sha256 : HashFn) (b : Bytes) (t : SExp) :
    ((∀ token ∈ serializedTokens b, token.head? ≠ some backReference) →
      (isCanonicalSerialization b = isClvmCanonical b ↔
        (SpelledMinimally b →
          ∀ token ∈ serializedTokens b, ¬ GapToken token))) ∧
    (t.Encodable → ∃ w, sexpToBytes t = .ok w ∧
      (isCanonicalSerialization w = true ↔ t.OutsideGap)) ∧
    (t.Encodable →
      ∃ w, sexpToBytesBackrefs sha256 t = .ok w ∧
        (t.OutsideGap →
          (isCanonicalSerialization w = true ↔ PathsOutsideGap w)) ∧
        (t.size < 2 ^ 28 - 2 → t.OutsideGap → PathsOutsideGap w) ∧
        (Set.InjOn (treeHash sha256) {u | u ∈ involvedTrees [] t} →
          isCanonicalSerialization w = true → t.OutsideGap)) := by
  constructor
  · intro hplain
    exact checkers_agree_iff hplain
  constructor
  · intro hatoms
    obtain ⟨w, hwrite, -, hiff⟩ := sexpToBytes_canonical_iff hatoms
    exact ⟨w, hwrite, hiff⟩
  · intro hatoms
    exact sexpToBytesBackrefs_canonical sha256 hatoms

/-- At the pair of two equal atoms, plain and compressed. -/
theorem canonicality_holds_iff_no_gap_at_twins :
    (∀ token ∈ serializedTokens [0xff, 0x01, 0x80],
      token.head? ≠ some backReference) ∧
    (isCanonicalSerialization [0xff, 0x01, 0x80] =
        isClvmCanonical [0xff, 0x01, 0x80] ↔
      (SpelledMinimally [0xff, 0x01, 0x80] →
        ∀ token ∈ serializedTokens [0xff, 0x01, 0x80], ¬ GapToken token)) ∧
    twins.Encodable ∧
    (∃ w, sexpToBytes twins = .ok w ∧ isCanonicalSerialization w = true) ∧
    ∃ w, sexpToBytesBackrefs hash256 twins = .ok w ∧
      isCanonicalSerialization w = true := by
  have hplain : ∀ token ∈ serializedTokens [0xff, 0x01, 0x80],
      token.head? ≠ some backReference := by decide +kernel
  have hatoms : twins.Encodable := by decide
  have hgap : twins.OutsideGap := by unfold SExp.OutsideGap; decide
  obtain ⟨hagree, hwrites, hcompresses⟩ := canonicality_holds_iff_no_gap
    hash256 [0xff, 0x01, 0x80] twins
  obtain ⟨w, hwrite, hiff⟩ := hwrites hatoms
  obtain ⟨c, hcompress, haccept, hpaths, -⟩ := hcompresses hatoms
  exact ⟨hplain, hagree hplain, hatoms, ⟨w, hwrite, hiff.mpr hgap⟩,
    c, hcompress, (haccept hgap).mpr (hpaths (by decide) hgap)⟩

/-- An atom of `2^27` zero bytes: its plain serialization is minimal and has
no back-reference, and only one of the checkers accepts it. -/
theorem canonicality_fails_at_gap_atom :
    (SExp.atom (List.replicate (2 ^ 27) 0)).Encodable ∧
    ∃ w, sexpToBytes (.atom (List.replicate (2 ^ 27) 0)) = .ok w ∧
      (∀ token ∈ serializedTokens w, token.head? ≠ some backReference) ∧
      isClvmCanonical w = true ∧ isCanonicalSerialization w = false := by
  have hatoms : (atom (List.replicate (2 ^ 27) 0)).Encodable := by
    intro data hdata
    rw [mem_singleton.mp hdata, length_replicate]
    decide
  obtain ⟨w, hwrite, hexpr, hiff⟩ := sexpToBytes_canonical_iff hatoms
  have hclvm := isClvmCanonical_of_serialize
    (sexpToBytes_eq_serialize.symm.trans hwrite)
  refine ⟨hatoms, w, hwrite, ?_, hclvm, ?_⟩
  · exact fun token hmem =>
      (((isClvmCanonical_iff_tokens w).mp hclvm).2 token hmem).2
  · rw [← Bool.not_eq_true, hiff]
    intro hgap
    refine hgap _ (mem_singleton.mpr rfl) ?_
    rw [length_replicate]
    decide

end DgXch
