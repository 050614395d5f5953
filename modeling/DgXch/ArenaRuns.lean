/-
Whole runs of an arena: any sequence of operations, checkpoints and restores.
Substrings of small atoms append up to three bytes without a look at the heap
limit.  As long as these have room, every state of every run is sound, live
handles keep what they denote, and every operation returns what was asked for.
-/
import DgXch.Arena

namespace DgXch

open BigEndian TwosComplement List DgXch.Except Arena Pools

/-- The operations of a run.  A restore names its checkpoint by how many have
been taken after it and not been rewound. -/
inductive ArenaOp where
  | newAtom (v : Bytes)
  | newPair (first rest : NodePtr)
  | newSubstr (node : NodePtr) (start stop : UInt32)
  | newConcat (newSize : Nat) (nodes : List NodePtr)
  | newNumber (n : SExpNumber)
  | importTree (sexp : SExp)
  | checkpoint
  | restore (depth : Nat)
deriving Repr, DecidableEq

variable {a : Arena} {n m : Nat} {node : NodePtr} {op : ArenaOp} {t : SExp}

/-- A checkpoint and the handles that were live when it was taken. -/
structure Mark where
  cp : Checkpoint
  live : List NodePtr
deriving Repr, DecidableEq

/-- An arena in use. -/
structure Session where
  arena : Arena
  live : List NodePtr
  marks : List Mark
  mintedAtoms : Nat
  mintedPairs : Nat
deriving Repr, DecidableEq

/-- A new arena, with the two constant handles. -/
def Session.new : Session := ⟨.new, [.nil, .one], [], 0, 0⟩

/-- The outcome of an operation that mints. -/
def ArenaOp.outcome (op : ArenaOp) (a : Arena) : Option ArenaOutcome :=
  match op with
  | .newAtom v => some (a.newAtom v)
  | .newPair first rest => some (a.newPair first rest)
  | .newSubstr node start stop => some (a.newSubstr node start stop)
  | .newConcat newSize nodes => some (a.newConcat newSize nodes)
  | .newNumber n => some (a.newNumber n)
  | .importTree sexp => some (a.importTree sexp)
  | .checkpoint | .restore _ => none

/-- The atoms and pairs that an operation mints.  An import that fails has
minted a part of its tree. -/
def ArenaOp.minted (op : ArenaOp) (a : Arena)
    (result : ArenaResult NodePtr) : Nat × Nat :=
  match op, result with
  | .importTree sexp, _ => Arena.importMinted [.visit sexp] [] a
  | _, .error _ => (0, 0)
  | .newPair _ _, .ok _ => (0, 1)
  | _, .ok _ => (1, 0)

variable (s : Session)

/-- Take over the outcome of an operation that mints. -/
def Session.take (out : ArenaOutcome) (minted : Nat × Nat) : Session where
  arena := out.2
  live := match out.1 with
    | .ok node => node :: s.live
    | .error _ => s.live
  marks := s.marks
  mintedAtoms := s.mintedAtoms + minted.1
  mintedPairs := s.mintedPairs + minted.2

/-- Go back to a checkpoint, which stays. -/
def Session.rewind (depth : Nat) : Session :=
  match s.marks.drop depth with
  | [] => s
  | mark :: marks =>
    { s with
      arena := s.arena.restore mark.cp
      live := mark.live
      marks := mark :: marks }

def Session.step (op : ArenaOp) : Session :=
  match op.outcome s.arena with
  | some out => s.take out (op.minted s.arena out.1)
  | none =>
    match op with
    | .restore depth => s.rewind depth
    | _ => { s with marks := ⟨s.arena.checkpoint, s.live⟩ :: s.marks }

def Session.steps (ops : List ArenaOp) : Session := ops.foldl Session.step s

/-- The operations that may be asked for: on live handles, and back to a
checkpoint that is still there. -/
def Session.Allowed (op : ArenaOp) : Prop :=
  match op with
  | .newPair first rest => first ∈ s.live ∧ rest ∈ s.live
  | .newSubstr node _ _ => node ∈ s.live
  | .newConcat _ nodes => ∀ node ∈ nodes, node ∈ s.live
  | .restore depth => depth < s.marks.length
  | _ => True

/-- A substring of a small atom has room for the bytes it appends. -/
def Session.HasRoom (op : ArenaOp) : Prop :=
  match op with
  | .newSubstr node start stop =>
    s.arena.u8Vec.length + substrGrowth node start stop ≤ heapLimit
  | _ => True

instance (s : Session) (op : ArenaOp) : Decidable (s.Allowed op) :=
  match op with
  | .newPair first rest =>
    inferInstanceAs (Decidable (first ∈ s.live ∧ rest ∈ s.live))
  | .newSubstr node _ _ => inferInstanceAs (Decidable (node ∈ s.live))
  | .newConcat _ nodes =>
    inferInstanceAs (Decidable (∀ node ∈ nodes, node ∈ s.live))
  | .restore depth => inferInstanceAs (Decidable (depth < s.marks.length))
  | .newAtom _ | .newNumber _ | .importTree _ | .checkpoint =>
    inferInstanceAs (Decidable True)

instance (s : Session) (op : ArenaOp) : Decidable (s.HasRoom op) :=
  match op with
  | .newSubstr node start stop => inferInstanceAs (Decidable
      (s.arena.u8Vec.length + substrGrowth node start stop ≤ heapLimit))
  | .newAtom _ | .newPair _ _ | .newConcat _ _ | .newNumber _ | .importTree _
  | .checkpoint | .restore _ => inferInstanceAs (Decidable True)

/-- Every operation of a run meets a condition in the state it is applied
to. -/
def Session.Along (P : Session → ArenaOp → Prop) : Session → List ArenaOp → Prop
  | _, [] => True
  | s, op :: ops => P s op ∧ (s.step op).Along P ops

instance instDecidableAlong (P : Session → ArenaOp → Prop)
    [∀ s op, Decidable (P s op)] (s : Session) (ops : List ArenaOp) :
    Decidable (s.Along P ops) :=
  match ops with
  | [] => inferInstanceAs (Decidable True)
  | op :: ops =>
    have := instDecidableAlong P (s.step op) ops
    inferInstanceAs (Decidable (P s op ∧ (s.step op).Along P ops))

def Pools.truncate (p : Pools) (cp : Checkpoint) : Pools :=
  ⟨p.u8Vec.take cp.heap, p.pairVec.take cp.pairs, p.atomVec.take cp.atoms⟩

/-- A checkpoint that is not past another one. -/
structure Checkpoint.Le (cp cp' : Checkpoint) : Prop where
  heap : cp.heap ≤ cp'.heap
  pairs : cp.pairs ≤ cp'.pairs
  atoms : cp.atoms ≤ cp'.atoms

/-- The part of soundness that is about the pools alone. -/
structure Pools.Closed (p : Pools) : Prop where
  spans : ∀ span ∈ p.atomVec,
    span.start ≤ span.stop ∧ span.stop ≤ p.u8Vec.length
  pairs : ∀ pair ∈ p.pairVec, (∃ left, Denotes p pair.first left) ∧
    ∃ right, Denotes p pair.rest right

/-- What a checkpoint promises: it lies within the pools, and what was live
then is still denoted by the pools as they were. -/
structure Mark.Kept (mark : Mark) (a : Arena) : Prop where
  within : mark.cp.Le a.checkpoint
  closed : (a.toPools.truncate mark.cp).Closed
  denotes : ∀ node ∈ mark.live,
    ∃ t, Denotes (a.toPools.truncate mark.cp) node t

/-- What holds in every state of a run. -/
structure Session.Inv (s : Session) : Prop where
  sound : s.arena.Sound
  live : ∀ node ∈ s.live, ∃ t, Denotes s.arena.toPools node t
  atoms : s.arena.atomVec.length + s.arena.ghostAtoms = s.mintedAtoms + 2
  pairs : s.arena.pairVec.length + s.arena.ghostPairs = s.mintedPairs
  marks : ∀ mark ∈ s.marks, mark.Kept s.arena
  nested : s.marks.Pairwise fun inner outer =>
    outer.cp.Le inner.cp ∧ outer.live ⊆ inner.live
  older : ∀ mark ∈ s.marks, mark.live ⊆ s.live

section Truncation

variable {p p' : Pools} {cp cp' : Checkpoint}

theorem take_of_prefix {A : Type} {front whole : List A}
    (hbegins : front <+: whole) (hn : n ≤ front.length) :
    whole.take n = front.take n := by
  obtain ⟨back, rfl⟩ := hbegins
  rw [take_append_of_le_length hn]

theorem Pools.truncate_self : a.toPools.truncate a.checkpoint = a.toPools := by
  simp [truncate, checkpoint]

theorem Arena.Sound.closed (hsound : a.Sound) : a.toPools.Closed :=
  ⟨hsound.spans, hsound.pairs⟩

/-- Growth keeps the promise of a checkpoint. -/
theorem Mark.Kept.grows {mark : Mark} {a' : Arena} (hkept : mark.Kept a)
    (hgrows : a.Grows n m a') : mark.Kept a' := by
  have hwithin := hkept.within
  have hsame : a'.toPools.truncate mark.cp = a.toPools.truncate mark.cp := by
    rw [truncate, truncate, take_of_prefix hgrows.le.u8Vec hwithin.heap,
      take_of_prefix hgrows.le.pairVec hwithin.pairs,
      take_of_prefix hgrows.le.atomVec hwithin.atoms]
  refine ⟨⟨?_, ?_, ?_⟩, ?_, ?_⟩
  · exact le_trans hwithin.heap hgrows.le.u8Vec.length_le
  · exact le_trans hwithin.pairs hgrows.le.pairVec.length_le
  · exact le_trans hwithin.atoms hgrows.le.atomVec.length_le
  · rw [hsame]
    exact hkept.closed
  · rw [hsame]
    exact hkept.denotes

/-- A restored arena is sound, and its counters are those it had. -/
theorem Arena.Sound.restore (hsound : a.Sound) (hwithin : cp.Le a.checkpoint)
    (hclosed : (a.toPools.truncate cp).Closed) :
    (a.restore cp).Sound ∧
      (a.restore cp).atomVec.length + (a.restore cp).ghostAtoms =
        a.atomVec.length + a.ghostAtoms ∧
      (a.restore cp).pairVec.length + (a.restore cp).ghostPairs =
        a.pairVec.length + a.ghostPairs := by
  have hatoms : (a.restore cp).atomVec.length + (a.restore cp).ghostAtoms =
      a.atomVec.length + a.ghostAtoms := by
    have := hwithin.atoms
    simp only [Arena.restore, checkpoint, length_take] at *
    omega
  have hpairs : (a.restore cp).pairVec.length + (a.restore cp).ghostPairs =
      a.pairVec.length + a.ghostPairs := by
    have := hwithin.pairs
    simp only [Arena.restore, checkpoint, length_take] at *
    omega
  refine ⟨⟨hclosed.spans, ?_, hclosed.pairs, ?_, ?_, ?_⟩, hatoms, hpairs⟩
  · exact le_trans (length_take_le' _ _) hsound.heap
  · intro v node hmem
    cases hmem
  · rw [hatoms]
    exact hsound.atomLimit
  · rw [hpairs]
    exact hsound.pairLimit

theorem Mark.Kept.restore {mark mark' : Mark} (hkept : mark.Kept a)
    (hkept' : mark'.Kept a) (hle : mark'.cp.Le mark.cp) :
    mark'.Kept (a.restore mark.cp) := by
  have hsame : (a.restore mark.cp).toPools.truncate mark'.cp =
      a.toPools.truncate mark'.cp := by
    simp only [Arena.restore, truncate, take_take,
      min_eq_left hle.heap, min_eq_left hle.pairs, min_eq_left hle.atoms]
  have hwithin := hkept.within
  refine ⟨⟨?_, ?_, ?_⟩, ?_, ?_⟩
  · simp only [Arena.restore, checkpoint, length_take] at *
    exact le_min hle.heap (le_trans hle.heap hwithin.heap)
  · simp only [Arena.restore, checkpoint, length_take] at *
    exact le_min hle.pairs (le_trans hle.pairs hwithin.pairs)
  · simp only [Arena.restore, checkpoint, length_take] at *
    exact le_min hle.atoms (le_trans hle.atoms hwithin.atoms)
  · rw [hsame]
    exact hkept'.closed
  · rw [hsame]
    exact hkept'.denotes

end Truncation

section Steps

variable {s : Session}

section

variable (hinv : s.Inv) (hgrows : s.arena.Grows n m a)

include hinv hgrows

/-- Growth of the arena, with or without a new handle, keeps the invariant. -/
theorem Session.Inv.grows {live : List NodePtr}
    (hlive : ∀ node ∈ live, ∃ t, Denotes a.toPools node t)
    (holder : s.live ⊆ live) :
    Session.Inv ⟨a, live, s.marks, s.mintedAtoms + n, s.mintedPairs + m⟩ where
  sound := hgrows.sound
  live := hlive
  atoms := by rw [hgrows.atoms, hinv.atoms, Nat.add_right_comm]
  pairs := by rw [hgrows.pairs, hinv.pairs]
  marks mark hmark := (hinv.marks mark hmark).grows hgrows
  nested := hinv.nested
  older mark hmark := List.Subset.trans (hinv.older mark hmark) holder

theorem Session.Inv.live_grows :
    ∀ node ∈ s.live, ∃ t, Denotes a.toPools node t := by
  intro node hnode
  obtain ⟨t, hdenotes⟩ := hinv.live node hnode
  exact ⟨t, hdenotes.mono hgrows.le⟩

theorem Session.Inv.live_cons {new : NodePtr} (hnew : Denotes a.toPools new t) :
    ∀ node ∈ new :: s.live, ∃ t, Denotes a.toPools node t :=
  forall_mem_cons.mpr ⟨⟨t, hnew⟩, hinv.live_grows hgrows⟩

end

/-- The handles of a list of live handles denote some trees. -/
theorem Session.Inv.forall₂ (hinv : s.Inv) {nodes : List NodePtr}
    (hnodes : ∀ node ∈ nodes, node ∈ s.live) :
    ∃ trees, Forall₂ (Denotes s.arena.toPools) nodes trees := by
  induction nodes with
  | nil => exact ⟨[], .nil⟩
  | cons head tail ih =>
    obtain ⟨t, hhead⟩ := hinv.live head (hnodes head (by simp))
    obtain ⟨trees, htail⟩ := ih fun node hnode =>
      hnodes node (mem_cons_of_mem _ hnode)
    exact ⟨t :: trees, .cons hhead htail⟩

theorem newSubstr_pair {left right : SExp}
    (hdenotes : Denotes a.toPools node (.pair left right))
    (start stop : UInt32) :
    ∃ e, a.newSubstr node start stop = (.error (.error e), a) := by
  cases hdenotes
  unfold newSubstr
  rcases a.checkAtomLimit_cases with hatoms | ⟨hatoms, -⟩
  · exact ⟨_, by rw [hatoms]; rfl⟩
  · exact ⟨_, by rw [hatoms]; rfl⟩

/-- What a successful operation is asked for, in terms of how its arguments
were read before it and how its handle is read after it. -/
def ArenaOp.Denoted (op : ArenaOp) (before after : Arena) (node : NodePtr) :
    Prop :=
  match op with
  | .newAtom v => after.atom node = .ok (some v)
  | .newPair first rest => after.nodeKind node = .ok (.pair first rest)
  | .newSubstr source start stop => ∃ data,
      before.atom source = .ok (some data) ∧
        after.atom node = .ok (some ((data.drop start.toNat).take
          (stop.toNat - start.toNat)))
  | .newConcat newSize nodes => ∃ datas : List Bytes,
      Forall₂ (fun source data => before.atom source = .ok (some data))
        nodes datas ∧ datas.flatten.length = newSize ∧
          after.atom node = .ok (some datas.flatten)
  | .newNumber n => after.atom node = .ok (some n.bytes) ∧
      ∃ m, after.number node = .ok (some m) ∧ m.value = n.value
  | .importTree sexp => ∀ turns, sexp.exportTurns ≤ turns →
      after.exportTree turns node = some (.ok sexp)
  | .checkpoint | .restore _ => True

/-- A handle reads the same in two arenas. -/
structure SameReading (a a' : Arena) (node : NodePtr) : Prop where
  atom : a'.atom node = a.atom node
  nodeKind : a'.nodeKind node = a.nodeKind node
  exportTree : ∃ t : SExp, ∀ turns, t.exportTurns ≤ turns →
    a.exportTree turns node = some (.ok t) ∧
      a'.exportTree turns node = some (.ok t)

theorem Denotes.sameReading {a' : Arena} {p : Pools}
    (hdenotes : Denotes p node t) (hle : p.Le a.toPools)
    (hle' : p.Le a'.toPools) : SameReading a a' node := by
  have hbefore := hdenotes.mono hle
  have hafter := hdenotes.mono hle'
  refine ⟨?_, ?_, t, fun turns hturns =>
    ⟨hbefore.exportTree_eq hturns, hafter.exportTree_eq hturns⟩⟩
  · cases t with
    | atom data => rw [hbefore.atom_eq, hafter.atom_eq]
    | pair left right =>
      cases hdenotes
      rfl
  · cases hdenotes with
    | small hval => rfl
    | bytes hspan hstart hstop => rfl
    | pair hpair hfirst hrest =>
      rw [nodeKind, nodeKind]
      dsimp only
      rw [indexVec_of_some (getElem?_of_isPrefixOf hle.pairVec hpair),
        indexVec_of_some (getElem?_of_isPrefixOf hle'.pairVec hpair)]

theorem drop_beBytes (front width n : Nat) :
    (beBytes (front + width) n).drop front = beBytes width n := by
  induction width generalizing n with
  | zero =>
    rw [drop_eq_nil_of_le (by rw [length_beBytes]; simp)]
    rfl
  | succ width ih =>
    rw [← Nat.add_assoc, beBytes, beBytes,
      drop_append_of_le_length (by rw [length_beBytes]; omega), ih]

theorem beInt_smallAtomBytes {val : Nat} (hval : val < 2 ^ nodePtrIdxBits) :
    beInt (smallAtomBytes val) = val := by
  have hlen : lenForValue val ≤ 4 ∧ 2 * val < 256 ^ lenForValue val := by
    rw [nodePtrIdxBits] at hval
    unfold lenForValue
    split_ifs <;> omega
  have hbytes : smallAtomBytes val = beBytes (lenForValue val) val := by
    have hdrop := drop_beBytes (4 - lenForValue val) (lenForValue val) val
    rwa [Nat.sub_add_cancel hlen.1] at hdrop
  have hvalue : beNat (smallAtomBytes val) = val := by
    rw [hbytes, beNat_beBytes, Nat.mod_eq_of_lt (by omega)]
  have hsign : negative (smallAtomBytes val) = false := by
    by_cases hnil : smallAtomBytes val = []
    · rw [hnil]
      rfl
    · rw [← Bool.not_eq_true, negative_iff hnil, hvalue, hbytes, length_beBytes]
      exact not_le.mpr hlen.2
  rw [beInt_of_not_negative hsign, hvalue]

/-- A small atom or a stored one is read as the number of its bytes. -/
theorem Denotes.number_eq {data : Bytes}
    (hdenotes : Denotes a.toPools node (.atom data)) :
    ∃ m, a.number node = .ok (some m) ∧ m.value = beInt data := by
  cases hdenotes with
  | small hval =>
    refine ⟨_, rfl, ?_⟩
    rename_i val
    rw [nodePtrIdxBits] at hval
    have hnat : (BitVec.ofNat 128 val).toNat = val := by
      rw [BitVec.toNat_ofNat]
      exact Nat.mod_eq_of_lt (by omega)
    rw [beInt_smallAtomBytes hval, SExpNumber.value,
      BitVec.toInt_eq_toNat_of_lt (by rw [hnat]; omega), hnat]
  | bytes hspan hle hstop =>
    refine ⟨_, ?_, SExpNumber.value_ofBytes _⟩
    rw [number]
    dsimp only
    rw [indexVec_of_some hspan, bind_ok, sliceRange_of_le hle hstop, bind_ok]

/-- How an operation ends on a sound arena: it has grown by what was minted,
and a handle that is returned denotes what was asked for. -/
structure ArenaOp.Ends (op : ArenaOp) (a : Arena) (out : ArenaOutcome) :
    Prop where
  grows : a.Grows (op.minted a out.1).1 (op.minted a out.1).2 out.2
  result : (∃ node, out.1 = .ok node ∧ op.Denoted a out.2 node ∧
    ∃ t, Denotes out.2.toPools node t) ∨ ∃ e, out.1 = .error (.error e)

/-- An operation that mints one node, or fails. -/
theorem ArenaOp.ends_of_mints (hsound : a.Sound) {out : ArenaOutcome}
    (hmints : a.Mints n m t out)
    (hminted : ∀ node, op.minted a (.ok node) = (n, m))
    (hfailed : ∀ fault, op.minted a (.error fault) = (0, 0))
    (hdenoted : ∀ node, out.1 = .ok node → Denotes out.2.toPools node t →
      op.Denoted a out.2 node) : op.Ends a out := by
  rcases hmints with ⟨node, a', rfl, hgrows, hdenotes⟩ | ⟨e, rfl⟩
  · refine ⟨?_, .inl ⟨node, rfl, hdenoted node rfl hdenotes, t, hdenotes⟩⟩
    rw [hminted]
    exact hgrows
  · refine ⟨?_, .inr ⟨e, rfl⟩⟩
    rw [hfailed]
    exact hsound.grows_refl

theorem ArenaOp.ends_of_error (hsound : a.Sound) {e : ClvmError}
    (hfailed : ∀ fault, op.minted a (.error fault) = (0, 0)) :
    op.Ends a (.error (.error e), a) := by
  refine ⟨?_, .inr ⟨e, rfl⟩⟩
  rw [hfailed]
  exact hsound.grows_refl

open ArenaOp

/-- The outcome of every operation that may be asked for and has room. -/
theorem Session.Inv.ends (hinv : s.Inv) (hallowed : s.Allowed op)
    (hroom : s.HasRoom op) {out : ArenaOutcome}
    (hout : op.outcome s.arena = some out) : op.Ends s.arena out := by
  have hsound := hinv.sound
  cases op with
  | newAtom v =>
    cases hout
    exact ends_of_mints hsound (s.arena.newAtom_mints hsound v)
      (fun _ => rfl) (fun _ => rfl) fun node _ hdenotes => hdenotes.atom_eq
  | newPair first rest =>
    cases hout
    obtain ⟨left, hleft⟩ := hinv.live first hallowed.1
    obtain ⟨right, hright⟩ := hinv.live rest hallowed.2
    exact ends_of_mints hsound
      (s.arena.newPair_mints hsound hleft hright) (fun _ => rfl)
      (fun _ => rfl) fun node hok _ => newPair_nodeKind (Prod.ext hok rfl)
  | newSubstr node start stop =>
    cases hout
    obtain ⟨t, hdenotes⟩ := hinv.live node hallowed
    cases t with
    | pair left right =>
      obtain ⟨e, herror⟩ := newSubstr_pair hdenotes start stop
      rw [herror]
      exact ends_of_error hsound fun _ => rfl
    | atom data =>
      exact ends_of_mints hsound
        (s.arena.newSubstr_mints hsound hdenotes hroom) (fun _ => rfl)
        (fun _ => rfl) fun new _ hnew => ⟨data, hdenotes.atom_eq, hnew.atom_eq⟩
  | newConcat newSize nodes =>
    cases hout
    obtain ⟨trees, htrees⟩ := hinv.forall₂ hallowed
    rcases s.arena.newConcat_mints hsound newSize htrees with
      ⟨datas, rfl, hsize, hconcat⟩ | ⟨e, herror⟩
    · apply ends_of_mints hsound hconcat (fun _ => rfl) (fun _ => rfl)
      intro new _ hnew
      refine ⟨datas, ?_, hsize, hnew.atom_eq⟩
      exact (forall₂_map_right_iff.mp htrees).imp fun _ _ hnode => hnode.atom_eq
    · rw [herror]
      exact ends_of_error hsound fun _ => rfl
  | newNumber n =>
    cases hout
    apply ends_of_mints hsound
      (s.arena.newAtom_mints hsound n.bytes) (fun _ => rfl) (fun _ => rfl)
    intro node _ hdenotes
    obtain ⟨number, hnumber, hvalue⟩ := hdenotes.number_eq
    exact ⟨hdenotes.atom_eq, number, hnumber, hvalue.trans n.beInt_bytes⟩
  | importTree sexp =>
    cases hout
    obtain ⟨hgrows, hresult⟩ := hsound.importTree sexp
    refine ⟨hgrows, hresult.imp_left ?_⟩
    rintro ⟨node, hok, hdenotes⟩
    exact ⟨node, hok, fun turns hturns => hdenotes.exportTree_eq hturns,
      sexp, hdenotes⟩
  | checkpoint => cases hout
  | restore depth => cases hout

/-- Taking a checkpoint keeps the invariant. -/
theorem Session.Inv.mark (hinv : s.Inv) :
    Session.Inv { s with
      marks := ⟨s.arena.checkpoint, s.live⟩ :: s.marks } where
  sound := hinv.sound
  live := hinv.live
  atoms := hinv.atoms
  pairs := hinv.pairs
  marks := by
    refine forall_mem_cons.mpr ⟨?_, hinv.marks⟩
    refine ⟨⟨le_refl _, le_refl _, le_refl _⟩, ?_, ?_⟩
    · rw [truncate_self]
      exact hinv.sound.closed
    · rw [truncate_self]
      exact hinv.live
  nested := by
    refine List.Pairwise.cons ?_ hinv.nested
    intro mark hmark
    exact ⟨(hinv.marks mark hmark).within, hinv.older mark hmark⟩
  older := forall_mem_cons.mpr ⟨List.Subset.refl _, hinv.older⟩

open Session

/-- Going back to a checkpoint keeps the invariant. -/
theorem Session.Inv.rewind (hinv : s.Inv) (depth : Nat) :
    (s.rewind depth).Inv := by
  unfold Session.rewind
  split
  · exact hinv
  rename_i mark marks hdrop
  have hsuffix : mark :: marks <:+ s.marks := hdrop ▸ drop_suffix _ _
  have hkept := hinv.marks mark (hsuffix.subset (mem_cons_self ..))
  obtain ⟨hsound, hatoms, hpairs⟩ := hinv.sound.restore hkept.within
    hkept.closed
  have hnested := hinv.nested.sublist hsuffix.sublist
  obtain ⟨houter, -⟩ := pairwise_cons.mp hnested
  refine ⟨hsound, hkept.denotes, hatoms.trans hinv.atoms,
    hpairs.trans hinv.pairs, ?_, hnested, ?_⟩
  · intro mark' hmark'
    have hkept' := hinv.marks mark' (hsuffix.subset hmark')
    rcases mem_cons.mp hmark' with rfl | hmark'
    · exact hkept.restore hkept' ⟨le_refl _, le_refl _, le_refl _⟩
    · exact hkept.restore hkept' (houter mark' hmark').1
  · exact forall_mem_cons.mpr
      ⟨List.Subset.refl _, fun mark' hmark' => (houter mark' hmark').2⟩

/-- One operation that may be asked for and has room keeps the invariant. -/
theorem Session.Inv.step (hinv : s.Inv) (hallowed : s.Allowed op)
    (hroom : s.HasRoom op) : (s.step op).Inv := by
  unfold Session.step
  cases hout : op.outcome s.arena with
  | some out =>
    obtain ⟨hgrows, hresult⟩ := hinv.ends hallowed hroom hout
    rcases hresult with ⟨node, hok, -, t, hdenotes⟩ | ⟨e, herror⟩
    · unfold Session.take
      simp only [hok] at hgrows ⊢
      exact hinv.grows hgrows (hinv.live_cons hgrows hdenotes)
        (subset_cons_self _ _)
    · unfold Session.take
      simp only [herror] at hgrows ⊢
      exact hinv.grows hgrows (hinv.live_grows hgrows) (List.Subset.refl _)
  | none =>
    cases op with
    | restore depth => exact hinv.rewind depth
    | checkpoint => exact hinv.mark
    | _ => cases hout

theorem Session.inv_new : new.Inv where
  sound := sound_new
  live := by
    intro node hnode
    rcases mem_pair.mp hnode with rfl | rfl
    · exact ⟨_, .small (by decide)⟩
    · exact ⟨_, .small (by decide)⟩
  atoms := rfl
  pairs := rfl
  marks := by simp [new]
  nested := .nil
  older := by simp [new]

/-- A live handle that an operation leaves live reads as it did. -/
theorem Session.Inv.sameReading (hinv : s.Inv) (hallowed : s.Allowed op)
    (hroom : s.HasRoom op) (hbefore : node ∈ s.live)
    (hafter : node ∈ (s.step op).live) :
    SameReading s.arena (s.step op).arena node := by
  obtain ⟨t, hdenotes⟩ := hinv.live node hbefore
  revert hafter
  unfold Session.step
  cases hout : op.outcome s.arena with
  | some out =>
    intro _
    exact hdenotes.sameReading (.refl _) (hinv.ends hallowed hroom hout).grows.le
  | none =>
    cases op with
    | checkpoint =>
      intro _
      exact hdenotes.sameReading (.refl _) (.refl _)
    | restore depth =>
      dsimp only
      unfold Session.rewind
      split
      · intro _
        exact hdenotes.sameReading (.refl _) (.refl _)
      · rename_i mark marks hdrop
        intro hafter
        have hsuffix : mark :: marks <:+ s.marks := hdrop ▸ drop_suffix _ _
        have hkept := hinv.marks mark (hsuffix.subset (mem_cons_self ..))
        obtain ⟨t', hdenotes'⟩ := hkept.denotes node hafter
        exact hdenotes'.sameReading ⟨ take_prefix _ _,
          take_prefix _ _, take_prefix _ _⟩ (.refl _)
    | _ => cases hout

end Steps

/-- Every state of a run that keeps its conditions is a state of the
invariant. -/
theorem Session.Inv.steps {s : Session} (hinv : s.Inv) {ops : List ArenaOp}
    (hrun : s.Along (fun s op => s.Allowed op ∧ s.HasRoom op) ops) :
    (s.steps ops).Inv := by
  induction ops generalizing s with
  | nil => exact hinv
  | cons op ops ih =>
    obtain ⟨⟨hallowed, hroom⟩, hrun⟩ := hrun
    exact ih (hinv.step hallowed hroom) hrun

/-- In every run whose substrings of small atoms have room, at every point: the
arena is sound; its counters are the nodes minted so far, two atoms standing
for nil and one; and whatever is asked for next leaves the live handles
readable as they were and returns a handle of exactly what was asked for, or an
error. -/
theorem arena_sound_along_runs {ops : List ArenaOp}
    (hrun : Session.new.Along (fun s op => s.Allowed op ∧ s.HasRoom op) ops) :
    (Session.new.steps ops).arena.Sound ∧
      (Session.new.steps ops).arena.counters.1 =
        (Session.new.steps ops).mintedAtoms + 2 ∧
      (Session.new.steps ops).arena.counters.2.1 =
        (Session.new.steps ops).mintedPairs ∧
      ∀ op, (Session.new.steps ops).Allowed op →
        (Session.new.steps ops).HasRoom op →
        (∀ node ∈ (Session.new.steps ops).live,
          node ∈ ((Session.new.steps ops).step op).live →
          SameReading (Session.new.steps ops).arena
            ((Session.new.steps ops).step op).arena node) ∧
        ∀ out, op.outcome (Session.new.steps ops).arena = some out →
          (∃ node, out.1 = .ok node ∧
            op.Denoted (Session.new.steps ops).arena out.2 node) ∨
          ∃ e, out.1 = .error (.error e) := by
  have hinv := Session.inv_new.steps hrun
  refine ⟨hinv.sound, hinv.atoms, hinv.pairs, fun op hallowed hroom =>
    ⟨fun node hbefore hafter => hinv.sameReading hallowed hroom hbefore hafter,
      fun out hout => ?_⟩⟩
  rcases (hinv.ends hallowed hroom hout).result with
    ⟨node, hok, hdenoted, -⟩ | herror
  · exact .inl ⟨node, hok, hdenoted⟩
  · exact .inr herror

/-- A run that mints, shares, cuts, joins and rewinds. -/
def sampleRun : List ArenaOp :=
  [.newAtom [0x03, 0x80, 0xff, 0xff], .checkpoint,
    .newSubstr ⟨.smallAtom, 0x0380ffff⟩ 1 4, .newPair ⟨.bytes, 0⟩ .one,
    .newConcat 7 [⟨.smallAtom, 0x0380ffff⟩, ⟨.bytes, 0⟩],
    .importTree (.pair (.atom [1]) (.atom [0x80])), .restore 0,
    .newNumber (.i128 (-1))]

/-- The run stays sound, and its counters are what it minted. -/
theorem arena_sound_along_runs_at_sampleRun :
    Session.new.Along (fun s op => s.Allowed op ∧ s.HasRoom op) sampleRun ∧
      (Session.new.steps sampleRun).arena.Sound ∧
      (Session.new.steps sampleRun).arena.counters = (8, 2, 18) := by
  have hrun : Session.new.Along (fun s op => s.Allowed op ∧ s.HasRoom op)
      sampleRun := by
    decide +kernel
  exact ⟨hrun, (arena_sound_along_runs hrun).1, by decide +kernel⟩

section Overflow

/-- An atom too long to be small is stored. -/
theorem Arena.newAtom_long {v : Bytes} (hlong : 4 < v.length)
    (hheap : a.u8Vec.length + a.ghostHeap + v.length ≤ heapLimit)
    (hatoms : a.atomVec.length + a.ghostAtoms ≠ maxNumAtoms)
    (hintern : a.atomIntern = []) :
    a.newAtom v = (.ok (a.storeAtom v).1, (a.storeAtom v).2) := by
  have hfits : fitsInSmallAtom v = none := by
    cases v with
    | nil => simp at hlong
    | cons first tail => exact if_pos (.inl hlong)
  have hinterned : a.interned v = none := by
    unfold interned
    rw [hintern]
    split_ifs <;> rfl
  unfold newAtom checkHeapLimit checkAtomLimit
  rw [if_neg (not_lt.mpr hheap), if_neg hatoms, bind_ok, bind_ok, hfits]
  dsimp only
  rw [hinterned, attempt_ok]

/-- The last three bytes of the small atom `0x0380ffff` are not small. -/
theorem Arena.newSubstr_tail
    (hatoms : a.atomVec.length + a.ghostAtoms ≠ maxNumAtoms) :
    a.newSubstr ⟨.smallAtom, 0x0380ffff⟩ 1 4 =
      (.ok (a.pushBytes [0x80, 0xff, 0xff]).1,
        (a.pushBytes [0x80, 0xff, 0xff]).2) := by
  have hbounds : boundsCheck (1 : UInt32).toNat (4 : UInt32).toNat
      (lenForValue 0x0380ffff) = .ok () := by
    decide +kernel
  have hslice : sliceRange (smallAtomBytes 0x0380ffff) (1 : UInt32).toNat
      (4 : UInt32).toNat = .ok [0x80, 0xff, 0xff] := by
    decide +kernel
  have hfits : fitsInSmallAtom [0x80, 0xff, 0xff] = none := by decide +kernel
  unfold newSubstr checkAtomLimit
  rw [if_neg hatoms, bind_ok]
  dsimp only
  unfold substrOfSmall
  rw [hbounds, hslice, bind_ok, bind_ok, hfits, attempt_ok]

theorem Session.step_of_ok (s : Session) (op : ArenaOp)
    (hout : op.outcome s.arena = some (.ok node, a)) :
    (s.step op).arena = a ∧ (s.step op).live = node :: s.live := by
  unfold step
  rw [hout]
  exact ⟨rfl, rfl⟩

theorem Arena.storeAtom_pools (a : Arena) (v : Bytes) :
    (a.storeAtom v).2.toPools = (a.pushBytes v).2.toPools ∧
      (a.storeAtom v).2.ghostAtoms = a.ghostAtoms := by
  unfold storeAtom
  dsimp only
  split_ifs <;> exact ⟨rfl, rfl⟩

abbrev cutTail : ArenaOp :=
  .newSubstr ⟨.smallAtom, 0x0380ffff⟩ 1 4

/-- A session whose heap has a length and whose atoms have a number, with the
small atom `0x0380ffff` live. -/
structure Session.Filled (s : Session) (heap atoms : Nat) : Prop where
  heap : s.arena.u8Vec.length = heap
  atoms : s.arena.atomVec.length + s.arena.ghostAtoms = atoms
  live : ⟨.smallAtom, 0x0380ffff⟩ ∈ s.live

theorem Session.Filled.substr {s : Session} {heap atoms : Nat}
    (hfilled : s.Filled heap atoms) (hatoms : atoms < maxNumAtoms) :
    (s.step cutTail).Filled (heap + 3) (atoms + 1) ∧
      (s.step cutTail).arena = (s.arena.pushBytes [0x80, 0xff, 0xff]).2 ∧
      (s.arena.pushBytes [0x80, 0xff, 0xff]).1 ∈ (s.step cutTail).live := by
  have hcut := newSubstr_tail (a := s.arena)
    (by rw [hfilled.atoms]; exact hatoms.ne)
  obtain ⟨harena, hlive⟩ := s.step_of_ok cutTail (congrArg some hcut)
  refine ⟨⟨?_, ?_, ?_⟩, harena, ?_⟩
  · rw [harena, ← hfilled.heap]
    exact length_append
  · rw [harena, ← hfilled.atoms]
    simp only [pushBytes, length_append, length_singleton]
    omega
  · rw [hlive]
    exact mem_cons_of_mem _ hfilled.live
  · rw [hlive]
    exact mem_cons_self ..

/-- A small atom, an atom that nearly fills the heap, and two substrings of the
small one. -/
def overflowRun (v : Bytes) : List ArenaOp :=
  [.newAtom [0x03, 0x80, 0xff, 0xff], .newAtom v, cutTail, cutTail]

theorem Session.filled_newAtom {v : Bytes} (hv : v.length = 2 ^ 32 - 6) :
    ((new.step (.newAtom [0x03, 0x80, 0xff, 0xff])).step
      (.newAtom v)).Filled (2 ^ 32 - 6) 4 := by
  have hsmall : Arena.new.newAtom [0x03, 0x80, 0xff, 0xff] =
      (.ok ⟨.smallAtom, 0x0380ffff⟩, ⟨⟨[], [], []⟩, [], 3, 0, 5⟩) := by
    decide +kernel
  obtain ⟨harena, hlive⟩ := new.step_of_ok
    (.newAtom [0x03, 0x80, 0xff, 0xff]) (congrArg some hsmall)
  generalize new.step (.newAtom [0x03, 0x80, 0xff, 0xff]) = s at *
  have hstored : s.arena.newAtom v = _ := Arena.newAtom_long (by omega)
    (by rw [harena, heapLimit, hv]; simp) (by rw [harena]; decide)
    (by rw [harena])
  obtain ⟨harena', hlive'⟩ := s.step_of_ok (.newAtom v) (congrArg some hstored)
  obtain ⟨hpools, hghost⟩ := s.arena.storeAtom_pools v
  refine ⟨?_, ?_, ?_⟩
  · rw [harena', hpools, harena]
    simpa [pushBytes] using hv
  · rw [harena', hghost, hpools, harena]
    rfl
  · rw [hlive', hlive]
    simp

/-- The second substring ends past the last `u32`: its span wraps around, the
heap is longer than its limit, and reading the handle panics. -/
theorem arena_overflows_at_substr :
    ∃ ops, Session.new.Along Session.Allowed ops ∧
      heapLimit < (Session.new.steps ops).arena.u8Vec.length ∧
      (∃ span ∈ (Session.new.steps ops).arena.atomVec, span.stop < span.start) ∧
      ∃ node ∈ (Session.new.steps ops).live, ∃ text,
        (Session.new.steps ops).arena.atom node = .error (.panic text) := by
  obtain ⟨v, hv⟩ : ∃ v : Bytes, v.length = 2 ^ 32 - 6 :=
    ⟨List.replicate (2 ^ 32 - 6) 0, length_replicate⟩
  have hfilled := Session.filled_newAtom hv
  refine ⟨overflowRun v, ?_⟩
  simp only [overflowRun, Session.steps, foldl_cons, foldl_nil,
    Session.Along, Session.Allowed, true_and, and_true]
  generalize (Session.new.step (.newAtom [0x03, 0x80, 0xff, 0xff])).step
    (.newAtom v) = s at *
  obtain ⟨hfirst, -, -⟩ := hfilled.substr (by decide)
  generalize s.step cutTail = s' at *
  obtain ⟨hsecond, harena, hlive⟩ := hfirst.substr (by decide)
  have hspan : (⟨s'.arena.u8Vec.length % 2 ^ 32,
      (s'.arena.u8Vec.length + 3) % 2 ^ 32⟩ : AtomSpan) ∈
        (s'.arena.pushBytes [0x80, 0xff, 0xff]).2.atomVec :=
    mem_append_right _ (mem_singleton_self _)
  have hwraps : (s'.arena.u8Vec.length + 3) % 2 ^ 32 <
      s'.arena.u8Vec.length % 2 ^ 32 := by
    rw [hfirst.heap]
    norm_num
  refine ⟨⟨hfilled.live, hfirst.live⟩, ?_, ⟨_, harena ▸ hspan, hwraps⟩, _,
    hlive, "range out of bounds", ?_⟩
  · rw [hsecond.heap, heapLimit]
    norm_num
  · have hthree : ([0x80, 0xff, 0xff] : Bytes).length = 3 := rfl
    rw [harena, pushBytes, atom, hthree]
    dsimp only
    rw [indexVec_of_some getElem?_concat_length, bind_ok, sliceRange, if_neg]
    · rfl
    · rintro ⟨hle, -⟩
      exact absurd hle (not_le.mpr hwraps)

end Overflow

end DgXch
