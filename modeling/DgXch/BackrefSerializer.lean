/-
The parser and the serializer of programs with back-references.  A path walks
down from the value stack, seen as the CLVM list of its values with the top
first, and `BackrefReads stack w t` is the grammar: the bytes `w` stand for `t`
on that stack.  The serializer replaces a subtree by the shortest path to its
hash in the stack, when that is shorter.

The source memoises tree hashes and lengths by node address; here they are the
functions they memoise.  Overflowing counters wrap, as in a release build.
-/
import DgXch.ClvmRoundTrip

namespace DgXch

open List Nat Prod

variable {values : List StackEntry} {shift : Nat} {path : Bytes}
  {position : BackrefPosition}

/-- Follow directions down a tree; `true` takes the rest of a pair. -/
def SExp.walk : SExp → List Bool → Option SExp
  | t, [] => some t
  | .atom _, _ :: _ => none
  | .pair first rest, direction :: path =>
    if direction then rest.walk path else first.walk path

/-- The value stack as a CLVM list, top first. -/
def stackList : List SExp → SExp
  | [] => .nil
  | value :: below => .pair value (stackList below)

/-- The mask `1 << shift` of a bit in a byte. -/
def bitMask (shift : Nat) : UInt8 := 1 <<< UInt8.ofNat shift

/-- The loop of `encode_backref_path` over the reversed path; the source keeps
`shift` as the mask `1 << shift`. -/
def encodeBackrefLoop : List Bool → Bytes → Nat → Nat → Bytes × Nat × Nat
  | [], v, index, shift => (v, index, shift)
  | p :: path, v, index, shift =>
    let v := if p then v.modify index (· ||| bitMask shift) else v
    if shift = 7 then encodeBackrefLoop path v (index - 1) 0
    else encodeBackrefLoop path v index (shift + 1)

def encodeBackrefPath (path : List Bool) : Bytes :=
  let byteCount := (path.length + 1 + 7) >>> 3
  let (v, index, shift) :=
    encodeBackrefLoop path.reverse (List.replicate byteCount 0) (byteCount - 1) 0
  v.modify index (· ||| bitMask shift)

/-- An entry of the parser's value stack: the value and, once built, the list
of the stack from here down. -/
abbrev StackEntry := SExp × Option SExp

/-- Where `traverse_backref_path` stands: in the value stack, at the entry `top`
with `below` under it, or (`parsing_sexp`) inside a tree. -/
inductive BackrefPosition where
  | stack (top : StackEntry) (below : List StackEntry)
  | tree (current : SExp)
deriving Repr, DecidableEq

/-- One direction of `traverse_backref_path`. -/
def traverseBackrefStep (takeRest : Bool) :
    BackrefPosition → ClvmResult BackrefPosition
  | .tree (.pair first rest) => .ok (.tree (if takeRest then rest else first))
  | .tree (.atom _) =>
    .error (.serializationError "Backreference path entered an atom")
  | .stack top below =>
    if takeRest then
      match below with
      | [] => .ok (.tree .nil)
      | next :: below => .ok (.stack next below)
    else .ok (.tree top.1)

def leadingZeros (b : UInt8) : Nat := 8 - b.toNat.size

/-- The loop of `traverse_backref_path`: from bit `shift` of the byte at
`byteIndex` up to the sentinel bit, `zeros` below the top of the first byte. -/
def traverseBackrefLoop (path : Bytes) (firstNonZero zeros : Nat)
    (byteIndex shift : Nat) (position : BackrefPosition) :
    ClvmResult BackrefPosition :=
  if byteIndex > firstNonZero ∨ shift < 7 - zeros then
    match traverseBackrefStep (path.getD byteIndex 0 &&& bitMask shift ≠ 0)
      position with
    | .error e => .error e
    | .ok position =>
      if shift < 7 then
        traverseBackrefLoop path firstNonZero zeros byteIndex (shift + 1)
          position
      else
        traverseBackrefLoop path firstNonZero zeros (byteIndex - 1) 0 position
  else .ok position
termination_by 8 * byteIndex + (7 - shift)

/-- The list of the stack entries from the given one down, memoised in every
entry it was built for. -/
def buildStackList : List StackEntry → SExp × List StackEntry
  | [] => (.nil, [])
  | (value, cache) :: below =>
    let (list, below) := buildStackList below
    match cache with
    | some cached => (cached, (value, some cached) :: below)
    | none => (.pair value list, (value, some (.pair value list)) :: below)

/-- Traversal starts at the top of the stack, or at nil under an empty one. -/
def startPosition : List StackEntry → BackrefPosition
  | [] => .tree .nil
  | top :: below => .stack top below

/-- `traverse_backref_path` on the value stack, top first. -/
def traverseBackrefPath (values : List StackEntry) (path : Bytes) :
    ClvmResult (SExp × List StackEntry) :=
  let firstNonZero := path.findIdx (· ≠ 0)
  if firstNonZero ≥ path.length then .ok (.nil, values)
  else do
    let zeros := leadingZeros (path.getD firstNonZero 0)
    let position ←
      traverseBackrefLoop path firstNonZero zeros (path.length - 1) 0
        (startPosition values)
    match position with
    | .tree current => .ok (current, values)
    | .stack top below =>
      let (list, entries) := buildStackList (top :: below)
      .ok (list, values.take (values.length - entries.length) ++ entries)

def BackrefPosition.sexp : BackrefPosition → SExp
  | .stack top below => stackList ((top :: below).map Prod.fst)
  | .tree current => current

/-- Memoised lists are the lists of the entries below them. -/
def CacheValid : List StackEntry → Prop
  | [] => True
  | (value, cache) :: below =>
    (∀ list, cache = some list →
      list = stackList (value :: below.map Prod.fst)) ∧ CacheValid below

/-- Bit `i` of a path, counted from the low end of its last byte. -/
def pathBit (v : Bytes) (i : Nat) : Bool :=
  v.getD (v.length - 1 - i / 8) 0 &&& bitMask (i % 8) ≠ 0

theorem toNat_bitMask (hshift : shift < 8) :
    (bitMask shift).toNat = 2 ^ shift := by
  have hall : ∀ shift : Fin 8, (bitMask shift.val).toNat = 2 ^ shift.val := by
    decide
  exact hall ⟨shift, hshift⟩

theorem and_bitMask_ne_zero_iff (b : UInt8) (hshift : shift < 8) :
    b &&& bitMask shift ≠ 0 ↔ b.toNat.testBit shift = true := by
  rw [Ne, ← UInt8.toNat_inj, UInt8.toNat_and, toNat_bitMask hshift, and_two_pow]
  cases b.toNat.testBit shift <;> simp

theorem or_bitMask_and (b : UInt8) {set get : Nat} (hset : set < 8)
    (hget : get < 8) :
    ((b ||| bitMask set) &&& bitMask get ≠ 0) ↔
      get = set ∨ b &&& bitMask get ≠ 0 := by
  rw [and_bitMask_ne_zero_iff _ hget, and_bitMask_ne_zero_iff _ hget,
    UInt8.toNat_or, toNat_bitMask hset, testBit_or, testBit_two_pow,
    Bool.or_eq_true, decide_eq_true_iff]
  tauto

/-- A byte whose top set bit is `top`. -/
theorem size_of_top_bit (b : UInt8) {top : Nat} (htop : top < 8)
    (hset : b &&& bitMask top ≠ 0)
    (habove : ∀ i < 8, top < i → b &&& bitMask i = 0) :
    b.toNat.size = top + 1 := by
  have hall : ∀ (n : Fin 256) (top : Fin 8),
      UInt8.ofNat n.val &&& bitMask top.val ≠ 0 →
      (∀ i : Fin 8, top < i → UInt8.ofNat n.val &&& bitMask i.val = 0) →
      n.val.size = top.val + 1 := by
    decide +kernel
  have hbyte := hall ⟨b.toNat, b.toNat_lt⟩ ⟨top, htop⟩
  rw [UInt8.ofNat_toNat] at hbyte
  exact hbyte hset fun i hi => habove i.val i.isLt hi

/-- Setting bit `k` changes no other bit. -/
theorem pathBit_modify {v : Bytes} {i k : Nat} (hi : i < 8 * v.length)
    (hk : k < 8 * v.length) :
    pathBit (v.modify (v.length - 1 - k / 8) (· ||| bitMask (k % 8))) i =
      (decide (i = k) || pathBit v i) := by
  have hindex : v.length - 1 - i / 8 < v.length := by omega
  rw [pathBit, length_modify, pathBit, getD_eq_getElem?_getD,
    getD_eq_getElem?_getD, getElem?_modify, getElem?_eq_getElem hindex]
  by_cases hbyte : i / 8 = k / 8
  · have hor := or_bitMask_and (v[v.length - 1 - i / 8])
      (mod_lt k (by decide)) (mod_lt i (by decide))
    have hsame : i = k ↔ i % 8 = k % 8 := by omega
    rw [Bool.eq_iff_iff]
    simpa [hbyte, hsame] using hor
  · have hne : ¬ v.length - 1 - k / 8 = v.length - 1 - i / 8 := by omega
    have hneq : ¬ i = k := fun h => hbyte (by rw [h])
    simp [hne, hneq]

/-- The encoding loop, started at bit `k`, writes its bits there and leaves
every other bit alone. -/
theorem encodeBackrefLoop_spec (bits : List Bool) (v : Bytes) (k : Nat)
    (hroom : k + bits.length < 8 * v.length) :
    ∃ out, encodeBackrefLoop bits v (v.length - 1 - k / 8) (k % 8) =
        (out, v.length - 1 - (k + bits.length) / 8, (k + bits.length) % 8) ∧
      out.length = v.length ∧
      ∀ i < 8 * v.length, pathBit out i =
        ((decide (k ≤ i) && bits.getD (i - k) false) || pathBit v i) := by
  induction bits generalizing v k with
  | nil => exact ⟨v, by simp [encodeBackrefLoop], rfl, by simp⟩
  | cons p bits ih =>
    rw [length_cons] at hroom
    let next := if p then
      v.modify (v.length - 1 - k / 8) (· ||| bitMask (k % 8)) else v
    have hlength : next.length = v.length := by
      dsimp only [next]
      split_ifs <;> simp
    have hbit (i : Nat) (hi : i < 8 * v.length) :
        pathBit next i = ((p && decide (i = k)) || pathBit v i) := by
      dsimp only [next]
      split_ifs with hp
      · rw [pathBit_modify hi (by omega)]
        simp [hp]
      · simp [hp]
    have hstep : encodeBackrefLoop (p :: bits) v (v.length - 1 - k / 8) (k % 8) =
        encodeBackrefLoop bits next (next.length - 1 - (k + 1) / 8)
          ((k + 1) % 8) := by
      rw [hlength]
      change (if k % 8 = 7 then
          encodeBackrefLoop bits next (v.length - 1 - k / 8 - 1) 0
        else encodeBackrefLoop bits next (v.length - 1 - k / 8) (k % 8 + 1)) = _
      by_cases hlast : k % 8 = 7
      · have hdiv : v.length - 1 - k / 8 - 1 = v.length - 1 - (k + 1) / 8 := by
          omega
        have hmod : (k + 1) % 8 = 0 := by omega
        rw [if_pos hlast, hdiv, hmod]
      · have hdiv : k / 8 = (k + 1) / 8 := by omega
        have hmod : k % 8 + 1 = (k + 1) % 8 := by omega
        rw [if_neg hlast, ← hdiv, hmod]
    obtain ⟨out, hloop, hout, hbits⟩ := ih next (k + 1) (by omega)
    refine ⟨out, ?_, hout.trans hlength, fun i hi => ?_⟩
    · rw [hstep, hloop, hlength, length_cons, add_right_comm, add_assoc k]
    · rw [hbits i (by omega), hbit i hi]
      by_cases hik : i = k
      · subst hik
        simp
      · by_cases hlt : k < i
        · obtain ⟨d, rfl⟩ : ∃ d, i = k + 1 + d := ⟨i - (k + 1), by omega⟩
          have hd : k + 1 + d - k = d + 1 := by omega
          simp [hd, hik, show k ≤ k + 1 + d by omega]
        · simp [hik, show ¬ k + 1 ≤ i by omega, show ¬ k ≤ i by omega]

theorem pathBit_replicate (count i : Nat) :
    pathBit (replicate count 0) i = false := by
  have hzero : (replicate count (0 : UInt8)).getD
      ((replicate count (0 : UInt8)).length - 1 - i / 8) 0 = 0 := by
    rw [getD_eq_getElem?_getD, getElem?_replicate]
    split_ifs <;> rfl
  rw [pathBit, hzero]
  simp

/-- An encoded path spells the reversed directions from the low end, with the
sentinel as the top bit of its first byte. -/
theorem encodeBackrefPath_spec {path : List Bool} :
    (encodeBackrefPath path).length = path.length / 8 + 1 ∧
      (∀ i < path.length,
        pathBit (encodeBackrefPath path) i = path.reverse.getD i false) ∧
      ((encodeBackrefPath path).getD 0 0).toNat.size = path.length % 8 + 1 := by
  have hcount : (path.length + 1 + 7) >>> 3 = path.length / 8 + 1 := by
    rw [Nat.shiftRight_eq_div_pow]
    omega
  obtain ⟨out, hloop, hlength, hbits⟩ := encodeBackrefLoop_spec path.reverse
    (replicate (path.length / 8 + 1) 0) 0 (by
      simp only [length_reverse, length_replicate]
      omega)
  simp only [length_replicate, length_reverse, Nat.zero_add,
    Nat.zero_div, Nat.sub_zero, Nat.zero_mod, pathBit_replicate, Nat.zero_le,
    decide_true, Bool.true_and, Bool.or_false] at hloop hlength hbits
  have hencode : encodeBackrefPath path =
      out.modify (out.length - 1 - path.length / 8)
        (· ||| bitMask (path.length % 8)) := by
    rw [encodeBackrefPath, hcount, hloop, hlength]
  have hbit (i : Nat) (hi : i < 8 * (path.length / 8 + 1)) :
      pathBit (encodeBackrefPath path) i =
        (decide (i = path.length) || path.reverse.getD i false) := by
    rw [hencode, pathBit_modify (by omega) (by omega), hbits i hi]
  have hout : (encodeBackrefPath path).length = path.length / 8 + 1 := by
    rw [hencode, length_modify, hlength]
  -- the bits of the first byte
  have hfirst (j : Nat) (hj : j < 8) :
      (encodeBackrefPath path).getD 0 0 &&& bitMask j ≠ 0 ↔
        pathBit (encodeBackrefPath path) (8 * (path.length / 8) + j) = true := by
    rw [pathBit, hout, decide_eq_true_iff,
      show (8 * (path.length / 8) + j) % 8 = j by omega,
      show path.length / 8 + 1 - 1 - (8 * (path.length / 8) + j) / 8 = 0 by omega]
  refine ⟨hout, fun i hi => ?_, ?_⟩
  · rw [hbit i (by omega)]
    simp [show ¬ i = path.length by omega]
  · apply size_of_top_bit _ (mod_lt _ (by decide))
    · rw [hfirst _ (mod_lt _ (by decide)), hbit _ (by omega)]
      simp [Nat.div_add_mod]
    · intro i hi hlt
      by_contra hset
      have htrue := (hfirst i hi).mp hset
      rw [hbit _ (by omega)] at htrue
      have hne : ¬ 8 * (path.length / 8) + i = path.length := by omega
      have hout : path.reverse.length ≤ 8 * (path.length / 8) + i := by
        rw [length_reverse]
        omega
      simp [hne, getD_eq_getElem?_getD, getElem?_eq_none hout] at htrue

open BigEndian

/-- The directions a path spells: its bits from the low end, up to the
sentinel. -/
def pathDirections (path : Bytes) : List Bool :=
  (List.range ((beNat path).size - 1)).map (beNat path).testBit

/-- The meaning of a path in a tree; a path without a sentinel is nil. -/
def SExp.follow (tree : SExp) (path : Bytes) : Option SExp :=
  if beNat path = 0 then some .nil else tree.walk (pathDirections path)

/-- The error of a walk that enters an atom. -/
def enteredAtom : ClvmError :=
  .serializationError "Backreference path entered an atom"

theorem pathBit_eq_testBit {i : Nat}
    (hi : i < 8 * path.length) : pathBit path i = (beNat path).testBit i := by
  induction path using reverseRecOn generalizing i with
  | nil => simp at hi
  | append_singleton front last ih =>
    have hbyte : last.toNat < 2 ^ 8 := last.toNat_lt
    have hvalue : beNat (front ++ [last]) =
        2 ^ 8 * beNat front + last.toNat := by
      rw [beNat_append, beNat_cons]
      simp [mul_comm]
    rw [hvalue, testBit_two_pow_mul_add _ hbyte]
    rw [length_append, length_singleton] at hi
    split_ifs with hlow
    · have hshift : i % 8 = i := mod_eq_of_lt hlow
      have hindex : i / 8 = 0 := div_eq_of_lt hlow
      simp only [pathBit, hshift, hindex, and_bitMask_ne_zero_iff _ hlow]
      simp
    · rw [← ih (by omega), pathBit, pathBit, length_append, length_singleton,
        getD_append _ _ _ _ (by omega), show (i - 8) % 8 = i % 8 by omega,
        show front.length + 1 - 1 - i / 8 = front.length - 1 - (i - 8) / 8 by omega]

/-- The top bit of a path is that of its first byte that is not zero. -/
theorem size_beNat (hfound : path.findIdx (· ≠ 0) < path.length) :
    (beNat path).size = 8 * (path.length - 1 - path.findIdx (· ≠ 0)) +
      (path.getD (path.findIdx (· ≠ 0)) 0).toNat.size := by
  induction path with
  | nil => simp at hfound
  | cons first tail ih =>
    rw [findIdx_cons] at hfound ⊢
    by_cases hzero : first = 0
    · subst hzero
      simp only [ne_self_iff_false, decide_false, cond_false,
        length_cons, Nat.add_lt_add_iff_right] at hfound ⊢
      rw [beNat_cons, UInt8.toNat_zero, Nat.zero_mul, Nat.zero_add,
        ih hfound, getD_cons_succ]
      congr 2
      omega
    · have hpos : 0 < first.toNat :=
        Nat.pos_of_ne_zero fun h => hzero (UInt8.toNat_inj.mp h)
      have htail := beNat_lt tail
      rw [show (256 : Nat) = 2 ^ 8 by rfl, ← pow_mul] at htail
      have hvalue : beNat (first :: tail) =
          2 ^ (8 * tail.length) * first.toNat + beNat tail := by
        rw [beNat_cons, show (256 : Nat) = 2 ^ 8 by rfl, ← pow_mul, mul_comm]
      rw [decide_eq_true hzero, cond_true, length_cons,
        getD_cons_zero, Nat.add_sub_cancel, Nat.sub_zero]
      apply Nat.le_antisymm
      · rw [Nat.size_le, hvalue, pow_add]
        have hsize := Nat.lt_size_self first.toNat
        calc 2 ^ (8 * tail.length) * first.toNat + beNat tail
            < 2 ^ (8 * tail.length) * (first.toNat + 1) := by
              rw [Nat.mul_add]
              omega
          _ ≤ 2 ^ (8 * tail.length) * 2 ^ first.toNat.size :=
              Nat.mul_le_mul_left _ hsize
      · have hsize : 0 < first.toNat.size := Nat.size_pos.mpr hpos
        have htop : 2 ^ (first.toNat.size - 1) ≤ first.toNat :=
          Nat.lt_size.mp (by omega)
        have hlt : 8 * tail.length + (first.toNat.size - 1) <
            (beNat (first :: tail)).size := by
          rw [Nat.lt_size, hvalue, pow_add]
          exact (Nat.mul_le_mul_left _ htop).trans (Nat.le_add_right _ _)
        omega

/-- A position that is still on the stack is at one of its entries. -/
def BackrefPosition.Within (values : List StackEntry) : BackrefPosition → Prop
  | .stack top below => top :: below <:+ values
  | .tree _ => True

/-- What following directions from a tree may end in: the position of the tree
they lead to, or the error. -/
def Follows (values : List StackEntry) (walked : Option SExp)
    (out : ClvmResult BackrefPosition) : Prop :=
  match walked with
  | some t => ∃ last, out = .ok last ∧ last.Within values ∧ last.sexp = t
  | none => out = .error enteredAtom

/-- One direction leads into the tree of the position, or enters an atom. -/
theorem traverseBackrefStep_spec (direction : Bool)
    (hwithin : position.Within values) :
    (∃ next, traverseBackrefStep direction position = .ok next ∧
      next.Within values ∧ ∀ path, position.sexp.walk (direction :: path) =
        next.sexp.walk path) ∨
    (traverseBackrefStep direction position = .error enteredAtom ∧
      ∀ path, position.sexp.walk (direction :: path) = none) := by
  cases position with
  | tree current =>
    cases current with
    | atom data => exact .inr ⟨rfl, fun _ => rfl⟩
    | pair first rest =>
      refine .inl ⟨_, rfl, trivial, fun path => ?_⟩
      cases direction <;> rfl
  | stack top below =>
    apply Or.inl
    cases direction with
    | false => exact ⟨.tree top.1, rfl, trivial, fun _ => rfl⟩
    | true =>
      cases below with
      | nil => exact ⟨.tree .nil, rfl, trivial, fun _ => rfl⟩
      | cons next below =>
        exact ⟨.stack next below, rfl,
          (suffix_cons top _).trans hwithin, fun _ => rfl⟩

/-- The traversal loop follows the bits of a path from the given one on. -/
theorem traverseBackrefLoop_follows {bits : List Bool} {first zeros i : Nat}
    (hfirst : first < path.length) (hzeros : zeros ≤ 7)
    (hlength : bits.length = 8 * (path.length - 1 - first) + (7 - zeros))
    (hbits : ∀ i < bits.length, pathBit path i = bits.getD i false)
    (hi : i ≤ bits.length) (hwithin : position.Within values) :
    Follows values (position.sexp.walk (bits.drop i))
      (traverseBackrefLoop path first zeros (path.length - 1 - i / 8) (i % 8)
        position) := by
  induction hn : bits.length - i generalizing i position with
  | zero =>
    have hend : i = bits.length := by omega
    rw [hend, drop_length, SExp.walk]
    refine ⟨position, ?_, hwithin, rfl⟩
    rw [traverseBackrefLoop, if_neg (by omega)]
  | succ n ih =>
    have hlt : i < bits.length := by omega
    have hbit : decide (path.getD (path.length - 1 - i / 8) 0 &&&
        bitMask (i % 8) ≠ 0) = bits[i] := by
      have hget := hbits i hlt
      rwa [getD_eq_getElem?_getD, getElem?_eq_getElem hlt] at hget
    rw [drop_eq_getElem_cons hlt, traverseBackrefLoop, if_pos (by omega), hbit]
    rcases traverseBackrefStep_spec bits[i] hwithin with
      ⟨next, hstep, hnext, hwalk⟩ | ⟨hstep, hwalk⟩
    · have hloop := ih (show i + 1 ≤ bits.length by omega) hnext (by omega)
      rw [hwalk, hstep]
      dsimp only
      split_ifs with hshift
      · rwa [show i / 8 = (i + 1) / 8 by omega,
          show i % 8 + 1 = (i + 1) % 8 by omega]
      · rw [show path.length - 1 - i / 8 - 1 = path.length - 1 - (i + 1) / 8 by omega]
        rwa [show (i + 1) % 8 = 0 by omega] at hloop
    · rw [hwalk, hstep]
      rfl

/-- With valid memos the list is that of the values, and memos stay valid. -/
theorem buildStackList_spec (hcache : CacheValid values) :
    (buildStackList values).1 = stackList (values.map fst) ∧
      (buildStackList values).2.map fst = values.map fst ∧
      CacheValid (buildStackList values).2 := by
  induction values with
  | nil => exact ⟨rfl, rfl, trivial⟩
  | cons entry below ih =>
    obtain ⟨value, cache⟩ := entry
    obtain ⟨hlist, hvalues, hbelow⟩ := ih hcache.2
    cases cache with
    | some cached =>
      have hcached := hcache.1 cached rfl
      refine ⟨hcached, by simp [buildStackList, hvalues], ?_, hbelow⟩
      intro list heq
      cases heq
      rw [hvalues]
      exact hcached
    | none =>
      refine ⟨by simp [buildStackList, hlist, stackList],
        by simp [buildStackList, hvalues], ?_, hbelow⟩
      intro list heq
      cases heq
      rw [hvalues, hlist]
      rfl

theorem CacheValid.of_suffix {entries : List StackEntry}
    (hcache : CacheValid values) (hsuffix : entries <:+ values) :
    CacheValid entries := by
  obtain ⟨front, rfl⟩ := hsuffix
  induction front with
  | nil => exact hcache
  | cons head front ih => exact ih hcache.2

/-- Memos above a rebuilt part of the stack stay valid. -/
theorem CacheValid.replace {front entries entries' : List StackEntry}
    (hcache : CacheValid (front ++ entries))
    (hvalues : entries'.map fst = entries.map fst)
    (hentries : CacheValid entries') : CacheValid (front ++ entries') := by
  induction front with
  | nil => exact hentries
  | cons head front ih =>
    refine ⟨?_, ih hcache.2⟩
    have hmap : (front ++ entries').map fst = (front ++ entries).map fst := by
      simp [hvalues]
    simpa only [append_eq, hmap] using hcache.1

/-- A path has a sentinel exactly when it is not all zeros. -/
theorem beNat_eq_zero_iff :
    beNat path = 0 ↔ path.findIdx (· ≠ 0) ≥ path.length := by
  rw [ge_iff_le, findIdx_le_length.ge_iff_eq, findIdx_eq_length]
  induction path with
  | nil => simp
  | cons first tail ih =>
    rw [beNat_cons, Nat.add_eq_zero_iff, ih, forall_mem_cons]
    simp [← UInt8.toNat_inj]

/-- A position of the traversal is turned into its tree; only memos of the
stack change. -/
theorem traverseBackrefPath_finish {last : BackrefPosition}
    (hcache : CacheValid values) (hlast : last.Within values) :
    ∃ values', (match last with
        | .tree current => Except.ok (current, values)
        | .stack top below =>
          let (list, entries) := buildStackList (top :: below)
          .ok (list, values.take (values.length - entries.length) ++
            entries) : ClvmResult (SExp × List StackEntry)) =
        .ok (last.sexp, values') ∧
      values'.map fst = values.map fst ∧ CacheValid values' := by
  cases last with
  | tree current => exact ⟨values, rfl, rfl, hcache⟩
  | stack top below =>
    obtain ⟨front, rfl⟩ := hlast
    obtain ⟨hlist, hvalues, hentries⟩ := buildStackList_spec
      (hcache.of_suffix (suffix_append front (top :: below)))
    have hkeep : (front ++ top :: below).take ((front ++ top :: below).length -
          (buildStackList (top :: below)).2.length) = front := by
      have hsame := congrArg length hvalues
      simp only [length_map] at hsame
      rw [hsame, length_append, Nat.add_sub_cancel, take_left]
    refine ⟨front ++ (buildStackList (top :: below)).2, ?_, ?_, ?_⟩
    · rw [BackrefPosition.sexp, ← hlist]
      simp only [hkeep]
    · rw [map_append, hvalues, map_append]
    · exact hcache.replace hvalues hentries

/-- The traversal of a path is its meaning in the list of the stack, and only
memos of the stack change. -/
theorem traverseBackrefPath_spec (path : Bytes) (hcache : CacheValid values) :
    match (stackList (values.map fst)).follow path with
    | some t => ∃ values', traverseBackrefPath values path = .ok (t, values') ∧
        values'.map fst = values.map fst ∧ CacheValid values'
    | none => traverseBackrefPath values path = .error enteredAtom := by
  rw [traverseBackrefPath, SExp.follow]
  by_cases hzero : beNat path = 0
  · rw [if_pos hzero, if_pos (beNat_eq_zero_iff.mp hzero)]
    exact ⟨values, rfl, rfl, hcache⟩
  have hfound := not_le.mp (mt beNat_eq_zero_iff.mpr hzero)
  have hsize := size_beNat hfound
  have hhead : (path.getD (path.findIdx (· ≠ 0)) 0).toNat.size ≤ 8 :=
    Nat.size_le.mpr (UInt8.toNat_lt _)
  have htop : 0 < (path.getD (path.findIdx (· ≠ 0)) 0).toNat.size := by
    apply Nat.size_pos.mpr
    apply Nat.pos_of_ne_zero
    have hset := findIdx_getElem (w := hfound)
    rw [getD_eq_getElem _ _ hfound]
    simpa [← UInt8.toNat_inj] using hset
  have hlength : (pathDirections path).length =
      8 * (path.length - 1 - path.findIdx (· ≠ 0)) +
        (7 - leadingZeros (path.getD (path.findIdx (· ≠ 0)) 0)) := by
    rw [pathDirections, length_map, length_range, hsize, leadingZeros]
    omega
  have hbits (i : Nat) (hi : i < (pathDirections path).length) :
      pathBit path i = (pathDirections path).getD i false := by
    have hroom : i < 8 * path.length := by
      rw [hlength] at hi
      omega
    rw [pathBit_eq_testBit hroom, getD_eq_getElem _ _ hi]
    simp [pathDirections]
  have hwithin : (startPosition values).Within values := by
    cases values <;> simp [startPosition, BackrefPosition.Within]
  have hstart : (startPosition values).sexp = stackList (values.map fst) := by
    cases values <;> rfl
  have hloop := traverseBackrefLoop_follows hfound
    (by rw [leadingZeros]; omega) hlength hbits (Nat.zero_le _) hwithin
  rw [drop_zero, hstart] at hloop
  rw [if_neg hzero, if_neg (not_le.mpr hfound)]
  cases hwalk : (stackList (values.map fst)).walk (pathDirections path) with
  | none =>
    rw [hwalk] at hloop
    change _ = Except.error enteredAtom at hloop
    rw [Nat.zero_div, Nat.zero_mod, Nat.sub_zero] at hloop
    simp only [hloop, Except.bind_error]
  | some t =>
    rw [hwalk, Nat.zero_div, Nat.zero_mod, Nat.sub_zero] at hloop
    obtain ⟨last, hloop, hlast, rfl⟩ := hloop
    simp only [hloop, Except.bind_ok]
    exact traverseBackrefPath_finish hcache hlast

theorem pathDirections_encode (path : List Bool) :
    beNat (encodeBackrefPath path) ≠ 0 ∧
      pathDirections (encodeBackrefPath path) = path.reverse := by
  obtain ⟨hlength, hbits, hfirst⟩ := encodeBackrefPath_spec
  generalize encodeBackrefPath path = bytes at hlength hbits hfirst ⊢
  obtain ⟨first, tail, rfl⟩ : ∃ first tail, bytes = first :: tail :=
    exists_cons_of_length_pos (by omega)
  rw [getD_cons_zero] at hfirst
  have hset : first ≠ 0 := by
    rintro rfl
    rw [UInt8.toNat_zero, size_zero] at hfirst
    omega
  have hindex : (first :: tail).findIdx (· ≠ 0) = 0 := by
    simp [findIdx_cons, hset]
  have hsize := size_beNat (by rw [hindex]; simp)
  rw [hindex, getD_cons_zero, hfirst, hlength] at hsize
  constructor
  · intro hzero
    rw [hzero, size_zero] at hsize
    omega
  · apply ext_getElem
    · rw [pathDirections, length_map, length_range, hsize, length_reverse]
      omega
    · intro i _ hi
      have hroom : i < path.length := by simpa using hi
      have hbit := hbits i hroom
      rw [pathBit_eq_testBit (by omega), getD_eq_getElem _ _ hi] at hbit
      simpa [pathDirections] using hbit

open Cursor

def parseBackrefPath (stream : Cursor) : ClvmResult (Bytes × Cursor) :=
  if ¬ stream.hasRemaining then
    .error (.unexpectedEndOfValues "Unexpected End of backreference path")
  else do
    let (byte, stream) ← liftIo stream.readByte
    if byte = consBoxMarker ∨ byte = backReference then
      .error (.serializationError "Backreference path must be an atom")
    else do
      let (path, stream) ← parseAtomFromFirstByte stream byte
      match path with
      | .atom data => .ok (data, stream)
      | .pair _ _ => .error .badEncoding -- `unreachable!`

theorem remaining_le_of_parseBackrefPath {stream next : Cursor}
    (hparse : parseBackrefPath stream = .ok (path, next)) :
    next.remaining ≤ stream.remaining := by
  rw [parseBackrefPath] at hparse
  split_ifs at hparse
  obtain ⟨⟨byte, mid⟩, hread, hparse⟩ := Except.bind_eq_ok.mp hparse
  dsimp only at hparse
  split_ifs at hparse
  obtain ⟨⟨value, last⟩, hatom, hparse⟩ := Except.bind_eq_ok.mp hparse
  have hlt := remaining_lt_of_readByte (liftIo_eq_ok.mp hread)
  have hle := remaining_le_of_parseAtomFromFirstByte hatom
  cases value with
  | pair first rest => cases hparse
  | atom data =>
    cases hparse
    exact hle.trans hlt.le

/-- The loop of `sexp_from_bytes_backrefs`; both stacks have their top first. -/
def sexpFromBytesBackrefsLoop (opBuf : List ParserOp)
    (valBuf : List StackEntry) (stream : Cursor) : ClvmResult (SExp × Cursor) :=
  match opBuf with
  | [] =>
    match valBuf with
    | [] => .error (.invalidSyntax "Failed to Parse SExp")
    | (value, _) :: _ => .ok (value, stream)
  | .exp :: opBuf =>
    if ¬ stream.hasRemaining then
      .error (.unexpectedEndOfValues "Unexpected End of SExp Stream")
    else
      match _hbyte : stream.readByte with
      | .error e => .error (.ioError e)
      | .ok (byte, next) =>
        if byte = consBoxMarker then
          sexpFromBytesBackrefsLoop (.exp :: .exp :: .cons :: opBuf) valBuf
            next
        else if byte = backReference then
          match _hpath : parseBackrefPath next with
          | .error e => .error e
          | .ok (path, next) =>
            match traverseBackrefPath valBuf path with
            | .error e => .error e
            | .ok (backref, valBuf) =>
              sexpFromBytesBackrefsLoop opBuf ((backref, none) :: valBuf)
                next
        else
          match _hatom : parseAtomFromFirstByte next byte with
          | .error e => .error e
          | .ok (value, next) =>
            sexpFromBytesBackrefsLoop opBuf ((value, none) :: valBuf) next
  | .cons :: opBuf =>
    match valBuf with
    | (second, _) :: (first, _) :: valBuf =>
      sexpFromBytesBackrefsLoop opBuf ((.pair first second, none) :: valBuf)
        stream
    | _ => .error .badEncoding
termination_by 3 * stream.remaining + opBuf.length
decreasing_by
  · have := Cursor.remaining_lt_of_readByte _hbyte
    simp only [List.length_cons]
    omega
  · have := Cursor.remaining_lt_of_readByte _hbyte
    have := remaining_le_of_parseBackrefPath _hpath
    simp only [List.length_cons]
    omega
  · have := Cursor.remaining_lt_of_readByte _hbyte
    have := remaining_le_of_parseAtomFromFirstByte _hatom
    simp only [List.length_cons]
    omega
  · simp

/-- `sexp_from_bytes_backrefs`: the tree and the cursor after it. -/
def sexpFromBytesBackrefs (stream : Cursor) : ClvmResult (SExp × Cursor) :=
  if ¬ stream.hasRemaining then .ok (SExp.nil, stream)
  else sexpFromBytesBackrefsLoop [.exp] [] stream

/-- The bytes of an expression read on a value stack: an atom token, a
back-reference to the tree at some directions from the stack, or a pair whose
rest is read on top of its first. -/
inductive BackrefReads : List SExp → Bytes → SExp → Prop where
  | atom {stack : List SExp} {token data : Bytes}
      (htoken : AtomToken token data) : BackrefReads stack token (.atom data)
  | backref {stack : List SExp} {token : Bytes} {path : List Bool} {t : SExp}
      (htoken : AtomToken token (encodeBackrefPath path))
      (hwalk : (stackList stack).walk path.reverse = some t) :
      BackrefReads stack (backReference :: token) t
  | pair {stack : List SExp} {front back : Bytes} {first rest : SExp}
      (hfirst : BackrefReads stack front first)
      (hrest : BackrefReads (first :: stack) back rest) :
      BackrefReads stack (consBoxMarker :: (front ++ back)) (.pair first rest)

theorem AtomToken.lead_ne_backReference {lead : UInt8} {tail data : Bytes}
    (htoken : AtomToken (lead :: tail) data) : lead ≠ backReference := by
  rintro rfl
  cases htoken with
  | byte b hb => exact absurd hb (by decide)
  | sized lead tail data hlead hwidth hsize hspells =>
    exact absurd hwidth (by decide +kernel)

theorem parseBackrefPath_token {stream : Cursor} {token data back : Bytes}
    (htoken : AtomToken token data) (hrest : stream.rest = token ++ back) :
    parseBackrefPath stream = .ok (data, stream.advance token.length) := by
  obtain ⟨lead, tail, rfl⟩ := htoken.exists_cons
  have hlead : ¬ (lead = consBoxMarker ∨ lead = backReference) :=
    not_or.mpr ⟨htoken.lead_ne_cons, htoken.lead_ne_backReference⟩
  rw [parseBackrefPath, if_neg (by simp [stream.hasRemaining_iff, hrest]),
    readByte_cons hrest]
  simp only [liftIo_ok, Except.bind_ok, if_neg hlead, htoken.parse hrest]

section Loop

variable {opBuf : List ParserOp} {valBuf : List StackEntry} {stream : Cursor}

theorem backrefsLoop_cons (first second : StackEntry) :
    sexpFromBytesBackrefsLoop (.cons :: opBuf) (second :: first :: valBuf)
        stream =
      sexpFromBytesBackrefsLoop opBuf
        ((.pair first.1 second.1, none) :: valBuf) stream := by
  rw [sexpFromBytesBackrefsLoop]

/-- Once its first byte is known, an expression is read by its kind. -/
theorem backrefsLoop_exp {lead : UInt8} {tail : Bytes}
    (hrest : stream.rest = lead :: tail) :
    sexpFromBytesBackrefsLoop (.exp :: opBuf) valBuf stream =
      if lead = consBoxMarker then
        sexpFromBytesBackrefsLoop (.exp :: .exp :: .cons :: opBuf) valBuf
          (stream.advance 1)
      else if lead = backReference then
        parseBackrefPath (stream.advance 1) >>= fun (path, next) =>
          traverseBackrefPath valBuf path >>= fun (backref, valBuf) =>
            sexpFromBytesBackrefsLoop opBuf ((backref, none) :: valBuf) next
      else
        parseAtomFromFirstByte (stream.advance 1) lead >>= fun (value, next) =>
          sexpFromBytesBackrefsLoop opBuf ((value, none) :: valBuf) next := by
  rw [sexpFromBytesBackrefsLoop,
    if_neg (by simp [stream.hasRemaining_iff, hrest])]
  split
  · rename_i hread
    simp [readByte_cons hrest] at hread
  · rename_i hread
    rw [readByte_cons hrest] at hread
    cases hread
    split_ifs
    · rfl
    · cases hpath : parseBackrefPath (stream.advance 1) with
      | error e => simp
      | ok out =>
        obtain ⟨path, next⟩ := out
        cases htraverse : traverseBackrefPath valBuf path <;> simp [htraverse]
    · cases hatom : parseAtomFromFirstByte (stream.advance 1) lead with
      | error e => simp
      | ok out => simp

/-- The loop reads an expression of the grammar wherever it is next, changing
only memos below it. -/
theorem backrefsLoop_reads {stack : List SExp} {w back : Bytes} {t : SExp}
    (hreads : BackrefReads stack w t) (hstack : valBuf.map Prod.fst = stack)
    (hcache : CacheValid valBuf) (hrest : stream.rest = w ++ back) :
    ∃ valBuf', sexpFromBytesBackrefsLoop (.exp :: opBuf) valBuf stream =
        sexpFromBytesBackrefsLoop opBuf ((t, none) :: valBuf')
          (stream.advance w.length) ∧
      valBuf'.map Prod.fst = stack ∧ CacheValid valBuf' := by
  induction hreads generalizing opBuf valBuf stream back with
  | @atom stack token data htoken =>
    obtain ⟨lead, tail, rfl⟩ := htoken.exists_cons
    refine ⟨valBuf, ?_, hstack, hcache⟩
    rw [backrefsLoop_exp hrest, if_neg htoken.lead_ne_cons,
      if_neg htoken.lead_ne_backReference, htoken.parse hrest]
    rfl
  | @backref stack token path t htoken hwalk =>
    have hnext : (stream.advance 1).rest = token ++ back := by simp [hrest]
    have hspec := traverseBackrefPath_spec (encodeBackrefPath path) hcache
    obtain ⟨hzero, hdirections⟩ := pathDirections_encode path
    rw [SExp.follow, if_neg hzero, hdirections, hstack, hwalk] at hspec
    obtain ⟨valBuf', htraverse, hvalues, hcache'⟩ := hspec
    refine ⟨valBuf', ?_, hvalues, hcache'⟩
    rw [backrefsLoop_exp hrest, if_neg (by decide), if_pos rfl,
      parseBackrefPath_token htoken hnext]
    simp only [Except.bind_ok, htraverse, advance_advance,
      length_cons, Nat.add_comm 1]
  | @pair stack front rear first rest _ _ ihfirst ihrest =>
    obtain ⟨hfront, hrear⟩ := rest_pair hrest
    obtain ⟨valBuf', hloop, hstack', hcache'⟩ := ihfirst hstack hcache hfront
    have hpush : CacheValid ((first, none) :: valBuf') :=
      ⟨fun list heq => absurd heq (by simp), hcache'⟩
    obtain ⟨valBuf'', hloop', hstack'', hcache''⟩ :=
      ihrest (by rw [map_cons, hstack']) hpush hrear
    obtain ⟨entry, below, rfl⟩ : ∃ entry below, valBuf'' = entry :: below := by
      cases valBuf'' with
      | nil => cases hstack''
      | cons entry below => exact ⟨entry, below, rfl⟩
    rw [map_cons] at hstack''
    obtain ⟨hentry, hbelow⟩ := cons.inj hstack''
    refine ⟨below, ?_, hbelow, hcache''.2⟩
    rw [backrefsLoop_exp hrest, if_pos rfl, hloop, advance_advance,
      hloop', backrefsLoop_cons, hentry, advance_advance,
      length_pair_bytes consBoxMarker]

end Loop

theorem BackrefReads.ne_nil {stack : List SExp} {w : Bytes} {t : SExp}
    (hreads : BackrefReads stack w t) : w ≠ [] := by
  cases hreads with
  | atom htoken =>
    obtain ⟨lead, tail, rfl⟩ := htoken.exists_cons
    simp
  | backref => simp
  | pair => simp

/-- An expression read on the empty stack is what the parser returns. -/
theorem sexpFromBytesBackrefs_reads {stream : Cursor} {w back : Bytes}
    {t : SExp} (hreads : BackrefReads [] w t)
    (hrest : stream.rest = w ++ back) :
    sexpFromBytesBackrefs stream = .ok (t, stream.advance w.length) := by
  obtain ⟨valBuf', hloop, -, -⟩ :=
    @backrefsLoop_reads [] [] stream [] w back t hreads rfl trivial hrest
  rw [sexpFromBytesBackrefs,
    if_neg (by simp [stream.hasRemaining_iff, hrest, hreads.ne_nil]), hloop,
    sexpFromBytesBackrefsLoop]

/-- The states of the loop of `sexp_from_bytes_backrefs` on a stream: the
operations to do, the value stack and the cursor. -/
inductive BackrefsRun (stream : Cursor) :
    List ParserOp → List StackEntry → Cursor → Prop where
  | start (hremaining : stream.hasRemaining = true) :
      BackrefsRun stream [.exp] [] stream
  | marker {opBuf : List ParserOp} {valBuf : List StackEntry}
      {current next : Cursor}
      (hrun : BackrefsRun stream (.exp :: opBuf) valBuf current)
      (hbyte : current.readByte = .ok (consBoxMarker, next)) :
      BackrefsRun stream (.exp :: .exp :: .cons :: opBuf) valBuf next
  | backref {opBuf : List ParserOp} {valBuf valBuf' : List StackEntry}
      {current mid next : Cursor} {path : Bytes} {t : SExp}
      (hrun : BackrefsRun stream (.exp :: opBuf) valBuf current)
      (hbyte : current.readByte = .ok (backReference, mid))
      (hpath : parseBackrefPath mid = .ok (path, next))
      (htraverse : traverseBackrefPath valBuf path = .ok (t, valBuf')) :
      BackrefsRun stream opBuf ((t, none) :: valBuf') next
  | atom {opBuf : List ParserOp} {valBuf : List StackEntry}
      {current mid next : Cursor} {byte : UInt8} {value : SExp}
      (hrun : BackrefsRun stream (.exp :: opBuf) valBuf current)
      (hbyte : current.readByte = .ok (byte, mid))
      (hmarker : byte ≠ consBoxMarker) (hbackref : byte ≠ backReference)
      (hatom : parseAtomFromFirstByte mid byte = .ok (value, next)) :
      BackrefsRun stream opBuf ((value, none) :: valBuf) next
  | cons {opBuf : List ParserOp} {valBuf : List StackEntry}
      {second first : StackEntry} {current : Cursor}
      (hrun : BackrefsRun stream (.cons :: opBuf) (second :: first :: valBuf)
        current) :
      BackrefsRun stream opBuf ((.pair first.1 second.1, none) :: valBuf)
        current

namespace BackrefsRun

variable {stream current : Cursor} {opBuf : List ParserOp}
  {valBuf : List StackEntry}

/-- What the parser returns is what its loop returns from any of its states. -/
theorem loop_eq (hrun : BackrefsRun stream opBuf valBuf current) :
    sexpFromBytesBackrefs stream =
      sexpFromBytesBackrefsLoop opBuf valBuf current := by
  induction hrun with
  | start hremaining => simp [sexpFromBytesBackrefs, hremaining]
  | marker hrun hbyte ih =>
    obtain ⟨⟨back, hrest⟩, rfl⟩ := readByte_eq_ok.mp hbyte
    rw [ih, backrefsLoop_exp hrest, if_pos rfl]
  | backref hrun hbyte hpath htraverse ih =>
    obtain ⟨⟨back, hrest⟩, rfl⟩ := readByte_eq_ok.mp hbyte
    rw [ih, backrefsLoop_exp hrest, if_neg (by decide), if_pos rfl, hpath]
    simp only [Except.bind_ok, htraverse]
  | atom hrun hbyte hmarker hbackref hatom ih =>
    obtain ⟨⟨back, hrest⟩, rfl⟩ := readByte_eq_ok.mp hbyte
    rw [ih, backrefsLoop_exp hrest, if_neg hmarker, if_neg hbackref, hatom]
    rfl
  | cons hrun ih => rw [ih, backrefsLoop_cons]

/-- A pushed value has no memo yet. -/
theorem cacheValid_push {t : SExp} (hcache : CacheValid valBuf) :
    CacheValid ((t, none) :: valBuf) :=
  ⟨fun _ hmemo => absurd hmemo (by simp), hcache⟩

/-- Every memo is the list of the entries below it, whatever was popped and
pushed before. -/
theorem cacheValid (hrun : BackrefsRun stream opBuf valBuf current) :
    CacheValid valBuf := by
  induction hrun with
  | start hremaining => trivial
  | marker hrun hbyte ih => exact ih
  | @backref opBuf valBuf valBuf' _ _ _ path t hrun hbyte hpath htraverse ih =>
    apply cacheValid_push
    have hspec := traverseBackrefPath_spec path ih
    cases hfollow : (stackList (valBuf.map Prod.fst)).follow path with
    | none =>
      rw [hfollow] at hspec
      cases htraverse.symm.trans hspec
    | some t' =>
      rw [hfollow] at hspec
      obtain ⟨kept, hkept, -, hcache⟩ := hspec
      cases htraverse.symm.trans hkept
      exact hcache
  | atom hrun hbyte hmarker hbackref hatom ih => exact cacheValid_push ih
  | cons hrun ih => exact cacheValid_push ih.2.2

end BackrefsRun

/-- An expression without back-references is read on any stack. -/
theorem Reads.backrefReads {w : Bytes} {t : SExp} (hreads : Reads w t)
    (stack : List SExp) : BackrefReads stack w t := by
  induction hreads generalizing stack with
  | atom htoken => exact .atom htoken
  | pair _ _ ihfirst ihrest => exact .pair (ihfirst stack) (ihrest _)

/-- Along every run a path is followed as in the list of the value stack, top
first, with an error exactly where that walk enters an atom; and where
`sexp_from_bytes` succeeds, both parsers return the same tree and cursor. -/
theorem traverseBackrefPath_follows_stackList (stream : Cursor) :
    (∀ opBuf valBuf current, BackrefsRun stream opBuf valBuf current →
      ∀ path, (traverseBackrefPath valBuf path).map Prod.fst =
        ((stackList (valBuf.map Prod.fst)).follow path).elim
          (.error enteredAtom) .ok) ∧
    ∀ t next, sexpFromBytes stream = .ok (t, next) →
      sexpFromBytesBackrefs stream = .ok (t, next) := by
  constructor
  · intro opBuf valBuf current hrun path
    have hspec := traverseBackrefPath_spec path hrun.cacheValid
    cases hfollow : (stackList (valBuf.map Prod.fst)).follow path with
    | none =>
      rw [hfollow] at hspec
      rw [hspec]
      rfl
    | some t =>
      rw [hfollow] at hspec
      obtain ⟨values', htraverse, -⟩ := hspec
      rw [htraverse]
      rfl
  · intro t next hparse
    by_cases hne : stream.rest = []
    · have hremaining : stream.hasRemaining = false := by
        simpa [hne] using stream.hasRemaining_iff
      rw [sexpFromBytes, if_pos (by simp [hremaining])] at hparse
      rw [sexpFromBytesBackrefs, if_pos (by simp [hremaining])]
      exact hparse
    · obtain ⟨w, back, hreads, hrest, rfl⟩ :=
        (sexpFromBytes_eq_ok hne).mp hparse
      exact sexpFromBytesBackrefs_reads (hreads.backrefReads []) hrest

/-- The path `2` on the stack that holds `1`, and a pair read without
back-references. -/
theorem traverseBackrefPath_follows_stackList_at_pair :
    (traverseBackrefPath [(.atom [1], none)] [2]).map Prod.fst =
        .ok (.atom [1]) ∧
      sexpFromBytesBackrefs ⟨[0xff, 0x01, 0x02], 0⟩ =
        .ok (.pair (.atom [1]) (.atom [2]), ⟨[0xff, 0x01, 0x02], 3⟩) := by
  constructor
  · have hrun : BackrefsRun ⟨[0xff, 0x01, 0xfe, 0x02], 0⟩ [.exp, .cons]
        [(.atom [1], none)] ⟨[0xff, 0x01, 0xfe, 0x02], 2⟩ :=
      .atom (.marker (.start rfl) rfl) rfl (by decide) (by decide) rfl
    exact (traverseBackrefPath_follows_stackList _).1 _ _ _ hrun [2]
  · have hreads : Reads [0xff, 0x01, 0x02] (.pair (.atom [1]) (.atom [2])) :=
      .pair (.atom (.byte 1 (by decide))) (.atom (.byte 2 (by decide)))
    apply (traverseBackrefPath_follows_stackList _).2
    exact (sexpFromBytes_eq_ok (by decide)).mpr ⟨_, [], hreads, rfl, rfl⟩

open List

def maxU64 : Nat := 2 ^ 64 - 1

def saturatingAdd (left right : Nat) : Nat := min (left + right) maxU64

section Hash

variable (sha256 : HashFn)

def atomTreeHash (atom : Bytes) : Bytes32 := sha256 (1 :: atom)

def pairTreeHash (first rest : Bytes32) : Bytes32 :=
  sha256 (2 :: (first.bytes ++ rest.bytes))

/-- The tree hash of a node, as `compute_memos` fills it in. -/
def treeHash : SExp → Bytes32
  | .atom data => atomTreeHash sha256 data
  | .pair first rest => pairTreeHash sha256 (treeHash first) (treeHash rest)

/-- What is hashed for a tree. -/
def treePreimages : SExp → List Bytes
  | .atom data => [1 :: data]
  | .pair first rest =>
    (2 :: ((treeHash sha256 first).bytes ++ (treeHash sha256 rest).bytes)) ::
      (treePreimages first ++ treePreimages rest)

/-- Trees are equal if their hashes are, unless SHA-256 collides on the way. -/
theorem treeHash_binds (t u : SExp)
    (hinj : ∀ x ∈ treePreimages sha256 t, ∀ y ∈ treePreimages sha256 u,
      sha256 x = sha256 y → x = y) :
    treeHash sha256 t = treeHash sha256 u ↔ t = u := by
  refine ⟨fun hhash => ?_, congrArg _⟩
  induction t generalizing u with
  | atom data =>
    cases u <;> cases hinj _ mem_cons_self _ mem_cons_self hhash
    rfl
  | pair first rest ihfirst ihrest =>
    cases u with
    | atom data => cases hinj _ mem_cons_self _ mem_cons_self hhash
    | pair first' rest' =>
      have heq := hinj _ mem_cons_self _ mem_cons_self hhash
      obtain ⟨hfirst, hrest⟩ := append_inj (cons.inj heq).2
        (by simp [Bytes32.length_eq])
      simp only [treePreimages, forall_mem_cons, forall_mem_append] at hinj
      rw [ihfirst first' (fun x hx => (hinj.2.1 x hx).2.1) (Bytes32.ext hfirst),
        ihrest rest' (fun x hx => (hinj.2.2 x hx).2.2) (Bytes32.ext hrest)]

end Hash

theorem treeHash_binds_at_pairs :
    treeHash hash256 (.pair (.atom [1]) (.atom [])) ≠
      treeHash hash256 (.pair (.atom []) (.atom [1])) := by
  rw [Ne, treeHash_binds hash256 _ _ (by decide +kernel)]
  decide

def serializedLengthAtom (buf : Bytes) : Nat :=
  let lb := buf.length
  if lb = 0 ∨ (lb = 1 ∧ buf.headD 0 < 128) then 1
  else if lb < 0x40 then 1 + lb
  else if lb < 0x2000 then 2 + lb
  else if lb < 0x100000 then 3 + lb
  else if lb < 0x8000000 then 4 + lb
  else 5 + lb

/-- The plain serialized length of a node, as `compute_memos` fills it in. -/
def serializedLength : SExp → Nat
  | .atom data => serializedLengthAtom data
  | .pair first rest =>
    saturatingAdd (saturatingAdd 1 (serializedLength first))
      (serializedLength rest)

def atomLengthBits (numBits : Nat) : Option Nat :=
  if numBits < 8 then some 1
  else
    let numBytes := (numBits + 7) / 8
    if numBytes < 0x40 then some (1 + numBytes)
    else if numBytes < 0x2000 then some (2 + numBytes)
    else if numBytes < 0x100000 then some (3 + numBytes)
    else if numBytes < 0x8000000 then some (4 + numBytes)
    else if numBytes < 0x400000000 then some (5 + numBytes)
    else none

/-- An entry of the `parents` map: `child` is the first (or, with `direction`,
the rest) of the pair hashed to `parent`. -/
structure ParentEdge where
  child : Bytes32
  parent : Bytes32
  direction : Bool
deriving Repr, DecidableEq

/-- `BackrefStackIndex`.  The stack has its top first, `active` is zero where
the map has no entry, and `parents` lists the insertions of the map in order. -/
structure BackrefStackIndex where
  root : Bytes32
  stack : List (Bytes32 × Bytes32)
  active : Bytes32 → Nat
  parents : List ParentEdge

namespace BackrefStackIndex

/-- `*active.entry(hash).or_default() += 1` on a `u32`. -/
def increment (active : Bytes32 → Nat) (hash : Bytes32) : Bytes32 → Nat :=
  fun key => if key = hash then (active key + 1) % 2 ^ 32 else active key

/-- `*count = count.saturating_sub(1)`. -/
def decrement (active : Bytes32 → Nat) (hash : Bytes32) : Bytes32 → Nat :=
  fun key => if key = hash then active key - 1 else active key

section Operations

variable (sha256 : HashFn)

def new : BackrefStackIndex :=
  let root := atomTreeHash sha256 []
  ⟨root, [], fun key => if key = root then 1 else 0, []⟩

variable (index : BackrefStackIndex)

def activate (hash : Bytes32) : BackrefStackIndex :=
  let newRoot := pairTreeHash sha256 hash index.root
  { root := newRoot
    stack := (hash, index.root) :: index.stack
    active := increment (increment index.active hash) newRoot
    parents := index.parents ++
      [⟨hash, newRoot, false⟩, ⟨index.root, newRoot, true⟩] }

def deactivateTop : IoResult ((Bytes32 × Bytes32) × BackrefStackIndex) :=
  match index.stack with
  | [] => .error (.panic "read stack empty")
  | item :: stack =>
    .ok (item,
      { index with
        root := item.2
        stack := stack
        active := decrement (decrement index.active item.1) index.root })

def combineTopPair : IoResult BackrefStackIndex := do
  let (right, index) ← index.deactivateTop
  let (left, index) ← index.deactivateTop
  let pair := pairTreeHash sha256 left.1 right.1
  .ok (activate sha256
    { index with
      active := increment (increment index.active left.1) right.1
      parents := index.parents ++
        [⟨left.1, pair, false⟩, ⟨right.1, pair, true⟩] }
    pair)

end Operations

/-- A queue entry of the search: a hash and the directions from the searched
hash up to it. -/
abbrev SearchNode := Bytes32 × List Bool

/-- The loop of `shortest_path` over the parents of one node. -/
def expandParents (active : Bytes32 → Nat) (path : List Bool) :
    List ParentEdge → List SearchNode → List Bytes32 →
      List SearchNode × List Bytes32
  | [], queue, seen => (queue, seen)
  | edge :: edges, queue, seen =>
    if active edge.parent = 0 ∨ edge.parent ∈ seen then
      expandParents active path edges queue seen
    else
      expandParents active path edges
        (queue ++ [(edge.parent, path ++ [edge.direction])])
        (edge.parent :: seen)

variable (index : BackrefStackIndex)

/-- The recorded parents that the search has not seen. -/
def unseen (seen : List Bytes32) : Nat :=
  ((index.parents.map ParentEdge.parent).filter (· ∉ seen)).length

theorem unseen_cons_lt {index : BackrefStackIndex} {seen : List Bytes32}
    {edge : ParentEdge} (hedge : edge ∈ index.parents)
    (hseen : edge.parent ∉ seen) :
    index.unseen (edge.parent :: seen) < index.unseen seen := by
  simp only [unseen, mem_cons, not_or, Bool.decide_and,
    ← filter_filter, length_filter_lt_length_iff_exists]
  refine ⟨edge.parent, mem_filter.mpr ⟨mem_map_of_mem hedge, ?_⟩, ?_⟩
  · simpa using hseen
  · simp

/-- Queueing a parent uses up one that was unseen. -/
theorem unseen_expandParents (index : BackrefStackIndex) (path : List Bool)
    (edges : List ParentEdge) (queue : List SearchNode) (seen : List Bytes32)
    (hedges : ∀ edge ∈ edges, edge ∈ index.parents) :
    index.unseen (expandParents index.active path edges queue seen).2 +
        (expandParents index.active path edges queue seen).1.length ≤
      index.unseen seen + queue.length := by
  induction edges generalizing queue seen with
  | nil => exact le_rfl
  | cons edge edges ih =>
    have htail : ∀ edge ∈ edges, edge ∈ index.parents := fun edge hmem =>
      hedges edge (mem_cons_of_mem _ hmem)
    rw [expandParents]
    split_ifs with hskip
    · exact ih queue seen htail
    · have hlt := unseen_cons_lt (hedges edge mem_cons_self) (not_or.mp hskip).2
      have hle := ih (queue ++ [(edge.parent, path ++ [edge.direction])])
        (edge.parent :: seen) htail
      rw [length_append, length_singleton] at hle
      omega

def parentsOf (node : Bytes32) : List ParentEdge :=
  index.parents.filter (·.child = node)

/-- The breadth-first search of `shortest_path`: the encoded paths of the
first depth at which the root is met. -/
def shortestPathLoop (index : BackrefStackIndex) (maxAtomBytes maxSteps : Nat)
    (queue : List SearchNode) (seen : List Bytes32) (candidates : List Bytes)
    (resultDepth : Option Nat) : List Bytes :=
  match queue with
  | [] => candidates
  | (node, path) :: queue =>
    if resultDepth.any (path.length > ·) then candidates
    else if node = index.root then
      if (atomLengthBits (path.length + 1)).any (· ≤ maxAtomBytes) then
        shortestPathLoop index maxAtomBytes maxSteps queue seen
          (candidates ++ [encodeBackrefPath path]) (some path.length)
      else
        shortestPathLoop index maxAtomBytes maxSteps queue seen candidates
          resultDepth
    else if path.length ≥ maxSteps then
      shortestPathLoop index maxAtomBytes maxSteps queue seen candidates
        resultDepth
    else
      let next := expandParents index.active path (index.parentsOf node)
        queue seen
      shortestPathLoop index maxAtomBytes maxSteps next.1 next.2 candidates
        resultDepth
termination_by index.unseen seen + queue.length
decreasing_by
  all_goals try simp
  have hexpand := index.unseen_expandParents path (index.parentsOf node)
    queue seen fun edge hmem => (List.mem_filter.mp hmem).1
  omega

/-- `Iterator::min` of byte strings, by lexicographic order. -/
def minCandidate : List Bytes → Option Bytes
  | [] => none
  | candidate :: candidates =>
    match minCandidate candidates with
    | none => some candidate
    | some other => some (if other < candidate then other else candidate)

def shortestPath (hash : Bytes32) (plainLength : Nat) : Option Bytes :=
  if plainLength < 4 then none
  else
    let maxAtomBytes := plainLength - 1
    let maxSteps := min (maxAtomBytes * 8) maxU64 - 1
    minCandidate (index.shortestPathLoop maxAtomBytes maxSteps [(hash, [])]
      [hash] [] none)

end BackrefStackIndex

inductive ReadOp where
  | parse
  | cons
deriving Repr, DecidableEq

section Serializer

variable (sha256 : HashFn)

/-- The inner loop of `node_to_stream_backrefs`, which replays the decoder's
`Cons` operations. -/
def drainCons : List ReadOp → BackrefStackIndex →
    IoResult (List ReadOp × BackrefStackIndex)
  | .cons :: readOps, index => do
      let index ← index.combineTopPair sha256
      drainCons readOps index
  | readOps, index => .ok (readOps, index)

/-- `?` on an I/O result where a panic is also possible. -/
def liftFault {A : Type} (result : Except IoError A) : IoResult A :=
  result.mapError .error

@[simp]
theorem liftFault_ok {A : Type} (out : A) : liftFault (.ok out) = .ok out := rfl

/-- The loop of `node_to_stream_backrefs`; all stacks have their top first. -/
def nodeToStreamBackrefsLoop (writeStack : List SExp) (readOps : List ReadOp)
    (index : BackrefStackIndex) (buffer : Bytes) : IoResult Bytes :=
  match writeStack with
  | [] => .ok buffer
  | node :: writeStack =>
    let readOps := readOps.tail
    let nodeHash := treeHash sha256 node
    match index.shortestPath nodeHash (serializedLength node) with
    | some path => do
        let token ← liftFault (writeAtom path)
        let (readOps, index) ←
          drainCons sha256 readOps (index.activate sha256 nodeHash)
        nodeToStreamBackrefsLoop writeStack readOps index
          (buffer ++ [backReference] ++ token)
    | none =>
      match node with
      | .pair first rest => do
          let (readOps, index) ←
            drainCons sha256 (.parse :: .parse :: .cons :: readOps) index
          nodeToStreamBackrefsLoop (first :: rest :: writeStack) readOps
            index (buffer ++ [consBoxMarker])
      | .atom data => do
          let token ← liftFault (writeAtom data)
          let (readOps, index) ←
            drainCons sha256 readOps (index.activate sha256 nodeHash)
          nodeToStreamBackrefsLoop writeStack readOps index (buffer ++ token)
termination_by (writeStack.map SExp.size).sum
decreasing_by
  all_goals simp only [List.map_cons, List.sum_cons, SExp.size]
  · have := SExp.size_pos node
    omega
  · omega
  · omega

def sexpToBytesBackrefs (sexp : SExp) : IoResult Bytes :=
  nodeToStreamBackrefsLoop sha256 [sexp] [.parse]
    (BackrefStackIndex.new sha256) []

end Serializer

end DgXch
