/-
Trees over lists.  A knock-out over a list whose length is a power of two gives
one result, whether rounds combine neighbours or a tree folds its two halves.  A
radix tree splits a list of keys on one bit after another and depends on the set
of keys alone.  A scanner that counts pending expressions accepts exactly the
token streams that spell one binary tree in preorder.
-/
import Mathlib.Data.List.Basic
import Mathlib.Tactic.Ring

namespace PairTree

open List Option

universe u

variable {A : Type u} (combine : Nat → A → A → Option A)

/-- One round: neighbours are combined by the rule of round `level`. -/
def pairUp (level : Nat) : List A → Option (List A)
  | left :: right :: rest => do
      let winner ← combine level left right
      let winners ← pairUp level rest
      return winner :: winners
  | _ => some []

/-- `count` rounds, from round `level` on. -/
def rounds : Nat → Nat → List A → Option (List A)
  | _, 0, entries => some entries
  | level, count + 1, entries => do
      let winners ← pairUp combine level entries
      rounds (level + 1) count winners

/-- The tree of depth `depth` over the first `2 ^ depth` entries. -/
def treeFold : Nat → List A → Option A
  | 0, entries => entries.head?
  | depth + 1, entries => do
      let left ← treeFold depth (entries.take (2 ^ depth))
      let right ← treeFold depth (entries.drop (2 ^ depth))
      combine depth left right

variable {combine}

theorem pairUp_append {level half : Nat} {front : List A}
    (hfront : front.length = 2 * half) (back : List A) :
    pairUp combine level (front ++ back) =
      (pairUp combine level front).bind fun winners =>
        (pairUp combine level back).map (winners ++ ·) := by
  induction half generalizing front with
  | zero =>
    have hnil : front = [] := length_eq_zero_iff.mp hfront
    subst hnil
    cases hback : pairUp combine level back <;> simp [pairUp, hback]
  | succ half ih =>
    match front, hfront with
    | left :: right :: rest, hfront =>
      have hrest : rest.length = 2 * half := by
        simp only [length_cons] at hfront
        omega
      simp only [cons_append, pairUp, ih hrest]
      cases combine level left right with
      | none => rfl
      | some winner =>
        cases pairUp combine level rest with
        | none => rfl
        | some winners => cases pairUp combine level back <;> rfl

theorem length_pairUp {level half : Nat} {entries winners : List A}
    (hlength : entries.length = 2 * half)
    (hround : pairUp combine level entries = some winners) :
    winners.length = half := by
  induction half generalizing entries winners with
  | zero =>
    have hnil : entries = [] := List.length_eq_zero_iff.mp hlength
    subst hnil
    simp only [pairUp, Option.some.injEq] at hround
    simp [← hround]
  | succ half ih =>
    match entries, hlength with
    | left :: right :: rest, hlength =>
      have hrest : rest.length = 2 * half := by
        simp only [List.length_cons] at hlength
        omega
      simp only [pairUp, Option.bind_eq_bind, Option.bind_eq_some_iff,
        Option.pure_def, Option.some.injEq] at hround
      obtain ⟨winner, -, others, hothers, rfl⟩ := hround
      simp [ih hrest hothers]

/-- A round reads two stretches of the list on their own, when the first one
is a whole number of trees. -/
theorem rounds_append {level count trees : Nat} {front : List A}
    (hfront : front.length = trees * 2 ^ count) (back : List A) :
    rounds combine level count (front ++ back) =
      (rounds combine level count front).bind fun winners =>
        (rounds combine level count back).map (winners ++ ·) := by
  induction count generalizing level front back with
  | zero => simp [rounds]
  | succ count ih =>
    have hhalf : front.length = 2 * (trees * 2 ^ count) := by
      rw [hfront, pow_succ]
      ring
    simp only [rounds, pairUp_append hhalf, bind_eq_bind]
    cases hround : pairUp combine level front with
    | none => rfl
    | some winners =>
      have hwinners := length_pairUp hhalf hround
      cases pairUp combine level back with
      | none => cases rounds combine (level + 1) count winners <;> simp
      | some others => exact ih hwinners others

/-- The last round can be split off. -/
theorem rounds_succ (level count : Nat) (entries : List A) :
    rounds combine level (count + 1) entries =
      (rounds combine level count entries).bind
        (pairUp combine (level + count)) := by
  induction count generalizing level entries with
  | zero => simp [rounds]
  | succ count ih =>
    have hshift : level + 1 + count = level + (count + 1) := by omega
    rw [rounds, rounds, bind_eq_bind, bind_assoc]
    congr 1
    funext winners
    rw [ih, hshift]

/-- The rounds of a knock-out and the tree over the same entries agree. -/
theorem rounds_eq_treeFold {depth : Nat} {entries : List A}
    (hlength : entries.length = 2 ^ depth) :
    rounds combine 0 depth entries =
      (treeFold combine depth entries).map fun winner => [winner] := by
  induction depth generalizing entries with
  | zero =>
    obtain ⟨entry, rfl⟩ := length_eq_one_iff.mp hlength
    rfl
  | succ depth ih =>
    have htwo : entries.length = 2 ^ depth + 2 ^ depth := by
      rw [hlength, pow_succ]
      ring
    have hleft : (entries.take (2 ^ depth)).length = 2 ^ depth := by
      rw [length_take, htwo]
      omega
    have hright : (entries.drop (2 ^ depth)).length = 2 ^ depth := by
      rw [length_drop, htwo]
      omega
    have hone : (entries.take (2 ^ depth)).length = 1 * 2 ^ depth := by
      rw [hleft, Nat.one_mul]
    have hsplit := @rounds_append A combine 0 depth 1 _ hone
      (entries.drop (2 ^ depth))
    rw [take_append_drop, ih hleft, ih hright] at hsplit
    rw [rounds_succ, hsplit, treeFold]
    cases treeFold combine depth (entries.take (2 ^ depth)) with
    | none => rfl
    | some left =>
      cases treeFold combine depth (entries.drop (2 ^ depth)) with
      | none => rfl
      | some right =>
        simp only [map_some, bind_some, singleton_append, Nat.zero_add, pairUp,
          Option.bind_eq_bind, Option.pure_def]
        cases combine depth left right <;> rfl

end PairTree

namespace RadixTree

open List

universe u

/-- A binary tree with keys at its leaves. -/
inductive KeyTree (K : Type u) where
  | empty
  | leaf (key : K)
  | node (left right : KeyTree K)
deriving Repr, DecidableEq

namespace KeyTree

variable {K : Type u}

/-- The keys of a tree, left to right. -/
def keys : KeyTree K → List K
  | .empty => []
  | .leaf key => [key]
  | .node left right => left.keys ++ right.keys

def size : KeyTree K → Nat
  | .empty => 1
  | .leaf _ => 1
  | .node left right => left.size + right.size + 1

/-- A node that is not just a pair of keys. -/
def isDeep : KeyTree K → Bool
  | .empty => false
  | .leaf _ => false
  | .node (.leaf _) (.leaf _) => false
  | .node _ _ => true

theorem size_pos (t : KeyTree K) : 0 < t.size := by cases t <;> simp [size]

/-- The three forms of a tree that is not deep. -/
theorem cases_of_not_isDeep {t : KeyTree K} (hdeep : t.isDeep = false) :
    t = .empty ∨ (∃ key, t = .leaf key) ∨
      ∃ x y, t = .node (.leaf x) (.leaf y) := by
  cases t with
  | empty => exact .inl rfl
  | leaf key => exact .inr (.inl ⟨key, rfl⟩)
  | node left right => cases left <;> cases right <;> simp_all [isDeep]

/-- Lift a subtree through a level on which every key goes to `side`. -/
def wrap (side : Bool) (t : KeyTree K) : KeyTree K :=
  if t.isDeep then
    if side then .node .empty t else .node t .empty
  else t

theorem mem_keys_wrap {side : Bool} {t : KeyTree K} {key : K} :
    key ∈ (wrap side t).keys ↔ key ∈ t.keys := by
  unfold wrap
  split_ifs <;> simp [keys]

end KeyTree

variable {K : Type u} (bit : K → Nat → Bool)

/-- The keys whose next bit is `side`. -/
def half (depth : Nat) (side : Bool) (keys : List K) : List K :=
  keys.filter fun k => bit k depth == side

/-- The radix tree of `keys`, read from bit `depth` on for `levels` bits. -/
def build : Nat → Nat → List K → KeyTree K
  | _, _, [] => .empty
  | 0, _, key :: _ => .leaf key
  | levels + 1, depth, key :: keys =>
    let zeros := half bit depth false (key :: keys)
    let ones := half bit depth true (key :: keys)
    if zeros.isEmpty then
      .wrap true (build levels (depth + 1) (key :: keys))
    else if ones.isEmpty then
      .wrap false (build levels (depth + 1) (key :: keys))
    else .node (build levels (depth + 1) zeros) (build levels (depth + 1) ones)

/-- All keys agree on the bits above `depth`. -/
def Shares (depth : Nat) (keys : List K) : Prop :=
  ∀ x ∈ keys, ∀ y ∈ keys, ∀ i < depth, bit x i = bit y i

/-- The keys part on a level, or all go one way. -/
theorem half_cases {depth : Nat} (keys : List K) :
    (half bit depth false keys ≠ [] ∧ half bit depth true keys ≠ []) ∨
      ∃ side, ∀ key ∈ keys, bit key depth = side := by
  by_cases hzeros : half bit depth false keys = []
  · right
    use true
    intro key hkey
    simpa using filter_eq_nil_iff.mp hzeros key hkey
  · by_cases hones : half bit depth true keys = []
    · right
      use false
      intro key hkey
      simpa using filter_eq_nil_iff.mp hones key hkey
    · exact .inl ⟨hzeros, hones⟩

variable {bit} {levels depth width : Nat} {keys keys' : List K} {side : Bool}

theorem mem_half {key : K} :
    key ∈ half bit depth side keys ↔ key ∈ keys ∧ bit key depth = side := by
  simp [half]

theorem build_nil : build bit levels depth [] = .empty := by
  cases levels <;> rfl

/-- A level on which the keys part. -/
theorem build_split (hzeros : half bit depth false keys ≠ [])
    (hones : half bit depth true keys ≠ []) :
    build bit (levels + 1) depth keys =
      .node (build bit levels (depth + 1) (half bit depth false keys))
        (build bit levels (depth + 1) (half bit depth true keys)) := by
  cases keys with
  | nil => exact absurd rfl hzeros
  | cons key keys =>
    simp only [build, List.isEmpty_iff, if_neg hzeros, if_neg hones]

/-- A level on which all keys go the same way. -/
theorem build_forward (hside : ∀ key ∈ keys, bit key depth = side) :
    build bit (levels + 1) depth keys =
      .wrap side (build bit levels (depth + 1) keys) := by
  cases keys with
  | nil =>
    rw [build_nil, build_nil]
    rfl
  | cons key keys =>
    have hempty : half bit depth (!side) (key :: keys) = [] := by
      apply List.filter_eq_nil_iff.mpr
      intro k hk
      simp [hside k hk]
    have hhead : half bit depth side (key :: keys) ≠ [] :=
      List.ne_nil_of_mem (mem_half.mpr
        ⟨List.mem_cons_self, hside key List.mem_cons_self⟩)
    simp only [build, List.isEmpty_iff]
    cases side with
    | true => exact if_pos hempty
    | false => exact (if_neg hhead).trans (if_pos hempty)

theorem Shares.half (hshares : Shares bit depth keys) (side : Bool) :
    Shares bit (depth + 1) (half bit depth side keys) := by
  intro x hx y hy i hi
  obtain ⟨hx, hxside⟩ := mem_half.mp hx
  obtain ⟨hy, hyside⟩ := mem_half.mp hy
  rcases Nat.lt_succ_iff_lt_or_eq.mp hi with hlt | rfl
  · exact hshares x hx y hy i hlt
  · rw [hxside, hyside]

theorem Shares.forward (hshares : Shares bit depth keys)
    (hside : ∀ key ∈ keys, bit key depth = side) :
    Shares bit (depth + 1) keys := by
  intro x hx y hy i hi
  rcases Nat.lt_succ_iff_lt_or_eq.mp hi with hlt | rfl
  · exact hshares x hx y hy i hlt
  · rw [hside x hx, hside y hy]

section Keys

variable (hbits : ∀ x y : K, (∀ i < width, bit x i = bit y i) → x = y)

include hbits

/-- At the last level one key is left. -/
theorem Shares.eq_of_mem (hshares : Shares bit width keys) {x y : K}
    (hx : x ∈ keys) (hy : y ∈ keys) : x = y :=
  hbits x y (hshares x hx y hy)

section

variable (hlevels : depth + levels = width) (hshares : Shares bit depth keys)

include hlevels hshares

theorem mem_keys_build {key : K} :
    key ∈ (build bit levels depth keys).keys ↔ key ∈ keys := by
  induction levels generalizing depth keys with
  | zero =>
    obtain rfl : depth = width := hlevels
    cases keys with
    | nil => rfl
    | cons head tail =>
      simp only [build, KeyTree.keys, mem_singleton]
      constructor
      · rintro rfl
        exact mem_cons_self
      · intro hkey
        exact hshares.eq_of_mem hbits hkey mem_cons_self
  | succ levels ih =>
    have hnext : depth + 1 + levels = width := by omega
    rcases half_cases bit keys with ⟨hzeros, hones⟩ | ⟨side, hside⟩
    · rw [build_split hzeros hones, KeyTree.keys, mem_append,
        ih hnext (hshares.half false), ih hnext (hshares.half true),
        mem_half, mem_half, ← and_or_left]
      cases bit key depth <;> simp
    · rw [build_forward hside, KeyTree.mem_keys_wrap,
        ih hnext (hshares.forward hside)]

/-- The tree depends on the set of keys only. -/
theorem build_congr (hmem : ∀ key, key ∈ keys' ↔ key ∈ keys) :
    build bit levels depth keys' = build bit levels depth keys := by
  induction levels generalizing depth keys keys' with
  | zero =>
    obtain rfl : depth = width := hlevels
    cases keys with
    | nil =>
      obtain rfl : keys' = [] := by
        apply eq_nil_iff_forall_not_mem.mpr
        intro key hkey
        exact not_mem_nil ((hmem key).mp hkey)
      rfl
    | cons head tail =>
      cases keys' with
      | nil => exact absurd ((hmem head).mpr mem_cons_self) not_mem_nil
      | cons head' tail' =>
        have hhead := (hmem head').mp mem_cons_self
        rw [build, build, hshares.eq_of_mem hbits hhead mem_cons_self]
  | succ levels ih =>
    have hnext : depth + 1 + levels = width := by omega
    have hhalf (side : Bool) (key : K) :
        key ∈ half bit depth side keys' ↔ key ∈ half bit depth side keys := by
      rw [mem_half, mem_half, hmem]
    rcases half_cases bit keys with ⟨hzeros, hones⟩ | ⟨side, hside⟩
    · have hne (side : Bool) (h : half bit depth side keys ≠ []) :
          half bit depth side keys' ≠ [] := by
        obtain ⟨key, hkey⟩ := exists_mem_of_ne_nil _ h
        exact ne_nil_of_mem ((hhalf side key).mpr hkey)
      rw [build_split hzeros hones,
        build_split (hne false hzeros) (hne true hones),
        ih hnext (hshares.half false) (hhalf false),
        ih hnext (hshares.half true) (hhalf true)]
    · have hside' : ∀ key ∈ keys', bit key depth = side := by
        intro key hkey
        exact hside key ((hmem key).mp hkey)
      rw [build_forward hside, build_forward hside',
        ih hnext (hshares.forward hside) hmem]

theorem build_ne_empty (hne : keys ≠ []) :
    build bit levels depth keys ≠ .empty := by
  intro hempty
  obtain ⟨key, hkey⟩ := exists_mem_of_ne_nil _ hne
  have := (mem_keys_build hbits hlevels hshares).mpr hkey
  rw [hempty] at this
  exact not_mem_nil this

end

end Keys

/-- Equal keys are one leaf. -/
theorem build_const {key : K} (hne : keys ≠ [])
    (hall : ∀ other ∈ keys, other = key) :
    build bit levels depth keys = .leaf key := by
  induction levels generalizing depth with
  | zero =>
    cases keys with
    | nil => exact absurd rfl hne
    | cons head tail => rw [build, hall head mem_cons_self]
  | succ levels ih =>
    have hside : ∀ other ∈ keys, bit other depth = bit key depth := by
      intro other hother
      rw [hall other hother]
    rw [build_forward hside, ih]
    rfl

variable (bit width) in
/-- A tree in its place at `depth`: a pair of keys parts at some bit from
`depth` on, any other node parts its keys at `depth`, and an empty side stands
only next to a deep one. -/
inductive Placed : Nat → KeyTree K → Prop where
  | empty {depth : Nat} : Placed depth .empty
  | leaf {depth : Nat} {key : K} : Placed depth (.leaf key)
  | twin {depth k : Nat} {x y : K} (hdepth : depth ≤ k) (hwidth : k < width)
      (hsame : ∀ i < k, bit x i = bit y i) (hx : bit x k = false)
      (hy : bit y k = true) : Placed depth (.node (.leaf x) (.leaf y))
  | deep {depth : Nat} {left right : KeyTree K}
      (hleft : Placed (depth + 1) left) (hright : Placed (depth + 1) right)
      (hzeros : ∀ key ∈ left.keys, bit key depth = false)
      (hones : ∀ key ∈ right.keys, bit key depth = true)
      (hdeep : (KeyTree.node left right).isDeep = true)
      (hsides : (left = .empty → right.isDeep = true) ∧
        (right = .empty → left.isDeep = true)) :
      Placed depth (.node left right)

variable {left right : KeyTree K}

/-- Under a deep node some side is a node again. -/
theorem KeyTree.exists_node_side
    (hdeep : (KeyTree.node left right).isDeep = true)
    (hsides : (left = .empty → right.isDeep = true) ∧
      (right = .empty → left.isDeep = true)) :
    (∃ a b, left = .node a b) ∨ ∃ a b, right = .node a b := by
  cases left with
  | node a b => exact .inl ⟨a, b, rfl⟩
  | empty =>
    cases right with
    | node a b => exact .inr ⟨a, b, rfl⟩
    | empty => cases hsides.1 rfl
    | leaf _ => cases hsides.1 rfl
  | leaf _ =>
    cases right with
    | node a b => exact .inr ⟨a, b, rfl⟩
    | empty => cases hsides.2 rfl
    | leaf _ => cases hdeep

/-- A node stands above the last level. -/
theorem Placed.depth_lt (hplaced : Placed bit width depth (.node left right)) :
    depth < width := by
  generalize htree : KeyTree.node left right = t at hplaced
  induction hplaced generalizing left right with
  | empty => cases htree
  | leaf => cases htree
  | twin hdepth hwidth _ _ _ => exact Nat.lt_of_le_of_lt hdepth hwidth
  | deep _ _ _ _ hdeep hsides ihleft ihright =>
    rcases KeyTree.exists_node_side hdeep hsides with ⟨a, b, h⟩ | ⟨a, b, h⟩
    · exact Nat.lt_of_succ_lt (ihleft h.symm)
    · exact Nat.lt_of_succ_lt (ihright h.symm)

/-- A deep node stands above the last two levels. -/
theorem Placed.succ_depth_lt
    (hplaced : Placed bit width depth (.node left right))
    (hdeep : (KeyTree.node left right).isDeep = true) : depth + 1 < width := by
  cases hplaced with
  | twin => cases hdeep
  | deep hleft hright _ _ _ hsides =>
    rcases KeyTree.exists_node_side hdeep hsides with ⟨a, b, rfl⟩ | ⟨a, b, rfl⟩
    · exact hleft.depth_lt
    · exact hright.depth_lt

theorem Placed.raise {t : KeyTree K} (hplaced : Placed bit width (depth + 1) t)
    (hdeep : t.isDeep = false) : Placed bit width depth t := by
  cases hplaced with
  | empty => exact .empty
  | leaf => exact .leaf
  | twin hdepth hwidth hsame hx hy =>
    exact .twin (Nat.le_of_succ_le hdepth) hwidth hsame hx hy
  | deep _ _ _ _ hnode _ => rw [hnode] at hdeep; cases hdeep

theorem Placed.wrap {t : KeyTree K} (hplaced : Placed bit width (depth + 1) t)
    (hside : ∀ key ∈ t.keys, bit key depth = side) :
    Placed bit width depth (.wrap side t) := by
  cases hdeep : t.isDeep with
  | false =>
    rw [KeyTree.wrap, if_neg (by simp [hdeep])]
    exact hplaced.raise hdeep
  | true =>
    have hne : t ≠ .empty := by
      rintro rfl
      cases hdeep
    rw [KeyTree.wrap, if_pos hdeep]
    cases side with
    | true =>
      exact .deep .empty hplaced (by simp [KeyTree.keys]) hside
        (by cases t <;> rfl) ⟨fun _ => hdeep, fun h => absurd h hne⟩
    | false =>
      exact .deep hplaced .empty hside (by simp [KeyTree.keys])
        (by cases t <;> rfl) ⟨fun h => absurd h hne, fun _ => hdeep⟩

theorem placed_build (hbits : ∀ x y : K, (∀ i < width, bit x i = bit y i) → x = y)
    (hlevels : depth + levels = width) (hshares : Shares bit depth keys) :
    Placed bit width depth (build bit levels depth keys) := by
  induction levels generalizing depth keys with
  | zero =>
    cases keys with
    | nil => exact .empty
    | cons head tail => exact .leaf
  | succ levels ih =>
    have hnext : depth + 1 + levels = width := by omega
    rcases half_cases bit keys with ⟨hzeros, hones⟩ | ⟨side, hside⟩
    · have hmem (side : Bool) (key : K) :
          key ∈ (build bit levels (depth + 1) (half bit depth side keys)).keys ↔
            key ∈ keys ∧ bit key depth = side :=
        (mem_keys_build hbits hnext (hshares.half side)).trans mem_half
      have hleftNe := build_ne_empty hbits hnext (hshares.half false) hzeros
      have hrightNe := build_ne_empty hbits hnext (hshares.half true) hones
      have hleft := ih hnext (hshares.half false)
      have hright := ih hnext (hshares.half true)
      have hleftMem := hmem false
      have hrightMem := hmem true
      rw [build_split hzeros hones]
      generalize build bit levels (depth + 1) (half bit depth false keys) =
        left at hleft hleftMem hleftNe
      generalize build bit levels (depth + 1) (half bit depth true keys) =
        right at hright hrightMem hrightNe
      cases hdeep : (KeyTree.node left right).isDeep with
      | true =>
        exact .deep hleft hright (fun key hkey => ((hleftMem key).mp hkey).2)
          (fun key hkey => ((hrightMem key).mp hkey).2) hdeep
          ⟨fun h => absurd h hleftNe, fun h => absurd h hrightNe⟩
      | false =>
        rcases KeyTree.cases_of_not_isDeep hdeep with h | ⟨key, h⟩ | ⟨x, y, h⟩
        · cases h
        · cases h
        · cases h
          obtain ⟨hx, hxbit⟩ := (hleftMem x).mp (mem_singleton.mpr rfl)
          obtain ⟨hy, hybit⟩ := (hrightMem y).mp (mem_singleton.mpr rfl)
          exact .twin (Nat.le_refl _) (by omega) (hshares x hx y hy) hxbit hybit
    · rw [build_forward hside]
      have hmem := fun key =>
        @mem_keys_build K bit levels (depth + 1) width keys hbits hnext
          (hshares.forward hside) key
      exact (ih hnext (hshares.forward hside)).wrap fun key hkey =>
        hside key ((hmem key).mp hkey)

end RadixTree

namespace TokenStream

open List

universe u

variable {A : Type u}

/-- Where the leaf token at the front of a stream ends.  The answer may only
depend on the symbols of the token itself. -/
structure Lexer (A : Type u) where
  marker : A
  len : List A → Option Nat
  pos : ∀ {stream k}, len stream = some k → 0 < k
  stable : ∀ {stream k}, len stream = some k → ∀ back,
    len (stream.take k ++ back) = some k
  not_marker : ∀ stream, len (marker :: stream) = none

namespace Lexer

variable (L : Lexer A)

theorem len_nil : L.len [] = none := by
  cases hlen : L.len [] with
  | none => rfl
  | some k =>
    have hmarker := L.stable hlen [L.marker]
    rw [take_nil, nil_append, L.not_marker] at hmarker
    cases hmarker

/-- The streams that spell exactly one tree. -/
inductive Expr : List A → Prop where
  | token {w : List A} (hlen : L.len w = some w.length) : Expr w
  | pair {front back : List A} (hfront : Expr front) (hback : Expr back) :
      Expr (L.marker :: (front ++ back))

theorem Expr.ne_nil {w : List A} (hw : L.Expr w) : w ≠ [] := by
  cases hw with
  | token hlen =>
    rintro rfl
    rw [L.len_nil] at hlen
    cases hlen
  | pair => simp

theorem head_ne_marker {head : A} {tail : List A} {k : Nat}
    (hlen : L.len (head :: tail) = some k) : head ≠ L.marker := by
  rintro rfl
  rw [L.not_marker] at hlen
  cases hlen

theorem len_append {w : List A} (hlen : L.len w = some w.length)
    (back : List A) : L.len (w ++ back) = some w.length := by
  simpa using L.stable hlen back

variable [DecidableEq A]

/-- Count down `pending` expressions over the stream, which must end with the
last of them. -/
def scan (pending : Nat) (stream : List A) : Bool :=
  match pending, stream with
  | 0, stream => stream.isEmpty
  | _ + 1, [] => false
  | pending + 1, head :: tail =>
    if head = L.marker then scan (pending + 2) tail
    else
      match _hlen : L.len (head :: tail) with
      | none => false
      | some k =>
        if k ≤ (head :: tail).length then
          scan pending ((head :: tail).drop k)
        else false
termination_by stream.length
decreasing_by
  · simp
  · have := L.pos _hlen
    simp only [List.length_drop, List.length_cons]
    omega

/-- The leaf tokens met while scanning for `pending` expressions.  A token the
lexer cannot delimit is reported with everything behind it. -/
def tokens (pending : Nat) (stream : List A) : List (List A) :=
  match pending, stream with
  | 0, _ => []
  | _ + 1, [] => []
  | pending + 1, head :: tail =>
    if head = L.marker then tokens (pending + 2) tail
    else
      match _hlen : L.len (head :: tail) with
      | none => [head :: tail]
      | some k =>
        if k ≤ (head :: tail).length then
          (head :: tail).take k :: tokens pending ((head :: tail).drop k)
        else [head :: tail]
termination_by stream.length
decreasing_by
  · simp
  · have := L.pos _hlen
    simp only [List.length_drop, List.length_cons]
    omega

section Unfold

variable {pending : Nat} {w back tail : List A}

@[simp]
theorem scan_zero (stream : List A) : L.scan 0 stream = stream.isEmpty := by
  rw [scan]

theorem scan_marker :
    L.scan (pending + 1) (L.marker :: tail) = L.scan (pending + 2) tail := by
  rw [scan, if_pos rfl]

/-- A delimited token is skipped, unless the stream ends inside it. -/
theorem scan_of_len {stream : List A} {k : Nat} (hlen : L.len stream = some k) :
    L.scan (pending + 1) stream =
      if k ≤ stream.length then L.scan pending (stream.drop k) else false := by
  cases stream with
  | nil =>
    rw [L.len_nil] at hlen
    cases hlen
  | cons head rest =>
    rw [scan, if_neg (L.head_ne_marker hlen)]
    split
    · rename_i hnone
      rw [hnone] at hlen
      cases hlen
    · rename_i k' hk'
      rw [hk'] at hlen
      cases hlen
      rfl

/-- A leaf the lexer refuses ends the scan. -/
theorem scan_of_none {head : A} (hmarker : head ≠ L.marker)
    (hlen : L.len (head :: tail) = none) :
    L.scan (pending + 1) (head :: tail) = false := by
  rw [scan, if_neg hmarker]
  split
  · rfl
  · rename_i k hk
    rw [hk] at hlen
    cases hlen

theorem tokens_marker :
    L.tokens (pending + 1) (L.marker :: tail) =
      L.tokens (pending + 2) tail := by
  rw [tokens, if_pos rfl]

theorem tokens_token (hlen : L.len w = some w.length) :
    L.tokens (pending + 1) (w ++ back) = w :: L.tokens pending back := by
  have happend := L.len_append hlen back
  cases w with
  | nil =>
    rw [L.len_nil] at hlen
    cases hlen
  | cons head rest =>
    rw [cons_append] at happend ⊢
    rw [tokens, if_neg (L.head_ne_marker happend)]
    split
    · rename_i hnone
      rw [hnone] at happend
      cases happend
    · rename_i k hk
      rw [hk] at happend
      cases happend
      rw [if_pos (by simp), ← cons_append, drop_left, take_left]

theorem tokens_singleton (hlen : L.len w = some w.length) :
    L.tokens 1 w = [w] := by
  have hself : L.tokens 1 (w ++ []) = w :: L.tokens 0 [] := L.tokens_token hlen
  rwa [append_nil, tokens] at hself

end Unfold

/-- Scanning a spelled tree uses up one pending expression. -/
theorem scan_expr {w : List A} (hw : L.Expr w) (pending : Nat)
    (back : List A) : L.scan (pending + 1) (w ++ back) = L.scan pending back := by
  induction hw generalizing pending back with
  | token hlen =>
    rw [L.scan_of_len (L.len_append hlen back), if_pos (by simp), drop_left]
  | pair _ _ ihfront ihback =>
    rw [cons_append, scan_marker, append_assoc, ihfront, ihback]

/-- The tokens of a spelled tree come before those of the rest. -/
theorem tokens_expr {w : List A} (hw : L.Expr w) {pending : Nat}
    {back : List A} :
    L.tokens (pending + 1) (w ++ back) =
      L.tokens 1 w ++ L.tokens pending back := by
  induction hw generalizing pending back with
  | @token w hlen =>
    rw [L.tokens_token hlen, L.tokens_singleton hlen, singleton_append]
  | pair _ _ ihfront ihback =>
    rw [cons_append, tokens_marker, tokens_marker, append_assoc,
      ihfront, ihback, ihfront, append_assoc]

variable {stream : List A}

/-- A scan that succeeds starts with a spelled tree. -/
theorem scan_split {pending : Nat}
    (hscan : L.scan (pending + 1) stream = true) :
    ∃ w back, stream = w ++ back ∧ L.Expr w ∧ L.scan pending back = true := by
  induction hn : stream.length using Nat.strongRecOn
    generalizing pending stream with
  | _ n ih =>
    cases stream with
    | nil => simp [scan] at hscan
    | cons head tail =>
      rw [scan] at hscan
      split_ifs at hscan with hmarker
      · obtain ⟨front, mid, rfl, hfront, hscan⟩ :=
          ih tail.length (by simp [← hn]) hscan rfl
        have hlt : mid.length < n := by
          rw [← hn, length_cons, length_append]
          omega
        obtain ⟨back, rest, rfl, hback, hscan⟩ := ih _ hlt hscan rfl
        exact ⟨head :: (front ++ back), rest, by simp,
          hmarker ▸ .pair hfront hback, hscan⟩
      · split at hscan
        · cases hscan
        · rename_i k hk
          split_ifs at hscan with hle
          refine ⟨(head :: tail).take k, (head :: tail).drop k, ?_, ?_, hscan⟩
          · exact (take_append_drop k _).symm
          · apply Expr.token
            rw [length_take_of_le hle]
            simpa using L.stable hk []

/-- The scanner accepts exactly the streams that spell one tree. -/
theorem scan_one_iff : L.scan 1 stream = true ↔ L.Expr stream := by
  constructor
  · intro hscan
    obtain ⟨w, back, rfl, hw, hback⟩ := L.scan_split hscan
    have hnil : back = [] := by simpa using hback
    rwa [hnil, append_nil]
  · intro hw
    simpa using L.scan_expr hw 0 []

/-- Every leaf token of a spelled tree is delimited by the lexer. -/
theorem len_of_mem_tokens {w token : List A} (hw : L.Expr w)
    (hmem : token ∈ L.tokens 1 w) : L.len token = some token.length := by
  induction hw with
  | @token w hlen =>
    rw [L.tokens_singleton hlen, mem_singleton] at hmem
    rwa [hmem]
  | pair hfront hback ihfront ihback =>
    rw [tokens_marker, L.tokens_expr hfront, mem_append] at hmem
    exact hmem.elim ihfront ihback

/-- `K` delimits only tokens that `L` delimits, in the same way. -/
structure Restricts (K L : Lexer A) : Prop where
  marker : K.marker = L.marker
  len : ∀ {stream k}, K.len stream = some k → L.len stream = some k

/-- A tree spelled for a restricted lexer is one spelled for the full lexer all
of whose leaf tokens are the restricted lexer's. -/
theorem Restricts.expr_iff {K L : Lexer A} (h : K.Restricts L) :
    K.Expr stream ↔ L.Expr stream ∧
      ∀ token ∈ L.tokens 1 stream, K.len token = some token.length := by
  constructor
  · intro hexpr
    induction hexpr with
    | @token w hlen =>
      refine ⟨.token (h.len hlen), fun token hmem => ?_⟩
      rw [L.tokens_singleton (h.len hlen), mem_singleton] at hmem
      rwa [hmem]
    | pair _ _ ihfront ihback =>
      rw [h.marker]
      refine ⟨.pair ihfront.1 ihback.1, fun token hmem => ?_⟩
      rw [tokens_marker, L.tokens_expr ihfront.1, mem_append] at hmem
      exact hmem.elim (ihfront.2 token) (ihback.2 token)
  · rintro ⟨hexpr, hall⟩
    induction hexpr with
    | @token w hlen => exact .token (hall w (by simp [L.tokens_singleton hlen]))
    | pair hfront hback ihfront ihback =>
      rw [tokens_marker, L.tokens_expr hfront] at hall
      rw [← h.marker]
      exact .pair
        (ihfront fun token hmem => hall token (mem_append_left _ hmem))
        (ihback fun token hmem => hall token (mem_append_right _ hmem))

end Lexer

end TokenStream
