/-
The previous-transaction context of a block (`Engine::prev_tx_context`).  The
engine walks through a cache that keeps one record per height, and asks the main
chain by height where the walk stops, so the answer belongs to the block's own
branch only while one of the two does.
-/
import DgXch.CoinRecords

namespace DgXch

open List

/-- `BlockRecordCache`; `byHeight` is in ascending order of heights.  The
sub-epoch summaries kept beside the records are not read here. -/
structure BlockRecordCache where
  capacity : Nat
  byHash : Bytes32 → Option BlockRecord
  byHeight : List (UInt32 × Bytes32)

namespace BlockRecordCache

def new (capacity : Nat) : BlockRecordCache :=
  ⟨max capacity 1, fun _ => none, []⟩

def get (cache : BlockRecordCache) (hash : Bytes32) : Option BlockRecord :=
  cache.byHash hash

/-- `HashMap::remove` on the records by hash. -/
def remove (byHash : Bytes32 → Option BlockRecord) (hash : Bytes32) :
    Bytes32 → Option BlockRecord :=
  fun other => if other = hash then none else byHash other

/-- `BTreeMap::insert` on the hashes by height. -/
def setHeight (height : UInt32) (hash : Bytes32) :
    List (UInt32 × Bytes32) → List (UInt32 × Bytes32)
  | [] => [(height, hash)]
  | (low, lowHash) :: rest =>
    if height < low then (height, hash) :: (low, lowHash) :: rest
    else if height = low then (height, hash) :: rest
    else (low, lowHash) :: setHeight height hash rest

/-- The loop of `insert` that drops the lowest heights. -/
def evict (capacity : Nat) (byHash : Bytes32 → Option BlockRecord) :
    List (UInt32 × Bytes32) → BlockRecordCache
  | [] => ⟨capacity, byHash, []⟩
  | (low, lowHash) :: rest =>
    if rest.length + 1 > capacity then
      evict capacity (remove byHash lowHash) rest
    else ⟨capacity, byHash, (low, lowHash) :: rest⟩

def insert (cache : BlockRecordCache) (record : BlockRecord) :
    BlockRecordCache :=
  let byHash :=
    match cache.byHeight.lookup record.height with
    | some old =>
      if old ≠ record.headerHash then remove cache.byHash old
      else cache.byHash
    | none => cache.byHash
  let byHash := fun hash =>
    if hash = record.headerHash then some record else byHash hash
  evict cache.capacity byHash
    (setHeight record.height record.headerHash cache.byHeight)

end BlockRecordCache

/-- The records in the store, of every branch. -/
structure BlockTree where
  record : Bytes32 → Option BlockRecord
  keyed : ∀ hash r, record hash = some r → r.headerHash = hash

/-- What `prev_tx_context` reads: the cache, the records in the store, and the
main chain by height. -/
structure EngineView where
  cache : BlockRecordCache
  tree : BlockTree
  mainHash : UInt32 → Option Bytes32
  mainHeight : ∀ height hash r, mainHash height = some hash →
    tree.record hash = some r → r.height = height

def EngineView.recordByHeight (view : EngineView) (height : UInt32) :
    Option BlockRecord :=
  (view.mainHash height).bind view.tree.record

def maxPrevTxWalk : Nat := 512

/-- The walk of `prev_tx_context` through the cache, at most `steps` long. -/
def walkToTx (cache : BlockRecordCache) (target : UInt32) :
    Nat → Option BlockRecord → Option (UInt32 × Option UInt64)
  | _, none => none
  | 0, _ => none
  | steps + 1, some r =>
    if r.height = target then some (r.height, r.timestamp)
    else if target < r.height ∧ 0 < r.height then
      walkToTx cache target steps (cache.get r.prevHash)
    else none

def prevTxContext (view : EngineView) (prev candidate : Option BlockRecord) :
    UInt32 × Option UInt64 :=
  match prev with
  | none =>
    match candidate with
    | some c => (c.prevTransactionBlockHeight, none)
    | none => (0, none)
  | some p =>
    if p.isTransactionBlock then (p.height, p.timestamp)
    else
      let target := p.prevTransactionBlockHeight
      match walkToTx view.cache target maxPrevTxWalk
        (view.cache.get p.prevHash) with
      | some context => context
      | none =>
        match view.recordByHeight target with
        | some r => (r.height, r.timestamp)
        | none => (target, none)

/-- The previous-transaction height that a child's record gets from its
parent's (`derive_record`). -/
def childPrevTxHeight (p : BlockRecord) : UInt32 :=
  if p.isTransactionBlock then p.height else p.prevTransactionBlockHeight

/-- The records of a block and its ancestors, newest first, all in the store. -/
inductive Ancestry (tree : BlockTree) : List BlockRecord → Prop where
  | genesis {r : BlockRecord} (hstored : tree.record r.headerHash = some r)
      (hheight : r.height = 0) : Ancestry tree [r]
  | child {r p : BlockRecord} {rest : List BlockRecord}
      (hparent : Ancestry tree (p :: rest))
      (hstored : tree.record r.headerHash = some r)
      (hprev : r.prevHash = p.headerHash)
      (hheight : r.height.toNat = p.height.toNat + 1)
      (hcontext : r.prevTransactionBlockHeight = childPrevTxHeight p) :
      Ancestry tree (r :: p :: rest)

/-- The cache after the given records of the tree were put into it. -/
def cacheOf (capacity : Nat) (inserted : List BlockRecord) : BlockRecordCache :=
  inserted.foldl BlockRecordCache.insert (.new capacity)

namespace BlockRecordCache

/-- A cache shows nothing but records of the tree. -/
def Sound (tree : BlockTree) (cache : BlockRecordCache) : Prop :=
  ∀ hash r, cache.get hash = some r → tree.record hash = some r

variable {tree : BlockTree} {cache : BlockRecordCache}

theorem Sound.get_eq (hsound : Sound tree cache) {a : BlockRecord}
    (hstored : tree.record a.headerHash = some a) :
    cache.get a.headerHash = none ∨ cache.get a.headerHash = some a := by
  cases hget : cache.get a.headerHash with
  | none => exact .inl rfl
  | some found =>
    rw [← hsound _ _ hget, hstored]
    exact .inr rfl

theorem evict_sound (capacity : Nat) (byHeight : List (UInt32 × Bytes32))
    {byHash : Bytes32 → Option BlockRecord}
    (hsound : ∀ hash r, byHash hash = some r → tree.record hash = some r) :
    Sound tree (evict capacity byHash byHeight) := by
  induction byHeight generalizing byHash with
  | nil => exact hsound
  | cons entry rest ih =>
    rw [evict]
    split_ifs with hfull
    · apply ih
      intro hash r hget
      simp only [remove] at hget
      split_ifs at hget
      exact hsound hash r hget
    · exact hsound

theorem insert_sound (hsound : Sound tree cache) {record : BlockRecord}
    (hstored : tree.record record.headerHash = some record) :
    Sound tree (cache.insert record) := by
  apply evict_sound
  intro hash r hget
  split_ifs at hget with hsame
  · rw [hsame, hstored, hget]
  · split at hget
    · split_ifs at hget
      · simp only [remove] at hget
        split_ifs at hget
        exact hsound hash r hget
      · exact hsound hash r hget
    · exact hsound hash r hget

end BlockRecordCache

/-- Whether the cache holds every record of a list. -/
def CachedTo (cache : BlockRecordCache) (records : List BlockRecord) : Prop :=
  ∀ a ∈ records, cache.get a.headerHash = some a

instance (cache : BlockRecordCache) (records : List BlockRecord) :
    Decidable (CachedTo cache records) :=
  inferInstanceAs (Decidable (∀ a ∈ records, cache.get a.headerHash = some a))

section Walk

variable {tree : BlockTree}

theorem Ancestry.stored {r : BlockRecord} {rest : List BlockRecord}
    (hbranch : Ancestry tree (r :: rest)) :
    tree.record r.headerHash = some r := by
  cases hbranch <;> assumption

variable {front back : List BlockRecord}

theorem Ancestry.height_lt {a r : BlockRecord}
    (hbranch : Ancestry tree (a :: front ++ r :: back)) :
    r.height.toNat < a.height.toNat := by
  induction front generalizing a with
  | nil =>
    cases hbranch with
    | child hparent hstored hprev hheight hcontext => omega
  | cons next front ih =>
    cases hbranch with
    | child hparent hstored hprev hheight hcontext =>
      have hlower := ih hparent
      omega

/-- A record carries the height of the nearest transaction block below it. -/
theorem Ancestry.prevTransactionBlockHeight_eq {p r : BlockRecord}
    {rest : List BlockRecord} (hbranch : Ancestry tree (p :: rest))
    (hnearest : rest.find? (·.isTransactionBlock) = some r) :
    p.prevTransactionBlockHeight = r.height := by
  induction rest generalizing p with
  | nil => cases hnearest
  | cons q rest ih =>
    cases hbranch with
    | child hparent hstored hprev hheight hcontext =>
      rw [hcontext, childPrevTxHeight]
      split_ifs with htx
      · rw [find?_cons_of_pos htx] at hnearest
        cases hnearest
        rfl
      · rw [find?_cons_of_neg htx] at hnearest
        exact ih hparent hnearest

/-- The walk reaches the transaction block exactly when it and every block in
between are cached and close enough. -/
theorem walkToTx_eq {cache : BlockRecordCache} (hsound : cache.Sound tree)
    {p r : BlockRecord} (hbranch : Ancestry tree (p :: front ++ r :: back))
    (steps : Nat) :
    if front.length < steps ∧ CachedTo cache (front ++ [r]) then
      walkToTx cache r.height steps (cache.get p.prevHash) =
        some (r.height, r.timestamp)
    else walkToTx cache r.height steps (cache.get p.prevHash) = none := by
  induction steps generalizing front p with
  | zero =>
    rw [if_neg (by simp)]
    cases cache.get p.prevHash <;> rfl
  | succ steps ih =>
    cases front with
    | nil =>
      cases hbranch with
      | child hparent hstored hprev hheight hcontext =>
        rw [hprev]
        rcases hsound.get_eq hparent.stored with hget | hget
        · rw [if_neg (by simp [CachedTo, hget]), hget, walkToTx]
        · rw [if_pos (by simp [CachedTo, hget]), hget, walkToTx, if_pos rfl]
    | cons q front =>
      cases hbranch with
      | child hparent hstored hprev hheight hcontext =>
        rw [hprev]
        rcases hsound.get_eq hparent.stored with hget | hget
        · rw [if_neg (by simp [CachedTo, hget]), hget, walkToTx]
        · have hlower := hparent.height_lt
          have hne : q.height ≠ r.height := by
            intro heq
            rw [heq] at hlower
            omega
          have habove : r.height < q.height ∧ 0 < q.height := by
            rw [UInt32.lt_iff_toNat_lt, UInt32.lt_iff_toNat_lt]
            exact ⟨hlower, Nat.zero_lt_of_lt hlower⟩
          have hcached : CachedTo cache (q :: front ++ [r]) ↔
              CachedTo cache (front ++ [r]) := by
            simp [CachedTo, hget]
          rw [hget, walkToTx, if_neg hne, if_pos habove]
          simpa only [hcached, length_cons, Nat.add_lt_add_iff_right] using
            ih hparent

end Walk

/-- The ancestors that the walk passes before it reaches a transaction block. -/
def passedByWalk (ancestors : List BlockRecord) : List BlockRecord :=
  ancestors.takeWhile fun a => !a.isTransactionBlock

theorem passedByWalk_append {ancestors : List BlockRecord} {r : BlockRecord}
    (hnearest : ancestors.find? (·.isTransactionBlock) = some r) :
    ∃ back, ancestors = passedByWalk ancestors ++ r :: back := by
  induction ancestors with
  | nil => cases hnearest
  | cons a ancestors ih =>
    by_cases htx : a.isTransactionBlock = true
    · rw [find?_cons_of_pos htx] at hnearest
      cases hnearest
      exact ⟨ancestors, by simp [passedByWalk, htx]⟩
    · rw [find?_cons_of_neg htx] at hnearest
      obtain ⟨back, hsplit⟩ := ih hnearest
      refine ⟨back, ?_⟩
      rw [passedByWalk, takeWhile_cons_of_pos (by simp [htx]), cons_append]
      exact congrArg (a :: ·) hsplit

/-- The context of a block with parent `p` is that of the nearest transaction
block `r` of its own branch exactly when `p` is `r`, when the cache still holds
everything down to `r` within the walk's length, or when the main chain answers
the height of `r` with the timestamp of `r`. -/
theorem prevTxContext_branchLocal_iff (view : EngineView)
    {capacity : Nat} {inserted ancestors : List BlockRecord}
    {p r : BlockRecord} (candidate : Option BlockRecord)
    (hcache : view.cache = cacheOf capacity inserted)
    (hinserted : ∀ a ∈ inserted, view.tree.record a.headerHash = some a)
    (hbranch : Ancestry view.tree (p :: ancestors))
    (hnearest : (p :: ancestors).find? (·.isTransactionBlock) = some r) :
    prevTxContext view (some p) candidate = (r.height, r.timestamp) ↔
      p.isTransactionBlock = true ∨
      ((passedByWalk ancestors).length < maxPrevTxWalk ∧
        CachedTo view.cache (passedByWalk ancestors ++ [r])) ∨
      (view.recordByHeight r.height).bind (·.timestamp) = r.timestamp := by
  have hsound : view.cache.Sound view.tree := by
    rw [hcache]
    apply List.foldlRecOn
    · exact fun _ _ hget => nomatch hget
    · exact fun _ hsound r hmem =>
        BlockRecordCache.insert_sound hsound (hinserted r hmem)
  by_cases htx : p.isTransactionBlock = true
  · rw [find?_cons_of_pos htx] at hnearest
    cases hnearest
    simp [prevTxContext, htx]
  rw [find?_cons_of_neg htx] at hnearest
  have htarget := hbranch.prevTransactionBlockHeight_eq hnearest
  obtain ⟨back, hsplit⟩ := passedByWalk_append hnearest
  have hwalk := walkToTx_eq hsound
    (show Ancestry view.tree (p :: passedByWalk ancestors ++ r :: back) by
      rw [cons_append, ← hsplit]
      exact hbranch) maxPrevTxWalk
  simp only [prevTxContext, htx, htarget]
  split_ifs at hwalk with hreached
  · simp [hwalk, hreached]
  · rw [hwalk]
    simp only [hreached, false_or]
    cases hmain : view.recordByHeight r.height with
    | none => simp
    | some other =>
      obtain ⟨hash, hlisted, hstored⟩ := Option.bind_eq_some_iff.mp hmain
      simp [view.mainHeight r.height hash other hlisted hstored]

namespace ForkedContext

/-- A record with the given place in the tree and nothing else of interest. -/
def recordAt (hash prev : UInt8) (height prevTx : UInt32)
    (timestamp : Option UInt64) : BlockRecord where
  headerHash := ⟨List.replicate 32 hash, by simp⟩
  prevHash := ⟨List.replicate 32 prev, by simp⟩
  height := height
  totalIters := 0
  signagePointIndex := 0
  subSlotIters := 0
  requiredIters := 0
  overflow := false
  prevTransactionBlockHeight := prevTx
  timestamp := timestamp

def genesis : BlockRecord := recordAt 1 0 0 0 (some 100)

def mainBlock : BlockRecord := recordAt 2 1 1 0 (some 110)

def sideBlock : BlockRecord := recordAt 3 1 1 0 (some 120)

/-- The block on top of it, which is no transaction block. -/
def sideTop : BlockRecord := recordAt 4 3 2 1 none

def thirdBlock : BlockRecord := recordAt 5 1 1 0 (some 130)

def tree : BlockTree where
  record hash := [genesis, mainBlock, sideBlock, sideTop, thirdBlock].find?
    (·.headerHash = hash)
  keyed hash r hfound := by simpa using List.find?_some hfound

/-- The view of a node whose main chain is `genesis`, `mainBlock` and whose cache
got the given records. -/
def view (inserted : List BlockRecord) : EngineView where
  cache := cacheOf 5120 inserted
  tree := tree
  mainHash height :=
    if height = 0 then some genesis.headerHash
    else if height = 1 then some mainBlock.headerHash
    else none
  mainHeight height hash r hmain hstored := by
    split_ifs at hmain with hzero hone <;> cases hmain <;> cases hstored
    · exact hzero.symm
    · exact hone.symm

theorem ancestry : Ancestry tree [sideTop, sideBlock, genesis] :=
  .child (.child (.genesis (by decide) rfl) (by decide) rfl rfl rfl)
    (by decide) rfl rfl rfl

end ForkedContext

open ForkedContext in
/-- Once a third block at height 1 has pushed `sideBlock` out of the cache, a
child of `sideTop` gets the timestamp of the main chain. -/
theorem prevTxContext_from_main_chain :
    (∀ a ∈ [genesis, mainBlock, sideBlock, sideTop, thirdBlock],
        tree.record a.headerHash = some a) ∧
      Ancestry tree [sideTop, sideBlock, genesis] ∧
      [sideTop, sideBlock, genesis].find? (·.isTransactionBlock) =
        some sideBlock ∧
      prevTxContext (view [genesis, mainBlock, sideBlock, sideTop, thirdBlock])
        (some sideTop) none = (1, some 110) ∧
      sideBlock.timestamp = some 120 :=
  ⟨by decide, ancestry, by decide, by decide, rfl⟩

open ForkedContext in
/-- Before that the cache leads to `sideBlock`. -/
theorem prevTxContext_from_own_branch :
    prevTxContext (view [genesis, mainBlock, sideBlock, sideTop])
      (some sideTop) none = (1, some 120) := by
  have hnearest : [sideTop, sideBlock, genesis].find? (·.isTransactionBlock) =
      some sideBlock := by decide
  have hcached : CachedTo (view [genesis, mainBlock, sideBlock, sideTop]).cache
      [sideBlock] := by decide
  exact (prevTxContext_branchLocal_iff _ none rfl (by decide) ancestry
    hnearest).mpr (.inr (.inl ⟨by decide, hcached⟩))

end DgXch
