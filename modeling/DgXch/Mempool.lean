/-
The mempool as a state machine: admission with its fee gates, conflicts and
evictions, the two caches of bundles set aside, and `new_peak` and
`revalidate_for_reorg` when the chain moves.  Every call is made of a few moves,
and a property of single items that survives these moves holds in every run.

Rates are compared as binary64 numbers, as the source does.  A hash map is an
association list; the order in which one is walked is an argument where it
decides what happens.  The fee estimator only listens and is left out.
-/
import DgXch.CoinRecords
import DgXch.KeyedTable

namespace DgXch

structure SpendBundle where
  coinSpends : List CoinSpend
  aggregatedSignature : Bytes
deriving Repr, DecidableEq

/-- What the mempool takes from other crates: the hash behind coin ids,
`SpendBundle::name` and `supports_fast_forward`. -/
structure MempoolSeams where
  sha256 : HashFn
  name : SpendBundle → Except String Bytes32
  supportsFastForward : CoinSpend → Bool

structure BundleCoinSpend where
  coinSpend : CoinSpend
  eligibleForDedup : Bool
  additions : List Coin
  cost : UInt64
  latestSingletonLineage : Option UnspentLineageInfo
deriving Repr, DecidableEq

namespace BundleCoinSpend

def supportsFastForward (bcs : BundleCoinSpend) : Bool :=
  bcs.latestSingletonLineage.isSome

def coinId (sha256 : HashFn) (bcs : BundleCoinSpend) : Bytes32 :=
  bcs.coinSpend.coin.name sha256

/-- Whether the spend rides on the singleton version `coinId`. -/
def ridesOn (coinId : Bytes32) (bcs : BundleCoinSpend) : Bool :=
  bcs.latestSingletonLineage.any fun lineage => lineage.coinId = coinId

end BundleCoinSpend

structure EffectiveTimelocks where
  assertHeight : UInt32
  assertSeconds : UInt64
  assertBeforeHeight : Option UInt32
  assertBeforeSeconds : Option UInt64
deriving Repr, DecidableEq

/-- Confirmation height and timestamp of a removal, where it is known. -/
abbrev RemovalTimes := Bytes32 → Option (UInt32 × UInt64)

/-- The body of the loop of `effective_timelocks`. -/
def EffectiveTimelocks.fold (tl : EffectiveTimelocks) (spend : Spend)
    (confirmed : UInt32) (timestamp : UInt64) : EffectiveTimelocks where
  assertHeight := match spend.heightRelative with
    | some rel => max tl.assertHeight (saturatingAdd32 confirmed rel)
    | none => tl.assertHeight
  assertSeconds := match spend.secondsRelative with
    | some rel => max tl.assertSeconds (saturatingAdd64 timestamp rel)
    | none => tl.assertSeconds
  assertBeforeHeight := match spend.beforeHeightRelative with
    | some rel => tighten tl.assertBeforeHeight (saturatingAdd32 confirmed rel)
    | none => tl.assertBeforeHeight
  assertBeforeSeconds := match spend.beforeSecondsRelative with
    | some rel => tighten tl.assertBeforeSeconds (saturatingAdd64 timestamp rel)
    | none => tl.assertBeforeSeconds

variable (conds : SpendBundleConditions)

def effectiveTimelocks (records : RemovalTimes) : EffectiveTimelocks :=
  conds.spends.foldl (fun tl spend =>
    match records spend.coinId with
    | none => tl
    | some (confirmed, timestamp) => tl.fold spend confirmed timestamp)
    ⟨conds.heightAbsolute, conds.secondsAbsolute, conds.beforeHeightAbsolute,
      conds.beforeSecondsAbsolute⟩

inductive TimelockFailure where
  | assertHeightAbsolute
  | assertHeightRelative
  | assertSecondsAbsolute
  | assertSecondsRelative
  | assertMyBirthHeight
  | assertMyBirthSeconds
  | assertBeforeHeightAbsolute
  | assertBeforeHeightRelative
  | assertBeforeSecondsAbsolute
  | assertBeforeSecondsRelative
  | impossibleHeightConstraints
  | impossibleSecondsConstraints
deriving Repr, DecidableEq

inductive TimelockCheck where
  | park (failure : TimelockFailure)
  | expired (failure : TimelockFailure)
  | notMet (failure : TimelockFailure)
deriving Repr, DecidableEq

/-- The absolute half of `check_time_locks`. -/
def checkAbsoluteLocks (prevHeight : UInt32) (prevTimestamp : UInt64) :
    Option TimelockCheck :=
  if prevHeight < conds.heightAbsolute then
    some (.park .assertHeightAbsolute)
  else if prevTimestamp < conds.secondsAbsolute then
    some (.notMet .assertSecondsAbsolute)
  else if conds.beforeHeightAbsolute.any (· ≤ prevHeight) then
    some (.expired .assertBeforeHeightAbsolute)
  else if conds.beforeSecondsAbsolute.any (· ≤ prevTimestamp) then
    some (.expired .assertBeforeSecondsAbsolute)
  else none

/-- The body of the loop of `check_time_locks`. -/
def checkSpendLocks (spend : Spend) (confirmed : UInt32) (timestamp : UInt64)
    (prevHeight : UInt32) (prevTimestamp : UInt64) : Option TimelockCheck :=
  if spend.birthHeight.any (· ≠ confirmed) then
    some (.notMet .assertMyBirthHeight)
  else if spend.birthSeconds.any (· ≠ timestamp) then
    some (.notMet .assertMyBirthSeconds)
  else if spend.heightRelative.any
      fun rel => prevHeight < saturatingAdd32 confirmed rel then
    some (.park .assertHeightRelative)
  else if spend.secondsRelative.any
      fun rel => prevTimestamp < saturatingAdd64 timestamp rel then
    some (.notMet .assertSecondsRelative)
  else if spend.beforeHeightRelative.any
      fun rel => saturatingAdd32 confirmed rel ≤ prevHeight then
    some (.expired .assertBeforeHeightRelative)
  else if spend.beforeSecondsRelative.any
      fun rel => saturatingAdd64 timestamp rel ≤ prevTimestamp then
    some (.expired .assertBeforeSecondsRelative)
  else none

def checkTimeLocks (records : RemovalTimes) (prevHeight : UInt32)
    (prevTimestamp : UInt64) : Option TimelockCheck :=
  (checkAbsoluteLocks conds prevHeight prevTimestamp).or
    (conds.spends.findSome? fun spend => do
      let (confirmed, timestamp) ← records spend.coinId
      checkSpendLocks spend confirmed timestamp prevHeight prevTimestamp)

inductive MempoolError where
  | noPeak
  | zeroCost
  | costExceedsMax (cost : UInt64)
  | unknownUnspent (coinId : Bytes32)
  | doubleSpend (coinId : Bytes32)
  | conflict (coinId : Bytes32)
  | pending (name : Bytes32) (failure : TimelockFailure)
  | expired (name : Bytes32) (failure : TimelockFailure)
  | timelockNotMet (name : Bytes32) (failure : TimelockFailure)
  | impossibleTimelock (name : Bytes32) (failure : TimelockFailure)
  | feeTooLow
  | feeNearZero
  | feeLimitExceeded
  | nonCanonicalSolution (coinId : Bytes32)
  | alreadyIncluding (name : Bytes32)
  | invalidSpendBundle (text : String)
  | name (text : String)
  | store (error : StoreError)
deriving Repr, DecidableEq

structure MempoolItem where
  bundle : SpendBundle
  conds : SpendBundleConditions
  name : Bytes32
  fee : UInt64
  cost : UInt64
  spends : Nat
  removals : List Bytes32
  bundleCoinSpends : List BundleCoinSpend
  timelocks : EffectiveTimelocks
  heightAdded : UInt32
  seq : UInt64
deriving Repr, DecidableEq

def spendPenaltyCost : UInt64 := 500000

namespace MempoolItem

variable (item : MempoolItem)

def feePerCost : Float :=
  if item.cost = 0 then 0 else item.fee.toFloat / item.cost.toFloat

def feePerVirtualCost : Float :=
  let vcost := saturatingAdd64 item.cost
    (UInt64.ofNat item.spends * spendPenaltyCost)
  if vcost = 0 then 0 else item.fee.toFloat / vcost.toFloat

def bundleCoinSpend (sha256 : HashFn) (item : MempoolItem)
    (coinId : Bytes32) : Option BundleCoinSpend :=
  item.bundleCoinSpends.find? fun bcs => bcs.coinId sha256 = coinId

/-- `index_keys`: a fast-forward spend is filed under the latest version of
its singleton. -/
def indexKeys (sha256 : HashFn) (item : MempoolItem) : List Bytes32 :=
  item.removals.map fun coinId =>
    match (item.bundleCoinSpend sha256 coinId).bind
        BundleCoinSpend.latestSingletonLineage with
    | some lineage => lineage.coinId
    | none => coinId

/-- Move the spends that ride on one singleton version to the next one. -/
def rebase (spend : Bytes32) (lineage : UnspentLineageInfo) : MempoolItem :=
  { item with bundleCoinSpends := item.bundleCoinSpends.map fun bcs =>
      if bcs.ridesOn spend then
        { bcs with latestSingletonLineage := some lineage }
      else bcs }

end MempoolItem

/-- `u64::try_from(removal_amount.saturating_sub(addition_amount))
.unwrap_or(u64::MAX)`: the fee as every admission path computes it. -/
def feeOf : UInt64 := clampU64 (conds.removalAmount - conds.additionAmount)

structure PendingEntry where
  bundle : SpendBundle
  conds : SpendBundleConditions
  fee : UInt64
  cost : UInt64
  assertHeight : UInt32
deriving Repr, DecidableEq

structure ConflictEntry where
  bundle : SpendBundle
  conds : SpendBundleConditions
  fee : UInt64
  cost : UInt64
deriving Repr, DecidableEq

/-- A `HashMap` keyed by 32-byte ids. -/
abbrev IdMap (V : Type) := AList fun _ : Bytes32 => V

def IdMap.values {V : Type} (map : IdMap V) : List V :=
  map.entries.map fun entry => entry.2

structure Mempool where
  maxTotalCost : UInt64
  maxTxCost : UInt64
  maxBlockClvmCost : UInt64
  totalCost : UInt64 := 0
  totalFee : UInt64 := 0
  peak : Option (UInt32 × UInt64) := none
  items : IdMap MempoolItem := ∅
  byCoin : IdMap (List Bytes32) := ∅
  seq : UInt64 := 0
  pending : IdMap PendingEntry := ∅
  conflict : IdMap ConflictEntry := ∅
  conflictOrder : List Bytes32 := []
  conflictCost : UInt64 := 0
  conflictCacheMaxCost : UInt64
  seen : Finset Bytes32 := ∅
  seenOrder : List Bytes32 := []
deriving DecidableEq

def mempoolMinFeeIncrease : UInt64 := 10000000

def pendingCacheCap : Nat := 100

def conflictCacheMaxSize : Nat := 1000

def mempoolItemFeeLimit : UInt64 := 1125899906842624

def nonzeroFeeMinimumFpc : Float := 5

def expiringBlockCutoff : UInt32 := 48

def expiringTimeCutoff : UInt64 := 900

def seenCacheSize : Nat := 10000

namespace Mempool

def new (constants : ConsensusConstants) (mempoolBlockBuffer : UInt64) :
    Mempool where
  maxTotalCost :=
    clampU64 (constants.maxBlockCostClvm.toNat * mempoolBlockBuffer.toNat)
  maxTxCost := constants.maxBlockCostClvm / 2
  maxBlockClvmCost := saturatingSub64 constants.maxBlockCostClvm
    (2 * constants.costPerByte + 20)
  conflictCacheMaxCost := constants.maxBlockCostClvm

/-- The loop of `add_seen` that drops the oldest ids. -/
def trimSeen : List Bytes32 → Finset Bytes32 → List Bytes32 × Finset Bytes32
  | [], seen => ([], seen)
  | oldest :: order, seen =>
    if seenCacheSize < (oldest :: order).length then
      trimSeen order (seen.erase oldest)
    else (oldest :: order, seen)

variable (m : Mempool) (name : Bytes32)

def addSeen : Mempool :=
  if name ∈ m.seen then m
  else
    let (seenOrder, seen) :=
      trimSeen (m.seenOrder ++ [name]) (insert name m.seen)
    { m with seenOrder, seen }

def removeSeen : Mempool :=
  if name ∈ m.seen then
    { m with
      seen := m.seen.erase name
      seenOrder := m.seenOrder.filter (· ≠ name) }
  else m

def atFullCapacity (cost : UInt64) : Bool :=
  m.maxTotalCost < saturatingAdd64 m.totalCost cost

/-- Lowest fee per cost first, the newest first among equals. -/
def rateOrder (a b : MempoolItem) : Bool :=
  if a.feePerCost < b.feePerCost then true
  else if b.feePerCost < a.feePerCost then false
  else b.seq ≤ a.seq

def minFeeRateLoop (m : Mempool) (cost : UInt64) :
    List MempoolItem → UInt64 → Option Float
  | [], _ => none
  | item :: rest, current =>
    let current := current - item.cost
    if saturatingAdd64 current cost ≤ m.maxTotalCost then
      some item.feePerCost
    else minFeeRateLoop m cost rest current

def getMinFeeRate (cost : UInt64) : Option Float :=
  if m.atFullCapacity cost then
    minFeeRateLoop m cost (m.items.values.mergeSort rateOrder) m.totalCost
  else some 0

/-- The fee gates of `admit`: the cap on one fee, the head room of the sum and,
at capacity, the rate to beat. -/
def checkFee (fee cost : UInt64) : Except MempoolError Unit :=
  if mempoolItemFeeLimit < fee ∨ 0x7fffffffffffffff - m.totalFee ≤ fee then
    .error .feeLimitExceeded
  else if m.atFullCapacity cost then
    let feesPerCost := fee.toFloat / cost.toFloat
    if feesPerCost < nonzeroFeeMinimumFpc then .error .feeNearZero
    else match m.getMinFeeRate cost with
      | none => .error .feeTooLow
      | some minFeeRate =>
        if feesPerCost ≤ minFeeRate then .error .feeTooLow else .ok ()
  else .ok ()

section Pool

variable (seams : MempoolSeams) (m : Mempool) (name : Bytes32)

/-- `remove_inner`, which is also `remove` without the fee estimator. -/
def remove : Mempool :=
  match m.items.lookup name with
  | none => m
  | some item =>
    { m with
      items := m.items.erase name
      totalCost := saturatingSub64 m.totalCost item.cost
      totalFee := saturatingSub64 m.totalFee item.fee
      byCoin := (item.indexKeys seams.sha256).foldl (KeyedTable.dropOwner name)
        m.byCoin }

def removeAll (names : List Bytes32) : Mempool := names.foldl (remove seams) m

/-- Highest fee per virtual cost first, the oldest first among equals. -/
def priorityOrder (a b : MempoolItem) : Bool :=
  if b.feePerVirtualCost < a.feePerVirtualCost then true
  else if a.feePerVirtualCost < b.feePerVirtualCost then false
  else a.seq ≤ b.seq

def expiresSoon (tl : EffectiveTimelocks) : Bool :=
  let (peakHeight, peakTimestamp) := m.peak.getD (0, 0)
  tl.assertBeforeHeight.any
      (· < saturatingAdd32 peakHeight expiringBlockCutoff) ||
    tl.assertBeforeSeconds.any
      (· < saturatingAdd64 peakTimestamp expiringTimeCutoff)

/-- Pair the items of a list with the running sum of their costs. -/
def withRunningCost (running : UInt64) :
    List MempoolItem → List (MempoolItem × UInt64)
  | [] => []
  | item :: rest =>
    let running := saturatingAdd64 running item.cost
    (item, running) :: withRunningCost running rest

/-- The pruning loop over the expiring items, lowest priority first. -/
def expiringLoop (m : Mempool) (item : MempoolItem) :
    List (MempoolItem × UInt64) → Except MempoolError (List Bytes32)
  | [] => .ok []
  | (row, cumulative) :: rest =>
    if saturatingAdd64 cumulative item.cost ≤ m.maxBlockClvmCost then .ok []
    else if item.feePerVirtualCost < row.feePerVirtualCost then
      .error .feeTooLow
    else do
      let names ← expiringLoop m item rest
      .ok (row.name :: names)

variable (item : MempoolItem)

/-- The items that `add_to_pool` evicts to stay within the budget of items that
expire soon. -/
def expiringEvictions : Except MempoolError (List Bytes32) :=
  if m.expiresSoon item.timelocks then
    let expiring := m.items.values.filter fun i => m.expiresSoon i.timelocks
    expiringLoop m item
      (withRunningCost 0 (expiring.mergeSort priorityOrder)).reverse
  else .ok []

/-- The items that `add_to_pool` evicts from a full pool. -/
def fullEvictions : List Bytes32 :=
  if m.maxTotalCost < saturatingAdd64 m.totalCost item.cost then
    let budget := saturatingSub64 m.maxTotalCost item.cost
    let rows := withRunningCost 0 (m.items.values.mergeSort priorityOrder)
    (rows.filter fun row => budget < row.2).map fun row => row.1.name
  else []

/-- The end of `add_to_pool`: the item enters the map, the index and the
totals. -/
def enter : Mempool :=
  { m with
    byCoin := (item.indexKeys seams.sha256).foldl
      (KeyedTable.addOwner item.name) m.byCoin
    totalCost := m.totalCost + item.cost
    totalFee := m.totalFee + item.fee
    items := m.items.insert item.name item }

def addToPool : Except MempoolError Unit × Mempool :=
  match m.expiringEvictions item with
  | .error e => (.error e, m)
  | .ok names =>
    let m := removeAll seams m names
    let m := removeAll seams m (m.fullEvictions item)
    (.ok (), enter seams m item)

variable (store : CoinStoreReads)

def joinCoinSpend (conds : SpendBundleConditions) (coinSpend : CoinSpend) :
    Except MempoolError BundleCoinSpend :=
  let coinId := coinSpend.coin.name seams.sha256
  match conds.spends.find? fun s => s.coinId = coinId with
  | none => .error (.invalidSpendBundle "coin spend missing from conditions")
  | some spendConds =>
    let dedup := spendConds.flags &&& eligibleForDedup ≠ 0
    if dedup ∧ ¬ isClvmCanonical coinSpend.solution then
      .error (.nonCanonicalSolution coinId)
    else do
      let lineage ←
        if spendConds.flags &&& eligibleForFf ≠ 0 ∧
            seams.supportsFastForward coinSpend then
          (store.getUnspentLineageInfo spendConds.puzzleHash).mapError .store
        else .ok none
      .ok {
        coinSpend, eligibleForDedup := dedup
        additions := spendConds.createCoin.map fun newCoin =>
          ⟨coinId, newCoin.puzzleHash, newCoin.amount⟩
        cost := saturatingAdd64 spendConds.conditionCost
          spendConds.executionCost
        latestSingletonLineage := lineage }

variable (bundle : SpendBundle) (conds : SpendBundleConditions)

def buildBundleCoinSpends : Except MempoolError (List BundleCoinSpend) :=
  if bundle.coinSpends = [] then .ok []
  else do
    let out ← bundle.coinSpends.mapM (joinCoinSpend seams store conds)
    if out.all BundleCoinSpend.supportsFastForward then
      .error (.invalidSpendBundle "all spends are fast-forward")
    else .ok out

/-- The map `records` of `admit`: the stored removals, and the ones the bundle
creates itself as of the block after the peak. -/
def removalTimes (storeRecords : List CoinRecord) (created : List Bytes32)
    (removals : List Bytes32) (peakHeight : UInt32) (peakTimestamp : UInt64) :
    Except MempoolError RemovalTimes :=
  let stored : RemovalTimes := fun coinId =>
    (storeRecords.reverse.find? fun r => r.coin.name seams.sha256 = coinId).map
      fun r => (r.confirmedBlockIndex, r.timestamp)
  match removals.find? fun coinId =>
      (stored coinId).isNone && coinId ∉ created with
  | some coinId => .error (.unknownUnspent coinId)
  | none => .ok fun coinId => (stored coinId).or
      (if coinId ∈ removals then
        some (saturatingAdd32 peakHeight 1, peakTimestamp) else none)

/-- A stored removal that is spent and cannot be fast-forwarded. -/
def doubleSpent (storeRecords : List CoinRecord)
    (bundleCoinSpends : List BundleCoinSpend) : Option Bytes32 :=
  (storeRecords.find? fun r => r.spent &&
    !((bundleCoinSpends.find? fun bcs =>
        bcs.coinId seams.sha256 = r.coin.name seams.sha256).any
      BundleCoinSpend.supportsFastForward)).map
    fun r => r.coin.name seams.sha256

/-- Whether a resident item that is filed under a coin conflicts with a new
spend of it. -/
def isConflict (newBcs : Option BundleCoinSpend) (item : MempoolItem)
    (coinId : Bytes32) : Except MempoolError Bool :=
  let newFf := newBcs.any BundleCoinSpend.supportsFastForward
  let newDedup := newBcs.any BundleCoinSpend.eligibleForDedup
  let existing := (item.bundleCoinSpend seams.sha256 coinId).or
    (item.bundleCoinSpends.find? (BundleCoinSpend.ridesOn coinId))
  match existing with
  | none =>
    if item.bundleCoinSpends = [] then .ok true
    else .error (.invalidSpendBundle "indexed coin missing from mempool item")
  | some existing =>
    if ¬ newFf ∧ ¬ newDedup then .ok true
    else if newFf ∧ ¬ existing.supportsFastForward then .ok true
    else if newDedup ∧ ¬ existing.eligibleForDedup then .ok true
    else .ok (newDedup && newBcs.any fun b =>
      b.coinSpend.solution ≠ existing.coinSpend.solution)

/-- The body of the inner loop of the conflict search. -/
def conflictStep (newBcs : Option BundleCoinSpend) (coinId : Bytes32)
    (names : List Bytes32) (owner : Bytes32) :
    Except MempoolError (List Bytes32) :=
  if owner ∈ names then .ok names
  else match m.items.lookup owner with
    | none => .ok names
    | some item => do
        let conflict ← isConflict seams newBcs item coinId
        .ok (if conflict then names ++ [owner] else names)

/-- The resident items that conflict with a bundle. -/
def conflictNames (removals : List Bytes32)
    (bundleCoinSpends : List BundleCoinSpend) :
    Except MempoolError (List Bytes32) :=
  removals.foldlM (fun names coinId =>
    ((m.byCoin.lookup coinId).getD []).foldlM
      (conflictStep seams m
        (bundleCoinSpends.find? fun b => b.coinId seams.sha256 = coinId)
        coinId) names) []

/-- The stricter of two optional upper bounds. -/
def stricter {A : Type} [Min A] : Option A → Option A → Option A
  | some a, some b => some (min a b)
  | some a, none => some a
  | none, b => b

def canReplace (conflicting : List Bytes32) (newRemovals : List Bytes32)
    (newFee newCost : UInt64) (newTimelocks : EffectiveTimelocks)
    (newBundleCoinSpends : List BundleCoinSpend) : Bool :=
  match conflicting.mapM m.items.lookup with
  | none => false
  | some items =>
    let fees := items.foldl (fun sum i => saturatingAdd64 sum i.fee) 0
    let cost := items.foldl (fun sum i => saturatingAdd64 sum i.cost) 0
    let existing := items.flatMap MempoolItem.bundleCoinSpends
    let keeps (kind : BundleCoinSpend → Bool) : Bool :=
      (existing.filter kind).all fun bcs =>
        (newBundleCoinSpends.find? fun b =>
          b.coinId seams.sha256 = bcs.coinId seams.sha256).any kind
    (items.all fun i => i.removals.all (· ∈ newRemovals)) &&
    fees.toNat * newCost.toNat < newFee.toNat * cost.toNat &&
    mempoolMinFeeIncrease ≤ saturatingSub64 newFee fees &&
    newTimelocks.assertHeight =
      items.foldl (fun h i => max h i.timelocks.assertHeight) 0 &&
    newTimelocks.assertBeforeHeight =
      items.foldl (fun b i => stricter b i.timelocks.assertBeforeHeight)
        none &&
    newTimelocks.assertBeforeSeconds =
      items.foldl (fun b i => stricter b i.timelocks.assertBeforeSeconds)
        none &&
    keeps BundleCoinSpend.supportsFastForward &&
    keeps BundleCoinSpend.eligibleForDedup

/-- The entry of `park_pending` with the highest assert height. -/
def worstPending (pending : IdMap PendingEntry) : Option Bytes32 :=
  (pending.entries.foldl (fun worst entry =>
    match worst with
    | none => some (entry.1, entry.2.assertHeight)
    | some (name, height) =>
      if height ≤ entry.2.assertHeight then
        some (entry.1, entry.2.assertHeight)
      else some (name, height)) none).map Prod.fst

def parkPending (assertHeight : UInt32) : Mempool :=
  let pending :=
    if pendingCacheCap ≤ m.pending.entries.length then
      match worstPending m.pending with
      | some worst => m.pending.erase worst
      | none => m.pending
    else m.pending
  { m with
    pending := pending.insert name
      ⟨bundle, conds, feeOf conds, max conds.cost 1, assertHeight⟩ }

/-- The eviction loop of `cache_conflict`, oldest first. -/
def trimConflict (maxCost : UInt64) :
    List Bytes32 → IdMap ConflictEntry → UInt64 →
      List Bytes32 × IdMap ConflictEntry × UInt64
  | [], conflict, cost => ([], conflict, cost)
  | oldest :: order, conflict, cost =>
    if maxCost < cost ∨ conflictCacheMaxSize < conflict.entries.length then
      match conflict.lookup oldest with
      | none => trimConflict maxCost order conflict cost
      | some evicted => trimConflict maxCost order (conflict.erase oldest)
          (saturatingSub64 cost evicted.cost)
    else (oldest :: order, conflict, cost)

def cacheConflict (fee cost : UInt64) : Mempool :=
  if name ∈ m.conflict then m
  else
    let (conflictOrder, conflict, conflictCost) :=
      trimConflict m.conflictCacheMaxCost (m.conflictOrder ++ [name])
        (m.conflict.insert name ⟨bundle, conds, fee, cost⟩)
        (saturatingAdd64 m.conflictCost cost)
    { m with conflictOrder, conflict, conflictCost }

/-- What the checks of `admit` establish before time locks and conflicts. -/
structure Checked where
  bundleCoinSpends : List BundleCoinSpend
  records : RemovalTimes
  peakHeight : UInt32
  peakTimestamp : UInt64

/-- The checks of `admit` up to the double-spend check. -/
def checkBundle : Except MempoolError Checked :=
  match m.peak with
  | none => .error .noPeak
  | some (peakHeight, peakTimestamp) =>
    if conds.cost = 0 then .error .zeroCost
    else if m.maxTxCost < conds.cost then .error (.costExceedsMax conds.cost)
    else do
      let removals := removalsForConditions conds
      let created := (additionsForConditions conds).map
        (Coin.name seams.sha256)
      let bundleCoinSpends ← buildBundleCoinSpends seams store bundle conds
      let storeRecords ← (store.getCoinRecords removals).mapError .store
      let records ← removalTimes seams storeRecords created removals
        peakHeight peakTimestamp
      m.checkFee (feeOf conds) conds.cost
      match doubleSpent seams storeRecords bundleCoinSpends with
      | some coinId => .error (.doubleSpend coinId)
      | none => .ok ⟨bundleCoinSpends, records, peakHeight, peakTimestamp⟩

/-- The bounds of `effective_timelocks` that no block can meet. -/
def impossibleTimelock (timelocks : EffectiveTimelocks) :
    Option TimelockFailure :=
  if timelocks.assertBeforeHeight.any (· ≤ timelocks.assertHeight) then
    some .impossibleHeightConstraints
  else if timelocks.assertBeforeSeconds.any (· ≤ timelocks.assertSeconds) then
    some .impossibleSecondsConstraints
  else none

/-- The item that an admission builds. -/
def newItem (checked : Checked) : MempoolItem where
  bundle := bundle
  conds := conds
  name := name
  fee := feeOf conds
  cost := conds.cost
  spends := conds.spends.length
  removals := removalsForConditions conds
  bundleCoinSpends := checked.bundleCoinSpends
  timelocks := effectiveTimelocks conds checked.records
  heightAdded := checked.peakHeight
  seq := m.seq

/-- The end of `admit`: the item takes the next sequence number and joins the
pool. -/
def admitItem (checked : Checked) : Except MempoolError Bytes32 × Mempool :=
  let (result, m) := addToPool seams { m with seq := m.seq + 1 }
    (newItem m name bundle conds checked)
  (result.map fun _ => name, m)

def admitConflicting (checked : Checked) :
    Except MempoolError Bytes32 × Mempool :=
  let removals := removalsForConditions conds
  match conflictNames seams m removals checked.bundleCoinSpends with
  | .error e => (.error e, m)
  | .ok names =>
    if names ≠ [] ∧ ¬ canReplace seams m names removals (feeOf conds)
        conds.cost (effectiveTimelocks conds checked.records)
        checked.bundleCoinSpends then
      let first := (removals.find? (· ∈ m.byCoin)).getD Bytes32.zero
      (.error (.conflict first),
        m.cacheConflict name bundle conds (feeOf conds) conds.cost)
    else admitItem seams (removeAll seams m names) name bundle conds checked

def admitBundle : Except MempoolError Bytes32 × Mempool :=
  match seams.name bundle with
  | .error e => (.error (.name e), m)
  | .ok name =>
    if name ∈ m.items then (.ok name, m)
    else match checkBundle seams m store bundle conds with
      | .error e => (.error e, m)
      | .ok checked =>
        let timelocks := effectiveTimelocks conds checked.records
        match impossibleTimelock timelocks with
        | some failure => (.error (.impossibleTimelock name failure), m)
        | none =>
          match checkTimeLocks conds checked.records checked.peakHeight
              checked.peakTimestamp with
          | some (.park failure) => (.error (.pending name failure),
              m.parkPending name bundle conds timelocks.assertHeight)
          | some (.expired failure) => (.error (.expired name failure), m)
          | some (.notMet failure) => (.error (.timelockNotMet name failure), m)
          | none => admitConflicting seams m name bundle conds checked

end Pool

end Mempool

namespace Mempool

section Peak

variable (seams : MempoolSeams)

/-- The items whose effective upper bound a peak has passed. -/
def expiredNames (m : Mempool) (height : UInt32) (timestamp : UInt64) :
    List Bytes32 :=
  (m.items.values.filter fun i =>
    i.timelocks.assertBeforeHeight.any (· ≤ height) ||
      i.timelocks.assertBeforeSeconds.any (· ≤ timestamp)).map
    MempoolItem.name

/-- What `new_peak` collects from the coins a block spent: the items to remove
and the fast-forward spends to look at again. -/
structure Touched where
  toRemove : List Bytes32 := []
  deferredFf : List (Bytes32 × Bytes32) := []

def touchOwner (m : Mempool) (spend : Bytes32) (touched : Touched)
    (owner : Bytes32) : Touched :=
  if owner ∈ touched.toRemove then touched
  else match m.items.lookup owner with
    | none => touched
    | some item =>
      let fastForward :=
        match item.bundleCoinSpend seams.sha256 spend with
        | some bcs => bcs.supportsFastForward
        | none => item.bundleCoinSpends.any (BundleCoinSpend.ridesOn spend)
      if fastForward then
        { touched with deferredFf := touched.deferredFf ++ [(spend, owner)] }
      else { touched with toRemove := touched.toRemove ++ [owner] }

/-- The loop of `new_peak` over the spent coins. -/
def touchSpent (m : Mempool) (spent : List Bytes32) : Touched :=
  spent.foldl (fun touched spend =>
    ((m.byCoin.lookup spend).getD []).foldl (touchOwner seams m spend) touched)
    {}

/-- One fast-forward spend that needs a fresh lineage. -/
structure FfLookup where
  owner : Bytes32
  spend : Bytes32
  puzzleHash : Bytes32

/-- Phase A of the rebase for one deferred spend. -/
def ffLookupsOf (m : Mempool) (state : List Bytes32 × List FfLookup)
    (deferred : Bytes32 × Bytes32) : List Bytes32 × List FfLookup :=
  let (toRemove, lookups) := state
  let (spend, owner) := deferred
  if owner ∈ toRemove then state
  else match m.items.lookup owner with
    | none => state
    | some item =>
      match item.bundleCoinSpends.filter (BundleCoinSpend.ridesOn spend) with
      | [] => (toRemove ++ [owner], lookups)
      | riding => (toRemove, lookups ++ riding.map fun bcs =>
        ⟨owner, spend, bcs.coinSpend.coin.puzzleHash⟩)

/-- `items.get_mut(name)`. -/
def modifyItem (m : Mempool) (name : Bytes32)
    (change : MempoolItem → MempoolItem) : Mempool :=
  match m.items.lookup name with
  | none => m
  | some item => { m with items := m.items.insert name (change item) }

/-- An index entry that follows a singleton to its new version. -/
structure IndexUpdate where
  newCoinId : Bytes32
  currentCoinId : Bytes32
  owner : Bytes32

/-- What phase C threads through its loop. -/
structure Rebased where
  pool : Mempool
  toRemove : List Bytes32
  updates : List IndexUpdate := []

/-- Phase C of the rebase for one lookup. -/
def rebaseStep (lineageOf : Bytes32 → Option UnspentLineageInfo)
    (state : Rebased) (lookup : FfLookup) : Rebased :=
  if lookup.owner ∈ state.toRemove then state
  else match lineageOf lookup.puzzleHash with
    | none => { state with toRemove := state.toRemove ++ [lookup.owner] }
    | some lineage =>
      { state with
        pool := state.pool.modifyItem lookup.owner
          (MempoolItem.rebase · lookup.spend lineage)
        updates := state.updates ++
          [⟨lineage.coinId, lookup.spend, lookup.owner⟩] }

def applyIndexUpdate (m : Mempool) (update : IndexUpdate) : Mempool :=
  { m with
    byCoin := KeyedTable.addOwner update.owner
      (KeyedTable.dropOwner update.owner m.byCoin update.currentCoinId)
      update.newCoinId }

variable (store : CoinStoreReads)

/-- Retry one bundle; a refusal is ignored. -/
def retry (m : Mempool) (bundle : SpendBundle) (conds : SpendBundleConditions) :
    Mempool :=
  (admitBundle seams m store bundle conds).2

/-- The retry of the parked bundles, in the order in which the map is walked. -/
def retryPending (height : UInt32) (order : List Bytes32 → List Bytes32)
    (m : Mempool) : Mempool :=
  let eligible := (m.pending.entries.filter fun entry =>
    entry.2.assertHeight ≤ height).map Sigma.fst
  (order eligible).foldl (fun m name =>
    match m.pending.lookup name with
    | none => m
    | some entry =>
      retry seams store { m with pending := m.pending.erase name }
        entry.bundle entry.conds) m

/-- The retry of the conflict cache, in the order in which it is drained. -/
def retryConflicts (order : List Bytes32 → List Bytes32) (m : Mempool) :
    Mempool :=
  let drained := m.conflict
  (order drained.keys).foldl (fun m name =>
    match drained.lookup name with
    | none => m
    | some entry => retry seams store m entry.bundle entry.conds)
    { m with conflict := ∅, conflictOrder := [], conflictCost := 0 }

/-- The lineages of phase B; a store failure ends `new_peak`. -/
def lookupLineages (lookups : List FfLookup) :
    Except MempoolError (Bytes32 → Option UnspentLineageInfo) := do
  let found ← (lookups.map FfLookup.puzzleHash).mapM fun puzzleHash => do
    let lineage ←
      (store.getUnspentLineageInfo puzzleHash).mapError MempoolError.store
    .ok (puzzleHash, lineage)
  .ok fun puzzleHash => ((found.find? fun entry => entry.1 = puzzleHash).map
    Prod.snd).join

/-- `new_peak`; the counts it reports are left out. -/
def newPeak (m : Mempool) (store : CoinStoreReads) (height : UInt32)
    (timestamp : UInt64) (spent : List Bytes32)
    (order : List Bytes32 → List Bytes32) : Except MempoolError Unit × Mempool :=
  let m := { m with peak := some (height, timestamp) }
  let m := removeAll seams m (m.expiredNames height timestamp)
  let touched := touchSpent seams m spent
  let (toRemove, lookups) :=
    touched.deferredFf.foldl (ffLookupsOf m) (touched.toRemove, [])
  match lookupLineages store lookups with
  | .error e => (.error e, m)
  | .ok lineageOf =>
    let rebased := lookups.foldl (rebaseStep lineageOf) ⟨m, toRemove, []⟩
    let m := rebased.updates.foldl applyIndexUpdate rebased.pool
    let m := rebased.toRemove.foldl
      (fun m name => remove seams (m.removeSeen name) name) m
    let m := retryPending seams store height order m
    (.ok (), retryConflicts seams store order m)

/-- What `revalidate_for_reorg` finds about one item: dead, or alive with the
spends to rebase. -/
def reorgVerdict (item : MempoolItem) (records : List CoinRecord) :
    Option (List (Bytes32 × Bytes32)) :=
  let created := (additionsForConditions item.conds).map
    (Coin.name seams.sha256)
  (item.removals.mapM fun coinId =>
    let fastForward := (item.bundleCoinSpend seams.sha256 coinId).filter
      BundleCoinSpend.supportsFastForward
    match records.reverse.find? fun r : CoinRecord =>
        r.coin.name seams.sha256 = coinId with
    | none => if coinId ∈ created then some none else none
    | some r =>
      match fastForward with
      | some bcs => some (some (coinId, bcs.coinSpend.coin.puzzleHash))
      | none => if r.spent then none else some none).map
    (List.filterMap id)

/-- The current lineages of the spends to rebase; one without an unspent version
kills the item. -/
def rebaseLineages (store : CoinStoreReads) :
    List (Bytes32 × Bytes32) →
      Except MempoolError (Option (List (Bytes32 × UnspentLineageInfo)))
  | [] => .ok (some [])
  | (coinId, puzzleHash) :: rest => do
      let lineage ←
        (store.getUnspentLineageInfo puzzleHash).mapError MempoolError.store
      match lineage with
      | none => .ok none
      | some lineage =>
        let moves ← rebaseLineages store rest
        .ok (moves.map ((coinId, lineage) :: ·))

/-- Rebase one spend of an item onto the current lineage of its singleton. -/
def rebaseSpend (name : Bytes32) (m : Mempool) (coinId : Bytes32)
    (lineage : UnspentLineageInfo) : Mempool :=
  match (m.items.lookup name).bind
      (MempoolItem.bundleCoinSpend seams.sha256 · coinId) with
  | none => m
  | some bcs =>
    let moved := { bcs with latestSingletonLineage := some lineage }
    let rebased := m.modifyItem name fun item =>
      { item with
        bundleCoinSpends := item.bundleCoinSpends.replace bcs moved }
    match bcs.latestSingletonLineage with
    | none => rebased
    | some old =>
      if old.coinId = lineage.coinId then rebased
      else rebased.applyIndexUpdate ⟨lineage.coinId, old.coinId, name⟩

/-- The body of the loop of `revalidate_for_reorg`: the pool and the names to
drop so far. -/
def revalidateItem (name : Bytes32) (item : MempoolItem)
    (state : Mempool × List Bytes32) :
    Except MempoolError (Mempool × List Bytes32) := do
  let (m, dropped) := state
  let records ← (store.getCoinRecords item.removals).mapError MempoolError.store
  match reorgVerdict seams item records with
  | none => .ok (m, dropped ++ [name])
  | some rebases =>
    let moves ← rebaseLineages store rebases
    match moves with
    | none => .ok (m, dropped ++ [name])
    | some moves =>
      .ok (moves.foldl (fun m move =>
        rebaseSpend seams name m move.1 move.2) m, dropped)

/-- The loop of `revalidate_for_reorg`; a store failure ends it where it is. -/
def revalidateLoop (store : CoinStoreReads) :
    List (Bytes32 × MempoolItem) → Mempool × List Bytes32 →
      Except MempoolError (List Bytes32) × Mempool
  | [], (m, dropped) => (.ok dropped, m)
  | (name, item) :: rest, (m, dropped) =>
    match revalidateItem seams store name item (m, dropped) with
    | .error e => (.error e, m)
    | .ok state => revalidateLoop store rest state

def revalidateForReorg (m : Mempool) (store : CoinStoreReads) :
    Except MempoolError Unit × Mempool :=
  let m := { m with seen := ∅, seenOrder := [] }
  match revalidateLoop seams store
      (m.items.entries.map fun entry => (entry.1, entry.2)) (m, []) with
  | (.error e, m) => (.error e, m)
  | (.ok dropped, m) => (.ok (), removeAll seams m dropped)

end Peak

end Mempool

/-- The reads `admit_spend_bundle` makes of the node's store. -/
structure NodeStoreReads extends CoinStoreReads where
  getPeak : Except StoreError (Option (Bytes32 × UInt32))
  getBlockRecordHeight : Bytes32 → Except StoreError (Option UInt32)

inductive TxAdmissionError where
  | validation (error : ChiaError)
  | mempool (error : MempoolError)
  | store (error : StoreError)
  | corrupt (headerHash : Bytes32)
deriving Repr, DecidableEq

/-- The height for which `admit_spend_bundle` validates. -/
def admissionHeight (store : NodeStoreReads) :
    Except TxAdmissionError UInt32 := do
  let peak ← store.getPeak.mapError .store
  match peak with
  | none => .ok 0
  | some (headerHash, _) =>
    let height ← (store.getBlockRecordHeight headerHash).mapError .store
    match height with
    | none => .error (.corrupt headerHash)
    | some height => .ok (height + 1)

/-- What validation takes from other crates: running a puzzle and checking an
aggregate signature. -/
structure ValidationSeams where
  run : ClvmRun
  verify : SpendBundleConditions → Bytes → Except ChiaError Unit

/-- The two validations of `admit_spend_bundle`. -/
def validateBundle (seams : MempoolSeams) (validation : ValidationSeams)
    (constants : ConsensusConstants) (bundle : SpendBundle) (height : UInt32) :
    Except ChiaError SpendBundleConditions := do
  let conds ← conditionsFromSpendBundle seams.sha256 validation.run constants
    bundle.coinSpends height
  validation.verify conds bundle.aggregatedSignature
  .ok conds

/-- `admit_spend_bundle`; the announcement it queues is left out. -/
def admitSpendBundle (seams : MempoolSeams) (validation : ValidationSeams)
    (constants : ConsensusConstants) (m : Mempool) (store : NodeStoreReads)
    (bundle : SpendBundle) : Except TxAdmissionError Bytes32 × Mempool :=
  match seams.name bundle with
  | .error e => (.error (.mempool (.name e)), m)
  | .ok name =>
    if name ∈ m.items then (.ok name, m.removeSeen name)
    else if name ∈ m.seen then
      (.error (.mempool (.alreadyIncluding name)), m)
    else match admissionHeight store with
      | .error e => (.error e, m)
      | .ok height =>
        match validateBundle seams validation constants bundle height with
        | .error e => (.error (.validation e), m.addSeen name)
        | .ok conds =>
          match Mempool.admitBundle seams m store.toCoinStoreReads bundle
              conds with
          | (.error e, m) => (.error (.mempool e), m)
          | (.ok name, m) => (.ok name, m.addSeen name)

open Mempool DgXch.Except List

variable {conds : SpendBundleConditions} {V : Type} {name : Bytes32}
  {item : MempoolItem}

/-- At most the lineage of a spend has moved. -/
def BundleCoinSpend.Moved (bcs moved : BundleCoinSpend) : Prop :=
  moved = bcs ∨
    ∃ lineage, moved = { bcs with latestSingletonLineage := some lineage }

/-- At most the lineages of an item have moved. -/
structure MempoolItem.Moved (item moved : MempoolItem) : Prop where
  spends : Forall₂ BundleCoinSpend.Moved item.bundleCoinSpends
    moved.bundleCoinSpends
  rest : moved = { item with bundleCoinSpends := moved.bundleCoinSpends }

theorem MempoolItem.rebase_moved (item : MempoolItem) (spend : Bytes32)
    {lineage : UnspentLineageInfo} :
    item.Moved (item.rebase spend lineage) where
  spends := by
    apply forall₂_map_right_iff.mpr
    apply forall₂_same.mpr
    intro bcs _
    split
    · exact .inr ⟨lineage, rfl⟩
    · exact .inl rfl
  rest := rfl

theorem forall₂_moved_replace {spends : List BundleCoinSpend}
    (bcs : BundleCoinSpend) {lineage : UnspentLineageInfo} :
    Forall₂ BundleCoinSpend.Moved spends (spends.replace bcs
      { bcs with latestSingletonLineage := some lineage }) := by
  induction spends with
  | nil => exact .nil
  | cons head tail ih =>
    have hsame : Forall₂ BundleCoinSpend.Moved tail tail :=
      forall₂_same.mpr fun _ _ => .inl rfl
    by_cases hhead : head = bcs
    · subst hhead
      rw [replace_cons, beq_self_eq_true]
      exact .cons (.inr ⟨lineage, rfl⟩) hsame
    · rw [replace_cons, beq_false_of_ne (Ne.symm hhead)]
      exact .cons (.inl rfl) ih

variable {m m' : Mempool} {seams : MempoolSeams}

namespace Mempool

/-- A pool that lost some items and is otherwise the same to admission. -/
structure Shrinks (m m' : Mempool) : Prop where
  items : ∀ {name item}, m'.items.lookup name = some item →
    m.items.lookup name = some item
  pending : m'.pending = m.pending
  conflict : m'.conflict = m.conflict

theorem Shrinks.refl (m : Mempool) : Shrinks m m := ⟨id, rfl, rfl⟩

theorem Shrinks.trans {m'' : Mempool} (h : Shrinks m m')
    (h' : Shrinks m' m'') : Shrinks m m'' :=
  ⟨fun hitem => h.items (h'.items hitem), h'.pending.trans h.pending,
    h'.conflict.trans h.conflict⟩

variable {key : Bytes32}

theorem lookup_of_erase {map : IdMap V} {value : V}
    (h : (map.erase name).lookup key = some value) :
    map.lookup key = some value := by
  by_cases hkey : key = name
  · subst hkey
    rw [AList.lookup_erase] at h
    cases h
  · rwa [AList.lookup_erase_ne hkey] at h

theorem lookup_of_insert {map : IdMap V} {new value : V}
    (h : (map.insert name new).lookup key = some value) :
    key = name ∧ value = new ∨ key ≠ name ∧ map.lookup key = some value := by
  by_cases hkey : key = name
  · subst hkey
    rw [AList.lookup_insert] at h
    exact .inl ⟨rfl, (Option.some.inj h).symm⟩
  · rw [AList.lookup_insert_ne hkey] at h
    exact .inr ⟨hkey, h⟩

theorem lookup_empty_ne_some {value : V} :
    (∅ : IdMap V).lookup key ≠ some value := by
  rw [AList.lookup_empty]
  exact nofun

theorem remove_shrinks : Shrinks m (remove seams m name) := by
  unfold remove
  split
  · exact .refl m
  · exact ⟨lookup_of_erase, rfl, rfl⟩

theorem removeAll_shrinks {names : List Bytes32} (m : Mempool) :
    Shrinks m (removeAll seams m names) := by
  induction names generalizing m with
  | nil => exact .refl m
  | cons name names ih => exact remove_shrinks.trans (ih _)

theorem lookup_of_trimConflict {maxCost : UInt64} {order : List Bytes32}
    {conflict : IdMap ConflictEntry} {cost : UInt64} {entry : ConflictEntry}
    (h : (trimConflict maxCost order conflict cost).2.1.lookup name =
      some entry) : conflict.lookup name = some entry := by
  induction order generalizing conflict cost with
  | nil => exact h
  | cons oldest order ih =>
    unfold trimConflict at h
    split_ifs at h
    · split at h
      · exact ih h
      · exact lookup_of_erase (ih h)
    · exact h

end Mempool

section Admission

variable {store : CoinStoreReads} {bundle : SpendBundle}

/-- What a bundle has passed before its time locks are looked at. -/
theorem checkBundle_checks {checked : Checked}
    (h : checkBundle seams m store bundle conds = .ok checked) :
    conds.cost ≤ m.maxTxCost ∧
      buildBundleCoinSpends seams store bundle conds =
        .ok checked.bundleCoinSpends ∧
      m.checkFee (feeOf conds) conds.cost = .ok () := by
  unfold checkBundle at h
  split at h
  · cases h
  split_ifs at h with hzero hcost
  obtain ⟨bundleCoinSpends, hbuild, h⟩ := bind_eq_ok.mp h
  obtain ⟨storeRecords, -, h⟩ := bind_eq_ok.mp h
  obtain ⟨records, -, h⟩ := bind_eq_ok.mp h
  obtain ⟨⟨⟩, hfee, h⟩ := bind_eq_ok.mp h
  split at h
  · cases h
  · cases h
    exact ⟨UInt64.not_lt.mp hcost, hbuild, hfee⟩

/-- Everything an admission can do to the pool. -/
inductive Admits (seams : MempoolSeams) (store : CoinStoreReads)
    (bundle : SpendBundle) (conds : SpendBundleConditions) (m : Mempool) :
    Mempool → Prop
  | refuse : Admits seams store bundle conds m m
  | park (name : Bytes32) (assertHeight : UInt32) :
      Admits seams store bundle conds m
        (m.parkPending name bundle conds assertHeight)
  | setAside (name : Bytes32) (hcost : conds.cost ≤ m.maxTxCost) :
      Admits seams store bundle conds m
        (m.cacheConflict name bundle conds (feeOf conds) conds.cost)
  | admitted (name : Bytes32) (checked : Mempool.Checked) (names : List Bytes32)
      (hname : name ∉ m.items)
      (hchecked : Mempool.checkBundle seams m store bundle conds = .ok checked)
      (hnames : Mempool.conflictNames seams m (removalsForConditions conds)
        checked.bundleCoinSpends = .ok names) :
      Admits seams store bundle conds m
        (Mempool.admitItem seams (m.removeAll seams names) name bundle conds
          checked).2

theorem admits_admitBundle (seams : MempoolSeams) (m : Mempool)
    (store : CoinStoreReads) (bundle : SpendBundle)
    (conds : SpendBundleConditions) :
    Admits seams store bundle conds m
      (m.admitBundle seams store bundle conds).2 := by
  unfold admitBundle
  split
  · exact .refuse
  split_ifs with hname
  · exact .refuse
  split
  · exact .refuse
  rename_i name _ _ checked hchecked
  dsimp only
  split
  · exact .refuse
  split
  · exact .park name _
  · exact .refuse
  · exact .refuse
  unfold admitConflicting
  dsimp only
  split
  · exact .refuse
  rename_i names hnames
  split_ifs
  · exact .setAside name (checkBundle_checks hchecked).1
  · exact .admitted name checked names hname hchecked hnames

end Admission

/-- A property of resident items and one of bundles that wait with their
conditions.  The moves keep them: the first does not depend on lineages, and
admission makes it from the second. -/
structure PoolProperty (seams : MempoolSeams) where
  itemOk : MempoolItem → Prop
  entryOk : SpendBundle → SpendBundleConditions → Prop
  moved : ∀ {item moved : MempoolItem}, item.Moved moved → itemOk item →
    itemOk moved
  admitted : ∀ {m store bundle conds checked}, entryOk bundle conds →
    Mempool.checkBundle seams m store bundle conds = .ok checked →
    ∀ (m' : Mempool) name, itemOk (m'.newItem name bundle conds checked)

variable {P : PoolProperty seams}

/-- All that the pool holds has the property. -/
structure Mempool.Holds (P : PoolProperty seams) (m : Mempool) : Prop where
  items : ∀ {name item}, m.items.lookup name = some item → P.itemOk item
  pending : ∀ {name entry}, m.pending.lookup name = some entry →
    P.entryOk entry.bundle entry.conds
  conflict : ∀ {name entry}, m.conflict.lookup name = some entry →
    P.entryOk entry.bundle entry.conds

namespace Mempool

section Holds

variable (h : m.Holds P)

include h

theorem Holds.shrinks (hshrinks : Shrinks m m') : m'.Holds P :=
  ⟨fun hitem => h.items (hshrinks.items hitem),
    fun hentry => h.pending (hshrinks.pending ▸ hentry),
    fun hentry => h.conflict (hshrinks.conflict ▸ hentry)⟩

theorem Holds.insert (hitem : P.itemOk item)
    (hitems : m'.items = m.items.insert name item)
    (hpending : m'.pending = m.pending) (hconflict : m'.conflict = m.conflict) :
    m'.Holds P where
  items hlookup := by
    rw [hitems] at hlookup
    rcases lookup_of_insert hlookup with ⟨-, rfl⟩ | ⟨-, hold⟩
    · exact hitem
    · exact h.items hold
  pending hlookup := h.pending (hpending ▸ hlookup)
  conflict hlookup := h.conflict (hconflict ▸ hlookup)

theorem Holds.addToPool (hitem : P.itemOk item) :
    (addToPool seams m item).2.Holds P := by
  unfold Mempool.addToPool
  split
  · exact h
  · apply Holds.insert ((h.shrinks (removeAll_shrinks m)).shrinks
      (removeAll_shrinks _)) hitem
    · rfl
    · rfl
    · rfl

theorem Holds.parkPending (name : Bytes32) {bundle : SpendBundle}
    (hentry : P.entryOk bundle conds) (assertHeight : UInt32) :
    (m.parkPending name bundle conds assertHeight).Holds P where
  items := h.items
  conflict := h.conflict
  pending hlookup := by
    rcases lookup_of_insert hlookup with ⟨-, rfl⟩ | ⟨-, hold⟩
    · exact hentry
    · split_ifs at hold
      · split at hold
        · exact h.pending (lookup_of_erase hold)
        · exact h.pending hold
      · exact h.pending hold

theorem Holds.cacheConflict (name : Bytes32) {bundle : SpendBundle}
    (hentry : P.entryOk bundle conds) (fee cost : UInt64) :
    (m.cacheConflict name bundle conds fee cost).Holds P := by
  unfold Mempool.cacheConflict
  split_ifs
  · exact h
  · refine ⟨h.items, h.pending, fun hlookup => ?_⟩
    rcases lookup_of_insert (lookup_of_trimConflict hlookup) with ⟨-, rfl⟩ | ⟨-, hold⟩
    · exact hentry
    · exact h.conflict hold

/-- Admission brings in at most the bundle it was given. -/
theorem Holds.admitBundle (store : CoinStoreReads) {bundle : SpendBundle}
    (hentry : P.entryOk bundle conds) :
    (Mempool.admitBundle seams m store bundle conds).2.Holds P := by
  have hadmits := admits_admitBundle seams m store bundle conds
  generalize (Mempool.admitBundle seams m store bundle conds).2 = m' at hadmits ⊢
  cases hadmits with
  | refuse => exact h
  | park name assertHeight => exact h.parkPending name hentry assertHeight
  | setAside name _ => exact h.cacheConflict name hentry _ _
  | admitted name checked names _ hchecked _ =>
    unfold Mempool.admitItem
    have hleft : (removeAll seams m names).Holds P :=
      h.shrinks (removeAll_shrinks m)
    apply Holds.addToPool
    · exact { hleft with }
    · exact P.admitted hentry hchecked _ name

theorem Holds.modifyItem (name : Bytes32) {change : MempoolItem → MempoolItem}
    (hchange : ∀ item : MempoolItem, item.Moved (change item)) :
    (m.modifyItem name change).Holds P := by
  unfold Mempool.modifyItem
  split
  · exact h
  · rename_i item hitem
    exact h.insert (P.moved (hchange item) (h.items hitem)) rfl rfl rfl

theorem Holds.retryPending (store : CoinStoreReads) (height : UInt32)
    (order : List Bytes32 → List Bytes32) :
    (retryPending seams store height order m).Holds P := by
  unfold Mempool.retryPending
  refine foldlRecOn (motive := Mempool.Holds P) _ _ h ?_
  intro m h name _
  split
  · exact h
  · rename_i entry hentry
    apply Holds.admitBundle _ store (h.pending hentry)
    exact ⟨h.items, fun hlookup => h.pending (lookup_of_erase hlookup),
      h.conflict⟩

theorem Holds.retryConflicts (store : CoinStoreReads)
    (order : List Bytes32 → List Bytes32) :
    (retryConflicts seams store order m).Holds P := by
  unfold Mempool.retryConflicts
  refine foldlRecOn (motive := Mempool.Holds P) _ _ ?_ ?_
  · exact ⟨h.items, h.pending, fun hlookup => (lookup_empty_ne_some hlookup).elim⟩
  · intro m' h' name _
    split
    · exact h'
    · rename_i entry hentry
      exact h'.admitBundle store (h.conflict hentry)

theorem Holds.removeSeen (name : Bytes32) : (m.removeSeen name).Holds P := by
  unfold Mempool.removeSeen
  split_ifs
  · exact { h with }
  · exact h

theorem Holds.addSeen (name : Bytes32) : (m.addSeen name).Holds P := by
  unfold Mempool.addSeen
  split_ifs
  · exact h
  · exact { h with }

theorem Holds.newPeak (store : CoinStoreReads) (height : UInt32)
    (timestamp : UInt64) (spent : List Bytes32)
    (order : List Bytes32 → List Bytes32) :
    (newPeak seams m store height timestamp spent order).2.Holds P := by
  unfold Mempool.newPeak
  extract_lets moved swept touched
  have hmoved : moved.Holds P := { h with }
  have hswept : swept.Holds P :=
    hmoved.shrinks (removeAll_shrinks moved)
  split
  split
  · exact hswept
  dsimp only
  refine Holds.retryConflicts ?_ _ _
  refine Holds.retryPending ?_ _ _ _
  -- the rebase, the index updates and the removals of the block's items
  refine foldlRecOn (motive := Mempool.Holds P) _ _ ?_ ?_
  · refine foldlRecOn (motive := Mempool.Holds P) _ _ ?_ ?_
    · refine foldlRecOn
        (motive := fun state : Rebased => state.pool.Holds P)
        _ _ hswept ?_
      intro state h lookup _
      unfold rebaseStep
      split_ifs
      · exact h
      split
      · exact h
      · exact h.modifyItem _ fun item => item.rebase_moved _
    · intro m h update _
      exact { h with }
  · intro m h name _
    exact (h.removeSeen name).shrinks remove_shrinks

theorem Holds.rebaseSpend (name coinId : Bytes32)
    (lineage : UnspentLineageInfo) :
    (rebaseSpend seams name m coinId lineage).Holds P := by
  unfold Mempool.rebaseSpend
  split
  · exact h
  · rename_i bcs _
    extract_lets moved rebased
    have hrebased : rebased.Holds P := h.modifyItem name
      fun item => ⟨forall₂_moved_replace bcs, rfl⟩
    split
    · exact hrebased
    · split_ifs
      · exact hrebased
      · exact { hrebased with }

theorem Holds.revalidateItem {store : CoinStoreReads} {dropped : List Bytes32}
    {state : Mempool × List Bytes32}
    (hstate : revalidateItem seams store name item (m, dropped) =
      .ok state) : state.1.Holds P := by
  unfold Mempool.revalidateItem at hstate
  obtain ⟨records, -, hstate⟩ := bind_eq_ok.mp hstate
  split at hstate
  · cases hstate
    exact h
  obtain ⟨moves, -, hstate⟩ := bind_eq_ok.mp hstate
  split at hstate
  · cases hstate
    exact h
  · cases hstate
    refine foldlRecOn (motive := Mempool.Holds P) _ _ h ?_
    intro m h move _
    exact h.rebaseSpend name move.1 move.2

theorem Holds.revalidateLoop (store : CoinStoreReads)
    (snapshot : List (Bytes32 × MempoolItem)) (dropped : List Bytes32) :
    (revalidateLoop seams store snapshot (m, dropped)).2.Holds P := by
  induction snapshot generalizing m dropped with
  | nil => exact h
  | cons head rest ih =>
    unfold revalidateLoop
    split
    · exact h
    · rename_i state hstate
      exact ih (h.revalidateItem hstate) state.2

theorem Holds.revalidateForReorg (store : CoinStoreReads) :
    (revalidateForReorg seams m store).2.Holds P := by
  unfold Mempool.revalidateForReorg
  extract_lets cleared
  have hcleared : cleared.Holds P := { h with }
  have hloop : (Mempool.revalidateLoop seams store
      (cleared.items.entries.map fun entry => (entry.1, entry.2))
      (cleared, [])).2.Holds P :=
    hcleared.revalidateLoop store _ _
  split
  · rename_i heq
    rwa [heq] at hloop
  · rename_i heq
    rw [heq] at hloop
    exact hloop.shrinks (removeAll_shrinks _)

end Holds

end Mempool

/-- Everything a run of the mempool takes from elsewhere. -/
structure MempoolWorld where
  seams : MempoolSeams
  validation : ValidationSeams
  constants : ConsensusConstants
  mempoolBlockBuffer : UInt64

/-- The calls that change a mempool.  The conditions given to `admit` are those
of `conditions_from_spend_bundle`. -/
inductive MempoolOp where
  | admitSpendBundle (store : NodeStoreReads) (bundle : SpendBundle)
  | admitBundle (store : CoinStoreReads) (bundle : SpendBundle) (height : UInt32)
  | remove (name : Bytes32)
  | newPeak (store : CoinStoreReads) (height : UInt32) (timestamp : UInt64)
      (spent : List Bytes32) (order : List Bytes32 → List Bytes32)
  | revalidateForReorg (store : CoinStoreReads)

namespace MempoolWorld

variable (world : MempoolWorld)

/-- `conditions_from_spend_bundle` for a bundle at a height. -/
def conditions (bundle : SpendBundle) (height : UInt32) :
    Except ChiaError SpendBundleConditions :=
  conditionsFromSpendBundle world.seams.sha256 world.validation.run
    world.constants bundle.coinSpends height

/-- One call, whatever it returns. -/
def step (m : Mempool) : MempoolOp → Mempool
  | .admitSpendBundle store bundle =>
    (admitSpendBundle world.seams world.validation world.constants m store
      bundle).2
  | .admitBundle store bundle height =>
    match world.conditions bundle height with
    | .error _ => m
    | .ok conds => (m.admitBundle world.seams store bundle conds).2
  | .remove name => m.remove world.seams name
  | .newPeak store height timestamp spent order =>
    (m.newPeak world.seams store height timestamp spent order).2
  | .revalidateForReorg store => (m.revalidateForReorg world.seams store).2

/-- A sequence of calls on a new mempool. -/
def steps (ops : List MempoolOp) : Mempool :=
  ops.foldl world.step (.new world.constants world.mempoolBlockBuffer)

/-- The conditions a call offers to the pool. -/
def Offers : MempoolOp → SpendBundleConditions → Prop
  | .admitSpendBundle store bundle, conds => ∃ height,
      admissionHeight store = .ok height ∧
        world.conditions bundle height = .ok conds
  | .admitBundle _ bundle height, conds => world.conditions bundle height = .ok conds
  | _, _ => False

end MempoolWorld

/-- The bundle a call offers to the pool. -/
def MempoolOp.bundle : MempoolOp → Option SpendBundle
  | .admitSpendBundle _ bundle | .admitBundle _ bundle _ => some bundle
  | _ => none

section Runs

variable {world : MempoolWorld} {P : PoolProperty world.seams}

theorem validateBundle_ok {bundle : SpendBundle} {height : UInt32}
    (h : validateBundle world.seams world.validation world.constants bundle
      height = .ok conds) : world.conditions bundle height = .ok conds := by
  obtain ⟨conds', hconds, h⟩ := bind_eq_ok.mp h
  obtain ⟨⟨⟩, -, h⟩ := bind_eq_ok.mp h
  cases h
  exact hconds

theorem Mempool.Holds.admitSpendBundle (h : m.Holds P)
    (store : NodeStoreReads) (bundle : SpendBundle)
    (hoffers : ∀ conds, world.Offers (.admitSpendBundle store bundle) conds →
      P.entryOk bundle conds) :
    (DgXch.admitSpendBundle world.seams world.validation world.constants m store
      bundle).2.Holds P := by
  unfold DgXch.admitSpendBundle
  split
  · exact h
  split_ifs
  · exact h.removeSeen _
  · exact h
  split
  · exact h
  rename_i height hheight
  split
  · exact h.addSeen _
  rename_i conds hconds
  have hresident := h.admitBundle store.toCoinStoreReads
    (hoffers conds ⟨height, hheight, validateBundle_ok hconds⟩)
  split
  · rename_i heq
    rwa [heq] at hresident
  · rename_i heq
    rw [heq] at hresident
    exact hresident.addSeen _

/-- One call keeps what the pool holds. -/
theorem Mempool.Holds.step (h : m.Holds P) (op : MempoolOp)
    (hoffers : ∀ bundle ∈ op.bundle, ∀ conds, world.Offers op conds →
      P.entryOk bundle conds) : (world.step m op).Holds P := by
  cases op with
  | admitSpendBundle store bundle =>
    exact h.admitSpendBundle store bundle (hoffers bundle rfl)
  | admitBundle store bundle height =>
    unfold MempoolWorld.step
    dsimp only
    split
    · exact h
    · rename_i conds hconds
      exact h.admitBundle store (hoffers bundle rfl conds hconds)
  | remove name => exact h.shrinks remove_shrinks
  | newPeak store height timestamp spent order =>
    exact h.newPeak store height timestamp spent order
  | revalidateForReorg store => exact h.revalidateForReorg store

/-- A property that the moves keep, and that the offered bundles bring along,
holds of every item in every run. -/
theorem MempoolWorld.holds_steps (ops : List MempoolOp)
    (hoffers : ∀ op ∈ ops, ∀ bundle ∈ op.bundle, ∀ conds,
      world.Offers op conds → P.entryOk bundle conds) :
    (world.steps ops).Holds P := by
  refine foldlRecOn (motive := Mempool.Holds P) _ _ ?_ ?_
  · exact ⟨fun h => (lookup_empty_ne_some h).elim,
      fun h => (lookup_empty_ne_some h).elim,
      fun h => (lookup_empty_ne_some h).elim⟩
  · intro m h op hop
    exact h.step op (hoffers op hop)

end Runs

end DgXch
