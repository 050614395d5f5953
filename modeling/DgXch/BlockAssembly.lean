/-
Block assembly (`Mempool::create_block_generator`): items are taken by priority,
their singleton spends are rebased onto the newest coin of their lineage
(`fast_forward_singleton`) and identical spends are merged; what fits is written
as one compressed generator, which is run again before it is handed out.
-/
import DgXch.MempoolBooks

namespace DgXch

def singletonTopLayerV11TreeHash : Bytes32 :=
  ⟨[0x7f, 0xaa, 0x32, 0x53, 0xbf, 0xdd, 0xd1, 0xe0, 0xde, 0xcb, 0x09, 0x06,
    0xb2, 0xdc, 0x62, 0x47, 0xbb, 0xc4, 0xcf, 0x60, 0x8f, 0x58, 0x34, 0x5d,
    0x17, 0x3a, 0xdb, 0x63, 0xe8, 0xb4, 0x7c, 0x9f], rfl⟩

/-- The closure `three` of `uncurry`: a list of three elements, whatever ends
it. -/
def listOfThree : SExp → Option (SExp × SExp × SExp)
  | .pair a (.pair b (.pair c (.atom _))) => some (a, b, c)
  | _ => none

/-- The loop of `uncurry` over `(4 (1 . arg) rest)`. -/
def uncurryArgs : SExp → Option (List SExp)
  | .atom data => if data = [1] then some [] else none
  | .pair cons (.pair (.pair quote arg) (.pair rest (.atom _))) =>
    if cons = .atom [4] ∧ quote = .atom [1] then
      (uncurryArgs rest).map (arg :: ·)
    else none
  | _ => none

/-- `Program::uncurry`: a program that is not curried is its own module, without
arguments. -/
def uncurry (program : SExp) : SExp × List SExp :=
  let matched : Option (SExp × List SExp) :=
    match listOfThree program with
    | some (.atom [2], .pair (.atom [1]) module, args) =>
      (uncurryArgs args).map fun args => (module, args)
    | _ => none
  matched.getD (program, [])

/-- `impl From<u64> for SExp`. -/
def SExp.ofU64 (num : UInt64) : SExp :=
  if num = 0 then .nil
  else .atom (stripI128 (BigEndian.beBytes 8 num.toNat))

section Curry

variable (sha256 : HashFn)

def shatreeAtom (atom : Bytes) : Bytes32 := sha256 (1 :: atom)

def shatreePair (leftHash rightHash : Bytes32) : Bytes32 :=
  sha256 (2 :: (leftHash.bytes ++ rightHash.bytes))

def curriedValuesTreeHash : List Bytes32 → Bytes32
  | [] => shatreeAtom sha256 [1]
  | argument :: arguments =>
    shatreePair sha256 (shatreeAtom sha256 [4])
      (shatreePair sha256
        (shatreePair sha256 (shatreeAtom sha256 [1]) argument)
        (shatreePair sha256 (curriedValuesTreeHash arguments)
          (shatreeAtom sha256 [])))

def curryAndTreehash (hashOfQuotedModHash : Bytes32)
    (hashedArguments : List Bytes32) : Bytes32 :=
  shatreePair sha256 (shatreeAtom sha256 [2])
    (shatreePair sha256 hashOfQuotedModHash
      (shatreePair sha256 (curriedValuesTreeHash sha256 hashedArguments)
        (shatreeAtom sha256 [])))

def calculateHashOfQuotedModHash (modHash : Bytes32) : Bytes32 :=
  shatreePair sha256 (shatreeAtom sha256 [1]) modHash

end Curry

structure SingletonStruct where
  modHash : Bytes32
  launcherId : Bytes32
  launcherPuzzleHash : Bytes32
deriving Repr, DecidableEq

namespace FastForward

def err {A : Type} (msg : String) : ClvmResult A :=
  .error (.invalidSpendbundle ("fast-forward: " ++ msg))

def atom32 (program : SExp) (what : String) : ClvmResult Bytes32 :=
  match program with
  | .pair _ _ => err (what ++ " is not an atom")
  | .atom data =>
    match Bytes32.parse data with
    | .ok bytes => .ok bytes
    | .error _ => err (what ++ " is not 32 bytes")

def atomU64 (program : SExp) (what : String) : ClvmResult UInt64 :=
  match program with
  | .pair _ _ => .error (.expectedAtomGotPairText "Program is Pair not Atom")
  | .atom data =>
    let value := numberFromSlice data
    if 0 ≤ value ∧ value < 2 ^ 64 then .ok (UInt64.ofNat value.toNat)
    else err (what ++ " is not a u64")

def singletonStruct (argument : SExp) : ClvmResult SingletonStruct :=
  match argument with
  | .atom _ => err "SINGLETON_STRUCT is not a pair"
  | .pair _ (.atom _) => err "SINGLETON_STRUCT tail is not a pair"
  | .pair modHash (.pair launcherId launcherPh) => do
      let modHash ← atom32 modHash "SINGLETON_STRUCT mod hash"
      let launcherId ← atom32 launcherId "SINGLETON_STRUCT launcher id"
      let launcherPuzzleHash ← atom32 launcherPh "SINGLETON_STRUCT launcher ph"
      .ok ⟨modHash, launcherId, launcherPuzzleHash⟩

/-- What `fast_forward_singleton` reads of a solution: the lineage proof, the
amount and the inner solution. -/
structure Solution where
  parentInnerPuzzleHash : Bytes32
  lineageParentParent : Bytes32
  lineageParentAmount : UInt64
  amount : UInt64
  innerSolution : SExp
deriving Repr, DecidableEq

/-- The parse of a solution `(lineage_proof amount inner_solution)`. -/
def parseSolution (solution : SExp) : ClvmResult Solution :=
  match solution.asList with
  | [proof, amount, innerSolution] =>
    match proof.asList with
    | [parentParent, innerPuzzleHash, parentAmount] => do
        let parentInnerPuzzleHash ←
          atom32 innerPuzzleHash "parent inner puzzle hash"
        let lineageParentParent ← atom32 parentParent "parent parent coin info"
        let lineageParentAmount ← atomU64 parentAmount "parent amount"
        let amount ← atomU64 amount "solution amount"
        .ok { parentInnerPuzzleHash, lineageParentParent, lineageParentAmount,
              amount, innerSolution }
    | _ => err "expected a (non-eve) lineage proof"
  | _ => err "solution is not (lineage_proof amount inner_solution)"

end FastForward

open FastForward

section Singleton

variable (sha256 : HashFn)

def singletonPuzzleHash (innerPuzzleHash : Bytes32)
    (singleton : SingletonStruct) : Bytes32 :=
  let structHash := shatreePair sha256
    (shatreeAtom sha256 singleton.modHash.bytes)
    (shatreePair sha256 (shatreeAtom sha256 singleton.launcherId.bytes)
      (shatreeAtom sha256 singleton.launcherPuzzleHash.bytes))
  curryAndTreehash sha256
    (calculateHashOfQuotedModHash sha256 singleton.modHash)
    [structHash, innerPuzzleHash]

/-- The singleton of a curried puzzle, and its inner puzzle. -/
def uncurrySingleton (puzzle : SExp) : ClvmResult (SingletonStruct × SExp) :=
  match uncurry puzzle with
  | (module, [argument, innerPuzzle]) => do
      let singleton ← singletonStruct argument
      if singleton.modHash ≠ singletonTopLayerV11TreeHash ∨
          treeHash sha256 module ≠ singletonTopLayerV11TreeHash then
        err "not the singleton_top_layer_v1_1 mod hash"
      else .ok (singleton, innerPuzzle)
  | _ => err "expected 2 curried singleton args"

def fastForwardSingleton (spend : CoinSpend) (newCoin newParent : Coin) :
    ClvmResult Bytes :=
  if spend.coin.amount &&& 1 = 0 ∨ newParent.amount &&& 1 = 0 ∨
      newCoin.amount &&& 1 = 0 then
    err "coin amount is even"
  else if spend.coin.puzzleHash ≠ newParent.puzzleHash ∨
      spend.coin.puzzleHash ≠ newCoin.puzzleHash then
    err "puzzle hash mismatch"
  else do
    let puzzle ← fromSerial spend.puzzleReveal
    let (singleton, innerPuzzle) ← uncurrySingleton sha256 puzzle
    let serial ← fromSerial spend.solution
    let solution ← parseSolution serial
    if spend.coin.amount ≠ solution.amount then err "coin amount mismatch"
    else
      let parentCoin : Coin :=
        ⟨solution.lineageParentParent,
          singletonPuzzleHash sha256 solution.parentInnerPuzzleHash singleton,
          solution.lineageParentAmount⟩
      if parentCoin.name sha256 ≠ spend.coin.parentCoinInfo then
        err "parent coin mismatch"
      else if treeHash sha256 innerPuzzle ≠ solution.parentInnerPuzzleHash then
        err "inner puzzle hash mismatch"
      else
        let puzzleHash := treeHash sha256 puzzle
        if puzzleHash ≠ newParent.puzzleHash ∨
            puzzleHash ≠ spend.coin.puzzleHash then
          err "full puzzle hash mismatch"
        else if newCoin.parentCoinInfo ≠ newParent.name sha256 then
          err "new coin is not a child of new parent"
        else
          liftIo (sexpToBytes (.ofList [
            .ofList [.atom newParent.parentCoinInfo.bytes,
              .atom solution.parentInnerPuzzleHash.bytes,
              .ofU64 newParent.amount],
            .ofU64 newCoin.amount, solution.innerSolution]))

/-- `supports_fast_forward`: whether the spend can be rebased onto a coin of its
own kind. -/
def supportsFastForward (spend : CoinSpend) : Bool :=
  let newParent : Coin :=
    ⟨Bytes32.zero, spend.coin.puzzleHash, spend.coin.amount⟩
  let newCoin : Coin :=
    ⟨newParent.name sha256, spend.coin.puzzleHash, spend.coin.amount⟩
  (fastForwardSingleton sha256 spend newCoin newParent).isOk

end Singleton

/-- `compressed_solution_generator_from_coin_spends`; the serializer does not
fault on a tree that was read from bytes. -/
def compressedSolutionGeneratorFromCoinSpends (sha256 : HashFn)
    (spends : List CoinSpend) : ClvmResult Bytes := do
  let tree ← buildGeneratorTree spends.reverse
  match sexpToBytesBackrefs sha256 tree with
  | .ok bytes => .ok bytes
  | .error _ => .error (.serializationError "")

structure ProcessedItem where
  uniqueSpends : List CoinSpend := []
  uniqueAdditions : List Coin := []
  costSaving : UInt64 := 0
  ffUpdate : IdMap UnspentLineageInfo := ∅
  newDedup : List (Bytes32 × Bytes × UInt64) := []

/-- `ProcessError`; the texts are only logged, and the error behind a failure is
left out of them. -/
inductive ProcessError where
  | skipDedup (why : String)
  | failed (why : String)
deriving Repr, DecidableEq

/-- A spend after the fast-forward pass. -/
structure PostFf where
  spend : CoinSpend
  eligibleForDedup : Bool
  additions : List Coin
  cost : UInt64
deriving Repr, DecidableEq

def BundleCoinSpend.asIs (bcs : BundleCoinSpend) : PostFf :=
  ⟨bcs.coinSpend, bcs.eligibleForDedup, bcs.additions, bcs.cost⟩

/-- What the fast-forward pass makes of one spend: the spend, the lineage that
follows it, and whether it was rebased. -/
structure Forwarded where
  post : PostFf
  next : Option UnspentLineageInfo := none
  rebased : Bool := false

section Process

variable (sha256 : HashFn)

/-- The text of two failures. -/
def noSingletonChild : String := "could not find fast forward child singleton"

/-- Spend the version `target` instead of the coin that the spend names. -/
def rebaseOnto (bcs : BundleCoinSpend) (target : UnspentLineageInfo) :
    Except ProcessError Forwarded :=
  let coin := bcs.coinSpend.coin
  let newCoin : Coin := ⟨target.parentId, coin.puzzleHash, coin.amount⟩
  let newParent : Coin := ⟨target.parentParentId, coin.puzzleHash, coin.amount⟩
  if newCoin.name sha256 ≠ target.coinId ∨
      newParent.name sha256 ≠ target.parentId then
    .error (.failed "fast forward lineage does not reproduce its coin ids")
  else do
    let newSolution ←
      (fastForwardSingleton sha256 bcs.coinSpend newCoin newParent).mapError
        fun _ => .failed "fast forward rebase failed"
    let patchedAdditions : List Coin := bcs.additions.map fun addition =>
      ⟨target.coinId, addition.puzzleHash, addition.amount⟩
    match patchedAdditions.reverse.find? fun c =>
        c.puzzleHash = coin.puzzleHash && c.amount = coin.amount with
    | none => .error (.failed noSingletonChild)
    | some child => .ok {
        post := ⟨⟨newCoin, bcs.coinSpend.puzzleReveal, newSolution⟩,
          bcs.eligibleForDedup, patchedAdditions, bcs.cost⟩
        next := some ⟨child.name sha256, child.parentCoinInfo, target.parentId⟩
        rebased := true }

/-- The body of the loop of the fast-forward pass: the committed state of the
block comes before the lineage of the item. -/
def forwardSpend (ffState : IdMap UnspentLineageInfo) (bcs : BundleCoinSpend) :
    Except ProcessError Forwarded :=
  let coin := bcs.coinSpend.coin
  match bcs.latestSingletonLineage, ffState.lookup coin.puzzleHash with
  | none, _ => .ok { post := bcs.asIs }
  | some _, some target => rebaseOnto sha256 bcs target
  | some target, none =>
    if target.coinId = bcs.coinId sha256 then
      match bcs.additions.find? fun c =>
          c.puzzleHash = coin.puzzleHash && c.amount = coin.amount with
      | none => .error (.failed noSingletonChild)
      | some child => .ok {
          post := bcs.asIs
          next := some ⟨child.name sha256, child.parentCoinInfo,
            coin.parentCoinInfo⟩ }
    else rebaseOnto sha256 bcs target

/-- What the fast-forward pass collects. -/
structure FfPass where
  postFf : List PostFf := []
  ffUpdate : IdMap UnspentLineageInfo := ∅
  fastForwarded : Nat := 0

def FfPass.push (pass : FfPass) (puzzleHash : Bytes32) (forwarded : Forwarded) :
    FfPass where
  postFf := pass.postFf ++ [forwarded.post]
  ffUpdate :=
    match forwarded.next with
    | none => pass.ffUpdate
    | some lineage => pass.ffUpdate.insert puzzleHash lineage
  fastForwarded := pass.fastForwarded + forwarded.rebased.toNat

/-- The fast-forward pass of `process_item_spends`. -/
def ffPass (ffState : IdMap UnspentLineageInfo) :
    List BundleCoinSpend → FfPass → Except ProcessError FfPass
  | [], pass => .ok pass
  | bcs :: rest, pass => do
      let forwarded ← forwardSpend sha256 ffState bcs
      ffPass ffState rest
        (pass.push bcs.coinSpend.coin.puzzleHash forwarded)

/-- A spend that the item adds to the block. -/
def ProcessedItem.push (item : ProcessedItem) (post : PostFf) : ProcessedItem :=
  { item with
    uniqueSpends := item.uniqueSpends ++ [post.spend]
    uniqueAdditions := item.uniqueAdditions ++ post.additions }

/-- The dedup pass of `process_item_spends`. -/
def dedupPass (dedupSpends : IdMap (Bytes × UInt64)) :
    List PostFf → ProcessedItem → Except ProcessError ProcessedItem
  | [], item => .ok item
  | post :: rest, item =>
    if post.eligibleForDedup then
      let coinId := post.spend.coin.name sha256
      match dedupSpends.lookup coinId with
      | none => dedupPass dedupSpends rest
          { item.push post with
            newDedup := item.newDedup ++
              [(coinId, post.spend.solution, post.cost)] }
      | some (solution, savedCost) =>
        if solution ≠ post.spend.solution then
          .error (.skipDedup
            "solution differs from what the block deduplicates on")
        else dedupPass dedupSpends rest
          { item with costSaving := saturatingAdd64 item.costSaving savedCost }
    else dedupPass dedupSpends rest (item.push post)

end Process

/-- What block assembly takes from elsewhere: the hash, the evaluator, the
bootstrap program, signature aggregation, the constants, the height, and whether
the time is up when the loop comes to its `n`-th item. -/
structure Assembly where
  sha256 : HashFn
  run : ClvmRun
  rom : SExp
  aggregateSignatures : List Bytes → Except String Bytes
  constants : ConsensusConstants
  height : UInt32
  timeout : Nat → Bool

/-- `BlockTransactions`; it has no block references. -/
structure BlockTransactions where
  program : Bytes
  additions : List Coin
  removals : List Coin
  aggregatedSignature : Bytes
  cost : UInt64
deriving Repr, DecidableEq

/-- The variables of the selection loop.  `included` is not one of the source:
it names the items whose signatures were pushed. -/
structure Selection where
  costSum : UInt64 := 0
  execCondSum : UInt64 := 0
  feeSum : UInt64 := 0
  spendCount : Nat := 0
  skippedItems : Nat := 0
  coinSpends : List CoinSpend := []
  sigs : List Bytes := []
  additions : List Coin := []
  removals : List Coin := []
  dedupSpends : IdMap (Bytes × UInt64) := ∅
  ffState : IdMap UnspentLineageInfo := ∅
  included : List MempoolItem := []

def priorityTxThreshold : Nat := 3

def maxSkippedItems : Nat := 10

def minCostThreshold : UInt64 := 6000000

def quoteBytes : UInt64 := 2

def quoteExecutionCost : UInt64 := 20

def maxSpendsPerBlock : Nat := 6000

def saturatingMul64 (a b : UInt64) : UInt64 := clampU64 (a.toNat * b.toNat)

variable (item : MempoolItem)

/-- `additions_for_conditions` and the spends of an item without metadata. -/
def MempoolItem.plain : ProcessedItem where
  uniqueSpends := item.bundle.coinSpends
  uniqueAdditions := additionsForConditions item.conds

def MempoolItem.asIs : ProcessedItem where
  uniqueSpends := item.bundleCoinSpends.map BundleCoinSpend.coinSpend
  uniqueAdditions := item.bundleCoinSpends.flatMap BundleCoinSpend.additions

/-- Whether an item has spends that may be merged or rebased. -/
def MempoolItem.hasSpecial : Bool :=
  item.bundleCoinSpends.any fun b => b.eligibleForDedup || b.supportsFastForward

/-- `new_dedup` committed to the state of the block. -/
def commitDedup (dedupSpends : IdMap (Bytes × UInt64))
    (newDedup : List (Bytes32 × Bytes × UInt64)) : IdMap (Bytes × UInt64) :=
  newDedup.foldl (fun spends entry => spends.insert entry.1 entry.2) dedupSpends

/-- `ff_update` committed to the state of the block. -/
def commitFf (ffState ffUpdate : IdMap UnspentLineageInfo) :
    IdMap UnspentLineageInfo :=
  ffUpdate ∪ ffState

namespace Assembly

variable (a : Assembly)

/-- The budget of the plain accounting. -/
def maxCost : UInt64 :=
  saturatingSub64 a.constants.maxBlockCostClvm
    (quoteBytes * a.constants.costPerByte + quoteExecutionCost)

/-- The rebased bundle of an item is run again. -/
def checkRebased (pass : FfPass) : Except ProcessError Unit :=
  if 0 < pass.fastForwarded then
    match conditionsFromSpendBundle a.sha256 a.run a.constants
        (pass.postFf.map PostFf.spend) a.height with
    | .ok _ => .ok ()
    | .error _ =>
      .error (.failed "item became invalid after singleton fast forward")
  else .ok ()

def processItemSpends (item : MempoolItem)
    (dedupSpends : IdMap (Bytes × UInt64))
    (ffState : IdMap UnspentLineageInfo) :
    Except ProcessError ProcessedItem := do
  let pass ← ffPass a.sha256 ffState item.bundleCoinSpends {}
  a.checkRebased pass
  dedupPass a.sha256 dedupSpends pass.postFf { ffUpdate := pass.ffUpdate }

variable (s : Selection) (item : MempoolItem)

/-- The spends that an item would add.  Past the priority threshold an item with
special spends is passed over, as after `SkipDedup`. -/
def resolveItem : Except ProcessError ProcessedItem :=
  if item.bundleCoinSpends = [] then .ok item.plain
  else if priorityTxThreshold ≤ s.skippedItems then
    if item.hasSpecial then .error (.skipDedup "past priority threshold")
    else .ok item.asIs
  else a.processItemSpends item s.dedupSpends s.ffState

variable (processed : ProcessedItem)

def itemCost : UInt64 := saturatingSub64 item.cost processed.costSaving

/-- The execution and condition cost that an item adds. -/
def itemExecCond : UInt64 :=
  let plainByteCost :=
    if processed.uniqueSpends = [] then 0
    else saturatingMul64 (saturatingSub64 (UInt64.ofNat
      (spendBundleGeneratorLength processed.uniqueSpends)) quoteBytes)
      a.constants.costPerByte
  saturatingSub64 (itemCost item processed) plainByteCost

/-- The compressed size of the block with an item, against the full budget. -/
def fitsCompressed : Bool :=
  match compressedSolutionGeneratorFromCoinSpends a.sha256
      (s.coinSpends ++ processed.uniqueSpends) with
  | .error _ => false
  | .ok program =>
    let byteCost := saturatingMul64 (UInt64.ofNat program.length)
      a.constants.costPerByte
    saturatingAdd64 (saturatingAdd64 (saturatingAdd64 byteCost
      quoteExecutionCost) s.execCondSum) (a.itemExecCond item processed) ≤
        a.constants.maxBlockCostClvm

/-- The fit decision. -/
def fits : Bool :=
  if maxSpendsPerBlock < s.spendCount + processed.uniqueSpends.length then false
  else if saturatingAdd64 s.costSum (itemCost item processed) ≤ a.maxCost then
    true
  else a.fitsCompressed s item processed

/-- An item is included. -/
def commit (feeSum : UInt64) : Selection where
  costSum := saturatingAdd64 s.costSum (itemCost item processed)
  execCondSum := saturatingAdd64 s.execCondSum (a.itemExecCond item processed)
  feeSum := feeSum
  spendCount := s.spendCount + processed.uniqueSpends.length
  skippedItems := s.skippedItems
  coinSpends := s.coinSpends ++ processed.uniqueSpends
  sigs := s.sigs ++ [item.bundle.aggregatedSignature]
  additions := s.additions ++ processed.uniqueAdditions
  removals := s.removals ++ processed.uniqueSpends.map CoinSpend.coin
  dedupSpends := s.dedupSpends
  ffState := commitFf s.ffState processed.ffUpdate
  included := s.included ++ [item]

/-- Whether the block is full enough to stop. -/
def isFull : Bool :=
  saturatingSub64 a.maxCost s.costSum < minCostThreshold ||
    maxSpendsPerBlock ≤ s.spendCount

/-- How a turn of the selection loop ends. -/
inductive Turn where
  | goOn (s : Selection)
  | stop (s : Selection)

def Turn.state : Turn → Selection
  | .goOn s => s
  | .stop s => s

/-- The end of the loop body: the dedup entries of the item are committed first,
and then it is seen whether the item fits. -/
def considerProcessed (feeSum : UInt64) (processed : ProcessedItem) : Turn :=
  let s := { s with dedupSpends := commitDedup s.dedupSpends processed.newDedup }
  if a.fits s item processed then
    let s := a.commit s item processed feeSum
    if a.isFull s then .stop s else .goOn s
  else
    let s := { s with skippedItems := s.skippedItems + 1 }
    if s.skippedItems < maxSkippedItems then .goOn s else .stop s

/-- The body of the selection loop, before the time is up. -/
def considerItem : Turn :=
  match checkedAdd64 s.feeSum item.fee with
  | none => .stop s
  | some feeSum =>
    if a.constants.maxCoinAmount < feeSum then .stop s
    else match a.resolveItem s item with
      | .error (.skipDedup _) => .goOn s
      | .error (.failed _) =>
        .goOn { s with skippedItems := s.skippedItems + 1 }
      | .ok processed => a.considerProcessed s item feeSum processed

def selectLoop : Nat → List MempoolItem → Selection → Selection
  | _, [], s => s
  | index, item :: rest, s =>
    if a.timeout index then s
    else match a.considerItem s item with
      | .stop s => s
      | .goOn s => selectLoop (index + 1) rest s

def itemsByFee (m : Mempool) : List MempoolItem :=
  m.items.values.mergeSort Mempool.priorityOrder

def select (m : Mempool) : Selection := a.selectLoop 0 (itemsByFee m) {}

/-- The run of the emitted generator. -/
def rerun (program : Bytes) : Except ChiaError SpendBundleConditions :=
  executeBlockGeneratorResult a.sha256 a.run a.rom {
    transactionsGenerator := program
    generatorRefs := []
    constants := a.constants
    height := a.height
    flags := BlockGeneratorFlags.forHeight a.constants a.height }

def createBlockGenerator (m : Mempool) : Option BlockTransactions :=
  if m.peak.isNone then none
  else
    let s := a.select m
    if s.coinSpends = [] then none
    else match compressedSolutionGeneratorFromCoinSpends a.sha256 s.coinSpends,
        a.aggregateSignatures s.sigs with
      | .ok program, .ok aggregatedSignature =>
        match a.rerun program with
        | .error _ => none
        | .ok conds =>
          if a.constants.maxBlockCostClvm < conds.cost then none
          else some {
            program, additions := s.additions, removals := s.removals
            aggregatedSignature, cost := conds.cost }
      | _, _ => none

end Assembly

open List AList DgXch.Except BundleCoinSpend Assembly PostFf Mempool Function

variable {item : MempoolItem} {name : Bytes32} {bcs : BundleCoinSpend}
  {steps : Bytes32 → Nat} {dedupSpends : IdMap (Bytes × UInt64)}

/-- An item as admission builds it: its spends are those of its bundle, of
different coins, with the puzzles and children of these coins. -/
structure MempoolItem.Formed (sha256 : HashFn) (item : MempoolItem) : Prop where
  joined : item.bundleCoinSpends.map BundleCoinSpend.coinSpend =
    item.bundle.coinSpends
  nodup : (item.bundleCoinSpends.map (BundleCoinSpend.coinId sha256)).Nodup
  revealed : ∀ bcs ∈ item.bundleCoinSpends, bcs.coinSpend.Revealed sha256
  children : ∀ bcs ∈ item.bundleCoinSpends, ∀ c ∈ bcs.additions,
    c.parentCoinInfo = bcs.coinId sha256

variable {sha256 : HashFn}

section Formed

variable {seams : MempoolSeams} {store : CoinStoreReads} {bundle : SpendBundle}
  {conds : SpendBundleConditions}

theorem joinCoinSpend_children {coinSpend : CoinSpend}
    (h : joinCoinSpend seams store conds coinSpend = .ok bcs) :
    ∀ c ∈ bcs.additions, c.parentCoinInfo = bcs.coinId seams.sha256 := by
  unfold joinCoinSpend at h
  dsimp only at h
  split at h
  · cases h
  split_ifs at h
  all_goals
    obtain ⟨lineage, -, h⟩ := bind_eq_ok.mp h
    cases h
    intro c hc
    obtain ⟨newCoin, -, rfl⟩ := mem_map.mp hc
    rfl

theorem MempoolItem.Moved.mem {moved : MempoolItem} (h : item.Moved moved)
    (hbcs : bcs ∈ moved.bundleCoinSpends) :
    ∃ old ∈ item.bundleCoinSpends, old.Moved bcs :=
  forall₂_mem_right h.spends hbcs

theorem BundleCoinSpend.Moved.coinSpend {moved : BundleCoinSpend}
    (h : bcs.Moved moved) : moved.coinSpend = bcs.coinSpend := by
  rcases h with rfl | ⟨lineage, rfl⟩
  · rfl
  · rfl

theorem BundleCoinSpend.Moved.additions {moved : BundleCoinSpend}
    (h : bcs.Moved moved) : moved.additions = bcs.additions := by
  rcases h with rfl | ⟨lineage, rfl⟩
  · rfl
  · rfl

theorem MempoolItem.Formed.moved {moved : MempoolItem} (h : item.Formed sha256)
    (hmoved : item.Moved moved) :
    moved.Formed sha256 where
  joined := by
    rw [forall₂_map_eq (fun _ _ hbcs => hbcs.coinSpend) hmoved.spends, h.joined,
      hmoved.rest]
  nodup := by
    refine Eq.mpr (congrArg Nodup (forall₂_map_eq (fun _ _ hbcs => ?_)
      hmoved.spends)) h.nodup
    rw [coinId, coinId, hbcs.coinSpend]
  revealed bcs hbcs := by
    obtain ⟨old, hold, hof⟩ := hmoved.mem hbcs
    rw [hof.coinSpend]
    exact h.revealed old hold
  children bcs hbcs := by
    obtain ⟨old, hold, hof⟩ := hmoved.mem hbcs
    rw [hof.additions, coinId, hof.coinSpend]
    exact h.children old hold

/-- What an admitted bundle and its conditions bring along. -/
def Mempool.Entered (sha256 : HashFn) (bundle : SpendBundle)
    (conds : SpendBundleConditions) : Prop :=
  Joins sha256 bundle.coinSpends conds ∧
    ∀ c ∈ bundle.coinSpends, c.Revealed sha256

def Mempool.formed (seams : MempoolSeams) : PoolProperty seams where
  itemOk := MempoolItem.Formed seams.sha256
  entryOk := Mempool.Entered seams.sha256
  moved hmoved h := h.moved hmoved
  admitted := by
    rintro m store bundle conds checked ⟨hjoins, hrevealed⟩ hchecked m' name
    obtain ⟨-, hbuild, -⟩ := checkBundle_checks hchecked
    have hjoined := buildBundleCoinSpends_ok hbuild
    refine ⟨?_, ?_, ?_, ?_⟩
    · have hspends : checked.bundleCoinSpends.map coinSpend =
          bundle.coinSpends.map id := by
        apply forall₂_map_eq _ hjoined
        intro coinSpend bcs hjoin
        exact (joinCoinSpend_ok hjoin).1
      rwa [map_id] at hspends
    · rw [show (m'.newItem name bundle conds checked).bundleCoinSpends =
        checked.bundleCoinSpends from rfl, coinId_of_joined hjoined]
      exact hjoins.nodup
    · intro bcs hbcs
      obtain ⟨coinSpend, hcoinSpend, hjoin⟩ := forall₂_mem_right hjoined hbcs
      rw [(joinCoinSpend_ok hjoin).1]
      exact hrevealed coinSpend hcoinSpend
    · intro bcs hbcs
      obtain ⟨coinSpend, -, hjoin⟩ := forall₂_mem_right hjoined hbcs
      exact joinCoinSpend_children hjoin

/-- In every run every resident item is formed. -/
theorem MempoolWorld.formed_steps (world : MempoolWorld) (ops : List MempoolOp)
    (hitem : (world.steps ops).items.lookup name = some item) :
    item.Formed world.seams.sha256 := by
  refine (MempoolWorld.holds_steps (P := formed _) ops ?_).items hitem
  intro op _ bundle hbundle conds hoffers
  obtain ⟨height, hconds⟩ :
      ∃ height, world.conditions bundle height = .ok conds := by
    cases op with
    | admitSpendBundle store bundle' =>
      cases hbundle
      obtain ⟨height, -, hconds⟩ := hoffers
      exact ⟨height, hconds⟩
    | admitBundle store bundle' height =>
      cases hbundle
      exact ⟨height, hoffers⟩
    | _ => cases hbundle
  obtain ⟨state, hstate, -⟩ := bind_eq_ok.mp hconds
  exact ⟨conditionsFromSpendBundle_joins hconds, bundleSpends_revealed hstate⟩

end Formed

/-- An emitted spend is a spend itself or its fast-forward rebase. -/
def CoinSpend.EmittedAs (sha256 : HashFn) (spend emitted : CoinSpend) : Prop :=
  emitted = spend ∨
    emitted.puzzleReveal = spend.puzzleReveal ∧
      emitted.coin.puzzleHash = spend.coin.puzzleHash ∧
      ∃ newParent, fastForwardSingleton sha256 spend emitted.coin newParent =
        .ok emitted.solution

/-- The fast-forward spends of the pool. -/
def Mempool.fastForwards (m : Mempool) : List BundleCoinSpend :=
  (m.items.values.flatMap MempoolItem.bundleCoinSpends).filter
    BundleCoinSpend.supportsFastForward

/-- The next version of a singleton, after a spend has landed on a coin. -/
def BundleCoinSpend.childOn (sha256 : HashFn) (bcs : BundleCoinSpend)
    (coinId : Bytes32) : Bytes32 :=
  Coin.name sha256
    ⟨coinId, bcs.coinSpend.coin.puzzleHash, bcs.coinSpend.coin.amount⟩

/-- The versions of a singleton that fast-forward spends of the pool can land
on: the lineages that items carry, and the children that follow them. -/
def Mempool.landings (sha256 : HashFn) (m : Mempool)
    (puzzleHash : Bytes32) : Nat → List Bytes32
  | 0 => (m.fastForwards.filter fun bcs =>
      bcs.coinSpend.coin.puzzleHash = puzzleHash).filterMap fun bcs =>
        bcs.latestSingletonLineage.map UnspentLineageInfo.coinId
  | n + 1 => (m.landings sha256 puzzleHash n).flatMap fun coinId =>
      (m.fastForwards.filter fun bcs =>
        bcs.coinSpend.coin.puzzleHash = puzzleHash).map
          (BundleCoinSpend.childOn sha256 · coinId)

section Forward

variable {m : Mempool} {ffState : IdMap UnspentLineageInfo} {fwd : Forwarded}

/-- What a rebase gives. -/
structure Rebases (sha256 : HashFn) (bcs : BundleCoinSpend)
    (target : UnspentLineageInfo) (fwd : Forwarded) : Prop where
  emitted : bcs.coinSpend.EmittedAs sha256 fwd.post.spend
  dedup : fwd.post.eligibleForDedup = bcs.eligibleForDedup
  coin : fwd.post.spend.coin.name sha256 = target.coinId
  next : ∃ lineage, fwd.next = some lineage ∧
    lineage.coinId = bcs.childOn sha256 target.coinId

theorem rebaseOnto_ok {target : UnspentLineageInfo}
    (h : rebaseOnto sha256 bcs target = .ok fwd) :
    Rebases sha256 bcs target fwd ∧ fwd.rebased = true := by
  unfold rebaseOnto at h
  dsimp only at h
  split_ifs at h with hids
  rw [not_or, not_not, not_not] at hids
  obtain ⟨solution, hsolution, h⟩ := bind_eq_ok.mp h
  split at h
  · cases h
  rename_i child hchild
  cases h
  have hmem := mem_reverse.mp (mem_of_find?_eq_some hchild)
  obtain ⟨addition, -, rfl⟩ := mem_map.mp hmem
  have hsame := find?_some hchild
  rw [Bool.and_eq_true, decide_eq_true_iff, decide_eq_true_iff] at hsame
  refine ⟨⟨.inr ⟨rfl, rfl, _, mapError_eq_ok.mp hsolution⟩, rfl,
    hids.1, _, rfl, ?_⟩, rfl⟩
  dsimp only at hsame ⊢
  rw [childOn, hsame.1, hsame.2]

/-- Where the fast-forward pass takes a spend. -/
inductive Forwards (sha256 : HashFn)
    (ffState : IdMap UnspentLineageInfo) (bcs : BundleCoinSpend)
    (fwd : Forwarded) : Prop
  | stays (hslow : bcs.supportsFastForward = false)
      (hspend : fwd.post.spend = bcs.coinSpend)
      (hdedup : fwd.post.eligibleForDedup = bcs.eligibleForDedup)
      (hnext : fwd.next = none) (hrebased : fwd.rebased = false)
  | chained (target : UnspentLineageInfo)
      (hff : bcs.supportsFastForward = true)
      (htarget : ffState.lookup bcs.coinSpend.coin.puzzleHash = some target)
      (hrebases : Rebases sha256 bcs target fwd) (hrebased : fwd.rebased = true)
  | lands (target : UnspentLineageInfo)
      (hlineage : bcs.latestSingletonLineage = some target)
      (hnone : ffState.lookup bcs.coinSpend.coin.puzzleHash = none)
      (hrebases : Rebases sha256 bcs target fwd)
      (hown : fwd.rebased = false → fwd.post.spend = bcs.coinSpend)

theorem forwardSpend_forwards
    (hchildren : ∀ c ∈ bcs.additions, c.parentCoinInfo = bcs.coinId sha256)
    (h : forwardSpend sha256 ffState bcs = .ok fwd) :
    Forwards sha256 ffState bcs fwd := by
  unfold forwardSpend at h
  dsimp only at h
  split at h
  · rename_i hslow
    cases h
    exact .stays (by rw [BundleCoinSpend.supportsFastForward, hslow]; rfl) rfl
      rfl rfl rfl
  · rename_i lineage target hlineage htarget
    obtain ⟨hrebases, hrebased⟩ := rebaseOnto_ok h
    exact .chained target
      (by rw [BundleCoinSpend.supportsFastForward, hlineage]; rfl) htarget
      hrebases hrebased
  · rename_i target hlineage hnone
    split_ifs at h with hown
    · split at h
      · cases h
      rename_i child hchild
      cases h
      have hsame := find?_some hchild
      rw [Bool.and_eq_true, decide_eq_true_iff, decide_eq_true_iff] at hsame
      have hparent := hchildren child (mem_of_find?_eq_some hchild)
      refine .lands target hlineage hnone ⟨.inl rfl, rfl, hown.symm, _, rfl, ?_⟩
        fun _ => rfl
      dsimp only
      rw [hown, childOn, ← hparent, ← hsame.1, ← hsame.2]
    · obtain ⟨hrebases, hrebased⟩ := rebaseOnto_ok h
      exact .lands target hlineage hnone hrebases
        fun hnot => by rw [hrebased] at hnot; cases hnot

section

variable (h : Forwards sha256 ffState bcs fwd)

include h

theorem Forwards.emitted : bcs.coinSpend.EmittedAs sha256 fwd.post.spend := by
  cases h with
  | stays hslow hspend => exact .inl hspend
  | chained target hff htarget hrebases => exact hrebases.emitted
  | lands target hlineage hnone hrebases => exact hrebases.emitted

theorem Forwards.dedup : fwd.post.eligibleForDedup = bcs.eligibleForDedup := by
  cases h with
  | stays hslow hspend hdedup => exact hdedup
  | chained target hff htarget hrebases => exact hrebases.dedup
  | lands target hlineage hnone hrebases => exact hrebases.dedup

theorem Forwards.own (hrebased : fwd.rebased = false) :
    fwd.post.spend = bcs.coinSpend := by
  cases h with
  | stays hslow hspend => exact hspend
  | chained target hff htarget hrebases hyes =>
    rw [hrebased] at hyes
    cases hyes
  | lands target hlineage hnone hrebases hown => exact hown hrebased

theorem Forwards.fast {lineage : UnspentLineageInfo}
    (hnext : fwd.next = some lineage) : bcs.supportsFastForward = true := by
  cases h with
  | stays hslow hspend hdedup hnone =>
    rw [hnext] at hnone
    cases hnone
  | chained target hff => exact hff
  | lands target hlineage =>
    rw [BundleCoinSpend.supportsFastForward, hlineage]
    rfl

/-- A fast-forward spend is rebased onto the version its singleton has reached
in the block, or else onto the one it carries. -/
theorem Forwards.target (hff : bcs.supportsFastForward = true) :
    ∃ target, Rebases sha256 bcs target fwd ∧
      (ffState.lookup bcs.coinSpend.coin.puzzleHash = some target ∨
        ffState.lookup bcs.coinSpend.coin.puzzleHash = none ∧
          bcs.latestSingletonLineage = some target) := by
  cases h with
  | stays hslow =>
    rw [hff] at hslow
    cases hslow
  | chained target hff htarget hrebases => exact ⟨target, hrebases, .inl htarget⟩
  | lands target hlineage hnone hrebases =>
    exact ⟨target, hrebases, .inr ⟨hnone, hlineage⟩⟩

end

theorem mem_fastForwards (hitem : m.items.lookup name = some item)
    (hbcs : bcs ∈ item.bundleCoinSpends)
    (hff : bcs.supportsFastForward = true) : bcs ∈ m.fastForwards :=
  mem_filter.mpr ⟨mem_flatMap.mpr
    ⟨item, mem_map_of_mem (mem_lookup_iff.mp hitem), hbcs⟩, hff⟩

/-- The committed lineages are `steps` versions after one that an item of the
pool carries. -/
def AtSteps (sha256 : HashFn) (m : Mempool) (steps : Bytes32 → Nat)
    (ffState : IdMap UnspentLineageInfo) : Prop :=
  ∀ puzzleHash, match ffState.lookup puzzleHash with
    | none => steps puzzleHash = 0
    | some lineage => lineage.coinId ∈
        m.landings sha256 puzzleHash (steps puzzleHash)

/-- A fast-forward spend lands on the version its singleton has reached, and
leaves it one version further. -/
theorem Rebases.lands_at {target : UnspentLineageInfo}
    (h : Rebases sha256 bcs target fwd)
    (htarget : ffState.lookup bcs.coinSpend.coin.puzzleHash = some target ∨
      ffState.lookup bcs.coinSpend.coin.puzzleHash = none ∧
        bcs.latestSingletonLineage = some target)
    (hsteps : AtSteps sha256 m steps ffState) (hff : bcs ∈ m.fastForwards) :
    fwd.post.spend.coin.name sha256 ∈ m.landings sha256
        bcs.coinSpend.coin.puzzleHash (steps bcs.coinSpend.coin.puzzleHash) ∧
      ∃ lineage, fwd.next = some lineage ∧
        lineage.coinId ∈ m.landings sha256 bcs.coinSpend.coin.puzzleHash
          (steps bcs.coinSpend.coin.puzzleHash + 1) := by
  have hriders : bcs ∈ m.fastForwards.filter fun other =>
      other.coinSpend.coin.puzzleHash = bcs.coinSpend.coin.puzzleHash :=
    mem_filter.mpr ⟨hff, decide_eq_true rfl⟩
  have hlands : target.coinId ∈ m.landings sha256
      bcs.coinSpend.coin.puzzleHash (steps bcs.coinSpend.coin.puzzleHash) := by
    have hat := hsteps bcs.coinSpend.coin.puzzleHash
    rcases htarget with htarget | ⟨hnone, hlineage⟩
    · rwa [htarget] at hat
    · rw [hnone] at hat
      dsimp only at hat
      rw [hat]
      exact mem_filterMap.mpr ⟨bcs, hriders, by rw [hlineage]; rfl⟩
  obtain ⟨lineage, hnext, hcoin⟩ := h.next
  rw [h.coin]
  refine ⟨hlands, lineage, hnext, ?_⟩
  rw [hcoin]
  exact mem_flatMap.mpr ⟨_, hlands, mem_map_of_mem hriders⟩

end Forward

section Passes

/-- What the fast-forward pass leaves. -/
structure Passed (sha256 : HashFn)
    (ffState : IdMap UnspentLineageInfo) (spends : List BundleCoinSpend)
    (start pass : FfPass) (fwds : List Forwarded) : Prop where
  each : Forall₂ (fun bcs fwd => forwardSpend sha256 ffState bcs = .ok fwd)
    spends fwds
  posts : pass.postFf = start.postFf ++ fwds.map Forwarded.post
  update : ∀ puzzleHash lineage,
    pass.ffUpdate.lookup puzzleHash = some lineage →
      start.ffUpdate.lookup puzzleHash = some lineage ∨
        ∃ bcs ∈ spends, ∃ fwd, forwardSpend sha256 ffState bcs = .ok fwd ∧
          bcs.coinSpend.coin.puzzleHash = puzzleHash ∧ fwd.next = some lineage
  covers : ∀ bcs ∈ spends, ∀ fwd, forwardSpend sha256 ffState bcs = .ok fwd →
    fwd.next.isSome → bcs.coinSpend.coin.puzzleHash ∈ pass.ffUpdate
  grows : ∀ puzzleHash ∈ start.ffUpdate, puzzleHash ∈ pass.ffUpdate
  slow : pass.fastForwarded = 0 → ∀ fwd ∈ fwds, fwd.rebased = false
  counts : start.fastForwarded ≤ pass.fastForwarded

theorem FfPass.push_grows (start : FfPass) (puzzleHash : Bytes32)
    (fwd : Forwarded) :
    ∀ key ∈ start.ffUpdate, key ∈ (start.push puzzleHash fwd).ffUpdate := by
  intro key hkey
  unfold FfPass.push
  dsimp only
  split
  · exact hkey
  · exact (mem_insert _).mpr (.inr hkey)

theorem ffPass_passed {ffState : IdMap UnspentLineageInfo}
    {spends : List BundleCoinSpend} {start pass : FfPass}
    (h : ffPass sha256 ffState spends start = .ok pass) :
    ∃ fwds, Passed sha256 ffState spends start pass fwds := by
  induction spends generalizing start with
  | nil =>
    cases h
    exact ⟨[], .nil, by simp, fun _ _ => .inl, by simp, fun _ => id, by simp,
      le_rfl⟩
  | cons head tail ih =>
    obtain ⟨fwd, hfwd, h⟩ := bind_eq_ok.mp h
    obtain ⟨fwds, htail⟩ := ih h
    have hpush := start.push_grows head.coinSpend.coin.puzzleHash fwd
    refine ⟨fwd :: fwds, .cons hfwd htail.each, ?_, ?_, ?_, ?_, ?_, ?_⟩
    · rw [htail.posts, FfPass.push, append_assoc]
      rfl
    · intro puzzleHash lineage hlookup
      rcases htail.update puzzleHash lineage hlookup with hstart | hspend
      · unfold FfPass.push at hstart
        dsimp only at hstart
        split at hstart
        · exact .inl hstart
        · rename_i next hnext
          rcases lookup_of_insert hstart with ⟨rfl, rfl⟩ | ⟨-, hstart⟩
          · exact .inr ⟨head, mem_cons_self, fwd, hfwd, rfl, hnext⟩
          · exact .inl hstart
      · obtain ⟨bcs, hbcs, hrest⟩ := hspend
        exact .inr ⟨bcs, mem_cons_of_mem _ hbcs, hrest⟩
    · refine forall_mem_cons.mpr ⟨fun fwd' hfwd' hnext => ?_, htail.covers⟩
      obtain rfl : fwd' = fwd := Except.ok.inj (hfwd'.symm.trans hfwd)
      apply htail.grows
      obtain ⟨lineage, hlineage⟩ := Option.isSome_iff_exists.mp hnext
      unfold FfPass.push
      rw [hlineage]
      exact (mem_insert _).mpr (.inl rfl)
    · exact fun key hkey => htail.grows key (hpush key hkey)
    · intro hnone
      have hzero : start.fastForwarded + fwd.rebased.toNat = 0 :=
        Nat.le_zero.mp (hnone ▸ htail.counts)
      refine forall_mem_cons.mpr ⟨?_, htail.slow hnone⟩
      cases hrebased : fwd.rebased with
      | false => rfl
      | true =>
        rw [hrebased] at hzero
        cases hzero
    · exact (Nat.le_add_right _ _).trans htail.counts

/-- Whether the dedup pass adds a spend to the block. -/
def PostFf.isKept (sha256 : HashFn)
    (dedupSpends : IdMap (Bytes × UInt64)) (post : PostFf) : Bool :=
  !post.eligibleForDedup ||
    (dedupSpends.lookup (post.spend.coin.name sha256)).isNone

def PostFf.entry (sha256 : HashFn) (post : PostFf) : Bytes32 × Bytes × UInt64 :=
  (post.spend.coin.name sha256, post.spend.solution, post.cost)

/-- The spends that the dedup pass notes. -/
def PostFf.isNoted (sha256 : HashFn)
    (dedupSpends : IdMap (Bytes × UInt64)) (post : PostFf) : Bool :=
  post.eligibleForDedup && post.isKept sha256 dedupSpends

/-- What the dedup pass leaves. -/
structure Deduped (sha256 : HashFn)
    (dedupSpends : IdMap (Bytes × UInt64)) (posts : List PostFf)
    (start item : ProcessedItem) : Prop where
  unique : item.uniqueSpends = start.uniqueSpends ++
    (posts.filter (PostFf.isKept sha256 dedupSpends)).map PostFf.spend
  noted : item.newDedup = start.newDedup ++
    (posts.filter (PostFf.isNoted sha256 dedupSpends)).map
      (PostFf.entry sha256)
  merged : ∀ post ∈ posts, post.eligibleForDedup = true → ∀ solution cost,
    dedupSpends.lookup (post.spend.coin.name sha256) = some (solution, cost) →
      solution = post.spend.solution
  update : item.ffUpdate = start.ffUpdate

theorem dedupPass_deduped {posts : List PostFf} {start item : ProcessedItem}
    (h : dedupPass sha256 dedupSpends posts start = .ok item) :
    Deduped sha256 dedupSpends posts start item := by
  induction posts generalizing start with
  | nil =>
    cases h
    exact ⟨by simp, by simp, by simp, rfl⟩
  | cons head tail ih =>
    unfold dedupPass at h
    split_ifs at h with hdedup
    · dsimp only at h
      split at h
      · rename_i hnone
        have htail := ih h
        have hkept : head.isKept sha256 dedupSpends = true := by
          simp [isKept, hnone]
        have hnoted : head.isNoted sha256 dedupSpends = true := by
          simp [isNoted, hdedup, hkept]
        refine ⟨?_, ?_, forall_mem_cons.mpr ⟨?_, htail.merged⟩, htail.update⟩
        · rw [htail.unique, filter_cons_of_pos hkept,
            ProcessedItem.push, append_assoc]
          rfl
        · rw [htail.noted, filter_cons_of_pos hnoted, append_assoc]
          rfl
        · intro _ solution cost hlookup
          rw [hnone] at hlookup
          cases hlookup
      · rename_i solution savedCost hsome
        split_ifs at h with hsolution
        have htail := ih h
        have hkept : ¬ head.isKept sha256 dedupSpends = true := by
          simp [isKept, hdedup, hsome]
        have hnoted : ¬ head.isNoted sha256 dedupSpends = true := by
          simp [isNoted, hkept]
        refine ⟨?_, ?_, forall_mem_cons.mpr ⟨?_, htail.merged⟩, htail.update⟩
        · rw [htail.unique, filter_cons_of_neg hkept]
        · rw [htail.noted, filter_cons_of_neg hnoted]
        · intro _ other cost hlookup
          rw [hsome] at hlookup
          cases hlookup
          exact not_not.mp hsolution
    · have htail := ih h
      have hkept : head.isKept sha256 dedupSpends = true := by
        simp [isKept, hdedup]
      have hnoted : ¬ head.isNoted sha256 dedupSpends = true := by
        simp [isNoted, hdedup]
      refine ⟨?_, ?_, forall_mem_cons.mpr ⟨?_, htail.merged⟩, htail.update⟩
      · rw [htail.unique, filter_cons_of_pos hkept,
          ProcessedItem.push, append_assoc]
        rfl
      · rw [htail.noted, filter_cons_of_neg hnoted]
        rfl
      · exact fun hheadDedup => absurd hheadDedup hdedup

end Passes

/-- What the spends of an item become in the block so far. -/
structure Assembly.Resolves (a : Assembly) (s : Selection) (item : MempoolItem)
    (processed : ProcessedItem) (fwds : List Forwarded) : Prop where
  each : Forall₂ (fun bcs fwd =>
    forwardSpend a.sha256 s.ffState bcs = .ok fwd) item.bundleCoinSpends fwds
  nodup : (fwds.map fun fwd => fwd.post.spend.coin.name a.sha256).Nodup
  deduped : Deduped a.sha256 s.dedupSpends (fwds.map Forwarded.post)
    { ffUpdate := processed.ffUpdate } processed
  update : ∀ puzzleHash lineage,
    processed.ffUpdate.lookup puzzleHash = some lineage →
      ∃ bcs ∈ item.bundleCoinSpends, ∃ fwd,
        forwardSpend a.sha256 s.ffState bcs = .ok fwd ∧
          bcs.coinSpend.coin.puzzleHash = puzzleHash ∧ fwd.next = some lineage
  covers : ∀ bcs ∈ item.bundleCoinSpends, ∀ fwd,
    forwardSpend a.sha256 s.ffState bcs = .ok fwd → fwd.next.isSome →
      bcs.coinSpend.coin.puzzleHash ∈ processed.ffUpdate

variable {a : Assembly}

section Resolve

variable {s : Selection} {processed : ProcessedItem}

theorem forwardSpend_of_slow {ffState : IdMap UnspentLineageInfo}
    (h : bcs.supportsFastForward = false) :
    forwardSpend a.sha256 ffState bcs = .ok { post := bcs.asIs } := by
  have hnone : bcs.latestSingletonLineage = none := by
    simpa [BundleCoinSpend.supportsFastForward] using h
  unfold forwardSpend
  dsimp only
  rw [hnone]

section

variable (hformed : item.Formed a.sha256)

include hformed

/-- An item without special spends is added as it is. -/
theorem resolves_asIs (hspecial : item.hasSpecial = false) :
    a.Resolves s item item.asIs
      (item.bundleCoinSpends.map fun bcs => { post := bcs.asIs }) := by
  have hplain : ∀ bcs ∈ item.bundleCoinSpends,
      bcs.eligibleForDedup = false ∧ bcs.supportsFastForward = false := by
    intro bcs hbcs
    have hnone := any_eq_false.mp hspecial bcs hbcs
    simpa using hnone
  have hfwd : ∀ bcs ∈ item.bundleCoinSpends, ∀ fwd,
      forwardSpend a.sha256 s.ffState bcs = .ok fwd → fwd.next = none := by
    intro bcs hbcs fwd h
    rw [forwardSpend_of_slow (hplain bcs hbcs).2] at h
    cases h
    rfl
  have hkept : ∀ bcs ∈ item.bundleCoinSpends,
      bcs.asIs.isKept a.sha256 s.dedupSpends = true ∧
        bcs.asIs.isNoted a.sha256 s.dedupSpends = false := by
    intro bcs hbcs
    simp [isKept, isNoted, asIs, (hplain bcs hbcs).1]
  refine ⟨?_, ?_, ⟨?_, ?_, ?_, rfl⟩, ?_, ?_⟩
  · apply forall₂_map_right_iff.mpr
    apply forall₂_same.mpr
    intro bcs hbcs
    exact forwardSpend_of_slow (hplain bcs hbcs).2
  · rw [map_map]
    exact hformed.nodup
  · rw [filter_eq_self.mpr]
    · simp [MempoolItem.asIs, asIs, comp_def]
    · simp only [map_map, mem_map, comp_apply]
      rintro post ⟨bcs, hbcs, rfl⟩
      exact (hkept bcs hbcs).1
  · rw [filter_eq_nil_iff.mpr]
    · rfl
    · simp only [map_map, mem_map, comp_apply]
      rintro post ⟨bcs, hbcs, rfl⟩
      rw [(hkept bcs hbcs).2]
      exact Bool.false_ne_true
  · simp only [map_map, mem_map, comp_apply]
    rintro post ⟨bcs, hbcs, rfl⟩ hdedup
    rw [show bcs.asIs.eligibleForDedup = bcs.eligibleForDedup from rfl,
      (hplain bcs hbcs).1] at hdedup
    cases hdedup
  · intro puzzleHash lineage h
    exact (lookup_empty_ne_some h).elim
  · intro bcs hbcs fwd h hsome
    rw [hfwd bcs hbcs fwd h] at hsome
    cases hsome

theorem processItemSpends_resolves
    (h : a.processItemSpends item s.dedupSpends s.ffState = .ok processed) :
    ∃ fwds, a.Resolves s item processed fwds := by
  obtain ⟨pass, hpass, h⟩ := bind_eq_ok.mp h
  obtain ⟨⟨⟩, hvalid, h⟩ := bind_eq_ok.mp h
  obtain ⟨fwds, hpassed⟩ := ffPass_passed hpass
  have hdeduped := dedupPass_deduped h
  have hposts : pass.postFf = fwds.map Forwarded.post := by
    rw [hpassed.posts]
    rfl
  have hupdate := hdeduped.update
  dsimp only at hupdate
  refine ⟨fwds, hpassed.each, ?_, ?_, ?_, ?_⟩
  · unfold checkRebased at hvalid
    split_ifs at hvalid with hrebased
    · -- the rebased bundle was run again, and so spends different coins
      split at hvalid
      · rename_i conds hconds
        have hnodup := (conditionsFromSpendBundle_joins hconds).nodup
        rwa [hposts, map_map, map_map] at hnodup
      · cases hvalid
    · have hslow := hpassed.slow (Nat.eq_zero_of_not_pos hrebased)
      refine Eq.mpr (congrArg Nodup (forall₂_map_eq_of_mem
        (fun bcs hbcs fwd hfwd hforward => ?_) hpassed.each)) hformed.nodup
      rw [(forwardSpend_forwards (hformed.children bcs hbcs) hforward).own
        (hslow fwd hfwd)]
      rfl
  · rw [hupdate, ← hposts]
    exact hdeduped
  · intro puzzleHash lineage hlookup
    rw [hupdate] at hlookup
    rcases hpassed.update puzzleHash lineage hlookup with hstart | hspend
    · exact (lookup_empty_ne_some hstart).elim
    · exact hspend
  · rw [hupdate]
    exact hpassed.covers

theorem resolveItem_resolves (h : a.resolveItem s item = .ok processed) :
    ∃ fwds, a.Resolves s item processed fwds := by
  unfold resolveItem at h
  split_ifs at h with hempty hskipped hspecial
  · cases h
    have hnone : item.bundle.coinSpends = [] := by
      rw [← hformed.joined, hempty]
      rfl
    have hplain : item.plain.uniqueSpends = [] := hnone
    refine ⟨[], ?_, nodup_nil, ⟨hplain, rfl, by simp, rfl⟩, ?_, ?_⟩
    · rw [hempty]
      exact .nil
    · intro puzzleHash lineage hlookup
      exact (lookup_empty_ne_some hlookup).elim
    · simp [hempty]
  · cases h
    exact ⟨_, resolves_asIs hformed (Bool.eq_false_iff.mpr hspecial)⟩
  · exact processItemSpends_resolves hformed h

end

end Resolve

/-- The dedup entries of an item are committed. -/
def Selection.noted (s : Selection) (processed : ProcessedItem) : Selection :=
  { s with dedupSpends := commitDedup s.dedupSpends processed.newDedup }

/-- Everything a turn of the selection loop can do. -/
inductive Assembly.Turned (a : Assembly) (s : Selection) (item : MempoolItem) :
    Selection → Prop
  | passed (skippedItems : Nat) : a.Turned s item { s with skippedItems }
  | skipped (processed : ProcessedItem) (skippedItems : Nat)
      (hresolve : a.resolveItem s item = .ok processed)
      (hfits : a.fits s item processed = false) :
      a.Turned s item { s.noted processed with skippedItems }
  | taken (processed : ProcessedItem) (feeSum : UInt64)
      (hresolve : a.resolveItem s item = .ok processed)
      (hfits : a.fits s item processed = true) :
      a.Turned s item (a.commit (s.noted processed) item processed feeSum)

section Loop

theorem turned_considerItem {s : Selection} :
    a.Turned s item (a.considerItem s item).state := by
  unfold considerItem
  split
  · exact .passed s.skippedItems
  split_ifs
  · exact .passed s.skippedItems
  split
  · exact .passed s.skippedItems
  · exact .passed (s.skippedItems + 1)
  rename_i processed hresolve
  unfold considerProcessed
  dsimp only
  split_ifs with hfits hfull hskips
  · exact .taken processed _ hresolve hfits
  · exact .taken processed _ hresolve hfits
  · exact .skipped processed _ hresolve (Bool.eq_false_iff.mpr hfits)
  · exact .skipped processed _ hresolve (Bool.eq_false_iff.mpr hfits)

/-- What every turn keeps holds of what the loop leaves, for the items that it
has come to. -/
theorem selectLoop_keeps {order : List MempoolItem}
    {Inv : List MempoolItem → Selection → Prop}
    (hturn : ∀ done item rest s s', order = done ++ item :: rest → Inv done s →
      a.Turned s item s' → Inv (done ++ [item]) s')
    (rest done : List MempoolItem) (index : Nat) (s : Selection)
    (horder : order = done ++ rest) (h : Inv done s) :
    ∃ done' rest', order = done' ++ rest' ∧
      Inv done' (a.selectLoop index rest s) := by
  induction rest generalizing done index s with
  | nil => exact ⟨done, [], horder, h⟩
  | cons item rest ih =>
    have hturned : a.Turned s item (a.considerItem s item).state :=
      turned_considerItem
    unfold selectLoop
    split_ifs
    · exact ⟨done, item :: rest, horder, h⟩
    split
    · rename_i s' hstop
      rw [hstop] at hturned
      refine ⟨done ++ [item], rest, ?_, hturn done item rest s s' horder h
        hturned⟩
      rw [horder, append_assoc]
      rfl
    · rename_i s' hgo
      rw [hgo] at hturned
      apply ih (done ++ [item]) (index + 1) s'
      · rw [horder, append_assoc]
        rfl
      · exact hturn done item rest s s' horder h hturned

variable {newDedup : List (Bytes32 × Bytes × UInt64)}

theorem lookup_commitDedup {coinId : Bytes32} {value : Bytes × UInt64}
    (h : (commitDedup dedupSpends newDedup).lookup coinId = some value) :
    (coinId, value) ∈ newDedup ∨ dedupSpends.lookup coinId = some value := by
  unfold commitDedup at h
  induction newDedup generalizing dedupSpends with
  | nil => exact .inr h
  | cons head tail ih =>
    rcases ih h with htail | hhead
    · exact .inl (mem_cons_of_mem _ htail)
    · rcases lookup_of_insert hhead with ⟨rfl, rfl⟩ | ⟨-, hhead⟩
      · exact .inl mem_cons_self
      · exact .inr hhead

theorem mem_commitDedup {coinId : Bytes32} :
    coinId ∈ commitDedup dedupSpends newDedup ↔
      coinId ∈ newDedup.map Prod.fst ∨ coinId ∈ dedupSpends := by
  unfold commitDedup
  induction newDedup generalizing dedupSpends with
  | nil => simp
  | cons head tail ih =>
    rw [foldl_cons, ih, mem_insert, map_cons, mem_cons]
    constructor
    · rintro (htail | hhead | hold)
      · exact .inl (.inr htail)
      · exact .inl (.inl hhead)
      · exact .inr hold
    · rintro ((hhead | htail) | hold)
      · exact .inr (.inl hhead)
      · exact .inl htail
      · exact .inr (.inr hold)

/-- Including an item takes the singletons it spends one version further. -/
theorem AtSteps.commit {m : Mempool} {s : Selection} {processed : ProcessedItem}
    {fwds : List Forwarded} (h : AtSteps a.sha256 m steps s.ffState)
    (hitem : m.items.lookup name = some item) (hformed : item.Formed a.sha256)
    (hresolves : a.Resolves s item processed fwds) :
    AtSteps a.sha256 m (fun puzzleHash =>
        if puzzleHash ∈ processed.ffUpdate then steps puzzleHash + 1
        else steps puzzleHash)
      (commitFf s.ffState processed.ffUpdate) := by
  intro puzzleHash
  unfold commitFf
  dsimp only
  by_cases hmem : puzzleHash ∈ processed.ffUpdate
  · rw [lookup_union_left hmem, if_pos hmem]
    obtain ⟨lineage, hlineage⟩ :=
      Option.isSome_iff_exists.mp (lookup_isSome.mpr hmem)
    rw [hlineage]
    obtain ⟨bcs, hbcs, fwd, hforward, rfl, hnext⟩ :=
      hresolves.update puzzleHash lineage hlineage
    have hforwards := forwardSpend_forwards (hformed.children bcs hbcs) hforward
    have hff := hforwards.fast hnext
    obtain ⟨target, hrebases, htarget⟩ := hforwards.target hff
    obtain ⟨-, lineage', hnext', hlands⟩ := hrebases.lands_at htarget h
      (mem_fastForwards hitem hbcs hff)
    rw [hnext] at hnext'
    cases hnext'
    exact hlands
  · rw [lookup_union_right hmem, if_neg hmem]
    exact h puzzleHash

theorem mem_itemsByFee {m : Mempool} :
    item ∈ itemsByFee m ↔ ∃ name, m.items.lookup name = some item := by
  unfold itemsByFee IdMap.values
  rw [mem_mergeSort, mem_map]
  constructor
  · rintro ⟨entry, hentry, rfl⟩
    exact ⟨entry.1, mem_lookup_iff.mpr hentry⟩
  · rintro ⟨name, hitem⟩
    exact ⟨⟨name, item⟩, mem_lookup_iff.mp hitem, rfl⟩

end Loop

end DgXch
