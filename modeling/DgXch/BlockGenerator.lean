/-
The two ways a node turns coin spends into conditions,
`conditions_from_spend_bundle` for the mempool and
`execute_block_generator_result` for a block, and the plain generator that a
producer builds from the same spends.  Running a CLVM program is a parameter.
-/
import DgXch.BackrefSerializer
import DgXch.BlockConditions

namespace DgXch

open TwosComplement

/-- `Program::run` and `ClvmRuntime::run_in_arena`. -/
abbrev ClvmRun :=
  UInt64 → UInt32 → SExp → SExp → ClvmResult (UInt64 × SExp)

/-- `CoinSpend`; the puzzle reveal and the solution are serialized. -/
structure CoinSpend where
  coin : Coin
  puzzleReveal : Bytes
  solution : Bytes
deriving Repr, DecidableEq

/-- What the loops over the spends of a block or a bundle carry along. -/
structure BundleState where
  conds : SpendBundleConditions
  spent : List Bytes32 := []
  created : List Bytes32 := []
  conditionsCost : UInt64 := 0
deriving Repr, DecidableEq

/-- One puzzle that has been run: the coin, the cost and the output. -/
structure SpendRun where
  coin : Coin
  puzzleCost : UInt64
  output : SExp
deriving Repr, DecidableEq

/-- `spent.insert(coin.name())`. -/
def markSpent (sha256 : HashFn) (coin : Coin) (state : BundleState) :
    ClvmResult BundleState :=
  if coin.name sha256 ∈ state.spent then
    .error (.doubleSpend (coin.name sha256))
  else .ok { state with spent := coin.name sha256 :: state.spent }

/-- The end of both loop bodies: the created coins are new, and the spend is
pushed. -/
def recordSpend (sha256 : HashFn) (acc : Accumulators)
    (puzzleCost : UInt64) (state : BundleState) : ClvmResult BundleState := do
  let spend := { acc.spend with executionCost := puzzleCost }
  let created ← insertAll ClvmError.duplicateCreate (spend.createdIds sha256)
    state.created
  .ok { state with
    conds := { acc.conds with spends := acc.conds.spends ++ [spend] }
    created
    conditionsCost := acc.extraCost }

/-- The end of both functions: the cost of the conditions is added. -/
def addConditionsCost (maxCost : UInt64) (state : BundleState) :
    ClvmResult SpendBundleConditions := do
  let cost ← addOrOverflow "block generator cost overflow" state.conds.cost
    state.conditionsCost
  if maxCost < cost then .error (.costExceeded maxCost cost)
  else .ok { state.conds with cost }

/-- `max_cost.checked_sub(cost)`. -/
def costLeft (maxCost cost : UInt64) : ClvmResult UInt64 :=
  if cost ≤ maxCost then .ok (maxCost - cost)
  else .error (.costExceeded maxCost cost)

section Stream

variable (sha256 : HashFn) (constants : ConsensusConstants) (maxCost : UInt64)

/-- The body of the loop of `conditions_from_generator_output` after the puzzle
has been run. -/
def streamSpend (spendRun : SpendRun) (state : BundleState) :
    ClvmResult BundleState := do
  let cost ← addOrOverflow "puzzle execution cost overflow" state.conds.cost
    spendRun.puzzleCost
  let acc ← parseAndApplySpendFromArena sha256 constants spendRun.coin maxCost
    false spendRun.output { state.conds with cost } state.conditionsCost
  recordSpend sha256 acc spendRun.puzzleCost state

/-- The loop of `conditions_from_generator_output` on puzzles that have been
run. -/
def streamSpends : List SpendRun → BundleState → ClvmResult BundleState
  | [], state => .ok state
  | spendRun :: rest, state => do
      let state ← markSpent sha256 spendRun.coin state
      let state ← streamSpend sha256 constants maxCost spendRun state
      streamSpends rest state

end Stream

/-- `Bytes32::parse`: padded on the left. -/
def Bytes32.parse (bytes : Bytes) : ClvmResult Bytes32 :=
  if hlength : bytes.length ≤ 32 then
    .ok ⟨List.replicate (32 - bytes.length) 0 ++ bytes, by simp; omega⟩
  else
    .error (.invalidInput ("Too Many Bytes Sent to parse, expected 32 got " ++
      toString bytes.length))

def parseAtomBytes32 (sexp : SExp) : ClvmResult Bytes32 :=
  match sexp with
  | .atom data => Bytes32.parse data
  | .pair _ _ => .error (.expectedAtomGotPair sexp)

def asIntToU64 (sexp : SExp) : ClvmResult UInt64 :=
  match sexp with
  | .atom data =>
    let value := numberFromSlice data
    if 0 ≤ value ∧ value < 2 ^ 64 then .ok (UInt64.ofNat value.toNat)
    else .error (.atomNotValidU64 sexp)
  | .pair _ _ => .error (.expectedAtomGotPair sexp)

def sexpFirst (sexp : SExp) : ClvmResult SExp :=
  match sexp with
  | .pair first _ => .ok first
  | .atom _ => .error (.expectedPairGotAtom sexp)

section Output

variable (sha256 : HashFn) (constants : ConsensusConstants) (maxCost : UInt64)

/-- One spend of a generator's output: its coin, puzzle reveal and solution. -/
def generatorSpend (revealHash : Option Bytes32) (spendSexp : SExp) :
    ClvmResult (Coin × SExp × SExp) :=
  match spendSexp.refList with
  | parent :: reveal :: amount :: solution :: _ => do
      let parentId ← parseAtomBytes32 parent
      let amount ← asIntToU64 amount
      .ok (⟨parentId, revealHash.getD (treeHash sha256 reveal), amount⟩,
        reveal, solution)
  | _ => .error (.invalidSpendbundle
      "generator spend must be (parent puzzle_reveal amount solution . extra)")

/-- The loop of `conditions_from_generator_output`. -/
def generatorLoop (run : ClvmRun) (clvmFlags : UInt32)
    (revealHashes : List Bytes32) :
    Nat → List SExp → BundleState → ClvmResult BundleState
  | _, [], state => .ok state
  | index, spendSexp :: rest, state => do
      let (coin, reveal, solution) ←
        generatorSpend sha256 revealHashes[index]? spendSexp
      let state ← markSpent sha256 coin state
      let left ← costLeft maxCost state.conds.cost
      let (puzzleCost, output) ← run left clvmFlags reveal solution
      let state ← streamSpend sha256 constants maxCost
        ⟨coin, puzzleCost, output⟩ state
      generatorLoop run clvmFlags revealHashes (index + 1) rest state

def conditionsFromGeneratorOutput (run : ClvmRun) (output : SExp)
    (cost : UInt64) (clvmFlags : UInt32) (revealHashes : List Bytes32) :
    ClvmResult SpendBundleConditions := do
  let allSpends ← sexpFirst output
  let state ← generatorLoop sha256 constants maxCost run clvmFlags revealHashes
    0 allSpends.refList ⟨{ cost }, [], [], 0⟩
  addConditionsCost maxCost state

/-- The body of the loop of `conditions_from_processed_generator_output`. -/
def processedSpend (spendSexp : SExp) (state : BundleState) :
    ClvmResult BundleState :=
  match spendSexp.refList with
  | parent :: puzzleHash :: amount :: conditions :: _ => do
      let parentId ← parseAtomBytes32 parent
      let puzzleHash ← parseAtomBytes32 puzzleHash
      let amount ← asIntToU64 amount
      let coin : Coin := ⟨parentId, puzzleHash, amount⟩
      let state ← markSpent sha256 coin state
      let conditions ← conditionsFromSexp conditions
      let acc ← spendFromConditions sha256 coin conditions state.conds constants
        state.conditionsCost false
      recordSpend sha256 acc 0 state
  | _ => .error (.invalidSpendbundle
      "generator spend must be (parent puzzle_hash amount conditions . extra)")

/-- The loop of `conditions_from_processed_generator_output`. -/
def processedLoop : List SExp → BundleState → ClvmResult BundleState
  | [], state => .ok state
  | spendSexp :: rest, state => do
      let state ← processedSpend sha256 constants spendSexp state
      processedLoop rest state

def conditionsFromProcessedGeneratorOutput (output : SExp) (cost : UInt64) :
    ClvmResult SpendBundleConditions := do
  let allSpends ← sexpFirst output
  let state ← processedLoop sha256 constants allSpends.refList
    ⟨{ cost }, [], [], 0⟩
  addConditionsCost maxCost state

end Output

def mapConditionError : ClvmError → ChiaError
  | .invalidPublicKey _ => .invalidCondition
  | .costExceeded _ _ => .blockCostExceedsMax
  | .doubleSpend _ => .doubleSpend
  | .duplicateCreate _ => .duplicateOutput
  | .conditionFailure err => err
  | _ => .invalidBlockSolution

def generatorRunError : ClvmError → ChiaError
  | .costExceeded _ _ => .blockCostExceedsMax
  | _ => .generatorRuntimeError

structure GeneratorReference where
  height : UInt32
  generator : Bytes
deriving Repr, DecidableEq

structure BlockGeneratorFlags where
  clvmFlags : UInt32
  simpleGenerator : Bool
deriving Repr, DecidableEq

def BlockGeneratorFlags.forHeight (constants : ConsensusConstants)
    (height : UInt32) : BlockGeneratorFlags :=
  let clvmFlags : UInt32 :=
    if constants.hardFork2Height ≤ height then
      -- keccak outside the fork, condition costs, new cost model, relaxed BLS
      0x100 ||| 0x800000 ||| 0x2000 ||| 0x4000
    else if constants.softFork8Height ≤ height then 0x200
    else 0
  let clvmFlags :=
    if constants.softFork9Height ≤ height then
      let clvmFlags := clvmFlags ||| 0x4000000
      if height < constants.hardFork2Height then clvmFlags ||| 0x40
      else clvmFlags
    else clvmFlags
  ⟨clvmFlags, constants.hardForkHeight ≤ height⟩

structure BlockGeneratorInput where
  transactionsGenerator : Bytes
  generatorRefs : List GeneratorReference
  constants : ConsensusConstants
  height : UInt32
  flags : BlockGeneratorFlags
deriving Repr, DecidableEq

variable (serialized : Bytes)

def checkSimpleGenerator (generator : SExp) : Except ChiaError Unit := do
  require (serialized.take 2 = [0xff, 0x01]) .complexGeneratorReceived
  match generator with
  | .pair operator _ => require (operator = .atom [1]) .complexGeneratorReceived
  | .atom _ => .error .complexGeneratorReceived

/-- `simple_generator_reveal_hashes`; the source answers `None` where the list
is empty here because the generator has no spend list. -/
def simpleGeneratorRevealHashes (sha256 : HashFn) (generator : SExp) :
    List Bytes32 :=
  match generator with
  | .pair _ (.pair allSpends _) =>
    (allSpends.refList.map SExp.refList).takeWhile (fun parts =>
      4 ≤ parts.length) |>.map fun parts =>
        treeHash sha256 (parts.getD 1 SExp.nil)
  | _ => []

variable (input : BlockGeneratorInput)

def generatorRefAtoms : SExp :=
  .ofList (input.generatorRefs.map fun reference => .atom reference.generator)

def toProgramBackrefs : ClvmResult SExp := do
  let (sexp, _) ← sexpFromBytesBackrefs ⟨serialized, 0⟩
  .ok sexp

def checkGeneratorRef (reference : GeneratorReference) :
    Except ChiaError Unit := do
  require (reference.height < input.height) .futureGeneratorRefs
  match toProgramBackrefs reference.generator with
  | .ok _ => .ok ()
  | .error _ => .error .generatorRefHasNoGenerator

/-- The checks of `execute_block_generator_result` before the generator is
parsed. -/
def checkGeneratorInput : Except ChiaError Unit := do
  require (input.transactionsGenerator.length ≤
    input.constants.maxGeneratorSize.toNat) .invalidTransactionsGeneratorHash
  require (input.generatorRefs.length ≤
    input.constants.maxGeneratorRefListSize.toNat) .tooManyGeneratorRefs
  input.generatorRefs.forM (checkGeneratorRef input)
  require (!input.flags.simpleGenerator || input.generatorRefs.isEmpty)
    .tooManyGeneratorRefs

def generatorByteCost : Except ChiaError UInt64 :=
  let size := UInt64.ofNat input.transactionsGenerator.length
  if size.toNat * input.constants.costPerByte.toNat < 2 ^ 64 then
    .ok (size * input.constants.costPerByte)
  else .error .invalidCostResult

/-- `execute_block_generator_result`; `rom` is the bootstrap program that runs
a generator that is not simple. -/
def executeBlockGeneratorResult (sha256 : HashFn) (run : ClvmRun)
    (rom : SExp) (input : BlockGeneratorInput) :
    Except ChiaError SpendBundleConditions := do
  checkGeneratorInput input
  let generator ← (toProgramBackrefs input.transactionsGenerator).mapError
    fun _ => .invalidBlockSolution
  (if input.flags.simpleGenerator then
    checkSimpleGenerator input.transactionsGenerator generator
  else .ok ())
  let maxCost := input.constants.maxBlockCostClvm
  let byteCost ← generatorByteCost input
  let left ← (costLeft maxCost byteCost).mapError mapConditionError
  let (cost, output) ←
    (if input.flags.simpleGenerator then
      run left input.flags.clvmFlags generator SExp.nil
    else
      run left input.flags.clvmFlags rom
        (.ofList [generator, .ofList [generatorRefAtoms input]])).mapError
      generatorRunError
  let cost ← (addOrOverflow "" byteCost cost).mapError
    fun _ => .invalidCostResult
  (if input.flags.simpleGenerator then
    conditionsFromGeneratorOutput sha256 input.constants maxCost run output cost
      input.flags.clvmFlags (simpleGeneratorRevealHashes sha256 generator)
  else
    conditionsFromProcessedGeneratorOutput sha256 input.constants maxCost output
      cost).mapError mapConditionError

/-- The inner `clvm_bytes_len` of `spend_bundle_generator_length`. -/
def clvmBytesLen (val : UInt64) : Nat :=
  if val < 0x80 then 1
  else if val < 0x8000 then 3
  else if val < 0x800000 then 4
  else if val < 0x80000000 then 5
  else if val < 0x8000000000 then 6
  else if val < 0x800000000000 then 7
  else if val < 0x80000000000000 then 8
  else if val < 0x8000000000000000 then 9
  else 10

variable (spends : List CoinSpend)

def spendBundleGeneratorLength : Nat :=
  spends.foldl (fun size s => size + (39 + s.puzzleReveal.length +
    clvmBytesLen s.coin.amount + s.solution.length)) 5

/-- `MEMPOOL_MODE`: no unknown operators and a limited heap. -/
def mempoolMode : UInt32 := 0x2 ||| 0x4

def fromSerial : ClvmResult SExp := do
  let (sexp, _) ← sexpFromBytes ⟨serialized, 0⟩
  .ok sexp

section Bundle

variable (sha256 : HashFn) (run : ClvmRun) (constants : ConsensusConstants)

/-- The body of the loop of `conditions_from_spend_bundle`. -/
def bundleSpend (clvmFlags : UInt32) (coinSpend : CoinSpend)
    (state : BundleState) : Except ChiaError BundleState := do
  let reveal ← (fromSerial coinSpend.puzzleReveal).mapError mapConditionError
  let solution ← (fromSerial coinSpend.solution).mapError mapConditionError
  require (treeHash sha256 reveal = coinSpend.coin.puzzleHash) .wrongPuzzleHash
  let state ← (markSpent sha256 coinSpend.coin state).mapError
    mapConditionError
  let left ← (costLeft constants.maxBlockCostClvm state.conds.cost).mapError
    mapConditionError
  let (puzzleCost, output) ←
    (run left clvmFlags reveal solution).mapError mapConditionError
  let cost ← (addOrOverflow "" state.conds.cost puzzleCost).mapError
    fun _ => .blockCostExceedsMax
  let conditions ← (conditionsFromSexp output).mapError mapConditionError
  let acc ← (spendFromConditions sha256 coinSpend.coin conditions
    { state.conds with cost } constants state.conditionsCost true).mapError
      mapConditionError
  (recordSpend sha256 acc puzzleCost state).mapError mapConditionError

/-- The loop of `conditions_from_spend_bundle`. -/
def bundleSpends (clvmFlags : UInt32) :
    List CoinSpend → BundleState → Except ChiaError BundleState
  | [], state => .ok state
  | coinSpend :: rest, state => do
      let state ← bundleSpend sha256 run constants clvmFlags coinSpend state
      bundleSpends clvmFlags rest state

def clearFfForBundleCommitments (conds : SpendBundleConditions) :
    SpendBundleConditions :=
  let spentCoins := conds.spends.map Spend.coinId
  let committed := conds.spends.flatMap Spend.assertConcurrentSpend
  let clear (spend : Spend) : Spend :=
    { spend with flags := spend.flags &&& ~~~eligibleForFf }
  let spends := conds.spends.map fun spend =>
    if spend.coinId ∈ committed then clear spend else spend
  { conds with spends := spends.map fun spend =>
    if (spend.createdIds sha256).any (· ∈ spentCoins) then clear spend
    else spend }

def conditionsFromSpendBundle (coinSpends : List CoinSpend) (height : UInt32) :
    Except ChiaError SpendBundleConditions := do
  let flags := BlockGeneratorFlags.forHeight constants height
  let byteCost := UInt64.ofNat (spendBundleGeneratorLength coinSpends - 2) *
    constants.costPerByte
  let state ← bundleSpends sha256 run constants
    (flags.clvmFlags ||| mempoolMode) coinSpends
    ⟨{ cost := byteCost }, [], [], 0⟩
  let conds ← (addConditionsCost constants.maxBlockCostClvm state).mapError
    fun _ => .blockCostExceedsMax
  .ok (clearFfForBundleCommitments sha256 conds)

end Bundle

/-- One item of `build_generator_tree`. -/
def generatorItem (s : CoinSpend) : ClvmResult SExp := do
  let puzzle ← fromSerial s.puzzleReveal
  let solution ← fromSerial s.solution
  .ok (.ofList [.atom s.coin.parentCoinInfo.bytes, puzzle,
    .atom (bigintToBytes s.coin.amount.toNat), solution])

/-- `build_generator_tree`: the quoted list of the spend list. -/
def buildGeneratorTree : ClvmResult SExp := do
  let items ← spends.mapM generatorItem
  .ok (.pair (.atom [1]) (.ofList [.ofList items]))

def simpleSolutionGenerator : ClvmResult Bytes := do
  let tree ← buildGeneratorTree spends
  liftIo (sexpToBytes tree)

open List DgXch.Except

variable {coinSpend : CoinSpend} {mempool : Bool}
  {conditions : List ConditionWithArgs} {height : UInt32}

variable {state state' : BundleState} {coinSpends : List CoinSpend}
  {conds : SpendBundleConditions}

/-- A spend is about a coin. -/
structure Spend.IsOf (sha256 : HashFn) (coin : Coin)
    (spend : Spend) : Prop where
  identity : spend.coin = coin
  coinId : spend.coinId = coin.name sha256

variable {sha256 : HashFn} {constants : ConsensusConstants}

section Conditions

variable {coin : Coin} {condition : ConditionWithArgs} {acc acc' : Accumulators}

theorem applyConditions_coin {index : Nat}
    (hloop : applyConditions sha256 constants coin mempool index conditions
      acc = .ok acc') :
    acc'.spend.coin = acc.spend.coin ∧ acc'.frame = acc.frame := by
  induction conditions generalizing index acc with
  | nil =>
    cases hloop
    exact ⟨rfl, rfl⟩
  | cons head tail ih =>
    obtain ⟨mid, hstep, hloop⟩ := bind_eq_ok.mp hloop
    obtain ⟨flags, happly⟩ := applyParsedCondition_eq_ok hstep
    obtain ⟨-, -, -, hcoin⟩ := applyCondition_views happly
    obtain ⟨-, -, hframe⟩ := applyParsedCondition_views hstep
    obtain ⟨hcoin', hframe'⟩ := ih hloop
    exact ⟨hcoin'.trans hcoin, hframe'.trans hframe⟩

theorem spendFromConditions_isOf {extraCost : UInt64}
    (hspend : spendFromConditions sha256 coin conditions conds constants
      extraCost mempool = .ok acc) :
    acc.spend.IsOf sha256 coin ∧ acc.conds.spends = conds.spends := by
  obtain ⟨start, hstart, hspend⟩ := bind_eq_ok.mp hspend
  obtain ⟨last, hloop, hacc⟩ := bind_eq_ok.mp hspend
  obtain ⟨removalAmount, rfl⟩ := startSpend_eq_ok hstart
  obtain ⟨hcoin, hframe⟩ := applyConditions_coin hloop
  obtain ⟨flags, conditionCost, hfinal⟩ :=
    finalizeSpend_eq last.spend last.extraCost extraCost mempool
  cases hacc
  refine ⟨⟨?_, ?_⟩, congrArg Frame.spends hframe⟩
  · dsimp only
    rw [hfinal]
    exact hcoin
  · dsimp only
    rw [hfinal]
    exact congrArg Frame.coinId hframe

end Conditions

/-- The spends of a bundle's conditions are its coin spends, and their coins
are distinct. -/
structure Joins (sha256 : HashFn) (coinSpends : List CoinSpend)
    (conds : SpendBundleConditions) : Prop where
  spends : Forall₂ (fun (coinSpend : CoinSpend) (spend : Spend) =>
    spend.IsOf sha256 coinSpend.coin) coinSpends conds.spends
  nodup : (coinSpends.map fun coinSpend => coinSpend.coin.name sha256).Nodup

section Bundle

variable {run : ClvmRun} {clvmFlags : UInt32}

/-- What a turn of the loop has found: a puzzle that was run, whose conditions
make the spend that is pushed. -/
theorem bundleSpend_eq_ok
    (h : bundleSpend sha256 run constants clvmFlags coinSpend state =
      .ok state') :
    ∃ reveal solution left puzzleCost output cost conditions acc created,
      fromSerial coinSpend.puzzleReveal = .ok reveal ∧
      fromSerial coinSpend.solution = .ok solution ∧
      treeHash sha256 reveal = coinSpend.coin.puzzleHash ∧
      coinSpend.coin.name sha256 ∉ state.spent ∧
      run left clvmFlags reveal solution = .ok (puzzleCost, output) ∧
      conditionsFromSexp output = .ok conditions ∧
      spendFromConditions sha256 coinSpend.coin conditions
        { state.conds with cost } constants state.conditionsCost true =
          .ok acc ∧
      insertAll ClvmError.duplicateCreate (acc.spend.createdIds sha256)
        state.created = .ok created ∧
      state' = ⟨{ acc.conds with spends := acc.conds.spends ++
          [{ acc.spend with executionCost := puzzleCost }] },
        coinSpend.coin.name sha256 :: state.spent, created, acc.extraCost⟩ := by
  obtain ⟨reveal, hreveal, h⟩ := bind_eq_ok.mp h
  obtain ⟨solution, hsolution, h⟩ := bind_eq_ok.mp h
  obtain ⟨⟨⟩, hhash, h⟩ := bind_eq_ok.mp h
  obtain ⟨marked, hmark, h⟩ := bind_eq_ok.mp h
  obtain ⟨left, -, h⟩ := bind_eq_ok.mp h
  obtain ⟨⟨puzzleCost, output⟩, hrun, h⟩ := bind_eq_ok.mp h
  obtain ⟨cost, -, h⟩ := bind_eq_ok.mp h
  obtain ⟨conditions, hconditions, h⟩ := bind_eq_ok.mp h
  obtain ⟨acc, hacc, h⟩ := bind_eq_ok.mp h
  obtain ⟨created, hcreated, hstate⟩ := bind_eq_ok.mp (mapError_eq_ok.mp h)
  have hmark := mapError_eq_ok.mp hmark
  unfold markSpent at hmark
  split_ifs at hmark with hspent
  cases hmark
  exact ⟨reveal, solution, left, puzzleCost, output, cost, conditions, acc,
    created, mapError_eq_ok.mp hreveal, mapError_eq_ok.mp hsolution,
    of_decide_eq_true (require_eq_ok.mp hhash), hspent,
    mapError_eq_ok.mp hrun, mapError_eq_ok.mp hconditions,
    mapError_eq_ok.mp hacc, hcreated, (Except.ok.inj hstate).symm⟩

theorem bundleSpends_joins
    (h : bundleSpends sha256 run constants clvmFlags coinSpends state =
      .ok state') :
    (∃ spends, state'.conds.spends = state.conds.spends ++ spends ∧
      Forall₂ (fun (coinSpend : CoinSpend) (spend : Spend) =>
        spend.IsOf sha256 coinSpend.coin) coinSpends spends) ∧
      (coinSpends.map fun c => c.coin.name sha256).Nodup ∧
      ∀ c ∈ coinSpends, c.coin.name sha256 ∉ state.spent := by
  induction coinSpends generalizing state with
  | nil =>
    cases h
    exact ⟨⟨[], (append_nil _).symm, .nil⟩, nodup_nil, by simp⟩
  | cons head tail ih =>
    obtain ⟨mid, hhead, htail⟩ := bind_eq_ok.mp h
    obtain ⟨_, _, _, puzzleCost, _, _, _, acc, _, -, -, -, hfresh, -, -, hacc,
      -, rfl⟩ := bundleSpend_eq_ok hhead
    obtain ⟨hof, hpush⟩ := spendFromConditions_isOf hacc
    obtain ⟨⟨spends, hspends, hjoin⟩, hnodup, hunspent⟩ := ih htail
    refine ⟨⟨{ acc.spend with executionCost := puzzleCost } :: spends, ?_,
      .cons ⟨hof.identity, hof.coinId⟩ hjoin⟩, ?_, ?_⟩
    · rw [hspends, ← hpush, append_assoc]
      rfl
    · refine nodup_cons.mpr ⟨?_, hnodup⟩
      intro hmem
      obtain ⟨later, hlater, heq⟩ := mem_map.mp hmem
      exact hunspent later hlater (heq ▸ mem_cons_self)
    · exact forall_mem_cons.mpr ⟨hfresh, fun c hc hmem =>
        hunspent c hc (mem_cons_of_mem _ hmem)⟩

theorem Spend.IsOf.withFlags {coin : Coin} {spend : Spend}
    (h : spend.IsOf sha256 coin) (flags : UInt32) :
    Spend.IsOf sha256 coin { spend with flags } :=
  ⟨h.identity, h.coinId⟩

/-- The conditions of a bundle join with its coin spends. -/
theorem conditionsFromSpendBundle_joins
    (h : conditionsFromSpendBundle sha256 run constants coinSpends height =
      .ok conds) : Joins sha256 coinSpends conds := by
  obtain ⟨state, hstate, h⟩ := bind_eq_ok.mp h
  obtain ⟨summed, hsummed, h⟩ := bind_eq_ok.mp h
  obtain ⟨⟨spends, hspends, hjoin⟩, hnodup, -⟩ := bundleSpends_joins hstate
  obtain ⟨cost, -, hsummed⟩ := bind_eq_ok.mp (mapError_eq_ok.mp hsummed)
  split_ifs at hsummed
  cases hsummed
  cases h
  refine ⟨?_, hnodup⟩
  unfold clearFfForBundleCommitments
  dsimp only
  rw [hspends]
  rw [forall₂_map_right_iff, forall₂_map_right_iff]
  apply hjoin.imp
  intro coinSpend spend hof
  split_ifs
  · exact (hof.withFlags _).withFlags _
  · exact hof.withFlags _
  · exact hof.withFlags _
  · exact hof

/-- The puzzle reveal is a program with the puzzle hash of the coin. -/
def CoinSpend.Revealed (sha256 : HashFn) (coinSpend : CoinSpend) : Prop :=
  ∃ puzzle, fromSerial coinSpend.puzzleReveal = .ok puzzle ∧
    treeHash sha256 puzzle = coinSpend.coin.puzzleHash

/-- Every spend of a bundle that has conditions reveals its puzzle. -/
theorem bundleSpends_revealed
    (h : bundleSpends sha256 run constants clvmFlags coinSpends state =
      .ok state') : ∀ c ∈ coinSpends, c.Revealed sha256 := by
  induction coinSpends generalizing state with
  | nil => simp
  | cons head tail ih =>
    obtain ⟨mid, hhead, htail⟩ := bind_eq_ok.mp h
    obtain ⟨reveal, _, _, _, _, _, _, _, _, hreveal, -, hhash, -⟩ :=
      bundleSpend_eq_ok hhead
    exact forall_mem_cons.mpr ⟨⟨reveal, hreveal, hhash⟩, ih htail⟩

end Bundle

end DgXch
