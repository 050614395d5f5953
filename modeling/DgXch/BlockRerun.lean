/-
The re-run of an assembled block.  The compressed generator reads back as the
quoted list of its spends, so running it visits the emitted spends, the last one
first, and succeeds only if their coins are different; only the check for a
spent coin reports a double spend.
-/
import Mathlib.Data.List.TakeWhile
import DgXch.BackrefRoundTrip
import DgXch.BlockAssembly

namespace DgXch

open List DgXch.Except SExp

variable {spends : List CoinSpend} {state state' : BundleState}
  {items : List SExp} {spend : CoinSpend} {item : SExp}

section Encodable

theorem AtomToken.length_lt {token data : Bytes} (h : AtomToken token data) :
    data.length < maxDecodeSize := by
  cases h with
  | nil => decide
  | byte b hb =>
    rw [length_singleton]
    decide
  | sized lead tail data hlead hwidth hsize hspells => exact hsize

variable {t : SExp}

theorem Reads.encodable {w : Bytes} (h : Reads w t) : t.Encodable := by
  induction h with
  | atom htoken =>
    intro data hdata
    rw [atoms, mem_singleton] at hdata
    rw [hdata]
    exact htoken.length_lt
  | pair hfirst hrest ihfirst ihrest =>
    exact forall_mem_append.mpr ⟨ihfirst, ihrest⟩

theorem fromSerial_eq_ok {serialized : Bytes} (hne : serialized ≠ []) :
    fromSerial serialized = .ok t ↔
      ∃ w back, Reads w t ∧ serialized = w ++ back := by
  have hrest : (⟨serialized, 0⟩ : Cursor).rest ≠ [] := hne
  constructor
  · intro h
    obtain ⟨⟨tree, next⟩, hparse, h⟩ := bind_eq_ok.mp h
    cases h
    obtain ⟨w, back, hreads, hw, -⟩ := (sexpFromBytes_eq_ok hrest).mp hparse
    exact ⟨w, back, hreads, hw⟩
  · rintro ⟨w, back, hreads, hw⟩
    rw [fromSerial, (sexpFromBytes_eq_ok hrest).mpr ⟨w, back, hreads, hw, rfl⟩]
    rfl

/-- A parsed program can be written again. -/
theorem fromSerial_encodable {serialized : Bytes}
    (h : fromSerial serialized = .ok t) : t.Encodable := by
  by_cases hempty : serialized = []
  · subst hempty
    cases h
    decide
  · obtain ⟨w, back, hreads, -⟩ := (fromSerial_eq_ok hempty).mp h
    exact hreads.encodable

theorem SExp.Encodable.pair {first rest : SExp} (hfirst : first.Encodable)
    (hrest : rest.Encodable) : (pair first rest).Encodable :=
  forall_mem_append.mpr ⟨hfirst, hrest⟩

theorem SExp.Encodable.atom {data : Bytes} (h : data.length < maxDecodeSize) :
    (atom data).Encodable := by
  intro other hother
  rw [atoms, mem_singleton] at hother
  rwa [hother]

theorem SExp.Encodable.ofList
    (h : ∀ item ∈ items, item.Encodable) : (ofList items).Encodable := by
  induction items with
  | nil => decide
  | cons head tail ih =>
    exact .pair (h head mem_cons_self)
      (ih fun item hitem => h item (mem_cons_of_mem _ hitem))

end Encodable

section Amounts

open BigEndian TwosComplement

theorem length_bigintToBytes_le (amount : UInt64) :
    (bigintToBytes amount.toNat).length ≤ 9 := by
  unfold bigintToBytes
  split_ifs
  · exact Nat.zero_le _
  · apply (length_stripSign_le _).trans
    have hsize : amount.toNat.size ≤ 64 := Nat.size_le.mpr amount.toNat_lt
    rw [intBytes, length_beBytes, signedLength,
      if_pos (Int.natCast_nonneg _), Int.toNat_natCast]
    omega

/-- An amount is read back as it was written. -/
theorem asIntToU64_bigintToBytes (amount : UInt64) :
    asIntToU64 (.atom (bigintToBytes amount.toNat)) = .ok amount := by
  unfold asIntToU64 numberFromSlice
  dsimp only
  have hlt := amount.toNat_lt
  rw [beInt_bigintToBytes, if_pos ⟨Int.natCast_nonneg _, by omega⟩,
    Int.toNat_natCast, UInt64.ofNat_toNat]

theorem parseAtomBytes32_bytes (id : Bytes32) :
    parseAtomBytes32 (.atom id.bytes) = .ok id := by
  unfold parseAtomBytes32 Bytes32.parse
  dsimp only
  rw [dif_pos id.length_eq.le]
  congr 1
  apply Bytes32.ext
  simp [id.length_eq]

end Amounts

/-- A spend as the generator lists it. -/
def CoinSpend.Listed (spend : CoinSpend) (item : SExp) : Prop :=
  ∃ puzzle solution, fromSerial spend.puzzleReveal = .ok puzzle ∧
    fromSerial spend.solution = .ok solution ∧
    item = .ofList [.atom spend.coin.parentCoinInfo.bytes, puzzle,
      .atom (bigintToBytes spend.coin.amount.toNat), solution]

def quotedList (items : List SExp) : SExp :=
  .pair (.atom [1]) (.ofList [.ofList items])

variable {sha256 : HashFn}

section Generator

theorem generatorItem_listed
    (h : generatorItem spend = .ok item) : spend.Listed item := by
  obtain ⟨puzzle, hpuzzle, h⟩ := bind_eq_ok.mp h
  obtain ⟨solution, hsolution, h⟩ := bind_eq_ok.mp h
  cases h
  exact ⟨puzzle, solution, hpuzzle, hsolution, rfl⟩

theorem CoinSpend.Listed.encodable
    (h : spend.Listed item) : item.Encodable := by
  obtain ⟨puzzle, solution, hpuzzle, hsolution, rfl⟩ := h
  have hparent : spend.coin.parentCoinInfo.bytes.length < maxDecodeSize := by
    rw [spend.coin.parentCoinInfo.length_eq]
    decide
  have hamount : (bigintToBytes spend.coin.amount.toNat).length <
      maxDecodeSize :=
    lt_of_le_of_lt (length_bigintToBytes_le _) (by decide)
  apply SExp.Encodable.ofList
  simp only [mem_cons, not_mem_nil, or_false, forall_eq_or_imp, forall_eq]
  exact ⟨.atom hparent, fromSerial_encodable hpuzzle, .atom hamount,
    fromSerial_encodable hsolution⟩

theorem quotedList_encodable (h : Forall₂ CoinSpend.Listed spends items) :
    (quotedList items).Encodable := by
  refine .pair (.atom (by decide)) (.ofList ?_)
  intro item hitem
  rw [mem_singleton.mp hitem]
  apply SExp.Encodable.ofList
  intro item hitem
  obtain ⟨spend, -, hlisted⟩ := forall₂_mem_right h hitem
  exact hlisted.encodable

/-- The compressed generator reads back as the quoted list of its spends, where
the hash does not collide on its subtrees. -/
theorem compressedSolutionGenerator_reads {program : Bytes}
    (h : compressedSolutionGeneratorFromCoinSpends sha256 spends = .ok program)
    (hinj : ∀ tree, buildGeneratorTree spends.reverse = .ok tree →
      Set.InjOn (treeHash sha256) {u | u ∈ involvedTrees [] tree}) :
    ∃ items, Forall₂ CoinSpend.Listed spends.reverse items ∧
      toProgramBackrefs program = .ok (quotedList items) := by
  obtain ⟨tree, htree, h⟩ := bind_eq_ok.mp h
  obtain ⟨items, hitems, hquoted⟩ := bind_eq_ok.mp htree
  obtain rfl : quotedList items = tree := Except.ok.inj hquoted
  replace hitems := (mapM_ok hitems).imp fun _ _ => generatorItem_listed
  obtain ⟨w, hwrite, hcompressed⟩ :=
    sexpToBytesBackrefs_ok sha256 (quotedList_encodable hitems)
  rw [hwrite] at h
  cases h
  refine ⟨items, hitems, ?_⟩
  have hrest : (⟨program, 0⟩ : Cursor).rest = program ++ [] :=
    (append_nil program).symm
  unfold toProgramBackrefs
  rw [sexpFromBytesBackrefs_reads (hcompressed.reads (hinj _ htree)) hrest]
  rfl

end Generator

variable {acc : Accumulators} {constants : ConsensusConstants}
  {maxCost : UInt64} {index : Nat}

theorem markSpent_eq_ok {coin : Coin} :
    markSpent sha256 coin state = .ok state' ↔
      coin.name sha256 ∉ state.spent ∧
        state' = { state with spent := coin.name sha256 :: state.spent } := by
  unfold markSpent
  split_ifs with hspent
  · simp [hspent]
  · simp [hspent, eq_comm]

theorem recordSpend_spent {puzzleCost : UInt64}
    (h : recordSpend sha256 acc puzzleCost state = .ok state') :
    state'.spent = state.spent := by
  obtain ⟨created, -, h⟩ := bind_eq_ok.mp h
  cases h
  rfl

theorem streamSpend_spent {spendRun : SpendRun}
    (h : streamSpend sha256 constants maxCost spendRun state = .ok state') :
    state'.spent = state.spent := by
  obtain ⟨cost, -, h⟩ := bind_eq_ok.mp h
  obtain ⟨acc, -, h⟩ := bind_eq_ok.mp h
  exact recordSpend_spent h

/-- The coins are different, and none of them is spent yet. -/
def FreshCoins (sha256 : HashFn) (coins : List Coin)
    (spent : List Bytes32) : Prop :=
  (coins.map (Coin.name sha256)).Nodup ∧
    ∀ coin ∈ coins, coin.name sha256 ∉ spent

theorem freshCoins_cons {coin : Coin} {coins : List Coin}
    {spent : List Bytes32} :
    FreshCoins sha256 (coin :: coins) spent ↔
      coin.name sha256 ∉ spent ∧
        FreshCoins sha256 coins (coin.name sha256 :: spent) := by
  unfold FreshCoins
  simp only [map_cons, nodup_cons, mem_map, mem_cons,
    forall_eq_or_imp, not_or, not_exists, not_and]
  constructor
  · rintro ⟨⟨hhead, hnodup⟩, hfresh, hrest⟩
    exact ⟨hfresh, hnodup, fun c hc => ⟨hhead c hc, hrest c hc⟩⟩
  · rintro ⟨hfresh, hnodup, hrest⟩
    exact ⟨⟨fun c hc => (hrest c hc).1, hnodup⟩, hfresh,
      fun c hc => (hrest c hc).2⟩

/-- The reader of a generator's output takes a listed spend for what it is. -/
theorem generatorSpend_listed (hlisted : spend.Listed item)
    (hrevealed : spend.Revealed sha256) :
    ∃ puzzle solution, generatorSpend sha256
      (some spend.coin.puzzleHash) item = .ok (spend.coin, puzzle, solution) ∧
      treeHash sha256 puzzle = spend.coin.puzzleHash ∧
      item.refList = [.atom spend.coin.parentCoinInfo.bytes, puzzle,
        .atom (bigintToBytes spend.coin.amount.toNat), solution] := by
  obtain ⟨puzzle, solution, hpuzzle, -, rfl⟩ := hlisted
  obtain ⟨puzzle', hpuzzle', hhash⟩ := hrevealed
  obtain rfl : puzzle' = puzzle := Except.ok.inj (hpuzzle'.symm.trans hpuzzle)
  have hlist : refList (.ofList [.atom spend.coin.parentCoinInfo.bytes,
      puzzle', .atom (bigintToBytes spend.coin.amount.toNat), solution]) =
      [.atom spend.coin.parentCoinInfo.bytes, puzzle',
        .atom (bigintToBytes spend.coin.amount.toNat), solution] :=
    iter_ofList
  refine ⟨puzzle', solution, ?_, hhash, hlist⟩
  unfold generatorSpend
  rw [hlist]
  dsimp only
  rw [parseAtomBytes32_bytes, bind_ok, asIntToU64_bigintToBytes, bind_ok]
  rfl

/-- The reveal hashes of a listed generator are the puzzle hashes. -/
theorem simpleGeneratorRevealHashes_listed
    (hlisted : Forall₂ CoinSpend.Listed spends items)
    (hrevealed : ∀ s ∈ spends, s.Revealed sha256) :
    simpleGeneratorRevealHashes sha256 (quotedList items) =
      spends.map fun s => s.coin.puzzleHash := by
  have hlists : ∀ item ∈ items, ∃ spend ∈ spends, spend.Listed item :=
    fun item hitem => forall₂_mem_right hlisted hitem
  unfold simpleGeneratorRevealHashes quotedList
  dsimp only [ofList]
  rw [show (ofList items).refList = items from iter_ofList,
    takeWhile_eq_self_iff.mpr, map_map]
  · apply forall₂_map_eq_of_mem _ hlisted
    intro spend hspend item _ hitem
    obtain ⟨puzzle, solution, -, hhash, hlist⟩ :=
      generatorSpend_listed hitem (hrevealed spend hspend)
    rw [Function.comp_apply, hlist]
    exact hhash
  · intro parts hparts
    obtain ⟨item, hitem, rfl⟩ := mem_map.mp hparts
    obtain ⟨spend, hspend, hof⟩ := hlists item hitem
    obtain ⟨puzzle, solution, -, -, hlist⟩ :=
      generatorSpend_listed hof (hrevealed spend hspend)
    rw [hlist]
    rfl

/-- A spend as the bootstrap program reports it. -/
def RomSpend (sha256 : HashFn) (item output : SExp) : Prop :=
  ∀ parent puzzle amount solution,
    item.refList = [parent, puzzle, amount, solution] →
      ∃ conditions extra, output.refList =
        parent :: .atom (treeHash sha256 puzzle).bytes :: amount ::
          conditions :: extra

/-- What the evaluator and the bootstrap program are for: a quoted value is
returned as it is, and the bootstrap program reports each listed spend with its
puzzle hash. -/
structure Assembly.Evaluates (a : Assembly) : Prop where
  quote : ∀ left flags output env cost result,
    a.run left flags (.pair (.atom [1]) output) env = .ok (cost, result) →
      result = output
  rom : ∀ left flags items refs cost result,
    a.run left flags a.rom (.ofList [quotedList items, refs]) =
      .ok (cost, result) →
      ∃ outputs, sexpFirst result = .ok outputs ∧
        Forall₂ (RomSpend a.sha256) items outputs.refList

/-- A computation reports only errors with a property. -/
def FailsOnly {E A : Type} (P : E → Prop) (result : Except E A) : Prop :=
  ∀ e, result = .error e → P e

section Rules

variable {E E' A B : Type} {P : E → Prop}

@[simp] theorem failsOnly_ok {a : A} : FailsOnly P (.ok a) := by
  intro e h
  cases h

@[simp] theorem failsOnly_error {e : E} :
    FailsOnly P (.error e : Except E A) ↔ P e := by
  constructor
  · intro h
    exact h e rfl
  · intro h e' he
    cases he
    exact h

variable {f : A → Except E B}

@[simp] theorem failsOnly_bind {x : Except E A} :
    FailsOnly P (x >>= f) ↔
      FailsOnly P x ∧ ∀ a, x = .ok a → FailsOnly P (f a) := by
  cases x with
  | error e => simp [bind_error]
  | ok a => simp [bind_ok]

@[simp] theorem failsOnly_ite {c : Prop} [Decidable c] {x y : Except E A} :
    FailsOnly P (if c then x else y) ↔
      (c → FailsOnly P x) ∧ (¬ c → FailsOnly P y) := by
  split_ifs with hc <;> simp [hc]

@[simp] theorem failsOnly_mapError {P : E' → Prop} {x : Except E A}
    {g : E → E'} :
    FailsOnly P (x.mapError g) ↔ FailsOnly (fun e => P (g e)) x := by
  cases x with
  | error e => simp [Except.mapError]
  | ok a => simp [Except.mapError]

theorem FailsOnly.mapM (hf : ∀ a, FailsOnly P (f a)) (list : List A) :
    FailsOnly P (list.mapM f) := by
  induction list with
  | nil => exact failsOnly_ok
  | cons head tail ih =>
    rw [mapM_cons]
    simp [hf head, ih, pure, Except.pure]

end Rules

/-- An error that is not reported as a double spend. -/
def Quiet (e : ClvmError) : Prop := mapConditionError e ≠ .doubleSpend

attribute [simp] Quiet mapConditionError

section Readers

theorem liftIo_quiet {A : Type} (result : Except IoError A) :
    FailsOnly Quiet (liftIo result) := by
  unfold liftIo
  rw [failsOnly_mapError]
  intro e _
  simp

theorem addOrOverflow_quiet (text : String) (a b : UInt64) :
    FailsOnly Quiet (addOrOverflow text a b) := by
  unfold addOrOverflow
  split <;> simp

theorem addAmount_quiet (text : String) (a : Nat) (b : UInt64) :
    FailsOnly Quiet (addAmount text a b) := by
  simp [addAmount]

theorem costLeft_quiet (maxCost cost : UInt64) :
    FailsOnly Quiet (costLeft maxCost cost) := by
  simp [costLeft]

theorem sanitizeUintFromArena_quiet (node : SExp) (maxSize : Nat) :
    FailsOnly Quiet (sanitizeUintFromArena node maxSize) := by
  cases node <;> simp [sanitizeUintFromArena]

theorem arenaUintCondition_quiet (opcode : ConditionOpcode) (args : SExp) :
    FailsOnly Quiet (arenaUintCondition opcode args) := by
  unfold arenaUintCondition
  split
  · simp
  split
  case h_1 =>
    rw [failsOnly_bind]
    refine ⟨sanitizeUintFromArena_quiet _ _, fun verdict _ => ?_⟩
    split <;> simp
  case h_10 => simp
  all_goals simp [arenaUintArg, sanitizeUintFromArena_quiet]

theorem arenaCreateCoin_quiet (args : SExp) :
    FailsOnly Quiet (arenaCreateCoin args) := by
  unfold arenaCreateCoin
  split
  · simp
  · simp
  split_ifs
  · simp
  split
  · simp
  · rw [failsOnly_bind]
    refine ⟨sanitizeUintFromArena_quiet _ _, fun verdict _ => ?_⟩
    split <;> simp

theorem boundedWalk_quiet (stack : List SExp) (nodes : Nat) :
    FailsOnly Quiet (boundedWalk stack nodes) := by
  fun_induction boundedWalk stack nodes <;> simp_all

theorem conditionFromSexp_quiet (sexp : SExp) :
    FailsOnly Quiet (conditionFromSexp sexp) := by
  unfold conditionFromSexp
  rw [failsOnly_bind]
  exact ⟨liftIo_quiet _, fun _ _ => liftIo_quiet _⟩

theorem arenaGenericCondition_quiet (cond : SExp) :
    FailsOnly Quiet (arenaGenericCondition cond) := by
  simp [arenaGenericCondition, exportBoundedCondition, boundedWalk_quiet,
    conditionFromSexp_quiet]

theorem arenaCondition_quiet (cond : SExp) :
    FailsOnly Quiet (arenaCondition cond) := by
  unfold arenaCondition
  split
  · simp
  · unfold arenaDispatch
    split
    case h_11 => exact failsOnly_ok
    case h_12 => exact failsOnly_ok
    case h_10 => exact arenaCreateCoin_quiet _
    case h_13 => exact arenaGenericCondition_quiet _
    all_goals exact arenaUintCondition_quiet _ _
  · exact arenaGenericCondition_quiet _

end Readers

section Spends

variable {coin : Coin} {mempool : Bool}

theorem applyCondition_quiet (condition : ConditionWithArgs) :
    FailsOnly Quiet (applyCondition sha256 constants coin condition acc) := by
  unfold applyCondition
  dsimp only
  split <;>
    simp [Accumulators.charge, addAmount_quiet, addOrOverflow_quiet,
      Accumulators.pushAggSig, assertMy, verifyAggSigUnsafeMessage]

theorem applyParsedCondition_quiet (condition : ConditionWithArgs) :
    FailsOnly Quiet (applyParsedCondition sha256 constants coin mempool index
      condition acc) := by
  unfold applyParsedCondition
  dsimp only
  split
  · simp
  · exact applyCondition_quiet _

theorem streamConditions_quiet (output : SExp) (index : Nat)
    (acc : Accumulators) :
    FailsOnly Quiet (streamConditions sha256 constants coin maxCost mempool
      output index acc) := by
  induction output generalizing index acc with
  | atom data => exact failsOnly_ok
  | pair cond rest _ ih =>
    unfold streamConditions
    rw [failsOnly_bind]
    refine ⟨arenaCondition_quiet cond, fun read _ => ?_⟩
    split
    · exact ih index acc
    · simp [applyParsedCondition_quiet, addOrOverflow_quiet, ih,
        Quiet, mapConditionError]

theorem startSpend_quiet (conds : SpendBundleConditions) (extraCost : UInt64) :
    FailsOnly Quiet (startSpend sha256 coin mempool conds extraCost) := by
  simp [startSpend, addAmount_quiet]

theorem applyConditions_quiet (conditions : List ConditionWithArgs) :
    FailsOnly Quiet (applyConditions sha256 constants coin mempool index
      conditions acc) := by
  induction conditions generalizing index acc with
  | nil => exact failsOnly_ok
  | cons head tail ih =>
    unfold applyConditions
    simp [applyParsedCondition_quiet, ih]

theorem recordSpend_quiet (puzzleCost : UInt64) :
    FailsOnly Quiet (recordSpend sha256 acc puzzleCost state) := by
  have hinsert : ∀ ids seen,
      FailsOnly Quiet (insertAll ClvmError.duplicateCreate ids seen) := by
    intro ids
    induction ids with
    | nil => exact fun _ => failsOnly_ok
    | cons head tail ih =>
      intro seen
      simp [insertAll, ih]
  simp [recordSpend, hinsert]

theorem streamSpend_quiet (spendRun : SpendRun) :
    FailsOnly Quiet (streamSpend sha256 constants maxCost spendRun state) := by
  simp [streamSpend, parseAndApplySpendFromArena, addOrOverflow_quiet,
    startSpend_quiet, streamConditions_quiet, recordSpend_quiet]

theorem addConditionsCost_quiet :
    FailsOnly Quiet (addConditionsCost maxCost state) := by
  simp [addConditionsCost, addOrOverflow_quiet]

end Spends

/-- A run over coins succeeds only if they are fresh; if they are, its errors
have a property, provided that the evaluator is calm. -/
structure Visits {E A : Type} (calm : Prop) (P : E → Prop)
    (sha256 : HashFn) (coins : List Coin) (result : Except E A)
    (spent : List Bytes32) : Prop where
  fresh : ∀ a, result = .ok a → FreshCoins sha256 coins spent
  fails : calm → FreshCoins sha256 coins spent → FailsOnly P result

namespace Visits

variable {E E' A B : Type} {calm : Prop} {P : E → Prop} {coins : List Coin}
  {spent : List Bytes32} {first : Except E A} {next : A → Except E B}

theorem nil (a : A) : Visits calm P sha256 [] (.ok a) spent :=
  ⟨fun _ _ => ⟨nodup_nil, by simp⟩, fun _ _ => failsOnly_ok⟩

theorem after (hfirst : calm → FailsOnly P first)
    (hnext : ∀ a, first = .ok a → Visits calm P sha256 coins (next a) spent) :
    Visits calm P sha256 coins (first >>= next) spent where
  fresh b h := by
    obtain ⟨a, ha, h⟩ := bind_eq_ok.mp h
    exact (hnext a ha).fresh b h
  fails hcalm hfresh := failsOnly_bind.mpr
    ⟨hfirst hcalm, fun a ha => (hnext a ha).fails hcalm hfresh⟩

theorem andThen (hfirst : Visits calm P sha256 coins first spent)
    (hnext : ∀ a, FailsOnly P (next a)) :
    Visits calm P sha256 coins (first >>= next) spent where
  fresh b h := by
    obtain ⟨a, ha, -⟩ := bind_eq_ok.mp h
    exact hfirst.fresh a ha
  fails hcalm hfresh := failsOnly_bind.mpr
    ⟨hfirst.fails hcalm hfresh, fun a _ => hnext a⟩

theorem mapError {P : E' → Prop} {g : E → E'}
    (h : Visits calm (fun e => P (g e)) sha256 coins first spent) :
    Visits calm P sha256 coins (first.mapError g) spent where
  fresh a ha := h.fresh a (mapError_eq_ok.mp ha)
  fails hcalm hfresh := failsOnly_mapError.mpr (h.fails hcalm hfresh)

/-- The check for a spent coin. -/
theorem mark {coin : Coin} {P : ClvmError → Prop}
    {next : BundleState → ClvmResult A}
    (hnext : ∀ marked : BundleState,
      Visits calm P sha256 coins (next marked) marked.spent) :
    Visits calm P sha256 (coin :: coins) (markSpent sha256 coin state >>= next)
      state.spent where
  fresh a h := by
    obtain ⟨marked, hmarked, h⟩ := bind_eq_ok.mp h
    obtain ⟨hfresh, rfl⟩ := markSpent_eq_ok.mp hmarked
    exact freshCoins_cons.mpr ⟨hfresh, (hnext _).fresh a h⟩
  fails hcalm hfresh := by
    rw [freshCoins_cons] at hfresh
    rw [markSpent_eq_ok.mpr ⟨hfresh.1, rfl⟩, bind_ok]
    exact (hnext _).fails hcalm hfresh.2

end Visits

section Loops

variable (hlisted : Forall₂ CoinSpend.Listed spends items)
  (hrevealed : ∀ s ∈ spends, s.Revealed sha256)

include hlisted hrevealed

/-- The loop over a simple generator's output visits the listed coins. -/
theorem generatorLoop_visits {run : ClvmRun} {clvmFlags : UInt32}
    {hashes : List Bytes32}
    (hhashes : hashes.drop index = spends.map fun s => s.coin.puzzleHash) :
    Visits (∀ left flags reveal env, FailsOnly Quiet (run left flags reveal env))
      Quiet sha256 (spends.map CoinSpend.coin)
      (generatorLoop sha256 constants maxCost run clvmFlags hashes index items
        state) state.spent := by
  induction hlisted generalizing index state with
  | nil => exact .nil _
  | @cons spend item spends items hitem hrest ih =>
    obtain ⟨puzzle, solution, hspend, -, -⟩ :=
      generatorSpend_listed hitem (hrevealed spend mem_cons_self)
    have hhash : hashes[index]? = some spend.coin.puzzleHash := by
      rw [← head?_drop, hhashes]
      rfl
    unfold generatorLoop
    rw [hhash, hspend, bind_ok]
    refine .mark fun marked => .after (fun _ => costLeft_quiet _ _) fun left _ =>
      .after (fun hrun => hrun _ _ _ _) fun output _ =>
        .after (fun _ => streamSpend_quiet _) fun next hnext => ?_
    rw [← streamSpend_spent hnext]
    apply ih fun s hs => hrevealed s (mem_cons_of_mem _ hs)
    rw [← drop_drop, hhashes]
    rfl

/-- So does the loop over the bootstrap program's output. -/
theorem processedLoop_visits {calm : Prop} {outputs : List SExp}
    (houtputs : Forall₂ (RomSpend sha256) items outputs) :
    Visits calm Quiet sha256 (spends.map CoinSpend.coin)
      (processedLoop sha256 constants outputs state) state.spent := by
  induction hlisted generalizing outputs state with
  | nil =>
    cases houtputs
    exact .nil _
  | @cons spend item spends items hitem hrest ih =>
    cases houtputs with
    | @cons _ output _ outputs hrom houtputs =>
      obtain ⟨puzzle, solution, -, hhash, hlist⟩ :=
        generatorSpend_listed hitem (hrevealed spend mem_cons_self)
      obtain ⟨conditions, extra, houtput⟩ := hrom _ _ _ _ hlist
      unfold processedLoop processedSpend
      rw [houtput]
      dsimp only
      rw [parseAtomBytes32_bytes, bind_ok, parseAtomBytes32_bytes,
        bind_ok, asIntToU64_bigintToBytes, bind_ok, hhash, bind_assoc]
      refine .mark fun marked => .after (fun _ => ?_) fun next hnext => ?_
      · simp only [failsOnly_bind, recordSpend_quiet]
        exact ⟨FailsOnly.mapM conditionFromSexp_quiet _, by
          simp [spendFromConditions, startSpend_quiet, applyConditions_quiet]⟩
      obtain ⟨parsed, -, hnext⟩ := bind_eq_ok.mp hnext
      obtain ⟨acc, -, hnext⟩ := bind_eq_ok.mp hnext
      rw [← recordSpend_spent hnext]
      exact ih (fun s hs => hrevealed s (mem_cons_of_mem _ hs)) houtputs

end Loops

theorem failsOnly_require {P : ChiaError → Prop} {holds : Bool}
    {error : ChiaError} (h : P error) : FailsOnly P (require holds error) := by
  cases holds <;> simp [require, h]

section Rerun

variable {a : Assembly} {program : Bytes} (hevaluates : a.Evaluates)
  (hrevealed : ∀ s ∈ spends, s.Revealed a.sha256)
  (hprogram : compressedSolutionGeneratorFromCoinSpends a.sha256 spends =
    .ok program)
  (hinj : ∀ tree, buildGeneratorTree spends.reverse = .ok tree →
    Set.InjOn (treeHash a.sha256) {u | u ∈ involvedTrees [] tree})

include hevaluates hrevealed hprogram hinj

theorem rerun_visits :
    Visits (∀ left flags reveal env,
        FailsOnly Quiet (a.run left flags reveal env))
      (· ≠ .doubleSpend) a.sha256 (spends.reverse.map CoinSpend.coin)
      (a.rerun program) [] := by
  obtain ⟨items, hlisted, hreads⟩ :=
    compressedSolutionGenerator_reads hprogram hinj
  have hrevealed' : ∀ s ∈ spends.reverse, s.Revealed a.sha256 :=
    fun s hs => hrevealed s (mem_reverse.mp hs)
  unfold Assembly.rerun executeBlockGeneratorResult
  dsimp only
  rw [hreads]
  refine .after ?_ fun _ _ => .after ?_ fun generator hgenerator =>
    .after ?_ fun _ _ => .after ?_ fun byteCost _ => .after ?_ fun left _ =>
      .after ?_ fun result hresult => .after ?_ fun cost _ => .mapError ?_
  all_goals try simp only [failsOnly_mapError]
  · simp [checkGeneratorInput, failsOnly_require, pure, Except.pure]
  · exact fun _ => failsOnly_ok
  · unfold checkSimpleGenerator
    cases hgenerator
    simp [quotedList, failsOnly_require]
  · simp [generatorByteCost]
  · exact fun _ => costLeft_quiet _ _
  · intro _ e _
    cases e <;> simp [generatorRunError]
  · intro _ e _
    simp
  cases hgenerator
  have hresult := mapError_eq_ok.mp hresult
  split_ifs at hresult ⊢
  · rw [hevaluates.quote _ _ _ _ _ _ hresult]
    unfold conditionsFromGeneratorOutput
    rw [show sexpFirst (.ofList [.ofList items]) = .ok (.ofList items) from rfl,
      bind_ok,
      show (SExp.ofList items).refList = items from SExp.iter_ofList,
      simpleGeneratorRevealHashes_listed hlisted hrevealed']
    exact (generatorLoop_visits hlisted hrevealed' rfl).andThen
      fun state => addConditionsCost_quiet
  · obtain ⟨outputs, hfirst, houtputs⟩ := hevaluates.rom _ _ _ _ _ _ hresult
    unfold conditionsFromProcessedGeneratorOutput
    rw [hfirst, bind_ok]
    exact (processedLoop_visits hlisted hrevealed' houtputs).andThen
      fun state => addConditionsCost_quiet

/-- A re-run that succeeds has visited different coins. -/
theorem rerun_nodup {conds : SpendBundleConditions}
    (h : a.rerun program = .ok conds) :
    (spends.map fun s => s.coin.name a.sha256).Nodup := by
  have hnodup := ((rerun_visits hevaluates hrevealed hprogram hinj).fresh _ h).1
  rwa [map_map, map_reverse, nodup_reverse] at hnodup

/-- The re-run of a generator over different coins reports no double spend. -/
theorem rerun_quiet (hrun : ∀ left flags reveal env,
      FailsOnly Quiet (a.run left flags reveal env))
    (hnodup : (spends.map fun s => s.coin.name a.sha256).Nodup) :
    a.rerun program ≠ .error .doubleSpend := by
  have hfails := (rerun_visits hevaluates hrevealed hprogram hinj).fails hrun
  intro herror
  refine hfails ⟨?_, by simp⟩ _ herror rfl
  rwa [map_map, map_reverse, nodup_reverse]

end Rerun

end DgXch
