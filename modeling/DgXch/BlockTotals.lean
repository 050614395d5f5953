/-
The totals of a block's conditions.  The reader of a generator's output stops at
a coin that is spent or created twice, and the two amounts it adds up are
the sums over the spends it returns.
-/
import DgXch.BlockRerun
import DgXch.CoinAssertions

namespace DgXch

open List DgXch.Except

def Spend.outputAmount (spend : Spend) : Nat :=
  (spend.createCoin.map fun c => c.amount.toNat).sum

/-- The coins spent and created are different, and the amounts are theirs. -/
structure Balanced (sha256 : HashFn) (conds : SpendBundleConditions)
    (spent created : List Bytes32) : Prop where
  coinId : ∀ spend ∈ conds.spends, spend.coinId = spend.coin.name sha256
  spent_eq : spent = (conds.spends.map Spend.coinId).reverse
  created_eq : created =
    (conds.spends.flatMap (Spend.createdIds sha256)).reverse
  spent_nodup : spent.Nodup
  created_nodup : created.Nodup
  removals : conds.removalAmount =
    (conds.spends.map fun s => s.coin.amount.toNat).sum
  additions : conds.additionAmount = (conds.spends.map Spend.outputAmount).sum

/-- What no condition of a spend changes. -/
def Accumulators.account (acc : Accumulators) :
    List Spend × Bytes32 × Coin × Nat × Int :=
  (acc.conds.spends, acc.spend.coinId, acc.spend.coin, acc.conds.removalAmount,
    acc.conds.additionAmount - acc.spend.outputAmount)

variable {sha256 : HashFn} {constants : ConsensusConstants}
  {coin : Coin} {mempool : Bool} {acc acc' : Accumulators}
  {conds : SpendBundleConditions} {state state' : BundleState}
  {maxCost : UInt64} {run : ClvmRun} {output : SExp} {clvmFlags : UInt32}
  {hashes : List Bytes32}

theorem addAmount_eq_ok {text : String} {a c : Nat} {b : UInt64}
    (h : addAmount text a b = .ok c) : c = a + b.toNat := by
  unfold addAmount at h
  split_ifs at h
  exact (Except.ok.inj h).symm

/-- A condition adds to the total what it adds to the outputs of the spend. -/
theorem applyCondition_account {condition : ConditionWithArgs}
    (h : applyCondition sha256 constants coin condition acc = .ok acc') :
    acc'.account = acc.account := by
  unfold Accumulators.account Spend.outputAmount
  cases condition <;> simp only [applyCondition, Accumulators.pushAggSig,
    Accumulators.charge, assertMy, bind_eq_ok] at h
  case createCoin =>
    obtain ⟨charged, -, total, htotal, h⟩ := h
    split_ifs at h
    cases h
    simp [Spend.coin, addAmount_eq_ok htotal]
  all_goals grind [Spend.coin]

theorem Applied.account {conditions : List ConditionWithArgs}
    (h : Applied sha256 constants coin mempool conditions acc acc') :
    acc'.account = acc.account := by
  induction h with
  | nil acc => rfl
  | cons index hstep hrest ih =>
    obtain ⟨flags, hstep⟩ := applyParsedCondition_eq_ok hstep
    rw [ih, applyCondition_account hstep]
    rfl

theorem parseAndApplySpendFromArena_account {extraCost : UInt64}
    (h : parseAndApplySpendFromArena sha256 constants coin maxCost mempool
      output conds extraCost = .ok acc) :
    acc.account = (conds.spends, coin.name sha256, coin,
      conds.removalAmount + coin.amount.toNat, (conds.additionAmount : Int)) := by
  obtain ⟨start, last, hstart, hloop, rfl⟩ :=
    parseAndApplySpendFromArena_eq_ok h
  obtain ⟨flags, conditionCost, hfinal⟩ :=
    finalizeSpend_eq last.spend last.extraCost extraCost mempool
  obtain ⟨total, htotal, hstart⟩ := bind_eq_ok.mp hstart
  cases hstart
  rw [hfinal]
  refine (streamConditions_applied hloop).1.account.trans ?_
  simp [Accumulators.account, newSpend, Spend.coin, Spend.outputAmount,
    addAmount_eq_ok htotal]

theorem insertAll_eq_ok {E : Type} {duplicate : Bytes32 → E}
    {ids seen out : List Bytes32}
    (h : insertAll duplicate ids seen = .ok out) :
    out = ids.reverse ++ seen ∧ (seen.Nodup → out.Nodup) := by
  fun_induction insertAll duplicate ids seen <;> grind

section Loop

variable (h : Balanced sha256 state.conds state.spent state.created)

include h

/-- One turn of the loop. -/
theorem Balanced.streamSpend {spendRun : SpendRun} {marked : BundleState}
    (hmark : markSpent sha256 spendRun.coin state = .ok marked)
    (hspend : streamSpend sha256 constants maxCost spendRun marked =
      .ok state') :
    Balanced sha256 state'.conds state'.spent state'.created := by
  obtain ⟨hfresh, rfl⟩ := markSpent_eq_ok.mp hmark
  obtain ⟨cost, -, hspend⟩ := bind_eq_ok.mp hspend
  obtain ⟨acc, hacc, hrecord⟩ := bind_eq_ok.mp hspend
  obtain ⟨created, hcreated, hstate⟩ := bind_eq_ok.mp hrecord
  cases hstate
  obtain ⟨rfl, hnodup⟩ := insertAll_eq_ok hcreated
  obtain ⟨hspends, hid, hcoin, hremoved, hadded⟩ := by
    simpa only [Accumulators.account, Prod.mk.injEq] using
      parseAndApplySpendFromArena_account hacc
  refine ⟨?_, ?_, ?_, h.spent_nodup.cons hfresh, hnodup h.created_nodup, ?_, ?_⟩
  · rw [hspends, forall_mem_append, forall_mem_singleton]
    exact ⟨h.coinId, hid.trans (congrArg _ hcoin.symm)⟩
  · simp [hspends, hid, h.spent_eq]
  · simp [hspends, h.created_eq]
  · simp [hspends, hremoved, h.removals, ← hcoin]
    rfl
  · simp [hspends, ← h.additions] at hadded ⊢
    change _ = _ + acc.spend.outputAmount
    omega

theorem generatorLoop_balanced {items : List SExp} {index : Nat}
    (hloop : generatorLoop sha256 constants maxCost run clvmFlags hashes index
      items state = .ok state') :
    Balanced sha256 state'.conds state'.spent state'.created := by
  induction items generalizing index state with
  | nil =>
    cases hloop
    exact h
  | cons head tail ih =>
    obtain ⟨⟨coin, reveal, solution⟩, -, hloop⟩ := bind_eq_ok.mp hloop
    obtain ⟨marked, hmark, hloop⟩ := bind_eq_ok.mp hloop
    obtain ⟨left, -, hloop⟩ := bind_eq_ok.mp hloop
    obtain ⟨⟨puzzleCost, output⟩, -, hloop⟩ := bind_eq_ok.mp hloop
    obtain ⟨mid, hspend, hloop⟩ := bind_eq_ok.mp hloop
    exact ih (h.streamSpend hmark hspend) hloop

end Loop

/-- Whatever a simple generator returns and its puzzles output, the conditions
read from it spend and create no coin twice, and their amounts are those of the
coins. -/
theorem conditionsFromGeneratorOutput_balanced {cost : UInt64}
    (h : conditionsFromGeneratorOutput sha256 constants maxCost run output cost
      clvmFlags hashes = .ok conds) :
    ∃ spent created, Balanced sha256 conds spent created := by
  obtain ⟨spends, -, h⟩ := bind_eq_ok.mp h
  obtain ⟨state, hloop, h⟩ := bind_eq_ok.mp h
  obtain ⟨total, -, h⟩ := bind_eq_ok.mp h
  split_ifs at h
  cases h
  have hbalanced := generatorLoop_balanced (by constructor <;> simp) hloop
  exact ⟨_, _, { hbalanced with }⟩

/-- Two coins of a puzzle that returns its solution: one creates a coin of 3
mojos, the other two coins. -/
theorem conditionsFromGeneratorOutput_balanced_at_two :
    ∃ conds spent created, conds.spends.length = 2 ∧
      conds.removalAmount = 12 ∧ conds.additionAmount = 9 ∧
      Balanced hash256 conds spent created := by
  have hread : ((conditionsFromGeneratorOutput hash256 mainnet 9000000
      (fun _ _ _ solution => .ok (1, solution))
      (.ofList [.ofList [
        .ofList [.atom [], .atom [1], .atom [5],
          .ofList [.ofList [.atom [51], .atom Bytes32.zero.bytes, .atom [3]]]],
        .ofList [.atom [], .atom [1], .atom [7],
          .ofList [.ofList [.atom [51], .atom Bytes32.zero.bytes, .atom [2]],
            .ofList [.atom [51], .atom Bytes32.zero.bytes, .atom [4]]]]]])
      0 0 []).toOption.map fun conds => (conds.spends.length,
        conds.removalAmount, conds.additionAmount)) = some (2, 12, 9) := by
    decide +kernel
  obtain ⟨conds, hconds, hsums⟩ := Option.map_eq_some_iff.mp hread
  obtain ⟨hspends, hsums⟩ := Prod.mk.inj hsums
  obtain ⟨hremoved, hadded⟩ := Prod.mk.inj hsums
  obtain ⟨spent, created, h⟩ := conditionsFromGeneratorOutput_balanced
    (toOption_eq_some.mp hconds)
  exact ⟨conds, spent, created, hspends, hremoved, hadded, h⟩

end DgXch
