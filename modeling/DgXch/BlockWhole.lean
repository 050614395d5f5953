/-
Block assembly includes items whole and spends different coins.  A spend that is
dropped as a duplicate is in the block through an earlier item, unless that item
did not fit.  Plain spends of two items agree about the coins they share, and
spends of one singleton are chained, but a plain spend and a fast-forward spend
are never compared.
-/
import DgXch.BlockRerun
import DgXch.MempoolLedger

namespace DgXch

open List Assembly MempoolItem

variable {name : Bytes32} {m : Mempool} {fwd : Forwarded}
  {rest : List MempoolItem}

/-- An item merges a spend on one of some coins. -/
def MempoolItem.mergesOn (a : Assembly) (s : Selection)
    (coinIds : List Bytes32) (item : MempoolItem) : Bool :=
  item.bundleCoinSpends.any fun bcs => bcs.eligibleForDedup &&
    (forwardSpend a.sha256 s.ffState bcs).toOption.any fun fwd =>
      fwd.post.spend.coin.name a.sha256 ∈ coinIds

/-- Whether the selection loop includes no item that merges a spend on a coin
whose entry an item has left behind that did not fit.  `stranded` are the coins
of such entries so far. -/
def Assembly.mergesClear (a : Assembly) :
    List Bytes32 → Nat → List MempoolItem → Selection → Bool
  | _, _, [], _ => true
  | stranded, index, item :: rest, s =>
    if a.timeout index then true
    else
      let next := (a.considerItem s item).state
      let taken : Bool := s.included.length < next.included.length
      let stranded' := if taken then stranded
        else stranded ++ next.dedupSpends.keys.filter (· ∉ s.dedupSpends)
      !(taken && item.mergesOn a s stranded) &&
        match a.considerItem s item with
        | .stop _ => true
        | .goOn s => a.mergesClear stranded' (index + 1) rest s

variable (sha256 : HashFn)

/-- The spends of an item, rebased where they were fast-forwarded, satisfy
`present`. -/
def MempoolItem.EmittedWith (present : CoinSpend → Prop) (item : MempoolItem) :
    Prop :=
  ∃ emitted, Forall₂ (CoinSpend.EmittedAs sha256) item.bundle.coinSpends
    emitted ∧ ∀ spend ∈ emitted, present spend

/-- A list of spends holds a spend of the same coin with the same solution. -/
def Holding (coinSpends : List CoinSpend) (spend : CoinSpend) : Prop :=
  ∃ e ∈ coinSpends, e.coin.name sha256 = spend.coin.name sha256 ∧
    e.solution = spend.solution

/-- What the selection loop keeps about the items it has come to. -/
structure Assembly.WholeAt (a : Assembly) (stranded : List Bytes32)
    (s : Selection) : Prop where
  revealed : ∀ e ∈ s.coinSpends, e.Revealed a.sha256
  dedup : ∀ coinId solution cost,
    s.dedupSpends.lookup coinId = some (solution, cost) →
      coinId ∈ stranded ∨ ∃ e ∈ s.coinSpends,
        e.coin.name a.sha256 = coinId ∧ e.solution = solution
  included : ∀ item ∈ s.included,
    item.EmittedWith a.sha256 (Holding a.sha256 s.coinSpends)

variable {sha256 : HashFn} {e : CoinSpend}

section Turn

variable {a : Assembly} {stranded : List Bytes32} {s : Selection}
  {item : MempoolItem} {processed : ProcessedItem} {fwds : List Forwarded}

section

variable (h : a.Resolves s item processed fwds)

include h

/-- Every emitted spend of an item comes from one of its spends. -/
theorem Assembly.Resolves.mem_unique (he : e ∈ processed.uniqueSpends) :
    ∃ fwd ∈ fwds, fwd.post.spend = e ∧
      fwd.post.isKept a.sha256 s.dedupSpends = true := by
  rw [h.deduped.unique, nil_append] at he
  obtain ⟨post, hpost, rfl⟩ := mem_map.mp he
  obtain ⟨hpost, hkept⟩ := mem_filter.mp hpost
  obtain ⟨fwd, hfwd, rfl⟩ := mem_map.mp hpost
  exact ⟨fwd, hfwd, rfl, hkept⟩

/-- An entry that an item adds is of a spend it emits, and of a coin that had
none. -/
theorem Assembly.Resolves.mem_noted {entry : Bytes32 × Bytes × UInt64}
    (hentry : entry ∈ processed.newDedup) :
    ∃ fwd ∈ fwds, fwd.post.entry a.sha256 = entry ∧
      fwd.post.isKept a.sha256 s.dedupSpends = true ∧
      entry.1 ∉ s.dedupSpends := by
  rw [h.deduped.noted, nil_append] at hentry
  obtain ⟨post, hpost, rfl⟩ := mem_map.mp hentry
  obtain ⟨hpost, hnoted⟩ := mem_filter.mp hpost
  obtain ⟨fwd, hfwd, rfl⟩ := mem_map.mp hpost
  rw [PostFf.isNoted, Bool.and_eq_true] at hnoted
  refine ⟨fwd, hfwd, rfl, hnoted.2, ?_⟩
  have hnone := hnoted.2
  rwa [PostFf.isKept, hnoted.1, Bool.not_true, Bool.false_or,
    Option.isNone_iff_eq_none, AList.lookup_eq_none] at hnone

theorem Assembly.Resolves.unique_of_kept (hfwd : fwd ∈ fwds)
    (hkept : fwd.post.isKept a.sha256 s.dedupSpends = true) :
    fwd.post.spend ∈ processed.uniqueSpends := by
  rw [h.deduped.unique, nil_append]
  exact mem_map_of_mem (mem_filter.mpr ⟨mem_map_of_mem hfwd, hkept⟩)

end

theorem CoinSpend.EmittedAs.revealed {spend emitted : CoinSpend}
    (h : spend.EmittedAs a.sha256 emitted) (hspend : spend.Revealed a.sha256) :
    emitted.Revealed a.sha256 := by
  rcases h with rfl | ⟨hreveal, hpuzzle, -⟩
  · exact hspend
  · unfold CoinSpend.Revealed
    rw [hreveal, hpuzzle]
    exact hspend

theorem Assembly.Resolves.revealed (h : a.Resolves s item processed fwds)
    (hformed : item.Formed a.sha256) (he : e ∈ processed.uniqueSpends) :
    e.Revealed a.sha256 := by
  obtain ⟨fwd, hfwd, rfl, -⟩ := h.mem_unique he
  obtain ⟨bcs, hbcs, hforward⟩ := forall₂_mem_right h.each hfwd
  exact (forwardSpend_forwards (hformed.children bcs hbcs)
    hforward).emitted.revealed (hformed.revealed bcs hbcs)

theorem MempoolItem.EmittedWith.mono {present present' : CoinSpend → Prop}
    (h : item.EmittedWith sha256 present)
    (hmono : ∀ spend, present spend → present' spend) :
    item.EmittedWith sha256 present' := by
  obtain ⟨emitted, heach, hpresent⟩ := h
  exact ⟨emitted, heach, fun spend hspend => hmono spend (hpresent spend hspend)⟩

/-- An item that is not included leaves at most entries behind, and these are
stranded. -/
theorem Assembly.WholeAt.passed (h : a.WholeAt stranded s) {next : Selection}
    (hspends : next.coinSpends = s.coinSpends)
    (hincluded : next.included = s.included)
    (hdedup : ∀ coinId value, next.dedupSpends.lookup coinId = some value →
      coinId ∉ s.dedupSpends ∨ s.dedupSpends.lookup coinId = some value) :
    a.WholeAt (stranded ++ next.dedupSpends.keys.filter (· ∉ s.dedupSpends))
      next where
  revealed := hspends ▸ h.revealed
  dedup coinId solution cost hlookup := by
    rcases hdedup coinId _ hlookup with hnew | hold
    · exact .inl (mem_append_right _ (mem_filter.mpr
        ⟨AList.lookup_isSome.mp (by rw [hlookup]; rfl), decide_eq_true hnew⟩))
    · rw [hspends]
      exact (h.dedup coinId solution cost hold).imp_left (mem_append_left _)
  included := by
    rw [hspends, hincluded]
    exact h.included

section

variable (h : a.WholeAt stranded s)
  (hresolves : a.Resolves s item processed fwds)
  (hclear : item.mergesOn a s stranded = false)

include h hresolves hclear

/-- A spend of an included item is in the block, by itself or through the
earlier spend that it was merged with. -/
theorem Assembly.WholeAt.holding (hfwd : fwd ∈ fwds)
    {bcs : BundleCoinSpend} (hbcs : bcs ∈ item.bundleCoinSpends)
    (hforward : forwardSpend a.sha256 s.ffState bcs = .ok fwd)
    (hsame : fwd.post.eligibleForDedup = bcs.eligibleForDedup) :
    Holding a.sha256 (s.coinSpends ++ processed.uniqueSpends)
      fwd.post.spend := by
  by_cases hkept : fwd.post.isKept a.sha256 s.dedupSpends = true
  · exact ⟨fwd.post.spend, mem_append_right _
      (hresolves.unique_of_kept hfwd hkept), rfl, rfl⟩
  simp only [PostFf.isKept, Bool.or_eq_true, Bool.not_eq_true',
    Option.isNone_iff_eq_none, not_or, Bool.not_eq_false] at hkept
  obtain ⟨hdedup, hsome⟩ := hkept
  obtain ⟨⟨solution, cost⟩, hlookup⟩ := Option.ne_none_iff_exists'.mp hsome
  rcases h.dedup _ solution cost hlookup with hstranded | ⟨e, he, hcoin, hsolution⟩
  · -- nothing is merged with the entry of an item that did not fit
    have hmerges := any_eq_false.mp hclear bcs hbcs
    rw [← hsame, hdedup, hforward] at hmerges
    exact absurd (decide_eq_true hstranded) hmerges
  · exact ⟨e, mem_append_left _ he, hcoin, hsolution.trans
      (hresolves.deduped.merged fwd.post (mem_map_of_mem hfwd) hdedup solution
        cost hlookup)⟩

theorem Assembly.WholeAt.taken (hformed : item.Formed a.sha256)
    (feeSum : UInt64) :
    a.WholeAt stranded
      (a.commit (s.noted processed) item processed feeSum) := by
  refine ⟨forall_mem_append.mpr
    ⟨h.revealed, fun e => hresolves.revealed hformed⟩, ?_, ?_⟩
  · intro coinId solution cost hlookup
    rcases lookup_commitDedup hlookup with hnew | hold
    · obtain ⟨fwd, hfwd, hentry, hkept, -⟩ := hresolves.mem_noted hnew
      cases hentry
      exact .inr ⟨fwd.post.spend, mem_append_right _
        (hresolves.unique_of_kept hfwd hkept), rfl, rfl⟩
    · exact (h.dedup coinId solution cost hold).imp_right
        fun ⟨e, he, hsame⟩ => ⟨e, mem_append_left _ he, hsame⟩
  · intro other hother
    rcases mem_append.mp hother with hother | hother
    · apply (h.included other hother).mono
      rintro spend ⟨e, he, hsame⟩
      exact ⟨e, mem_append_left _ he, hsame⟩
    · obtain rfl := mem_singleton.mp hother
      have hforwards {bcs fwd} (hbcs : bcs ∈ other.bundleCoinSpends)
          (hforward : forwardSpend a.sha256 s.ffState bcs = .ok fwd) :=
        forwardSpend_forwards (hformed.children bcs hbcs) hforward
      refine ⟨fwds.map fun fwd => fwd.post.spend, ?_, ?_⟩
      · rw [← hformed.joined, forall₂_map_left_iff, forall₂_map_right_iff]
        apply forall₂_imp_of_mem _ hresolves.each
        exact fun bcs hbcs fwd _ hforward => (hforwards hbcs hforward).emitted
      · intro spend hspend
        obtain ⟨fwd, hfwd, rfl⟩ := mem_map.mp hspend
        obtain ⟨bcs, hbcs, hforward⟩ := forall₂_mem_right hresolves.each hfwd
        exact h.holding hresolves hclear hfwd hbcs hforward
          (hforwards hbcs hforward).dedup

end

/-- Every turn keeps that the included items are whole. -/
theorem Assembly.WholeAt.turn (h : a.WholeAt stranded s)
    (hformed : item.Formed a.sha256) {next : Selection}
    (hturned : a.Turned s item next)
    (hclear : (decide (s.included.length < next.included.length) &&
      item.mergesOn a s stranded) = false) :
    a.WholeAt (if decide (s.included.length < next.included.length)
      then stranded
      else stranded ++ next.dedupSpends.keys.filter (· ∉ s.dedupSpends))
      next := by
  cases hturned with
  | passed skippedItems =>
    rw [if_neg (by simp)]
    exact h.passed rfl rfl fun _ _ => .inr
  | skipped processed skippedItems hresolve hfits =>
    obtain ⟨fwds, hresolves⟩ := resolveItem_resolves hformed hresolve
    rw [if_neg (by simp [Selection.noted])]
    refine h.passed rfl rfl fun coinId value hlookup => ?_
    refine (lookup_commitDedup hlookup).imp_left fun hnew => ?_
    obtain ⟨-, -, -, -, hfresh⟩ := hresolves.mem_noted hnew
    exact hfresh
  | taken processed feeSum hresolve hfits =>
    obtain ⟨fwds, hresolves⟩ := resolveItem_resolves hformed hresolve
    have htaken : s.included.length <
        (a.commit (s.noted processed) item processed feeSum).included.length := by
      simp [commit, Selection.noted]
    rw [decide_eq_true htaken, Bool.true_and] at hclear
    rw [if_pos (decide_eq_true htaken)]
    exact h.taken hresolves hclear hformed feeSum

theorem selectLoop_whole {items : List MempoolItem} {index : Nat}
    (hformed : ∀ item ∈ items, item.Formed a.sha256)
    (hclear : a.mergesClear stranded index items s = true)
    (h : a.WholeAt stranded s) :
    ∃ stranded', a.WholeAt stranded' (a.selectLoop index items s) := by
  induction items generalizing stranded index s with
  | nil => exact ⟨stranded, h⟩
  | cons item rest ih =>
    obtain ⟨hitem, hrest⟩ := forall_mem_cons.mp hformed
    unfold mergesClear at hclear
    unfold selectLoop
    split_ifs at hclear ⊢
    · exact ⟨stranded, h⟩
    rw [Bool.and_eq_true, Bool.not_eq_true'] at hclear
    have hnext := h.turn hitem turned_considerItem hclear.1
    cases hturn : a.considerItem s item with
    | stop next =>
      rw [hturn] at hnext
      exact ⟨_, hnext⟩
    | goOn next =>
      have hclear' := hclear.2
      rw [hturn] at hnext hclear'
      exact ih hrest hclear' hnext

end Turn

/-- What a block is made from. -/
theorem createBlockGenerator_some {a : Assembly} {block : BlockTransactions}
    (h : a.createBlockGenerator m = some block) :
    compressedSolutionGeneratorFromCoinSpends a.sha256
        (a.select m).coinSpends = .ok block.program ∧
      ∃ conds, a.rerun block.program = .ok conds := by
  unfold createBlockGenerator at h
  dsimp only at h
  split_ifs at h
  split at h
  · rename_i program signature hprogram hsignature
    split at h
    · cases h
    · rename_i conds hconds
      split_ifs at h
      cases h
      exact ⟨hprogram, conds, hconds⟩
  · cases h

/-- Whether the spends that were selected make a block: their generator can be
built, their signatures aggregated, and the re-run stays within the budget. -/
def Assembly.closes (a : Assembly) (s : Selection) : Bool :=
  s.coinSpends ≠ [] &&
    match compressedSolutionGeneratorFromCoinSpends a.sha256 s.coinSpends,
        a.aggregateSignatures s.sigs with
    | .ok program, .ok _ =>
      match a.rerun program with
      | .error _ => false
      | .ok conds => conds.cost ≤ a.constants.maxBlockCostClvm
    | _, _ => false

theorem createBlockGenerator_isSome {a : Assembly} :
    (a.createBlockGenerator m).isSome = true ↔
      m.peak.isSome = true ∧ a.closes (a.select m) = true := by
  unfold createBlockGenerator closes
  cases m.peak with
  | none => simp
  | some peak =>
    by_cases hspends : (a.select m).coinSpends = []
    · simp [hspends]
    · simp only [Option.isNone_some, Bool.false_eq_true, if_false, hspends,
        ne_eq, not_false_eq_true, decide_true, Bool.true_and,
        Option.isSome_some, true_and]
      cases compressedSolutionGeneratorFromCoinSpends a.sha256
          (a.select m).coinSpends with
      | error e => simp
      | ok program =>
        cases a.aggregateSignatures (a.select m).sigs with
        | error e => simp
        | ok signature =>
          dsimp only
          cases a.rerun program with
          | error e => simp
          | ok conds =>
            dsimp only
            split_ifs with hcost
            · simpa using hcost
            · simpa using hcost

/-- A list of spends holds exactly one spend of a spend's coin, with its
solution. -/
def HoldingOnce (sha256 : HashFn) (coinSpends : List CoinSpend)
    (spend : CoinSpend) : Prop :=
  ∃ e, coinSpends.filter (fun e =>
    e.coin.name sha256 = spend.coin.name sha256) = [e] ∧
      e.solution = spend.solution

theorem Holding.once {coinSpends : List CoinSpend} {spend : CoinSpend}
    (h : Holding sha256 coinSpends spend)
    (hnodup : (coinSpends.map fun e => e.coin.name sha256).Nodup) :
    HoldingOnce sha256 coinSpends spend := by
  obtain ⟨e, he, hcoin, hsolution⟩ := h
  refine ⟨e, ?_, hsolution⟩
  rw [filter_congr (q := fun other => other = e), filter_eq,
    count_eq_one_of_mem hnodup.of_map he]
  · rfl
  · intro other hother
    rw [decide_eq_decide, ← hcoin]
    constructor
    · intro hsame
      exact inj_on_of_nodup_map hnodup hother he hsame
    · rintro rfl
      rfl

/-- Items that come in the order of their rates stay in it. -/
theorem itemsByFee_of_sorted
    (h : m.items.values.Pairwise fun x y => Mempool.priorityOrder x y = true) :
    itemsByFee m = m.items.values :=
  mergeSort_of_pairwise h

section Metered

/-- A quoted value costs 20; three programs return their environment, each for
a price of its own. -/
def meteredRun : ClvmRun := fun _ _ program env =>
  match program with
  | .pair (.atom [1]) output => .ok (20, output)
  | .atom [10] => .ok (100000000, env)
  | .atom [11] => .ok (3597000000, env)
  | .atom [12] => .ok (3698004000, env)
  | _ => .error .badEncoding

/-- The world of the singletons with this evaluator. -/
def meteredWorld : MempoolWorld :=
  { lineageWorld with validation := ⟨meteredRun, fun _ _ => .ok ()⟩ }

/-- Its block assembly, with time enough. -/
def meteredAssembly : Assembly where
  sha256 := standInHash
  run := meteredRun
  rom := .nil
  aggregateSignatures := fun _ => .ok []
  constants := mainnet
  height := 6000000
  timeout := fun _ => false

/-- A coin that is locked with a one-byte program, and its spend without
conditions. -/
def meteredSpend (tag : UInt8) (program : UInt8) (amount : UInt64) :
    CoinSpend :=
  ⟨⟨plainHash tag, treeHash standInHash (.atom [program]), amount⟩, [program],
    [0x80]⟩

/-- A spend of no value, which may be merged, and one that pays a fee. -/
def mergingBundle (fee : UInt8) : SpendBundle :=
  ⟨[meteredSpend 0 10 0, meteredSpend fee 11 fee.toUInt64], []⟩

/-- A spend that pays a fee, alone. -/
def fillingBundle (fee : UInt8) : SpendBundle :=
  ⟨[meteredSpend fee 12 fee.toUInt64], []⟩

/-- The records of some unspent coins. -/
def unspentStore (bundles : List SpendBundle) : CoinStoreReads where
  getCoinRecords names := .ok (((bundles.flatMap SpendBundle.coinSpends).map
    fun s => (⟨s.coin, 1, 0, false, 1, false⟩ : CoinRecord)).filter fun r =>
      r.coin.name standInHash ∈ names)
  getUnspentLineageInfo _ := .ok none

/-- A peak and the admission of some bundles. -/
def admissions (bundles : List SpendBundle) : List MempoolOp :=
  .newPeak (unspentStore bundles) 1 1 [] id ::
    bundles.map fun bundle => .admitBundle (unspentStore bundles) bundle 6000000

theorem meteredAssembly_evaluates : meteredAssembly.Evaluates where
  quote _ _ _ _ _ _ hrun := by
    cases hrun
    rfl
  rom _ _ _ _ _ _ hrun := by cases hrun

/-- No two trees that the compression of some spends meets have one hash, read
as a number. -/
def hashesApart (sha256 : HashFn) (spends : List CoinSpend) : Bool :=
  (buildGeneratorTree spends).toOption.all fun tree =>
    ((involvedTrees [] tree).dedup.map fun u =>
      BigEndian.beNat (treeHash sha256 u).bytes).Nodup

theorem injOn_of_hashesApart {spends : List CoinSpend}
    (h : hashesApart sha256 spends = true) (tree : SExp)
    (htree : buildGeneratorTree spends = .ok tree) :
    Set.InjOn (treeHash sha256) {u | u ∈ involvedTrees [] tree} := by
  rw [hashesApart, htree] at h
  intro u hu v hv hsame
  exact inj_on_of_nodup_map (of_decide_eq_true h) (mem_dedup.mpr hu)
    (mem_dedup.mpr hv) (by rw [hsame])

/-- Two items that share the coin to be merged. -/
def mergedOps : List MempoolOp :=
  admissions [mergingBundle 1, mergingBundle 2]

/-- Two items that share the coin to be merged, and two of a higher rate. -/
def mergingOps : List MempoolOp :=
  admissions
    [mergingBundle 1, mergingBundle 2, fillingBundle 3, fillingBundle 4]

/-- A block is made from a selection, and an item counts as included whose spend
of some puzzle is not in it. -/
def dropsSpend (s : Selection) : Prop :=
  meteredAssembly.closes s = true ∧
    ∃ item ∈ s.included, ∃ spend ∈ item.bundle.coinSpends,
      ∀ e ∈ s.coinSpends, e.puzzleReveal ≠ spend.puzzleReveal

instance (s : Selection) : Decidable (dropsSpend s) :=
  inferInstanceAs (Decidable (_ ∧ _))

end Metered

variable (sha256 : HashFn)

/-- Ids tell apart the versions that fast-forward spends can land on: a child
has its own puzzle hash by `puzzleHashOf` and a higher rank than its parent.
This fails only where the hash of a coin collides or runs in a cycle. -/
def Mempool.ChildrenDiffer (m : Mempool) (puzzleHashOf : Bytes32 → Bytes32)
    (rank : Bytes32 → Nat) : Prop :=
  ∀ bcs ∈ m.fastForwards, ∀ n < m.items.entries.length,
    ∀ coinId ∈ m.landings sha256 bcs.coinSpend.coin.puzzleHash n,
      rank coinId < rank (bcs.childOn sha256 coinId) ∧
        puzzleHashOf (bcs.childOn sha256 coinId) =
          bcs.coinSpend.coin.puzzleHash

/-- No fast-forward spend can land on a coin that another item names, unless
both spends may be merged. -/
def Mempool.LandsClear (m : Mempool) : Prop :=
  ∀ entry ∈ m.items.entries, ∀ other ∈ m.items.entries, entry.1 ≠ other.1 →
    ∀ bcs ∈ entry.2.bundleCoinSpends, ∀ bcs' ∈ other.2.bundleCoinSpends,
      bcs.supportsFastForward = true → bcs'.supportsFastForward = false →
      ∀ n < m.items.entries.length,
        bcs'.coinId sha256 ∈
            m.landings sha256 bcs.coinSpend.coin.puzzleHash n →
          bcs.eligibleForDedup = true ∧ bcs'.eligibleForDedup = true

instance (m : Mempool) (puzzleHashOf : Bytes32 → Bytes32)
    (rank : Bytes32 → Nat) :
    Decidable (m.ChildrenDiffer sha256 puzzleHashOf rank) :=
  inferInstanceAs (Decidable (∀ bcs ∈ m.fastForwards, _))

set_option synthInstance.maxSize 512 in
instance (m : Mempool) : Decidable (m.LandsClear sha256) :=
  inferInstanceAs (Decidable (∀ entry ∈ m.items.entries, _))

/-- Where a spend was emitted: its own coin, or a version that its singleton has
passed. -/
def BundleCoinSpend.LandedOn (m : Mempool) (rank : Bytes32 → Nat)
    (ffState : IdMap UnspentLineageInfo) (bcs : BundleCoinSpend)
    (coinId : Bytes32) : Prop :=
  if bcs.supportsFastForward then
    (∃ n < m.items.entries.length,
      coinId ∈ m.landings sha256 bcs.coinSpend.coin.puzzleHash n) ∧
    ∃ target, ffState.lookup bcs.coinSpend.coin.puzzleHash = some target ∧
      rank coinId < rank target.coinId
  else coinId = bcs.coinId sha256

/-- What the selection loop keeps about the coins it has emitted. -/
structure Assembly.DistinctAt (a : Assembly) (m : Mempool)
    (rank : Bytes32 → Nat) (done : List MempoolItem) (steps : Bytes32 → Nat)
    (s : Selection) : Prop where
  reached : AtSteps a.sha256 m steps s.ffState
  bounded : ∀ puzzleHash, steps puzzleHash ≤ done.length
  revealed : ∀ e ∈ s.coinSpends, e.Revealed a.sha256
  nodup : (s.coinSpends.map fun e => e.coin.name a.sha256).Nodup
  origin : ∀ e ∈ s.coinSpends, ∃ item ∈ done, ∃ bcs ∈ item.bundleCoinSpends,
    (bcs.eligibleForDedup = true → e.coin.name a.sha256 ∈ s.dedupSpends) ∧
      bcs.LandedOn a.sha256 m rank s.ffState (e.coin.name a.sha256)

section Turn

variable {a : Assembly} {done : List MempoolItem} {steps : Bytes32 → Nat}
  {s : Selection} {item : MempoolItem} {processed : ProcessedItem}
  {fwds : List Forwarded} {puzzleHashOf : Bytes32 → Bytes32}
  {bcs : BundleCoinSpend} {rank : Bytes32 → Nat}

theorem Assembly.DistinctAt.skipped (h : a.DistinctAt m rank done steps s)
    (item : MempoolItem) {s' : Selection} (hstate : s'.ffState = s.ffState)
    (hspends : s'.coinSpends = s.coinSpends)
    (hdedup : ∀ coinId ∈ s.dedupSpends, coinId ∈ s'.dedupSpends) :
    a.DistinctAt m rank (done ++ [item]) steps s' where
  reached := hstate ▸ h.reached
  bounded puzzleHash := (h.bounded puzzleHash).trans (by simp)
  revealed := hspends ▸ h.revealed
  nodup := hspends ▸ h.nodup
  origin e he := by
    obtain ⟨other, hother, bcs, hbcs, hmerged, hlanded⟩ :=
      h.origin e (hspends ▸ he)
    exact ⟨other, mem_append_left _ hother, bcs, hbcs,
      fun hmerges => hdedup _ (hmerged hmerges), hstate ▸ hlanded⟩

/-- A version names its puzzle hash. -/
theorem Mempool.ChildrenDiffer.puzzleHashOf_landing
    (hdiffer : m.ChildrenDiffer a.sha256 puzzleHashOf rank)
    (hkept : m.Kept a.sha256 puzzleHashOf) {puzzleHash coinId : Bytes32}
    {n : Nat} (hn : n ≤ m.items.entries.length)
    (hlands : coinId ∈ m.landings a.sha256 puzzleHash n) :
    puzzleHashOf coinId = puzzleHash := by
  cases n with
  | zero =>
    obtain ⟨bcs, hbcs, hsome⟩ := mem_filterMap.mp hlands
    obtain ⟨lineage, hlineage, rfl⟩ := Option.map_eq_some_iff.mp hsome
    obtain ⟨hff, hpuzzle⟩ := mem_filter.mp hbcs
    obtain ⟨item, hitem, hbcs⟩ := mem_flatMap.mp (mem_filter.mp hff).1
    obtain ⟨entry, hentry, rfl⟩ := mem_map.mp hitem
    rw [← of_decide_eq_true hpuzzle]
    exact (hkept.aligned _ _ (AList.mem_lookup_iff.mpr hentry)).lineage bcs hbcs
      lineage hlineage
  | succ n =>
    obtain ⟨parent, hparent, hchild⟩ := mem_flatMap.mp hlands
    obtain ⟨bcs, hbcs, rfl⟩ := mem_map.mp hchild
    obtain ⟨hff, hpuzzle⟩ := mem_filter.mp hbcs
    obtain rfl := of_decide_eq_true hpuzzle
    exact (hdiffer bcs hff n hn parent hparent).2

section

variable (h : a.DistinctAt m rank done steps s)
  (hkept : m.Kept a.sha256 puzzleHashOf)
  (hdiffer : m.ChildrenDiffer a.sha256 puzzleHashOf rank)
  (hclear : m.LandsClear a.sha256) {name : Bytes32}
  (hitem : m.items.lookup name = some item) (hformed : item.Formed a.sha256)
  (hdone : ∀ other ∈ done, ∃ name', name' ≠ name ∧
    m.items.lookup name' = some other)
  (hroom : done.length < m.items.entries.length)
  (hresolves : a.Resolves s item processed fwds)

section

include h hdiffer hitem hformed hroom

/-- Where the fast-forward pass takes a fast-forward spend, and where it leaves
the singleton. -/
theorem Assembly.DistinctAt.lands (hbcs : bcs ∈ item.bundleCoinSpends)
    (hff : bcs.supportsFastForward = true)
    (hforward : forwardSpend a.sha256 s.ffState bcs = .ok fwd) :
    fwd.post.spend.coin.name a.sha256 ∈ m.landings a.sha256
        bcs.coinSpend.coin.puzzleHash (steps bcs.coinSpend.coin.puzzleHash) ∧
      (∃ lineage, fwd.next = some lineage ∧
        rank (fwd.post.spend.coin.name a.sha256) < rank lineage.coinId) ∧
      ∃ target, fwd.post.spend.coin.name a.sha256 = target.coinId ∧
        (s.ffState.lookup bcs.coinSpend.coin.puzzleHash = some target ∨
          s.ffState.lookup bcs.coinSpend.coin.puzzleHash = none ∧
            bcs.latestSingletonLineage = some target) := by
  obtain ⟨target, hrebases, htarget⟩ := (forwardSpend_forwards
    (hformed.children bcs hbcs) hforward).target hff
  have hmem := mem_fastForwards hitem hbcs hff
  obtain ⟨hlands, -⟩ := hrebases.lands_at htarget h.reached hmem
  refine ⟨hlands, ?_, target, hrebases.coin, htarget⟩
  obtain ⟨lineage, hnext, hchild⟩ := hrebases.next
  rw [hrebases.coin] at hlands ⊢
  refine ⟨lineage, hnext, ?_⟩
  rw [hchild]
  exact (hdiffer bcs hmem _ ((h.bounded _).trans_lt hroom) _ hlands).1

include hresolves hkept

/-- Including an item takes a singleton past the version that any of its spends
has landed on. -/
theorem Assembly.DistinctAt.passes (hbcs : bcs ∈ item.bundleCoinSpends)
    (hff : bcs.supportsFastForward = true)
    (hforward : forwardSpend a.sha256 s.ffState bcs = .ok fwd)
    {lineage : UnspentLineageInfo}
    (hupdate : processed.ffUpdate.lookup bcs.coinSpend.coin.puzzleHash =
      some lineage) :
    rank (fwd.post.spend.coin.name a.sha256) < rank lineage.coinId := by
  obtain ⟨bcs', hbcs', fwd', hforward', hsame, hnext'⟩ :=
    hresolves.update _ lineage hupdate
  have hff' := (forwardSpend_forwards (hformed.children bcs' hbcs')
    hforward').fast hnext'
  obtain ⟨-, -, target, hcoin, htarget⟩ :=
    h.lands hdiffer hitem hformed hroom hbcs hff hforward
  obtain ⟨-, ⟨child, hnext, hrank⟩, target', hcoin', htarget'⟩ :=
    h.lands hdiffer hitem hformed hroom hbcs' hff' hforward'
  cases hnext'.symm.trans hnext
  -- spends of one singleton land together: an item rides on one version of it
  have hids : target.coinId = target'.coinId := by
    rw [hsame] at htarget'
    rcases htarget with htarget | ⟨hnone, hlineage⟩ <;>
      rcases htarget' with htarget' | ⟨hnone', hlineage'⟩
    · cases htarget.symm.trans htarget'
      rfl
    · cases htarget.symm.trans hnone'
    · cases hnone.symm.trans htarget'
    · exact hkept.single name item hitem bcs hbcs bcs' hbcs' _ _ hlineage
        hlineage' hsame.symm
  rwa [hcoin, hids, ← hcoin']

end

include h hkept hdiffer hitem hformed hroom hresolves

/-- A coin that was passed stays passed. -/
theorem Assembly.DistinctAt.landedOn_commit {coinId : Bytes32}
    {bcs : BundleCoinSpend} (hlanded : bcs.LandedOn a.sha256 m rank s.ffState
      coinId) :
    bcs.LandedOn a.sha256 m rank (commitFf s.ffState processed.ffUpdate)
      coinId := by
  unfold BundleCoinSpend.LandedOn at hlanded ⊢
  split_ifs at hlanded ⊢
  · obtain ⟨hlands, target, htarget, hrank⟩ := hlanded
    refine ⟨hlands, ?_⟩
    by_cases hmem : bcs.coinSpend.coin.puzzleHash ∈ processed.ffUpdate
    · obtain ⟨lineage, hlineage⟩ :=
        Option.isSome_iff_exists.mp (AList.lookup_isSome.mpr hmem)
      obtain ⟨bcs', hbcs', fwd, hforward, hsame, hnext⟩ :=
        hresolves.update _ lineage hlineage
      have hff' := (forwardSpend_forwards (hformed.children bcs' hbcs')
        hforward).fast hnext
      have hpasses := h.passes hkept hdiffer hitem hformed hroom hresolves hbcs'
        hff' hforward (hsame ▸ hlineage)
      obtain ⟨-, -, target', hcoin, htarget'⟩ :=
        h.lands hdiffer hitem hformed hroom hbcs' hff' hforward
      rw [hsame, htarget] at htarget'
      rcases htarget' with heq | ⟨habsurd, -⟩
      · cases heq
        rw [hcoin] at hpasses
        exact ⟨lineage, (AList.lookup_union_left hmem).trans hlineage,
          hrank.trans hpasses⟩
      · cases habsurd
    · exact ⟨target, (AList.lookup_union_right hmem).trans htarget, hrank⟩
  · exact hlanded

include hclear hdone

/-- A spend that an item adds is of a coin that no earlier item spends. -/
theorem Assembly.DistinctAt.fresh (he : e ∈ s.coinSpends) (hfwd : fwd ∈ fwds)
    (hnew : fwd.post.isKept a.sha256 s.dedupSpends = true) :
    e.coin.name a.sha256 ≠ fwd.post.spend.coin.name a.sha256 := by
  intro hsame
  obtain ⟨bcs, hbcs, hforward⟩ := forall₂_mem_right hresolves.each hfwd
  have hdedup := (forwardSpend_forwards (hformed.children bcs hbcs)
    hforward).dedup
  obtain ⟨other, hother, bcs', hbcs', hdedup', hlanded⟩ := h.origin e he
  obtain ⟨name', hne, hitem'⟩ := hdone other hother
  have hmem := AList.mem_lookup_iff.mp hitem
  have hmem' := AList.mem_lookup_iff.mp hitem'
  have hsteps (puzzleHash : Bytes32) :
      steps puzzleHash < m.items.entries.length :=
    (h.bounded puzzleHash).trans_lt hroom
  -- an emitted coin that may be merged is noted, and the spend is dropped
  have hmerged : ¬ (bcs.eligibleForDedup = true ∧
      bcs'.eligibleForDedup = true) := by
    rintro ⟨hleft, hright⟩
    have hnoted := hdedup' hright
    rw [hsame] at hnoted
    rw [PostFf.isKept, hdedup, hleft, Bool.not_true, Bool.false_or,
      Option.isNone_iff_eq_none, AList.lookup_eq_none] at hnew
    exact hnew hnoted
  have hslow (hff : bcs.supportsFastForward = false) :
      fwd.post.spend.coin.name a.sha256 = bcs.coinId a.sha256 := by
    rw [forwardSpend_of_slow hff] at hforward
    cases hforward
    rfl
  unfold BundleCoinSpend.LandedOn at hlanded
  rw [hsame] at hlanded
  cases hff : bcs.supportsFastForward <;>
    cases hff' : bcs'.supportsFastForward <;>
    simp only [hff', if_true, Bool.false_eq_true, if_false] at hlanded
  · exact hmerged (hkept.paired name item name' other hitem hitem' hne.symm bcs
      hbcs bcs' hbcs' hff hff' ((hslow hff).symm.trans hlanded))
  · obtain ⟨⟨n, hn, hlanded⟩, -⟩ := hlanded
    rw [hslow hff] at hlanded
    exact hmerged (hclear _ hmem' _ hmem hne bcs' hbcs' bcs hbcs hff' hff n hn
      hlanded).symm
  · obtain ⟨hlands, -⟩ := h.lands hdiffer hitem hformed hroom hbcs hff hforward
    rw [hlanded] at hlands
    exact hmerged (hclear _ hmem _ hmem' hne.symm bcs hbcs bcs' hbcs' hff hff' _
      (hsteps _) hlands)
  · obtain ⟨hlands, -, target, hcoin, htarget⟩ :=
      h.lands hdiffer hitem hformed hroom hbcs hff hforward
    obtain ⟨⟨n, hn, hlanded⟩, target', htarget', hrank⟩ := hlanded
    rw [← hdiffer.puzzleHashOf_landing hkept hn.le hlanded,
      hdiffer.puzzleHashOf_landing hkept (hsteps _).le hlands] at htarget'
    rcases htarget with htarget | ⟨hnone, -⟩
    · cases htarget.symm.trans htarget'
      rw [hcoin] at hrank
      exact lt_irrefl _ hrank
    · cases hnone.symm.trans htarget'

theorem Assembly.DistinctAt.taken (feeSum : UInt64) :
    a.DistinctAt m rank (done ++ [item]) (fun puzzleHash =>
        if puzzleHash ∈ processed.ffUpdate then steps puzzleHash + 1
        else steps puzzleHash)
      (a.commit (s.noted processed) item processed feeSum) := by
  refine ⟨h.reached.commit hitem hformed hresolves, ?_, ?_, ?_, ?_⟩
  · intro puzzleHash
    have hbounded := h.bounded puzzleHash
    rw [length_append, length_singleton]
    split_ifs <;> omega
  · exact forall_mem_append.mpr
      ⟨h.revealed, fun e => hresolves.revealed hformed⟩
  · change ((s.coinSpends ++ processed.uniqueSpends).map _).Nodup
    rw [map_append]
    refine List.Nodup.append h.nodup ?_ ?_
    · rw [hresolves.deduped.unique, nil_append, map_map]
      refine List.Nodup.sublist (List.Sublist.map _ filter_sublist) ?_
      rw [map_map]
      exact hresolves.nodup
    · intro coinId hold hnew
      obtain ⟨e, he, rfl⟩ := mem_map.mp hold
      obtain ⟨e', he', hsame⟩ := mem_map.mp hnew
      obtain ⟨fwd, hfwd, rfl, hfresh⟩ := hresolves.mem_unique he'
      exact h.fresh hkept hdiffer hclear hitem hformed hdone hroom hresolves he
        hfwd hfresh hsame.symm
  · intro e he
    rcases mem_append.mp he with hold | hnew
    · obtain ⟨other, hother, bcs, hbcs, hdedup, hlanded⟩ := h.origin e hold
      exact ⟨other, mem_append_left _ hother, bcs, hbcs,
        fun hmerges => mem_commitDedup.mpr (.inr (hdedup hmerges)),
        h.landedOn_commit hkept hdiffer hitem hformed hroom hresolves hlanded⟩
    · obtain ⟨fwd, hfwd, rfl, hfresh⟩ := hresolves.mem_unique hnew
      obtain ⟨bcs, hbcs, hforward⟩ := forall₂_mem_right hresolves.each hfwd
      have hdedup := (forwardSpend_forwards (hformed.children bcs hbcs)
        hforward).dedup
      refine ⟨item, mem_append_right _ (mem_singleton_self item), bcs,
        hbcs, ?_, ?_⟩
      · intro hmerges
        refine mem_commitDedup.mpr (.inl (mem_map.mpr
          ⟨fwd.post.entry a.sha256, ?_, rfl⟩))
        rw [hresolves.deduped.noted, nil_append]
        refine mem_map_of_mem (mem_filter.mpr ⟨mem_map_of_mem hfwd, ?_⟩)
        rw [PostFf.isNoted, hdedup, hmerges, hfresh]
        rfl
      · unfold BundleCoinSpend.LandedOn
        split_ifs with hff
        · obtain ⟨hlands, ⟨lineage, hnext, -⟩, -⟩ :=
            h.lands hdiffer hitem hformed hroom hbcs hff hforward
          have hcovers := hresolves.covers bcs hbcs fwd hforward
            (by rw [hnext]; rfl)
          obtain ⟨target, htarget⟩ :=
            Option.isSome_iff_exists.mp (AList.lookup_isSome.mpr hcovers)
          refine ⟨⟨_, (h.bounded _).trans_lt hroom, hlands⟩, target, ?_,
            h.passes hkept hdiffer hitem hformed hroom hresolves hbcs hff
              hforward htarget⟩
          exact (AList.lookup_union_left hcovers).trans htarget
        · rw [forwardSpend_of_slow (Bool.eq_false_iff.mpr hff)] at hforward
          cases hforward
          rfl

end

/-- The items are taken in an order without repetitions. -/
theorem itemsByFee_nodup (hnamed : ∀ name item,
    m.items.lookup name = some item → item.name = name) :
    (itemsByFee m).Nodup := by
  refine (mergeSort_perm _ _).nodup_iff.mpr ?_
  refine List.Nodup.of_map MempoolItem.name ?_
  have hkeys : m.items.values.map MempoolItem.name = m.items.keys := by
    unfold IdMap.values AList.keys List.keys
    rw [map_map]
    apply map_congr_left
    intro entry hentry
    exact hnamed entry.1 entry.2 (AList.mem_lookup_iff.mpr hentry)
  rw [hkeys]
  exact m.items.keys_nodup

section

variable (hkept : m.Kept a.sha256 puzzleHashOf)
  (hdiffer : m.ChildrenDiffer a.sha256 puzzleHashOf rank)
  (hclear : m.LandsClear a.sha256) (hformed : ∀ name item,
    m.items.lookup name = some item → item.Formed a.sha256)

include hkept hdiffer hclear hformed

/-- Every turn keeps that the emitted coins are different. -/
theorem Assembly.DistinctAt.turn (h : a.DistinctAt m rank done steps s)
    (horder : itemsByFee m = done ++ item :: rest) {s' : Selection}
    (hturned : a.Turned s item s') :
    ∃ steps', a.DistinctAt m rank (done ++ [item]) steps' s' := by
  obtain ⟨name, hitem⟩ := mem_itemsByFee.mp
    (show item ∈ itemsByFee m by simp [horder])
  have hitemFormed := hformed name item hitem
  cases hturned with
  | passed skippedItems => exact ⟨steps, h.skipped item rfl rfl fun _ => id⟩
  | skipped processed skippedItems hresolve hfits =>
    exact ⟨steps, h.skipped item rfl rfl fun _ hid =>
      mem_commitDedup.mpr (.inr hid)⟩
  | taken processed feeSum hresolve hfits =>
    obtain ⟨fwds, hresolves⟩ := resolveItem_resolves hitemFormed hresolve
    have hnodup := itemsByFee_nodup hkept.named
    rw [horder] at hnodup
    have hdone : ∀ other ∈ done, ∃ name', name' ≠ name ∧
        m.items.lookup name' = some other := by
      intro other hother
      obtain ⟨name', hitem'⟩ := mem_itemsByFee.mp
        (show other ∈ itemsByFee m by simp [horder, hother])
      refine ⟨name', ?_, hitem'⟩
      rintro rfl
      cases hitem.symm.trans hitem'
      exact disjoint_of_nodup_append hnodup hother mem_cons_self
    have hroom : done.length < m.items.entries.length := by
      have hlength := congrArg List.length horder
      simp only [itemsByFee, IdMap.values, length_mergeSort,
        length_map, length_append, length_cons] at hlength
      omega
    exact ⟨_, h.taken hkept hdiffer hclear hitem hitemFormed hdone hroom
      hresolves feeSum⟩

theorem select_distinct :
    ∃ done steps, a.DistinctAt m rank done steps (a.select m) := by
  have hstart : a.DistinctAt m rank [] (fun _ => 0) {} := by
    refine ⟨fun puzzleHash => ?_, fun _ => le_rfl, by simp, nodup_nil, by simp⟩
    rw [show (({} : Selection).ffState).lookup puzzleHash = none from
      AList.lookup_empty puzzleHash]
  obtain ⟨done, rest, -, hdistinct⟩ := @selectLoop_keeps a _
    (fun done s => ∃ steps, a.DistinctAt m rank done steps s)
    (fun done item rest s s' horder ⟨steps, h⟩ hturned =>
      h.turn hkept hdiffer hclear hformed horder hturned)
    (itemsByFee m) [] 0 {} rfl ⟨_, hstart⟩
  exact ⟨done, hdistinct⟩

end

end Turn

/-- In every run that keeps the books, where no fast-forward spend can land on a
coin that another item names, the selected spends are of different coins, and
the re-run of their generator reports no double spend. -/
theorem createBlockGenerator_distinct (world : MempoolWorld)
    (hsized : world.Sized) (puzzleHashOf : Bytes32 → Bytes32)
    (ops : List MempoolOp)
    (hreads : ∀ op ∈ ops, ∀ store ∈ op.reads, store.Truthful puzzleHashOf)
    (hleaves : ∀ done op rest, ops = done ++ op :: rest →
      op.LeavesWhole world.seams (world.steps done))
    (a : Assembly) (hsha : a.sha256 = world.seams.sha256)
    (rank : Bytes32 → Nat)
    (hdiffer : (world.steps ops).ChildrenDiffer a.sha256 puzzleHashOf rank)
    (hclear : (world.steps ops).LandsClear a.sha256) (hevaluates : a.Evaluates)
    (hrun : ∀ left flags reveal env,
      FailsOnly Quiet (a.run left flags reveal env))
    (hinj : ∀ tree, buildGeneratorTree
        (a.select (world.steps ops)).coinSpends.reverse = .ok tree →
      Set.InjOn (treeHash a.sha256) {u | u ∈ involvedTrees [] tree}) :
    ((a.select (world.steps ops)).coinSpends.map fun e =>
        e.coin.name a.sha256).Nodup ∧
      ∀ program, compressedSolutionGeneratorFromCoinSpends a.sha256
          (a.select (world.steps ops)).coinSpends = .ok program →
        a.rerun program ≠ .error .doubleSpend := by
  have hkept : (world.steps ops).Kept a.sha256 puzzleHashOf := by
    rw [hsha]
    exact world.kept_steps hsized puzzleHashOf ops hreads hleaves
  have hformed : ∀ name item, (world.steps ops).items.lookup name = some item →
      item.Formed a.sha256 := by
    rw [hsha]
    exact fun name item hitem => world.formed_steps ops hitem
  obtain ⟨done, steps, hdistinct⟩ :=
    select_distinct hkept hdiffer hclear hformed
  exact ⟨hdistinct.nodup, fun program hprogram => rerun_quiet hevaluates
    hdistinct.revealed hprogram hinj hrun hdistinct.nodup⟩

section Lineage

/-- Block assembly in the world of the singletons. -/
def lineageAssembly : Assembly := { meteredAssembly with run := lineageRun }

theorem lineageAssembly_evaluates : lineageAssembly.Evaluates where
  quote _ _ _ _ _ _ hrun := by
    cases hrun
    rfl
  rom _ _ _ _ _ _ hrun := by cases hrun

/-- The one lands on version 3 and the other on version 4. -/
theorem createBlockGenerator_distinct_at_riding :
    (lineageAssembly.select (lineageWorld.steps ridingOps)).coinSpends =
        [lineageSpend 2 [createNext], plainSpend 9, lineageSpend 3 [createNext],
          plainSpend 1] ∧
      ((lineageAssembly.select (lineageWorld.steps ridingOps)).coinSpends.map
        fun e => e.coin.name standInHash).Nodup := by
  have horder := itemsByFee_of_sorted
    (show (lineageWorld.steps ridingOps).items.values.Pairwise _ by
      decide +kernel)
  have hspends : (lineageAssembly.select
      (lineageWorld.steps ridingOps)).coinSpends = [lineageSpend 2 [createNext],
        plainSpend 9, lineageSpend 3 [createNext], plainSpend 1] := by
    rw [select, horder]
    decide +kernel
  refine ⟨hspends, (createBlockGenerator_distinct lineageWorld ?_
    (fun _ => treeHash standInHash lineagePuzzle) ridingOps ?_ ?_
    lineageAssembly rfl (fun coinId => ([3, 4, 5].map fun n =>
      (lineageCoin n).name standInHash).idxOf coinId)
    ?_ ?_ lineageAssembly_evaluates ?_ ?_).1⟩
  · unfold MempoolWorld.Sized
    decide
  · exact ridingOps_truthful
  · rintro done op rest heq
    apply ridingOps_leavesWhole
    rw [heq]
    simp
  · decide +kernel
  · decide +kernel
  · intro left flags reveal env
    change FailsOnly Quiet (lineageRun left flags reveal env)
    unfold lineageRun
    split <;> simp
  · rw [hspends]
    exact injOn_of_hashesApart (by decide +kernel)

/-- A spend that is bound to version 3, and then one of version 1 that rides on
version 3. -/
def clashingOps : List MempoolOp :=
  [.newPeak (ridingStore 1) 3 3 [] id,
    .admitBundle (ridingStore 1) ⟨[lineageSpend 2 [assertVersion 3]], []⟩ 4,
    .admitBundle (ridingStore 1) (ridingBundle 9) 4]

/-- Both are admitted, since the second one does not name version 3, and the
block spends version 3 twice. -/
theorem block_spends_version_twice :
    ¬ ((lineageAssembly.select (lineageWorld.steps clashingOps)).coinSpends.map
        fun e => e.coin.name standInHash).Nodup := by
  have horder := itemsByFee_of_sorted
    (show (lineageWorld.steps clashingOps).items.values.Pairwise _ by
      decide +kernel)
  rw [select, horder]
  decide +kernel

end Lineage

end DgXch
