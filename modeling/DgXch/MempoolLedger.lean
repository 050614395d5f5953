/-
The books of the mempool over whole runs.  Every call keeps them, whatever it
returns, as long as the totals fit their words, the store never names one coin
for two puzzle hashes, and no reorganisation takes an item off a coin by halves.
A refusal for the budget of the items that expire soon has already evicted what
the bundle replaces; every other refusal leaves the books as they were.
-/
import DgXch.BlockAssembly
import DgXch.MempoolReorg

namespace DgXch

open KeyedTable List Mempool

/-- The cost the pool may hold, and that of its conflict cache with one bundle
more, fit into 64 bits. -/
def MempoolWorld.Sized (world : MempoolWorld) : Prop :=
  world.constants.maxBlockCostClvm.toNat * world.mempoolBlockBuffer.toNat <
      2 ^ 64 - 1 ∧
    world.constants.maxBlockCostClvm.toNat +
      world.constants.maxBlockCostClvm.toNat / 2 < 2 ^ 64

def MempoolOp.reads : MempoolOp → Option CoinStoreReads
  | .admitSpendBundle store _ => some store.toCoinStoreReads
  | .admitBundle store _ _ => some store
  | .remove _ => none
  | .newPeak store _ _ _ _ => some store
  | .revalidateForReorg store => some store

/-- A reorganisation finds no resident item that it would take off a coin by
halves. -/
def MempoolOp.LeavesWhole (seams : MempoolSeams) (m : Mempool) :
    MempoolOp → Prop
  | .revalidateForReorg store => ∀ name item,
      m.items.lookup name = some item → item.LeavesWhole seams store
  | _ => True

section Singletons

/-- A stand-in for the hash, under which the atom `7` has the tree hash of the
singleton top layer. -/
def standInHash (bytes : Bytes) : Bytes32 :=
  if bytes = [1, 7] then singletonTopLayerV11TreeHash
  else ⟨BigEndian.beBytes 8 (BigEndian.beNat (1 :: bytes) ^ 2 % (2 ^ 61 - 1)) ++
    List.replicate 24 0, by simp⟩

def serialOf (tree : SExp) : Bytes := (sexpToBytes tree).toOption.getD []

/-- `(a (q . 7) (c (q . struct) (c (q . 1) 1)))`: the top layer over the inner
puzzle `1`. -/
def topLayerPuzzle (launcher : SExp) : SExp :=
  let struct : SExp := .pair (.atom singletonTopLayerV11TreeHash.bytes)
    (.pair launcher (.atom Bytes32.zero.bytes))
  let quoted (tree : SExp) : SExp := .pair (.atom [1]) tree
  let cons (first rest : SExp) : SExp := .ofList [.atom [4], quoted first, rest]
  .ofList [.atom [2], quoted (.atom [7]),
    cons struct (cons (.atom [1]) (.atom [1]))]

def lineagePuzzle : SExp := topLayerPuzzle (.atom Bytes32.zero.bytes)

def lineageCoin : Nat → Coin
  | 0 => ⟨Bytes32.zero, treeHash standInHash lineagePuzzle, 1⟩
  | n + 1 => ⟨(lineageCoin n).name standInHash,
      treeHash standInHash lineagePuzzle, 1⟩

/-- `(CREATE_COIN puzzle_hash 1)`: the next version. -/
def createNext : SExp :=
  .ofList [.atom [51], .atom (treeHash standInHash lineagePuzzle).bytes,
    .atom [1]]

/-- `(ASSERT_MY_COIN_ID coin_id)`. -/
def assertVersion (n : Nat) : SExp :=
  .ofList [.atom [70], .atom ((lineageCoin n).name standInHash).bytes]

/-- Spend the version `n + 1` with some conditions. -/
def lineageSpend (n : Nat) (conditions : List SExp) : CoinSpend :=
  ⟨lineageCoin (n + 1), serialOf lineagePuzzle,
    serialOf (.ofList [
      .ofList [.atom (lineageCoin n).parentCoinInfo.bytes,
        .atom (treeHash standInHash (.atom [1])).bytes, .atom [1]],
      .atom [1], .ofList conditions])⟩

/-- A quoted value is returned, the program `1` returns its environment, and
the top layer over it the inner solution. -/
def lineageRun : ClvmRun := fun _ _ program env =>
  match program, env with
  | .pair (.atom [1]) output, _ => .ok (20, output)
  | .atom [1], _ => .ok (44, env)
  | .pair _ _, .pair _ (.pair _ (.pair inner _)) => .ok (44, inner)
  | _, _ => .error .badEncoding

/-- A world in which every signature verifies and a bundle is named after its
coins. -/
def lineageWorld : MempoolWorld where
  seams := {
    sha256 := standInHash
    name := fun bundle => .ok (standInHash (bundle.coinSpends.flatMap fun s =>
      (s.coin.name standInHash).bytes))
    supportsFastForward := supportsFastForward standInHash }
  validation := ⟨lineageRun, fun _ _ => .ok ()⟩
  constants := mainnet
  mempoolBlockBuffer := 10

/-- The lineage of the version `n + 2`. -/
def lineageInfo (n : Nat) : UnspentLineageInfo where
  coinId := (lineageCoin (n + 2)).name standInHash
  parentId := (lineageCoin (n + 1)).name standInHash
  parentParentId := (lineageCoin n).name standInHash

/-- A store that knows some records, and names a version for the puzzle hash of
the singleton. -/
def lineageStore (records : List CoinRecord) (n : Nat) : CoinStoreReads where
  getCoinRecords names := .ok (records.filter fun r =>
    r.coin.name standInHash ∈ names)
  getUnspentLineageInfo puzzleHash := .ok
    (if puzzleHash = treeHash standInHash lineagePuzzle then
      some (lineageInfo n) else none)

/-- Version 1 is spent, and version 3 is the newest. -/
def lineageRecords : List CoinRecord :=
  [⟨lineageCoin 1, 1, 2, false, 1, true⟩,
    ⟨lineageCoin 3, 3, 0, false, 3, false⟩]

/-- A coin that pays a fee. -/
def plainSpend (fee : UInt8) : CoinSpend :=
  ⟨⟨Bytes32.zero, treeHash standInHash (.atom [1]), fee.toUInt64⟩, [1], [0x80]⟩

/-- Version 1 of the singleton is spent, as the coins that pay a fee are not,
and a later version is the newest. -/
def ridingStore : Nat → CoinStoreReads :=
  lineageStore (⟨(plainSpend 1).coin, 1, 0, false, 1, false⟩ ::
    ⟨(plainSpend 9).coin, 1, 0, false, 1, false⟩ :: lineageRecords)

/-- A spend of version 1 that rides on version 3, and a fee. -/
def ridingBundle (fee : UInt8) : SpendBundle :=
  ⟨[lineageSpend 0 [createNext], plainSpend fee], []⟩

/-- Two items that ride on version 3. -/
def ridingOps : List MempoolOp :=
  [.newPeak (ridingStore 1) 3 3 [] id,
    .admitBundle (ridingStore 1) (ridingBundle 1) 4,
    .admitBundle (ridingStore 1) (ridingBundle 9) 4]

theorem lineageStore_truthful (records : List CoinRecord) (n : Nat) :
    (lineageStore records n).Truthful
      fun _ => treeHash standInHash lineagePuzzle := by
  intro puzzleHash lineage hanswer
  simp only [lineageStore] at hanswer
  split_ifs at hanswer with hsame
  · exact hsame.symm
  · cases hanswer

theorem ridingOps_truthful : ∀ op ∈ ridingOps, ∀ store ∈ op.reads,
    store.Truthful fun _ => treeHash standInHash lineagePuzzle := by
  intro op hop store hstore
  simp only [ridingOps, mem_cons, not_mem_nil, or_false] at hop
  rcases hop with rfl | rfl | rfl <;> cases hstore
  all_goals exact lineageStore_truthful _ _

theorem ridingOps_leavesWhole {m : Mempool} {op : MempoolOp}
    (hop : op ∈ ridingOps) : op.LeavesWhole lineageWorld.seams m := by
  simp only [ridingOps, mem_cons, not_mem_nil, or_false] at hop
  rcases hop with rfl | rfl | rfl <;> trivial

end Singletons

section Runs

variable {world : MempoolWorld} {puzzleHashOf : Bytes32 → Bytes32} {m : Mempool}

theorem Mempool.Kept.new (hsized : world.Sized) :
    (new world.constants world.mempoolBlockBuffer).Kept
      world.seams.sha256 puzzleHashOf where
  totalCost_eq := rfl
  totalCost_le := UInt64.zero_le
  totalFee_eq := rfl
  seen := .empty
  conflict := .empty _
  pending := Nat.zero_le _
  index := .empty
  single _ _ h := (lookup_empty_ne_some h).elim
  named _ _ h := (lookup_empty_ne_some h).elim
  aligned _ _ h := (lookup_empty_ne_some h).elim
  headRoom := by
    change (0 : UInt64).toNat < _
    decide
  room := by
    have hcost := hsized.1
    change (clampU64 _).toNat < _
    rw [clampU64_of_lt (Nat.lt_of_lt_of_le hcost (Nat.sub_le _ _))]
    exact hcost
  conflictRoom := by
    change _ + (world.constants.maxBlockCostClvm / 2).toNat < _
    rw [UInt64.toNat_div]
    exact hsized.2
  parked _ _ h := (lookup_empty_ne_some h).elim
  setAside _ _ h := (lookup_empty_ne_some h).elim
  paired _ _ _ _ h := (lookup_empty_ne_some h).elim

theorem Mempool.Kept.admitSpendBundle
    (h : m.Kept world.seams.sha256 puzzleHashOf) {store : NodeStoreReads}
    (hstore : store.toCoinStoreReads.Truthful puzzleHashOf)
    (bundle : SpendBundle) :
    (DgXch.admitSpendBundle world.seams world.validation world.constants m store
      bundle).2.Kept world.seams.sha256 puzzleHashOf := by
  unfold DgXch.admitSpendBundle
  split
  · exact h
  split_ifs
  · exact h.removeSeen _
  · exact h
  split
  · exact h
  split
  · exact h.addSeen _
  rename_i conds hconds
  have hjoins : Joins world.seams.sha256 bundle.coinSpends conds :=
    conditionsFromSpendBundle_joins (validateBundle_ok hconds)
  have hresident := h.admitBundle hstore hjoins
  split
  · rename_i heq
    rwa [heq] at hresident
  · rename_i heq
    rw [heq] at hresident
    exact hresident.addSeen _

/-- One call keeps the books. -/
theorem Mempool.Kept.step (h : m.Kept world.seams.sha256 puzzleHashOf)
    (op : MempoolOp) (hreads : ∀ store ∈ op.reads, store.Truthful puzzleHashOf)
    (hleaves : op.LeavesWhole world.seams m) :
    (world.step m op).Kept world.seams.sha256 puzzleHashOf := by
  cases op with
  | admitSpendBundle store bundle =>
    exact h.admitSpendBundle (hreads _ rfl) bundle
  | admitBundle store bundle height =>
    unfold MempoolWorld.step
    dsimp only
    split
    · exact h
    · rename_i conds hconds
      exact h.admitBundle (hreads _ rfl)
        (conditionsFromSpendBundle_joins hconds)
  | remove name => exact h.remove name
  | newPeak store height timestamp spent order =>
    exact h.newPeak (hreads _ rfl) height timestamp spent order
  | revalidateForReorg store =>
    exact h.revalidateForReorg (hreads _ rfl) hleaves

end Runs

section Books

variable (world : MempoolWorld) (hsized : world.Sized)
  (puzzleHashOf : Bytes32 → Bytes32) (ops : List MempoolOp)
  (hreads : ∀ op ∈ ops, ∀ store ∈ op.reads, store.Truthful puzzleHashOf)
  (hleaves : ∀ done op rest, ops = done ++ op :: rest →
    op.LeavesWhole world.seams (world.steps done))

include hsized hreads hleaves

theorem MempoolWorld.kept_steps :
    (world.steps ops).Kept world.seams.sha256 puzzleHashOf := by
  induction ops using List.reverseRecOn with
  | nil => exact .new hsized
  | append_singleton ops op ih =>
    rw [MempoolWorld.steps, foldl_append, ← MempoolWorld.steps]
    apply Mempool.Kept.step
    · apply ih
      · intro earlier hearlier
        exact hreads earlier (mem_append_left _ hearlier)
      · intro done earlier rest heq
        apply hleaves done earlier (rest ++ [op])
        simp [heq]
    · exact hreads op (by simp)
    · exact hleaves ops op [] rfl

/-- In every run whose totals fit their words, whose stores never name one coin
for two puzzle hashes, and whose reorganisations take no item off a coin by
halves, the books are right after every call. -/
theorem mempool_books : (world.steps ops).Books world.seams.sha256 :=
  have h := world.kept_steps hsized puzzleHashOf ops hreads hleaves
  ⟨h.pool, h.seen, h.conflict, h.pending⟩

end Books

/-- Two items that ride on version 3, and a reorganisation that moves both to
version 4. -/
theorem mempool_books_at_riding :
    let m := lineageWorld.steps
      (ridingOps ++ [.revalidateForReorg (ridingStore 2)])
    (owners m.byCoin ((lineageCoin 4).name standInHash)).length = 2 ∧
      m.Books standInHash := by
  refine ⟨by decide +kernel, mempool_books lineageWorld ?_
    (fun _ => treeHash standInHash lineagePuzzle) _ ?_ ?_⟩
  · unfold MempoolWorld.Sized
    decide
  · intro op hop
    rcases mem_append.mp hop with hop | hop
    · exact ridingOps_truthful op hop
    · obtain rfl := mem_singleton.mp hop
      rintro store ⟨⟩
      exact lineageStore_truthful _ _
  · intro done op rest heq
    rcases rest.eq_nil_or_concat with rfl | ⟨rest, last, rfl⟩
    · -- each of the two items has one spend on version 3
      obtain ⟨rfl, hlast⟩ := append_inj' heq rfl
      obtain rfl := singleton_inj.mp hlast
      have halone : ∀ entry ∈ (lineageWorld.steps ridingOps).items.entries,
          ∀ bcs ∈ entry.2.bundleCoinSpends,
          ∀ old ∈ bcs.latestSingletonLineage,
          ∀ other ∈ entry.2.bundleCoinSpends,
          other.indexKey standInHash = old.coinId →
            other.supportsFastForward = true ∧
              other.coinId standInHash = bcs.coinId standInHash := by
        decide +kernel
      intro name item hitem records _ _ bcs hbcs old new hold hknown _ _ other
        hother hkey
      obtain ⟨hfast, hsame⟩ := halone _ (AList.mem_lookup_iff.mp hitem) bcs hbcs old
        hold other hother hkey
      exact ⟨hfast, hsame ▸ hknown⟩
    · apply ridingOps_leavesWhole
      rw [concat_eq_append, ← cons_append, ← append_assoc] at heq
      rw [(append_inj' heq rfl).1]
      simp

/-- A spend of version 1, which is fast-forwarded, and one that is bound to
version 3. -/
def tornBundle : SpendBundle :=
  ⟨[lineageSpend 0 [createNext], lineageSpend 2 [createNext, assertVersion 3]],
    []⟩

/-- A reorganisation whose lineage read comes after version 3 was spent, while
its record read came before. -/
def tornOps : List MempoolOp :=
  [.newPeak (lineageStore lineageRecords 1) 3 3 [] id,
    .admitBundle (lineageStore lineageRecords 1) tornBundle 4,
    .revalidateForReorg (lineageStore lineageRecords 2)]

/-- The item stays, keeps a spend of version 3, and is no longer filed under
it. -/
theorem mempool_index_loses_coin :
    ∃ name, ∃ item ∈ (lineageWorld.steps tornOps).items.lookup name,
      (lineageCoin 3).name standInHash ∈ item.indexKeys standInHash ∧
      name ∉ owners (lineageWorld.steps tornOps).byCoin
        ((lineageCoin 3).name standInHash) := by
  refine ⟨standInHash (((lineageCoin 1).name standInHash).bytes ++
    ((lineageCoin 3).name standInHash).bytes), ?_⟩
  decide +kernel

/-- Two pools with the same items, index and totals. -/
structure Mempool.SameResidents (m m' : Mempool) : Prop where
  items : m'.items = m.items
  byCoin : m'.byCoin = m.byCoin
  totalCost : m'.totalCost = m.totalCost
  totalFee : m'.totalFee = m.totalFee

theorem Mempool.SameResidents.refl (m : Mempool) : m.SameResidents m :=
  ⟨rfl, rfl, rfl, rfl⟩

/-- The budget of the items that expire soon has no room for an item: some
resident item of a higher rate would have to go. -/
def Mempool.Crowded (m : Mempool) (item : MempoolItem) : Prop :=
  m.expiresSoon item.timelocks ∧
    ∃ row ∈ Mempool.withRunningCost 0
      ((m.items.values.filter fun i => m.expiresSoon i.timelocks).mergeSort
        Mempool.priorityOrder),
      m.maxBlockClvmCost < saturatingAdd64 row.2 item.cost ∧
        item.feePerVirtualCost < row.1.feePerVirtualCost

section Budget

variable {m : Mempool} {item : MempoolItem}

theorem saturatingAdd64_mono {a b c : UInt64} (h : a ≤ b) :
    saturatingAdd64 a c ≤ saturatingAdd64 b c := by
  rw [UInt64.le_iff_toNat_le] at h ⊢
  rw [saturatingAdd64_toNat, saturatingAdd64_toNat]
  omega

theorem withRunningCost_pairwise (running : UInt64) (items : List MempoolItem) :
    (withRunningCost running items).Pairwise
      fun row later => row.2 ≤ later.2 := by
  induction items generalizing running with
  | nil => exact .nil
  | cons head tail ih =>
    apply List.Pairwise.cons
    · intro later hlater
      exact le_of_mem_withRunningCost hlater
    · exact ih _

/-- The pruning loop fails exactly when a row of a higher rate stands over the
budget: it stops at the first row within it, and the costs only fall. -/
theorem expiringLoop_error_iff {rows : List (MempoolItem × UInt64)}
    (hsorted : rows.Pairwise fun row later => later.2 ≤ row.2) :
    (∃ e, m.expiringLoop item rows = .error e) ↔
      ∃ row ∈ rows, m.maxBlockClvmCost < saturatingAdd64 row.2 item.cost ∧
        item.feePerVirtualCost < row.1.feePerVirtualCost := by
  induction rows with
  | nil => simp [expiringLoop]
  | cons head tail ih =>
    obtain ⟨row, cumulative⟩ := head
    obtain ⟨hhead, htail⟩ := pairwise_cons.mp hsorted
    simp only [expiringLoop, mem_cons, exists_eq_or_imp]
    by_cases hfits : saturatingAdd64 cumulative item.cost ≤ m.maxBlockClvmCost
    · -- every later row fits as well
      have hlater : ∀ later ∈ tail,
          ¬ m.maxBlockClvmCost < saturatingAdd64 later.2 item.cost := by
        intro later hmem
        apply UInt64.not_lt.mpr
        exact UInt64.le_trans (saturatingAdd64_mono (hhead later hmem)) hfits
      simp only [hfits, if_true, UInt64.not_lt.mpr hfits, false_and,
        false_or, reduceCtorEq, exists_false, false_iff]
      rintro ⟨later, hmem, hover, -⟩
      exact hlater later hmem hover
    · have hover := UInt64.not_le.mp hfits
      by_cases hrate : item.feePerVirtualCost < row.feePerVirtualCost
      · simp [hfits, hrate, hover]
      · simp only [hfits, hrate, if_false, and_false, false_or]
        rw [← ih htail]
        constructor
        · rintro ⟨e, he⟩
          cases hloop : m.expiringLoop item tail with
          | error e' => exact ⟨e', rfl⟩
          | ok names =>
            rw [hloop] at he
            cases he
        · rintro ⟨e, he⟩
          exact ⟨e, by rw [he]; rfl⟩

theorem expiringEvictions_error_iff :
    (∃ e, m.expiringEvictions item = .error e) ↔ m.Crowded item := by
  unfold expiringEvictions Crowded
  split_ifs with hsoon
  · rw [expiringLoop_error_iff
      (pairwise_reverse.mpr (withRunningCost_pairwise _ _))]
    simp [hsoon]
  · simp [hsoon]

end Budget

section Refusal

variable (seams : MempoolSeams) (m : Mempool) (store : CoinStoreReads)
  (bundle : SpendBundle) (conds : SpendBundleConditions)

/-- An admission that passes every check before the search for conflicts. -/
structure Mempool.Weighs (name : Bytes32) (checked : Mempool.Checked) :
    Prop where
  named : seams.name bundle = .ok name
  fresh : name ∉ m.items
  passes : Mempool.checkBundle seams m store bundle conds = .ok checked
  possible : Mempool.impossibleTimelock
    (effectiveTimelocks conds checked.records) = none
  unlocked : checkTimeLocks conds checked.records checked.peakHeight
    checked.peakTimestamp = none

/-- A bundle that may replace the resident items it conflicts with, but finds no
room among the items that expire soon when they are gone. -/
def Mempool.ReplacesInVain : Prop :=
  ∃ name checked names,
    Mempool.Weighs seams m store bundle conds name checked ∧
    Mempool.conflictNames seams m (removalsForConditions conds)
      checked.bundleCoinSpends = .ok names ∧
    names ≠ [] ∧
    Mempool.canReplace seams m names (removalsForConditions conds)
      (feeOf conds) conds.cost (effectiveTimelocks conds checked.records)
      checked.bundleCoinSpends ∧
    (m.removeAll seams names).Crowded
      ((m.removeAll seams names).newItem name bundle conds checked)

end Refusal

section Refused

variable {seams : MempoolSeams} {m : Mempool} {store : CoinStoreReads}
  {bundle : SpendBundle} {conds : SpendBundleConditions}

/-- A call that does not come to the conflict search leaves the residents. -/
theorem sameResidents_of_not_weighs (h : ∀ name checked,
      ¬ Weighs seams m store bundle conds name checked) :
    m.SameResidents (m.admitBundle seams store bundle conds).2 := by
  unfold admitBundle
  split
  · exact .refl m
  case h_2 name hname =>
    split_ifs with hfresh
    · exact .refl m
    split
    · exact .refl m
    case h_2 checked hchecked =>
      dsimp only
      split
      · exact .refl m
      case h_2 hpossible =>
        split
        · exact ⟨rfl, rfl, rfl, rfl⟩
        · exact .refl m
        · exact .refl m
        case h_4 hopen =>
          exact absurd ⟨hname, hfresh, hchecked, hpossible, hopen⟩
            (h name checked)

variable {checked : Checked} {name : Bytes32}

theorem admitBundle_of_weighs
    (h : Weighs seams m store bundle conds name checked) :
    m.admitBundle seams store bundle conds =
      m.admitConflicting seams name bundle conds checked := by
  unfold admitBundle
  rw [h.named]
  simp only [h.fresh, if_false, h.passes, h.possible, h.unlocked]

theorem conflictStep_resident {newBcs : Option BundleCoinSpend}
    {coinId owner : Bytes32} {names names' : List Bytes32}
    (h : conflictStep seams m newBcs coinId names owner = .ok names')
    (hnames : ∀ name ∈ names, name ∈ m.items) :
    ∀ name ∈ names', name ∈ m.items := by
  unfold conflictStep at h
  split_ifs at h
  · cases h
    exact hnames
  split at h
  · cases h
    exact hnames
  case h_2 item hitem =>
    obtain ⟨conflict, -, h⟩ := Except.bind_eq_ok.mp h
    cases h
    have howner : owner ∈ m.items := AList.lookup_isSome.mp (by rw [hitem]; rfl)
    split_ifs
    · exact forall_mem_append.mpr ⟨hnames, forall_mem_singleton.mpr howner⟩
    · exact hnames

theorem foldlM_keeps {A B E : Type} {f : B → A → Except E B} {P : B → Prop}
    (hstep : ∀ held a held', f held a = .ok held' → P held → P held')
    {list : List A} {start out : B} (h : list.foldlM f start = .ok out)
    (hstart : P start) : P out := by
  induction list generalizing start with
  | nil =>
    cases h
    exact hstart
  | cons head tail ih =>
    rw [foldlM_cons] at h
    obtain ⟨next, hnext, h⟩ := Except.bind_eq_ok.mp h
    exact ih h (hstep _ _ _ hnext hstart)

theorem conflictNames_resident {removals names : List Bytes32}
    {spends : List BundleCoinSpend}
    (h : conflictNames seams m removals spends = .ok names) :
    ∀ name ∈ names, name ∈ m.items := by
  have hempty : ∀ name ∈ ([] : List Bytes32), name ∈ m.items := by simp
  refine foldlM_keeps (P := fun names => ∀ name ∈ names, name ∈ m.items) ?_ h
    hempty
  intro held coinId held' hinner hheld
  exact foldlM_keeps (fun _ _ _ => conflictStep_resident) hinner hheld

theorem not_sameResidents_removeAll {names : List Bytes32}
    (hresident : ∀ name ∈ names, name ∈ m.items) (hne : names ≠ []) :
    ¬ m.SameResidents (m.removeAll seams names) := by
  intro hsame
  obtain ⟨name, hname⟩ := exists_mem_of_ne_nil names hne
  have hmem : name ∈ (m.removeAll seams names).items := by
    rw [hsame.items]
    exact hresident name hname
  obtain ⟨item, hitem⟩ :=
    Option.isSome_iff_exists.mp (AList.lookup_isSome.mpr hmem)
  exact notMem_of_lookup_removeAll hitem hname

/-- The end of an admission fails when the pool is crowded, and then leaves the
pool it was given. -/
theorem admitItem_of_crowded
    (h : m.Crowded (m.newItem name bundle conds checked)) :
    (∃ e, (m.admitItem seams name bundle conds checked).1 = .error e) ∧
      (m.admitItem seams name bundle conds checked).2 =
        { m with seq := m.seq + 1 } := by
  have hcrowded : Crowded { m with seq := m.seq + 1 }
      (m.newItem name bundle conds checked) := h
  obtain ⟨e, he⟩ := expiringEvictions_error_iff.mpr hcrowded
  have hadd : addToPool seams { m with seq := m.seq + 1 }
      (m.newItem name bundle conds checked) =
        (.error e, { m with seq := m.seq + 1 }) := by
    unfold addToPool
    rw [he]
  constructor
  · exact ⟨e, congrArg (fun result => result.1.map fun _ => name) hadd⟩
  · exact congrArg Prod.snd hadd

theorem admitItem_ok_of_not_crowded
    (h : ¬ m.Crowded (m.newItem name bundle conds checked)) :
    (m.admitItem seams name bundle conds checked).1 = .ok name := by
  have hadd : (addToPool seams { m with seq := m.seq + 1 }
      (m.newItem name bundle conds checked)).1 = .ok () := by
    unfold addToPool
    split
    case h_1 e he => exact absurd (expiringEvictions_error_iff.mp ⟨e, he⟩) h
    case h_2 => rfl
  exact congrArg (fun result => Except.map (fun _ => name) result) hadd

theorem not_sameResidents_of_replacesInVain
    (h : ReplacesInVain seams m store bundle conds) :
    (∃ e, (m.admitBundle seams store bundle conds).1 = .error e) ∧
      ¬ m.SameResidents (m.admitBundle seams store bundle conds).2 := by
  obtain ⟨name, checked, names, hweighs, hnames, hne, hreplace, hcrowded⟩ := h
  have hpath : m.admitBundle seams store bundle conds =
      (m.removeAll seams names).admitItem seams name bundle conds checked := by
    rw [admitBundle_of_weighs hweighs]
    unfold admitConflicting
    simp only [hnames, hreplace, not_true_eq_false, and_false, if_false]
  obtain ⟨herror, hpool⟩ := admitItem_of_crowded hcrowded
  rw [hpath]
  refine ⟨herror, ?_⟩
  rw [hpool]
  intro hsame
  exact not_sameResidents_removeAll (conflictNames_resident hnames) hne
    ⟨hsame.items, hsame.byCoin, hsame.totalCost, hsame.totalFee⟩

theorem sameResidents_of_not_replacesInVain {e : MempoolError}
    (herror : (m.admitBundle seams store bundle conds).1 = .error e)
    (h : ¬ ReplacesInVain seams m store bundle conds) :
    m.SameResidents (m.admitBundle seams store bundle conds).2 := by
  by_cases hweighs : ∃ name checked,
      Weighs seams m store bundle conds name checked
  · obtain ⟨name, checked, hweighs⟩ := hweighs
    rw [admitBundle_of_weighs hweighs] at herror ⊢
    unfold admitConflicting at herror ⊢
    dsimp only at herror ⊢
    split at herror
    case h_1 => exact .refl m
    case h_2 names hnames =>
      split_ifs at herror with hblocked
      · rw [if_pos hblocked]
        unfold cacheConflict
        split_ifs
        · exact .refl m
        · exact ⟨rfl, rfl, rfl, rfl⟩
      rw [if_neg hblocked]
      -- with conflicts the pool cannot be crowded, so there are none
      by_cases hcrowded : (m.removeAll seams names).Crowded
          ((m.removeAll seams names).newItem name bundle conds checked)
      · have hnil : names = [] := by
          by_contra hne
          exact h ⟨name, checked, names, hweighs, hnames, hne,
            by simpa [hne] using hblocked, hcrowded⟩
        subst hnil
        rw [(admitItem_of_crowded hcrowded).2]
        exact ⟨rfl, rfl, rfl, rfl⟩
      · rw [admitItem_ok_of_not_crowded hcrowded] at herror
        cases herror
  · apply sameResidents_of_not_weighs
    intro name checked hw
    exact hweighs ⟨name, checked, hw⟩

/-- A refused bundle leaves the residents as they were, unless it was to replace
some of them and the budget of the items that expire soon had no room. -/
theorem admitBundle_refused_sameResidents_iff (seams : MempoolSeams)
    (m : Mempool) (store : CoinStoreReads) (bundle : SpendBundle)
    (conds : SpendBundleConditions) (e : MempoolError)
    (herror : (m.admitBundle seams store bundle conds).1 = .error e) :
    m.SameResidents (m.admitBundle seams store bundle conds).2 ↔
      ¬ Mempool.ReplacesInVain seams m store bundle conds := by
  constructor
  · intro hsame hvain
    exact (not_sameResidents_of_replacesInVain hvain).2 hsame
  · exact sameResidents_of_not_replacesInVain herror

end Refused

section Expiring

/-- Three programs return their environment, each for a price of its own. -/
def expiringRun : ClvmRun := fun _ _ program env =>
  match program with
  | .atom [10] => .ok (1000000, env)
  | .atom [11] => .ok (5499268000, env)
  | .atom [12] => .ok (5497620000, env)
  | _ => .error .badEncoding

/-- The world of the singletons with this evaluator. -/
def expiringWorld : MempoolWorld :=
  { lineageWorld with validation := ⟨expiringRun, fun _ _ => .ok ()⟩ }

/-- Spend a coin before height 100, with a second bound that adds nothing. -/
def expiringSpend (tag program : UInt8) (amount : UInt64) (bound : UInt8) :
    CoinSpend :=
  ⟨⟨plainHash tag, treeHash standInHash (.atom [program]), amount⟩, [program],
    [0xff, 0xff, 87, 0xff, 100, 0x80, 0xff, 0xff, 87, 0xff, bound, 0x80, 0x80]⟩

/-- Half a block for a high fee. -/
def holdingBundle : SpendBundle := ⟨[expiringSpend 1 11 1000000000 101], []⟩

/-- A small bundle without a fee. -/
def replacedBundle : SpendBundle := ⟨[expiringSpend 2 10 0 101], []⟩

/-- Half a block that spends the same coin and pays ten million mojos. -/
def replacingBundle : SpendBundle :=
  ⟨[expiringSpend 2 10 0 102, expiringSpend 3 12 10000000 101], []⟩

/-- The records of the three coins. -/
def expiringStore : CoinStoreReads where
  getCoinRecords names := .ok (((holdingBundle.coinSpends ++
    replacingBundle.coinSpends).map fun s =>
      (⟨s.coin, 1, 0, false, 1, false⟩ : CoinRecord)).filter fun r =>
        r.coin.name standInHash ∈ names)
  getUnspentLineageInfo _ := .ok none

/-- Two admissions, and a peak after which both items expire soon. -/
def expiringOps : List MempoolOp :=
  [.newPeak expiringStore 1 1 [] id,
    .admitBundle expiringStore holdingBundle 2,
    .admitBundle expiringStore replacedBundle 2,
    .newPeak expiringStore 60 60 [] id]

/-- The bundle is refused, and the item it was to replace is gone. -/
theorem refused_bundle_evicts :
    ∃ conds ∈ (expiringWorld.conditions replacingBundle 61).toOption,
    ∃ name ∈ (expiringWorld.seams.name replacedBundle).toOption,
      ((expiringWorld.steps expiringOps).admitBundle expiringWorld.seams
        expiringStore replacingBundle conds).1 = .error .feeTooLow ∧
      name ∈ (expiringWorld.steps expiringOps).items ∧
      name ∉ ((expiringWorld.steps expiringOps).admitBundle expiringWorld.seams
        expiringStore replacingBundle conds).2.items := by
  decide +kernel

/-- It is refused in vain: there is no room for it when they are gone. -/
theorem admitBundle_refused_sameResidents_iff_at_expiring :
    let m := expiringWorld.steps expiringOps
    ∃ conds ∈ (expiringWorld.conditions replacingBundle 61).toOption,
      let refused := m.admitBundle expiringWorld.seams expiringStore
        replacingBundle conds
      refused.1 = .error .feeTooLow ∧ ¬ m.SameResidents refused.2 ∧
        Mempool.ReplacesInVain expiringWorld.seams m expiringStore
          replacingBundle conds := by
  intro m
  obtain ⟨conds, hconds, herror, hfewer⟩ :
      ∃ conds ∈ (expiringWorld.conditions replacingBundle 61).toOption,
        let refused := m.admitBundle expiringWorld.seams expiringStore
          replacingBundle conds
        refused.1 = .error .feeTooLow ∧
          refused.2.items.keys.length ≠ m.items.keys.length := by
    decide +kernel
  have hchanged : ¬ m.SameResidents (m.admitBundle expiringWorld.seams
      expiringStore replacingBundle conds).2 := fun hsame =>
    hfewer (by rw [hsame.items])
  refine ⟨conds, hconds, herror, hchanged, ?_⟩
  by_contra hfits
  exact hchanged ((admitBundle_refused_sameResidents_iff _ _ _ _ _ _
    herror).mpr hfits)

end Expiring

end DgXch
