/-
The books of the mempool: what its six collections and three running totals say
about each other, kept by removals, admissions and the caches of bundles set
aside.  Everything entered through an admission, which never compares the two
amounts or reads the reserve fee.
-/
import DgXch.Mempool
import DgXch.KeyedTable

namespace DgXch

/-- The removed coins pay for the created ones and for the reserved fee. -/
def SpendBundleConditions.Funded (conds : SpendBundleConditions) : Prop :=
  conds.additionAmount + conds.reserveFee.toNat ≤ conds.removalAmount

namespace Mempool

/-- A fee that passes the gates is within the cap. -/
theorem checkFee_ok {m : Mempool} {fee cost : UInt64}
    (h : m.checkFee fee cost = .ok ()) : fee ≤ mempoolItemFeeLimit := by
  unfold checkFee at h
  split at h
  · cases h
  · rename_i hcap
    exact UInt64.not_lt.mp fun hlt => hcap (.inl hlt)

/-- Funded bundles, and items with the fee of their conditions, within the cap
on fees. -/
def funded (seams : MempoolSeams) : PoolProperty seams where
  itemOk item := item.conds.Funded ∧ item.fee = feeOf item.conds ∧
    item.fee ≤ mempoolItemFeeLimit
  entryOk _ conds := conds.Funded
  moved hmoved hitem := by
    rw [hmoved.rest]
    exact hitem
  admitted hconds hchecked _ _ :=
    ⟨hconds, rfl, checkFee_ok (checkBundle_checks hchecked).2.2⟩

end Mempool

section Runs

/-- In every run in which the offered bundles are funded, each resident item
creates no more than it removes, its recorded fee is exactly the difference,
and the fee covers what it reserves. -/
theorem mempool_resident_fundable (world : MempoolWorld) (ops : List MempoolOp)
    (hfunded : ∀ op ∈ ops, ∀ conds, world.Offers op conds → conds.Funded)
    (name : Bytes32) (item : MempoolItem)
    (hitem : (world.steps ops).items.lookup name = some item) :
    item.conds.additionAmount ≤ item.conds.removalAmount ∧
      item.fee.toNat = item.conds.removalAmount - item.conds.additionAmount ∧
      item.conds.reserveFee.toNat ≤ item.fee.toNat := by
  obtain ⟨hconds, hfee, hcap⟩ := (MempoolWorld.holds_steps
    (P := Mempool.funded world.seams) ops
    fun op hop _ _ => hfunded op hop).items hitem
  have hexact : item.fee.toNat =
      item.conds.removalAmount - item.conds.additionAmount := by
    rw [hfee] at hcap ⊢
    apply clampU64_toNat_of_lt
    exact lt_of_le_of_lt (UInt64.le_iff_toNat_le.mp hcap) (by decide)
  unfold SpendBundleConditions.Funded at hconds
  refine ⟨?_, hexact, ?_⟩ <;> omega

/-- The program `1` returns its environment; nothing else is run here. -/
def echoRun : ClvmRun := fun _ _ program env =>
  if program = .atom [1] then .ok (44, env) else .error .badEncoding

variable (amount : UInt64)

/-- A coin that is locked with the program `1`. -/
def echoCoin : Coin := ⟨Bytes32.zero, treeHash hash256 (.atom [1]), amount⟩

/-- Spend such a coin with `((CREATE_COIN 0.. created) (RESERVE_FEE 10))`. -/
def echoBundle (created : UInt8) : SpendBundle :=
  ⟨[⟨echoCoin amount, [1],
    [0xff, 0xff, 51, 0xff, 0xa0] ++ Bytes32.zero.bytes ++
      [0xff, created, 0x80, 0xff, 0xff, 52, 0xff, 10, 0x80, 0x80]⟩], []⟩

/-- A world in which every signature verifies and no spend is a singleton. -/
def echoWorld : MempoolWorld where
  seams := ⟨hash256, fun _ => .ok Bytes32.zero, fun _ => false⟩
  validation := ⟨echoRun, fun _ _ => .ok ()⟩
  constants := mainnet
  mempoolBlockBuffer := 10

/-- A store in which one such coin was confirmed at height one. -/
def echoStore : CoinStoreReads where
  getCoinRecords names :=
    .ok (if (echoCoin amount).name hash256 ∈ names then
      [⟨echoCoin amount, 1, 0, false, 1, false⟩] else [])
  getUnspentLineageInfo _ := .ok none

def echoOps (created : UInt8) : List MempoolOp :=
  [.newPeak (echoStore amount) 1 1 [] id,
    .admitBundle (echoStore amount) (echoBundle amount created) 2]

theorem mempool_resident_fundable_at_echo : ∃ item,
    (echoWorld.steps (echoOps 100 60)).items.lookup Bytes32.zero = some item ∧
      item.conds.additionAmount ≤ item.conds.removalAmount ∧
      item.fee.toNat = item.conds.removalAmount - item.conds.additionAmount ∧
      item.conds.reserveFee.toNat ≤ item.fee.toNat := by
  have hsome : ((echoWorld.steps (echoOps 100 60)).items.lookup
      Bytes32.zero).isSome := by decide +kernel
  obtain ⟨item, hitem⟩ := Option.isSome_iff_exists.mp hsome
  refine ⟨item, hitem, mempool_resident_fundable echoWorld (echoOps 100 60) ?_
    Bytes32.zero item hitem⟩
  have hconds : ∀ conds ∈ (echoWorld.conditions (echoBundle 100 60) 2).toOption,
      conds.additionAmount + conds.reserveFee.toNat ≤ conds.removalAmount := by
    decide +kernel
  intro op hop conds hoffers
  rcases List.mem_cons.mp hop with rfl | hop
  · exact hoffers.elim
  · obtain rfl := List.mem_singleton.mp hop
    apply hconds
    rw [show echoWorld.conditions (echoBundle 100 60) 2 = .ok conds from
      hoffers]
    rfl

/-- A bundle that turns one mojo into a hundred and reserves a fee becomes
resident, with a recorded fee of zero. -/
theorem mempool_admits_minting :
    ∃ item ∈ (echoWorld.steps (echoOps 1 100)).items.lookup Bytes32.zero,
      item.conds.removalAmount < item.conds.additionAmount ∧
      item.fee < item.conds.reserveFee := by
  decide +kernel

end Runs

open KeyedTable List Mempool UInt64 AList Nat

variable {m : Mempool} {bcs : BundleCoinSpend} {item : MempoolItem}
  {running : UInt64} {items : List MempoolItem}

/-- The coin under which the pool files a spend. -/
def BundleCoinSpend.indexKey (sha256 : HashFn)
    (bcs : BundleCoinSpend) : Bytes32 :=
  match bcs.latestSingletonLineage with
  | some lineage => lineage.coinId
  | none => bcs.coinId sha256

/-- The spends of an item are its removals, and a spend rides on a coin of its
own puzzle hash. -/
structure MempoolItem.Aligned (sha256 : HashFn)
    (puzzleHashOf : Bytes32 → Bytes32) (item : MempoolItem) : Prop where
  removals : item.removals =
    item.bundleCoinSpends.map (BundleCoinSpend.coinId sha256)
  nodup : item.removals.Nodup
  lineage : ∀ bcs ∈ item.bundleCoinSpends, ∀ lineage,
    bcs.latestSingletonLineage = some lineage →
      puzzleHashOf lineage.coinId = bcs.coinSpend.coin.puzzleHash

/-- In a list without repeated ids each element is found under its id. -/
theorem find?_of_nodup_map {A B : Type} [DecidableEq B] {idOf : A → B}
    {list : List A} (hnodup : (list.map idOf).Nodup) {a : A} (ha : a ∈ list) :
    list.find? (fun other => idOf other = idOf a) = some a := by
  cases hfind : list.find? (fun other => idOf other = idOf a) with
  | none => exact absurd (find?_eq_none.mp hfind a ha) (by simp)
  | some other =>
    have hsame : idOf other = idOf a := by simpa using find?_some hfind
    rw [inj_on_of_nodup_map hnodup (mem_of_find?_eq_some hfind) ha hsame]

namespace MempoolItem.Aligned

variable {sha256 : HashFn} {puzzleHashOf : Bytes32 → Bytes32}

section

variable (h : item.Aligned sha256 puzzleHashOf)

include h

theorem bundleCoinSpend (hbcs : bcs ∈ item.bundleCoinSpends) :
    item.bundleCoinSpend sha256 (bcs.coinId sha256) = some bcs :=
  find?_of_nodup_map (h.removals ▸ h.nodup) hbcs

theorem mem_indexKeys {key : Bytes32} :
    key ∈ item.indexKeys sha256 ↔
      ∃ bcs ∈ item.bundleCoinSpends, bcs.indexKey sha256 = key := by
  rw [MempoolItem.indexKeys, h.removals, map_map, map_congr_left, mem_map]
  intro bcs hbcs
  rw [Function.comp_apply, h.bundleCoinSpend hbcs]
  rfl

end

end MempoolItem.Aligned

/-- The resident items, their index and the totals over them. -/
structure PoolBooks (sha256 : HashFn) (items : IdMap MempoolItem)
    (byCoin : IdMap (List Bytes32)) (totalCost totalFee maxTotalCost : UInt64) :
    Prop where
  index : IndexFor (MempoolItem.indexKeys sha256) items byCoin
  totalCost_eq : totalCost.toNat = total (fun item => item.cost.toNat) items
  totalCost_le : totalCost ≤ maxTotalCost
  totalFee_eq : totalFee.toNat = total (fun item => item.fee.toNat) items

/-- The seen cache: a set and the order in which its elements came. -/
structure SeenBooks (seen : Finset Bytes32) (seenOrder : List Bytes32) :
    Prop where
  mem_iff : ∀ name, name ∈ seen ↔ name ∈ seenOrder
  nodup : seenOrder.Nodup
  length_le : seenOrder.length ≤ seenCacheSize

/-- The conflict cache, its order and its cost. -/
structure ConflictBooks (conflict : IdMap ConflictEntry)
    (order : List Bytes32) (cost maxCost : UInt64) : Prop where
  cost_eq : cost.toNat = total (fun entry => entry.cost.toNat) conflict
  nodup : order.Nodup
  mem_iff : ∀ name, name ∈ order ↔ name ∈ conflict
  cost_le : cost ≤ maxCost
  length_le : conflict.entries.length ≤ conflictCacheMaxSize

structure Mempool.Books (sha256 : HashFn) (m : Mempool) : Prop where
  pool : PoolBooks sha256 m.items m.byCoin m.totalCost m.totalFee
    m.maxTotalCost
  seen : SeenBooks m.seen m.seenOrder
  conflict : ConflictBooks m.conflict m.conflictOrder m.conflictCost
    m.conflictCacheMaxCost
  pending : m.pending.entries.length ≤ pendingCacheCap

section Seen

variable {seen : Finset Bytes32} {seenOrder : List Bytes32}

theorem trimSeen_of_length_le (h : seenOrder.length ≤ seenCacheSize) :
    trimSeen seenOrder seen = (seenOrder, seen) := by
  cases seenOrder with
  | nil => rfl
  | cons oldest order => exact if_neg (not_lt.mpr h)

/-- Dropping an id from the set and from its order. -/
theorem SeenBooks.tail {oldest : Bytes32} {order : List Bytes32}
    (hmem : ∀ name, name ∈ seen ↔ name ∈ oldest :: order)
    (hnodup : (oldest :: order).Nodup) (hlength : order.length ≤ seenCacheSize) :
    SeenBooks (seen.erase oldest) order where
  mem_iff := by
    intro name
    obtain ⟨holdest, -⟩ := nodup_cons.mp hnodup
    rw [Finset.mem_erase, hmem, mem_cons]
    constructor
    · rintro ⟨hne, rfl | hname⟩
      · exact absurd rfl hne
      · exact hname
    · intro hname
      refine ⟨?_, .inr hname⟩
      rintro rfl
      exact holdest hname
  nodup := (nodup_cons.mp hnodup).2
  length_le := hlength

theorem SeenBooks.addSeen (h : SeenBooks m.seen m.seenOrder) (name : Bytes32) :
    SeenBooks (m.addSeen name).seen (m.addSeen name).seenOrder := by
  unfold Mempool.addSeen
  split_ifs with hseen
  · exact h
  have hmem : ∀ other, other ∈ insert name m.seen ↔
      other ∈ m.seenOrder ++ [name] := by
    intro other
    rw [Finset.mem_insert, h.mem_iff, mem_append, mem_singleton, or_comm]
  have hnodup : (m.seenOrder ++ [name]).Nodup := by
    rw [nodup_append_comm]
    exact nodup_cons.mpr ⟨fun hname => hseen ((h.mem_iff name).mpr hname),
      h.nodup⟩
  dsimp only
  -- at most one id is over the cap
  by_cases hroom : (m.seenOrder ++ [name]).length ≤ seenCacheSize
  · rw [trimSeen_of_length_le hroom]
    exact ⟨hmem, hnodup, hroom⟩
  · have hfull : (m.seenOrder ++ [name]).length = m.seenOrder.length + 1 := by
      simp
    have hcap := h.length_le
    cases horder : m.seenOrder ++ [name] with
    | nil => simp at horder
    | cons oldest order =>
      rw [horder] at hroom hfull hmem hnodup
      have hlength : order.length ≤ seenCacheSize := by
        rw [length_cons] at hfull
        omega
      rw [trimSeen, if_pos (Nat.lt_of_not_le hroom),
        trimSeen_of_length_le hlength]
      exact .tail hmem hnodup hlength

theorem SeenBooks.removeSeen (h : SeenBooks m.seen m.seenOrder)
    (name : Bytes32) :
    SeenBooks (m.removeSeen name).seen (m.removeSeen name).seenOrder := by
  unfold Mempool.removeSeen
  split_ifs
  · refine ⟨?_, h.nodup.filter _, (length_filter_le _ _).trans h.length_le⟩
    intro other
    rw [Finset.mem_erase, h.mem_iff, mem_filter, decide_eq_true_iff, and_comm]
  · exact h

theorem SeenBooks.empty : SeenBooks ∅ [] := ⟨by simp, nodup_nil, Nat.zero_le _⟩

end Seen

section Conflict

variable {conflict : IdMap ConflictEntry} {order : List Bytes32}
  {cost maxCost : UInt64}

theorem ConflictBooks.empty (maxCost : UInt64) : ConflictBooks ∅ [] 0 maxCost where
  cost_eq := rfl
  nodup := nodup_nil
  mem_iff := by simp
  cost_le := UInt64.zero_le
  length_le := Nat.zero_le _

theorem eq_empty_of_forall_notMem {V : Type} {map : IdMap V}
    (h : ∀ name, name ∉ map) : map = ∅ := by
  apply AList.ext
  apply eq_nil_iff_forall_not_mem.mpr
  intro entry hentry
  exact h entry.1 (mem_keys.mpr (mem_keys_of_mem hentry))

/-- Trimming the cache from its oldest entry keeps the books and restores the
caps. -/
theorem trimConflict_books
    (hcost : cost.toNat = total (fun entry => entry.cost.toNat) conflict)
    (hnodup : order.Nodup) (hmem : ∀ name, name ∈ order ↔ name ∈ conflict) :
    ConflictBooks (trimConflict maxCost order conflict cost).2.1
      (trimConflict maxCost order conflict cost).1
      (trimConflict maxCost order conflict cost).2.2 maxCost := by
  induction order generalizing conflict cost with
  | nil =>
    obtain rfl : conflict = ∅ := eq_empty_of_forall_notMem fun name hname =>
      not_mem_nil ((hmem name).mpr hname)
    obtain rfl : cost = 0 := UInt64.toNat_inj.mp hcost
    exact .empty maxCost
  | cons oldest order ih =>
    obtain ⟨holdest, hrest⟩ := nodup_cons.mp hnodup
    unfold trimConflict
    split_ifs with hover
    · have hheld : oldest ∈ conflict := (hmem oldest).mp mem_cons_self
      obtain ⟨evicted, hevicted⟩ :=
        Option.isSome_iff_exists.mp (lookup_isSome.mpr hheld)
      have hsum := total_erase (fun entry => entry.cost.toNat) hevicted
      rw [hevicted]
      apply ih _ hrest
      · intro name
        rw [mem_erase, ← hmem, mem_cons]
        constructor
        · intro hname
          refine ⟨?_, .inr hname⟩
          rintro rfl
          exact holdest hname
        · rintro ⟨hne, rfl | hname⟩
          · exact absurd rfl hne
          · exact hname
      · rw [saturatingSub64_toNat, hcost]
        omega
    · rw [not_or] at hover
      exact ⟨hcost, hnodup, hmem, UInt64.not_lt.mp hover.1,
        Nat.le_of_not_lt hover.2⟩

theorem ConflictBooks.cacheConflict
    (h : ConflictBooks m.conflict m.conflictOrder m.conflictCost
      m.conflictCacheMaxCost) (name : Bytes32) (bundle : SpendBundle)
    (conds : SpendBundleConditions) (fee : UInt64)
    (hroom : m.conflictCacheMaxCost.toNat + cost.toNat < 2 ^ 64) :
    ConflictBooks (m.cacheConflict name bundle conds fee cost).conflict
      (m.cacheConflict name bundle conds fee cost).conflictOrder
      (m.cacheConflict name bundle conds fee cost).conflictCost
      m.conflictCacheMaxCost := by
  unfold Mempool.cacheConflict
  split_ifs with hheld
  · exact h
  dsimp only
  apply trimConflict_books
  · have hle := le_iff_toNat_le.mp h.cost_le
    rw [total_insert_of_notMem _ hheld, saturatingAdd64_toNat, ← h.cost_eq]
    dsimp only
    omega
  · rw [nodup_append_comm]
    exact nodup_cons.mpr ⟨fun hname => hheld ((h.mem_iff name).mp hname),
      h.nodup⟩
  · intro other
    rw [mem_append, mem_singleton, mem_insert, h.mem_iff, or_comm]

end Conflict

variable {name : Bytes32}

section Pending

/-- The entry that is looked for is one of the map. -/
theorem worstPending_mem {pending : IdMap PendingEntry}
    (hne : pending.entries ≠ []) :
    ∃ worst ∈ pending, worstPending pending = some worst := by
  have hmem : ∀ entry ∈ pending.entries, entry.1 ∈ pending :=
    fun entry hentry => mem_keys.mpr (mem_keys_of_mem hentry)
  unfold worstPending
  obtain ⟨head, tail, hentries⟩ := exists_cons_of_ne_nil hne
  rw [hentries] at hmem ⊢
  rw [foldl_cons]
  -- the walk always holds a key it has passed
  apply foldlRecOn (motive := fun held : Option (Bytes32 × UInt32) =>
    ∃ worst ∈ pending, held.map Prod.fst = some worst) tail
  · exact ⟨head.1, hmem head mem_cons_self, rfl⟩
  · rintro held ⟨worst, hworst, hheld⟩ entry hentry
    obtain _ | ⟨name, height⟩ := held
    · cases hheld
    · dsimp only
      split_ifs
      · exact ⟨entry.1, hmem entry (mem_cons_of_mem _ hentry), rfl⟩
      · exact ⟨worst, hworst, hheld⟩

theorem length_parkPending_le (h : m.pending.entries.length ≤ pendingCacheCap)
    (bundle : SpendBundle) (conds : SpendBundleConditions)
    {assertHeight : UInt32} :
    (m.parkPending name bundle conds assertHeight).pending.entries.length ≤
      pendingCacheCap := by
  unfold parkPending
  dsimp only
  refine (Nat.add_le_add_right (kerase_sublist _ _).length_le 1).trans ?_
  split_ifs with hfull
  · have hne : m.pending.entries ≠ [] := by
      intro hnil
      rw [hnil] at hfull
      exact absurd hfull (by decide)
    obtain ⟨worst, hworst, heq⟩ := worstPending_mem hne
    obtain ⟨entry, hentry⟩ :=
      Option.isSome_iff_exists.mp (lookup_isSome.mpr hworst)
    rw [heq]
    dsimp only
    rw [length_erase hentry]
    exact h
  · omega

end Pending

variable {seams : MempoolSeams} {names : List Bytes32}

section Pool

abbrev Mempool.Pooled (sha256 : HashFn) (m : Mempool) : Prop :=
  PoolBooks sha256 m.items m.byCoin m.totalCost m.totalFee m.maxTotalCost

theorem PoolBooks.remove (h : m.Pooled seams.sha256) (name : Bytes32) :
    (m.remove seams name).Pooled seams.sha256 := by
  unfold Mempool.remove
  split
  · exact h
  · rename_i item hitem
    have hcost := total_erase (fun item => item.cost.toNat) hitem
    have hfee := total_erase (fun item => item.fee.toNat) hitem
    have hcost_eq := h.totalCost_eq
    have hfee_eq := h.totalFee_eq
    have hle := le_iff_toNat_le.mp h.totalCost_le
    refine ⟨?_, ?_, ?_, ?_⟩
    · exact h.index.erase hitem
    · dsimp only
      rw [saturatingSub64_toNat]
      omega
    · rw [le_iff_toNat_le, saturatingSub64_toNat]
      dsimp only
      omega
    · dsimp only
      rw [saturatingSub64_toNat]
      omega

theorem PoolBooks.removeAll (h : m.Pooled seams.sha256) (names : List Bytes32) :
    (m.removeAll seams names).Pooled seams.sha256 := by
  induction names generalizing m with
  | nil => exact h
  | cons name names ih => exact ih (h.remove name)

/-- An item with a fresh name for which there is room joins the books. -/
theorem PoolBooks.enter (h : m.Pooled seams.sha256)
    (hname : item.name ∉ m.items)
    (hcost : m.totalCost.toNat + item.cost.toNat ≤ m.maxTotalCost.toNat)
    (hfee : m.totalFee.toNat + item.fee.toNat < 2 ^ 64) :
    (m.enter seams item).Pooled seams.sha256 := by
  have hbound := m.maxTotalCost.toNat_lt
  have hsum : (m.totalCost + item.cost).toNat =
      m.totalCost.toNat + item.cost.toNat := by
    rw [UInt64.toNat_add, mod_eq_of_lt (by omega)]
  refine ⟨h.index.insert hname item, ?_, ?_, ?_⟩
  · change (m.totalCost + item.cost).toNat = total _ (m.items.insert _ item)
    rw [total_insert_of_notMem _ hname, ← h.totalCost_eq, hsum, add_comm]
  · rw [le_iff_toNat_le]
    exact hsum.trans_le hcost
  · change (m.totalFee + item.fee).toNat = total _ (m.items.insert _ item)
    rw [total_insert_of_notMem _ hname, ← h.totalFee_eq, UInt64.toNat_add,
      mod_eq_of_lt hfee, add_comm]

/-- A removal leaves the cap on the costs alone, and the fees only fall. -/
theorem remove_frame :
    (m.remove seams name).maxTotalCost = m.maxTotalCost ∧
      (m.remove seams name).totalFee ≤ m.totalFee := by
  unfold remove
  split
  · exact ⟨rfl, UInt64.le_refl _⟩
  · refine ⟨rfl, ?_⟩
    rw [le_iff_toNat_le, saturatingSub64_toNat]
    omega

/-- A removal takes out one name. -/
theorem remove_items : (m.remove seams name).items = m.items.erase name := by
  unfold remove
  split
  · rename_i hnone
    exact (erase_of_notMem (lookup_eq_none.mp hnone)).symm
  · rfl

/-- Removals take out the named rows and keep the others in their order. -/
theorem removeAll_entries :
    (m.removeAll seams names).items.entries =
      m.items.entries.filter (·.1 ∉ names) := by
  induction names generalizing m with
  | nil => simp [Mempool.removeAll]
  | cons name names ih =>
    change ((m.remove seams name).removeAll seams names).items.entries = _
    rw [ih, remove_items, entries_erase, filter_filter]
    apply filter_congr
    intro entry _
    simp [Bool.and_comm]

end Pool

section Evictions

variable {budget : UInt64}

/-- The running sums never fall. -/
theorem le_of_mem_withRunningCost {row : MempoolItem × UInt64}
    (h : row ∈ withRunningCost running items) : running ≤ row.2 := by
  induction items generalizing running with
  | nil => exact absurd h not_mem_nil
  | cons head tail ih =>
    have hstep : running ≤ saturatingAdd64 running head.cost := by
      have hlt := running.toNat_lt
      rw [le_iff_toNat_le, saturatingAdd64_toNat]
      omega
    rcases mem_cons.mp h with rfl | h
    · exact hstep
    · exact UInt64.le_trans hstep (ih h)

/-- The rows whose running sum stays within the budget cost no more than it. -/
theorem sum_within_budget (hbudget : budget.toNat < 2 ^ 64 - 1)
    (hrunning : running ≤ budget) (items : List MempoolItem) :
    running.toNat + (((withRunningCost running items).filter
      fun row => row.2 ≤ budget).map fun row => row.1.cost.toNat).sum ≤
        budget.toNat := by
  induction items generalizing running with
  | nil => exact le_iff_toNat_le.mp hrunning
  | cons head tail ih =>
    rw [withRunningCost]
    by_cases hfits : saturatingAdd64 running head.cost ≤ budget
    · have hnext := ih hfits
      have hexact : (saturatingAdd64 running head.cost).toNat =
          running.toNat + head.cost.toNat := by
        have hle := le_iff_toNat_le.mp hfits
        rw [saturatingAdd64_toNat] at hle ⊢
        omega
      rw [filter_cons_of_pos (by simpa using hfits), map_cons, sum_cons]
      dsimp only
      omega
    · -- everything from here on is over the budget
      have hnone : (withRunningCost
          (saturatingAdd64 running head.cost) tail).filter
            (fun row => row.2 ≤ budget) = [] := by
        apply filter_eq_nil_iff.mpr
        intro row hrow hle
        exact hfits (UInt64.le_trans (le_of_mem_withRunningCost hrow)
          (by simpa using hle))
      rw [filter_cons_of_neg (by simpa using hfits), hnone]
      exact le_iff_toNat_le.mp hrunning

theorem map_fst_withRunningCost (running : UInt64) :
    (withRunningCost running items).map Prod.fst = items := by
  induction items generalizing running with
  | nil => rfl
  | cons head tail ih => exact congrArg (head :: ·) (ih _)

/-- Leaving out the names of all rows over the budget leaves rows within it. -/
theorem sum_filter_le (budget : UInt64) (rows : List (MempoolItem × UInt64))
    (evicted : List Bytes32)
    (h : ∀ row ∈ rows, budget < row.2 → row.1.name ∈ evicted) :
    (((rows.map Prod.fst).filter fun item => item.name ∉ evicted).map
      fun item => item.cost.toNat).sum ≤
      ((rows.filter fun row => row.2 ≤ budget).map
        fun row => row.1.cost.toNat).sum := by
  induction rows with
  | nil => exact le_refl _
  | cons head tail ih =>
    have htail := ih fun row hrow => h row (mem_cons_of_mem _ hrow)
    rw [map_cons]
    by_cases hover : budget < head.2
    · have hevicted := h head mem_cons_self hover
      rw [filter_cons_of_neg (by simpa using hevicted),
        filter_cons_of_neg (by simpa using hover)]
      exact htail
    · have hwithin : decide (head.2 ≤ budget) = true := by simpa using hover
      rw [filter_cons (x := head), if_pos hwithin, map_cons, sum_cons]
      by_cases hname : head.1.name ∈ evicted
      · rw [filter_cons_of_neg (by simpa using hname)]
        omega
      · rw [filter_cons_of_pos (by simpa using hname), map_cons, sum_cons]
        omega

/-- What is left after removals, summed over the items in any order. -/
theorem total_removeAll
    (hnamed : ∀ name item, m.items.lookup name = some item → item.name = name)
    (hperm : items.Perm m.items.values) :
    total (fun item => item.cost.toNat) (m.removeAll seams names).items =
      ((items.filter fun item => item.name ∉ names).map
        fun item => item.cost.toNat).sum := by
  have hleft : m.items.entries.filter (·.1 ∉ names) =
      m.items.entries.filter fun entry => entry.2.name ∉ names := by
    apply filter_congr
    intro entry hentry
    rw [hnamed entry.1 entry.2 (mem_lookup_iff.mpr hentry)]
  unfold total
  rw [removeAll_entries, hleft, ((hperm.filter _).map _).sum_eq, IdMap.values,
    filter_map, map_map]
  rfl

/-- After the evictions of a full pool the new item fits. -/
theorem fullEvictions_fit (h : m.Pooled seams.sha256)
    (hnamed : ∀ name item, m.items.lookup name = some item → item.name = name)
    (hmax : m.maxTotalCost.toNat < 2 ^ 64 - 1)
    (hcost : item.cost ≤ m.maxTotalCost) :
    (m.removeAll seams (m.fullEvictions item)).totalCost.toNat +
      item.cost.toNat ≤ m.maxTotalCost.toNat := by
  have hitem := le_iff_toNat_le.mp hcost
  rw [(h.removeAll (m.fullEvictions item)).totalCost_eq]
  by_cases hfull : m.maxTotalCost < saturatingAdd64 m.totalCost item.cost
  · have hbudget := saturatingSub64_toNat m.maxTotalCost item.cost
    let sorted := m.items.values.mergeSort priorityOrder
    have hsum := sum_within_budget (by omega)
      (UInt64.zero_le : 0 ≤ saturatingSub64 m.maxTotalCost item.cost) sorted
    have hkept := sum_filter_le (saturatingSub64 m.maxTotalCost item.cost)
      (withRunningCost 0 sorted) (m.fullEvictions item) ?_
    · have hperm : sorted.Perm m.items.values := mergeSort_perm _ _
      rw [map_fst_withRunningCost] at hkept
      rw [total_removeAll hnamed hperm]
      rw [UInt64.toNat_zero] at hsum
      omega
    · intro row hrow hover
      unfold fullEvictions
      rw [if_pos hfull]
      exact mem_map_of_mem (mem_filter.mpr ⟨hrow, by simpa using hover⟩)
  · have hnone : m.fullEvictions item = [] := if_neg hfull
    rw [hnone]
    change total _ m.items + _ ≤ _
    rw [← h.totalCost_eq]
    rw [UInt64.not_lt, le_iff_toNat_le, saturatingAdd64_toNat] at hfull
    omega

end Evictions

open KeyedTable Mempool UInt64 AList BundleCoinSpend List DgXch.Except

/-- A store that answers a puzzle hash with a coin of that puzzle hash. -/
def CoinStoreReads.Truthful (puzzleHashOf : Bytes32 → Bytes32)
    (store : CoinStoreReads) : Prop :=
  ∀ puzzleHash lineage,
    store.getUnspentLineageInfo puzzleHash = .ok (some lineage) →
      puzzleHashOf lineage.coinId = puzzleHash

/-- If two spends name one coin, and neither is fast-forwarded, both may be
merged. -/
def BundleCoinSpend.Agrees (sha256 : HashFn)
    (bcs other : BundleCoinSpend) : Prop :=
  bcs.supportsFastForward = false → other.supportsFastForward = false →
    bcs.coinId sha256 = other.coinId sha256 →
      bcs.eligibleForDedup = true ∧ other.eligibleForDedup = true

def MempoolItem.Agrees (sha256 : HashFn) (item other : MempoolItem) : Prop :=
  ∀ bcs ∈ item.bundleCoinSpends, ∀ bcs' ∈ other.bundleCoinSpends,
    bcs.Agrees sha256 bcs'

/-- The fast-forward spends of an item for one singleton ride on one version
of it. -/
def MempoolItem.Single (item : MempoolItem) : Prop :=
  ∀ bcs ∈ item.bundleCoinSpends, ∀ bcs' ∈ item.bundleCoinSpends,
    ∀ lineage lineage', bcs.latestSingletonLineage = some lineage →
      bcs'.latestSingletonLineage = some lineage' →
      bcs.coinSpend.coin.puzzleHash = bcs'.coinSpend.coin.puzzleHash →
        lineage.coinId = lineage'.coinId

/-- The books apart from the index, with what they rest on: items under their
own names whose spends are their removals, room in the totals, parked bundles
that carry their own conditions, and items that agree about the coins they
share. -/
structure Mempool.Accounts (sha256 : HashFn)
    (puzzleHashOf : Bytes32 → Bytes32) (m : Mempool) : Prop where
  totalCost_eq : m.totalCost.toNat = total (fun item => item.cost.toNat) m.items
  totalCost_le : m.totalCost ≤ m.maxTotalCost
  totalFee_eq : m.totalFee.toNat = total (fun item => item.fee.toNat) m.items
  seen : SeenBooks m.seen m.seenOrder
  conflict : ConflictBooks m.conflict m.conflictOrder m.conflictCost
    m.conflictCacheMaxCost
  pending : m.pending.entries.length ≤ pendingCacheCap
  named : ∀ name item, m.items.lookup name = some item → item.name = name
  aligned : ∀ name item, m.items.lookup name = some item →
    item.Aligned sha256 puzzleHashOf
  headRoom : m.totalFee.toNat < 2 ^ 63 - 1
  room : m.maxTotalCost.toNat < 2 ^ 64 - 1
  conflictRoom : m.conflictCacheMaxCost.toNat + m.maxTxCost.toNat < 2 ^ 64
  parked : ∀ name entry, m.pending.lookup name = some entry →
    Joins sha256 entry.bundle.coinSpends entry.conds
  setAside : ∀ name entry, m.conflict.lookup name = some entry →
    Joins sha256 entry.bundle.coinSpends entry.conds
  paired : ∀ name item other item', m.items.lookup name = some item →
    m.items.lookup other = some item' → name ≠ other → item.Agrees sha256 item'

/-- The books, and one version of a singleton in each item. -/
structure Mempool.Kept (sha256 : HashFn)
    (puzzleHashOf : Bytes32 → Bytes32) (m : Mempool) : Prop
    extends m.Accounts sha256 puzzleHashOf where
  index : IndexFor (MempoolItem.indexKeys sha256) m.items m.byCoin
  single : ∀ name item, m.items.lookup name = some item → item.Single

theorem Mempool.Kept.pool {sha256 : HashFn}
    {puzzleHashOf : Bytes32 → Bytes32} (h : m.Kept sha256 puzzleHashOf) :
    m.Pooled sha256 :=
  ⟨h.index, h.totalCost_eq, h.totalCost_le, h.totalFee_eq⟩

theorem MempoolItem.Agrees.symm {sha256 : HashFn}
    {item other : MempoolItem} (h : item.Agrees sha256 other) :
    other.Agrees sha256 item := by
  intro bcs hbcs bcs' hbcs' hslow hslow' hsame
  exact (h bcs' hbcs' bcs hbcs hslow' hslow hsame.symm).symm

variable {puzzleHashOf : Bytes32 → Bytes32} {store : CoinStoreReads}
  {conds : SpendBundleConditions}

section Join

variable {coinSpends : List CoinSpend}

theorem Joins.removals_eq (h : Joins seams.sha256 coinSpends conds) :
    removalsForConditions conds =
      coinSpends.map fun c => c.coin.name seams.sha256 :=
  forall₂_map_eq (fun _ _ hof => hof.coinId) h.spends

/-- A joined coin spend is the one of the bundle, and rides on a version that
the store named for its puzzle hash. -/
theorem joinCoinSpend_ok {coinSpend : CoinSpend} {bcs : BundleCoinSpend}
    (h : joinCoinSpend seams store conds coinSpend = .ok bcs) :
    bcs.coinSpend = coinSpend ∧
      ∀ lineage, bcs.latestSingletonLineage = some lineage →
        ∃ spend ∈ conds.spends,
          spend.coinId = coinSpend.coin.name seams.sha256 ∧
          spend.flags &&& eligibleForFf ≠ 0 ∧
          store.getUnspentLineageInfo spend.puzzleHash =
            .ok (some lineage) := by
  unfold joinCoinSpend at h
  dsimp only at h
  split at h
  · cases h
  rename_i spend hspend
  have hmem := mem_of_find?_eq_some hspend
  have hid : spend.coinId = coinSpend.coin.name seams.sha256 := by
    simpa using find?_some hspend
  split_ifs at h with hdedup hff
  · obtain ⟨lineage, hlineage, h⟩ := bind_eq_ok.mp h
    cases h
    refine ⟨rfl, ?_⟩
    rintro lineage' rfl
    exact ⟨spend, hmem, hid, hff.1, Except.mapError_eq_ok.mp hlineage⟩
  · obtain ⟨lineage, hlineage, h⟩ := bind_eq_ok.mp h
    cases hlineage
    cases h
    exact ⟨rfl, fun _ habsurd => by cases habsurd⟩

/-- What `build_bundle_coin_spends` returns, spend by spend. -/
theorem buildBundleCoinSpends_ok {bundle : SpendBundle}
    {out : List BundleCoinSpend}
    (h : buildBundleCoinSpends seams store bundle conds = .ok out) :
    Forall₂ (fun coinSpend bcs =>
      joinCoinSpend seams store conds coinSpend = .ok bcs)
      bundle.coinSpends out := by
  unfold buildBundleCoinSpends at h
  split_ifs at h with hnone
  · cases h
    rw [hnone]
    exact .nil
  · obtain ⟨joined, hjoined, h⟩ := bind_eq_ok.mp h
    split_ifs at h
    cases h
    exact mapM_ok hjoined

theorem coinId_of_joined {out : List BundleCoinSpend}
    (h : Forall₂ (fun coinSpend bcs =>
      joinCoinSpend seams store conds coinSpend = .ok bcs) coinSpends out) :
    out.map (coinId seams.sha256) =
      coinSpends.map fun c => c.coin.name seams.sha256 := by
  apply forall₂_map_eq _ h
  intro coinSpend bcs hjoin
  rw [coinId, (joinCoinSpend_ok hjoin).1]

/-- An item that `admit` builds from a bundle and its own conditions is
aligned. -/
theorem Joins.aligned {bundle : SpendBundle}
    (h : Joins seams.sha256 bundle.coinSpends conds)
    (hstore : store.Truthful puzzleHashOf) {item : MempoolItem}
    (hremovals : item.removals = removalsForConditions conds)
    (hbuild : buildBundleCoinSpends seams store bundle conds =
      .ok item.bundleCoinSpends) :
    item.Aligned seams.sha256 puzzleHashOf := by
  have hjoined := buildBundleCoinSpends_ok hbuild
  have hids := coinId_of_joined hjoined
  refine ⟨?_, ?_, ?_⟩
  · rw [hremovals, h.removals_eq, hids]
  · rw [hremovals, h.removals_eq]
    exact h.nodup
  · intro bcs hbcs lineage hlineage
    obtain ⟨coinSpend, hcoinSpend, hjoin⟩ := forall₂_mem_right hjoined hbcs
    obtain ⟨hsame, hrides⟩ := joinCoinSpend_ok hjoin
    obtain ⟨spend, hspend, hid, -, hanswer⟩ := hrides lineage hlineage
    obtain ⟨other, hother, hof⟩ := forall₂_mem_right h.spends hspend
    have heq : other = coinSpend := inj_on_of_nodup_map h.nodup hother
      hcoinSpend (hof.coinId.symm.trans hid)
    rw [heq] at hof
    rw [hstore _ _ hanswer, hsame, ← hof.identity]
    rfl

/-- The store names a version for the singleton of a spend. -/
abbrev Names (store : CoinStoreReads) (bcs : BundleCoinSpend)
    (lineage : UnspentLineageInfo) : Prop :=
  store.getUnspentLineageInfo bcs.coinSpend.coin.puzzleHash = .ok (some lineage)

theorem Names.eq {other : BundleCoinSpend} {lineage lineage'}
    (h : Names store bcs lineage) (h' : Names store other lineage')
    (hsame : bcs.coinSpend.coin.puzzleHash = other.coinSpend.coin.puzzleHash) :
    lineage = lineage' := by
  rw [Names, hsame, h'] at h
  cases h
  rfl

/-- The versions were read from one store. -/
theorem MempoolItem.Aligned.single {bundle : SpendBundle} {item : MempoolItem}
    (h : item.Aligned seams.sha256 puzzleHashOf)
    (hstore : store.Truthful puzzleHashOf)
    (hbuild : buildBundleCoinSpends seams store bundle conds =
      .ok item.bundleCoinSpends) : item.Single := by
  have hread : ∀ bcs ∈ item.bundleCoinSpends, ∀ lineage,
      bcs.latestSingletonLineage = some lineage →
        Names store bcs lineage := by
    intro bcs hbcs lineage hlineage
    obtain ⟨coinSpend, -, hjoin⟩ :=
      forall₂_mem_right (buildBundleCoinSpends_ok hbuild) hbcs
    obtain ⟨spend, -, -, -, hanswer⟩ := (joinCoinSpend_ok hjoin).2 lineage hlineage
    rw [Names, ← h.lineage bcs hbcs lineage hlineage, hstore _ _ hanswer,
      hanswer]
  intro bcs hbcs bcs' hbcs' lineage lineage' hlineage hlineage' hsame
  rw [(hread bcs hbcs lineage hlineage).eq
    (hread bcs' hbcs' lineage' hlineage') hsame]

end Join

section Conflicts

/-- A fold that only adds to its list comes to every element with a part of what
it ends with. -/
theorem foldlM_visits {A B E : Type} {f : List B → A → Except E (List B)}
    (hgrows : ∀ held a held', f held a = .ok held' → held ⊆ held')
    {list : List A} {start out : List B} (h : list.foldlM f start = .ok out) :
    start ⊆ out ∧ ∀ a ∈ list, ∃ held held', f held a = .ok held' ∧
      held' ⊆ out := by
  induction list generalizing start with
  | nil =>
    cases h
    simp
  | cons head tail ih =>
    rw [foldlM_cons] at h
    obtain ⟨next, hnext, h⟩ := bind_eq_ok.mp h
    obtain ⟨hsubset, hvisits⟩ := ih h
    exact ⟨List.Subset.trans (hgrows _ _ _ hnext) hsubset,
      forall_mem_cons.mpr ⟨⟨start, next, hnext, hsubset⟩, hvisits⟩⟩

theorem conflictStep_subset {newBcs : Option BundleCoinSpend}
    {coinId owner : Bytes32} {names names' : List Bytes32}
    (h : conflictStep seams m newBcs coinId names owner = .ok names') :
    names ⊆ names' := by
  unfold conflictStep at h
  split_ifs at h
  · cases h
    exact List.Subset.refl _
  split at h
  · cases h
    exact List.Subset.refl _
  · obtain ⟨conflict, -, h⟩ := bind_eq_ok.mp h
    cases h
    split_ifs
    · exact subset_append_left _ _
    · exact List.Subset.refl _

/-- A resident item that a bundle leaves in the pool agrees with it. -/
theorem conflictNames_agrees {removals names : List Bytes32}
    {spends : List BundleCoinSpend}
    (hnames : conflictNames seams m removals spends = .ok names)
    (hnodup : (spends.map (coinId seams.sha256)).Nodup)
    {owner : Bytes32} {item : MempoolItem}
    (hitem : m.items.lookup owner = some item)
    (haligned : item.Aligned seams.sha256 puzzleHashOf)
    (hindex : IndexFor (MempoolItem.indexKeys seams.sha256) m.items m.byCoin)
    (hspared : owner ∉ names) {new old : BundleCoinSpend}
    (hnew : new ∈ spends) (hremoved : new.coinId seams.sha256 ∈ removals)
    (hold : old ∈ item.bundleCoinSpends) : new.Agrees seams.sha256 old := by
  intro hnewSlow holdSlow hsame
  have hnone : old.latestSingletonLineage = none := by
    simpa [BundleCoinSpend.supportsFastForward] using holdSlow
  have howner : owner ∈ owners m.byCoin (new.coinId seams.sha256) := by
    refine hindex.mem_owners.mpr ⟨item, hitem,
      haligned.mem_indexKeys.mpr ⟨old, hold, ?_⟩⟩
    rw [indexKey, hnone, hsame]
  -- the search comes to the owner under the common coin
  obtain ⟨-, hvisits⟩ := foldlM_visits (fun held coinId held' hstep =>
    (foldlM_visits (fun _ _ _ => conflictStep_subset) hstep).1) hnames
  obtain ⟨held, held', hstep, hheld⟩ := hvisits _ hremoved
  obtain ⟨-, hvisits⟩ := foldlM_visits (fun _ _ _ => conflictStep_subset) hstep
  obtain ⟨before, after, hstep, hafter⟩ := hvisits owner howner
  have hleft : owner ∉ after := fun hmem => hspared (hheld (hafter hmem))
  have hfind : (spends.find? fun b => b.coinId seams.sha256 =
      new.coinId seams.sha256) = some new :=
    find?_of_nodup_map hnodup hnew
  unfold conflictStep at hstep
  split_ifs at hstep with hbefore
  · cases hstep
    exact absurd hbefore hleft
  rw [hitem, hfind] at hstep
  obtain ⟨conflict, hconflict, hstep⟩ := bind_eq_ok.mp hstep
  cases hstep
  have hfalse : conflict = false := by
    cases conflict with
    | false => rfl
    | true => exact absurd (by simp) hleft
  subst hfalse
  unfold isConflict at hconflict
  rw [hsame, haligned.bundleCoinSpend hold] at hconflict
  cases hdedup : new.eligibleForDedup <;>
    cases hdedup' : old.eligibleForDedup <;>
    simp [hnewSlow, hdedup, hdedup'] at hconflict ⊢

end Conflicts

section Gates

variable {fee cost : UInt64}

theorem minFeeRateLoop_some {items : List MempoolItem} {current : UInt64}
    {rate : Float} (h : m.minFeeRateLoop cost items current = some rate) :
    cost ≤ m.maxTotalCost := by
  induction items generalizing current with
  | nil => cases h
  | cons head tail ih =>
    unfold minFeeRateLoop at h
    dsimp only at h
    split_ifs at h with hfits
    · rw [le_iff_toNat_le, saturatingAdd64_toNat] at hfits
      have hlt := cost.toNat_lt
      rw [le_iff_toNat_le]
      omega
    · exact ih h

/-- An item that passes the fee gates fits into the emptied pool. -/
theorem cost_le_of_checkFee (h : m.checkFee fee cost = .ok ()) :
    cost ≤ m.maxTotalCost := by
  unfold checkFee at h
  split at h
  · cases h
  split at h
  · rename_i hfull
    dsimp only at h
    split at h
    · cases h
    split at h
    · cases h
    · rename_i rate hrate
      unfold getMinFeeRate at hrate
      rw [if_pos hfull] at hrate
      exact minFeeRateLoop_some hrate
  · rename_i hroom
    have hroom : ¬ m.maxTotalCost < saturatingAdd64 m.totalCost cost := by
      simpa [atFullCapacity] using hroom
    rw [UInt64.not_lt, le_iff_toNat_le, saturatingAdd64_toNat] at hroom
    have hlt := cost.toNat_lt
    rw [le_iff_toNat_le]
    omega

/-- A fee that passes the gates leaves head room in the sum. -/
theorem fee_of_checkFee (h : m.checkFee fee cost = .ok ())
    (hroom : m.totalFee.toNat < 2 ^ 63 - 1) :
    m.totalFee.toNat + fee.toNat < 2 ^ 63 - 1 := by
  unfold checkFee at h
  split at h
  · cases h
  · rename_i hgate
    rw [not_or] at hgate
    have hle : m.totalFee ≤ 0x7fffffffffffffff := by
      rw [le_iff_toNat_le]
      exact Nat.le_of_lt hroom
    have hfee := hgate.2
    rw [UInt64.not_le, UInt64.lt_iff_toNat_lt, UInt64.toNat_sub_of_le _ _ hle]
      at hfee
    have hmax : (0x7fffffffffffffff : UInt64).toNat = 2 ^ 63 - 1 := rfl
    omega

end Gates

section Admission

variable {bundle : SpendBundle}

theorem Mempool.Kept.remove (h : m.Kept seams.sha256 puzzleHashOf)
    (name : Bytes32) :
    (m.remove seams name).Kept seams.sha256 puzzleHashOf := by
  have hpool := h.pool.remove name
  have hfee : (m.remove seams name).totalFee ≤ m.totalFee := remove_frame.2
  unfold Mempool.remove at hpool hfee ⊢
  cases hitem : m.items.lookup name with
  | none => exact h
  | some item =>
    rw [hitem] at hpool hfee
    exact { hpool, h with
      named := fun _ _ hrow => h.named _ _ (lookup_of_erase hrow)
      aligned := fun _ _ hrow => h.aligned _ _ (lookup_of_erase hrow)
      headRoom := (le_iff_toNat_le.mp hfee).trans_lt h.headRoom
      paired := fun _ _ _ _ hrow hrow' => h.paired _ _ _ _
        (lookup_of_erase hrow) (lookup_of_erase hrow')
      single := fun _ _ hrow => h.single _ _ (lookup_of_erase hrow) }

theorem Mempool.Kept.removeAll (h : m.Kept seams.sha256 puzzleHashOf)
    (names : List Bytes32) :
    (m.removeAll seams names).Kept seams.sha256 puzzleHashOf := by
  induction names generalizing m with
  | nil => exact h
  | cons name names ih => exact ih (h.remove name)

theorem notMem_of_lookup_removeAll {names : List Bytes32} {name : Bytes32}
    {item : MempoolItem}
    (h : (m.removeAll seams names).items.lookup name = some item) :
    name ∉ names := by
  induction names generalizing m with
  | nil => exact not_mem_nil
  | cons head tail ih =>
    rw [mem_cons, not_or]
    refine ⟨?_, ih h⟩
    rintro rfl
    have hlookup := (removeAll_shrinks (m.remove seams name)).items h
    rw [remove_items, lookup_erase] at hlookup
    cases hlookup

theorem removeAll_maxTotalCost (seams : MempoolSeams) (m : Mempool)
    (names : List Bytes32) :
    (m.removeAll seams names).maxTotalCost = m.maxTotalCost := by
  induction names generalizing m with
  | nil => rfl
  | cons name names ih => exact (ih _).trans remove_frame.1

theorem removeAll_totalFee_le (seams : MempoolSeams) (m : Mempool)
    (names : List Bytes32) :
    (m.removeAll seams names).totalFee ≤ m.totalFee := by
  induction names generalizing m with
  | nil => exact UInt64.le_refl _
  | cons name names ih =>
    exact UInt64.le_trans (ih _) remove_frame.2

theorem notMem_of_shrinks {m' : Mempool} (h : Shrinks m m')
    {name : Bytes32} (hname : name ∉ m.items) : name ∉ m'.items := by
  intro hmem
  obtain ⟨item, hitem⟩ := Option.isSome_iff_exists.mp (lookup_isSome.mpr hmem)
  exact hname (lookup_isSome.mp
    (Option.isSome_iff_exists.mpr ⟨item, h.items hitem⟩))

/-- A fresh, aligned item that has passed the fee gates keeps the books,
whatever it evicts. -/
theorem Mempool.Kept.addToPool (h : m.Kept seams.sha256 puzzleHashOf)
    {item : MempoolItem} (hname : item.name ∉ m.items)
    (haligned : item.Aligned seams.sha256 puzzleHashOf) (hsingle : item.Single)
    (hagrees : ∀ name other, m.items.lookup name = some other →
      item.Agrees seams.sha256 other)
    (hcost : item.cost ≤ m.maxTotalCost)
    (hfee : m.totalFee.toNat + item.fee.toNat < 2 ^ 63 - 1) :
    (m.addToPool seams item).2.Kept seams.sha256 puzzleHashOf := by
  unfold Mempool.addToPool
  split
  · exact h
  rename_i names _
  extract_lets swept room
  have hswept : swept.Kept seams.sha256 puzzleHashOf := h.removeAll names
  have hroom : room.Kept seams.sha256 puzzleHashOf := hswept.removeAll _
  have hmaxSwept : swept.maxTotalCost = m.maxTotalCost :=
    removeAll_maxTotalCost seams m names
  have hmax : room.maxTotalCost = swept.maxTotalCost :=
    removeAll_maxTotalCost seams swept _
  have hshrinks : Shrinks m room :=
    (removeAll_shrinks m).trans
      (removeAll_shrinks swept)
  have hfresh : item.name ∉ room.items := notMem_of_shrinks hshrinks hname
  have hfit : room.totalCost.toNat + item.cost.toNat ≤
      swept.maxTotalCost.toNat :=
    fullEvictions_fit hswept.pool hswept.named hswept.room
      (hmaxSwept ▸ hcost)
  have hfeeLe : room.totalFee.toNat ≤ m.totalFee.toNat :=
    le_iff_toNat_le.mp
      (UInt64.le_trans (removeAll_totalFee_le seams swept _)
        (removeAll_totalFee_le seams m names))
  have hsum : (room.totalFee + item.fee).toNat =
      room.totalFee.toNat + item.fee.toNat := by
    rw [UInt64.toNat_add, Nat.mod_eq_of_lt (by omega)]
  have hpool := hroom.pool.enter hfresh (hmax ▸ hfit) (by omega)
  refine ⟨⟨hpool.totalCost_eq, hpool.totalCost_le, hpool.totalFee_eq,
    hroom.seen, hroom.conflict, hroom.pending, ?_, ?_, ?_, hroom.room,
    hroom.conflictRoom, hroom.parked, hroom.setAside, ?_⟩, hpool.index, ?_⟩
  · intro name other hother
    rcases lookup_of_insert hother with ⟨rfl, rfl⟩ | ⟨-, hold⟩
    · rfl
    · exact hroom.named name other hold
  · intro name other hother
    rcases lookup_of_insert hother with ⟨-, rfl⟩ | ⟨-, hold⟩
    · exact haligned
    · exact hroom.aligned name other hold
  · change (room.totalFee + item.fee).toNat < 2 ^ 63 - 1
    omega
  · intro name left other right hleft hright hne
    rcases lookup_of_insert hleft with ⟨rfl, rfl⟩ | ⟨-, hleft⟩ <;>
      rcases lookup_of_insert hright with ⟨rfl, rfl⟩ | ⟨-, hright⟩
    · exact absurd rfl hne
    · exact hagrees other right (hshrinks.items hright)
    · exact (hagrees name left (hshrinks.items hleft)).symm
    · exact hroom.paired name left other right hleft hright hne
  · intro name other hother
    rcases lookup_of_insert hother with ⟨-, rfl⟩ | ⟨-, hold⟩
    · exact hsingle
    · exact hroom.single name other hold

/-- An admission of a bundle with its own conditions keeps the books, whatever
it answers. -/
theorem Mempool.Kept.admitBundle (h : m.Kept seams.sha256 puzzleHashOf)
    (hstore : store.Truthful puzzleHashOf)
    (hjoins : Joins seams.sha256 bundle.coinSpends conds) :
    (m.admitBundle seams store bundle conds).2.Kept seams.sha256
      puzzleHashOf := by
  have hadmits := admits_admitBundle seams m store bundle conds
  generalize (m.admitBundle seams store bundle conds).2 = m' at hadmits ⊢
  cases hadmits with
  | refuse => exact h
  | park name assertHeight =>
    refine { h with
      pending := length_parkPending_le h.pending bundle conds
      parked := ?_ }
    intro other entry hentry
    rcases lookup_of_insert hentry with ⟨-, rfl⟩ | ⟨-, hold⟩
    · exact hjoins
    · split_ifs at hold
      · split at hold
        · exact h.parked other entry (lookup_of_erase hold)
        · exact h.parked other entry hold
      · exact h.parked other entry hold
  | setAside name hcost =>
    have hroom : m.conflictCacheMaxCost.toNat + conds.cost.toNat < 2 ^ 64 :=
      lt_of_le_of_lt (Nat.add_le_add_left
        (le_iff_toNat_le.mp hcost) _) h.conflictRoom
    have hconflict := h.conflict.cacheConflict name bundle conds
      (feeOf conds) hroom
    unfold cacheConflict at hconflict ⊢
    split_ifs at hconflict ⊢ with hheld
    · exact h
    refine { h with conflict := hconflict, setAside := ?_ }
    intro other entry hentry
    rcases lookup_of_insert (lookup_of_trimConflict hentry) with ⟨-, rfl⟩ | ⟨-, hold⟩
    · exact hjoins
    · exact h.setAside other entry hold
  | admitted name checked names hname hchecked hnames =>
    obtain ⟨-, hbuild, hgate⟩ := checkBundle_checks hchecked
    have hkept := h.removeAll names
    have hmax := removeAll_maxTotalCost seams m names
    have hfeeLe := le_iff_toNat_le.mp (removeAll_totalFee_le seams m names)
    have hfee := fee_of_checkFee hgate h.headRoom
    unfold admitItem
    have haligned (item : MempoolItem) :=
      @Joins.aligned _ _ _ _ _ hjoins hstore item
    apply Kept.addToPool
    · exact { hkept with }
    · exact notMem_of_shrinks (removeAll_shrinks m) hname
    · exact haligned _ rfl hbuild
    · exact (haligned _ rfl hbuild).single hstore hbuild
    · intro owner other hother bcs hbcs bcs' hbcs'
      have hresident := (removeAll_shrinks m).items hother
      have hids := coinId_of_joined (buildBundleCoinSpends_ok hbuild)
      refine conflictNames_agrees hnames (hids ▸ hjoins.nodup) hresident
        (h.aligned owner other hresident) h.index
        (notMem_of_lookup_removeAll hother) hbcs ?_ hbcs'
      rw [hjoins.removals_eq, ← hids]
      exact mem_map_of_mem hbcs
    · exact (cost_le_of_checkFee hgate).trans_eq hmax.symm
    · dsimp only [newItem]
      omega

end Admission

end DgXch
