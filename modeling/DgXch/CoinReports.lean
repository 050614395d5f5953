/-
Coin states by puzzle hash, a page at a time: the smallest matching records by
activity height and coin id, cut so that no height is split.  What a reorg tells
the wallets: the coins that a rollback to a fork reverts.
-/
import Mathlib.Data.List.DropRight
import DgXch.MmapSession

namespace DgXch

open List Nat

/-- Read the live payloads of a scan from the log. -/
def readLive (dat : List CoinFrame) :
    List CoinEntry → Except StoreError (List CoinRecord)
  | [] => .ok []
  | entry :: rest =>
    match entry.off with
    | none => readLive dat rest
    | some off =>
      match dat[off]? with
      | none => .error (.corrupt "mmap store: frame offset out of range")
      | some frame =>
        (readLive dat rest).map (decodeCoin frame entry.spentIndex :: ·)

def CoinFiles.scanCoins (s : CoinFiles) (keep : CoinRecord → Bool) :
    Except StoreError (List CoinRecord) :=
  (readLive s.dat (s.tbl.entries.map Prod.snd)).map (List.filter keep)

structure CoinState where
  coin : Coin
  spentHeight : Option UInt32
  createdHeight : Option UInt32
deriving Repr, DecidableEq

structure CoinStateFilters where
  includeSpent : Bool
  includeUnspent : Bool
  includeHinted : Bool
  minAmount : UInt64

def coinStateHeight (cs : CoinState) : UInt32 :=
  max (cs.createdHeight.getD 0) (cs.spentHeight.getD 0)

def coinStateFromRecord (cr : CoinRecord) : CoinState :=
  ⟨cr.coin, if cr.spentBlockIndex ≠ 0 then some cr.spentBlockIndex else none,
    some cr.confirmedBlockIndex⟩

section Page

variable (sha256 : HashFn)

/-- By activity height and then by coin id; ids compare as big-endian
numbers. -/
def stateOrder (a b : CoinState) : Bool :=
  decide ((coinStateHeight a).toNat < (coinStateHeight b).toNat ∨
    (coinStateHeight a).toNat = (coinStateHeight b).toNat ∧
      BigEndian.beNat (a.coin.name sha256).bytes ≤
        BigEndian.beNat (b.coin.name sha256).bytes)

/-- Insert into the map of merged states, kept as a list of one state an id. -/
def insertState (merged : List CoinState) (cs : CoinState) : List CoinState :=
  merged.filter (fun old => old.coin.name sha256 ≠ cs.coin.name sha256) ++ [cs]

def mergeCoinStatesBounded (merged states : List CoinState) (cap : UInt64) :
    List CoinState :=
  let merged := states.foldl (insertState sha256) merged
  if merged.length > cap.toNat then
    (merged.mergeSort (stateOrder sha256)).take cap.toNat
  else merged

def pageCoinStates (merged : List CoinState) (maxItems : UInt64) :
    List CoinState × Option UInt32 :=
  let states := (merged.mergeSort (stateOrder sha256)).take (maxItems + 1).toNat
  if states.length ≤ maxItems.toNat then (states, none)
  else
    match states.getLast? with
    | none => ([], none) -- the `expect` of the source: more than zero states
    | some next =>
      (states.dropLast.rdropWhile fun last =>
        coinStateHeight last = coinStateHeight next,
        some (coinStateHeight next))

variable (hints : List (Bytes32 × Bytes32)) (puzzleHashes : List Bytes32)
  (filters : CoinStateFilters)

/-- The coins a hint file names for these puzzle hashes. -/
def hintedCoins : List Bytes32 :=
  if filters.includeHinted then
    (hints.filter fun pair => pair.1 ∈ puzzleHashes).map Prod.snd
  else []

/-- The filter of the scan, apart from the minimum height. -/
def matchesFilters (cr : CoinRecord) : Bool :=
  (decide (cr.coin.puzzleHash ∈ puzzleHashes) ||
    decide (cr.coin.name sha256 ∈ hintedCoins hints puzzleHashes filters)) &&
  (if cr.spentBlockIndex > 0 then filters.includeSpent
    else filters.includeUnspent) &&
  decide (cr.coin.amount ≥ filters.minAmount)

def batchCoinStatesByPuzzleHashes (s : MmapStore) (puzzleHashes : List Bytes32)
    (minHeight : UInt32) (filters : CoinStateFilters) (maxItems : UInt64) :
    Except StoreError (List CoinState × Option UInt32) := do
  if puzzleHashes = [] ∨ (!filters.includeSpent && !filters.includeUnspent) then
    .ok ([], none)
  else
    let records ← s.coins.scanCoins fun cr =>
      matchesFilters sha256 s.hints puzzleHashes filters cr &&
        (decide (cr.confirmedBlockIndex ≥ minHeight) ||
          decide (cr.spentBlockIndex ≥ minHeight))
    let merged := mergeCoinStatesBounded sha256 []
      (records.map coinStateFromRecord) (maxItems + 1)
    .ok (pageCoinStates sha256 merged maxItems)

/-- Page after page, each from the height that the last one returned; `none`
when `fuel` calls do not end it. -/
def coinStatePages (s : MmapStore) (puzzleHashes : List Bytes32)
    (filters : CoinStateFilters) (maxItems : UInt64) :
    Nat → UInt32 → Except StoreError (Option (List (List CoinState)))
  | 0, _ => .ok none
  | fuel + 1, minHeight => do
      let (page, next) ← batchCoinStatesByPuzzleHashes sha256 s puzzleHashes
        minHeight filters maxItems
      match next with
      | none => .ok (some [page])
      | some height =>
        let rest ← coinStatePages s puzzleHashes filters maxItems fuel height
        .ok (rest.map (page :: ·))

/-- The matching coins among the records of a table. -/
def matchingStates (records : List CoinRecord) : List CoinState :=
  (records.filter (matchesFilters sha256 hints puzzleHashes filters)).map
    coinStateFromRecord

end Page

section Cut

variable {A : Type} {height : A → Nat}

/-- Dropping the last elements of one height from the front of a sorted list
keeps those below it. -/
theorem rdropWhile_eq_filter {front : List A} {next : A}
    (hsorted : (front ++ [next]).Pairwise fun a b => height a ≤ height b) :
    (front.rdropWhile fun last => height last = height next) =
      front.filter fun a => height a < height next := by
  induction front using List.reverseRecOn with
  | nil => rfl
  | append_singleton front last ih =>
    rw [append_assoc, pairwise_append] at hsorted
    obtain ⟨hfront, hend, hcross⟩ := hsorted
    have hlast : height last ≤ height next := by simpa using hend
    rw [rdropWhile_concat, filter_append]
    by_cases hsame : height last = height next
    · have hrest := ih (pairwise_append.mpr ⟨hfront,
        pairwise_singleton .., fun a ha b hb =>
          hcross a ha b (mem_cons_of_mem _ hb)⟩)
      rw [if_pos (decide_eq_true hsame), hrest]
      simp [hsame]
    · have hbelow : ∀ a ∈ front, height a < height next := fun a ha =>
        lt_of_le_of_lt (hcross a ha last mem_cons_self)
          (Nat.lt_of_le_of_ne hlast hsame)
      rw [filter_eq_self.mpr fun a ha => decide_eq_true (hbelow a ha)]
      simp [hsame, Nat.lt_of_le_of_ne hlast hsame]

/-- A sorted list cut after `count` elements, back to a whole height. -/
theorem cut_sorted {states : List A} {count : Nat}
    (hsorted : states.Pairwise fun a b => height a ≤ height b)
    (hlong : count < states.length) :
    ∃ next, (states.take (count + 1)).getLast? = some next ∧
      ((states.take (count + 1)).dropLast.rdropWhile
        fun last => height last = height next) =
          states.filter (fun a => height a < height next) ∧
      count < (states.filter fun a => height a ≤ height next).length := by
  obtain ⟨front, next, tail, rfl, rfl⟩ : ∃ front next tail,
      states = front ++ next :: tail ∧ front.length = count :=
    ⟨states.take count, states[count], states.drop (count + 1),
      by rw [← drop_eq_getElem_cons hlong, take_append_drop],
      by simp [le_of_lt hlong]⟩
  obtain ⟨hfront, hback, hcross⟩ := pairwise_append.mp hsorted
  obtain ⟨hnext, -⟩ := pairwise_cons.mp hback
  have hbelow : ∀ a ∈ front, height a ≤ height next := fun a ha =>
    hcross a ha next mem_cons_self
  have htake : (front ++ next :: tail).take (front.length + 1) =
      front ++ [next] := by
    simp [take_append]
  refine ⟨next, by simp [htake], ?_, ?_⟩
  · have hrest : (next :: tail).filter
        (fun a => height a < height next) = [] := by
      simpa [filter_eq_nil_iff] using hnext
    rw [htake, dropLast_concat, filter_append, hrest, append_nil]
    apply rdropWhile_eq_filter
    simpa [pairwise_append] using And.intro hfront hbelow
  · rw [filter_append,
      filter_eq_self.mpr fun a ha => decide_eq_true (hbelow a ha)]
    simp

end Cut

section Complete

variable {sha256 : HashFn} {s : MmapStore}

theorem stateOrder_sorts (states : List CoinState) :
    (states.mergeSort (stateOrder sha256)).Pairwise fun a b =>
      stateOrder sha256 a b = true := by
  apply pairwise_mergeSort
  · intro a b c hab hbc
    simp only [stateOrder, decide_eq_true_eq] at hab hbc ⊢
    omega
  · intro a b
    simp only [stateOrder, Bool.or_eq_true, decide_eq_true_eq]
    omega

theorem foldl_insertState (merged states : List CoinState)
    (hnodup : ((merged ++ states).map fun cs => cs.coin.name sha256).Nodup) :
    states.foldl (insertState sha256) merged = merged ++ states := by
  induction states generalizing merged with
  | nil => exact (append_nil merged).symm
  | cons cs rest ih =>
    have hother : ∀ old ∈ merged,
        old.coin.name sha256 ≠ cs.coin.name sha256 := by
      rw [map_append, nodup_append] at hnodup
      exact fun old hold => hnodup.2.2 _ (mem_map_of_mem hold) _
        (mem_map_of_mem mem_cons_self)
    have hinsert : insertState sha256 merged cs = merged ++ [cs] := by
      rw [insertState, filter_eq_self.mpr fun old hold =>
        decide_eq_true (hother old hold)]
    rw [foldl_cons, hinsert, ih _ (by simpa using hnodup)]
    simp

variable {states : List CoinState}

/-- The trim of the merge drops nothing of the page. -/
theorem take_mergeCoinStatesBounded (cap : UInt64)
    (hnodup : (states.map fun cs => cs.coin.name sha256).Nodup) :
    ((mergeCoinStatesBounded sha256 [] states cap).mergeSort
      (stateOrder sha256)).take cap.toNat =
        (states.mergeSort (stateOrder sha256)).take cap.toNat := by
  rw [mergeCoinStatesBounded, foldl_insertState [] states hnodup, nil_append]
  split_ifs
  · rw [mergeSort_of_pairwise ((stateOrder_sorts states).sublist
      (take_sublist ..)), take_take, min_self]
  · rfl

/-- The activity height of a state, as a number. -/
def activity (cs : CoinState) : Nat := (coinStateHeight cs).toNat

/-- A page is all of the states, or those below the height it returns, and
then more than a page's worth of states goes no higher. -/
theorem pageCoinStates_cases {maxItems : UInt64}
    (hnodup : (states.map fun cs => cs.coin.name sha256).Nodup)
    (hmax : maxItems.toNat + 1 < 2 ^ 64) :
    ∃ page next, pageCoinStates sha256 (mergeCoinStatesBounded sha256 [] states
        (maxItems + 1)) maxItems = (page, next) ∧
      (page.Pairwise fun a b => activity a ≤ activity b) ∧
      (next = none ∧ page.Perm states ∨ ∃ height, next = some height ∧
        page.Perm (states.filter fun cs => activity cs < height.toNat) ∧
        maxItems.toNat <
          (states.filter fun cs => activity cs ≤ height.toNat).length) := by
  have hcap : (maxItems + 1).toNat = maxItems.toNat + 1 := by
    rw [UInt64.toNat_add]
    exact mod_eq_of_lt hmax
  have hperm := mergeSort_perm states (stateOrder sha256)
  have hsorted : (states.mergeSort (stateOrder sha256)).Pairwise fun a b =>
      activity a ≤ activity b := by
    apply (stateOrder_sorts states).imp
    intro a b hab
    simp only [stateOrder, decide_eq_true_eq] at hab
    exact hab.elim le_of_lt fun h => le_of_eq h.1
  simp only [pageCoinStates, take_mergeCoinStatesBounded _ hnodup]
  rw [hcap]
  by_cases hshort : states.length ≤ maxItems.toNat
  · have htake := take_of_length_le (i := maxItems.toNat + 1)
      (l := states.mergeSort (stateOrder sha256)) (by simp; omega)
    rw [htake, if_pos (by simpa using hshort)]
    exact ⟨_, _, rfl, hsorted, .inl ⟨rfl, hperm⟩⟩
  · obtain ⟨next, hlast, hpage, hmany⟩ := cut_sorted hsorted
      (by simpa using hshort)
    rw [if_neg (by simp; omega), hlast]
    simp only [← UInt32.toNat_inj]
    refine ⟨_, _, rfl, ?_, .inr ⟨_, rfl, ?_, ?_⟩⟩
    · exact hpage ▸ hsorted.sublist filter_sublist
    · exact hpage ▸ hperm.filter _
    · exact (hperm.filter _).length_eq ▸ hmany

variable {minHeight : UInt32}

theorem activity_fromRecord (cr : CoinRecord) :
    (decide (cr.confirmedBlockIndex ≥ minHeight) ||
      decide (cr.spentBlockIndex ≥ minHeight)) =
        decide (minHeight.toNat ≤ activity (coinStateFromRecord cr)) := by
  have hspent : (coinStateFromRecord cr).spentHeight.getD 0 =
      cr.spentBlockIndex := by
    simp only [coinStateFromRecord]
    split_ifs with h
    · rfl
    · exact (not_not.mp h).symm
  rw [activity, coinStateHeight, hspent, ← Bool.decide_or, decide_eq_decide]
  change _ ↔ _ ≤ (if cr.confirmedBlockIndex ≤ cr.spentBlockIndex
    then cr.spentBlockIndex else cr.confirmedBlockIndex).toNat
  simp only [ge_iff_le, UInt32.le_iff_toNat_le]
  split_ifs <;> omega

theorem batchCoinStates_eq {records : List CoinRecord}
    (hscan : s.coins.scanCoins (fun _ => true) = .ok records)
    (puzzleHashes : List Bytes32) (filters : CoinStateFilters)
    {maxItems : UInt64} :
    batchCoinStatesByPuzzleHashes sha256 s puzzleHashes minHeight filters
        maxItems =
      .ok (pageCoinStates sha256 (mergeCoinStatesBounded sha256 []
        ((matchingStates sha256 s.hints puzzleHashes filters records).filter
          fun cs => minHeight.toNat ≤ activity cs) (maxItems + 1))
        maxItems) := by
  rw [batchCoinStatesByPuzzleHashes]
  split_ifs with htrivial
  · have hnone : matchingStates sha256 s.hints puzzleHashes filters records =
        [] := by
      rw [matchingStates, map_eq_nil_iff, filter_eq_nil_iff]
      intro cr _
      rcases htrivial with rfl | hflags
      · simp [matchesFilters, hintedCoins]
      · simp only [Bool.and_eq_true, Bool.not_eq_true'] at hflags
        simp [matchesFilters, hflags]
    rw [hnone]
    simp [mergeCoinStatesBounded, pageCoinStates]
  · have hlive : readLive s.coins.dat (s.coins.tbl.entries.map Prod.snd) =
        .ok records := by
      rw [CoinFiles.scanCoins] at hscan
      cases hread : readLive s.coins.dat (s.coins.tbl.entries.map Prod.snd) with
      | error e => simp [hread, Except.map] at hscan
      | ok live => simpa [hread, Except.map] using hscan
    rw [CoinFiles.scanCoins, hlive]
    simp only [activity_fromRecord]
    rw [matchingStates, filter_map, filter_filter]
    simp [Except.map, bind, Except.bind, Bool.and_comm]

/-- Pages that hold the given states, in the order of the heights, with no
height on two pages. -/
structure PagesOf (states : List CoinState) (pages : List (List CoinState)) :
    Prop where
  perm : pages.flatten.Perm states
  sorted : pages.flatten.Pairwise fun a b => activity a ≤ activity b
  apart : pages.Pairwise fun page page' =>
    ∀ a ∈ page, ∀ b ∈ page', activity a < activity b

/-- A page below a height, and pages from that height on. -/
theorem PagesOf.cons {states page : List CoinState}
    {pages : List (List CoinState)} {height : Nat}
    (hpage : page.Perm (states.filter fun cs => activity cs < height))
    (hsorted : page.Pairwise fun a b => activity a ≤ activity b)
    (hrest : PagesOf (states.filter fun cs => height ≤ activity cs) pages) :
    PagesOf states (page :: pages) := by
  have hbelow : ∀ a ∈ page, activity a < height := fun a ha => by
    simpa using (mem_filter.mp (hpage.subset ha)).2
  have habove : ∀ b ∈ pages.flatten, height ≤ activity b := fun b hb => by
    simpa using (mem_filter.mp (hrest.perm.subset hb)).2
  have hcross : ∀ a ∈ page, ∀ b ∈ pages.flatten, activity a < activity b :=
    fun a ha b hb => lt_of_lt_of_le (hbelow a ha) (habove b hb)
  refine ⟨?_, ?_, ?_⟩
  · rw [flatten_cons]
    refine (hpage.append hrest.perm).trans ?_
    simpa only [← decide_not, not_lt] using
      filter_append_perm (fun cs => activity cs < height) states
  · rw [flatten_cons, pairwise_append]
    exact ⟨hsorted, hrest.sorted, fun a ha b hb => le_of_lt (hcross a ha b hb)⟩
  · refine pairwise_cons.mpr ⟨fun page' hpage' a ha b hb => ?_, hrest.apart⟩
    exact hcross a ha b (mem_flatten_of_mem hpage' hb)

section Run

variable {records : List CoinRecord} {puzzleHashes : List Bytes32}
  {filters : CoinStateFilters} {maxItems : UInt64}

theorem nodup_matchingStates
    (hnodup : (records.map fun cr => cr.coin.name sha256).Nodup) :
    ((matchingStates sha256 s.hints puzzleHashes filters records).map
      fun cs => cs.coin.name sha256).Nodup := by
  rw [matchingStates, map_map]
  exact hnodup.sublist (filter_sublist.map _)

variable (hscan : s.coins.scanCoins (fun _ => true) = .ok records)
  (hnodup : (records.map fun cr => cr.coin.name sha256).Nodup)
  (hmax : maxItems.toNat + 1 < 2 ^ 64)
  (hcrowd : ∀ height,
    ((matchingStates sha256 s.hints puzzleHashes filters records).filter
      fun cs => activity cs = height).length ≤ maxItems.toNat)

include hscan hnodup hmax hcrowd

/-- Each call moves the minimum height up, so that the calls end. -/
theorem coinStatePages_upTo {calls : Nat}
    (hcalls : 2 ^ 32 ≤ minHeight.toNat + calls) :
    ∃ pages, coinStatePages sha256 s puzzleHashes filters maxItems calls
        minHeight = .ok (some pages) ∧
      PagesOf ((matchingStates sha256 s.hints puzzleHashes filters
        records).filter fun cs => minHeight.toNat ≤ activity cs) pages := by
  induction calls generalizing minHeight with
  | zero => exact absurd minHeight.toNat_lt (not_lt.mpr hcalls)
  | succ calls ih =>
    obtain ⟨page, next, hpage, hsorted, hnext⟩ := pageCoinStates_cases
      ((nodup_matchingStates hnodup).sublist (filter_sublist.map _)) hmax
    rw [coinStatePages, batchCoinStates_eq hscan, hpage]
    rcases hnext with ⟨rfl, hperm⟩ | ⟨height, rfl, hperm, hmany⟩
    · exact ⟨[page], rfl, by simpa using hperm, by simpa using hsorted,
        pairwise_singleton ..⟩
    -- more states than a page holds are not all at the first height
    have hprogress : minHeight.toNat < height.toNat := by
      by_contra hstuck
      refine absurd (hcrowd minHeight.toNat) (not_le.mpr
        (lt_of_lt_of_le hmany ?_))
      rw [filter_filter]
      apply List.Sublist.length_le
      apply monotone_filter_right
      intro cs hcs
      simp only [Bool.and_eq_true, decide_eq_true_eq] at hcs ⊢
      omega
    obtain ⟨pages, hrun, hrest⟩ := @ih height (by omega)
    refine ⟨page :: pages, by simp [hrun, bind, Except.bind],
      .cons hperm hsorted ?_⟩
    rw [filter_filter]
    convert hrest using 3
    rw [← Bool.decide_and, decide_eq_decide]
    omega

omit hmax in
/-- Paging is complete exactly where `maxItems + 1` does not wrap or nothing
matches.  The scan reads the whole table and no coin has two records; as long
as no activity height has more than `maxItems` matching coins, the pages end,
give every matching coin once in the order of the heights, and split no
height. -/
theorem coinStatePages_complete (minHeight : UInt32) :
    (∃ calls pages, coinStatePages sha256 s puzzleHashes filters maxItems calls
        minHeight = .ok (some pages) ∧
      PagesOf ((matchingStates sha256 s.hints puzzleHashes filters
        records).filter fun cs => minHeight.toNat ≤ activity cs) pages ∧
      (pages.flatten.map fun cs => cs.coin.name sha256).Nodup) ↔
    maxItems.toNat + 1 < 2 ^ 64 ∨
      (matchingStates sha256 s.hints puzzleHashes filters records).filter
        (fun cs => minHeight.toNat ≤ activity cs) = [] := by
  by_cases hmax : maxItems.toNat + 1 < 2 ^ 64
  · obtain ⟨pages, hrun, hpages⟩ := coinStatePages_upTo hscan hnodup hmax hcrowd
      (le_add_left (2 ^ 32) _)
    refine iff_of_true ⟨_, pages, hrun, hpages, ?_⟩ (.inl hmax)
    rw [(hpages.perm.map _).nodup_iff]
    exact (nodup_matchingStates hnodup).sublist (filter_sublist.map _)
  -- the cap is zero, so that the first page is empty and the last
  have hcap : maxItems + 1 = 0 := by
    have hlt := maxItems.toNat_lt
    rw [← UInt64.toNat_inj, UInt64.toNat_add]
    change (maxItems.toNat + 1) % 2 ^ 64 = 0
    omega
  have hempty (calls : Nat) : coinStatePages sha256 s puzzleHashes filters
      maxItems (calls + 1) minHeight = .ok (some [[]]) := by
    rw [coinStatePages, batchCoinStates_eq hscan, pageCoinStates, hcap]
    rfl
  constructor
  · rintro ⟨_ | calls, pages, hrun, hpages, -⟩
    · cases hrun
    · cases (hempty calls).symm.trans hrun
      exact .inr (perm_nil.mp hpages.perm.symm)
  · intro hnone
    refine ⟨1, [[]], hempty 0, ?_, nodup_nil⟩
    rw [hnone.resolve_left hmax]
    exact ⟨.refl _, .nil, pairwise_singleton ..⟩

end Run

end Complete

/-- A table of two coins, created at heights 5 and 7. -/
def twoCoinStore : MmapStore :=
  let coin (amount : UInt64) : Coin := ⟨Bytes32.zero, Bytes32.zero, amount⟩
  { coins := {
      dat := [⟨coin 1, false, 5, 0⟩, ⟨coin 2, false, 7, 0⟩]
      tbl := { slots := [⟨(coin 1).name hash256, 0, ⟨some 0, 0, 5⟩⟩,
                 ⟨(coin 2).name hash256, 0, ⟨some 1, 0, 7⟩⟩]
               count := 2 } } }

def allStates : CoinStateFilters := ⟨true, true, true, 0⟩

/-- At the largest `max_items` the cap wraps to zero: one empty page. -/
theorem coinStatePages_empty_at_usizeMax :
    coinStatePages hash256 twoCoinStore [Bytes32.zero] allStates (-1) 1 0 =
        .ok (some [[]]) ∧
      ∃ records, twoCoinStore.coins.scanCoins (fun _ => true) = .ok records ∧
        (matchingStates hash256 twoCoinStore.hints [Bytes32.zero] allStates
          records).length = 2 :=
  ⟨by decide +kernel, _, rfl, by decide +kernel⟩

theorem coinStatePages_complete_at_two :
    ∃ calls pages, coinStatePages hash256 twoCoinStore [Bytes32.zero] allStates 2
      calls 0 = .ok (some pages) ∧ pages.flatten.length = 2 := by
  obtain ⟨calls, pages, hrun, hpages, -⟩ := (@coinStatePages_complete hash256
    twoCoinStore _ [Bytes32.zero] allStates 2 rfl (by decide +kernel)
    (fun _ => (length_filter_le _ _).trans (by decide +kernel)) 0).mpr
    (.inl (by decide))
  exact ⟨calls, pages, hrun, hpages.perm.length_eq.trans (by decide +kernel)⟩

open ChainedTable MmapStore UInt32 CoinFiles

namespace CoinRecord

/-- A coin that is no longer on the chain. -/
def unconfirmed (r : CoinRecord) : CoinRecord :=
  { r with confirmedBlockIndex := 0, timestamp := 0 }

def unspent (r : CoinRecord) : CoinRecord :=
  { r with spentBlockIndex := 0, spent := false }

/-- What is reported of a coin that a rollback changes. -/
def Reverts (fork : UInt32) (r out : CoinRecord) : Prop :=
  fork < r.confirmedBlockIndex ∧ out = r.unconfirmed ∨
    r.confirmedBlockIndex ≤ fork ∧ fork < r.spentBlockIndex ∧ out = r.unspent

end CoinRecord

section Report

variable (sha256 : HashFn)

def coinNames (rs : List CoinRecord) : List Bytes32 :=
  rs.map fun r => r.coin.name sha256

/-- Push a reverted record unless `seen`, the names of `out`, has its name. -/
def report (revert : CoinRecord → CoinRecord) (out : List CoinRecord)
    (r : CoinRecord) : List CoinRecord :=
  if r.coin.name sha256 ∈ coinNames sha256 out then out else out ++ [revert r]

namespace CoinFiles

variable (s : CoinFiles)

def getCoinsAddedAtHeight (height : UInt32) :
    Except StoreError (List CoinRecord) :=
  s.scanCoins fun cr => cr.confirmedBlockIndex = height

def getCoinsRemovedAtHeight (height : UInt32) :
    Except StoreError (List CoinRecord) :=
  s.scanCoins fun cr => cr.spentBlockIndex = height

/-- The report of one height: additions, and then removals. -/
def reportHeight (out : List CoinRecord) (height : UInt32) :
    Except StoreError (List CoinRecord) := do
  let added ← s.getCoinsAddedAtHeight height
  let out := added.foldl (report sha256 .unconfirmed) out
  let removed ← s.getCoinsRemovedAtHeight height
  .ok (removed.foldl (report sha256 .unspent) out)

/-- The heights of the loop are `fork + 1 ..= peak`. -/
def rolledBackCoinStates (fork peak : UInt32) :
    Except StoreError (List CoinRecord) :=
  ((List.range' (fork + 1).toNat (peak.toNat + 1 - (fork + 1).toNat)).map
    UInt32.ofNat).foldlM (s.reportHeight sha256) []

end CoinFiles

variable {sha256} {records out : List CoinRecord} {fork : UInt32}

/-- A pass over some records reports those of new names. -/
theorem foldl_report (revert : CoinRecord → CoinRecord)
    (hcoin : ∀ r, (revert r).coin = r.coin)
    (hnodup : (coinNames sha256 out).Nodup) {rs : List CoinRecord} :
    let out' := rs.foldl (report sha256 revert) out
    (coinNames sha256 out').Nodup ∧
      (∀ id, id ∈ coinNames sha256 out' ↔
        id ∈ coinNames sha256 out ∨ id ∈ coinNames sha256 rs) ∧
      ∀ r' ∈ out', r' ∈ out ∨ ∃ r ∈ rs, r' = revert r ∧
        r.coin.name sha256 ∉ coinNames sha256 out := by
  induction rs generalizing out with
  | nil => exact ⟨hnodup, by simp [coinNames], fun _ => .inl⟩
  | cons r rs ih =>
    rw [foldl_cons, report]
    split_ifs with hseen
    · obtain ⟨hnodup', hnames, horigin⟩ := ih hnodup
      refine ⟨hnodup', fun id => (hnames id).trans ?_, fun r' hr' => ?_⟩
      · have : id = r.coin.name sha256 → id ∈ coinNames sha256 out :=
          (· ▸ hseen)
        simp only [coinNames, map_cons, mem_cons] at this ⊢
        tauto
      · exact (horigin r' hr').imp_right fun ⟨r₀, hr₀, h⟩ =>
          ⟨r₀, mem_cons_of_mem _ hr₀, h⟩
    · have hpush : coinNames sha256 (out ++ [revert r]) =
          coinNames sha256 out ++ [r.coin.name sha256] := by
        simp [coinNames, hcoin]
      obtain ⟨hnodup', hnames, horigin⟩ := @ih (out ++ [revert r]) (by
        rw [hpush, ← concat_eq_append]
        exact hnodup.concat hseen)
      rw [hpush] at hnames horigin
      refine ⟨hnodup', fun id => (hnames id).trans ?_, fun r' hr' => ?_⟩
      · simp [coinNames, or_assoc]
      · rcases horigin r' hr' with h | ⟨r₀, hr₀, rfl, hnew⟩
        · rcases mem_append.mp h with h | h
          · exact .inl h
          · exact .inr ⟨r, mem_cons_self, mem_singleton.mp h, hseen⟩
        · exact .inr ⟨r₀, mem_cons_of_mem _ hr₀, rfl,
            fun h => hnew (mem_append_left _ h)⟩

/-- The report of the heights above the fork and below `height`. -/
structure Reported (sha256 : HashFn) (records : List CoinRecord)
    (fork : UInt32) (height : Nat) (out : List CoinRecord) : Prop where
  nodup : (coinNames sha256 out).Nodup
  sound : ∀ r' ∈ out, ∃ r ∈ records, r.Reverts fork r'
  covers : ∀ r ∈ records, ∀ index,
    index = r.confirmedBlockIndex ∨ index = r.spentBlockIndex →
    fork < index → index.toNat < height →
    r.coin.name sha256 ∈ coinNames sha256 out

variable {s : CoinFiles}
  (hscan : ∀ keep, s.scanCoins keep = .ok (records.filter keep))
  (horder : ∀ r ∈ records, r.spentBlockIndex = 0 ∨
    r.confirmedBlockIndex ≤ r.spentBlockIndex)

include hscan horder

/-- A coin that is spent at the height was created there or below, and is then
already in the report, or not above the fork. -/
theorem Reported.step {height : UInt32}
    (h : Reported sha256 records fork height.toNat out)
    (hfork : fork < height) :
    ∃ out', s.reportHeight sha256 out height = .ok out' ∧
      Reported sha256 records fork (height.toNat + 1) out' := by
  obtain ⟨hadded, hnames, hnew⟩ := foldl_report .unconfirmed
    (fun _ => rfl) h.nodup
  obtain ⟨hremoved, hnames', hnew'⟩ := foldl_report .unspent
    (fun _ => rfl) hadded
  have hmem : ∀ r ∈ records, ∀ keep : CoinRecord → Bool, keep r = true →
      r.coin.name sha256 ∈ coinNames sha256 (records.filter keep) :=
    fun r hr keep hkeep => mem_map_of_mem (mem_filter.mpr ⟨hr, hkeep⟩)
  refine ⟨_, by
    rw [reportHeight, getCoinsAddedAtHeight, hscan,
      getCoinsRemovedAtHeight, hscan]
    rfl, hremoved, fun r' hr' => ?_, fun r hr index hindex hlow hhigh => ?_⟩
  · rcases hnew' r' hr' with hr' | ⟨r, hr, rfl, hunseen⟩
    · rcases hnew r' hr' with hr' | ⟨r, hr, rfl, -⟩
      · exact h.sound r' hr'
      · obtain ⟨hr, hheight⟩ := mem_filter.mp hr
        exact ⟨r, hr, .inl ⟨of_decide_eq_true hheight ▸ hfork, rfl⟩⟩
    · obtain ⟨hrec, hheight⟩ := mem_filter.mp hr
      obtain rfl := of_decide_eq_true hheight
      refine ⟨r, hrec, .inr
        ⟨UInt32.not_lt.mp fun hlow => hunseen ?_, hfork, rfl⟩⟩
      rw [hnames]
      rcases horder r hrec with hzero | hle
      · exact absurd (hzero ▸ hfork) UInt32.not_lt_zero
      · by_cases hsame : r.confirmedBlockIndex = r.spentBlockIndex
        · exact .inr (hmem r hrec _ (decide_eq_true hsame))
        · exact .inl (h.covers r hrec _ (.inl rfl) hlow
            (UInt32.lt_of_le_of_ne hle hsame))
  · rw [hnames', hnames]
    by_cases hsame : index = height
    · rcases hindex with rfl | rfl
      · exact .inl (.inr (hmem r hr _ (decide_eq_true hsame)))
      · exact .inr (hmem r hr _ (decide_eq_true hsame))
    · exact .inl (.inl (h.covers r hr index hindex hlow (Nat.lt_of_le_of_ne
        (le_of_lt_succ hhigh) (mt UInt32.toNat_inj.mp hsame))))

theorem Reported.run {low count : Nat}
    (h : Reported sha256 records fork low out) (hlow : fork.toNat < low)
    (hhigh : low + count ≤ 2 ^ 32) :
    ∃ out', ((List.range' low count).map UInt32.ofNat).foldlM
        (s.reportHeight sha256) out = .ok out' ∧
      Reported sha256 records fork (low + count) out' := by
  induction count generalizing low out with
  | zero => exact ⟨out, rfl, h⟩
  | succ count ih =>
    have hlt : (ofNat low).toNat = low :=
      toNat_ofNat_of_lt' (show low < 2 ^ 32 by omega)
    rw [← hlt] at h
    obtain ⟨out', hstep, hout⟩ := h.step hscan horder
      (lt_iff_toNat_lt.mpr (hlt.symm ▸ hlow))
    rw [hlt] at hout
    obtain ⟨final, hrun, hfinal⟩ := ih hout (by omega) (by omega)
    rw [range'_succ, map_cons, foldlM_cons, hstep]
    rw [add_right_comm] at hfinal
    exact ⟨final, hrun, hfinal⟩

theorem rolledBackCoinStates_reported {peak : UInt32} (hfork : fork < peak) :
    ∃ out, s.rolledBackCoinStates sha256 fork peak = .ok out ∧
      Reported sha256 records fork (peak.toNat + 1) out := by
  have hlt := UInt32.lt_iff_toNat_lt.mp hfork
  have hlow : (fork + 1).toNat = fork.toNat + 1 := by
    rw [UInt32.toNat_add]
    exact mod_eq_of_lt (lt_of_le_of_lt hlt peak.toNat_lt)
  have hend : (fork + 1).toNat + (peak.toNat + 1 - (fork + 1).toNat) =
      peak.toNat + 1 := by omega
  have hempty : Reported sha256 records fork (fork + 1).toNat [] :=
    ⟨nodup_nil, nofun, fun _ _ _ _ habove hbelow =>
      absurd (UInt32.lt_iff_toNat_lt.mp habove) (by omega)⟩
  rw [← hend]
  exact hempty.run hscan horder (by omega) (hend.trans_le peak.toNat_lt)

end Report

def liveRecords (dat : List CoinFrame) (entries : StagedImages) :
    List CoinRecord :=
  entries.filterMap fun e => e.2.record dat

variable {dat : List CoinFrame}

section Scan

variable {entries : StagedImages}

theorem readLive_eq (hfiled : ∀ e ∈ entries, e.2.Filed dat) :
    readLive dat (entries.map Prod.snd) = .ok (liveRecords dat entries) := by
  induction entries with
  | nil => rfl
  | cons e rest ih =>
    obtain ⟨hfiled, hrest⟩ := forall_mem_cons.mp hfiled
    rw [map_cons, readLive, ih hrest]
    cases hoff : e.2.off with
    | none => simp [CoinEntry.record, hoff, liveRecords]
    | some off =>
      obtain ⟨frame, hframe, -, hrecord⟩ := hfiled.record_eq hoff
      simp [hframe, hrecord, liveRecords, Except.map]

end Scan

variable {sha256 : HashFn} {id : Bytes32}

section Dated

variable {coins : CoinSet} {tip : UInt32}

/-- A record made by blocks that were applied in the order of their heights. -/
def CoinRecord.Dated (sha256 : HashFn) (tip : UInt32) (id : Bytes32)
    (r : CoinRecord) : Prop :=
  r.coin.name sha256 = id ∧ r.confirmedBlockIndex ≤ tip ∧
    r.spentBlockIndex ≤ tip ∧
    (r.spentBlockIndex = 0 ∨ r.confirmedBlockIndex ≤ r.spentBlockIndex)

def Dated (sha256 : HashFn) (tip : UInt32) (coins : CoinSet) : Prop :=
  ∀ id r, coins id = some r → r.Dated sha256 tip id

theorem Dated.update (h : Dated sha256 tip coins) {image : Option CoinRecord}
    (himage : ∀ r, image = some r → r.Dated sha256 tip id) :
    Dated sha256 tip (Function.update coins id image) :=
  (Function.forall_update_iff coins fun id image => ∀ r, image = some r →
    r.Dated sha256 tip id).mpr ⟨himage, fun other _ => h other⟩

theorem Dated.applyBlock (h : Dated sha256 tip coins) {delta : CoinDelta}
    (hle : tip ≤ delta.height) :
    Dated sha256 delta.height (CoinSet.applyBlock sha256 coins delta) := by
  have hstart : Dated sha256 delta.height coins := fun id r hr =>
    ⟨(h id r hr).1, UInt32.le_trans (h id r hr).2.1 hle,
      UInt32.le_trans (h id r hr).2.2.1 hle, (h id r hr).2.2.2⟩
  refine List.foldlRecOn delta.removals _
    (List.foldlRecOn delta.additions _ hstart fun coins h r _ => ?_)
    fun coins h id _ => ?_
  · apply h.update
    rintro _ ⟨⟩
    exact ⟨rfl, UInt32.le_refl _, UInt32.zero_le, .inl rfl⟩
  · apply h.update
    intro _ hmap
    obtain ⟨r, hr, rfl⟩ := Option.map_eq_some_iff.mp hmap
    obtain ⟨hname, hconf, -⟩ := h id r hr
    exact ⟨hname, hconf, UInt32.le_refl _, .inr hconf⟩

theorem Dated.rollback (h : Dated sha256 tip coins) (fork : UInt32) :
    Dated sha256 (min tip fork) (CoinSet.rollback fork coins) := by
  intro id r hr
  obtain ⟨r₀, hr₀, hroll⟩ := Option.bind_eq_some_iff.mp hr
  obtain ⟨hname, hconf, hspent, horder⟩ := h id r₀ hr₀
  rw [CoinRecord.rollback] at hroll
  split_ifs at hroll with hnew hlate
  all_goals cases hroll
  · exact ⟨hname, Std.le_min_iff.mpr ⟨hconf, UInt32.not_lt.mp hnew⟩,
      UInt32.zero_le, .inl rfl⟩
  · exact ⟨hname, Std.le_min_iff.mpr ⟨hconf, UInt32.not_lt.mp hnew⟩,
      Std.le_min_iff.mpr ⟨hspent, UInt32.not_lt.mp hlate⟩, horder⟩

/-- The heights up to which blocks are published and staged. -/
structure Tips where
  published : UInt32 := 0
  staged : UInt32 := 0

def Tips.step (t : Tips) : StoreCall → Tips
  | .beginBatch => { t with staged := t.published }
  | .rollbackToIn fork => { t with staged := min t.staged fork }
  | .applyBlockIn delta => { t with staged := delta.height }
  | .setPeakIn _ _ => { t with published := t.staged }
  | .commit _ => { t with published := t.staged }
  | .applyBlock _ delta => { t with published := delta.height }
  | .rollbackTo fork => { t with published := min t.published fork }
  | _ => t

/-- Blocks are applied in the order of their heights. -/
def Tips.Rises (t : Tips) : StoreCall → Prop
  | .applyBlockIn delta => t.staged ≤ delta.height
  | .applyBlock _ delta => t.published ≤ delta.height
  | _ => True

def Tips.RisesAll : Tips → List StoreCall → Prop
  | _, [] => True
  | t, c :: cs => t.Rises c ∧ RisesAll (t.step c) cs

def CoinLedger.DatedBy (sha256 : HashFn) (l : CoinLedger) (t : Tips) : Prop :=
  Dated sha256 t.published l.coins ∧
    ∀ coins ∈ l.staged, Dated sha256 t.staged coins

theorem CoinLedger.DatedBy.step {l : CoinLedger} {t : Tips}
    (h : l.DatedBy sha256 t) {c : StoreCall} (hallows : l.Allows sha256 c)
    (hc : t.Rises c) :
    (l.step sha256 c).DatedBy sha256 (t.step c) := by
  obtain ⟨hcoins, hstaged⟩ := h
  have hpublish : l.staged ≠ none →
      Dated sha256 t.staged (l.staged.getD l.coins) := by
    intro hopen
    obtain ⟨coins, hsome⟩ := Option.ne_none_iff_exists'.mp hopen
    rw [hsome]
    exact hstaged coins hsome
  cases c with
  | beginBatch => exact ⟨hcoins, fun _ h => Option.some.inj h ▸ hcoins⟩
  | rollbackToIn fork =>
    refine ⟨hcoins, fun coins h => ?_⟩
    obtain ⟨coins, hsome, rfl⟩ := Option.map_eq_some_iff.mp h
    exact (hstaged coins hsome).rollback fork
  | applyBlockIn delta =>
    refine ⟨hcoins, fun coins h => ?_⟩
    obtain ⟨coins, hsome, rfl⟩ := Option.map_eq_some_iff.mp h
    exact (hstaged coins hsome).applyBlock hc
  | setPeakIn => exact ⟨hpublish hallows, hstaged⟩
  | commit order => exact ⟨hpublish hallows, nofun⟩
  | dropBatch => exact ⟨hcoins, nofun⟩
  | applyBlock order delta => exact ⟨hcoins.applyBlock hc, hstaged⟩
  | rollbackTo fork => exact ⟨hcoins.rollback fork, hstaged⟩
  | applyHintsIn => exact ⟨hcoins, hstaged⟩
  | addBlockRecords => exact ⟨hcoins, hstaged⟩

theorem CoinLedger.DatedBy.run {l : CoinLedger} {t : Tips}
    (h : l.DatedBy sha256 t) {calls : List StoreCall}
    (hallows : l.AllowsAll sha256 calls) (hrises : t.RisesAll calls) :
    (calls.foldl (CoinLedger.step sha256) l).DatedBy sha256
      (calls.foldl Tips.step t) := by
  induction calls generalizing l t with
  | nil => exact h
  | cons c cs ih => exact ih (h.step hallows.1 hrises.1) hallows.2 hrises.2

end Dated

/-- A rollback to the fork changes the coin. -/
def CoinSet.Touched (fork : UInt32) (coins : CoinSet) (id : Bytes32) : Prop :=
  ∃ r, coins id = some r ∧
    (fork < r.confirmedBlockIndex ∨ fork < r.spentBlockIndex)

theorem CoinSet.rollback_ne_iff {fork : UInt32} {coins : CoinSet} :
    rollback fork coins id ≠ coins id ↔ coins.Touched fork id := by
  rw [rollback, Touched]
  cases coins id with
  | none => simp
  | some r =>
    rw [Option.bind_some, CoinRecord.rollback]
    split_ifs with hconf hspent
    · simp [hconf]
    · refine ⟨fun _ => ⟨r, rfl, .inr hspent⟩, fun _ h => ?_⟩
      rw [← Option.some.inj h] at hspent
      exact UInt32.not_lt_zero hspent
    · simp [hconf, hspent]

section Stands

variable {files : CoinFiles} {images : CoinImages} {tip fork peak : UInt32}
  (hs : CoinFiles.Stands True dat images files) (hfiled : AllFiled dat images)
  (hdated : Dated sha256 tip (coinsOf dat images))

include hs

theorem mem_entries_iff {e : Bytes32 × CoinEntry} :
    e ∈ files.tbl.entries ↔ images e.1 = some e.2 := by
  rw [← hs.image_eq]
  refine ⟨fun he => ?_, hs.sound.mem_entries⟩
  refine (hs.sound.get_of_mem_entries he).resolve_right ?_
  obtain ⟨slot, hslot, rfl⟩ := mem_map.mp he
  exact hs.linked trivial _ (mem_map_of_mem hslot)

/-- The scan of a rollback lists no coin twice. -/
theorem nodup_sweep :
    ((sweepDeletions fork files.tbl.entries).dedup ++
      sweepUnspends fork files.tbl.entries).Nodup := by
  have hkeys : (files.tbl.entries.map Prod.fst).Nodup := by
    rw [Table.entries, map_map]
    exact hs.sound.nodup
  refine nodup_append'.mpr ⟨nodup_dedup _,
    hkeys.sublist (filter_sublist.map _), fun id hdel huns => ?_⟩
  rw [mem_dedup] at hdel
  obtain ⟨e, he, rfl⟩ := mem_map.mp hdel
  have hentry := (mem_entries_iff hs).mp (mem_of_mem_filter he)
  exact (((hs.sweeps fork).mem_unspends hentry).mp huns).2.1
    (((hs.sweeps fork).mem_deletions hentry).mp hdel).2

include hfiled

/-- The scan of a rollback lists the coins that it changes. -/
theorem mem_sweep_iff :
    id ∈ (sweepDeletions fork files.tbl.entries).dedup ++
        sweepUnspends fork files.tbl.entries ↔
      (coinsOf dat images).Touched fork id := by
  rw [CoinSet.Touched, coinsOf, mem_append, mem_dedup]
  cases hentry : images id with
  | none =>
    have hout : ∀ keep, id ∉ (files.tbl.entries.filter keep).map Prod.fst := by
      simp [mem_entries_iff hs, hentry]
    simp [sweepDeletions, sweepUnspends, hout]
  | some entry =>
    rw [(hs.sweeps fork).mem_deletions hentry,
      (hs.sweeps fork).mem_unspends hentry, Option.bind_some]
    cases hoff : entry.off with
    | none => simp [CoinEntry.record, hoff]
    | some off =>
      obtain ⟨frame, -, hconf, hrecord⟩ :=
        (hfiled id entry hentry).record_eq hoff
      by_cases hnew : fork < entry.confirmedIndex <;>
        simp [hrecord, decodeCoin, hconf, hnew]

include hdated

/-- The report of a rollback of the coin files. -/
theorem report_of_stands (hpeak : tip ≤ peak) (hfork : fork < peak) :
    ∃ out, files.rolledBackCoinStates sha256 fork peak = .ok out ∧
      (coinNames sha256 out).Nodup ∧
      (∀ id, id ∈ coinNames sha256 out ↔ (coinsOf dat images).Touched fork id) ∧
      ∀ r ∈ out, ∃ old, old.Reverts fork r ∧
        coinsOf dat images (r.coin.name sha256) = some old := by
  have hscan : ∀ keep, files.scanCoins keep =
      .ok ((liveRecords dat files.tbl.entries).filter keep) := fun keep => by
    rw [scanCoins, hs.dat_eq, readLive_eq fun e he =>
      hfiled _ _ ((mem_entries_iff hs).mp he)]
    rfl
  have hlive : ∀ r, r ∈ liveRecords dat files.tbl.entries ↔
      ∃ id, coinsOf dat images id = some r := by
    simp [liveRecords, mem_entries_iff hs, coinsOf, Option.bind_eq_some_iff]
  obtain ⟨out, hrun, hout⟩ := @rolledBackCoinStates_reported sha256 _ fork _
    hscan (fun r hr => (hdated _ r ((hlive r).mp hr).choose_spec).2.2.2) peak
    hfork
  have hsound : ∀ r ∈ out, ∃ old, old.Reverts fork r ∧
      coinsOf dat images (r.coin.name sha256) = some old := by
    intro r' hr'
    obtain ⟨r, hr, hrev⟩ := hout.sound r' hr'
    obtain ⟨id, hid⟩ := (hlive r).mp hr
    have hcoin : r'.coin = r.coin := by
      rcases hrev with ⟨-, rfl⟩ | ⟨-, -, rfl⟩ <;> rfl
    exact ⟨r, hrev, by rwa [hcoin, (hdated id r hid).1]⟩
  refine ⟨out, hrun, hout.nodup, fun id => ⟨fun hid => ?_, ?_⟩, hsound⟩
  · obtain ⟨r', hr', rfl⟩ := mem_map.mp hid
    obtain ⟨r, hrev, hr⟩ := hsound r' hr'
    exact ⟨r, hr, hrev.imp And.left fun h => h.2.1⟩
  · rintro ⟨r, hr, htouched⟩
    have hcovers := hout.covers r ((hlive r).mpr ⟨id, hr⟩)
    obtain ⟨rfl, hconf, hspent, -⟩ := hdated id r hr
    rcases htouched with h | h
    · exact hcovers _ (.inl rfl) h (lt_succ_of_le (le_trans hconf hpeak))
    · exact hcovers _ (.inr rfl) h (lt_succ_of_le (le_trans hspent hpeak))

end Stands

/-- The report of a rollback, computed before the rollback is published, lists
each coin whose record the rollback changes, once, as the rollback leaves it,
and is as long as the number `rollback_to_in` returns. -/
theorem rolledBackCoinStates_exact (sha256 : HashFn)
    (order : IterationOrder) {calls : List StoreCall} {fork peak : UInt32}
    (hcalls : ({} : CoinLedger).AllowsAll sha256 calls)
    (hclosed : (calls.foldl (CoinLedger.step sha256) {}).staged = none)
    (hrises : ({} : Tips).RisesAll calls)
    (hpeak : (calls.foldl Tips.step {}).published ≤ peak)
    (hfork : fork < peak) :
    let s := calls.foldl (StoreSession.step sha256) {}
    let s' := [.beginBatch, .rollbackToIn fork, .commit order].foldl
      (StoreSession.step sha256) s
    ∃ out, s.store.coins.rolledBackCoinStates sha256 fork peak = .ok out ∧
      (rollbackToIn {} fork s.store).2.map Prod.snd = .ok out.length ∧
      (coinNames sha256 out).Nodup ∧
      (∀ id, id ∈ coinNames sha256 out ↔
        s'.store.getCoinRecord id ≠ s.store.getCoinRecord id) ∧
      ∀ r ∈ out, ∃ old, old.Reverts fork r ∧
        s.store.getCoinRecord (r.coin.name sha256) = .ok (some old) := by
  have hshows := @ShowsCoins.run sha256 {} {} showsCoins_empty calls hcalls
  have hafter := @ShowsCoins.run sha256 _ _ hshows
    [.beginBatch, .rollbackToIn fork, .commit order]
    ⟨hclosed, ⟨nofun, rfl⟩, nofun, trivial⟩
  have hstart : CoinLedger.DatedBy sha256 {} {} := ⟨fun _ _ => nofun, nofun⟩
  have hdated := (hstart.run hcalls hrises).1
  have hreads := hshows.reads.1
  obtain ⟨dat, images, hs, hfiled, hcoins, -⟩ := hshows
  rw [← hcoins] at hdated hreads
  obtain ⟨out, hout, hnodup, hmem, hreverts⟩ :=
    report_of_stands hs hfiled hdated hpeak hfork
  refine ⟨out, hout, ?_, hnodup, fun id => ?_, fun r hr => ?_⟩
  · have hperm := (perm_ext_iff_of_nodup hnodup (nodup_sweep hs)).mpr
      fun id => (hmem id).trans (mem_sweep_iff hs hfiled).symm
    have hlength := hperm.length_eq
    rw [coinNames, length_map, length_append] at hlength
    rw [hlength]
    rfl
  · rw [hmem, hafter.reads.1, hreads, Ne, Except.ok.injEq,
      ← CoinSet.rollback_ne_iff, hcoins]
    rfl
  · obtain ⟨old, hrev, hold⟩ := hreverts r hr
    exact ⟨old, hrev, (hreads _).trans (congrArg _ hold)⟩

theorem rolledBackCoinStates_exact_at_reorg :
    let s := reorgCalls.foldl (StoreSession.step hash256) {}
    let s' := [.beginBatch, .rollbackToIn 0, .commit sortedOrder].foldl
      (StoreSession.step hash256) s
    ∃ out, s.store.coins.rolledBackCoinStates hash256 0 1 = .ok out ∧
      out.length = 1 ∧ ∀ id, id ∈ coinNames hash256 out ↔
        s'.store.getCoinRecord id ≠ s.store.getCoinRecord id := by
  obtain ⟨out, hout, hcount, -, hchanged, -⟩ := @rolledBackCoinStates_exact
    hash256 sortedOrder reorgCalls 0 1 ⟨rfl, ⟨nofun, by decide⟩, nofun, rfl,
      ⟨nofun, rfl⟩, ⟨nofun, by decide⟩, nofun, trivial⟩ rfl
    ⟨trivial, UInt32.zero_le, trivial, trivial, trivial,
      show min (1 : UInt32) 0 ≤ 1 by decide, trivial, trivial⟩ (by decide)
    (by decide)
  refine ⟨out, hout, Except.ok.inj (hcount.symm.trans ?_), hchanged⟩
  decide +kernel

end DgXch
