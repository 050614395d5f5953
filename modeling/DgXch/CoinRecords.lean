/-
Block records, coin records and the reads that are made of a coin store; what
such a store is for, a map from coin ids to records that blocks extend and that
a reorg rolls back; and the replay of blocks onto it.
-/
import DgXch.BlockGenerator

namespace DgXch

open Option

/-- The fields of `BlockRecord` that the modelled functions read. -/
structure BlockRecord where
  headerHash : Bytes32
  prevHash : Bytes32
  height : UInt32
  totalIters : Nat
  signagePointIndex : UInt8
  subSlotIters : UInt64
  requiredIters : UInt64
  overflow : Bool
  prevTransactionBlockHeight : UInt32
  timestamp : Option UInt64
deriving Repr, DecidableEq

def BlockRecord.isTransactionBlock (r : BlockRecord) : Bool :=
  r.timestamp.isSome

structure CoinRecord where
  coin : Coin
  confirmedBlockIndex : UInt32
  spentBlockIndex : UInt32
  coinbase : Bool
  timestamp : UInt64
  spent : Bool
deriving Repr, DecidableEq

/-- `UnspentLineageInfo`: the newest unspent version of a singleton. -/
structure UnspentLineageInfo where
  coinId : Bytes32
  parentId : Bytes32
  parentParentId : Bytes32
deriving Repr, DecidableEq

inductive StoreError where
  | backend (text : String)
  | io (text : String)
  | corrupt (text : String)
  | batch (text : String)
deriving Repr, DecidableEq

/-- `additions_for_conditions` without reward claims. -/
def additionsForConditions (conds : SpendBundleConditions) : List Coin :=
  conds.spends.flatMap fun spend => spend.createCoin.map fun coin =>
    ⟨spend.coinId, coin.puzzleHash, coin.amount⟩

def removalsForConditions (conds : SpendBundleConditions) : List Bytes32 :=
  conds.spends.map Spend.coinId

/-- The reads that one call makes of a `CoinStore`; a commit may fall between
them. -/
structure CoinStoreReads where
  getCoinRecords : List Bytes32 → Except StoreError (List CoinRecord)
  getUnspentLineageInfo :
    Bytes32 → Except StoreError (Option UnspentLineageInfo)

def saturatingAdd32 (a b : UInt32) : UInt32 :=
  (checkedAdd32 a b).getD 0xffffffff

def saturatingAdd64 (a b : UInt64) : UInt64 :=
  (checkedAdd64 a b).getD 0xffffffffffffffff

def saturatingSub64 (a b : UInt64) : UInt64 := if b ≤ a then a - b else 0

theorem saturatingAdd64_toNat (a b : UInt64) :
    (saturatingAdd64 a b).toNat = min (a.toNat + b.toNat) (2 ^ 64 - 1) := by
  unfold saturatingAdd64 checkedAdd64
  split_ifs with hfits
  · rw [getD_some, UInt64.toNat_add, Nat.mod_eq_of_lt hfits]
    omega
  · rw [getD_none, Nat.min_eq_right (by omega)]
    rfl

theorem saturatingSub64_toNat (a b : UInt64) :
    (saturatingSub64 a b).toNat = a.toNat - b.toNat := by
  unfold saturatingSub64
  split_ifs with hle
  · exact UInt64.toNat_sub_of_le a b hle
  · rw [UInt64.le_iff_toNat_le] at hle
    rw [Nat.sub_eq_zero_of_le (by omega)]
    rfl

/-- `u64::try_from(amount).unwrap_or(u64::MAX)`. -/
def clampU64 (amount : Nat) : UInt64 :=
  if amount < 2 ^ 64 then UInt64.ofNat amount else 0xffffffffffffffff

theorem clampU64_of_lt {amount : Nat} (h : amount < 2 ^ 64) :
    (clampU64 amount).toNat = amount := by
  rw [clampU64, if_pos h, UInt64.toNat_ofNat_of_lt' h]

/-- Below its last value `clampU64` is exact. -/
theorem clampU64_toNat_of_lt {amount : Nat}
    (h : (clampU64 amount).toNat < 2 ^ 64 - 1) :
    (clampU64 amount).toNat = amount := by
  apply clampU64_of_lt
  by_contra hlarge
  rw [clampU64, if_neg hlarge] at h
  exact absurd h (by decide)

abbrev CoinSet := Bytes32 → Option CoinRecord

/-- What a block does to the coins. -/
structure CoinDelta where
  height : UInt32
  timestamp : UInt64
  additions : List CoinRecord
  removals : List Bytes32
deriving Repr, DecidableEq

def CoinRecord.spendAt (height : UInt32) (r : CoinRecord) : CoinRecord :=
  { r with spentBlockIndex := height, spent := true }

def CoinRecord.rollback (fork : UInt32) (r : CoinRecord) : Option CoinRecord :=
  if fork < r.confirmedBlockIndex then none
  else if fork < r.spentBlockIndex then
    some { r with spentBlockIndex := 0, spent := false }
  else some r

/-- The record that an addition of a block leaves. -/
def CoinRecord.confirmed (height : UInt32) (timestamp : UInt64)
    (r : CoinRecord) : CoinRecord :=
  ⟨r.coin, height, 0, r.coinbase, timestamp, false⟩

namespace CoinSet

def add (sha256 : HashFn) (height : UInt32) (timestamp : UInt64)
    (coins : CoinSet) (r : CoinRecord) : CoinSet :=
  Function.update coins (r.coin.name sha256)
    (some (r.confirmed height timestamp))

def spend (height : UInt32) (coins : CoinSet) (id : Bytes32) : CoinSet :=
  Function.update coins id ((coins id).map (CoinRecord.spendAt height))

/-- The additions of a block, and then its removals. -/
def applyBlock (sha256 : HashFn) (coins : CoinSet)
    (delta : CoinDelta) : CoinSet :=
  delta.removals.foldl (spend delta.height)
    (delta.additions.foldl (add sha256 delta.height delta.timestamp) coins)

/-- Delete the coins confirmed above the fork and unspend those spent above
it. -/
def rollback (fork : UInt32) (coins : CoinSet) : CoinSet :=
  fun id => (coins id).bind (CoinRecord.rollback fork)

theorem spend_of_none {coins : CoinSet} {id : Bytes32} (height : UInt32)
    (h : coins id = none) : spend height coins id = coins := by
  rw [spend, h, map_none, ← h, Function.update_eq_self]

/-- No addition repeats a live coin. -/
def AddsFresh (sha256 : HashFn) (height : UInt32)
    (timestamp : UInt64) : CoinSet → List CoinRecord → Prop
  | _, [] => True
  | coins, r :: rest =>
    (∀ live, coins (r.coin.name sha256) = some live → live.spent = true) ∧
      AddsFresh sha256 height timestamp (add sha256 height timestamp coins r)
        rest

theorem AddsFresh.at {sha256 : HashFn} {height : UInt32}
    {timestamp : UInt64} {coins : CoinSet} {done rest : List CoinRecord}
    {r : CoinRecord}
    (h : AddsFresh sha256 height timestamp coins (done ++ r :: rest)) :
    ∀ live, done.foldl (add sha256 height timestamp) coins
      (r.coin.name sha256) = some live → live.spent = true := by
  induction done generalizing coins with
  | nil => exact h.1
  | cons head tail ih => exact ih h.2

end CoinSet

open List Function Option

variable {front back : List CoinDelta} {additions : List CoinRecord}
  {removals : List Bytes32} {deltas : List CoinDelta}

namespace CoinSet

variable {sha256 : HashFn} {coins : CoinSet} {delta : CoinDelta}
  {height fork : UInt32} {timestamp : UInt64} {id : Bytes32}

/-- The coins of a list of blocks. -/
def replay (sha256 : HashFn) (deltas : List CoinDelta) : CoinSet :=
  deltas.foldl (applyBlock sha256) fun _ => none

/-- The coin ids that a block adds. -/
def addedIds (sha256 : HashFn) (delta : CoinDelta) : List Bytes32 :=
  delta.additions.map fun r => r.coin.name sha256

/-- What the checks of a block establish: its additions are new and different,
its removals are unspent coins, its own additions included. -/
structure Accepts (sha256 : HashFn) (coins : CoinSet)
    (delta : CoinDelta) : Prop where
  nodup : (addedIds sha256 delta).Nodup
  fresh : ∀ id ∈ addedIds sha256 delta, coins id = none
  unspent : ∀ id ∈ delta.removals, id ∉ addedIds sha256 delta →
    ∃ r, coins id = some r ∧ r.spentBlockIndex = 0
  height_pos : ∀ id ∈ delta.removals, 0 < delta.height

theorem foldl_add_of_notMem
    (h : id ∉ additions.map fun r => r.coin.name sha256) :
    additions.foldl (add sha256 height timestamp) coins id = coins id := by
  induction additions generalizing coins with
  | nil => rfl
  | cons r rest ih =>
    rw [map_cons, mem_cons, not_or] at h
    exact (ih h.2).trans (update_of_ne h.1 _ _)

/-- A coin that a block adds is the confirmed record of one of its
additions. -/
theorem foldl_add_of_mem (coins : CoinSet)
    (h : id ∈ additions.map fun r => r.coin.name sha256) :
    ∃ r ∈ additions, r.coin.name sha256 = id ∧
      additions.foldl (add sha256 height timestamp) coins id =
        some (r.confirmed height timestamp) := by
  induction additions generalizing coins with
  | nil => cases h
  | cons r rest ih =>
    by_cases hrest : id ∈ rest.map fun r => r.coin.name sha256
    · obtain ⟨r', hr', hid, heq⟩ :=
        ih (add sha256 height timestamp coins r) hrest
      exact ⟨r', mem_cons_of_mem _ hr', hid, heq⟩
    · have hid : id = r.coin.name sha256 := (mem_cons.mp h).resolve_right hrest
      refine ⟨r, mem_cons_self .., hid.symm, ?_⟩
      refine (foldl_add_of_notMem hrest).trans ?_
      rw [add, hid, update_self]

theorem foldl_spend_of_notMem (h : id ∉ removals) :
    removals.foldl (spend height) coins id = coins id := by
  induction removals generalizing coins with
  | nil => rfl
  | cons name rest ih =>
    rw [mem_cons, not_or] at h
    exact (ih h.2).trans (update_of_ne h.1 _ _)

theorem foldl_spend_of_mem (h : id ∈ removals) :
    removals.foldl (spend height) coins id =
      (coins id).map (CoinRecord.spendAt height) := by
  induction removals generalizing coins with
  | nil => cases h
  | cons name rest ih =>
    by_cases hrest : id ∈ rest
    · refine (ih hrest).trans ?_
      rw [spend]
      by_cases hsame : id = name
      · rw [hsame, update_self, Option.map_map]
        rfl
      · rw [update_of_ne hsame]
    · have hid := (mem_cons.mp h).resolve_right hrest
      refine (foldl_spend_of_notMem hrest).trans ?_
      rw [spend, hid, update_self]

/-- The records agree about being spent, and are no younger than a height. -/
structure UpTo (coins : CoinSet) (height : UInt32) : Prop where
  confirmed : ∀ {id r}, coins id = some r → r.confirmedBlockIndex ≤ height
  spentIndex : ∀ {id r}, coins id = some r → r.spentBlockIndex ≤ height
  spent : ∀ {id r}, coins id = some r → r.spent = decide (0 < r.spentBlockIndex)

/-- The record of a coin after a block, by how the block touches it. -/
theorem applyBlock_cases (haccepts : Accepts sha256 coins delta) :
    (∃ r, applyBlock sha256 coins delta id = some r ∧ coins id = none ∧
      r.confirmedBlockIndex = delta.height ∧
      (r.spentBlockIndex = 0 ∧ r.spent = false ∨ 0 < delta.height ∧
        r.spentBlockIndex = delta.height ∧ r.spent = true)) ∨
    (∃ r, coins id = some r ∧ r.spentBlockIndex = 0 ∧ 0 < delta.height ∧
      applyBlock sha256 coins delta id = some (r.spendAt delta.height)) ∨
    applyBlock sha256 coins delta id = coins id := by
  by_cases hadd : id ∈ addedIds sha256 delta
  · left
    obtain ⟨r, -, -, hr⟩ := foldl_add_of_mem coins hadd
    by_cases hrem : id ∈ delta.removals
    · refine ⟨(r.confirmed delta.height delta.timestamp).spendAt delta.height,
        ?_, haccepts.fresh id hadd, rfl,
        .inr ⟨haccepts.height_pos id hrem, rfl, rfl⟩⟩
      rw [applyBlock, foldl_spend_of_mem hrem, hr, map_some]
    · refine ⟨r.confirmed delta.height delta.timestamp, ?_,
        haccepts.fresh id hadd, rfl, .inl ⟨rfl, rfl⟩⟩
      rw [applyBlock, foldl_spend_of_notMem hrem, hr]
  · right
    by_cases hrem : id ∈ delta.removals
    · left
      obtain ⟨r, hr, hzero⟩ := haccepts.unspent id hrem hadd
      refine ⟨r, hr, hzero, haccepts.height_pos id hrem, ?_⟩
      rw [applyBlock, foldl_spend_of_mem hrem, foldl_add_of_notMem hadd, hr,
        map_some]
    · right
      rw [applyBlock, foldl_spend_of_notMem hrem, foldl_add_of_notMem hadd]

theorem UpTo.applyBlock (h : UpTo coins height)
    (haccepts : Accepts sha256 coins delta) (hle : height ≤ delta.height) :
    UpTo (applyBlock sha256 coins delta) delta.height := by
  have hall : ∀ {id r}, CoinSet.applyBlock sha256 coins delta id = some r →
      r.confirmedBlockIndex ≤ delta.height ∧
      r.spentBlockIndex ≤ delta.height ∧
      r.spent = decide (0 < r.spentBlockIndex) := by
    intro id r hr
    rcases applyBlock_cases haccepts with
      ⟨r', hr', -, hconf, hspent⟩ | ⟨r', hr', hzero, hpos, happ⟩ | hsame
    · rw [hr] at hr'
      cases hr'
      rcases hspent with ⟨hindex, hflag⟩ | ⟨hpos, hindex, hflag⟩
      · rw [hconf, hindex, hflag]
        exact ⟨UInt32.le_refl _, UInt32.zero_le, rfl⟩
      · rw [hconf, hindex, hflag, decide_eq_true hpos]
        exact ⟨UInt32.le_refl _, UInt32.le_refl _, rfl⟩
    · rw [hr] at happ
      cases happ
      have hconf := UInt32.le_trans (h.confirmed hr') hle
      exact ⟨hconf, UInt32.le_refl _, (decide_eq_true hpos).symm⟩
    · rw [hsame] at hr
      exact ⟨UInt32.le_trans (h.confirmed hr) hle,
        UInt32.le_trans (h.spentIndex hr) hle, h.spent hr⟩
  exact ⟨fun hr => (hall hr).1, fun hr => (hall hr).2.1,
    fun hr => (hall hr).2.2⟩

theorem UpTo.rollback_eq (h : UpTo coins height) (hle : height ≤ fork) :
    rollback fork coins = coins := by
  funext id
  rw [rollback]
  cases hr : coins id with
  | none => rfl
  | some r =>
    rw [bind_some, CoinRecord.rollback,
      if_neg (UInt32.not_lt.mpr (UInt32.le_trans (h.confirmed hr) hle)),
      if_neg (UInt32.not_lt.mpr (UInt32.le_trans (h.spentIndex hr) hle))]

/-- A block above the fork leaves nothing after a rollback. -/
theorem rollback_applyBlock (h : UpTo coins height)
    (haccepts : Accepts sha256 coins delta) (hlt : fork < delta.height) :
    rollback fork (applyBlock sha256 coins delta) = rollback fork coins := by
  funext id
  rw [rollback, rollback]
  rcases applyBlock_cases haccepts with
    ⟨r, hr, hnone, hconf, -⟩ | ⟨r, hr, hzero, -, happ⟩ | hsame
  · rw [hr, hnone, bind_some, CoinRecord.rollback, hconf, if_pos hlt]
    rfl
  · have hunspent : r.spent = false := by
      rw [h.spent hr, hzero]
      rfl
    have hrestored : { r.spendAt delta.height with
        spentBlockIndex := 0, spent := false } = r := by
      rw [← hzero, ← hunspent]
      rfl
    rw [hr, happ, bind_some, bind_some, CoinRecord.rollback,
      CoinRecord.rollback, hrestored]
    change (if fork < r.confirmedBlockIndex then none else
      if fork < delta.height then some r else _) = _
    rw [if_pos hlt, hzero, if_neg (UInt32.not_lt.mpr UInt32.zero_le)]
  · rw [hsame]

/-- The blocks are accepted one after the other. -/
def AcceptsAll (sha256 : HashFn) : CoinSet → List CoinDelta → Prop
  | _, [] => True
  | coins, delta :: rest => Accepts sha256 coins delta ∧
      AcceptsAll sha256 (applyBlock sha256 coins delta) rest

theorem AcceptsAll.append (h : AcceptsAll sha256 coins (front ++ back)) :
    AcceptsAll sha256 coins front ∧
      AcceptsAll sha256 (front.foldl (CoinSet.applyBlock sha256) coins)
        back := by
  induction front generalizing coins with
  | nil => exact ⟨trivial, h⟩
  | cons delta rest ih =>
    obtain ⟨hfront, hback⟩ := ih h.2
    exact ⟨⟨h.1, hfront⟩, hback⟩

/-- Heights that never go down, from a first one on. -/
def Rising : UInt32 → List CoinDelta → Prop
  | _, [] => True
  | height, delta :: rest => height ≤ delta.height ∧ Rising delta.height rest

theorem upTo_empty : UpTo (fun _ => none) 0 := ⟨nofun, nofun, nofun⟩

section

variable (h : UpTo coins height) (haccepts : AcceptsAll sha256 coins deltas)
  (hrising : Rising height deltas)

include h haccepts hrising

theorem UpTo.foldl (hle : ∀ delta ∈ deltas, delta.height ≤ fork)
    (hfork : height ≤ fork) :
    UpTo (deltas.foldl (CoinSet.applyBlock sha256) coins) fork := by
  induction deltas generalizing coins height with
  | nil => exact ⟨fun hr => UInt32.le_trans (h.confirmed hr) hfork,
      fun hr => UInt32.le_trans (h.spentIndex hr) hfork, h.spent⟩
  | cons delta rest ih =>
    exact ih (h.applyBlock haccepts.1 hrising.1) haccepts.2 hrising.2
      (fun d hd => hle d (mem_cons_of_mem _ hd)) (hle delta (mem_cons_self ..))

/-- Blocks above the fork leave nothing after a rollback. -/
theorem rollback_foldl (hlt : ∀ delta ∈ deltas, fork < delta.height) :
    rollback fork (deltas.foldl (CoinSet.applyBlock sha256) coins) =
      rollback fork coins := by
  induction deltas generalizing coins height with
  | nil => rfl
  | cons delta rest ih =>
    rw [foldl_cons, ih (h.applyBlock haccepts.1 hrising.1) haccepts.2
      hrising.2 fun d hd => hlt d (mem_cons_of_mem _ hd)]
    exact rollback_applyBlock h haccepts.1 (hlt delta (mem_cons_self ..))

end

theorem Rising.append (h : Rising height (front ++ back)) :
    Rising height front ∧
      ∃ last, (∀ delta ∈ front, delta.height ≤ last) ∧ height ≤ last ∧
        (last = height ∨ ∃ delta ∈ front, delta.height = last) ∧
        Rising last back := by
  induction front generalizing height with
  | nil => exact ⟨trivial, height, nofun, UInt32.le_refl _, .inl rfl, h⟩
  | cons delta rest ih =>
    obtain ⟨hfront, last, hall, hle, hlast, hback⟩ := ih h.2
    refine ⟨⟨h.1, hfront⟩, last, forall_mem_cons.mpr ⟨hle, hall⟩,
      UInt32.le_trans h.1 hle, .inr ?_, hback⟩
    rcases hlast with rfl | ⟨d, hd, rfl⟩
    · exact ⟨delta, mem_cons_self .., rfl⟩
    · exact ⟨d, mem_cons_of_mem _ hd, rfl⟩

/-- Rolling a replay back to the height of its front leaves the front. -/
theorem rollback_replay
    (haccepts : AcceptsAll sha256 (fun _ => none) (front ++ back))
    (hrising : Rising 0 (front ++ back))
    (hfront : ∀ delta ∈ front, delta.height ≤ fork)
    (hback : ∀ delta ∈ back, fork < delta.height) :
    rollback fork (replay sha256 (front ++ back)) = replay sha256 front := by
  obtain ⟨hrisingFront, last, hall, hle, hlast, hrisingBack⟩ := hrising.append
  obtain ⟨hacceptsFront, hacceptsBack⟩ := haccepts.append
  have hupTo : UpTo (replay sha256 front) last :=
    upTo_empty.foldl hacceptsFront hrisingFront hall hle
  have hlastFork : last ≤ fork := by
    rcases hlast with rfl | ⟨delta, hdelta, rfl⟩
    · exact UInt32.zero_le
    · exact hfront delta hdelta
  rw [replay, foldl_append]
  exact (rollback_foldl hupTo hacceptsBack hrisingBack hback).trans
    (hupTo.rollback_eq hlastFork)

end CoinSet

end DgXch
