/-
The cache of unfinished blocks.  A reward hash has variants, by foliage hash; a
variant is requested until its block is received.  `find_best` and
`evict_worst` go by the keys of a group, so a placeholder can hide or displace
a received block.
-/
import DgXch.CoinRecords
import DgXch.KeyedTable
import Mathlib.Data.List.MinMax

namespace DgXch

open KeyedTable List Option

structure UnfinishedBlockEntry (B : Type) where
  block : Option B
  requiredIters : Option UInt64
  height : UInt32

/-- The variants of a reward hash, by foliage hash. -/
abbrev UnfinishedGroup (B : Type) :=
  Table (Option Bytes32) (UnfinishedBlockEntry B)

abbrev UnfinishedCache (B : Type) := Table Bytes32 (UnfinishedGroup B)

def maxPerRewardHash : Nat := 20

/-- Hashes are compared as byte strings. -/
def hashKey (hash : Bytes32) : List Nat := hash.bytes.map UInt8.toNat

variable {B : Type}

namespace UnfinishedGroup

variable (group : UnfinishedGroup B)

/-- The received blocks that have a foliage hash. -/
def hashedBlocks : List (Bytes32 × B) :=
  group.entries.filterMap fun variant => do
    some (← variant.1, ← variant.2.block)

def findBest : Option Bytes32 × Option B :=
  match group.entries with
  | [⟨foliage, entry⟩] =>
    match entry.block with
    | some block => (foliage, some block)
    | none => (none, none)
  | _ =>
    match group.hashedBlocks.argmin fun best => hashKey best.1 with
    | some (foliage, block) => (some foliage, some block)
    | none => (none, none)

def evictWorst : UnfinishedGroup B :=
  if group.entries.length ≤ maxPerRewardHash then group
  else if none ∈ group then group.erase none
  else
    match (group.keys.filterMap id).argmax hashKey with
    | some worst => group.erase (some worst)
    | none => group

end UnfinishedGroup

open UnfinishedGroup

namespace UnfinishedCache

variable (cache : UnfinishedCache B) (rewardHash : Bytes32)

def markRequesting (foliageHash : Option Bytes32) : UnfinishedCache B :=
  let group := (cache.lookup rewardHash).getD ∅
  let group := if foliageHash ∈ group then group
    else group.insert foliageHash ⟨none, none, 0⟩
  cache.insert rewardHash group.evictWorst

def removeRequesting (foliageHash : Option Bytes32) : UnfinishedCache B :=
  match cache.lookup rewardHash with
  | none => cache
  | some group =>
    let group :=
      if (group.lookup foliageHash).any (·.block.isNone) then
        group.erase foliageHash
      else group
    if group.entries.isEmpty then cache.erase rewardHash
    else cache.insert rewardHash group

variable (foliageOf : B → Option Bytes32)

/-- The cache reads nothing of a block but its foliage hash. -/
def addBlock (cache : UnfinishedCache B) (partialHash : Bytes32)
    (height : UInt32) (block : B) (requiredIters : UInt64) :
    UnfinishedCache B :=
  let group := (cache.lookup partialHash).getD ∅
  cache.insert partialHash (evictWorst (group.insert (foliageOf block)
    ⟨some block, some requiredIters, height⟩))

def getBlock : Option B := do
  (← cache.lookup rewardHash).findBest.2

/-- What `prune_below` retains of a group. -/
def pruneGroup (height : UInt32) (group : UnfinishedGroup B) :
    UnfinishedGroup B :=
  retain (fun entry : UnfinishedBlockEntry B =>
    if height < entry.height ∨ entry.block.isNone then some entry else none)
    group

def pruneBelow (height : UInt32) : UnfinishedCache B :=
  retain (fun group : UnfinishedGroup B =>
    let group := pruneGroup height group
    if group.entries.isEmpty then none else some group) cache

inductive Call (B : Type) where
  | markRequesting (rewardHash : Bytes32) (foliageHash : Option Bytes32)
  | removeRequesting (rewardHash : Bytes32) (foliageHash : Option Bytes32)
  | addBlock (partialHash : Bytes32) (height : UInt32) (block : B)
      (requiredIters : UInt64)
  | pruneBelow (height : UInt32)

def call (cache : UnfinishedCache B) : Call B → UnfinishedCache B
  | .markRequesting rewardHash foliageHash =>
    cache.markRequesting rewardHash foliageHash
  | .removeRequesting rewardHash foliageHash =>
    cache.removeRequesting rewardHash foliageHash
  | .addBlock partialHash height block requiredIters =>
    cache.addBlock foliageOf partialHash height block requiredIters
  | .pruneBelow height => cache.pruneBelow height

/-- A cache after a sequence of calls. -/
def run (calls : List (Call B)) : UnfinishedCache B :=
  calls.foldl (call foliageOf) ∅

end UnfinishedCache

namespace UnfinishedGroup

/-- Blocks without a foliage hash come last. -/
def foliageRank : Option Bytes32 → WithTop (List Nat)
  | none => ⊤
  | some hash => hashKey hash

theorem foliageRank_injective : Function.Injective foliageRank := by
  rintro (_ | hash) (_ | hash') hrank
  · rfl
  · cases hrank
  · cases hrank
  · exact congrArg some (Bytes32.ext (map_injective_iff.mpr
      (fun _ _ => UInt8.toNat_inj.mp) (WithTop.coe_inj.mp hrank)))

/-- A received block of the smallest foliage hash. -/
def Best (group : UnfinishedGroup B) (block : B) : Prop :=
  ∃ best ∈ group.entries, best.2.block = some block ∧
    ∀ other ∈ group.entries, other.2.block ≠ none →
      foliageRank best.1 ≤ foliageRank other.1

/-- No received block is evicted while a placeholder or a received block of a
larger foliage hash remains. -/
def SparesBlocks (group : UnfinishedGroup B) : Prop :=
  ∀ out ∈ group.entries, out ∉ group.evictWorst.entries →
    out.2.block ≠ none → ∀ other ∈ group.evictWorst.entries,
      other.2.block ≠ none ∧ foliageRank other.1 ≤ foliageRank out.1

variable {group : UnfinishedGroup B}

theorem mem_hashedBlocks {hash : Bytes32} {block : B} :
    (hash, block) ∈ group.hashedBlocks ↔
      ∃ variant ∈ group.entries, variant.1 = some hash ∧
        variant.2.block = some block := by
  simp [hashedBlocks, mem_filterMap, bind_eq_some_iff]

/-- The best block is found in a group of one, and in any group where some
received block has a foliage hash. -/
theorem findBest_spec
    (hreceived : ∃ variant ∈ group.entries, variant.2.block ≠ none) :
    (∃ block, group.findBest.2 = some block ∧ group.Best block) ↔
      group.entries.length = 1 ∨
        ∃ variant ∈ group.entries, variant.1 ≠ none ∧
          variant.2.block ≠ none := by
  unfold findBest
  split
  · rename_i foliage entry hone
    simp only [Best, hone, mem_singleton, exists_eq_left, forall_eq] at *
    obtain ⟨block, hblock⟩ := ne_none_iff_exists'.mp hreceived
    exact iff_of_true ⟨block, by rw [hblock], hblock, fun _ => le_rfl⟩ (.inl rfl)
  · rename_i hmany
    have hlength : group.entries.length ≠ 1 := fun hone =>
      (length_eq_one_iff.mp hone).elim fun variant => hmany variant.1 variant.2
    cases hbest : group.hashedBlocks.argmin fun best => hashKey best.1 with
    | none =>
      rw [argmin_eq_none] at hbest
      refine iff_of_false (fun ⟨_, h, _⟩ => by cases h) (not_or.mpr ⟨hlength, ?_⟩)
      rintro ⟨variant, hmem, hhash, hblock⟩
      obtain ⟨hash, hhash⟩ := ne_none_iff_exists'.mp hhash
      obtain ⟨block, hblock⟩ := ne_none_iff_exists'.mp hblock
      have hheld := mem_hashedBlocks.mpr ⟨variant, hmem, hhash, hblock⟩
      rw [hbest] at hheld
      cases hheld
    | some best =>
      obtain ⟨variant, hmem, hhash, hblock⟩ :=
        mem_hashedBlocks.mp (argmin_mem hbest)
      refine iff_of_true ⟨best.2, rfl, variant, hmem, hblock, ?_⟩
        (.inr ⟨variant, hmem, by simp [hhash], by simp [hblock]⟩)
      rintro ⟨_ | hash, entry⟩ hother hentry
      · exact le_top
      · obtain ⟨block, hblock⟩ := ne_none_iff_exists'.mp hentry
        have hleast := not_lt_of_mem_argmin
          (mem_hashedBlocks.mpr ⟨_, hother, rfl, hblock⟩) hbest
        rw [hhash]
        exact WithTop.coe_le_coe.mpr (not_lt.mp hleast)

/-- A group that is too large loses the variant of the largest key. -/
theorem evictWorst_of_lt (hlarge : maxPerRewardHash < group.entries.length) :
    ∃ worst ∈ group.entries, group.evictWorst = group.erase worst.1 ∧
      ∀ other ∈ group.entries, foliageRank other.1 ≤ foliageRank worst.1 := by
  unfold evictWorst
  rw [if_neg (Nat.not_le.mpr hlarge)]
  split_ifs with hnone
  · obtain ⟨entry, hmem⟩ := exists_of_mem_keys hnone
    exact ⟨⟨none, entry⟩, hmem, rfl, fun _ _ => le_top⟩
  · have hsome : ∀ other ∈ group.entries,
        ∃ hash ∈ group.keys.filterMap id, other.1 = some hash := by
      rintro ⟨_ | hash, entry⟩ hother
      · exact absurd (mem_keys_of_mem hother) hnone
      · exact ⟨hash, mem_filterMap.mpr ⟨_, mem_keys_of_mem hother, rfl⟩, rfl⟩
    cases hworst : (group.keys.filterMap id).argmax hashKey with
    | none =>
      obtain ⟨first, hfirst⟩ :=
        exists_mem_of_length_pos (Nat.zero_lt_of_lt hlarge)
      obtain ⟨hash, hhash, -⟩ := hsome first hfirst
      rw [argmax_eq_none.mp hworst] at hhash
      cases hhash
    | some worst =>
      obtain ⟨_, hkey, rfl⟩ := mem_filterMap.mp (argmax_mem hworst)
      obtain ⟨entry, hmem⟩ := exists_of_mem_keys hkey
      refine ⟨⟨_, entry⟩, hmem, rfl, fun other hother => ?_⟩
      obtain ⟨hash, hhash, hother⟩ := hsome other hother
      rw [hother]
      exact WithTop.coe_le_coe.mpr
        (not_lt.mp (not_lt_of_mem_argmax hhash hworst))

/-- A received block of the largest foliage hash has no placeholder beside
it. -/
def WorstStands (group : UnfinishedGroup B) : Prop :=
  ∀ worst ∈ group.entries, worst.2.block ≠ none →
    (∀ other ∈ group.entries, foliageRank other.1 ≤ foliageRank worst.1) →
      ∀ other ∈ group.entries, other.2.block ≠ none

/-- Received blocks are spared exactly in a group that is not too large, and
where a received block of the largest hash has no placeholder beside it. -/
theorem sparesBlocks_iff : group.SparesBlocks ↔
    group.entries.length ≤ maxPerRewardHash ∨ group.WorstStands := by
  by_cases hsmall : group.entries.length ≤ maxPerRewardHash
  · refine iff_of_true (fun out hout hgone => absurd ?_ hgone) (.inl hsmall)
    rwa [evictWorst, if_pos hsmall]
  rw [or_iff_right hsmall]
  obtain ⟨worst, hworst, hevict, hlargest⟩ := evictWorst_of_lt (not_le.mp hsmall)
  have hkept {variant} : variant ∈ group.evictWorst.entries ↔
      variant ∈ group.entries ∧ variant.1 ≠ worst.1 := by
    rw [hevict, entries_erase, mem_filter, decide_eq_true_iff]
  -- keys of one rank are one key, so that only the worst variant goes
  have hsame {variant} (hmem : variant ∈ group.entries)
      (hkey : variant.1 = worst.1) : variant = worst :=
    group.nodupKeys.eq_of_fst_eq hmem hworst hkey
  constructor
  · intro hspares out hout hblock hlast other hother
    have hkey : out.1 = worst.1 := foliageRank_injective
      (le_antisymm (hlargest out hout) (hlast worst hworst))
    by_cases hself : other.1 = worst.1
    · rwa [hsame hother hself, ← hsame hout hkey]
    · exact (hspares out hout (fun hmem => (hkept.mp hmem).2 hkey) hblock
        other (hkept.mpr ⟨hother, hself⟩)).1
  · intro hstands out hout hgone hblock other hother
    obtain rfl : out = worst := by
      by_contra hne
      exact hgone (hkept.mpr ⟨hout, mt (hsame hout) hne⟩)
    have hmem := (hkept.mp hother).1
    exact ⟨hstands out hout hblock hlargest other hmem, hlargest other hmem⟩

/-- There are at most 20 variants. -/
def Bounded (group : UnfinishedGroup B) : Prop :=
  group.entries.length ≤ maxPerRewardHash

theorem Bounded.evictWorst_eq (h : group.Bounded) : group.evictWorst = group :=
  if_pos h

/-- A variant is added, and the worst one leaves. -/
theorem Bounded.added (h : group.Bounded) (key : Option Bytes32)
    (entry : UnfinishedBlockEntry B) :
    Bounded (evictWorst (group.insert key entry)) := by
  by_cases hsmall : Bounded (group.insert key entry)
  · rwa [hsmall.evictWorst_eq]
  · obtain ⟨worst, hworst, hevict, -⟩ := evictWorst_of_lt (Nat.not_le.mp hsmall)
    have hgrown : (group.insert key entry).entries.length ≤
        group.entries.length + 1 :=
      Nat.add_le_add_right (kerase_sublist _ _).length_le 1
    have hshrunk := length_erase (AList.mem_lookup_iff.mpr hworst)
    rw [hevict]
    unfold Bounded at *
    omega

end UnfinishedGroup

namespace UnfinishedCache

variable {cache : UnfinishedCache B}

theorem bounded_getD (h : All Bounded cache) (rewardHash : Bytes32) :
    Bounded ((cache.lookup rewardHash).getD ∅) := by
  cases hgroup : cache.lookup rewardHash with
  | none => exact Nat.zero_le _
  | some group => exact h _ (AList.mem_lookup_iff.mp hgroup)

variable (foliageOf : B → Option Bytes32)

/-- Every call keeps the groups bounded. -/
theorem bounded_call (h : All Bounded cache) (c : Call B) :
    All Bounded (cache.call foliageOf c) := by
  cases c with
  | markRequesting rewardHash foliage =>
    have hgroup := bounded_getD h rewardHash
    refine h.insert ?_ rewardHash
    split_ifs
    · rwa [hgroup.evictWorst_eq]
    · exact hgroup.added foliage _
  | addBlock partialHash height block requiredIters =>
    exact h.insert ((bounded_getD h _).added _ _) partialHash
  | removeRequesting rewardHash foliage =>
    have herased (group : UnfinishedGroup B) (hgroup : group.Bounded) :
        Bounded (group.erase foliage) :=
      (kerase_sublist _ _).length_le.trans hgroup
    rw [UnfinishedCache.call, removeRequesting]
    cases hgroup : cache.lookup rewardHash with
    | none => exact h
    | some group =>
      have hbounded : Bounded group := h _ (AList.mem_lookup_iff.mp hgroup)
      dsimp only
      split_ifs
      · exact h.erase rewardHash
      · exact h.insert (herased group hbounded) rewardHash
      · exact h.erase rewardHash
      · exact h.insert hbounded rewardHash
  | pruneBelow height =>
    refine all_retain.mpr fun row hrow group hgroup => ?_
    dsimp only at hgroup
    split_ifs at hgroup
    cases hgroup
    exact (length_filterMap_le _ _).trans (h row hrow)

theorem bounded_run (calls : List (Call B)) :
    All Bounded (run foliageOf calls) :=
  foldlRecOn calls _ (motive := All Bounded) nofun fun _ h c _ =>
    bounded_call foliageOf h c

/-- What a group is pruned to is higher exactly where its placeholders are. -/
theorem pruneGroup_spec {group : UnfinishedGroup B} {height : UInt32} :
    All (fun entry => height < entry.height) (pruneGroup height group) ↔
      All (fun entry => entry.block = none → height < entry.height) group := by
  rw [pruneGroup, all_retain]
  refine forall₂_congr fun variant _ => ⟨fun h hnone => ?_, fun h kept hkept => ?_⟩
  · exact h _ (if_pos (.inr (isNone_iff_eq_none.mpr hnone)))
  · split_ifs at hkept with hkeep
    cases hkept
    exact hkeep.elim id fun hnone => h (isNone_iff_eq_none.mp hnone)

/-- Pruning leaves the higher blocks only, exactly where no placeholder is at
the height or below. -/
theorem pruneBelow_spec (height : UInt32) :
    All (All fun entry => height < entry.height) (cache.pruneBelow height) ↔
      All (All fun entry => entry.block = none → height < entry.height)
        cache := by
  rw [pruneBelow, all_retain]
  refine forall₂_congr fun row _ => Iff.trans ?_ pruneGroup_spec
  dsimp only
  split_ifs with hempty
  · rw [List.isEmpty_iff] at hempty
    exact iff_of_true nofun fun variant hmem => by
      rw [hempty] at hmem
      cases hmem
  · exact ⟨fun h => h _ rfl, fun h kept hkept => Option.some.inj hkept ▸ h⟩

/-- A group never has more than 20 variants.  `get_block` finds the best block
of a group exactly where a received block has a foliage hash or the group is
of one; evictions spare the received blocks exactly in a group that is not too
large or in which a received block of the largest hash has no placeholder
beside it; and pruning is complete exactly where no placeholder is at the
height or below. -/
theorem unfinishedCache_keyed (foliageOf : B → Option Bytes32)
    (calls : List (Call B)) :
    (∀ rewardHash group, (run foliageOf calls).lookup rewardHash = some group →
      group.entries.length ≤ maxPerRewardHash ∧
      ((∃ variant ∈ group.entries, variant.2.block ≠ none) →
        ((∃ block, (run foliageOf calls).getBlock rewardHash = some block ∧
            group.Best block) ↔
          group.entries.length = 1 ∨ ∃ variant ∈ group.entries,
            variant.1 ≠ none ∧ variant.2.block ≠ none))) ∧
    (∀ group : UnfinishedGroup B, group.SparesBlocks ↔
      group.entries.length ≤ maxPerRewardHash ∨ group.WorstStands) ∧
    ∀ height, All (All fun entry => height < entry.height)
        ((run foliageOf calls).pruneBelow height) ↔
      All (All fun entry => entry.block = none → height < entry.height)
        (run foliageOf calls) := by
  refine ⟨fun rewardHash group hgroup => ⟨?_, fun hreceived => ?_⟩,
    fun _ => sparesBlocks_iff, pruneBelow_spec⟩
  · exact bounded_run foliageOf calls _ (AList.mem_lookup_iff.mp hgroup)
  · rw [← findBest_spec hreceived, getBlock, hgroup]
    rfl

/-- A block that waits beside a request is found. -/
theorem unfinishedCache_keyed_beside_request :
    let cache := run id [.addBlock .zero 5 (some (.ofVec [1])) 0,
      .markRequesting .zero (some .zero)]
    ∃ group, cache.lookup .zero = some group ∧ group.entries.length = 2 ∧
      ∃ block, cache.getBlock .zero = some block ∧ group.Best block := by
  refine ⟨_, rfl, rfl, (((unfinishedCache_keyed id _).1 _ _ rfl).2 ?_).mpr
    (.inr ?_)⟩ <;> decide +kernel

/-- A request hides the block that was received without a foliage hash; twenty
requests drive out the block they were made for; and a request outlives its
height. -/
theorem unfinishedCache_hides_blocks :
    getBlock (run id [.addBlock .zero 5 none 0]) .zero = some none ∧
    getBlock (run id [.addBlock .zero 5 none 0,
      .markRequesting .zero (some .zero)]) .zero = none ∧
    getBlock (run id (.addBlock .zero 5 (some (.ofVec [20])) 0 ::
      (range 20).map fun n => .markRequesting .zero
        (some (.ofVec [UInt8.ofNat n])))) .zero = none ∧
    ((run (B := Unit) (fun _ => none) [.markRequesting .zero none,
      .pruneBelow 5]).lookup .zero).isSome = true := by
  decide +kernel

end UnfinishedCache

end DgXch
