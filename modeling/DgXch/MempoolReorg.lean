/-
The books when the chain moves.  A fast-forward spend is filed under the
version of its singleton that it rides on, so a new peak re-keys resident items.
`revalidate_for_reorg` moves spends one by one, and the index is right again at
the end only if no other spend of the item stays on a coin that one has left.
-/
import DgXch.MempoolBooks

namespace DgXch

open KeyedTable List Mempool AList BundleCoinSpend

variable {bcs : BundleCoinSpend} {item : MempoolItem} {store : CoinStoreReads}
  {coinId : Bytes32} {lineage : UnspentLineageInfo}

variable {sha256 : HashFn} {puzzleHashOf : Bytes32 → Bytes32} {m : Mempool}

section Parts

theorem modifyItem_of_lookup {name : Bytes32}
    (hitem : m.items.lookup name = some item)
    (change : MempoolItem → MempoolItem) :
    m.modifyItem name change =
      { m with items := m.items.insert name (change item) } := by
  unfold modifyItem
  rw [hitem]

/-- A spend whose lineage has moved is a fast-forward spend, so that an item
still agrees with the others. -/
theorem MempoolItem.Agrees.moved {item moved other : MempoolItem}
    (h : item.Agrees sha256 other) (hmoved : item.Moved moved) :
    moved.Agrees sha256 other := by
  intro bcs hbcs bcs' hbcs' hslow
  obtain ⟨old, hold, hof⟩ := forall₂_mem_right hmoved.spends hbcs
  rcases hof with rfl | ⟨lineage, rfl⟩
  · exact h bcs hold bcs' hbcs' hslow
  · cases hslow

/-- An item may change its spends' lineages without changing the accounts. -/
theorem Mempool.Accounts.modifyItem (h : m.Accounts sha256 puzzleHashOf)
    {name : Bytes32} (hitem : m.items.lookup name = some item)
    {change : MempoolItem → MempoolItem} (hmoved : item.Moved (change item))
    (haligned : (change item).Aligned sha256 puzzleHashOf) :
    (m.modifyItem name change).Accounts sha256 puzzleHashOf := by
  have hname : (change item).name = item.name := by rw [hmoved.rest]
  have hcosts : (change item).cost.toNat = item.cost.toNat := by
    rw [hmoved.rest]
  have hfees : (change item).fee.toNat = item.fee.toNat := by rw [hmoved.rest]
  rw [modifyItem_of_lookup hitem]
  refine { h with
    totalCost_eq := ?_
    totalFee_eq := ?_
    named := ?_
    aligned := ?_
    paired := ?_ }
  · exact h.totalCost_eq.trans
      (total_insert_of_lookup (fun item => item.cost.toNat) hitem hcosts).symm
  · exact h.totalFee_eq.trans
      (total_insert_of_lookup (fun item => item.fee.toNat) hitem hfees).symm
  · intro other found hfound
    rcases lookup_of_insert hfound with ⟨rfl, rfl⟩ | ⟨-, hold⟩
    · exact hname.trans (h.named other item hitem)
    · exact h.named other found hold
  · intro other found hfound
    rcases lookup_of_insert hfound with ⟨-, rfl⟩ | ⟨-, hold⟩
    · exact haligned
    · exact h.aligned other found hold
  · intro left found right found' hfound hfound' hne
    rcases lookup_of_insert hfound with ⟨rfl, rfl⟩ | ⟨-, hleft⟩ <;>
      rcases lookup_of_insert hfound' with ⟨rfl, rfl⟩ | ⟨-, hright⟩
    · exact absurd rfl hne
    · exact (h.paired left item right found' hitem hright hne).moved hmoved
    · exact ((h.paired right item left found hitem hleft
        hne.symm).moved hmoved).symm
    · exact h.paired left found right found' hleft hright hne

end Parts

section Rebase

variable {spend : Bytes32}

theorem ridesOn_iff :
    bcs.ridesOn coinId = true ↔ ∃ lineage,
      bcs.latestSingletonLineage = some lineage ∧ lineage.coinId = coinId := by
  unfold ridesOn
  cases bcs.latestSingletonLineage <;> simp

theorem BundleCoinSpend.indexKey_of_ridesOn (h : bcs.ridesOn coinId = true) :
    bcs.indexKey sha256 = coinId := by
  obtain ⟨lineage, hlineage, rfl⟩ := ridesOn_iff.mp h
  unfold indexKey
  rw [hlineage]

/-- A spend that is filed under a coin rides on it or is a plain spend of it. -/
theorem BundleCoinSpend.ridesOn_or_plain (bcs : BundleCoinSpend) :
    bcs.ridesOn (bcs.indexKey sha256) = true ∨
      (bcs.supportsFastForward = false ∧
        bcs.indexKey sha256 = bcs.coinId sha256) := by
  unfold indexKey ridesOn supportsFastForward
  cases bcs.latestSingletonLineage <;> simp

theorem MempoolItem.Aligned.puzzleHash_of_ridesOn
    (h : item.Aligned sha256 puzzleHashOf) (hbcs : bcs ∈ item.bundleCoinSpends)
    (hrides : bcs.ridesOn coinId = true) :
    puzzleHashOf coinId = bcs.coinSpend.coin.puzzleHash := by
  obtain ⟨lineage, hlineage, rfl⟩ := ridesOn_iff.mp hrides
  exact h.lineage bcs hbcs lineage hlineage

def BundleCoinSpend.rebased (spend : Bytes32) (lineage : UnspentLineageInfo)
    (bcs : BundleCoinSpend) : BundleCoinSpend :=
  if bcs.ridesOn spend then
    { bcs with latestSingletonLineage := some lineage }
  else bcs

theorem rebased_of_ridesOn (h : bcs.ridesOn spend = true) :
    bcs.rebased spend lineage =
      { bcs with latestSingletonLineage := some lineage } := if_pos h

theorem rebased_of_not (h : ¬ bcs.ridesOn spend = true) :
    bcs.rebased spend lineage = bcs := if_neg h

theorem rebased_coinSpend :
    (bcs.rebased spend lineage).coinSpend = bcs.coinSpend := by
  unfold rebased
  split_ifs <;> rfl

theorem rebased_supportsFastForward :
    (bcs.rebased spend lineage).supportsFastForward =
      bcs.supportsFastForward := by
  unfold rebased
  split_ifs with hrides
  · obtain ⟨old, hold, -⟩ := ridesOn_iff.mp hrides
    unfold BundleCoinSpend.supportsFastForward
    rw [hold]
    rfl
  · rfl

theorem mem_rebase :
    bcs ∈ (item.rebase spend lineage).bundleCoinSpends ↔
      ∃ old ∈ item.bundleCoinSpends, old.rebased spend lineage = bcs :=
  mem_map

theorem rebased_lineage {new : UnspentLineageInfo}
    (h : (bcs.rebased spend lineage).latestSingletonLineage = some new) :
    bcs.ridesOn spend = true ∧ new = lineage ∨
      ¬ bcs.ridesOn spend = true ∧ bcs.latestSingletonLineage = some new := by
  unfold rebased at h
  split_ifs at h with hrides
  · exact .inl ⟨hrides, (Option.some.inj h).symm⟩
  · exact .inr ⟨hrides, h⟩

/-- The spends on one version move together. -/
theorem MempoolItem.Single.rebase (h : item.Single) :
    (item.rebase spend lineage).Single := by
  intro _ hmem _ hmem' new new' hnew hnew' hsame
  obtain ⟨bcs, hbcs, rfl⟩ := mem_rebase.mp hmem
  obtain ⟨bcs', hbcs', rfl⟩ := mem_rebase.mp hmem'
  rw [rebased_coinSpend, rebased_coinSpend] at hsame
  rcases rebased_lineage hnew with ⟨hrides, rfl⟩ | ⟨hstays, hold⟩ <;>
    rcases rebased_lineage hnew' with ⟨hrides', rfl⟩ | ⟨hstays', hold'⟩
  · rfl
  · obtain ⟨old, hriding, rfl⟩ := ridesOn_iff.mp hrides
    exact absurd (ridesOn_iff.mpr ⟨new', hold',
      (h bcs hbcs bcs' hbcs' old new' hriding hold' hsame).symm⟩) hstays'
  · obtain ⟨old, hriding, rfl⟩ := ridesOn_iff.mp hrides'
    exact absurd (ridesOn_iff.mpr ⟨new, hold,
      h bcs hbcs bcs' hbcs' new old hold hriding hsame⟩) hstays
  · exact h bcs hbcs bcs' hbcs' new new' hold hold' hsame

section

variable (h : item.Aligned sha256 puzzleHashOf)
  (hlineage : puzzleHashOf lineage.coinId = puzzleHashOf spend)

include h hlineage

theorem MempoolItem.Aligned.rebase :
    (item.rebase spend lineage).Aligned sha256 puzzleHashOf where
  removals := by
    change item.removals =
      (item.bundleCoinSpends.map (rebased spend lineage)).map _
    rw [h.removals, map_map]
    apply map_congr_left
    intro bcs _
    exact congrArg (fun c : CoinSpend => c.coin.name sha256)
      rebased_coinSpend.symm
  nodup := h.nodup
  lineage := by
    intro bcs hbcs new hnew
    obtain ⟨old, hold, rfl⟩ := mem_rebase.mp hbcs
    rw [rebased_coinSpend]
    by_cases hrides : old.ridesOn spend = true
    · rw [rebased_of_ridesOn hrides] at hnew
      cases hnew
      rw [hlineage]
      exact h.puzzleHash_of_ridesOn hold hrides
    · rw [rebased_of_not hrides] at hnew
      exact h.lineage old hold new hnew

/-- Rebasing takes an item off one coin and files it under another, if no plain
spend of it stays on the first and some spend arrives at the second. -/
theorem MempoolItem.Aligned.mem_indexKeys_rebase
    (hplain : ∀ bcs ∈ item.bundleCoinSpends, bcs.coinId sha256 = spend →
      bcs.supportsFastForward = true)
    (harrives : ∃ bcs ∈ item.bundleCoinSpends, bcs.ridesOn spend = true ∨
      bcs.latestSingletonLineage = some lineage) (key : Bytes32) :
    key ∈ (item.rebase spend lineage).indexKeys sha256 ↔
      (key ∈ item.indexKeys sha256 ∧ key ≠ spend) ∨ key = lineage.coinId := by
  rw [(h.rebase hlineage).mem_indexKeys, h.mem_indexKeys]
  constructor
  · rintro ⟨bcs, hbcs, rfl⟩
    obtain ⟨old, hold, rfl⟩ := mem_rebase.mp hbcs
    by_cases hrides : old.ridesOn spend = true
    · rw [rebased_of_ridesOn hrides]
      exact .inr rfl
    · rw [rebased_of_not hrides]
      refine .inl ⟨⟨old, hold, rfl⟩, ?_⟩
      rintro rfl
      rcases old.ridesOn_or_plain with hrides' | ⟨hslow, hkey⟩
      · exact hrides hrides'
      · rw [hplain old hold hkey.symm] at hslow
        cases hslow
  · rintro (⟨⟨old, hold, rfl⟩, hne⟩ | rfl)
    · have hrides : ¬ old.ridesOn spend = true := fun hrides =>
        hne (indexKey_of_ridesOn hrides)
      exact ⟨old, mem_rebase.mpr ⟨old, hold, rebased_of_not hrides⟩, rfl⟩
    · obtain ⟨old, hold, harrives⟩ := harrives
      refine ⟨old.rebased spend lineage, mem_rebase.mpr ⟨old, hold, rfl⟩, ?_⟩
      by_cases hrides : old.ridesOn spend = true
      · rw [rebased_of_ridesOn hrides]
        rfl
      · rw [rebased_of_not hrides]
        unfold indexKey
        rw [harrives.resolve_left hrides]

end

end Rebase

section NewPeak

variable {seams : MempoolSeams}
  {lineageOf : Bytes32 → Option UnspentLineageInfo}

/-- A lookup of phase C that is still to be carried out, or that an earlier one
for the same coin has carried out. -/
structure Pends (sha256 : HashFn) (puzzleHashOf : Bytes32 → Bytes32)
    (lineageOf : Bytes32 → Option UnspentLineageInfo) (m : Mempool)
    (lookup : Mempool.FfLookup) (item : MempoolItem) : Prop where
  puzzleHash : puzzleHashOf lookup.spend = lookup.puzzleHash
  resident : m.items.lookup lookup.owner = some item
  plain : ∀ bcs ∈ item.bundleCoinSpends, bcs.coinId sha256 = lookup.spend →
    bcs.supportsFastForward = true
  rider : ∃ bcs ∈ item.bundleCoinSpends, bcs.ridesOn lookup.spend = true ∨
    (bcs.latestSingletonLineage.isSome ∧
      bcs.latestSingletonLineage = lineageOf lookup.puzzleHash)

/-- One rebase together with its index update. -/
def Mempool.rebaseOne (m : Mempool) (lookup : Mempool.FfLookup)
    (lineage : UnspentLineageInfo) : Mempool :=
  (m.modifyItem lookup.owner
    (MempoolItem.rebase · lookup.spend lineage)).applyIndexUpdate
      ⟨lineage.coinId, lookup.spend, lookup.owner⟩

section

variable (h : m.Kept sha256 puzzleHashOf)
  (htruth : ∀ puzzleHash lineage, lineageOf puzzleHash = some lineage →
    puzzleHashOf lineage.coinId = puzzleHash)
  {lookup : Mempool.FfLookup}
  (hpends : Pends sha256 puzzleHashOf lineageOf m lookup item)
  (hlineage : lineageOf lookup.puzzleHash = some lineage)

include h htruth hpends hlineage

/-- A rebase with its index update keeps the books. -/
theorem Mempool.Kept.rebaseOne :
    (m.rebaseOne lookup lineage).Kept sha256 puzzleHashOf := by
  have hitem := hpends.resident
  have haligned := h.aligned lookup.owner item hitem
  have hsame : puzzleHashOf lineage.coinId = puzzleHashOf lookup.spend := by
    rw [htruth _ _ hlineage, hpends.puzzleHash]
  have haccounts : (m.modifyItem lookup.owner
      (MempoolItem.rebase · lookup.spend lineage)).Accounts sha256 puzzleHashOf :=
    h.toAccounts.modifyItem hitem (item.rebase_moved _) (haligned.rebase hsame)
  have hindex := h.index.rekey hitem
    (haligned.mem_indexKeys_rebase hsame hpends.plain (by
      obtain ⟨bcs, hbcs, hrider⟩ := hpends.rider
      refine ⟨bcs, hbcs, hrider.imp_right fun hsettled => ?_⟩
      rw [hsettled.2, hlineage]))
  unfold Mempool.rebaseOne
  rw [modifyItem_of_lookup hitem] at haccounts ⊢
  refine ⟨{ haccounts with }, ?_, fun other found hfound => ?_⟩
  · exact hindex
  · rcases lookup_of_insert hfound with ⟨-, rfl⟩ | ⟨-, hold⟩
    · exact (h.single _ item hitem).rebase
    · exact h.single other found hold

/-- A rebase keeps the other lookups on their way. -/
theorem Pends.rebaseOne {other : FfLookup} {item' : MempoolItem}
    (hother : Pends sha256 puzzleHashOf lineageOf m other item') :
    ∃ item'', Pends sha256 puzzleHashOf lineageOf
      (m.rebaseOne lookup lineage) other item'' := by
  have hitems : (m.rebaseOne lookup lineage).items = m.items.insert
      lookup.owner (item.rebase lookup.spend lineage) := by
    rw [Mempool.rebaseOne, modifyItem_of_lookup hpends.resident]
    rfl
  by_cases howner : other.owner = lookup.owner
  · have hsame : item' = item := by
      have hresident := hother.resident
      rw [howner, hpends.resident] at hresident
      exact (Option.some.inj hresident).symm
    subst hsame
    have haligned := h.aligned lookup.owner item' hpends.resident
    refine ⟨item'.rebase lookup.spend lineage, hother.puzzleHash, ?_, ?_, ?_⟩
    · rw [hitems, howner, lookup_insert]
    · intro bcs hbcs hcoin
      obtain ⟨old, hold, rfl⟩ := mem_rebase.mp hbcs
      rw [rebased_supportsFastForward]
      apply hother.plain old hold
      rwa [coinId, rebased_coinSpend] at hcoin
    · obtain ⟨old, hold, hrider⟩ := hother.rider
      refine ⟨old.rebased lookup.spend lineage, mem_rebase.mpr ⟨old, hold, rfl⟩,
        ?_⟩
      by_cases hrides : old.ridesOn lookup.spend = true
      · -- the rebase moved this spend too, to the lineage of its puzzle hash
        have hhash : lookup.puzzleHash = other.puzzleHash := by
          rw [← hpends.puzzleHash]
          rcases hrider with hrider | ⟨hsome, hsettled⟩
          · obtain ⟨lineage', hlineage', hid⟩ := ridesOn_iff.mp hrides
            obtain ⟨lineage'', hlineage'', hid'⟩ := ridesOn_iff.mp hrider
            cases hlineage'.symm.trans hlineage''
            rw [← hid, hid', hother.puzzleHash]
          · obtain ⟨settled, hsome⟩ := Option.isSome_iff_exists.mp hsome
            rw [haligned.puzzleHash_of_ridesOn hold hrides,
              ← haligned.lineage old hold settled hsome]
            exact htruth _ _ (hsettled.symm.trans hsome)
        right
        rw [rebased_of_ridesOn hrides, ← hhash, hlineage]
        exact ⟨rfl, rfl⟩
      · rw [rebased_of_not hrides]
        exact hrider
  · refine ⟨item', hother.puzzleHash, ?_, hother.plain, hother.rider⟩
    rw [hitems, lookup_insert_ne howner]
    exact hother.resident

end

/-- The pool after the index updates that have been collected. -/
def Mempool.Rebased.settled (state : Mempool.Rebased) : Mempool :=
  state.updates.foldl Mempool.applyIndexUpdate state.pool

/-- A turn of phase C changes nothing in the settled pool, or rebases one
lookup. -/
theorem rebaseStep_settled (state : Rebased) (lookup : FfLookup) :
    (rebaseStep lineageOf state lookup).settled = state.settled ∨
      ∃ lineage, lineageOf lookup.puzzleHash = some lineage ∧
        (rebaseStep lineageOf state lookup).settled =
          state.settled.rebaseOne lookup lineage := by
  unfold rebaseStep
  split_ifs
  · exact .inl rfl
  split
  · exact .inl rfl
  · rename_i lineage hlineage
    refine .inr ⟨lineage, hlineage, ?_⟩
    unfold Rebased.settled rebaseOne
    dsimp only
    rw [foldl_append, foldl_hom (fun m : Mempool =>
      m.modifyItem lookup.owner fun item => item.rebase lookup.spend lineage)]
    · rfl
    · intro m update
      unfold modifyItem applyIndexUpdate
      cases m.items.lookup lookup.owner <;> rfl

/-- Phase C as a whole keeps the books. -/
theorem foldl_rebaseStep_kept
    (htruth : ∀ puzzleHash lineage, lineageOf puzzleHash = some lineage →
      puzzleHashOf lineage.coinId = puzzleHash)
    (lookups : List FfLookup) (state : Rebased)
    (h : state.settled.Kept sha256 puzzleHashOf)
    (hpends : ∀ lookup ∈ lookups, ∃ item,
      Pends sha256 puzzleHashOf lineageOf state.settled lookup item) :
    (lookups.foldl (rebaseStep lineageOf) state).settled.Kept sha256
      puzzleHashOf := by
  induction lookups generalizing state with
  | nil => exact h
  | cons head tail ih =>
    obtain ⟨item, hhead⟩ := hpends head mem_cons_self
    have htail : ∀ lookup ∈ tail, ∃ item,
        Pends sha256 puzzleHashOf lineageOf state.settled lookup item :=
      fun lookup hlookup => hpends lookup (mem_cons_of_mem _ hlookup)
    rw [foldl_cons]
    apply ih
    · rcases rebaseStep_settled state head with heq | ⟨lineage, hlineage, heq⟩
      · rwa [heq]
      · rw [heq]
        exact h.rebaseOne htruth hhead hlineage
    · intro lookup hlookup
      obtain ⟨item', hlookup⟩ := htail lookup hlookup
      rcases rebaseStep_settled state head with heq | ⟨lineage, hlineage, heq⟩
      · rw [heq]
        exact ⟨item', hlookup⟩
      · rw [heq]
        exact Pends.rebaseOne h htruth hhead hlineage hlookup

/-- Spent coins are deferred only for items without a plain spend of them. -/
def Mempool.Deferred (sha256 : HashFn) (m : Mempool)
    (deferred : List (Bytes32 × Bytes32)) : Prop :=
  ∀ d ∈ deferred, ∃ item, m.items.lookup d.2 = some item ∧ ∀ bcs,
    item.bundleCoinSpend sha256 d.1 = some bcs → bcs.supportsFastForward = true

theorem touchSpent_deferred (spent : List Bytes32) :
    m.Deferred seams.sha256 (m.touchSpent seams spent).deferredFf := by
  unfold touchSpent
  refine foldlRecOn (motive := fun touched : Touched =>
    m.Deferred seams.sha256 touched.deferredFf) _ _ (forall_mem_nil _) ?_
  intro touched htouched spend _
  refine foldlRecOn (motive := fun touched : Touched =>
    m.Deferred seams.sha256 touched.deferredFf) _ _ htouched ?_
  intro touched htouched owner _
  unfold touchOwner
  split_ifs
  · exact htouched
  split
  · exact htouched
  rename_i item hitem
  extract_lets fastForward
  split_ifs with hff
  · refine forall_mem_append.mpr ⟨htouched, forall_mem_singleton.mpr ?_⟩
    refine ⟨item, hitem, ?_⟩
    intro bcs hbcs
    simpa only [fastForward, hbcs] using hff
  · exact htouched

/-- What phase A collects: a lookup for each spend that rides on the coin. -/
def Mempool.Riding (sha256 : HashFn) (m : Mempool)
    (lookups : List FfLookup) : Prop :=
  ∀ lookup ∈ lookups, ∃ item, m.items.lookup lookup.owner = some item ∧
    (∀ bcs, item.bundleCoinSpend sha256 lookup.spend = some bcs →
      bcs.supportsFastForward = true) ∧
    ∃ bcs ∈ item.bundleCoinSpends, bcs.ridesOn lookup.spend = true ∧
      bcs.coinSpend.coin.puzzleHash = lookup.puzzleHash

theorem ffLookups_riders {deferred : List (Bytes32 × Bytes32)}
    (hdeferred : m.Deferred sha256 deferred) (toRemove : List Bytes32) :
    m.Riding sha256 (deferred.foldl m.ffLookupsOf (toRemove, [])).2 := by
  refine foldlRecOn (motive := fun state : List Bytes32 × List FfLookup =>
    m.Riding sha256 state.2) _ _ (forall_mem_nil _) ?_
  rintro ⟨toRemove, lookups⟩ hriding ⟨spend, owner⟩ hmem
  obtain ⟨item, hitem, hplain⟩ := hdeferred _ hmem
  unfold ffLookupsOf
  dsimp only at hitem hplain ⊢
  split_ifs
  · exact hriding
  rw [hitem]
  dsimp only
  split
  · exact hriding
  · refine forall_mem_append.mpr ⟨hriding, fun lookup hlookup => ?_⟩
    obtain ⟨bcs, hbcs, rfl⟩ := mem_map.mp hlookup
    obtain ⟨hbcs, hrides⟩ := mem_filter.mp hbcs
    exact ⟨item, hitem, hplain, bcs, hbcs, hrides, rfl⟩

/-- The lineages of phase B are answers of the store. -/
theorem lookupLineages_truthful (hstore : store.Truthful puzzleHashOf)
    {lookups : List FfLookup} (h : lookupLineages store lookups = .ok lineageOf)
    {puzzleHash : Bytes32} (hlineage : lineageOf puzzleHash = some lineage) :
    puzzleHashOf lineage.coinId = puzzleHash := by
  obtain ⟨found, hfound, h⟩ := Except.bind_eq_ok.mp h
  cases h
  rw [Option.join_eq_some_iff, Option.map_eq_some_iff] at hlineage
  obtain ⟨entry, hentry, hanswer⟩ := hlineage
  obtain ⟨asked, -, hasked⟩ :=
    forall₂_mem_right (mapM_ok hfound) (mem_of_find?_eq_some hentry)
  obtain ⟨answer, hread, hentryEq⟩ := Except.bind_eq_ok.mp hasked
  cases hentryEq
  dsimp only at hanswer
  subst hanswer
  have hhash : asked = puzzleHash := by simpa using find?_some hentry
  subst hhash
  exact hstore _ _ (Except.mapError_eq_ok.mp hread)

theorem Mempool.Kept.removeSeen (h : m.Kept sha256 puzzleHashOf)
    (name : Bytes32) : (m.removeSeen name).Kept sha256 puzzleHashOf := by
  have hseen := h.seen.removeSeen name
  unfold Mempool.removeSeen at hseen ⊢
  split_ifs at hseen ⊢
  · exact { h with seen := hseen }
  · exact h

theorem Mempool.Kept.addSeen (h : m.Kept sha256 puzzleHashOf)
    (name : Bytes32) : (m.addSeen name).Kept sha256 puzzleHashOf := by
  have hseen := h.seen.addSeen name
  unfold Mempool.addSeen at hseen ⊢
  split_ifs at hseen ⊢
  · exact h
  · exact { h with seen := hseen }

section

variable (h : m.Kept seams.sha256 puzzleHashOf)
  (hstore : store.Truthful puzzleHashOf)

include h hstore

theorem Mempool.Kept.retryPending (height : UInt32)
    (order : List Bytes32 → List Bytes32) :
    (m.retryPending seams store height order).Kept seams.sha256
      puzzleHashOf := by
  unfold Mempool.retryPending
  refine foldlRecOn (motive := Kept seams.sha256 puzzleHashOf)
    _ _ h ?_
  intro m h name _
  split
  · exact h
  · rename_i entry hentry
    refine Kept.admitBundle ?_ hstore (h.parked name entry hentry)
    refine { h with pending := ?_, parked := ?_ }
    · have hlength := length_erase hentry
      have hcap := h.pending
      dsimp only
      omega
    · intro other entry' hentry'
      exact h.parked other entry' (lookup_of_erase hentry')

theorem Mempool.Kept.retryConflicts (order : List Bytes32 → List Bytes32) :
    (m.retryConflicts seams store order).Kept seams.sha256 puzzleHashOf := by
  unfold Mempool.retryConflicts
  refine foldlRecOn (motive := Kept seams.sha256 puzzleHashOf)
    _ _ ?_ ?_
  · exact { h with
      conflict := .empty _
      setAside := fun _ _ hentry => (lookup_empty_ne_some hentry).elim }
  · intro m' h' name _
    split
    · exact h'
    · rename_i entry hentry
      exact h'.admitBundle hstore (h.setAside name entry hentry)

/-- A new peak keeps the books, whatever the store answers or fails to. -/
theorem Mempool.Kept.newPeak (height : UInt32) (timestamp : UInt64)
    (spent : List Bytes32) (order : List Bytes32 → List Bytes32) :
    (m.newPeak seams store height timestamp spent order).2.Kept seams.sha256
      puzzleHashOf := by
  unfold Mempool.newPeak
  extract_lets moved swept touched
  have hmoved : moved.Kept seams.sha256 puzzleHashOf :=
    { h with }
  have hswept : swept.Kept seams.sha256 puzzleHashOf := hmoved.removeAll _
  split
  rename_i toRemove lookups hlookups
  split
  · exact hswept
  rename_i lineageOf hlineages
  dsimp only
  have hriders :=
    ffLookups_riders (@touchSpent_deferred swept seams spent) touched.toRemove
  rw [hlookups] at hriders
  have hrebased := foldl_rebaseStep_kept
    (fun _ _ => lookupLineages_truthful hstore hlineages) lookups
    ⟨swept, toRemove, []⟩ hswept (by
      intro lookup hlookup
      obtain ⟨item, hitem, hplain, bcs, hbcs, hrides, hhash⟩ :=
        hriders lookup hlookup
      have haligned := hswept.aligned lookup.owner item hitem
      refine ⟨item, ?_, hitem, ?_, bcs, hbcs, .inl hrides⟩
      · rw [haligned.puzzleHash_of_ridesOn hbcs hrides, hhash]
      · intro other hother hcoin
        exact hplain other (hcoin ▸ haligned.bundleCoinSpend hother))
  apply Kept.retryConflicts _ hstore
  apply Kept.retryPending _ hstore
  refine foldlRecOn (motive := Kept seams.sha256 puzzleHashOf)
    _ _ hrebased ?_
  intro m h name _
  exact (h.removeSeen name).remove name

end

end NewPeak

open Option Prod

variable {moves : List (Bytes32 × UnspentLineageInfo)}
  {rebases : List (Bytes32 × Bytes32)}

/-- The records tell of a coin. -/
def Known (sha256 : HashFn) (records : List CoinRecord)
    (coinId : Bytes32) : Prop :=
  ∃ r ∈ records, r.coin.name sha256 = coinId

/-- Where the store moves a fast-forward spend of an item that stays to another
coin, every spend of the item that is filed under the coin it leaves is a
fast-forward spend of a coin the store knows, and so moves too. -/
def MempoolItem.LeavesWhole (seams : MempoolSeams) (store : CoinStoreReads)
    (item : MempoolItem) : Prop :=
  ∀ records, store.getCoinRecords item.removals = .ok records →
    Mempool.reorgVerdict seams item records ≠ none →
    ∀ bcs ∈ item.bundleCoinSpends, ∀ old new,
      bcs.latestSingletonLineage = some old →
      Known seams.sha256 records (bcs.coinId seams.sha256) →
      store.getUnspentLineageInfo bcs.coinSpend.coin.puzzleHash =
        .ok (some new) →
      old.coinId ≠ new.coinId →
      ∀ other ∈ item.bundleCoinSpends,
        other.indexKey seams.sha256 = old.coinId →
        other.supportsFastForward = true ∧
          Known seams.sha256 records (other.coinId seams.sha256)

variable {seams : MempoolSeams} {item : MempoolItem}

section Verdict

variable {records : List CoinRecord}

theorem known_iff :
    Known sha256 records coinId ↔
      ∃ r, records.reverse.find? (fun r : CoinRecord =>
        r.coin.name sha256 = coinId) = some r := by
  rw [← isSome_iff_exists, find?_isSome]
  simp [Known]

theorem removalVerdict_some {created : List Bytes32}
    {verdict : Option (Bytes32 × Bytes32)}
    (h : (match records.reverse.find? fun r : CoinRecord =>
        r.coin.name sha256 = coinId with
      | none => if coinId ∈ created then some none else none
      | some r =>
        match (item.bundleCoinSpend sha256 coinId).filter
            BundleCoinSpend.supportsFastForward with
        | some bcs => some (some (coinId, bcs.coinSpend.coin.puzzleHash))
        | none => if r.spent then none else some none) = some verdict) :
    (verdict = none ∧
      ∀ bcs, item.bundleCoinSpend sha256 coinId = some bcs →
        Known sha256 records coinId → bcs.supportsFastForward = false) ∨
      ∃ bcs, verdict = some (coinId, bcs.coinSpend.coin.puzzleHash) ∧
        item.bundleCoinSpend sha256 coinId = some bcs ∧
        bcs.supportsFastForward = true ∧
        Known sha256 records coinId := by
  split at h
  · rename_i hunknown
    split_ifs at h
    cases h
    refine .inl ⟨rfl, ?_⟩
    intro bcs _ hknown
    obtain ⟨r, hr⟩ := known_iff.mp hknown
    cases hunknown.symm.trans hr
  · rename_i r hr
    split at h
    · rename_i bcs hbcs
      cases h
      obtain ⟨hbcs, hff⟩ := filter_eq_some_iff.mp hbcs
      exact .inr ⟨bcs, rfl, hbcs, hff, known_iff.mpr ⟨r, hr⟩⟩
    · rename_i hslow
      split_ifs at h
      cases h
      refine .inl ⟨rfl, ?_⟩
      intro bcs hbcs _
      rw [hbcs, filter_eq_none_iff] at hslow
      simpa using hslow bcs rfl

/-- The spends to rebase: the fast-forward spends of coins the store knows. -/
theorem reorgVerdict_some (h : reorgVerdict seams item records = some rebases) :
    (rebases.map Prod.fst).Sublist item.removals ∧
      ∀ coinId puzzleHash, (coinId, puzzleHash) ∈ rebases ↔
        coinId ∈ item.removals ∧ Known seams.sha256 records coinId ∧
          ∃ bcs, item.bundleCoinSpend seams.sha256 coinId = some bcs ∧
            bcs.supportsFastForward = true ∧
            bcs.coinSpend.coin.puzzleHash = puzzleHash := by
  unfold reorgVerdict at h
  dsimp only at h
  obtain ⟨verdicts, hverdicts, rfl⟩ := map_eq_some_iff.mp h
  clear h
  generalize item.removals = removals at hverdicts ⊢
  induction removals generalizing verdicts with
  | nil =>
    cases hverdicts
    simp
  | cons coinId removals ih =>
    rw [mapM_cons] at hverdicts
    obtain ⟨verdict, hhead, hverdicts⟩ := bind_eq_some_iff.mp hverdicts
    obtain ⟨verdicts, htail, hverdicts⟩ := bind_eq_some_iff.mp hverdicts
    cases hverdicts
    obtain ⟨hsublist, hmem⟩ := ih verdicts htail
    rcases removalVerdict_some hhead with ⟨rfl, hslow⟩ |
      ⟨bcs, rfl, hbcs, hff, hknown⟩
    · refine ⟨hsublist.cons coinId, ?_⟩
      intro other puzzleHash
      rw [filterMap_cons_none rfl, hmem, mem_cons]
      constructor
      · rintro ⟨hother, hrest⟩
        exact ⟨.inr hother, hrest⟩
      · rintro ⟨rfl | hother, hknown, bcs, hbcs, hff, hhash⟩
        · rw [hslow bcs hbcs hknown] at hff
          cases hff
        · exact ⟨hother, hknown, bcs, hbcs, hff, hhash⟩
    · refine ⟨hsublist.cons_cons coinId, ?_⟩
      intro other puzzleHash
      rw [filterMap_cons, id_eq]
      dsimp only
      rw [mem_cons, mem_cons, hmem]
      constructor
      · rintro (heq | ⟨hother, hrest⟩)
        · cases heq
          exact ⟨.inl rfl, hknown, bcs, hbcs, hff, rfl⟩
        · exact ⟨.inr hother, hrest⟩
      · rintro ⟨rfl | hother, hknown', bcs', hbcs', hff', hhash⟩
        · cases hbcs.symm.trans hbcs'
          exact .inl (by rw [← hhash])
        · exact .inr ⟨hother, hknown', bcs', hbcs', hff', hhash⟩

theorem rebaseLineages_some {store : CoinStoreReads}
    (h : rebaseLineages store rebases = .ok (some moves)) :
    Forall₂ (fun rebase move => move.1 = rebase.1 ∧
      store.getUnspentLineageInfo rebase.2 = .ok (some move.2))
      rebases moves := by
  induction rebases generalizing moves with
  | nil =>
    cases h
    exact .nil
  | cons head tail ih =>
    obtain ⟨coinId, puzzleHash⟩ := head
    obtain ⟨answer, hanswer, h⟩ := Except.bind_eq_ok.mp h
    have hread := Except.mapError_eq_ok.mp hanswer
    cases answer with
    | none => cases h
    | some lineage =>
      obtain ⟨rest, hrest, h⟩ := Except.bind_eq_ok.mp h
      cases rest with
      | none => cases h
      | some rest =>
        cases h
        exact .cons ⟨rfl, hread⟩ (ih hrest)

end Verdict

section Moves

variable {puzzleHashOf : Bytes32 → Bytes32} {store : CoinStoreReads}
  {name : Bytes32} {m : Mempool}

def MempoolItem.moveSpend (sha256 : HashFn) (item : MempoolItem)
    (coinId : Bytes32) (lineage : UnspentLineageInfo) : MempoolItem :=
  { item with bundleCoinSpends := item.bundleCoinSpends.map fun bcs =>
      if bcs.coinId sha256 = coinId then
        { bcs with latestSingletonLineage := some lineage }
      else bcs }

/-- With distinct ids, replacing an element changes the one with its id. -/
theorem replace_eq_map {A B : Type} [DecidableEq A] [DecidableEq B]
    {idOf : A → B} {list : List A} (hnodup : (list.map idOf).Nodup) {a new : A}
    (ha : a ∈ list) :
    list.replace a new =
      list.map fun other => if idOf other = idOf a then new else other := by
  induction list with
  | nil => exact absurd ha not_mem_nil
  | cons head tail ih =>
    obtain ⟨hhead, htail⟩ := nodup_cons.mp hnodup
    rcases mem_cons.mp ha with rfl | ha
    · have hkeep : tail.map (fun other =>
          if idOf other = idOf a then new else other) = tail := by
        refine (map_congr_left fun other hother => ?_).trans (map_id tail)
        exact if_neg fun heq : idOf other = idOf a =>
          hhead (heq ▸ mem_map_of_mem hother)
      simp [hkeep]
    · have hne : idOf head ≠ idOf a := fun heq =>
        hhead (heq ▸ mem_map_of_mem ha)
      have hne' : (a == head) = false := by
        simpa using fun heq : a = head => hne (congrArg idOf heq.symm)
      rw [replace_cons, hne', map_cons, if_neg hne, ih htail ha]

theorem mem_moveSpend {sha256 : HashFn} :
    bcs ∈ (item.moveSpend sha256 coinId lineage).bundleCoinSpends ↔
      ∃ old ∈ item.bundleCoinSpends, (if old.coinId sha256 = coinId then
        { old with latestSingletonLineage := some lineage } else old) = bcs :=
  mem_map

theorem MempoolItem.moveSpend_moved (item : MempoolItem) :
    item.Moved (item.moveSpend sha256 coinId lineage) where
  spends := by
    apply forall₂_map_right_iff.mpr
    apply forall₂_same.mpr
    intro bcs _
    split_ifs
    · exact .inr ⟨lineage, rfl⟩
    · exact .inl rfl
  rest := rfl

section

variable (h : item.Aligned sha256 puzzleHashOf)

include h

theorem MempoolItem.Aligned.spend_unique {left right : BundleCoinSpend}
    (hleft : left ∈ item.bundleCoinSpends)
    (hright : right ∈ item.bundleCoinSpends)
    (hid : left.coinId sha256 = right.coinId sha256) :
    left = right :=
  inj_on_of_nodup_map (h.removals ▸ h.nodup) hleft hright hid

theorem MempoolItem.Aligned.moveSpend (hbcs : bcs ∈ item.bundleCoinSpends)
    (hlineage : puzzleHashOf lineage.coinId = bcs.coinSpend.coin.puzzleHash) :
    (item.moveSpend sha256 (bcs.coinId sha256) lineage).Aligned sha256
      puzzleHashOf where
  removals := by
    unfold MempoolItem.moveSpend
    dsimp only
    rw [h.removals, List.map_map]
    apply List.map_congr_left
    intro other _
    rw [Function.comp_apply]
    split_ifs <;> rfl
  nodup := h.nodup
  lineage := by
    intro moved hmoved new hnew
    obtain ⟨old, hold, rfl⟩ := mem_moveSpend.mp hmoved
    split_ifs at hnew ⊢ with hid
    · cases hnew
      obtain rfl := h.spend_unique hold hbcs hid
      exact hlineage
    · exact h.lineage old hold new hnew

theorem mem_moveSpend_iff {bcs moved : BundleCoinSpend}
    (hbcs : bcs ∈ item.bundleCoinSpends) :
    moved ∈ (item.moveSpend sha256 (bcs.coinId sha256)
      lineage).bundleCoinSpends ↔
      moved = { bcs with latestSingletonLineage := some lineage } ∨
        (moved ∈ item.bundleCoinSpends ∧ moved ≠ bcs) := by
  rw [mem_moveSpend]
  constructor
  · rintro ⟨old, hold, rfl⟩
    split_ifs with hid
    · rw [h.spend_unique hold hbcs hid]
      exact .inl rfl
    · refine .inr ⟨hold, ?_⟩
      rintro rfl
      exact hid rfl
  · rintro (rfl | ⟨hmoved, hne⟩)
    · exact ⟨bcs, hbcs, if_pos rfl⟩
    · exact ⟨moved, hmoved, if_neg fun hid =>
        hne (h.spend_unique hmoved hbcs hid)⟩

end

/-- The state of the loop over the moves of one item.  The index may miss an
item at the key of a spend that is still to be moved away from it. -/
structure Moving (sha256 : HashFn) (puzzleHashOf : Bytes32 → Bytes32)
    (store : CoinStoreReads) (name : Bytes32)
    (moves : List (Bytes32 × UnspentLineageInfo)) (m : Mempool)
    (item : MempoolItem) : Prop where
  accounts : m.Accounts sha256 puzzleHashOf
  resident : m.items.lookup name = some item
  tidy : Tidy m.byCoin
  others : ∀ key other, other ≠ name → (other ∈ owners m.byCoin key ↔
    ∃ row, m.items.lookup other = some row ∧ key ∈ row.indexKeys sha256)
  sound : ∀ key, name ∈ owners m.byCoin key →
    ∃ bcs ∈ item.bundleCoinSpends, bcs.indexKey sha256 = key
  complete : ∀ bcs ∈ item.bundleCoinSpends,
    (∀ lineage, (bcs.coinId sha256, lineage) ∈ moves →
      lineage.coinId = bcs.indexKey sha256) →
    name ∈ owners m.byCoin (bcs.indexKey sha256)
  nodup : (moves.map Prod.fst).Nodup
  spend : ∀ move ∈ moves, ∃ bcs ∈ item.bundleCoinSpends,
    bcs.coinId sha256 = move.1 ∧ bcs.latestSingletonLineage.isSome ∧
      Names store bcs move.2
  leaves : ∀ move ∈ moves, ∀ bcs ∈ item.bundleCoinSpends,
    bcs.coinId sha256 = move.1 → bcs.indexKey sha256 ≠ move.2.coinId →
    ∀ other ∈ item.bundleCoinSpends,
      other.indexKey sha256 = bcs.indexKey sha256 →
      other.coinId sha256 ∈ moves.map Prod.fst ∨
        ∃ lineage, other.latestSingletonLineage = some lineage ∧
          Names store other lineage

/-- What one move does to the pool. -/
theorem rebaseSpend_eq (haligned : item.Aligned seams.sha256 puzzleHashOf)
    (hitem : m.items.lookup name = some item)
    (hbcs : bcs ∈ item.bundleCoinSpends) {old : UnspentLineageInfo}
    (hold : bcs.latestSingletonLineage = some old) :
    m.rebaseSpend seams name (bcs.coinId seams.sha256) lineage =
      { m with
        items := m.items.insert name
          (item.moveSpend seams.sha256 (bcs.coinId seams.sha256) lineage)
        byCoin := if old.coinId = lineage.coinId then m.byCoin
          else KeyedTable.addOwner name
            (KeyedTable.dropOwner name m.byCoin old.coinId) lineage.coinId } := by
  have hnodup : (item.bundleCoinSpends.map
      (coinId seams.sha256)).Nodup := haligned.removals ▸
    haligned.nodup
  have hreplace : ({ item with
      bundleCoinSpends := item.bundleCoinSpends.replace bcs
        { bcs with latestSingletonLineage := some lineage } } : MempoolItem) =
      item.moveSpend seams.sha256 (bcs.coinId seams.sha256) lineage := by
    unfold MempoolItem.moveSpend
    congr 1
    rw [replace_eq_map hnodup hbcs]
    apply map_congr_left
    intro other hother
    split_ifs with hid
    · rw [haligned.spend_unique hother hbcs hid]
    · rfl
  unfold rebaseSpend
  rw [hitem, bind_some, haligned.bundleCoinSpend hbcs]
  dsimp only
  rw [hold, modifyItem_of_lookup hitem, hreplace]
  dsimp only
  split_ifs <;> rfl

/-- With no move left the index is right. -/
theorem Moving.index (h : Moving sha256 puzzleHashOf store name [] m item) :
    IndexFor (MempoolItem.indexKeys sha256) m.items m.byCoin := by
  have haligned := h.accounts.aligned name item h.resident
  refine ⟨?_, h.tidy⟩
  intro key other
  by_cases hother : other = name
  · subst hother
    simp only [h.resident, Option.some.injEq, exists_eq_left']
    rw [haligned.mem_indexKeys]
    constructor
    · exact h.sound key
    · rintro ⟨bcs, hbcs, rfl⟩
      exact h.complete bcs hbcs (by simp)
  · exact h.others key other hother

/-- The moves that are found for an item put its loop into its first state. -/
theorem Mempool.Kept.moving (h : m.Kept seams.sha256 puzzleHashOf)
    (hitem : m.items.lookup name = some item)
    (hleaves : item.LeavesWhole seams store) {records : List CoinRecord}
    (hrecords : store.getCoinRecords item.removals = .ok records)
    (hverdict : reorgVerdict seams item records = some rebases)
    (hmoves : rebaseLineages store rebases = .ok (some moves)) :
    Moving seams.sha256 puzzleHashOf store name moves m item := by
  have haligned := h.aligned name item hitem
  obtain ⟨hsublist, hrebases⟩ := reorgVerdict_some hverdict
  have hpairs := rebaseLineages_some hmoves
  have hfst : moves.map fst = rebases.map fst :=
    forall₂_map_eq (fun _ _ hpair => hpair.1) hpairs
  refine ⟨h.toAccounts, hitem, h.index.tidy, ?_, ?_, ?_, ?_, ?_, ?_⟩
  · exact fun key other _ => h.index.mem_owners
  · intro key howned
    obtain ⟨row, hrow, hkey⟩ := h.index.mem_owners.mp howned
    cases hitem.symm.trans hrow
    exact haligned.mem_indexKeys.mp hkey
  · intro bcs hbcs _
    exact h.index.mem_owners.mpr
      ⟨item, hitem, haligned.mem_indexKeys.mpr ⟨bcs, hbcs, rfl⟩⟩
  · rw [hfst]
    exact haligned.nodup.sublist hsublist
  · intro move hmove
    obtain ⟨⟨coinId, puzzleHash⟩, hrebase, hid, hread⟩ :=
      forall₂_mem_right hpairs hmove
    obtain ⟨-, -, bcs, hbcs, hff, rfl⟩ := (hrebases coinId puzzleHash).mp hrebase
    have hbcsId : bcs.coinId seams.sha256 = coinId := by
      simpa using find?_some hbcs
    exact ⟨bcs, mem_of_find?_eq_some hbcs, hbcsId.trans hid.symm, hff, hread⟩
  · intro move hmove bcs hbcs hid hne other hother heq
    obtain ⟨⟨coinId, puzzleHash⟩, hrebase, hid', hread⟩ :=
      forall₂_mem_right hpairs hmove
    dsimp only at hid' hread
    obtain ⟨-, hknown, found, hfound, hff, rfl⟩ :=
      (hrebases coinId puzzleHash).mp hrebase
    have hbcsId : bcs.coinId seams.sha256 = coinId := hid.trans hid'
    subst hbcsId
    rw [haligned.bundleCoinSpend hbcs] at hfound
    cases hfound
    obtain ⟨old, hold⟩ := isSome_iff_exists.mp hff
    have hkey : bcs.indexKey seams.sha256 = old.coinId := by
      unfold indexKey
      rw [hold]
    obtain ⟨hotherFf, hotherKnown⟩ := hleaves records hrecords
      (hverdict ▸ some_ne_none rebases) bcs hbcs old move.2 hold hknown
      hread (hkey ▸ hne) other hother (heq.trans hkey)
    left
    rw [hfst]
    exact mem_map_of_mem ((hrebases (other.coinId seams.sha256)
      other.coinSpend.coin.puzzleHash).mpr ⟨haligned.removals ▸
        mem_map_of_mem hother, hotherKnown, other,
        haligned.bundleCoinSpend hother, hotherFf, rfl⟩)

theorem rebaseSpend_lookup_ne {other : Bytes32} (hne : other ≠ name) :
    (m.rebaseSpend seams name coinId lineage).items.lookup other =
      m.items.lookup other := by
  have hmodify (change : MempoolItem → MempoolItem) :
      (m.modifyItem name change).items.lookup other = m.items.lookup other := by
    unfold modifyItem
    split
    · rfl
    · exact AList.lookup_insert_ne hne
  unfold rebaseSpend
  split
  · rfl
  dsimp only
  split
  · exact hmodify _
  · split_ifs
    · exact hmodify _
    · exact hmodify _

theorem foldl_rebaseSpend_lookup_ne (m : Mempool) {other : Bytes32}
    (hne : other ≠ name) :
    (moves.foldl (fun m move => m.rebaseSpend seams name move.1 move.2)
      m).items.lookup other = m.items.lookup other := by
  induction moves generalizing m with
  | nil => rfl
  | cons head tail ih => exact (ih _).trans (rebaseSpend_lookup_ne hne)

variable (hstore : store.Truthful puzzleHashOf)

include hstore

/-- A spend that stays on the coin which a move leaves would have to move too:
the store names one coin for their common puzzle hash. -/
theorem Moving.stays {old : UnspentLineageInfo} {other : BundleCoinSpend}
    (h : Moving sha256 puzzleHashOf store name
      ((bcs.coinId sha256, lineage) :: moves) m item)
    (hbcs : bcs ∈ item.bundleCoinSpends)
    (hold : bcs.latestSingletonLineage = some old)
    (hanswer : Names store bcs lineage) (hmoves : old.coinId ≠ lineage.coinId)
    (hother : other ∈ item.bundleCoinSpends) (hne : other ≠ bcs)
    (hsettled : ∀ lineage', (other.coinId sha256, lineage') ∈ moves →
      lineage'.coinId = other.indexKey sha256) :
    other.indexKey sha256 ≠ old.coinId := by
  intro heq
  have haligned := h.accounts.aligned name item h.resident
  have hkey : bcs.indexKey sha256 = old.coinId := by rw [indexKey, hold]
  have hsame lineage' (hid' : lineage'.coinId = old.coinId) :
      ¬ Names store other lineage' := by
    intro hanswer'
    have hhash' := hstore _ _ hanswer'
    rw [hid', haligned.lineage bcs hbcs old hold] at hhash'
    rw [← hid', hanswer.eq hanswer' hhash'] at hmoves
    exact hmoves rfl
  rcases h.leaves _ mem_cons_self bcs hbcs rfl (hkey ▸ hmoves) other
      hother (heq.trans hkey.symm) with hpending | ⟨lineage', hlineage', hread⟩
  · rw [map_cons, mem_cons] at hpending
    rcases hpending with hpending | hpending
    · exact hne (haligned.spend_unique hother hbcs hpending)
    · obtain ⟨⟨_, lineage'⟩, hmem, rfl⟩ := mem_map.mp hpending
      obtain ⟨found, hfound, hfoundId, -, hread⟩ :=
        h.spend _ (mem_cons_of_mem _ hmem)
      obtain rfl := haligned.spend_unique hfound hother hfoundId
      exact hsame lineage' ((hsettled lineage' hmem).trans heq) hread
  · refine hsame lineage' ?_ hread
    rw [← heq, indexKey, hlineage']

section Step

variable {old : UnspentLineageInfo}
  (h : Moving sha256 puzzleHashOf store name
    ((bcs.coinId sha256, lineage) :: moves) m item)
  (hbcs : bcs ∈ item.bundleCoinSpends)
  (hold : bcs.latestSingletonLineage = some old)

include h hbcs hold

omit hstore in
theorem Moving.sound_step {key : Bytes32}
    (howned : name ∈ owners (if old.coinId = lineage.coinId then m.byCoin
      else KeyedTable.addOwner name
        (KeyedTable.dropOwner name m.byCoin old.coinId) lineage.coinId) key) :
    ∃ moved ∈ (item.moveSpend sha256 (bcs.coinId sha256)
      lineage).bundleCoinSpends, moved.indexKey sha256 = key := by
  have hmem := fun moved => @mem_moveSpend_iff lineage _ _ _
    (h.accounts.aligned name item h.resident) bcs moved hbcs
  have hkey : bcs.indexKey sha256 = old.coinId := by rw [indexKey, hold]
  split_ifs at howned with hsame
  · obtain ⟨other, hother, rfl⟩ := h.sound key howned
    by_cases heq : other = bcs
    · subst heq
      exact ⟨_, (hmem _).mpr (.inl rfl), (hkey.trans hsame).symm⟩
    · exact ⟨other, (hmem _).mpr (.inr ⟨hother, heq⟩), rfl⟩
  · rw [mem_owners_addOwner, mem_owners_dropOwner] at howned
    rcases howned with ⟨howned, hleft⟩ | ⟨rfl, -⟩
    · obtain ⟨other, hother, rfl⟩ := h.sound key howned
      refine ⟨other, (hmem _).mpr (.inr ⟨hother, ?_⟩), rfl⟩
      rintro rfl
      exact hleft ⟨hkey, rfl⟩
    · exact ⟨_, (hmem _).mpr (.inl rfl), rfl⟩

variable (hanswer : Names store bcs lineage)

include hanswer

theorem Moving.complete_step {moved : BundleCoinSpend}
    (hmoved : moved ∈ (item.moveSpend sha256 (bcs.coinId sha256)
      lineage).bundleCoinSpends)
    (hsettled : ∀ lineage', (moved.coinId sha256, lineage') ∈ moves →
      lineage'.coinId = moved.indexKey sha256) :
    name ∈ owners (if old.coinId = lineage.coinId then m.byCoin
      else KeyedTable.addOwner name
        (KeyedTable.dropOwner name m.byCoin old.coinId) lineage.coinId)
      (moved.indexKey sha256) := by
  have haligned := h.accounts.aligned name item h.resident
  have hfresh := (nodup_cons.mp h.nodup).1
  have hkey : bcs.indexKey sha256 = old.coinId := by rw [indexKey, hold]
  rcases (mem_moveSpend_iff haligned hbcs).mp hmoved with rfl | ⟨hother, hne⟩
  · change name ∈ owners _ lineage.coinId
    split_ifs with hsame
    · have howned := h.complete bcs hbcs (by
        intro lineage' hlineage'
        rcases mem_cons.mp hlineage' with heq | hlater
        · cases heq
          exact (hkey.trans hsame).symm
        · exact absurd (mem_map_of_mem hlater) hfresh)
      rwa [hkey, hsame] at howned
    · exact mem_owners_addOwner.mpr (.inr ⟨rfl, rfl⟩)
  · have howned := h.complete moved hother (by
      intro lineage' hlineage'
      rcases mem_cons.mp hlineage' with heq | hlater
      · exact absurd (haligned.spend_unique hother hbcs (congrArg fst heq)) hne
      · exact hsettled lineage' hlater)
    split_ifs with hsame
    · exact howned
    · refine mem_owners_addOwner.mpr (.inl (mem_owners_dropOwner.mpr
        ⟨howned, fun hleft => ?_⟩))
      exact h.stays hstore hbcs hold hanswer hsame hother hne hsettled hleft.1

omit hstore hold in
theorem Moving.leaves_step {move : Bytes32 × UnspentLineageInfo}
    (hmove : move ∈ moves) {found other : BundleCoinSpend}
    (hfound : found ∈
      (item.moveSpend sha256 (bcs.coinId sha256) lineage).bundleCoinSpends)
    (hid : found.coinId sha256 = move.1)
    (hleaves : found.indexKey sha256 ≠ move.2.coinId)
    (hother : other ∈ (item.moveSpend sha256 (bcs.coinId sha256)
      lineage).bundleCoinSpends)
    (heq : other.indexKey sha256 = found.indexKey sha256) :
    other.coinId sha256 ∈ moves.map Prod.fst ∨
      ∃ lineage, other.latestSingletonLineage = some lineage ∧
        Names store other lineage := by
  have haligned := h.accounts.aligned name item h.resident
  have hmem := fun moved => @mem_moveSpend_iff lineage _ _ _ haligned bcs
    moved hbcs
  have hfresh : bcs.coinId sha256 ∉ moves.map fst :=
    (nodup_cons.mp h.nodup).1
  have hne : move.1 ≠ bcs.coinId sha256 := fun heq =>
    hfresh (heq ▸ mem_map_of_mem hmove)
  rcases (hmem found).mp hfound with rfl | ⟨hfound, -⟩
  · exact absurd hid.symm hne
  rcases (hmem other).mp hother with rfl | ⟨hother, hotherNe⟩
  · exact .inr ⟨lineage, rfl, hanswer⟩
  · rcases h.leaves move (mem_cons_of_mem _ hmove) found hfound hid
      hleaves other hother heq with hpending | hsettled
    · rw [map_cons, mem_cons] at hpending
      rcases hpending with hpending | hpending
      · exact absurd (haligned.spend_unique hother hbcs hpending) hotherNe
      · exact .inl hpending
    · exact .inr hsettled

end Step

/-- One move keeps the state of the loop. -/
theorem Moving.step {move : Bytes32 × UnspentLineageInfo}
    (h : Moving seams.sha256 puzzleHashOf store name (move :: moves) m item) :
    Moving seams.sha256 puzzleHashOf store name moves
      (m.rebaseSpend seams name move.1 move.2)
      (item.moveSpend seams.sha256 move.1 move.2) := by
  obtain ⟨coinId, lineage⟩ := move
  obtain ⟨bcs, hbcs, hid, hsome, hanswer⟩ := h.spend _ mem_cons_self
  dsimp only at hid hanswer ⊢
  subst hid
  obtain ⟨old, hold⟩ := isSome_iff_exists.mp hsome
  have haligned := h.accounts.aligned name item h.resident
  have hfresh : bcs.coinId seams.sha256 ∉ moves.map fst :=
    (nodup_cons.mp h.nodup).1
  have haccounts : (m.modifyItem name (MempoolItem.moveSpend seams.sha256 ·
      (bcs.coinId seams.sha256) lineage)).Accounts seams.sha256 puzzleHashOf :=
    h.accounts.modifyItem h.resident item.moveSpend_moved
      (haligned.moveSpend hbcs (hstore _ _ hanswer))
  rw [modifyItem_of_lookup h.resident] at haccounts
  rw [rebaseSpend_eq haligned h.resident hbcs hold]
  refine ⟨{ haccounts with }, AList.lookup_insert _, ?_, ?_,
    fun key => h.sound_step hbcs hold,
    fun moved => h.complete_step hstore hbcs hold hanswer,
    (nodup_cons.mp h.nodup).2, ?_,
    fun move hmove found hfound hid hleaves other =>
      h.leaves_step hbcs hanswer hmove hfound hid hleaves⟩
  · dsimp only
    split_ifs
    · exact h.tidy
    · exact (h.tidy.dropOwner name _).addOwner name _
  · intro key other hne
    dsimp only
    rw [AList.lookup_insert_ne hne, ← h.others key other hne]
    split_ifs
    · rfl
    · rw [mem_owners_addOwner, mem_owners_dropOwner]
      simp [hne]
  · intro move hmove
    obtain ⟨found, hfound, hid, hff, hread⟩ :=
      h.spend move (mem_cons_of_mem _ hmove)
    refine ⟨found, (mem_moveSpend_iff haligned hbcs).mpr
      (.inr ⟨hfound, ?_⟩), hid, hff, hread⟩
    rintro rfl
    exact hfresh (hid ▸ mem_map_of_mem hmove)

/-- An item after its moves. -/
def MempoolItem.moveSpends (sha256 : HashFn)
    (moves : List (Bytes32 × UnspentLineageInfo)) (item : MempoolItem) :
    MempoolItem :=
  moves.foldl (fun item move => item.moveSpend sha256 move.1 move.2) item

theorem Moving.foldl
    (h : Moving seams.sha256 puzzleHashOf store name moves m item) :
    Moving seams.sha256 puzzleHashOf store name [] (moves.foldl (fun m move =>
        m.rebaseSpend seams name move.1 move.2) m)
      (item.moveSpends seams.sha256 moves) := by
  induction moves generalizing m item with
  | nil => exact h
  | cons head tail ih => exact ih (h.step hstore)

omit hstore in
/-- A spend is moved by the move for its coin, if there is one. -/
theorem mem_moveSpends
    (hbcs : bcs ∈ (item.moveSpends sha256 moves).bundleCoinSpends) :
    ∃ old ∈ item.bundleCoinSpends, old.coinSpend = bcs.coinSpend ∧
      (bcs = old ∧ old.coinId sha256 ∉ moves.map fst ∨
        ∃ lineage, (old.coinId sha256, lineage) ∈ moves ∧
          bcs.latestSingletonLineage = some lineage) := by
  induction moves generalizing item with
  | nil => exact ⟨bcs, hbcs, rfl, .inl ⟨rfl, not_mem_nil⟩⟩
  | cons head tail ih =>
    obtain ⟨mid, hmid, hsame, hmoved⟩ := ih hbcs
    obtain ⟨old, hold, rfl⟩ := mem_moveSpend.mp hmid
    split_ifs at hsame hmoved with hid
    · refine ⟨old, hold, hsame, .inr ?_⟩
      rcases hmoved with ⟨rfl, -⟩ | ⟨lineage, hmem, hlineage⟩
      · exact ⟨head.2, hid ▸ mem_cons_self, rfl⟩
      · exact ⟨lineage, mem_cons_of_mem _ hmem, hlineage⟩
    · refine ⟨old, hold, hsame, hmoved.imp (And.imp_right fun hnone => ?_)
        fun ⟨lineage, hmem, hlineage⟩ =>
          ⟨lineage, mem_cons_of_mem _ hmem, hlineage⟩⟩
      rw [map_cons, mem_cons, not_or]
      exact ⟨hid, hnone⟩

omit hstore in
/-- The spends of an item that stay are on the version that the others have
moved to. -/
theorem Moving.single (h : Moving sha256 puzzleHashOf store name moves m item)
    (hsingle : item.Single) : (item.moveSpends sha256 moves).Single := by
  have haligned := h.accounts.aligned name item h.resident
  have hanswer {bcs : BundleCoinSpend} (hbcs : bcs ∈ item.bundleCoinSpends)
      {lineage} (hmove : (bcs.coinId sha256, lineage) ∈ moves) :
      bcs.latestSingletonLineage.isSome ∧ Names store bcs lineage := by
    obtain ⟨found, hfound, hid, hsome, hread⟩ := h.spend _ hmove
    obtain rfl := haligned.spend_unique hfound hbcs hid
    exact ⟨hsome, hread⟩
  -- one spend is moved and another of its singleton is not
  have hmixed {bcs other : BundleCoinSpend} (hbcs : bcs ∈ item.bundleCoinSpends)
      (hother : other ∈ item.bundleCoinSpends) {lineage lineage'}
      (hmove : (bcs.coinId sha256, lineage) ∈ moves)
      (hstays : other.coinId sha256 ∉ moves.map fst)
      (hlineage' : other.latestSingletonLineage = some lineage')
      (hsame : bcs.coinSpend.coin.puzzleHash =
        other.coinSpend.coin.puzzleHash) :
      lineage.coinId = lineage'.coinId := by
    obtain ⟨hsome, hread⟩ := hanswer hbcs hmove
    obtain ⟨old, hold⟩ := isSome_iff_exists.mp hsome
    have hid := hsingle bcs hbcs other hother old lineage' hold hlineage' hsame
    by_contra hne
    have hkey : bcs.indexKey sha256 = old.coinId := by
      rw [indexKey, hold]
    have hkey' : other.indexKey sha256 = lineage'.coinId := by
      rw [indexKey, hlineage']
    rcases h.leaves _ hmove bcs hbcs rfl (by rw [hkey, hid]; exact Ne.symm hne)
      other hother (by rw [hkey, hkey', hid]) with hdue | ⟨found, hfound, hread'⟩
    · exact hstays hdue
    · cases hlineage'.symm.trans hfound
      exact hne (congrArg _ (hread.eq hread' hsame))
  intro bcs hbcs bcs' hbcs' lineage lineage' hlineage hlineage' hsame
  obtain ⟨old, hold, hcoin, hmoved⟩ := mem_moveSpends hbcs
  obtain ⟨old', hold', hcoin', hmoved'⟩ := mem_moveSpends hbcs'
  rw [← hcoin, ← hcoin'] at hsame
  rcases hmoved with ⟨rfl, hstays⟩ | ⟨new, hmove, hnew⟩ <;>
    rcases hmoved' with ⟨rfl, hstays'⟩ | ⟨new', hmove', hnew'⟩
  · exact hsingle _ hold _ hold' _ _ hlineage hlineage' hsame
  · cases hnew'.symm.trans hlineage'
    exact (hmixed hold' hold hmove' hstays hlineage hsame.symm).symm
  · cases hnew.symm.trans hlineage
    exact hmixed hold hold' hmove hstays' hlineage' hsame
  · cases hnew.symm.trans hlineage
    cases hnew'.symm.trans hlineage'
    rw [(hanswer hold hmove).2.eq (hanswer hold' hmove').2 hsame]

variable (h : m.Kept seams.sha256 puzzleHashOf)

include h

/-- One turn of `revalidate_for_reorg` keeps the books and the other items. -/
theorem Mempool.Kept.revalidateItem (hitem : m.items.lookup name = some item)
    (hleaves : item.LeavesWhole seams store) {dropped : List Bytes32}
    {state : Mempool × List Bytes32}
    (hstep : revalidateItem seams store name item (m, dropped) = .ok state) :
    state.1.Kept seams.sha256 puzzleHashOf ∧
      ∀ other, other ≠ name →
        state.1.items.lookup other = m.items.lookup other := by
  unfold Mempool.revalidateItem at hstep
  obtain ⟨records, hread, hstep⟩ := Except.bind_eq_ok.mp hstep
  have hrecords := Except.mapError_eq_ok.mp hread
  split at hstep
  · cases hstep
    exact ⟨h, fun _ _ => rfl⟩
  rename_i rebases hverdict
  obtain ⟨moves, hmoves, hstep⟩ := Except.bind_eq_ok.mp hstep
  split at hstep
  · cases hstep
    exact ⟨h, fun _ _ => rfl⟩
  · cases hstep
    have hstart := h.moving hitem hleaves hrecords hverdict hmoves
    have hend := hstart.foldl hstore
    refine ⟨⟨hend.accounts, hend.index, fun other found hfound => ?_⟩,
      fun other hne => foldl_rebaseSpend_lookup_ne m hne⟩
    by_cases hother : other = name
    · subst hother
      cases hend.resident.symm.trans hfound
      exact hstart.single (h.single _ item hitem)
    · exact h.single other found
        ((foldl_rebaseSpend_lookup_ne m hother).symm.trans hfound)

theorem Mempool.Kept.revalidateLoop (snapshot : List (Bytes32 × MempoolItem))
    (hnodup : (snapshot.map Prod.fst).Nodup) (dropped : List Bytes32)
    (hsnapshot : ∀ entry ∈ snapshot, m.items.lookup entry.1 = some entry.2 ∧
      entry.2.LeavesWhole seams store) :
    (revalidateLoop seams store snapshot (m, dropped)).2.Kept
      seams.sha256 puzzleHashOf := by
  induction snapshot generalizing m dropped with
  | nil => exact h
  | cons head tail ih =>
    obtain ⟨hhead, htail⟩ := nodup_cons.mp hnodup
    obtain ⟨hitem, hleaves⟩ := hsnapshot head mem_cons_self
    unfold revalidateLoop
    split
    · exact h
    · rename_i state hstate
      obtain ⟨hkept, hothers⟩ := h.revalidateItem hstore hitem hleaves hstate
      refine ih hkept htail state.2 ?_
      intro entry hentry
      obtain ⟨hlookup, hentryLeaves⟩ :=
        hsnapshot entry (mem_cons_of_mem _ hentry)
      refine ⟨?_, hentryLeaves⟩
      rw [hothers entry.1 fun heq => hhead (heq ▸ mem_map_of_mem hentry)]
      exact hlookup

/-- A reorganisation that takes no item off a coin by halves keeps the books. -/
theorem Mempool.Kept.revalidateForReorg
    (hleaves : ∀ name item, m.items.lookup name = some item →
      item.LeavesWhole seams store) :
    (m.revalidateForReorg seams store).2.Kept seams.sha256 puzzleHashOf := by
  unfold Mempool.revalidateForReorg
  extract_lets cleared
  have hcleared : cleared.Kept seams.sha256 puzzleHashOf :=
    { h with seen := .empty }
  have hkeys : ((cleared.items.entries.map fun entry =>
      (entry.1, entry.2)).map fst).Nodup := by
    rw [List.map_map]
    exact cleared.items.keys_nodup
  have hloop := hcleared.revalidateLoop hstore
    (cleared.items.entries.map fun entry => (entry.1, entry.2)) hkeys [] (by
      intro entry hentry
      obtain ⟨row, hrow, rfl⟩ := mem_map.mp hentry
      have hlookup : m.items.lookup row.1 = some row.2 :=
        AList.mem_lookup_iff.mpr hrow
      exact ⟨hlookup, hleaves row.1 row.2 hlookup⟩)
  split
  · rename_i heq
    rwa [heq] at hloop
  · rename_i heq
    rw [heq] at hloop
    exact hloop.removeAll _

end Moves

end DgXch
