/-
The coins that payloads stand for, and sessions on the memory-mapped store:
`apply_block`, `rollback_to` and the publication of a batch do to the coins what
blocks and rollbacks do to a coin set, so the crash-free coin store refines it.
-/
import DgXch.MmapStore

namespace DgXch

open ChainedTable WriteTrace List Option CoinEntry Triple Function CoinSet
open Table Staged

variable {dat dat' : List CoinFrame} {entry : CoinEntry}

namespace CoinEntry

/-- The record of a payload over a coin log. -/
def record (dat : List CoinFrame) (entry : CoinEntry) : Option CoinRecord :=
  entry.off.bind fun off =>
    (dat[off]?).map fun frame => decodeCoin frame entry.spentIndex

/-- The payload points at a frame, which agrees about the height. -/
def Filed (dat : List CoinFrame) (entry : CoinEntry) : Prop :=
  ∀ off, entry.off = some off →
    ∃ frame, dat[off]? = some frame ∧ frame.confirmed = entry.confirmedIndex

variable {fork height : UInt32}

theorem getElem?_grown (hdat : dat <+: dat') {off : Nat} {frame : CoinFrame}
    (h : dat[off]? = some frame) : dat'[off]? = some frame := by
  obtain ⟨rest, rfl⟩ := hdat
  rw [List.getElem?_append_left (List.getElem?_eq_some_iff.mp h).1]
  exact h

section

variable (h : entry.Filed dat)

include h

theorem Filed.grow (hdat : dat <+: dat') : entry.Filed dat' := by
  intro off hoff
  obtain ⟨frame, hframe, hconf⟩ := h off hoff
  exact ⟨frame, getElem?_grown hdat hframe, hconf⟩

theorem Filed.record_grow (hdat : dat <+: dat') :
    entry.record dat' = entry.record dat := by
  unfold record
  cases hoff : entry.off with
  | none => rfl
  | some off =>
    obtain ⟨frame, hframe, -⟩ := h off hoff
    rw [bind_some, bind_some, hframe, getElem?_grown hdat hframe]

theorem Filed.spendAt : (entry.spendAt height).Filed dat := h

theorem Filed.sweep : (entry.sweep fork).Filed dat := by
  unfold CoinEntry.sweep
  split_ifs
  · exact h
  · exact fun off hoff => by cases hoff
  · exact h
  · exact h

end

theorem record_spendAt (hheight : 0 < height) :
    (entry.spendAt height).record dat =
      (entry.record dat).map (CoinRecord.spendAt height) := by
  unfold record spendAt
  cases entry.off with
  | none => rfl
  | some off =>
    rw [Option.bind_some, Option.bind_some, Option.map_map]
    congr 1
    funext frame
    rw [comp_apply, decodeCoin, decodeCoin, CoinRecord.spendAt,
      decide_eq_true hheight]

theorem Filed.record_eq (h : entry.Filed dat) {off : Nat}
    (hoff : entry.off = some off) : ∃ frame, dat[off]? = some frame ∧
      frame.confirmed = entry.confirmedIndex ∧
      entry.record dat = some (decodeCoin frame entry.spentIndex) := by
  obtain ⟨frame, hframe, hconf⟩ := h off hoff
  refine ⟨frame, hframe, hconf, ?_⟩
  rw [record, hoff, bind_some, hframe, map_some]

theorem Filed.record_sweep (h : entry.Filed dat) :
    (entry.sweep fork).record dat =
      (entry.record dat).bind (CoinRecord.rollback fork) := by
  cases hoff : entry.off with
  | none => rw [CoinEntry.sweep, if_pos hoff, record, hoff]; rfl
  | some off =>
    obtain ⟨frame, hframe, hconf, hrecord⟩ := h.record_eq hoff
    rw [hrecord, bind_some, CoinRecord.rollback, CoinEntry.sweep,
      if_neg (hoff ▸ some_ne_none off)]
    change _ = if fork < frame.confirmed then _ else
      if fork < entry.spentIndex then _ else _
    rw [hconf]
    split_ifs
    · rfl
    · rw [record, unspend, hoff, bind_some, hframe, map_some]
      rfl
    · exact hrecord

end CoinEntry

/-- The coins that payloads stand for. -/
def coinsOf (dat : List CoinFrame) (images : CoinImages) : CoinSet :=
  fun id => (images id).bind (CoinEntry.record dat)

def AllFiled (dat : List CoinFrame) (images : CoinImages) : Prop :=
  ∀ id entry, images id = some entry → entry.Filed dat

variable {images : CoinImages}

section CoinsOf

variable {height fork : UInt32} {id : Bytes32}

theorem AllFiled.grow (h : AllFiled dat images) (hdat : dat <+: dat') :
    AllFiled dat' images :=
  fun id entry hentry => (h id entry hentry).grow hdat

theorem AllFiled.update (h : AllFiled dat images) (hentry : entry.Filed dat) :
    AllFiled dat (update images id (some entry)) := by
  refine (forall_update_iff images fun _ image => ∀ entry,
    image = some entry → entry.Filed dat).mpr ⟨?_, fun id _ => h id⟩
  rintro _ ⟨⟩
  exact hentry

theorem AllFiled.coinsOf_grow (h : AllFiled dat images)
    (hdat : dat <+: dat') : coinsOf dat' images = coinsOf dat images := by
  funext id
  unfold coinsOf
  cases hentry : images id with
  | none => rfl
  | some entry => exact (h id entry hentry).record_grow hdat

theorem coinsOf_update (image : Option CoinEntry) :
    coinsOf dat (update images id image) =
      update (coinsOf dat images) id (image.bind (record dat)) := by
  funext id'
  unfold coinsOf
  by_cases hsame : id' = id
  · rw [hsame, update_self, update_self]
  · rw [update_of_ne hsame, update_of_ne hsame]

/-- A spent payload is a removal. -/
theorem coinsOf_spend (hheight : 0 < height) :
    coinsOf dat (update images id ((images id).map (spendAt height))) =
      spend height (coinsOf dat images) id := by
  rw [coinsOf_update, spend]
  congr 1
  unfold coinsOf
  cases images id with
  | none => rfl
  | some entry => exact record_spendAt hheight

theorem AllFiled.sweep (h : AllFiled dat images) :
    AllFiled dat fun id => (images id).map (sweep fork) := by
  intro id entry hentry
  obtain ⟨entry', hentry', rfl⟩ := map_eq_some_iff.mp hentry
  exact (h id entry' hentry').sweep

/-- A sweep is a rollback. -/
theorem AllFiled.coinsOf_sweep (h : AllFiled dat images) :
    (coinsOf dat fun id => (images id).map (CoinEntry.sweep fork)) =
      rollback fork (coinsOf dat images) := by
  funext id
  change ((images id).map _).bind _ = ((images id).bind _).bind _
  cases hentry : images id with
  | none => rfl
  | some entry => exact (h id entry hentry).record_sweep

end CoinsOf

/-- Staged images over the images of a table stand for these coins. -/
structure PendingOver (pending : PendingCoins) (dat : List CoinFrame)
    (base : CoinImages) (coins : CoinSet) : Prop where
  wf : pending.Wf
  filed : AllFiled dat (Table.updateAll base pending.records)
  coins_eq : coinsOf dat (Table.updateAll base pending.records) = coins

variable {coins : CoinSet} {height : UInt32}

namespace PendingOver

variable {pending pending' : PendingCoins} {base base' : CoinImages}
  {name : Bytes32}

section

variable (h : PendingOver pending dat base coins)

include h

/-- One more coin, staged or written, is an addition. -/
theorem add (sha256 : HashFn) (cr : CoinRecord) (height : UInt32)
    (timestamp : UInt64) (hwf : pending'.Wf)
    (hset : updateAll base' pending'.records = update
      (updateAll base pending.records) (cr.coin.name sha256)
      (some (.added dat.length height))) :
    PendingOver pending' (dat ++ [encodeCoin cr height timestamp]) base'
      (add sha256 height timestamp coins cr) where
  wf := hwf
  filed := by
    rw [hset]
    refine (h.filed.grow (prefix_append dat _)).update fun off hoff => ?_
    cases hoff
    exact ⟨_, getElem?_concat_length, rfl⟩
  coins_eq := by
    rw [hset, coinsOf_update, bind_some, record,
      added, bind_some, getElem?_concat_length,
      h.filed.coinsOf_grow (prefix_append dat _), h.coins_eq]
    rfl

/-- One more spent payload, staged or written, is a removal. -/
theorem spend (hheight : 0 < height) (hwf : pending'.Wf)
    (hset : updateAll base' pending'.records = update
      (updateAll base pending.records) name
      ((updateAll base pending.records name).map (spendAt height))) :
    PendingOver pending' dat base' (spend height coins name) where
  wf := hwf
  filed := by
    rw [hset]
    cases hentry : updateAll base pending.records name with
    | none =>
      rw [map_none, ← hentry, update_eq_self]
      exact h.filed
    | some entry => exact h.filed.update (h.filed _ _ hentry).spendAt
  coins_eq := by rw [hset, coinsOf_spend hheight, h.coins_eq]

end

end PendingOver

/-- The images of a table after a staged sweep. -/
def sweptImages (sweep : Option StagedSweep) (images : CoinImages) :
    CoinImages :=
  match sweep with
  | none => images
  | some sweep => fun key => (images key).map (.sweep sweep.forkHeight)

namespace CoinFiles

variable {pending : PendingCoins}

section Staging

variable {whole : Prop} {base : CoinImages} {C : CoinWrite → CoinFiles → Prop}

theorem stageAddition_spec (h : PendingOver pending dat base coins)
    {sha256 : HashFn} {timestamp : UInt64} {cr : CoinRecord}
    (hC : ∀ frame s, Stands whole (dat ++ [frame]) images s →
      C (.frame frame) s) :
    Triple (Stands whole dat images)
      (stageAddition sha256 height timestamp pending cr) C fun pending' s =>
        PendingOver pending' (dat ++ [encodeCoin cr height timestamp]) base
          (add sha256 height timestamp coins cr) ∧
        Stands whole (dat ++ [encodeCoin cr height timestamp]) images s := by
  refine bind (append_spec _ (hC _)) fun off => of_and ?_
  rintro rfl
  cases hindex : pending.index (cr.coin.name sha256) with
  | some slot =>
    refine pure fun s hs => ⟨h.add sha256 cr height timestamp
      (h.wf.modify _ _) ?_, hs⟩
    obtain ⟨entry, -, hstaged⟩ := h.wf.staged hindex
    rw [h.wf.updateAll_modify hindex, hstaged, map_some]
  | none =>
    exact pure fun s hs => ⟨h.add sha256 cr height timestamp
      (h.wf.push hindex _) updateAll_push, hs⟩

theorem sweep_spendAt {fork : UInt32}
    (h : ¬ (entry.off ≠ none ∧ fork < entry.confirmedIndex)) :
    (entry.sweep fork).spendAt height = entry.spendAt height := by
  unfold sweep
  split_ifs with hoff hconf
  · rfl
  · exact absurd ⟨hoff, hconf⟩ h
  · rfl
  · rfl

theorem stageRemoval_spec {sweep : Option StagedSweep}
    (hsweep : ∀ s ∈ sweep, Sweeps s.forkHeight images s.deletions s.unspends)
    (h : PendingOver pending dat (sweptImages sweep images) coins)
    (hheight : 0 < height) {name : Bytes32} :
    Triple (Stands whole dat images) (stageRemoval sweep height pending name) C
      fun pending' s =>
        PendingOver pending' dat (sweptImages sweep images)
          (spend height coins name) ∧ Stands whole dat images s := by
  cases hindex : pending.index name with
  | some slot =>
    rw [stageRemoval, hindex]
    exact pure fun s hs => ⟨h.spend hheight (h.wf.modify _ _)
      (h.wf.updateAll_modify hindex), hs⟩
  | none =>
    rw [stageRemoval, hindex]
    dsimp only
    have hcoins : coins name =
        (sweptImages sweep images name).bind (record dat) := by
      rw [← h.coins_eq, coinsOf,
        updateAll_of_notMem (h.wf.index_eq_none_iff.mp hindex)]
    split_ifs with hdeleted
    · -- the sweep deletes the coin, so the staged set does not have it
      obtain ⟨sw, rfl, hmem⟩ := hdeleted
      have hnone : coins name = none := by
        rw [hcoins]
        change ((images name).map _).bind _ = _
        cases hentry : images name with
        | none => rfl
        | some entry =>
          obtain ⟨hoff, hconf⟩ := ((hsweep sw rfl).mem_deletions hentry).mp hmem
          rw [map_some, bind_some, sweep, if_neg hoff, if_pos hconf]
          rfl
      rw [spend_of_none height hnone]
      exact pure fun s hs => ⟨h, hs⟩
    cases hentry : images name with
    | none =>
      have hnone : coins name = none := by
        rw [hcoins]
        cases sweep <;> simp [sweptImages, hentry]
      rw [spend_of_none height hnone]
      refine bind find_spec fun found => ?_
      cases found with
      | none => exact pure fun s hs => ⟨h, hs.1⟩
      | some index =>
        rintro s ⟨-, hsome, -⟩
        rw [hentry] at hsome
        cases hsome
    | some entry =>
      have hspent : (sweptImages sweep images name).map
          (spendAt height) = some (entry.spendAt height) := by
        cases sweep with
        | none => rw [sweptImages, hentry, map_some]
        | some sw =>
          change ((images name).map _).map _ = _
          rw [hentry, map_some, map_some, sweep_spendAt fun hdel => hdeleted
              ⟨sw, rfl, ((hsweep sw rfl).mem_deletions hentry).mpr hdel⟩]
      refine bind find_spec fun found => ?_
      cases found with
      | none =>
        rintro s ⟨-, hsome, -⟩
        rw [hentry] at hsome
        cases hsome
      | some index =>
        refine bind (Triple.consequence (payload_spec hentry)
          (fun s hs => ⟨hs.1, hs.2.2⟩) id fun _ _ => id) fun found => ?_
        apply Triple.pure
        rintro s ⟨rfl, hs, -⟩
        refine ⟨h.spend hheight (h.wf.push hindex _) ?_, hs⟩
        rw [updateAll_push, updateAll_of_notMem
          (h.wf.index_eq_none_iff.mp hindex), hspent]

/-- Frames were appended, and the staged images stand for these coins. -/
def Staging (whole : Prop) (dat : List CoinFrame) (images base : CoinImages)
    (coins : CoinSet) (pending : PendingCoins)
    (s : CoinFiles) : Prop :=
  ∃ dat', dat <+: dat' ∧ PendingOver pending dat' base coins ∧
    Stands whole dat' images s

/-- `apply_block_in` appends frames and stages the block. -/
theorem applyBlockIn_spec {batch : MmapBatch} (hsweep : ∀ s ∈ batch.sweep,
      Sweeps s.forkHeight images s.deletions s.unspends)
    (h : PendingOver batch.pending dat (sweptImages batch.sweep images) coins)
    (sha256 : HashFn) (delta : CoinDelta)
    (hheight : ∀ name ∈ delta.removals, 0 < delta.height)
    (hC : ∀ dat' frame s, dat <+: dat' → Stands whole dat' images s →
      C (.frame frame) s) :
    Triple (Stands whole dat images) (applyBlockIn sha256 batch delta) C
      fun batch' s => batch'.sweep = batch.sweep ∧
        Staging whole dat images (sweptImages batch.sweep images)
          (CoinSet.applyBlock sha256 coins delta) batch'.pending s := by
  refine bind (consequence (fold (fun done =>
    Staging whole dat images (sweptImages batch.sweep images) (done.foldl
      (add sha256 delta.height delta.timestamp) coins))
    delta.additions ?_ batch.pending)
    (fun s hs => ⟨dat, prefix_refl _, h, hs⟩) id fun _ _ => id) fun added =>
    bind (fold (fun done => Staging whole dat images
      (sweptImages batch.sweep images) (done.foldl (spend delta.height)
        (delta.additions.foldl
          (add sha256 delta.height delta.timestamp) coins)))
      delta.removals ?_ added) fun _ => pure fun s hs => ⟨rfl, hs⟩
  · rintro done pending cr rest -
    refine of_exists fun dat' => of_and fun hdat => of_and fun hover => ?_
    have hgrown : ∀ frame, dat <+: dat' ++ [frame] :=
      fun frame => hdat.trans (prefix_append _ _)
    refine consequence (stageAddition_spec hover fun frame s =>
      hC _ frame s (hgrown frame)) (fun _ => id) id ?_
    rintro pending' s hs
    rw [foldl_append]
    exact ⟨_, hgrown _, hs⟩
  · intro done pending name rest hsplit
    have hname : name ∈ delta.removals :=
      hsplit ▸ mem_append_right _ (mem_cons_self ..)
    refine of_exists fun dat' => of_and fun hdat => of_and fun hover => ?_
    refine consequence (stageRemoval_spec hsweep hover
      (hheight name hname)) (fun _ => id) id ?_
    rintro pending' s hs
    rw [foldl_append]
    exact ⟨dat', hdat, hs⟩

end Staging

section Direct

/-- While a block is applied directly, the staged coins are new to the
table. -/
def Applying (coins : CoinSet) (pending : PendingCoins) (s : CoinFiles) :
    Prop :=
  ∃ dat images, PendingOver pending dat images coins ∧
    (∀ staged ∈ pending.records, images staged.1 = none) ∧
    Stands True dat images s

theorem applyAddition_spec {sha256 : HashFn} {timestamp : UInt64}
    {cr : CoinRecord}
    (hlive : ∀ live, coins (cr.coin.name sha256) = some live →
      live.spent = true)
    (hunspent : ∀ staged ∈ pending.records, staged.2.spentIndex = 0 ∧
      staged.2.off ≠ none) :
    Ends (Applying coins pending)
      (applyAddition sha256 height timestamp pending cr)
      fun pending' s => (∀ staged ∈ pending'.records,
        staged.2.spentIndex = 0 ∧ staged.2.off ≠ none) ∧
        Applying (add sha256 height timestamp coins cr) pending' s := by
  refine of_exists fun dat => of_exists fun images =>
    of_and fun hover => of_and fun hnew => ?_
  have hindex : pending.index (cr.coin.name sha256) = none := by
    cases hslot : pending.index (cr.coin.name sha256) with
    | none => rfl
    | some slot =>
      -- a coin staged by this block is live
      obtain ⟨entry, hentry, hstaged⟩ := hover.wf.staged hslot
      obtain ⟨hzero, hoff⟩ := hunspent _ (mem_of_getElem? hentry)
      obtain ⟨off, hoff⟩ := ne_none_iff_exists'.mp hoff
      obtain ⟨frame, hframe, -⟩ := hover.filed _ _ hstaged off hoff
      have hspent := hlive (decodeCoin frame 0) (by
        rw [← hover.coins_eq, coinsOf, hstaged, bind_some, record,
          hoff, bind_some, hframe, map_some, hzero])
      cases hspent
  have hout := hover.wf.index_eq_none_iff.mp hindex
  refine bind (append_spec _ fun _ _ => trivial) fun off => of_and ?_
  rintro rfl
  refine bind (repoint_spec fun _ _ _ => trivial) fun found =>
    of_and fun hfound => ?_
  cases found with
  | true =>
    refine pure fun s hs => ⟨hunspent, _, _, hover.add sha256 cr height
      timestamp hover.wf (updateAll_update hout _),
      fun staged hstaged => ?_, hs⟩
    refine (update_of_ne ?_ _ _).trans (hnew staged hstaged)
    exact fun h => hout (h ▸ mem_map_of_mem hstaged)
  | false =>
    refine pure fun s hs => ⟨?_, _, _, hover.add sha256 cr height
      timestamp (hover.wf.push hindex _) updateAll_push, ?_, hs⟩
    · intro staged hstaged
      rcases mem_append.mp hstaged with h | h
      · exact hunspent staged h
      · rw [mem_singleton.mp h]
        exact ⟨rfl, some_ne_none _⟩
    · intro staged hstaged
      rcases mem_append.mp hstaged with h | h
      · exact hnew staged h
      · rw [mem_singleton.mp h]
        exact not_isSome_iff_eq_none.mp fun hsome =>
          Bool.false_ne_true (hfound.trans hsome)

theorem applyRemoval_spec (hheight : 0 < height) {name : Bytes32} :
    Ends (Applying coins pending) (applyRemoval height pending name)
      (Applying (spend height coins name)) := by
  refine of_exists fun dat => of_exists fun images =>
    of_and fun hover => of_and fun hnew => ?_
  cases hindex : pending.index name with
  | some slot =>
    rw [applyRemoval, hindex]
    refine pure fun s hs => ⟨dat, images, hover.spend hheight
      (hover.wf.modify _ _) (hover.wf.updateAll_modify hindex), ?_, hs⟩
    intro staged hstaged
    obtain ⟨old, hold, hkey, -⟩ := mem_modify hstaged
    exact hkey ▸ hnew old hold
  | none =>
    have hout := hover.wf.index_eq_none_iff.mp hindex
    rw [applyRemoval, hindex]
    refine bind (revise_spec fun _ _ _ _ => trivial)
      fun found => pure fun s hs => ⟨dat, _, hover.spend hheight
        hover.wf ?_, fun staged hstaged => ?_, hs.2⟩
    · rw [updateAll_update hout, updateAll_of_notMem hout]
    · refine (update_of_ne ?_ _ _).trans (hnew staged hstaged)
      exact fun h => hout (h ▸ mem_map_of_mem hstaged)

/-- `apply_block` applies the block to the coins. -/
theorem applyBlock_spec {sha256 : HashFn} (order : IterationOrder)
    (delta : CoinDelta) (hheight : 0 < delta.height)
    (hfiled : AllFiled dat images)
    (hfresh : CoinSet.AddsFresh sha256 delta.height delta.timestamp
      (coinsOf dat images) delta.additions) :
    Ends (Stands True dat images) (applyBlock sha256 order delta)
      fun _ s => ∃ dat' images', AllFiled dat' images' ∧
        coinsOf dat' images' =
          CoinSet.applyBlock sha256 (coinsOf dat images) delta ∧
        Stands True dat' images' s := by
  refine bind (consequence (fold (fun done pending s =>
    (∀ staged ∈ pending.records, staged.2.spentIndex = 0 ∧
      staged.2.off ≠ none) ∧ Applying (done.foldl
        (add sha256 delta.height delta.timestamp)
        (coinsOf dat images)) pending s) delta.additions ?_ {})
    (fun s hs => ⟨fun _ h => absurd h not_mem_nil, dat, images,
      ⟨wf_empty, hfiled, rfl⟩,
      fun _ h => absurd h not_mem_nil, hs⟩) id fun _ _ hs => hs.2)
    fun added => bind (fold (fun done => Applying (done.foldl
      (spend delta.height) (delta.additions.foldl
        (add sha256 delta.height delta.timestamp)
        (coinsOf dat images)))) delta.removals ?_ added)
    fun pending => of_exists fun dat' => of_exists fun images' =>
      of_and fun hover => of_and fun hnew => ?_
  · intro done pending cr rest hsplit
    rw [hsplit] at hfresh
    rw [foldl_append]
    exact of_and fun hunspent => applyAddition_spec hfresh.at hunspent
  · rintro done pending name rest -
    rw [foldl_append]
    exact applyRemoval_spec hheight
  · exact consequence (insertBatch_spec order trivial hover.wf.nodup hnew
      fun _ _ _ _ _ => trivial) (fun _ => id) id fun _ s hs =>
        ⟨dat', _, hover.filed, hover.coins_eq, hs⟩

end Direct

end CoinFiles

open MmapStore

namespace MmapStore

/-- The store without its coin files. -/
def rest (s : MmapStore) : MmapStore := { s with coins := {} }

/-- A procedure on the coin files leaves the rest of the store. -/
theorem coinLift_spec (rest : MmapStore) {A : Type} {P : CoinFiles → Prop}
    {p : CoinFiles.CoinProc A} {C : CoinWrite → CoinFiles → Prop}
    {Q : A → CoinFiles → Prop} (h : Triple P p C Q) :
    Triple (fun s => s.rest = rest ∧ P s.coins) (coinPart.lift p)
      (fun w s => s.rest = rest ∧ ∃ v, w = .coins v ∧ C v s.coins)
      fun a s => s.rest = rest ∧ Q a s.coins :=
  Triple.lift coinPart (F := fun s => s.rest = rest) (fun _ _ hs => hs) h

variable {batch : MmapBatch} {C : StoreWrite → MmapStore → Prop}
  {before : MmapStore}

section Flush

/-- While a batch is published, each payload is as before, swept or staged. -/
def TornBy (batch : MmapBatch) (images torn : CoinImages) : Prop :=
  ∀ key, torn key = images key ∨ torn key = sweptImages batch.sweep images key ∨
    ∃ image, (key, image) ∈ batch.pending.records ∧ torn key = some image

/-- A sweep leaves its journal behind. -/
def journaled (batch : MmapBatch) (before : MmapStore) : MmapStore :=
  match batch.sweep with
  | none => before
  | some sweep => { before with
      journal := some (sweep.forkHeight, sweep.forkHash), journalArmed := true }

/-- What the batch stages, over the sweep of what the table has. -/
def published (batch : MmapBatch) (images : CoinImages) : CoinImages :=
  Table.updateAll (sweptImages batch.sweep images) batch.pending.records

/-- A procedure on the coin table, with what its writes leave of the table,
seen on the store. -/
theorem tableLift_spec {A : Type} {P : CoinFiles → Prop}
    {p : CoinFiles.CoinProc A} {Q : A → CoinFiles → Prop}
    {Torn : CoinImages → Prop}
    (h : Triple P p (fun w s => ∃ write torn, w = .tbl write ∧
      CoinFiles.Stands False dat torn s ∧ Torn torn) Q)
    (hC : ∀ write torn s, s.rest = before →
      CoinFiles.Stands False dat torn s.coins → Torn torn →
      C (.coins (.tbl write)) s) :
    Triple (fun s => s.rest = before ∧ P s.coins) (coinPart.lift p) C
      fun a s => s.rest = before ∧ Q a s.coins := by
  refine (coinLift_spec before h).consequence (fun _ => id) ?_ fun _ _ => id
  rintro w s ⟨hrest, v, rfl, write, torn, rfl, hs, htorn⟩
  exact hC write torn s hrest hs htorn

/-- `flush_coin_batch` publishes the batch, with the journal first. -/
theorem flushCoinBatch_spec (order : IterationOrder)
    (hnodup : (batch.pending.records.map Prod.fst).Nodup)
    (hsweep : ∀ sweep ∈ batch.sweep, CoinFiles.Sweeps sweep.forkHeight images
      sweep.deletions sweep.unspends)
    (hC : ∀ write torn s, s.rest = journaled batch before →
      CoinFiles.Stands False dat torn s.coins → TornBy batch images torn →
      C (.coins (.tbl write)) s)
    (hjournal : ∀ sweep ∈ batch.sweep, ∀ s : MmapStore,
      s.rest.restarted = (journaled batch before).restarted →
      CoinFiles.Stands True dat images s.coins →
      C (.journal sweep.forkHeight sweep.forkHash) s ∧ C (.armed true) s) :
    Triple (fun s => s.rest = before ∧ CoinFiles.Stands True dat images s.coins)
      (flushCoinBatch order batch) C
      fun _ s => s.rest = journaled batch before ∧
        CoinFiles.Stands True dat (published batch images) s.coins := by
  have hpublish := tableLift_spec
    (@CoinFiles.publishPending_spec batch.pending.records True dat
      (sweptImages batch.sweep images) _ order trivial hnodup
      fun write torn s hs htorn => ⟨write, torn, rfl, hs, fun key =>
        .inr (htorn key)⟩) hC
  rw [flushCoinBatch]
  cases hstaged : batch.sweep with
  | none =>
    have hsame : journaled batch before = before := by rw [journaled, hstaged]
    rw [hsame, hstaged] at hpublish
    rw [hsame, published, hstaged]
    split_ifs with hempty
    · refine pure fun s hs => ⟨hs.1, ?_⟩
      rw [hempty.1]
      exact hs.2
    · exact bind (pure fun _ => id) fun _ => hpublish
  | some sweep =>
    have hjournaled : journaled batch before = { before with
        journal := some (sweep.forkHeight, sweep.forkHash)
        journalArmed := true } := by
      rw [journaled, hstaged]
    rw [if_neg fun hempty => by cases hempty.2]
    refine bind ?_ fun _ => hpublish
    refine bind (write (Q := fun _ s => s.rest = { before with
        journal := some (sweep.forkHeight, sweep.forkHash) } ∧
      CoinFiles.Stands True dat images s.coins) ?_) fun _ => ?_
    · rintro s ⟨rfl, hs⟩
      have hnow := hjournal sweep hstaged (Writable.write s
        (StoreWrite.journal sweep.forkHeight sweep.forkHash))
        (by rw [hjournaled]; rfl) hs
      exact ⟨hnow.1, rfl, hs⟩
    refine bind (write (Q := fun _ s =>
      s.rest = journaled batch before ∧
        CoinFiles.Stands True dat images s.coins) ?_) fun _ => ?_
    · rintro s ⟨hrest, hs⟩
      have harmed : (Writable.write s (StoreWrite.armed true)).rest =
          journaled batch before := by
        rw [hjournaled]
        change { s.rest with journalArmed := true } = _
        rw [hrest]
      have hnow := hjournal sweep hstaged (Writable.write s
        (StoreWrite.armed true)) (congrArg restarted harmed) hs
      exact ⟨hnow.2, harmed, hs⟩
    refine bind (tableLift_spec (CoinFiles.sweepTable_spec
      (fun torn index entry s htorn hs =>
        ⟨.payload index entry, torn, rfl, hs.torn, ?_⟩)
      ((hsweep sweep hstaged).congr (order.keys_perm _).mem_iff)) hC) fun _ =>
        pure fun s hs => ?_
    · intro key
      rw [hstaged]
      exact (htorn key).imp_right .inl
    · rw [hstaged]
      exact hs

end Flush

section InBatch

variable {whole : Prop}

/-- `rollback_to_in` stages the sweep and writes nothing. -/
theorem rollbackToIn_spec (fork : UInt32) :
    Triple (fun s => s.rest = before ∧
        CoinFiles.Stands whole dat images s.coins)
      (rollbackToIn batch fork) C
      fun result s => (∃ sweep, result.1 = { batch with sweep := some sweep } ∧
          sweep.forkHeight = fork ∧
          sweep.forkHash = before.chain.heights.get fork ∧
          CoinFiles.Sweeps fork images sweep.deletions sweep.unspends) ∧
        s.rest = before ∧ CoinFiles.Stands whole dat images s.coins := by
  refine read_bind (· = before.chain.heights.get fork) ?_ ?_
  · rintro s ⟨rfl, -⟩
    rfl
  rintro _ rfl
  refine bind ((coinLift_spec before (CoinFiles.stageSweep_spec _
    (C := fun _ _ => False))).consequence (fun _ => id)
    (fun h => h.2.choose_spec.2.elim) fun _ _ => id) fun sweep => ?_
  apply Triple.pure
  rintro s ⟨hrest, ⟨hfork, hhash, hsweeps⟩, hs⟩
  exact ⟨⟨sweep, rfl, hfork, hhash, hsweeps⟩, hrest, hs⟩

end InBatch

end MmapStore

/-- The calls that a session makes on the store, over the batch it has open,
with the orders in which a call walks its hash maps. -/
inductive StoreCall where
  | beginBatch
  | rollbackToIn (fork : UInt32)
  | applyBlockIn (delta : CoinDelta)
  | applyHintsIn (pairs : List (Bytes32 × Bytes32))
  | setPeakIn (order : IterationOrder) (newPeak : Bytes32)
  | commit (order : IterationOrder)
  | dropBatch
  | applyBlock (order : IterationOrder) (delta : CoinDelta)
  | rollbackTo (fork : UInt32)
  | addBlockRecords (order : IterationOrder) (records : List BlockRecord)

/-- A store and the batch that is open on it. -/
structure StoreSession where
  store : MmapStore := {}
  batch : Option MmapBatch := none

namespace StoreSession

open MmapStore

/-- Run a procedure of the store; the batch afterwards depends on its
result. -/
def call {A : Type} (s : StoreSession) (p : StoreProc A)
    (next : Except StoreError A → Option MmapBatch) : StoreSession :=
  ⟨p.exec s.store, next (p s.store).2⟩

/-- One call.  A call on a batch does nothing when none is open; a failed call
leaves the batch as it was, except that `set_peak_in` has taken it first. -/
def step (sha256 : HashFn) (s : StoreSession) :
    StoreCall → StoreSession
  | .beginBatch => { s with batch := some {} }
  | .rollbackToIn fork =>
    match s.batch with
    | none => s
    | some batch => s.call (rollbackToIn batch fork) fun
        | .ok (batch', _) => some batch'
        | .error _ => some batch
  | .applyBlockIn delta =>
    match s.batch with
    | none => s
    | some batch => s.call (applyBlockIn sha256 batch delta) fun
        | .ok batch' => some batch'
        | .error _ => some batch
  | .applyHintsIn pairs => s.call (applyHintsIn pairs) fun _ => s.batch
  | .setPeakIn order newPeak =>
    match s.batch with
    | none => s
    | some batch => s.call (setPeakIn order batch newPeak) fun _ => some {}
  | .commit order =>
    match s.batch with
    | none => s
    | some batch => s.call (MmapStore.commit order batch) fun _ => none
  | .dropBatch => { s with batch := none }
  | .applyBlock order delta =>
    s.call (coinPart.lift (CoinFiles.applyBlock sha256 order delta))
      fun _ => s.batch
  | .rollbackTo fork =>
    s.call (coinPart.lift (CoinFiles.rollbackTo fork)) fun _ => s.batch
  | .addBlockRecords order records =>
    s.call (chainPart.lift (ChainFiles.addBlockRecords order records))
      fun _ => s.batch

variable {sha256 : HashFn} {order : IterationOrder} {s : StoreSession}
  {batch batch' : MmapBatch}

theorem step_rollbackToIn {fork : UInt32} {touched : Nat}
    (hopen : s.batch = some batch)
    (h : (rollbackToIn batch fork s.store).2 = .ok (batch', touched)) :
    s.step sha256 (.rollbackToIn fork) =
      ⟨(rollbackToIn batch fork).exec s.store, some batch'⟩ := by
  simp only [step, hopen, call, h]

theorem step_applyBlockIn {delta : CoinDelta} (hopen : s.batch = some batch)
    (h : (applyBlockIn sha256 batch delta s.store).2 = .ok batch') :
    s.step sha256 (.applyBlockIn delta) =
      ⟨(applyBlockIn sha256 batch delta).exec s.store, some batch'⟩ := by
  simp only [step, hopen, call, h]

end StoreSession

/-- What a session means: the published coins, and those of the open batch. -/
structure CoinLedger where
  coins : CoinSet := fun _ => none
  staged : Option CoinSet := none
  untouched : Bool := false

namespace CoinLedger

def step (sha256 : HashFn) (l : CoinLedger) : StoreCall → CoinLedger
  | .beginBatch => { l with staged := some l.coins, untouched := true }
  | .rollbackToIn fork =>
    { l with staged := l.staged.map (.rollback fork), untouched := false }
  | .applyBlockIn delta =>
    { l with staged := l.staged.map fun coins =>
        CoinSet.applyBlock sha256 coins delta, untouched := false }
  | .setPeakIn _ _ =>
    { l with coins := l.staged.getD l.coins, untouched := false }
  | .commit _ => { l with coins := l.staged.getD l.coins, staged := none }
  | .dropBatch => { l with staged := none }
  | .applyBlock _ delta => { l with coins := .applyBlock sha256 l.coins delta }
  | .rollbackTo fork => { l with coins := .rollback fork l.coins }
  | .applyHintsIn _ => l
  | .addBlockRecords _ _ => l

/-- The calls that callers make: one batch at a time, a rollback only at the
start of it, and no unbatched coin call while it is open. -/
def Allows (sha256 : HashFn) (l : CoinLedger) : StoreCall → Prop
  | .beginBatch => l.staged = none
  | .rollbackToIn _ => l.staged ≠ none ∧ l.untouched = true
  | .applyBlockIn delta => l.staged ≠ none ∧ 0 < delta.height
  | .setPeakIn _ _ => l.staged ≠ none
  | .commit _ => l.staged ≠ none
  | .applyBlock _ delta => l.staged = none ∧ 0 < delta.height ∧
      CoinSet.AddsFresh sha256 delta.height delta.timestamp l.coins
        delta.additions
  | .rollbackTo _ => l.staged = none
  | .dropBatch => True
  | .applyHintsIn _ => True
  | .addBlockRecords _ _ => True

def AllowsAll (sha256 : HashFn) : CoinLedger → List StoreCall → Prop
  | _, [] => True
  | l, c :: cs => l.Allows sha256 c ∧ AllowsAll sha256 (l.step sha256 c) cs

end CoinLedger

open MmapStore CoinFiles

variable {store : MmapStore} {A : Type} {batch : MmapBatch}

/-- A batch stages these coins over the payloads of the table. -/
structure Stages (batch : MmapBatch) (dat : List CoinFrame)
    (images : CoinImages) (coins : CoinSet) : Prop where
  sweeps : ∀ sweep ∈ batch.sweep, CoinFiles.Sweeps sweep.forkHeight images
    sweep.deletions sweep.unspends
  pending : PendingOver batch.pending dat (sweptImages batch.sweep images) coins

/-- The open batch of a session, and the staged coins of a ledger. -/
inductive ShowsBatch (dat : List CoinFrame) (images : CoinImages)
    (untouched : Bool) :
    Option MmapBatch → Option CoinSet → Prop
  | none : ShowsBatch dat images untouched none none
  | some {batch : MmapBatch} {coins : CoinSet}
      (stages : Stages batch dat images coins)
      (empty : untouched = true →
        batch.sweep = none ∧ batch.pending.records = []) :
      ShowsBatch dat images untouched (some batch) (some coins)

def ShowsCoins (s : StoreSession) (l : CoinLedger) : Prop :=
  ∃ dat images, CoinFiles.Stands True dat images s.store.coins ∧
    AllFiled dat images ∧ coinsOf dat images = l.coins ∧
    ShowsBatch dat images l.untouched s.batch l.staged

variable {sha256 : HashFn} {order : IterationOrder} {s : StoreSession}
  {l : CoinLedger}

theorem showsCoins_empty : ShowsCoins {} {} :=
  ⟨[], fun _ => none, stands_empty, fun _ _ h => (by cases h), rfl, .none⟩

theorem stages_empty (hfiled : AllFiled dat images) :
    Stages {} dat images (coinsOf dat images) :=
  ⟨fun _ h => (by cases h), Staged.wf_empty, hfiled, rfl⟩

section

variable (h : ShowsCoins s l)

include h

/-- Calls that leave the coin files alone. -/
theorem ShowsCoins.of_coins (hsame : store.coins = s.store.coins) :
    ShowsCoins { s with store } l := by
  obtain ⟨dat, images, hs, hrest⟩ := h
  exact ⟨dat, images, hsame.symm ▸ hs, hrest⟩

theorem ShowsCoins.beginBatch :
    ShowsCoins (s.step sha256 .beginBatch) (l.step sha256 .beginBatch) := by
  obtain ⟨dat, images, hs, hfiled, hcoins, -⟩ := h
  refine ⟨dat, images, hs, hfiled, hcoins, .some ?_ fun _ => ⟨rfl, rfl⟩⟩
  exact hcoins ▸ stages_empty hfiled

theorem ShowsCoins.dropBatch :
    ShowsCoins (s.step sha256 .dropBatch) (l.step sha256 .dropBatch) := by
  obtain ⟨dat, images, hs, hfiled, hcoins, -⟩ := h
  exact ⟨dat, images, hs, hfiled, hcoins, .none⟩

theorem ShowsCoins.rollbackToIn {fork : UInt32} (hopen : l.staged ≠ none)
    (huntouched : l.untouched = true) :
    ShowsCoins (s.step sha256 (.rollbackToIn fork))
      (l.step sha256 (.rollbackToIn fork)) := by
  obtain ⟨dat, images, hs, hfiled, hcoins, hbatch⟩ := h
  obtain ⟨store, _⟩ := s
  obtain ⟨lcoins, _, _⟩ := l
  cases hbatch with
  | none => exact absurd rfl hopen
  | @some batch coins hstages hempty =>
    obtain ⟨hnone, hrecords⟩ := hempty huntouched
    obtain ⟨-, ⟨batch', _⟩, hok, ⟨sweep, rfl, rfl, -, hsweeps⟩, -, hs'⟩ :=
      rollbackToIn_spec (C := fun _ _ => True) fork store ⟨rfl, hs⟩
    rw [StoreSession.step_rollbackToIn (s := ⟨store, some batch⟩) rfl hok]
    have hbase : coinsOf dat images = coins := by
      have := hstages.pending.coins_eq
      rwa [hnone, hrecords] at this
    refine ⟨dat, images, hs', hfiled, hcoins, .some ⟨?_, ?_⟩ ?_⟩
    · rintro _ ⟨⟩
      exact hsweeps
    · refine ⟨hstages.pending.wf, ?_, ?_⟩
      · dsimp only
        rw [hrecords]
        exact hfiled.sweep
      · dsimp only
        rw [hrecords, ← hbase]
        exact hfiled.coinsOf_sweep
    · rintro ⟨⟩

end

/-- A run of a procedure on the coin files, seen on the store. -/
theorem coinLift_ok {P : CoinFiles → Prop} {p : CoinProc A}
    {C : CoinWrite → CoinFiles → Prop} {Q : A → CoinFiles → Prop}
    (h : Triple P p C Q)
    (hs : P store.coins) : ∃ a, (coinPart.lift p store).2 = .ok a ∧
      Q a ((coinPart.lift p).exec store).coins := by
  obtain ⟨-, a, hok, ha⟩ := coinLift_spec store.rest h store ⟨rfl, hs⟩
  exact ⟨a, hok, ha.2⟩

theorem ShowsCoins.applyBlockIn (h : ShowsCoins s l) {delta : CoinDelta}
    (hopen : l.staged ≠ none) (hheight : 0 < delta.height) :
    ShowsCoins (s.step sha256 (.applyBlockIn delta))
      (l.step sha256 (.applyBlockIn delta)) := by
  obtain ⟨dat, images, hs, hfiled, hcoins, hbatch⟩ := h
  obtain ⟨store, _⟩ := s
  obtain ⟨lcoins, _, _⟩ := l
  cases hbatch with
  | none => exact absurd rfl hopen
  | @some batch coins hstages hempty =>
    obtain ⟨batch', hok, hsweep, dat', hdat, hover, hs'⟩ := coinLift_ok
      (applyBlockIn_spec hstages.sweeps hstages.pending sha256 delta
        (fun _ _ => hheight) (C := fun _ _ => True) fun _ _ _ _ _ => trivial) hs
    rw [StoreSession.step_applyBlockIn (s := ⟨store, some batch⟩) rfl hok]
    refine ⟨dat', images, hs', hfiled.grow hdat,
      (hfiled.coinsOf_grow hdat).trans hcoins, .some ⟨?_, ?_⟩ ?_⟩
    · rw [hsweep]
      exact hstages.sweeps
    · rw [hsweep]
      exact hover
    · rintro ⟨⟩

/-- Publishing the batch publishes its coins. -/
theorem Stages.flush (h : Stages batch dat images coins)
    (hs : Stands True dat images store.coins) :
    (flushCoinBatch order batch store).2 = .ok () ∧
      Stands True dat (published batch images)
        ((flushCoinBatch order batch).exec store).coins := by
  obtain ⟨-, _, hok, -, hs'⟩ := flushCoinBatch_spec (C := fun _ _ => True)
    order h.pending.wf.nodup h.sweeps (fun _ _ _ _ _ _ => trivial)
    (fun _ _ _ _ _ => ⟨trivial, trivial⟩) store ⟨rfl, hs⟩
  exact ⟨hok, hs'⟩

/-- The writes that leave the coin files alone. -/
def NotCoins (w : StoreWrite) : Prop := ∀ v, w ≠ .coins v

theorem makes_clearReorgJournal : clearReorgJournal.Makes NotCoins := by
  refine Proc.Makes.bind Proc.Makes.read fun armed => ?_
  split_ifs
  · exact Proc.Makes.bind (.write fun _ => nofun) fun _ => .write fun _ => nofun
  · exact Proc.Makes.pure

theorem makes_chainLift (p : ChainFiles.ChainProc A) :
    (chainPart.lift p).Makes NotCoins := by
  apply Proc.Makes.lift
  intro s w hw v
  nofun

theorem coins_of_makes {p : StoreProc A} (h : p.Makes NotCoins) :
    (p.exec store).coins = store.coins := by
  refine h.keeps (I := fun s => s.coins = store.coins) ?_ rfl
  intro s w hw hs
  cases w with
  | coins v => exact absurd rfl (hw v)
  | chain => exact hs
  | hint => exact hs
  | journal => exact hs
  | removeJournal => exact hs
  | armed => exact hs

theorem coins_setPeakIn {newPeak : Bytes32}
    (hok : (flushCoinBatch order batch store).2 = .ok ()) :
    ((setPeakIn order batch newPeak).exec store).coins =
      ((flushCoinBatch order batch).exec store).coins := by
  rw [setPeakIn, Proc.exec_bind hok]
  apply coins_of_makes
  refine Proc.Makes.bind (makes_chainLift _) fun _ => ?_
  exact Proc.Makes.bind makes_clearReorgJournal fun _ => Proc.Makes.pure

theorem coins_commit (hok : (flushCoinBatch order batch store).2 = .ok ()) :
    ((commit order batch).exec store).coins =
      ((flushCoinBatch order batch).exec store).coins := by
  rw [commit, Proc.exec_bind hok]
  exact coins_of_makes makes_clearReorgJournal

section

variable (h : ShowsCoins s l)

include h

theorem ShowsCoins.setPeakIn {newPeak : Bytes32} (hopen : l.staged ≠ none) :
    ShowsCoins (s.step sha256 (.setPeakIn order newPeak))
      (l.step sha256 (.setPeakIn order newPeak)) := by
  obtain ⟨dat, images, hs, hfiled, hcoins, hbatch⟩ := h
  obtain ⟨store, _⟩ := s
  obtain ⟨lcoins, _, _⟩ := l
  cases hbatch with
  | none => exact absurd rfl hopen
  | @some batch coins hstages hempty =>
    obtain ⟨hok, hs'⟩ := hstages.flush hs
    rw [← coins_setPeakIn hok] at hs'
    refine ⟨dat, published batch images, hs', hstages.pending.filed,
      hstages.pending.coins_eq, .some ?_ nofun⟩
    have hempty := stages_empty hstages.pending.filed
    rwa [hstages.pending.coins_eq] at hempty

theorem ShowsCoins.commit (hopen : l.staged ≠ none) :
    ShowsCoins (s.step sha256 (.commit order))
      (l.step sha256 (.commit order)) := by
  obtain ⟨dat, images, hs, hfiled, hcoins, hbatch⟩ := h
  obtain ⟨store, _⟩ := s
  obtain ⟨lcoins, _, _⟩ := l
  cases hbatch with
  | none => exact absurd rfl hopen
  | @some batch coins hstages hempty =>
    obtain ⟨hok, hs'⟩ := hstages.flush hs
    rw [← coins_commit hok] at hs'
    exact ⟨dat, published batch images, hs', hstages.pending.filed,
      hstages.pending.coins_eq, .none⟩

theorem ShowsCoins.applyBlock {delta : CoinDelta} (hclosed : l.staged = none)
    (hheight : 0 < delta.height)
    (hfresh : CoinSet.AddsFresh sha256 delta.height delta.timestamp l.coins
      delta.additions) :
    ShowsCoins (s.step sha256 (.applyBlock order delta))
      (l.step sha256 (.applyBlock order delta)) := by
  obtain ⟨dat, images, hs, hfiled, hcoins, hbatch⟩ := h
  rw [← hcoins] at hfresh
  obtain ⟨-, -, dat', images', hfiled', hcoins', hs'⟩ := coinLift_ok
    (applyBlock_spec order delta hheight hfiled hfresh) hs
  refine ⟨dat', images', hs', hfiled', ?_, ?_⟩
  · rw [hcoins', hcoins]
    rfl
  · obtain ⟨store, batch⟩ := s
    obtain ⟨lcoins, _, _⟩ := l
    cases hclosed
    cases hbatch
    exact .none

theorem ShowsCoins.rollbackTo {fork : UInt32} (hclosed : l.staged = none) :
    ShowsCoins (s.step sha256 (.rollbackTo fork))
      (l.step sha256 (.rollbackTo fork)) := by
  obtain ⟨dat, images, hs, hfiled, hcoins, hbatch⟩ := h
  obtain ⟨-, -, hs'⟩ := coinLift_ok (rollbackTo_spec
    (C := fun _ _ => True) fun _ _ _ _ _ _ => trivial) hs
  refine ⟨dat, _, hs', hfiled.sweep, ?_, ?_⟩
  · rw [hfiled.coinsOf_sweep, hcoins]
    rfl
  · obtain ⟨store, batch⟩ := s
    obtain ⟨lcoins, _, _⟩ := l
    cases hclosed
    cases hbatch
    exact .none

/-- Every allowed call keeps the session and its ledger together. -/
theorem ShowsCoins.step {c : StoreCall} (hc : l.Allows sha256 c) :
    ShowsCoins (s.step sha256 c) (l.step sha256 c) := by
  cases c with
  | beginBatch => exact h.beginBatch
  | rollbackToIn fork => exact h.rollbackToIn hc.1 hc.2
  | applyBlockIn delta => exact h.applyBlockIn hc.1 hc.2
  | applyHintsIn pairs =>
    exact h.of_coins (coins_of_makes (Proc.Makes.each
      (fun pair => .write fun _ => nofun) pairs))
  | setPeakIn order newPeak => exact h.setPeakIn hc
  | commit order => exact h.commit hc
  | dropBatch => exact h.dropBatch
  | applyBlock order delta => exact h.applyBlock hc.1 hc.2.1 hc.2.2
  | rollbackTo fork => exact h.rollbackTo hc
  | addBlockRecords order records =>
    exact h.of_coins (coins_of_makes (makes_chainLift _))

theorem ShowsCoins.run {calls : List StoreCall}
    (hcalls : l.AllowsAll sha256 calls) :
    ShowsCoins (calls.foldl (StoreSession.step sha256) s)
      (calls.foldl (CoinLedger.step sha256) l) := by
  induction calls generalizing s l with
  | nil => exact h
  | cons c cs ih => exact ih (h.step hcalls.1) hcalls.2

end

theorem CoinFiles.coinByName_eq {files : CoinFiles}
    (hfiled : AllFiled files.dat files.image) (name : Bytes32) :
    files.coinByName name = .ok (coinsOf files.dat files.image name) := by
  rw [coinByName, coinsOf, image]
  cases hentry : files.tbl.get (bucketOf coinBuckets) name with
  | none => rfl
  | some entry =>
    dsimp only
    rw [Option.bind_some, CoinEntry.record]
    cases hoff : entry.off with
    | none => rfl
    | some off =>
      obtain ⟨frame, hframe, -⟩ := hfiled name entry hentry off hoff
      dsimp only
      rw [Option.bind_some, hframe, Option.map_some]

theorem CoinFiles.Stands.coinByName {whole : Prop} {files : CoinFiles}
    (hs : Stands whole dat images files)
    (hfiled : AllFiled dat images) (name : Bytes32) :
    files.coinByName name = .ok (coinsOf dat images name) := by
  rw [← hs.dat_eq, ← hs.image_eq] at hfiled ⊢
  exact coinByName_eq hfiled name

/-- The reads of a session are the reads of its ledger. -/
theorem ShowsCoins.reads (h : ShowsCoins s l) :
    (∀ name, s.store.getCoinRecord name = .ok (l.coins name)) ∧
      ∀ names, s.store.coins.getCoinRecords names =
        .ok (names.filterMap l.coins) := by
  obtain ⟨dat, images, hs, hfiled, hcoins, -⟩ := h
  have hone : ∀ name, s.store.coins.coinByName name = .ok (l.coins name) :=
    fun name => hcoins ▸ hs.coinByName hfiled name
  refine ⟨hone, fun names => ?_⟩
  induction names with
  | nil => rfl
  | cons name names ih =>
    rw [getCoinRecords, hone, ih, List.filterMap_cons]
    cases l.coins name <;> rfl

/-- The crash-free coin store refines the map of coins: whatever calls were
made, the records it returns are those of the ledger. -/
theorem mmap_refines_coinSet (sha256 : HashFn) (calls : List StoreCall)
    (hcalls : ({} : CoinLedger).AllowsAll sha256 calls) :
    let store := (calls.foldl (StoreSession.step sha256) {}).store
    let coins := (calls.foldl (CoinLedger.step sha256) {}).coins
    (∀ name, store.getCoinRecord name = .ok (coins name)) ∧
      ∀ names, store.coins.getCoinRecords names = .ok (names.filterMap coins) :=
  (showsCoins_empty.run hcalls).reads

/-- A coin of a puzzle hash and parent of zeros. -/
def plainCoin (amount : UInt64) : CoinRecord :=
  ⟨⟨Bytes32.zero, Bytes32.zero, amount⟩, 0, 0, false, 0, false⟩

/-- A block, and a reorg that replaces it. -/
def reorgCalls : List StoreCall :=
  [.beginBatch, .applyBlockIn ⟨1, 100, [plainCoin 1], []⟩,
    .commit sortedOrder,
    .beginBatch, .rollbackToIn 0, .applyBlockIn ⟨1, 101, [plainCoin 2],
      [(plainCoin 2).coin.name hash256]⟩, .commit sortedOrder]

theorem mmap_refines_coinSet_at_reorg :
    let store := (reorgCalls.foldl (StoreSession.step hash256) {}).store
    store.getCoinRecord ((plainCoin 1).coin.name hash256) = .ok none ∧
      store.getCoinRecord ((plainCoin 2).coin.name hash256) =
        .ok (some ⟨(plainCoin 2).coin, 1, 1, false, 101, true⟩) := by
  have hrefines := mmap_refines_coinSet hash256 reorgCalls
    ⟨rfl, ⟨nofun, by decide⟩, nofun, rfl, ⟨nofun, rfl⟩, ⟨nofun, by decide⟩,
      nofun, trivial⟩
  exact ⟨(hrefines.1 _).trans (by decide +kernel),
    (hrefines.1 _).trans (by decide +kernel)⟩

end DgXch
