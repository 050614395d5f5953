/-
Crash consistency: a process is killed between two file operations of a batch,
and the store is opened again.
-/
import DgXch.MmapReopen

namespace DgXch

open ChainedTable WriteTrace MmapStore List Option Triple ChainFiles Blockchain
open ChainView ChainBlock CoinSet Proc Nat

variable {v : ChainView} {height : UInt32} {f : UInt32} {x : ChainBlock}
  {C : StoreWrite → MmapStore → Prop} {whole : Prop} {s t : MmapStore}
  {c : ChainStep}

variable {before : MmapStore} {keep : List ChainBlock} {batch : MmapBatch}
  {dat' : List CoinFrame}

/-- No batch is open, and the store shows the main chain. -/
structure Settled (sha256 : HashFn) (b : Blockchain) (dat : List CoinFrame)
    (images : CoinImages) (v : ChainView) : Prop where
  shown : Shown sha256 dat images v b.chain
  peak : v.peak = tipOf b.chain
  metaDat : v.metaDat = tipOf b.chain
  knows : ∀ r ∈ b.archive, v.Knows r
  unknown : ∀ hash, (∀ r ∈ b.archive, r.headerHash ≠ hash) → v.base hash = none

/-- The heights above the kept blocks can be taken off. -/
structure Recovering (keep : List ChainBlock) (v : ChainView) : Prop where
  recoverable : v.Recoverable (keep.map ChainBlock.hash)
  room : ∀ height, v.listed height ≠ none → height.toNat < 2 ^ 32 - 1
  knows : ∀ x ∈ keep, v.Knows x.record

theorem Recovering.crown (h : Recovering keep v)
    (peak : Option (Bytes32 × UInt32)) :
    Recovering keep (v.crown peak) :=
  { h with recoverable := { h.recoverable with } }

theorem Recovering.save (h : Recovering keep v) : Recovering keep v.save :=
  { h with recoverable := { h.recoverable with } }

theorem mem_heightsUpTo {start top : Nat}
    (htop : top < 2 ^ 32) : height ∈ heightsUpTo start top ↔
      start ≤ height.toNat ∧ height.toNat ≤ top := by
  rw [heightsUpTo, List.mem_map]
  constructor
  · rintro ⟨i, hi, rfl⟩
    rw [mem_range'_1] at hi
    rw [UInt32.toNat_ofNat', mod_eq_of_lt (by omega)]
    omega
  · intro h
    exact ⟨height.toNat, mem_range'_1.mpr (by omega), UInt32.ofNat_toNat⟩

variable {sha256 : HashFn} {b : Blockchain} {fork : Option UInt32}
  {lower : List ChainBlock} {tip : ChainBlock}

section Publish

variable {dat : List CoinFrame} {images : CoinImages}

theorem Blockchain.keep_append (b : Blockchain) (fork : Option UInt32) :
    ∃ rest, b.chain = b.keep fork ++ rest := by
  cases fork with
  | none => exact ⟨[], (append_nil _).symm⟩
  | some f => exact ⟨_, (take_append_drop _ _).symm⟩

theorem Blockchain.Publishes.keep_length (h : b.Publishes sha256 fork lower tip)
    (hf : fork = some f) :
    (b.keep fork).length = f.toNat + 1 := by
  subst hf
  rw [keep, length_take]
  exact min_eq_left (h.fork_lt f rfl)

theorem Blockchain.Publishes.chain_eq_nil
    (h : b.Publishes sha256 fork lower tip) (hkeep : b.keep fork = []) :
    b.chain = [] := by
  cases hf : fork with
  | none => rwa [hf] at hkeep
  | some f =>
    have hlength := h.keep_length hf
    rw [hkeep] at hlength
    cases hlength

/-- What the blocks of a batch stand on. -/
def stopOf (keep branch : List ChainBlock) : Bytes32 :=
  (keep.getLast?.map ChainBlock.hash).getD
    ((branch.head?.map fun x => x.record.prevHash).getD Bytes32.zero)

theorem descends_batch (h : Connected (keep ++ (lower ++ [tip]))) :
    Descends tip.hash (tip.record :: (lower.map record).reverse)
      (stopOf keep (lower ++ [tip])) := by
  obtain ⟨-, hbranch, hjoin⟩ := isChain_append.mp h.parents
  have hwalk : Descends tip.hash ((lower ++ [tip]).map record).reverse
      (stopOf keep (lower ++ [tip])) := descends_reverse hbranch ?_ ?_
  · rwa [map_append, reverse_append] at hwalk
  · intro x hx
    rw [stopOf, mem_def.mp hx]
    cases hlast : keep.getLast? with
    | none => rfl
    | some y => exact hjoin y hlast x hx
  · rw [getLast?_append, getLast?_singleton]
    rfl

theorem Recovering.retireAll (h : Recovering keep v) {heights : List UInt32}
    (hheights : ∀ height ∈ heights, keep.length ≤ height.toNat) :
    Recovering keep (v.retireAll heights) := by
  refine ⟨h.recoverable.retireAll ?_, fun height hlisted => h.room height ?_,
    h.knows⟩
  · rwa [length_map]
  · intro hnone
    rw [retireAll_listed, hnone, ite_self] at hlisted
    exact hlisted rfl

/-- The heights above the kept blocks. -/
abbrev staleAfter (v : ChainView) (keep : List ChainBlock) : List UInt32 :=
  staleHeights v (keep.length - 1 : Int)

/-- The block files once the stale heights are off. -/
abbrev keptView (v : ChainView) (keep : List ChainBlock) : ChainView :=
  v.retireAll (staleAfter v keep)

/-- The block files after the batch. -/
def publishedView (v : ChainView) (keep lower : List ChainBlock)
    (tip : ChainBlock) : ChainView :=
  (((keptView v keep).linkAll
    (tip.record :: (lower.map ChainBlock.record).reverse)).crown
      (some (tip.hash, tip.record.height))).save

theorem reverse_branch :
    tip.record :: (lower.map record).reverse =
      ((lower ++ [tip]).map record).reverse := by
  rw [map_append, reverse_append]
  rfl

theorem mem_branch {r : BlockRecord}
    (hr : r ∈ tip.record :: (lower.map record).reverse) :
    ∃ x ∈ lower ++ [tip], x.record = r := by
  rw [reverse_branch, mem_reverse] at hr
  exact mem_map.mp hr

theorem Blockchain.Publishes.stacked (h : b.Publishes sha256 fork lower tip) :
    ChainView.Stacked (b.keep fork).length ((lower ++ [tip]).map record) := by
  intro i r hr
  have hheight := h.valid.connected.heights ((b.keep fork).length + i) r (by
    rw [Blockchain.publish, map_append, getElem?_append_right (by simp),
      length_map, Nat.add_sub_cancel_left, hr])
  rw [hheight]
  omega

theorem Blockchain.Publishes.mem_step (_ : b.Publishes sha256 fork lower tip)
    (hx : x ∈ lower ++ [tip]) :
    x ∈ (b.publish fork lower tip).chain :=
  mem_append_right _ hx

/-- The sweep that a batch starts with is that of its fork. -/
def Sweeping (v : ChainView) (fork : Option UInt32) (batch : MmapBatch) : Prop :=
  (batch.sweep.map fun sweep => (sweep.forkHeight, sweep.forkHash)) =
    fork.map fun f => (f, v.listed f)

theorem stageBlocks_spec {coins : CoinSet}
    (hstages : Stages batch dat images coins) (deltas : List CoinDelta)
    (hheight : ∀ delta ∈ deltas, ∀ name ∈ delta.removals, 0 < delta.height)
    (hC : ∀ dat' frame s, dat <+: dat' → s.rest = before →
      CoinFiles.Stands True dat' images s.coins → C (.coins (.frame frame)) s) :
    Triple (fun s => s.rest = before ∧ CoinFiles.Stands True dat images s.coins)
      (fold (applyBlockIn sha256) batch deltas) C
      fun batch' s => ∃ dat', dat <+: dat' ∧
        (Stages batch' dat' images (deltas.foldl (applyBlock sha256) coins) ∧
          batch'.sweep = batch.sweep) ∧ s.rest = before ∧
        CoinFiles.Stands True dat' images s.coins := by
  refine (fold (fun done (batch' : MmapBatch) s => ∃ dat',
    dat <+: dat' ∧ (Stages batch' dat' images
      (done.foldl (applyBlock sha256) coins) ∧
      batch'.sweep = batch.sweep) ∧ s.rest = before ∧
    CoinFiles.Stands True dat' images s.coins) deltas ?_ batch).consequence
    (fun s hs => ⟨dat, prefix_refl _, ⟨hstages, rfl⟩, hs⟩) id fun _ _ => id
  intro done batch' delta rest hsplit
  refine of_exists fun dat' => of_and fun hdat => of_and fun hstage => ?_
  have hin : delta ∈ deltas := by
    rw [hsplit]
    exact mem_append_right _ (mem_cons_self ..)
  refine (coinLift_spec before (CoinFiles.applyBlockIn_spec hstage.1.sweeps
    hstage.1.pending sha256 delta (hheight delta hin) (C := fun w s =>
      ∃ dat' frame, w = .frame frame ∧ dat <+: dat' ∧
        CoinFiles.Stands True dat' images s) fun dat'' frame s hgrown hs =>
          ⟨dat'', frame, rfl, hdat.trans hgrown, hs⟩)).consequence (fun _ => id)
    ?_ ?_
  · rintro w s ⟨hrest, _, rfl, dat'', frame, rfl, hgrown, hs⟩
    exact hC dat'' frame s hgrown hrest hs
  · rintro next s ⟨hrest, hsweep, dat'', hgrown, hover, hs⟩
    refine ⟨dat'', hdat.trans hgrown, ⟨⟨?_, ?_⟩, hsweep.trans hstage.2⟩, hrest,
      hs⟩
    · rw [hsweep]
      exact hstage.1.sweeps
    · rw [hsweep, foldl_append]
      exact hover

def FlagsMain : StoreWrite → Prop
  | .chain (.tbl (.payload _ entry)) => entry.main = true
  | _ => False

/-- The single writes after which a batch can be left: an extension only once
its peak is written, a reorg except between a main flag and its height. -/
def SafeAfter : Option UInt32 → StoreWrite → Prop
  | none, w => ∃ peak, w = .chain (.metaDat peak)
  | some _, w => ¬ FlagsMain w

/-- Before its peak is written, only a reorg can be left. -/
theorem SafeAfter.reorg (h : SafeAfter fork w)
    (hw : ∀ peak, w ≠ .chain (.metaDat peak)) :
    ∃ f, fork = some f ∧ ¬ FlagsMain w := by
  cases fork with
  | none =>
    obtain ⟨peak, hpeak⟩ := h
    exact absurd hpeak (hw peak)
  | some f => exact ⟨f, rfl, h⟩

/-- The store opens as the chain before the batch, its kept part, or the chain
after the batch. -/
def ReopensBatch (sha256 : HashFn) (b : Blockchain)
    (fork : Option UInt32) (lower : List ChainBlock) (tip : ChainBlock)
    (s : MmapStore) : Prop :=
  ∃ chain, (chain = b.chain ∨ chain = b.keep fork ∨
    chain = (b.publish fork lower tip).chain) ∧ Reopens sha256 s chain

theorem Connected.left {rest : List ChainBlock} (h : Connected (keep ++ rest)) :
    Connected keep := by
  refine ⟨fun i r hr => h.heights i r ?_, (isChain_append.mp h.parents).1⟩
  rw [map_append, getElem?_append_left (List.getElem?_eq_some_iff.mp hr).1, hr]

theorem storeAt_of_rest {journal : Option (UInt32 × Option Bytes32)}
    (hrest : s.rest = before) (hchain : ChainAt v before.chain)
    (hjournal : before.journal = journal)
    (hcoins : CoinFiles.Stands whole dat images s.coins) :
    StoreAt whole dat images v journal s := by
  subst hrest
  exact ⟨hcoins, hchain, hjournal⟩

/-- The journal of a batch is that of its fork. -/
theorem journaled_fork (hsweeping : Sweeping v fork batch)
    (hchain : ChainAt v before.chain) (hjournal : before.journal = none) :
    ChainAt v (journaled batch before).chain ∧
      (journaled batch before).journal = (fork.map fun f => (f, v.listed f)) ∧
      ((journaled batch before).journalArmed = true ∨ fork = none) := by
  rw [Sweeping] at hsweeping
  rw [journaled]
  cases hsweep : batch.sweep with
  | none =>
    rw [hsweep] at hsweeping
    exact ⟨hchain, hjournal.trans hsweeping,
      .inr (map_eq_none_iff.mp hsweeping.symm)⟩
  | some sweep =>
    rw [hsweep] at hsweeping
    exact ⟨hchain, hsweeping, .inl rfl⟩

section Batch

variable (h : Settled sha256 b dat images v) (hvalid : b.Valid sha256)
  (hpub : b.Publishes sha256 fork lower tip)

include h hvalid

/-- The heights that the batch takes off are those above the kept blocks. -/
theorem Settled.mem_stale :
    height ∈ staleAfter v (b.keep fork) ↔
      (b.keep fork).length ≤ height.toNat ∧
        height.toNat ≤ b.chain.length - 1 := by
  have htop : ((v.peak.map Prod.snd).getD 0).toNat = b.chain.length - 1 := by
    rw [h.peak, tipOf, Option.map_map]
    cases hlast : b.chain.getLast? with
    | none =>
      rw [getLast?_eq_none_iff.mp hlast]
      rfl
    | some y =>
      rw [getLast?_eq_getElem?] at hlast
      exact hvalid.height_at hlast
  have hlt := hvalid.length_lt
  rw [staleAfter, staleHeights, htop, mem_heightsUpTo (by omega)]
  omega

theorem Settled.recovering : Recovering (b.keep fork) v := by
  obtain ⟨rest, hchain⟩ := b.keep_append fork
  have hlists := h.shown.lists
  have hnodup := hvalid.hashes_nodup
  have hlt := hvalid.length_lt
  refine ⟨?_, fun height hlisted => ?_, fun x hx => h.shown.knows x ?_⟩
  · rw [← length_map ChainBlock.hash] at hlt
    rw [hchain, map_append] at hlists hnodup hlt
    exact hlists.recoverable hnodup (le_of_lt hlt)
  · rw [hlists.listed, getElem?_map] at hlisted
    cases hx : b.chain[height.toNat]? with
    | none =>
      rw [hx] at hlisted
      exact absurd rfl hlisted
    | some x =>
      rw [← hvalid.height_at hx]
      exact hvalid.height_lt x (mem_of_getElem? hx)
  · rw [hchain]
    exact mem_append_left _ hx

/-- While stale heights are taken off, the kept blocks can be recovered. -/
theorem Settled.recovering_retireAll {done : List UInt32}
    (hdone : done ⊆ staleAfter v (b.keep fork)) :
    Recovering (b.keep fork) (v.retireAll done) :=
  (h.recovering hvalid).retireAll fun _ hheight =>
    ((h.mem_stale hvalid).mp (hdone hheight)).1

/-- Once the stale heights are off, the kept blocks are the main chain. -/
theorem Settled.lists_kept :
    (keptView v (b.keep fork)).Lists ((b.keep fork).map ChainBlock.hash) := by
  refine (h.recovering hvalid).recoverable.lists ?_ ?_
  · intro height hheight
    rw [length_map]
    exact ((h.mem_stale hvalid).mp hheight).1
  · intro height hle hlisted
    rw [length_map] at hle
    refine (h.mem_stale hvalid).mpr ⟨hle, ?_⟩
    rw [h.shown.lists.listed] at hlisted
    have hlt : height.toNat < (b.chain.map ChainBlock.hash).length :=
      Nat.lt_of_not_le fun hge => hlisted (getElem?_eq_none hge)
    rw [length_map] at hlt
    omega

include hpub

theorem Settled.stopsAt :
    StopsAt v (stopOf (b.keep fork) (lower ++ [tip]))
      ((b.keep fork).length - 1 : Int) := by
  cases hlast : (b.keep fork).getLast? with
  | none =>
    have hnil := getLast?_eq_none_iff.mp hlast
    have hempty := hpub.chain_eq_nil hnil
    refine .inl ⟨h.unknown _ fun r hr => ?_, by rw [hnil]; rfl⟩
    rw [stopOf, hlast]
    obtain ⟨x, hx⟩ : ∃ x, (lower ++ [tip]).head? = some x := by
      cases lower with
      | nil => exact ⟨tip, rfl⟩
      | cons x rest => exact ⟨x, rfl⟩
    rw [hx]
    exact hpub.root hempty x hx r hr
  | some y =>
    obtain ⟨rest, hchain⟩ := b.keep_append fork
    have hne : b.keep fork ≠ [] := by
      intro hnil
      rw [hnil] at hlast
      cases hlast
    have hpos := length_pos_iff.mpr hne
    have hat : b.chain[(b.keep fork).length - 1]? = some y := by
      rw [hchain, getElem?_append_left (by omega),
        ← getLast?_eq_getElem?, hlast]
    have hy := mem_of_getElem? hat
    obtain ⟨entry, off, hentry, hheight, -⟩ := h.shown.knows y hy
    refine .inr ⟨entry, ?_, ?_, ?_⟩
    · rw [stopOf, hlast]
      exact hentry
    · rw [stopOf, hlast, h.shown.lists.flagged]
      exact mem_map.mpr ⟨y, hy, rfl⟩
    · rw [hheight, hvalid.height_at hat]
      omega

/-- No stale height lists the block that the branch stands on. -/
theorem Settled.stale_ne_stop (hheight : height ∈ staleAfter v (b.keep fork)) :
    v.listed height ≠ some (stopOf (b.keep fork) (lower ++ [tip])) := by
  intro hlisted
  have hle := ((h.mem_stale hvalid).mp hheight).1
  cases hlast : (b.keep fork).getLast? with
  | none =>
    rw [h.shown.lists.listed, hpub.chain_eq_nil
      (getLast?_eq_none_iff.mp hlast)] at hlisted
    cases hlisted
  | some y =>
    have hkept : Recovering (b.keep fork) v := h.recovering hvalid
    rw [stopOf, hlast] at hlisted
    refine hkept.recoverable.high height _ ?_ hlisted
      (mem_map_of_mem (mem_of_getLast? hlast))
    rwa [length_map]

/-- While the branch is linked, the kept blocks can be recovered. -/
theorem Settled.recovering_linkAll {done : List BlockRecord}
    (hdone : done <+: tip.record :: (lower.map record).reverse) :
    Recovering (b.keep fork) ((keptView v (b.keep fork)).linkAll done) := by
  have hkept : Recovering (b.keep fork) (keptView v (b.keep fork)) :=
    h.recovering_retireAll hvalid (Subset.refl _)
  refine ⟨hkept.recoverable.linkAll ?_ ?_, ?_, ?_⟩
  · have hall := hpub.stacked.nodup
    rw [← nodup_reverse, ← map_reverse, ← reverse_branch] at hall
    exact hall.sublist (hdone.sublist.map _)
  · intro r hr
    obtain ⟨x, hx, rfl⟩ := mem_branch (hdone.subset hr)
    obtain ⟨i, hi⟩ := mem_iff_getElem?.mp (mem_map_of_mem (f := record) hx)
    have hle : ((b.keep fork).map hash).length ≤ x.record.height.toNat := by
      rw [length_map, hpub.stacked i _ hi]
      exact le_add_right _ _
    refine ⟨hle, fun hkept => hpub.fresh x hx ?_, ?_⟩
    · obtain ⟨rest, hchain⟩ := b.keep_append fork
      rw [hchain, map_append]
      exact mem_append_left _ hkept
    · rw [(h.lists_kept hvalid).listed]
      exact getElem?_eq_none hle
  · intro height hlisted
    by_cases hin : height ∈ done.map BlockRecord.height
    · obtain ⟨r, hr, rfl⟩ := mem_map.mp hin
      obtain ⟨x, hx, rfl⟩ := mem_branch (hdone.subset hr)
      exact hpub.valid.height_lt x (hpub.mem_step hx)
    · rw [linkAll_listed_of_notMem hin] at hlisted
      exact hkept.room height hlisted
  · intro x hx
    obtain ⟨entry, off, hentry, hrest⟩ := hkept.knows x hx
    refine ⟨entry, off, ?_⟩
    rw [(linkAll_frame _).1, (linkAll_frame _).2.1]
    exact ⟨hentry, hrest⟩

theorem Settled.publishedView_lists :
    (publishedView v (b.keep fork) lower tip).Lists
      ((b.publish fork lower tip).chain.map ChainBlock.hash) := by
  have hstacked := hpub.stacked
  rw [← length_map ChainBlock.hash] at hstacked
  have hlists := (h.lists_kept hvalid).linkAll hstacked
  rw [← reverse_branch, List.map_map] at hlists
  rw [Blockchain.publish, map_append]
  exact ⟨hlists.listed, hlists.flagged⟩

/-- `set_peak` on the block files of a batch.  Between its writes the kept
blocks can be recovered, except just after a main flag is set. -/
theorem Settled.setPeak_spec {C : ChainWrite → ChainFiles → Prop}
    (hrecovering : ∀ write s v', ChainAt v' s → Recovering (b.keep fork) v' →
      (∀ peak, write ≠ .metaDat peak) → C write s)
    (hflag : ∀ index (entry : BlockEntry) s,
      C (.tbl (.payload index (entry.withMain true))) s)
    (hmeta : ∀ peak s, ChainAt (publishedView v (b.keep fork) lower tip) s →
      C (.metaDat peak) s) :
    Triple (ChainAt v) (setPeak tip.hash) C fun _ =>
      ChainAt (publishedView v (b.keep fork) lower tip) := by
  apply ChainFiles.setPeak_spec (descends_batch hpub.valid.connected)
  · intro r hr
    obtain ⟨x, hx, rfl⟩ := mem_branch hr
    refine ⟨h.knows _ (hpub.valid.archived x (hpub.mem_step hx)), ?_⟩
    rw [← Bool.not_eq_true, h.shown.lists.flagged]
    exact hpub.fresh x hx
  · have hnodup := hpub.valid.hashes_nodup
    rw [Blockchain.publish, map_append] at hnodup
    rw [reverse_branch, List.map_reverse, List.nodup_reverse, List.map_map]
    exact (nodup_append.mp hnodup).2.1
  · intro r hr
    obtain ⟨x, hx, rfl⟩ := mem_branch hr
    exact hpub.nonzero x hx
  · exact h.stopsAt hvalid hpub
  · have hlt := hvalid.length_lt
    obtain ⟨rest, hchain⟩ := b.keep_append fork
    rw [hchain, length_append] at hlt
    omega
  · exact fun height => h.stale_ne_stop hvalid hpub
  · intro done height rest hash index entry s
      (hsplit : staleAfter v (b.keep fork) = _) hlisted hs
    have hdone := h.recovering_retireAll hvalid
      (hsplit ▸ subset_append_left done _)
    refine hrecovering _ s _ hs ⟨hdone.recoverable.flag_false ?_ hlisted,
      hdone.room, hdone.knows⟩ nofun
    rw [length_map]
    exact ((h.mem_stale hvalid).mp
      (hsplit ▸ mem_append_right done (mem_cons_self ..))).1
  · intro done height rest s (hsplit : staleAfter v (b.keep fork) = _) hs
    rw [append_cons] at hsplit
    exact hrecovering _ s _ hs (h.recovering_retireAll hvalid
      (hsplit ▸ subset_append_left _ _)) nofun
  · exact hflag
  · intro done r rest s hsplit hs
    refine hrecovering _ s _ hs (h.recovering_linkAll hvalid hpub ?_) nofun
    rw [hsplit, append_cons done r rest]
    exact prefix_append _ _
  · rfl
  · intro s hs
    exact hrecovering _ s _ hs (Recovering.crown (h.recovering_linkAll hvalid
      hpub (prefix_refl _)) _) nofun
  · exact fun s hs => hmeta _ s hs

theorem startBatch_spec (hbefore : ChainAt v before.chain) :
    Triple (fun s => s.rest = before ∧
        CoinFiles.Stands True dat images s.coins) (startBatch fork) C
      fun batch s => (Stages batch dat images (coinsAt sha256 (b.keep fork)) ∧
          Sweeping v fork batch) ∧ s.rest = before ∧
        CoinFiles.Stands True dat images s.coins := by
  have hfiled := h.shown.filed
  cases hf : fork with
  | none =>
    refine pure fun s hs => ⟨⟨?_, rfl⟩, hs⟩
    rw [keep, ← h.shown.coins_eq]
    exact stages_empty hfiled
  | some f =>
    obtain ⟨rest, hchain⟩ := b.keep_append fork
    have hrollback := hvalid.rollback hchain (hpub.keep_length hf)
    refine bind (rollbackToIn_spec f) fun result => ?_
    obtain ⟨batch, touched⟩ := result
    refine pure ?_
    rintro s ⟨⟨sweep, rfl, hfork, hhash, hsweeps⟩, hs⟩
    refine ⟨⟨⟨?_, Staged.wf_empty, ?_, ?_⟩, ?_⟩, hs⟩
    · rintro _ ⟨⟩
      rw [hfork]
      exact hsweeps
    · exact hfiled.sweep
    · change coinsOf dat (fun key => (images key).map
        (CoinEntry.sweep sweep.forkHeight)) = _
      rw [hfiled.coinsOf_sweep, h.shown.coins_eq, hfork, hrollback, hf]
    · rw [Sweeping, map_some, map_some, hfork, hhash, ← hbefore.listed]

/-- Opening a torn reorg. -/
theorem Settled.reopens_kept (hf : fork = some f) {torn : CoinImages}
    {v' : ChainView}
    (hs : StoreAt whole dat' torn v' (fork.map fun f => (f, v.listed f)) s)
    (hrecovering : Recovering (b.keep fork) v') (hfiled : AllFiled dat' torn)
    (hcoins : rollback f (coinsOf dat' torn) = coinsAt sha256 (b.keep fork)) :
    ReopensBatch sha256 b fork lower tip s := by
  obtain ⟨rest, hchain⟩ := b.keep_append fork
  have hconnected := hvalid.connected
  have hlength := hpub.keep_length hf
  have hlt := hvalid.length_lt
  rw [hchain] at hconnected
  rw [hchain, length_append] at hlt
  have htip : ((v.listed f).map fun hash => (hash, f)) =
      tipOf (b.keep fork) := by
    have hlast : (b.keep fork).getLast? = b.chain[f.toNat]? := by
      rw [getLast?_eq_getElem?, hlength, hchain,
        getElem?_append_left (by omega)]
      rfl
    rw [h.shown.lists.listed, List.getElem?_map, tipOf, hlast, Option.map_map]
    cases hx : b.chain[f.toNat]? with
    | none => rfl
    | some x =>
      have hheight : x.record.height = f :=
        UInt32.toNat_inj.mp (hvalid.height_at hx)
      rw [map_some, map_some, hheight]
      rfl
  rw [hf] at hs
  exact ⟨b.keep fork, .inr (.inl rfl), hs.converges hconnected.left hlength htip
    hrecovering.recoverable hrecovering.room (by omega) hrecovering.knows hfiled
    hcoins⟩

/-- What the batch leaves is settled. -/
theorem Settled.publish {images' : CoinImages} (hfiled : AllFiled dat' images')
    (hcoins : coinsOf dat' images' =
      coinsAt sha256 (b.publish fork lower tip).chain) :
    Settled sha256 (b.publish fork lower tip) dat' images'
      (publishedView v (b.keep fork) lower tip) := by
  have hknows : ∀ r ∈ b.archive,
      (publishedView v (b.keep fork) lower tip).Knows r := by
    intro r hr
    obtain ⟨entry, off, hentry, hrest⟩ := h.knows r hr
    refine ⟨entry, off, ?_⟩
    rw [publishedView]
    simp only [save, crown, linkAll_frame]
    exact ⟨hentry, hrest⟩
  have htip : tipOf (b.publish fork lower tip).chain =
      some (tip.hash, tip.record.height) := by
    rw [tipOf, Blockchain.publish, getLast?_append, getLast?_append,
      getLast?_singleton]
    rfl
  refine ⟨⟨hpub.valid.connected, hfiled, hcoins,
    h.publishedView_lists hvalid hpub, fun x hx =>
      hknows _ (hpub.valid.archived x hx)⟩, htip.symm, htip.symm, hknows, ?_⟩
  intro hash hhash
  simp only [publishedView, save, crown, linkAll_frame]
  exact h.unknown hash hhash

theorem Settled.recovering_publishedView :
    Recovering (b.keep fork) (publishedView v (b.keep fork) lower tip) :=
  Recovering.save (Recovering.crown (h.recovering_linkAll hvalid hpub
    (prefix_refl _)) _)

section

variable (order : IterationOrder) (hdat : dat <+: dat')
  (hstages : Stages batch dat' images
    (coinsAt sha256 (b.publish fork lower tip).chain))
  (hsweeping : Sweeping v fork batch) (hchain : ChainAt v before.chain)
  (hjournal : before.journal = none)

include hdat hstages hsweeping hchain hjournal

/-- The coin side of a batch: the journal first, then the payloads. -/
theorem Settled.flush_spec :
    Triple (fun s => s.rest = before ∧
        CoinFiles.Stands True dat' images s.coins)
      (flushCoinBatch order batch)
      (fun w s => SafeAfter fork w → ReopensBatch sha256 b fork lower tip s)
      fun _ s => (s.journalArmed = true ∨ fork = none) ∧
        StoreAt True dat' (published batch images) v
          (fork.map fun f => (f, v.listed f)) s := by
  have hfiled := h.shown.filed.grow hdat
  have hcoins : coinsOf dat' images = coinsAt sha256 b.chain :=
    (h.shown.filed.coinsOf_grow hdat).trans h.shown.coins_eq
  obtain ⟨hchain', hjournal', harmed⟩ :=
    journaled_fork hsweeping hchain hjournal
  have htorn : ∀ {f : UInt32} {torn}, fork = some f →
      TornBy batch images torn → AllFiled dat' torn ∧
        rollback f (coinsOf dat' torn) = coinsAt sha256 (b.keep fork) := by
    intro f torn hf hby
    rw [Sweeping, hf] at hsweeping
    obtain ⟨sweep, hsweep, hfork⟩ := map_eq_some_iff.mp hsweeping
    obtain ⟨rest, hkeep⟩ := b.keep_append fork
    cases (Prod.mk.inj hfork).1
    exact TornBy.rollback hby hstages hsweep hfiled hcoins
      (hvalid.rollback hkeep (hpub.keep_length hf))
      (hpub.valid.rollback rfl (hpub.keep_length hf))
  refine (flushCoinBatch_spec order hstages.pending.wf.nodup hstages.sweeps
    ?_ ?_).consequence (fun _ => id) id ?_
  · intro write torn s hrest hs hby hsafe
    obtain ⟨f, hf, -⟩ := hsafe.reorg nofun
    obtain ⟨hfiled', hcoins'⟩ := htorn hf hby
    exact h.reopens_kept hvalid hpub hf
      (storeAt_of_rest hrest hchain' hjournal' hs) (h.recovering hvalid)
      hfiled' hcoins'
  · intro sweep hsweep s hrest hs
    obtain ⟨f, hf⟩ : ∃ f, fork = some f := by
      rw [Sweeping, hsweep] at hsweeping
      obtain ⟨f, hf, -⟩ := map_eq_some_iff.mp hsweeping.symm
      exact ⟨f, hf⟩
    obtain ⟨-, hcoins'⟩ := htorn hf fun key => .inl (Eq.refl (images key))
    have hat : StoreAt True dat' images (v.crown v.metaDat)
        (fork.map fun f => (f, v.listed f)) s.restarted :=
      storeAt_of_rest hrest hchain'.reread hjournal' hs
    have hopen : ReopensBatch sha256 b fork lower tip s.restarted :=
      h.reopens_kept hvalid hpub hf hat ((h.recovering hvalid).crown _) hfiled
        hcoins'
    exact ⟨fun _ => hopen, fun _ => hopen⟩
  · intro _ s hs
    refine ⟨?_, storeAt_of_rest hs.1 hchain' hjournal' hs.2⟩
    rwa [← hs.1] at harmed

theorem Settled.setPeakIn_spec :
    Triple (fun s => s.rest = before ∧
        CoinFiles.Stands True dat' images s.coins)
      (setPeakIn order batch tip.hash)
      (fun w s => SafeAfter fork w → ReopensBatch sha256 b fork lower tip s)
      fun _ s => s.journalArmed = false ∧
        StoreAt True dat' (published batch images)
          (publishedView v (b.keep fork) lower tip) none s := by
  have hsettled := h.publish hvalid hpub hstages.pending.filed
    hstages.pending.coins_eq
  have hnew : ∀ {s}, StoreAt True dat' (published batch images)
      (publishedView v (b.keep fork) lower tip) none s →
      ReopensBatch sha256 b fork lower tip s := fun hs =>
    ⟨_, .inr (.inr rfl), hs.reopens hsettled.shown hsettled.metaDat
      hpub.valid.length_lt⟩
  have hkept : ∀ {f v' s}, fork = some f → Recovering (b.keep fork) v' →
      StoreAt True dat' (published batch images) v'
        (fork.map fun f => (f, v.listed f)) s →
      ReopensBatch sha256 b fork lower tip s := by
    intro f v' s hf hrecovering hs
    refine h.reopens_kept hvalid hpub hf hs hrecovering hstages.pending.filed ?_
    exact (congrArg _ hstages.pending.coins_eq).trans
      (hpub.valid.rollback rfl (hpub.keep_length hf))
  have hchain' : Triple (ChainAt v) (setPeak tip.hash)
      (fun w s => SafeAfter fork (.chain w) → (fork = none ∧
          ChainAt (publishedView v (b.keep fork) lower tip) s) ∨
        ∃ f v', fork = some f ∧ Recovering (b.keep fork) v' ∧ ChainAt v' s)
      fun _ => ChainAt (publishedView v (b.keep fork) lower tip) := by
    apply h.setPeak_spec hvalid hpub
    · intro write s v' hs hrecovering hwrite hsafe
      obtain ⟨f, hf, -⟩ := hsafe.reorg fun peak hpeak =>
        hwrite peak (StoreWrite.chain.inj hpeak)
      exact .inr ⟨f, v', hf, hrecovering, hs⟩
    · intro index entry s hsafe
      obtain ⟨f, -, hflags⟩ := hsafe.reorg nofun
      exact absurd rfl hflags
    · intro peak s hs hsafe
      cases hf : fork with
      | none => exact .inl ⟨rfl, hf ▸ hs⟩
      | some f => exact .inr ⟨f, _, rfl,
          hf ▸ h.recovering_publishedView hvalid hpub, hs⟩
  refine bind (h.flush_spec hvalid hpub order hdat hstages hsweeping
    hchain hjournal) fun _ => ?_
  refine bind ((lift chainPart (F := fun s =>
    (s.journalArmed = true ∨ fork = none) ∧
      CoinFiles.Stands True dat' (published batch images) s.coins ∧
      s.journal = fork.map fun f => (f, v.listed f)) (fun _ _ => id)
    hchain').consequence
      (fun s hs => ⟨⟨hs.1, hs.2.coins, hs.2.journal⟩, hs.2.chain⟩) ?_
      fun _ _ => id) fun links => ?_
  · rintro w s ⟨⟨-, hcoins, hjournal⟩, write, rfl, hC⟩ hsafe
    rcases hC hsafe with ⟨hf, hs⟩ | ⟨f, v', hf, hrecovering, hs⟩
    · rw [hf] at hjournal
      exact hnew ⟨hcoins, hs, hjournal⟩
    · exact hkept hf hrecovering ⟨hcoins, hs, hjournal⟩
  refine bind ((clearReorgJournal_spec ?_ ?_).consequence (fun s hs =>
    ⟨?_, hs.1.2.1, hs.2, hs.1.2.2⟩) id fun _ _ => id) fun _ => pure fun _ => id
  · intro s hs hsafe
    obtain ⟨f, hf, -⟩ := hsafe.reorg nofun
    exact hkept hf (h.recovering_publishedView hvalid hpub) hs
  · exact fun s hs _ => hnew hs
  · refine hs.1.1.imp_right fun hf => ?_
    rw [hf]
    rfl

end

/-- A published batch: what it leaves, and how it opens when it is killed after
one of its writes. -/
theorem Settled.publishBatch_rest (order : IterationOrder)
    (hchain : ChainAt v before.chain) (hjournal : before.journal = none) :
    Triple (fun s => s.rest = before ∧ CoinFiles.Stands True dat images s.coins)
      (publishBatch sha256 order fork ((lower ++ [tip]).map delta) tip.hash)
      (fun w s => SafeAfter fork w → ReopensBatch sha256 b fork lower tip s)
      fun _ s => ∃ dat' images' v',
        Settled sha256 (b.publish fork lower tip) dat' images' v' ∧
        s.journalArmed = false ∧ StoreAt True dat' images' v' none s := by
  refine bind (startBatch_spec h hvalid hpub hchain) fun batch =>
    of_and fun hstart => ?_
  have haccepts := hpub.valid.accepts.height_pos
  refine bind (stageBlocks_spec hstart.1 _ (fun delta hdelta =>
    haccepts delta ?_) ?_) fun batch' => of_exists fun dat' =>
      of_and fun hdat => of_and fun hstage => ?_
  · rw [Blockchain.publish, map_append]
    exact mem_append_right _ hdelta
  · intro dat' frame s hdat hrest hs hsafe
    have hat := storeAt_of_rest hrest hchain hjournal hs
    refine ⟨b.chain, .inl rfl, hat.reopens ⟨h.shown.connected,
      h.shown.filed.grow hdat, ?_, h.shown.lists, h.shown.knows⟩ h.metaDat
      hvalid.length_lt⟩
    exact (h.shown.filed.coinsOf_grow hdat).trans h.shown.coins_eq
  obtain ⟨hstages, hsweep⟩ := hstage
  have hsweeping : Sweeping v fork batch' := by
    rw [Sweeping, hsweep]
    exact hstart.2
  rw [coinsAt, replay, ← foldl_append, ← map_append] at hstages
  refine bind (h.setPeakIn_spec hvalid hpub order hdat hstages hsweeping
    hchain hjournal) fun _ => ?_
  have hsettled := h.publish hvalid hpub hstages.pending.filed
    hstages.pending.coins_eq
  have hnone : flushCoinBatch order {} = pure () := if_pos ⟨rfl, rfl⟩
  rw [commit, hnone]
  refine bind (Q := fun _ s => StoreAt True dat'
    (published batch' images) (publishedView v (b.keep fork) lower tip) none s)
    (pure fun _ hs => hs.2) fun _ =>
      (clearReorgJournal_spec ?_ ?_).consequence (fun s hs => ⟨.inr rfl, hs⟩) id
        fun _ s hs => ⟨dat', published batch' images, _, hsettled, hs⟩
  all_goals
    intro s hs _
    exact ⟨_, .inr (.inr rfl), hs.reopens hsettled.shown hsettled.metaDat
      hpub.valid.length_lt⟩

end Batch

end Publish

/-- A write that no read of the store sees: a frame in the log, a record past
the count of the coin table, or that count. -/
def Invisible (s : MmapStore) : StoreWrite → Prop
  | .coins (.frame _) => True
  | .coins (.tbl (.slot index _)) => s.coins.tbl.count ≤ index
  | .coins (.tbl (.count _)) => True
  | _ => False

/-- What invisible writes change. -/
structure Hides (s t : MmapStore) : Prop where
  chain : t.chain = s.chain
  journal : t.journal = s.journal
  dat : s.coins.dat <+: t.coins.dat
  slots : ∀ i < s.coins.tbl.count,
    t.coins.tbl.slots[i]? = s.coins.tbl.slots[i]?
  heads : t.coins.tbl.heads = s.coins.tbl.heads
  room : s.coins.tbl.count ≤ t.coins.tbl.slots.length

theorem Hides.write (h : Hides s t) {w : StoreWrite}
    (hw : Invisible s w) : Hides s (Writable.write t w) := by
  cases w with
  | coins write =>
    cases write with
    | frame frame => exact { h with dat := h.dat.trans (prefix_append _ _) }
    | tbl write =>
      cases write with
      | slot index slot =>
        refine { h with slots := fun i hi => ?_, room := ?_ }
        · exact (Table.writeAt_below _ _ (lt_of_lt_of_le hi hw)
            (lt_of_lt_of_le hi h.room)).trans (h.slots i hi)
        · exact le_trans h.room (Table.length_le_writeAt ..)
      | count n => exact { h with }
      | head => cases hw
      | payload => cases hw
  | chain => cases hw
  | hint => cases hw
  | journal => cases hw
  | removeJournal => cases hw
  | armed => cases hw

theorem Hides.writes (h : Hides s t) {ws : List StoreWrite}
    (hws : ∀ w ∈ ws, Invisible s w) : Hides s (WriteTrace.writes t ws) :=
  writes_keep (fun _ w hw h => h.write (hws w hw)) h

/-- A store after a run, with no batch open. -/
def Standing (sha256 : HashFn) (b : Blockchain) (s : MmapStore) : Prop :=
  ∃ dat images v, Settled sha256 b dat images v ∧ s.journalArmed = false ∧
    StoreAt True dat images v none s

section Runs

variable {order : IterationOrder}

theorem openStore_none (h : s.journal = none) : openStore s = ([], .ok ()) := by
  simp only [openStore, Bind.bind, Proc.bind, Proc.read, h]
  rfl

/-- Invisible writes are not seen when the store is opened. -/
theorem Standing.reopens_hidden (h : Standing sha256 b s)
    (hvalid : b.Valid sha256) (hhides : Hides s t) :
    Reopens sha256 t b.chain := by
  obtain ⟨dat, images, v, hsettled, -, hs⟩ := h
  have himage : t.coins.image = images := by
    rw [← hs.coins.image_eq]
    exact hs.coins.sound.get_congr hhides.slots hhides.heads
  have hdat : dat <+: t.coins.dat := hs.coins.dat_eq ▸ hhides.dat
  have hold := hsettled.shown.filed
  have hfiled : AllFiled t.coins.dat t.coins.image := by
    rw [himage]
    exact hold.grow hdat
  have hjournal : t.restarted.journal = none := hhides.journal.trans hs.journal
  obtain ⟨-, hdescribes⟩ := hs.reopens hsettled.shown hsettled.metaDat
    hvalid.length_lt
  rw [exec, openStore_none (s := s.restarted) hs.journal] at hdescribes
  refine ⟨by rw [openStore_none hjournal], ?_⟩
  rw [exec, openStore_none hjournal]
  have hchain : t.restarted.chain = s.restarted.chain := by
    rw [restarted, restarted, hhides.chain]
  refine ⟨hdescribes.connected, ?_, ?_, ?_, ?_, fun name => ?_⟩
  · exact (congrArg ChainFiles.peak hchain).trans hdescribes.peak
  · exact hchain.symm ▸ hdescribes.heights
  · intro height
    refine Eq.trans ?_ (hdescribes.records height)
    exact congrArg (fun files => ChainFiles.getBlockRecordByHeight files height)
      hchain
  · exact hchain.symm ▸ hdescribes.main
  · rw [← hsettled.shown.coins_eq, ← hold.coinsOf_grow hdat, ← himage]
    exact CoinFiles.coinByName_eq hfiled name

theorem standing_empty : Standing sha256 {} {} := by
  have hvalid : ({} : Blockchain).Valid sha256 := valid_empty
  have hlisted : ({} : HeightIndex).get = fun _ => none := by
    funext height
    rw [HeightIndex.get_eq_slotAt, if_pos rfl]
  refine ⟨[], fun _ => none, ⟨[], fun _ => none, fun _ => false, fun _ => none,
    none, none⟩, ⟨⟨hvalid.connected, nofun, rfl, ⟨fun _ => rfl, fun _ => ?_⟩,
      ?_⟩, rfl, rfl, ?_, fun _ _ => rfl⟩, rfl, CoinFiles.stands_empty,
    ⟨Table.sound_empty, Table.linked_empty, rfl, fun _ => rfl, hlisted, rfl,
      rfl⟩, rfl⟩
  · exact ⟨nofun, fun h => absurd h not_mem_nil⟩
  · exact fun _ h => absurd h not_mem_nil
  · exact fun _ h => absurd h not_mem_nil

theorem Blockchain.Valid.step (h : b.Valid sha256)
    (hc : b.Allows sha256 c) : (b.step c).Valid sha256 := by
  cases c with
  | publish order fork lower tip => exact hc.valid
  | archive order r =>
    refine { h with
      archived := fun x hx => mem_append_left _ (h.archived x hx)
      nodup := ?_ }
    rw [step, map_append]
    refine nodup_append.mpr ⟨h.nodup, nodup_singleton _, ?_⟩
    rintro hash hhash _ (_ | ⟨_, ⟨⟩⟩) rfl
    obtain ⟨r', hr', hsame⟩ := mem_map.mp hhash
    exact hc r' hr' hsame

section

variable (h : Standing sha256 b s) (hvalid : b.Valid sha256)

include h hvalid

theorem Standing.archive {r : BlockRecord}
    (hc : ∀ r' ∈ b.archive, r'.headerHash ≠ r.headerHash) :
    Standing sha256 (b.step (.archive order r))
      ((runStep sha256 (.archive order r)).exec s) := by
  obtain ⟨dat, images, v, hsettled, harmed, hs⟩ := h
  have hflag : v.flags r.headerHash = false := by
    rw [← Bool.not_eq_true, hsettled.shown.lists.flagged]
    intro hmem
    obtain ⟨x, hx, hsame⟩ := mem_map.mp hmem
    exact hc x.record (hvalid.archived x hx) hsame
  obtain ⟨-, _, -, hframe, hchain⟩ := lift chainPart (F := fun s =>
    s.journalArmed = false ∧ CoinFiles.Stands True dat images s.coins ∧
      s.journal = none) (fun _ _ => id)
    (addBlockRecords_spec order (hsettled.unknown _ hc) hflag) s
    ⟨⟨harmed, hs.coins, hs.journal⟩, hs.chain⟩
  have hknows : ∀ r' ∈ b.archive, (v.archive r).Knows r' := fun r' hr' =>
    (hsettled.knows r' hr').archive (hc r' hr')
  refine ⟨dat, images, v.archive r, ⟨{ hsettled.shown with
      lists := { hsettled.shown.lists with }
      knows := fun x hx => hknows _ (hvalid.archived x hx) }, hsettled.peak,
    hsettled.metaDat, ?_, ?_⟩, hframe.1, hframe.2.1, hchain, hframe.2.2⟩
  · exact forall_mem_append.mpr
      ⟨hknows, forall_mem_singleton.mpr (v.knows_archive r)⟩
  · intro hash hhash
    have hne : hash ≠ r.headerHash := fun hsame =>
      hhash r (mem_append_right _ (mem_singleton_self r)) hsame.symm
    exact (Function.update_of_ne hne _ _).trans (hsettled.unknown hash
      fun r' hr' => hhash r' (mem_append_left _ hr'))

theorem Standing.publish (hpub : b.Publishes sha256 fork lower tip) :
    Along (fun w t => SafeAfter fork w →
        ReopensBatch sha256 b fork lower tip t) s
      (runStep sha256 (.publish order fork lower tip) s).1 ∧
      Standing sha256 (b.publish fork lower tip)
        ((runStep sha256 (.publish order fork lower tip)).exec s) := by
  obtain ⟨dat, images, v, hsettled, harmed, hs⟩ := h
  have hrest : ChainAt v s.rest.chain ∧ s.rest.journal = none :=
    ⟨hs.chain, hs.journal⟩
  obtain ⟨halong, _, -, hend⟩ := hsettled.publishBatch_rest hvalid hpub order
    hrest.1 hrest.2 s ⟨rfl, hs.coins⟩
  exact ⟨halong, hend⟩

theorem Standing.step (hc : b.Allows sha256 c) :
    Standing sha256 (b.step c) ((runStep sha256 c).exec s) := by
  cases c with
  | archive order r => exact h.archive hvalid hc
  | publish order fork lower tip => exact (h.publish hvalid hc).2

theorem Standing.run {steps rest : List ChainStep}
    (hallows : b.AllowsAll sha256 (steps ++ rest)) :
    Standing sha256 (steps.foldl Blockchain.step b)
        (steps.foldl (fun s c => (runStep sha256 c).exec s) s) ∧
      (steps.foldl Blockchain.step b).Valid sha256 ∧
      (steps.foldl Blockchain.step b).AllowsAll sha256 rest := by
  induction steps generalizing b s with
  | nil => exact ⟨h, hvalid, hallows⟩
  | cons c steps ih =>
    exact ih (h.step hvalid hallows.1) (hvalid.step hallows.1) hallows.2

end

end Runs

/-- The store after a run from the empty one. -/
def runSteps (sha256 : HashFn) (steps : List ChainStep) : MmapStore :=
  steps.foldl (fun s c => (runStep sha256 c).exec s) {}

/-- The kills that a batch survives: of an extension, before any of its writes
is seen or once its peak is written; of a reorg, at any point except just after
a main flag is set. -/
def SafeKill (s : MmapStore) (made : List StoreWrite) : Option UInt32 → Prop
  | none => (∀ w ∈ made, Invisible s w) ∨
      ∃ peak, made.getLast? = some (.chain (.metaDat peak))
  | some _ => ∀ w ∈ made.getLast?, ¬ FlagsMain w

/-- A batch that is killed at a safe point opens as one chain: the one before
the batch, its part up to the fork, or the one after it. -/
theorem killed_batch_reopens (sha256 : HashFn)
    (steps : List ChainStep) (order : IterationOrder) (fork : Option UInt32)
    (lower : List ChainBlock) (tip : ChainBlock)
    (hsteps : ({} : Blockchain).AllowsAll sha256
      (steps ++ [.publish order fork lower tip])) (made : Nat) :
    let s := runSteps sha256 steps
    let batch := runStep sha256 (.publish order fork lower tip)
    SafeKill s ((batch s).1.take made) fork →
      ReopensBatch sha256 (steps.foldl Blockchain.step {}) fork lower tip
        (batch.killed made s) := by
  intro s batch hsafe
  obtain ⟨hs, hvalid, hpub, -⟩ : Standing sha256 _ s ∧ _ :=
    standing_empty.run Blockchain.valid_empty hsteps
  have halong : Along _ s (batch s).1 := (hs.publish hvalid hpub).1
  have hhides : Hides s s := ⟨rfl, rfl, prefix_refl _, fun _ _ => rfl, rfl, ?_⟩
  rcases halong.take made with hnil | ⟨w, hlast, hreopens⟩
  · refine ⟨_, .inl rfl, hs.reopens_hidden hvalid ?_⟩
    rw [killed, hnil]
    exact hhides
  · cases fork with
    | some f => exact hreopens (hsafe w hlast)
    | none =>
      rcases hsafe with hinvisible | ⟨peak, hpeak⟩
      · exact ⟨_, .inl rfl, hs.reopens_hidden hvalid (hhides.writes hinvisible)⟩
      · rw [hlast] at hpeak
        exact hreopens ⟨peak, Option.some.inj hpeak⟩
  · obtain ⟨dat, images, v, -, -, hat⟩ := hs
    exact hat.coins.sound.count_le

instance : DecidablePred FlagsMain
  | .chain (.tbl (.payload _ entry)) =>
    inferInstanceAs (Decidable (entry.main = true))
  | .chain (.tbl (.slot ..)) => .isFalse nofun
  | .chain (.tbl (.count _)) => .isFalse nofun
  | .chain (.tbl (.head ..)) => .isFalse nofun
  | .chain (.record _) => .isFalse nofun
  | .chain (.height ..) => .isFalse nofun
  | .chain (.metaDat _) => .isFalse nofun
  | .chain (.peak _) => .isFalse nofun
  | .coins _ => .isFalse nofun
  | .hint _ => .isFalse nofun
  | .journal .. => .isFalse nofun
  | .removeJournal => .isFalse nofun
  | .armed _ => .isFalse nofun

def plainGenesis : ChainBlock :=
  ⟨plainRecord (plainHash 1) (plainHash 0) 0, ⟨0, 100, [plainCoin 1], []⟩⟩

/-- A block on the genesis block, without coins. -/
def plainChild (byte : UInt8) : ChainBlock :=
  ⟨plainRecord (plainHash byte) (plainHash 1) 1, ⟨1, 101, [], []⟩⟩

/-- Three archived blocks, two of them published. -/
def plainSteps : List ChainStep :=
  [.archive sortedOrder plainGenesis.record,
    .archive sortedOrder (plainChild 2).record,
    .archive sortedOrder (plainChild 3).record,
    .publish sortedOrder none [plainGenesis] (plainChild 2)]

/-- A reorg to the other child. -/
def plainReorg : ChainStep := .publish sortedOrder (some 0) [] (plainChild 3)

theorem plain_valid {archive : List BlockRecord} {byte : UInt8}
    (harchive : (archive.map BlockRecord.headerHash).Nodup)
    (hgenesis : plainGenesis.record ∈ archive)
    (hchild : (plainChild byte).record ∈ archive) :
    (⟨archive, [plainGenesis, plainChild byte]⟩ : Blockchain).Valid hash256 where
  connected := by
    refine ⟨?_, isChain_pair.mpr rfl⟩
    rintro (_ | _ | i) r hr
    · cases hr
      rfl
    · cases hr
      rfl
    · cases hr
  archived x hx := by
    rcases mem_pair.mp hx with rfl | rfl
    · exact hgenesis
    · exact hchild
  nodup := harchive
  height_lt x hx := by
    rcases mem_pair.mp hx with rfl | rfl
    · decide
    · exact show 1 < 2 ^ 32 - 1 by decide
  height_eq x hx := by rcases mem_pair.mp hx with rfl | rfl <;> rfl
  accepts := ⟨⟨nodup_singleton _, fun _ _ => rfl, nofun, nofun⟩,
    ⟨nodup_nil, nofun, nofun, nofun⟩, trivial⟩

/-- The records of the three blocks. -/
def plainArchive : List BlockRecord :=
  [plainGenesis.record, (plainChild 2).record, (plainChild 3).record]

theorem plain_extension : (⟨plainArchive, []⟩ : Blockchain).Publishes hash256
    none [plainGenesis] (plainChild 2) where
  fork_lt _ h := absurd h (not_mem_none _)
  fresh _ _ h := absurd h not_mem_nil
  nonzero x hx := by rcases mem_pair.mp hx with rfl | rfl <;> decide
  root _ x hx := by
    cases hx
    decide
  valid := plain_valid (by decide) (by decide) (by decide)

theorem plain_reorg :
    (⟨plainArchive, [plainGenesis, plainChild 2]⟩ : Blockchain).Publishes
      hash256 (some 0) [] (plainChild 3) where
  fork_lt f hf := by
    cases hf
    decide
  fresh x hx := by
    rw [mem_singleton.mp hx]
    decide
  nonzero x hx := by
    rw [mem_singleton.mp hx]
    decide
  root h := absurd h (cons_ne_nil _ _)
  valid := plain_valid (by decide) (by decide) (by decide)

theorem plainSteps_allowed : ({} : Blockchain).AllowsAll hash256
    (plainSteps ++ [plainReorg]) :=
  ⟨(by decide : ∀ r ∈ ([] : List BlockRecord), r.headerHash ≠ plainHash 1),
    (by decide : ∀ r ∈ [plainGenesis.record], r.headerHash ≠ plainHash 2),
    (by decide : ∀ r ∈ [plainGenesis.record, (plainChild 2).record],
      r.headerHash ≠ plainHash 3),
    plain_extension, plain_reorg, trivial⟩

/-- A reorg that is killed after it has taken a height off. -/
theorem killed_batch_reopens_at_reorg : ∃ chain, Reopens hash256
    ((runStep hash256 plainReorg).killed 4 (runSteps hash256 plainSteps)) chain := by
  obtain ⟨chain, -, hreopens⟩ := killed_batch_reopens hash256 plainSteps
    sortedOrder (some 0) [] (plainChild 3) plainSteps_allowed 4 (by
      change ∀ w ∈ List.getLast? _, ¬ FlagsMain w
      decide +kernel)
  exact ⟨chain, hreopens⟩

/-- An extension that is killed once its coin can be found, and a reorg that is
killed once a main flag is set: no chain is what the opened store describes. -/
theorem killed_batch_torn :
    ({} : Blockchain).AllowsAll hash256
      (plainSteps ++ [plainReorg]) ∧
    (∀ chain, ¬ Reopens hash256 ((runStep hash256
        (.publish sortedOrder none [plainGenesis] (plainChild 2))).killed 4
        (runSteps hash256 (plainSteps.take 3))) chain) ∧
      ∀ chain, ¬ Reopens hash256 ((runStep hash256 plainReorg).killed 5
        (runSteps hash256 plainSteps)) chain := by
  refine ⟨plainSteps_allowed, ?_, ?_⟩
  · rintro chain ⟨-, hopen⟩
    have hpeak := hopen.peak
    have hcoin := hopen.coins ((plainCoin 1).coin.name hash256)
    have hnone : chain = [] := by
      rw [show MmapStore.getPeak _ = none by decide +kernel, tipOf] at hpeak
      exact getLast?_eq_none_iff.mp (map_eq_none_iff.mp hpeak.symm)
    rw [hnone] at hcoin
    revert hcoin
    decide +kernel
  · rintro chain ⟨-, hopen⟩
    have hpeak := hopen.peak
    rw [show MmapStore.getPeak _ = some (plainHash 1, 0) by decide +kernel,
      tipOf] at hpeak
    obtain ⟨x, hx, htip⟩ := map_eq_some_iff.mp hpeak.symm
    rw [getLast?_eq_getElem?] at hx
    have hheight := hopen.connected.heights (chain.length - 1) x.record
      (by rw [getElem?_map, hx, map_some])
    rw [(Prod.mk.inj htip).2] at hheight
    obtain ⟨height, hlisted⟩ := (hopen.main (plainHash 3)
      ⟨some 2, none, 1, 0, true⟩ (by decide +kernel)).mp rfl
    rw [hopen.heights] at hlisted
    obtain ⟨y, hy, hhash⟩ := map_eq_some_iff.mp hlisted
    -- the chain has one block, so the listed block is the peak
    have hlt := (List.getElem?_eq_some_iff.mp hy).1
    have hsame : height.toNat = chain.length - 1 := by
      change 0 = 0 + _ at hheight
      omega
    rw [hsame, hx] at hy
    cases hy
    have hbad : plainHash 1 = plainHash 3 :=
      (Prod.mk.inj htip).1.symm.trans hhash
    revert hbad
    decide

end DgXch
