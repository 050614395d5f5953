/-
Batches that are torn: chains of blocks, the batches that publish them, and
opening a store whose last batch may be torn.
-/
import DgXch.MmapReads

namespace DgXch

open ChainedTable WriteTrace MmapStore List CoinFiles Triple Nat
open Option UInt32 CoinSet CoinEntry ChainFiles

/-- A block and the coin changes it makes. -/
structure ChainBlock where
  record : BlockRecord
  delta : CoinDelta

namespace ChainBlock

def hash (b : ChainBlock) : Bytes32 := b.record.headerHash

/-- The second block names the first as its parent. -/
def Follows (p b : ChainBlock) : Prop := b.record.prevHash = p.hash

end ChainBlock

/-- Blocks from a genesis block on, each at the height of its position. -/
structure Connected (chain : List ChainBlock) : Prop where
  heights : ChainView.Stacked 0 (chain.map ChainBlock.record)
  parents : chain.IsChain ChainBlock.Follows

/-- The last block of a chain, as a peak. -/
def tipOf (chain : List ChainBlock) : Option (Bytes32 × UInt32) :=
  chain.getLast?.map fun b => (b.hash, b.record.height)

def coinsAt (sha256 : HashFn) (chain : List ChainBlock) : CoinSet :=
  CoinSet.replay sha256 (chain.map ChainBlock.delta)

/-- The store describes exactly one chain. -/
structure Describes (sha256 : HashFn) (s : MmapStore)
    (chain : List ChainBlock) : Prop where
  connected : Connected chain
  peak : s.getPeak = tipOf chain
  heights : ∀ height, s.chain.heights.get height =
    (chain[height.toNat]?).map ChainBlock.hash
  records : ∀ height, s.getBlockRecordByHeight height =
    .ok ((chain[height.toNat]?).map ChainBlock.record)
  main : ∀ hash entry, s.chain.tbl.get (bucketOf blockBuckets) hash =
      some entry →
    (entry.main = true ↔ ∃ height, s.chain.heights.get height = some hash)
  coins : ∀ name, s.getCoinRecord name = .ok (coinsAt sha256 chain name)

/-- `open` succeeds on the files, and the store then describes the chain. -/
def Reopens (sha256 : HashFn) (s : MmapStore)
    (chain : List ChainBlock) : Prop :=
  (openStore s.restarted).2 = .ok () ∧
    Describes sha256 (openStore.exec s.restarted) chain

/-- The archived records and the main chain. -/
structure Blockchain where
  archive : List BlockRecord := []
  chain : List ChainBlock := []

/-- The batches of an engine, with the blocks it archives before and the orders
in which each walks its hash maps. -/
inductive ChainStep where
  | archive (order : IterationOrder) (r : BlockRecord)
  | publish (order : IterationOrder) (fork : Option UInt32)
      (lower : List ChainBlock) (tip : ChainBlock)

namespace MmapStore

/-- The batch of a reorg starts with the rollback to the fork. -/
def startBatch : Option UInt32 → StoreProc MmapBatch
  | none => pure {}
  | some fork => do
      let (batch, _) ← rollbackToIn {} fork
      pure batch

/-- A batch as an engine publishes it. -/
def publishBatch (sha256 : HashFn) (order : IterationOrder)
    (fork : Option UInt32) (deltas : List CoinDelta) (newPeak : Bytes32) :
    StoreProc Unit := do
  let batch ← startBatch fork
  let batch ← Proc.fold (applyBlockIn sha256) batch deltas
  let _ ← setPeakIn order batch newPeak
  commit order {}

def runStep (sha256 : HashFn) : ChainStep → StoreProc Unit
  | .archive order r => chainPart.lift (ChainFiles.addBlockRecords order [r])
  | .publish order fork lower tip => publishBatch sha256 order fork
      ((lower ++ [tip]).map ChainBlock.delta) tip.hash

end MmapStore

variable {fork : UInt32}

namespace Blockchain

/-- The blocks that a batch builds on. -/
def keep (b : Blockchain) : Option UInt32 → List ChainBlock
  | none => b.chain
  | some fork => b.chain.take (fork.toNat + 1)

def publish (b : Blockchain) (fork : Option UInt32) (lower : List ChainBlock)
    (tip : ChainBlock) : Blockchain :=
  { b with chain := b.keep fork ++ (lower ++ [tip]) }

def step (b : Blockchain) : ChainStep → Blockchain
  | .archive _ r => { b with archive := b.archive ++ [r] }
  | .publish _ fork lower tip => b.publish fork lower tip

/-- What the engine has checked of the blocks on its main chain. -/
structure Valid (sha256 : HashFn) (b : Blockchain) : Prop where
  connected : Connected b.chain
  archived : ∀ x ∈ b.chain, x.record ∈ b.archive
  nodup : (b.archive.map BlockRecord.headerHash).Nodup
  height_lt : ∀ x ∈ b.chain, x.record.height.toNat < 2 ^ 32 - 1
  height_eq : ∀ x ∈ b.chain, x.delta.height = x.record.height
  accepts : CoinSet.AcceptsAll sha256 (fun _ => none)
    (b.chain.map ChainBlock.delta)

/-- The batches that an engine makes: the blocks are archived and not on the
main chain, the fork is below the peak, and the new chain is a valid one. -/
structure Publishes (sha256 : HashFn) (b : Blockchain)
    (fork : Option UInt32) (lower : List ChainBlock) (tip : ChainBlock) :
    Prop where
  fork_lt : ∀ f ∈ fork, f.toNat < b.chain.length
  fresh : ∀ x ∈ lower ++ [tip], x.hash ∉ b.chain.map ChainBlock.hash
  nonzero : ∀ x ∈ lower ++ [tip], x.hash ≠ Bytes32.zero
  root : b.chain = [] → ∀ x ∈ (lower ++ [tip]).head?, ∀ r ∈ b.archive,
    r.headerHash ≠ x.record.prevHash
  valid : (b.publish fork lower tip).Valid sha256

def Allows (sha256 : HashFn) (b : Blockchain) : ChainStep → Prop
  | .archive _ r => ∀ r' ∈ b.archive, r'.headerHash ≠ r.headerHash
  | .publish _ fork lower tip => b.Publishes sha256 fork lower tip

def AllowsAll (sha256 : HashFn) : Blockchain → List ChainStep → Prop
  | _, [] => True
  | b, c :: cs => b.Allows sha256 c ∧ AllowsAll sha256 (b.step c) cs

variable {sha256 : HashFn} {b : Blockchain}

theorem valid_empty : ({} : Blockchain).Valid sha256 where
  connected := ⟨fun i b h => (by simp at h), isChain_nil⟩
  archived _ h := absurd h not_mem_nil
  nodup := nodup_nil
  height_lt _ h := absurd h not_mem_nil
  height_eq _ h := absurd h not_mem_nil
  accepts := trivial

section

variable (h : b.Valid sha256)

include h

/-- Archived records are determined by their hashes. -/
theorem Valid.record_eq {r r' : BlockRecord} (hr : r ∈ b.archive)
    (hr' : r' ∈ b.archive) (hhash : r.headerHash = r'.headerHash) : r = r' :=
  inj_on_of_nodup_map h.nodup hr hr' hhash

theorem Valid.height_at {i : Nat} {x : ChainBlock} (hx : b.chain[i]? = some x) :
    x.record.height.toNat = i := by
  have hheight := h.connected.heights i x.record
    (by rw [getElem?_map, hx, map_some])
  rwa [zero_add] at hheight

theorem Valid.hashes_nodup : (b.chain.map ChainBlock.hash).Nodup := by
  rw [nodup_iff_getElem?_ne_getElem?]
  intro i j hij hj heq
  rw [length_map] at hj
  have hi := lt_trans hij hj
  rw [getElem?_map, getElem?_map, getElem?_eq_getElem hi,
    getElem?_eq_getElem hj, map_some, map_some, Option.some.injEq] at heq
  have hsame := h.record_eq (h.archived _ (getElem_mem hi))
    (h.archived _ (getElem_mem hj)) heq
  have hheight := h.height_at (getElem?_eq_getElem hi)
  rw [hsame, h.height_at (getElem?_eq_getElem hj)] at hheight
  omega

theorem Valid.length_lt : b.chain.length < 2 ^ 32 := by
  by_contra hge
  have hlt : 2 ^ 32 - 1 < b.chain.length := by omega
  have hbound := h.height_lt _ (getElem_mem hlt)
  rw [h.height_at (getElem?_eq_getElem hlt)] at hbound
  exact lt_irrefl _ hbound

end

theorem rising_of_stacked {start : Nat} {height : UInt32}
    {chain : List ChainBlock}
    (hstacked : ChainView.Stacked start (chain.map ChainBlock.record))
    (heq : ∀ x ∈ chain, x.delta.height = x.record.height)
    (hle : height.toNat ≤ start) :
    CoinSet.Rising height (chain.map ChainBlock.delta) := by
  induction chain generalizing start height with
  | nil => trivial
  | cons x rest ih =>
    have hhead : x.delta.height.toNat = start := by
      rw [heq x (mem_cons_self ..)]
      exact hstacked 0 x.record rfl
    have hrest : ChainView.Stacked (start + 1)
        (rest.map ChainBlock.record) := by
      intro i r hr
      rw [hstacked (i + 1) r hr]
      omega
    exact ⟨le_iff_toNat_le.mpr (hhead ▸ hle), ih hrest
      (fun y hy => heq y (mem_cons_of_mem _ hy)) (by omega)⟩

/-- Rolling the coins of a chain back to a fork leaves the coins of its lower
part. -/
theorem Valid.rollback {keep rest : List ChainBlock} (h : b.Valid sha256)
    (hchain : b.chain = keep ++ rest) (hfork : keep.length = fork.toNat + 1) :
    rollback fork (coinsAt sha256 b.chain) = coinsAt sha256 keep := by
  have hdelta : ∀ (i : Nat) (x : ChainBlock), (keep ++ rest)[i]? = some x →
      x.delta.height.toNat = i := by
    intro i x hx
    rw [← hchain] at hx
    rw [h.height_eq x (mem_of_getElem? hx), h.height_at hx]
  have haccepts := h.accepts
  have hrising : CoinSet.Rising 0 (b.chain.map ChainBlock.delta) :=
    rising_of_stacked h.connected.heights h.height_eq (Nat.le_refl _)
  rw [coinsAt]
  rw [hchain, map_append] at haccepts hrising ⊢
  refine rollback_replay haccepts hrising ?_ ?_
  · intro delta hd
    obtain ⟨x, hx, rfl⟩ := mem_map.mp hd
    obtain ⟨i, hi⟩ := mem_iff_getElem?.mp hx
    have hlt := (List.getElem?_eq_some_iff.mp hi).1
    have hheight := hdelta i x (by rw [getElem?_append_left hlt, hi])
    rw [le_iff_toNat_le]
    omega
  · intro delta hd
    obtain ⟨x, hx, rfl⟩ := mem_map.mp hd
    obtain ⟨i, hi⟩ := mem_iff_getElem?.mp hx
    have hheight := hdelta (keep.length + i) x (by
      rw [getElem?_append_right (Nat.le_add_right _ _),
        Nat.add_sub_cancel_left, hi])
    rw [lt_iff_toNat_lt]
    omega

end Blockchain

/-- The parts of a store. -/
structure StoreAt (whole : Prop) (dat : List CoinFrame) (images : CoinImages)
    (v : ChainView)
    (journal : Option (UInt32 × Option Bytes32)) (s : MmapStore) : Prop where
  coins : CoinFiles.Stands whole dat images s.coins
  chain : ChainAt v s.chain
  journal : s.journal = journal

section Reopen

variable {sha256 : HashFn} {whole : Prop} {dat : List CoinFrame}
  {images : CoinImages} {v : ChainView}
  {journal : Option (UInt32 × Option Bytes32)} {s : MmapStore}
  {chain : List ChainBlock}

/-- What it takes to describe a chain. -/
structure Shown (sha256 : HashFn) (dat : List CoinFrame) (images : CoinImages)
    (v : ChainView) (chain : List ChainBlock) : Prop where
  connected : Connected chain
  filed : AllFiled dat images
  coins_eq : coinsOf dat images = coinsAt sha256 chain
  lists : v.Lists (chain.map ChainBlock.hash)
  knows : ∀ x ∈ chain, v.Knows x.record

theorem StoreAt.describes (hs : StoreAt whole dat images v journal s)
    (h : Shown sha256 dat images v chain) (hpeak : v.peak = tipOf chain)
    (hroom : chain.length < 2 ^ 32) : Describes sha256 s chain where
  connected := h.connected
  peak := hs.chain.peak.trans hpeak
  heights height := by rw [hs.chain.listed, h.lists.listed, List.getElem?_map]
  records height := by
    rw [MmapStore.getBlockRecordByHeight, ChainFiles.getBlockRecordByHeight,
      hs.chain.listed, h.lists.listed, List.getElem?_map]
    cases hx : chain[height.toNat]? with
    | none => rfl
    | some x =>
      obtain ⟨entry, off, hentry, -, hoff, hrecord⟩ :=
        h.knows x (List.mem_of_getElem? hx)
      simp only [Option.map_some, ChainFiles.getBlockRecord, hs.chain.entry,
        ChainBlock.hash, hentry, ChainFiles.recordAt, BlockEntry.withMain,
        hoff, hs.chain.records, hrecord]
  main hash entry hentry := by
    rw [hs.chain.entry, Option.map_eq_some_iff] at hentry
    obtain ⟨base, -, rfl⟩ := hentry
    change v.flags hash = true ↔ _
    rw [h.lists.flagged, hs.chain.listed]
    simp only [h.lists.listed]
    refine ⟨fun hmem => ?_, fun h => List.mem_of_getElem? h.choose_spec⟩
    obtain ⟨i, hi⟩ := List.mem_iff_getElem?.mp hmem
    have hlt := (List.getElem?_eq_some_iff.mp hi).1
    rw [List.length_map] at hlt
    refine ⟨ofNat i, ?_⟩
    rw [toNat_ofNat', mod_eq_of_lt (lt_trans hlt hroom), hi]
  coins name := by
    rw [← h.coins_eq]
    exact hs.coins.coinByName h.filed name

/-- A process that opens the files takes the peak from the disk. -/
theorem ChainAt.reread {files : ChainFiles} (h : ChainAt v files) :
    ChainAt (v.crown v.metaDat) { files with peak := files.metaDat } :=
  { h with peak := h.metaDat }

theorem StoreAt.restarted (hs : StoreAt whole dat images v journal s) :
    StoreAt whole dat images (v.crown v.metaDat) journal s.restarted :=
  ⟨hs.coins, hs.chain.reread, hs.journal⟩

/-- Without a journal the store opens as it is. -/
theorem StoreAt.reopens (hs : StoreAt whole dat images v none s)
    (h : Shown sha256 dat images v chain) (hmeta : v.metaDat = tipOf chain)
    (hroom : chain.length < 2 ^ 32) : Reopens sha256 s chain := by
  have hopen : Ends (StoreAt whole dat images (v.crown v.metaDat) none)
      openStore fun _ => StoreAt whole dat images (v.crown v.metaDat) none := by
    refine read_bind (· = none) (fun s hs => hs.journal) ?_
    rintro _ rfl
    exact pure fun _ => id
  obtain ⟨-, _, hok, hend⟩ := hopen s.restarted hs.restarted
  exact ⟨hok, hend.describes { h with lists := { h.lists with } } hmeta hroom⟩

/-- A procedure on the coin files, seen on the store. -/
theorem storeAt_coinLift {A : Type} {p : CoinFiles.CoinProc A}
    {C : CoinWrite → CoinFiles → Prop} {dat' : List CoinFrame}
    {images' : CoinImages}
    (h : Triple (CoinFiles.Stands whole dat images) p C fun _ =>
      CoinFiles.Stands whole dat' images') :
    Ends (StoreAt whole dat images v journal) (coinPart.lift p)
      fun _ => StoreAt whole dat' images' v journal :=
  (Triple.lift coinPart (F := fun s => ChainAt v s.chain ∧ s.journal = journal)
    (fun _ _ => id) h).consequence (fun _ hs => ⟨⟨hs.chain, hs.journal⟩, hs.coins⟩)
    (fun _ => trivial) fun _ _ hs => ⟨hs.2, hs.1.1, hs.1.2⟩

/-- A procedure on the block files, seen on the store. -/
theorem storeAt_chainLift {p : ChainFiles.ChainProc A}
    {C : ChainWrite → ChainFiles → Prop} {v' : ChainView}
    (h : Triple (ChainAt v) p C fun _ => ChainAt v') :
    Triple (StoreAt whole dat images v journal) (chainPart.lift p)
      (fun w s => CoinFiles.Stands whole dat images s.coins ∧
        s.journal = journal ∧ ∃ write, w = .chain write ∧ C write s.chain)
      fun _ => StoreAt whole dat images v' journal :=
  (Triple.lift chainPart (F := fun s =>
    CoinFiles.Stands whole dat images s.coins ∧ s.journal = journal)
    (fun _ _ => id) h).consequence (fun _ hs => ⟨⟨hs.coins, hs.journal⟩, hs.chain⟩)
    (fun h => ⟨h.1.1, h.1.2, h.2⟩) fun _ _ hs => ⟨hs.1.1, hs.2, hs.1.2⟩

/-- `clear_reorg_journal` removes a journal that is armed. -/
theorem clearReorgJournal_spec {C : StoreWrite → MmapStore → Prop}
    (harmed : ∀ s, StoreAt whole dat images v journal s → C (.armed false) s)
    (hremove : ∀ s, StoreAt whole dat images v none s → C .removeJournal s) :
    Triple (fun s => (s.journalArmed = true ∨ journal = none) ∧
        StoreAt whole dat images v journal s) clearReorgJournal C
      fun _ s => s.journalArmed = false ∧
        StoreAt whole dat images v none s := by
  refine bind (read (Q := fun armed s =>
    armed = s.journalArmed ∧ (s.journalArmed = true ∨ journal = none) ∧
      StoreAt whole dat images v journal s) fun _ hs => ⟨rfl, hs⟩)
    fun armed => ?_
  cases armed with
  | false =>
    refine pure fun s hs => ⟨hs.1.symm, ?_⟩
    obtain ⟨hfalse, harm, hat⟩ := hs
    rcases harm with harm | rfl
    · rw [← hfalse] at harm
      cases harm
    · exact hat
  | true =>
    refine bind (write (Q := fun _ s => s.journalArmed = false ∧
      StoreAt whole dat images v journal s) fun s hs => ?_) fun _ =>
        write fun s hs => ?_
    · have hnow : StoreAt whole dat images v journal
          (Writable.write s (StoreWrite.armed false)) :=
        ⟨hs.2.2.coins, hs.2.2.chain, hs.2.2.journal⟩
      exact ⟨harmed _ hnow, rfl, hnow⟩
    · have hnow : StoreAt whole dat images v none
          (Writable.write s StoreWrite.removeJournal) :=
        ⟨hs.2.coins, hs.2.chain, rfl⟩
      exact ⟨hremove _ hnow, hs.1, hnow⟩

/-- The heights that the convergence takes off the main chain. -/
def convergedHeights (fork : UInt32) (slots : Nat) : List UInt32 :=
  (List.range' (fork.toNat + 1) (slots - (fork.toNat + 1))).map UInt32.ofNat

theorem mem_convergedHeights {height : UInt32} {slots : Nat}
    (hslots : slots ≤ 2 ^ 32) : height ∈ convergedHeights fork slots ↔
      fork.toNat < height.toNat ∧ height.toNat < slots := by
  rw [convergedHeights, List.mem_map]
  constructor
  · rintro ⟨i, hi, rfl⟩
    rw [mem_range'_1] at hi
    rw [toNat_ofNat', mod_eq_of_lt (by omega)]
    omega
  · intro h
    refine ⟨height.toNat, mem_range'_1.mpr (by omega), ?_⟩
    exact UInt32.ofNat_toNat

/-- `converge_torn_reorg` rolls the coins back and takes every height above the
fork off the main chain. -/
theorem convergeTornReorg_spec (forkHash : Option Bytes32) :
    Ends (StoreAt whole dat images v journal) (convergeTornReorg fork forkHash)
      fun _ s => ∃ slots ≤ 2 ^ 32, (∀ height, v.listed height ≠ none →
          height.toNat < 2 ^ 32 - 1 → height.toNat < slots) ∧
        StoreAt whole dat (fun key => (images key).map (sweep fork))
          ((v.retireAll (convergedHeights fork slots)).crown
            (forkHash.map fun hash => (hash, fork))).save none s := by
  refine bind (storeAt_coinLift (CoinFiles.rollbackTo_spec
    (C := fun _ _ => True) fun _ _ _ _ _ _ => trivial)) fun _ => ?_
  refine read_bind (fun slots => slots ≤ 2 ^ 32 ∧
    ∀ height, v.listed height ≠ none → height.toNat < 2 ^ 32 - 1 →
      height.toNat < slots) (fun s hs => ?_) fun slots hslots => ?_
  · refine ⟨by omega, fun height hlisted hlt => ?_⟩
    obtain ⟨hash, hhash⟩ := ne_none_iff_exists'.mp hlisted
    rw [← hs.chain.listed, HeightIndex.get] at hhash
    split_ifs at hhash with hslot
    exact Nat.lt_min.mpr ⟨hslot.1, hlt⟩
  refine bind ((storeAt_chainLift (retireHeights_spec
    (convergedHeights fork slots) (C := fun _ _ => True)
    (fun _ _ _ _ _ _ _ _ _ _ => trivial) fun _ _ _ _ _ _ =>
      trivial)).consequence (fun _ => id) (fun _ => trivial) fun _ _ => id)
    fun _ => ?_
  refine bind (write (Q := fun _ => StoreAt whole dat
    (fun key => (images key).map (sweep fork))
    ((v.retireAll (convergedHeights fork slots)).crown
      (forkHash.map fun hash => (hash, fork))) journal) fun s hs =>
        ⟨trivial, hs.coins, hs.chain.setPeak _, hs.journal⟩) fun _ => ?_
  refine bind ((storeAt_chainLift (writeMeta_spec
    (C := fun _ _ => True) fun _ _ => trivial)).consequence (fun _ => id)
    (fun _ => trivial) fun _ _ => id) fun _ => ?_
  refine bind (write (Q := fun _ s =>
    (s.journalArmed = true ∨ journal = none) ∧ StoreAt whole dat
      (fun key => (images key).map (sweep fork))
      ((v.retireAll (convergedHeights fork slots)).crown
        (forkHash.map fun hash => (hash, fork))).save journal s) fun s hs =>
          ⟨trivial, .inl rfl, hs.coins, hs.chain, hs.journal⟩) fun _ => ?_
  exact (clearReorgJournal_spec (fun _ _ => trivial) fun _ _ =>
    trivial).consequence (fun _ => id) id fun _ s hs =>
      ⟨slots, hslots.1, hslots.2, hs.2⟩

/-- A store with a journal opens as the chain up to the fork, whatever is
listed above it. -/
theorem StoreAt.converges {forkHash : Option Bytes32}
    (hs : StoreAt whole dat images v (some (fork, forkHash)) s)
    (hconnected : Connected chain) (hlength : chain.length = fork.toNat + 1)
    (htip : (forkHash.map fun hash => (hash, fork)) = tipOf chain)
    (hrecoverable : v.Recoverable (chain.map ChainBlock.hash))
    (hroom : ∀ height, v.listed height ≠ none → height.toNat < 2 ^ 32 - 1)
    (hlt : chain.length < 2 ^ 32) (hknows : ∀ x ∈ chain, v.Knows x.record)
    (hfiled : AllFiled dat images)
    (hcoins : rollback fork (coinsOf dat images) = coinsAt sha256 chain) :
    Reopens sha256 s chain := by
  have hopen : Ends (StoreAt whole dat images (v.crown v.metaDat)
      (some (fork, forkHash))) openStore fun _ s => Describes sha256 s chain := by
    refine read_bind (· = some (fork, forkHash)) (fun s hs => hs.journal) ?_
    rintro _ rfl
    refine (convergeTornReorg_spec forkHash).consequence (fun _ => id)
      (fun _ => trivial) ?_
    rintro _ s ⟨slots, hslots, hall, hs⟩
    have hlists : (v.retireAll (convergedHeights fork slots)).Lists
        (chain.map ChainBlock.hash) := by
      refine hrecoverable.lists (fun height hheight => ?_)
        fun height hle hlisted => ?_
      · rw [length_map, hlength]
        exact ((mem_convergedHeights hslots).mp hheight).1
      · rw [length_map, hlength] at hle
        exact (mem_convergedHeights hslots).mpr
          ⟨hle, hall height hlisted (hroom height hlisted)⟩
    exact hs.describes ⟨hconnected, hfiled.sweep,
      hfiled.coinsOf_sweep.trans hcoins, ⟨hlists.listed, hlists.flagged⟩,
      hknows⟩ htip hlt
  obtain ⟨-, _, hok, hend⟩ := hopen s.restarted hs.restarted
  exact ⟨hok, hend⟩

end Reopen

/-- The walk from the tip of connected blocks down to what they stand on. -/
theorem descends_reverse {blocks : List ChainBlock} {cursor stop : Bytes32}
    (hparents : blocks.IsChain ChainBlock.Follows)
    (hhead : ∀ x ∈ blocks.head?, x.record.prevHash = stop)
    (hlast : cursor = (blocks.getLast?.map ChainBlock.hash).getD stop) :
    Descends cursor (blocks.map ChainBlock.record).reverse stop := by
  induction blocks using List.reverseRecOn generalizing cursor with
  | nil => exact hlast
  | append_singleton lower x ih =>
    rw [getLast?_append, getLast?_singleton, some_or,
      map_some, getD_some] at hlast
    obtain ⟨hlower, -, hjoin⟩ := isChain_append.mp hparents
    rw [map_append, reverse_append]
    refine ⟨hlast, ih hlower (fun y hy => hhead y ?_) ?_⟩
    · rw [head?_append, mem_def.mp hy, some_or]
      rfl
    · cases hlower' : lower.getLast? with
      | none =>
        rw [getLast?_eq_none_iff] at hlower'
        subst hlower'
        exact hhead x rfl
      | some y => exact hjoin y hlower' x rfl

theorem CoinSet.rollback_rollback (coins : CoinSet) :
    rollback fork (rollback fork coins) = rollback fork coins := by
  funext id
  simp only [rollback]
  cases coins id with
  | none => rfl
  | some r =>
    rw [bind_some, CoinRecord.rollback]
    split_ifs with hconf hspent
    · rfl
    · rw [bind_some, CoinRecord.rollback, if_neg hconf,
        if_neg (UInt32.not_lt.mpr UInt32.zero_le)]
    · rw [bind_some, CoinRecord.rollback, if_neg hconf, if_neg hspent]

theorem CoinSet.AcceptsAll.height_pos {sha256 : HashFn}
    {coins : CoinSet} {deltas : List CoinDelta}
    (h : CoinSet.AcceptsAll sha256 coins deltas) :
    ∀ delta ∈ deltas, ∀ name ∈ delta.removals, 0 < delta.height := by
  induction deltas generalizing coins with
  | nil => nofun
  | cons delta rest ih =>
    exact forall_mem_cons.mpr ⟨h.1.height_pos, ih h.2⟩

/-- Whatever part of a reorg was published, rolling the coins back to the fork
gives the coins at the fork. -/
theorem TornBy.rollback {batch : MmapBatch} {dat : List CoinFrame}
    {images torn : CoinImages} {coins coins' forked : CoinSet}
    {sweep : StagedSweep} (htorn : MmapStore.TornBy batch images torn)
    (hstages : Stages batch dat images coins') (hsweep : batch.sweep = some sweep)
    (hfiled : AllFiled dat images) (hcoins : coinsOf dat images = coins)
    (hold : rollback sweep.forkHeight coins = forked)
    (hnew : rollback sweep.forkHeight coins' = forked) :
    AllFiled dat torn ∧
      rollback sweep.forkHeight (coinsOf dat torn) = forked := by
  have hpublished : ∀ key image, (key, image) ∈ batch.pending.records →
      published batch images key = some image :=
    fun key image hmem => Table.updateAll_of_mem hstages.pending.wf.nodup hmem
  have hcase : ∀ key, torn key = images key ∨
      torn key = (images key).map (CoinEntry.sweep sweep.forkHeight) ∨
      torn key = published batch images key := by
    intro key
    rcases htorn key with h | h | ⟨image, hmem, h⟩
    · exact .inl h
    · rw [hsweep] at h
      exact .inr (.inl h)
    · exact .inr (.inr (h.trans (hpublished key image hmem).symm))
  constructor
  · intro key entry hentry
    rcases hcase key with h | h | h
    · exact hfiled key entry (h ▸ hentry)
    · exact hfiled.sweep key entry (h ▸ hentry)
    · exact hstages.pending.filed key entry (h.symm.trans hentry)
  · funext key
    change (coinsOf dat torn key).bind (CoinRecord.rollback _) = _
    rcases hcase key with h | h | h
    · have hkey : coinsOf dat torn key = coins key := by
        rw [← hcoins, coinsOf, coinsOf, h]
      rw [hkey, ← hold]
      rfl
    · have hkey : coinsOf dat torn key = forked key := by
        rw [← hold, ← hcoins, ← hfiled.coinsOf_sweep, coinsOf, coinsOf, h]
      rw [hkey, ← hold]
      exact congrFun (rollback_rollback _) key
    · have hkey : coinsOf dat torn key = coins' key := by
        rw [← hstages.pending.coins_eq, coinsOf, coinsOf, h]
        rfl
      rw [hkey, ← hnew]
      rfl

end DgXch
