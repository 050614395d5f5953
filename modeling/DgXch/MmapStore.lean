/-
The memory-mapped store: the coin files, an append-only log of frames with a
chained table from coin ids to payloads, the block table with its height index,
the hint log, the peak file and the reorg journal.

Every procedure is the list of file operations it makes; syncs and temporary
files change no state and are left out.  The peak and the armed flag are held in
memory and written with the others.  An offset is the index of its frame, and a
payload is kept decoded.
-/
import DgXch.CoinRecords
import DgXch.ChainedTable
import DgXch.WriteTrace

namespace DgXch

open ChainedTable WriteTrace

/-- A frame of `coins.dat`. -/
structure CoinFrame where
  coin : Coin
  coinbase : Bool
  confirmed : UInt32
  timestamp : UInt64
deriving Repr, DecidableEq

def encodeCoin (cr : CoinRecord) (height : UInt32) (timestamp : UInt64) :
    CoinFrame :=
  ⟨cr.coin, cr.coinbase, height, timestamp⟩

def decodeCoin (frame : CoinFrame) (spentIndex : UInt32) : CoinRecord :=
  ⟨frame.coin, frame.confirmed, spentIndex, frame.coinbase, frame.timestamp,
    decide (spentIndex > 0)⟩

/-- `CoinEntry`: the payload of `coins.tbl`. -/
structure CoinEntry where
  off : Option Nat
  spentIndex : UInt32
  confirmedIndex : UInt32
deriving Repr, DecidableEq

/-- The payloads by coin id. -/
abbrev CoinImages := Bytes32 → Option CoinEntry

/-- Payloads that wait to be written. -/
abbrev StagedImages := List (Bytes32 × CoinEntry)

/-- `ChainedTable::bucket_of`; the number of buckets is a power of two. -/
def bucketOf (buckets : Nat) (key : Bytes32) : Nat :=
  BigEndian.beNat (key.bytes.drop 24).reverse % buckets

def coinBuckets : Nat := 2 ^ 22

/-- The orders in which the hash maps and hash sets of the store are walked. -/
structure IterationOrder where
  heads : List (Σ _ : Nat, Nat) → List (Σ _ : Nat, Nat)
  keys : List Bytes32 → List Bytes32
  heads_perm : ∀ items, (heads items).Perm items
  keys_perm : ∀ items, (keys items).Perm items

/-- Hash maps walked in the order of their lists. -/
def sortedOrder : IterationOrder where
  heads items := items
  keys items := items
  heads_perm _ := .refl _
  keys_perm _ := .refl _

/-- `coins.dat` and `coins.tbl`. -/
structure CoinFiles where
  dat : List CoinFrame := []
  tbl : Table Bytes32 Nat CoinEntry := {}

/-- The file operations on the coin files. -/
inductive CoinWrite where
  | frame (frame : CoinFrame)
  | tbl (write : Write Bytes32 Nat CoinEntry)

instance : Writable CoinFiles CoinWrite where
  write s
    | .frame frame => { s with dat := s.dat ++ [frame] }
    | .tbl write => { s with tbl := s.tbl.write write }

/-- The images that a batch stages: `pending_coins` and `pending_index`. -/
abbrev PendingCoins := Staged Bytes32 CoinEntry

structure StagedSweep where
  forkHeight : UInt32
  forkHash : Option Bytes32
  deletions : List Bytes32
  unspends : List Bytes32

structure MmapBatch where
  pending : PendingCoins := {}
  sweep : Option StagedSweep := none

def CoinEntry.spendAt (height : UInt32) (entry : CoinEntry) : CoinEntry :=
  { entry with spentIndex := height }

/-- `entry.off = None; entry.spent_index = 0`. -/
def CoinEntry.delete (entry : CoinEntry) : CoinEntry :=
  { entry with off := none, spentIndex := 0 }

/-- `entry.spent_index = 0`. -/
def CoinEntry.unspend (entry : CoinEntry) : CoinEntry :=
  { entry with spentIndex := 0 }

/-- The payload of a coin that a block adds. -/
def CoinEntry.added (off : Nat) (height : UInt32) : CoinEntry :=
  { off := some off, spentIndex := 0, confirmedIndex := height }

namespace CoinFiles

abbrev CoinProc := Proc CoinFiles CoinWrite StoreError

/-- `DataLog::append` on `coins.dat`. -/
def append (frame : CoinFrame) : CoinProc Nat := do
  let off ← .read fun s => s.dat.length
  .write (.frame frame)
  pure off

/-- `ChainedTable::find` on `coins.tbl`. -/
def find (key : Bytes32) : CoinProc (Option Nat) :=
  .read fun s => s.tbl.find (bucketOf coinBuckets) key

/-- `ChainedTable::payload` on `coins.tbl`. -/
def payload (index : Nat) : CoinProc CoinEntry :=
  .tryRead fun s =>
    match s.tbl.payload index with
    | some entry => .ok entry
    | none => .error (.corrupt "mmap: read past mapping")

/-- `ChainedTable::set_payload` on `coins.tbl`. -/
def setPayload (index : Nat) (entry : CoinEntry) : CoinProc Unit :=
  .write (.tbl (.payload index entry))

/-- `ChainedTable::insert_batch` on `coins.tbl`. -/
def insertBatch (order : IterationOrder) (batch : StagedImages) :
    CoinProc Unit :=
  fun s => ((s.tbl.insertBatch (bucketOf coinBuckets) order.heads batch).map
    .tbl, .ok ())

/-- Overwrite the payload of a key if the table has it. -/
def repoint (key : Bytes32) (entry : CoinEntry) : CoinProc Bool := do
  match ← find key with
  | some index =>
    setPayload index entry
    pure true
  | none => pure false

/-- Change the payload of a key if the table has it. -/
def revise (f : CoinEntry → CoinEntry) (key : Bytes32) : CoinProc Bool := do
  match ← find key with
  | some index =>
    let entry ← payload index
    setPayload index (f entry)
    pure true
  | none => pure false

/-- `coin_by_name`, that is `get_coin_record`. -/
def coinByName (s : CoinFiles) (name : Bytes32) :
    Except StoreError (Option CoinRecord) :=
  match s.tbl.get (bucketOf coinBuckets) name with
  | none => .ok none
  | some entry =>
    match entry.off with
    | none => .ok none
    | some off =>
      match s.dat[off]? with
      | none => .error (.corrupt "mmap store: frame offset out of range")
      | some frame => .ok (some (decodeCoin frame entry.spentIndex))

def getCoinRecords (s : CoinFiles) :
    List Bytes32 → Except StoreError (List CoinRecord)
  | [] => .ok []
  | name :: names => do
      let record ← s.coinByName name
      let rest ← s.getCoinRecords names
      pure (record.toList ++ rest)

variable (sha256 : HashFn) (height : UInt32)

def applyAddition (timestamp : UInt64) (pending : PendingCoins)
    (cr : CoinRecord) :
    CoinProc PendingCoins := do
  let off ← append (encodeCoin cr height timestamp)
  if ← repoint (cr.coin.name sha256) (.added off height) then pure pending
  else pure (pending.push (cr.coin.name sha256) (.added off height))

/-- One removal of `apply_block`: a coin of this block, or one of the table. -/
def applyRemoval (pending : PendingCoins) (name : Bytes32) :
    CoinProc PendingCoins :=
  match pending.index name with
  | some slot => pure (pending.modify slot (.spendAt height))
  | none => do
      let _ ← revise (.spendAt height) name
      pure pending

def applyBlock (order : IterationOrder) (delta : CoinDelta) :
    CoinProc Unit := do
  let pending ← Proc.fold (applyAddition sha256 delta.height delta.timestamp)
    {} delta.additions
  let pending ← Proc.fold (applyRemoval delta.height) pending delta.removals
  insertBatch order pending.records

def stageAddition (timestamp : UInt64) (pending : PendingCoins)
    (cr : CoinRecord) :
    CoinProc PendingCoins := do
  let off ← append (encodeCoin cr height timestamp)
  match pending.index (cr.coin.name sha256) with
  | some slot => pure (pending.modify slot fun _ => .added off height)
  | none => pure (pending.push (cr.coin.name sha256) (.added off height))

/-- One removal of `apply_block_in`.  A coin that the staged sweep deletes is
left alone: an image of its live entry would bring it back. -/
def stageRemoval (sweep : Option StagedSweep) (height : UInt32)
    (pending : PendingCoins) (name : Bytes32) : CoinProc PendingCoins :=
  match pending.index name with
  | some slot => pure (pending.modify slot (.spendAt height))
  | none =>
    if ∃ s ∈ sweep, name ∈ s.deletions then pure pending
    else do
      match ← find name with
      | none => pure pending
      | some index =>
        let entry ← payload index
        pure (pending.push name (entry.spendAt height))

/-- `apply_block_in`: the frames go to the log, the payloads to the batch. -/
def applyBlockIn (batch : MmapBatch) (delta : CoinDelta) :
    CoinProc MmapBatch := do
  let pending ← Proc.fold (stageAddition sha256 delta.height delta.timestamp)
    batch.pending delta.additions
  let pending ← Proc.fold (stageRemoval batch.sweep delta.height) pending
    delta.removals
  pure { batch with pending }

variable (fork : UInt32) (entries : StagedImages)

/-- The coins that a rollback deletes. -/
def sweepDeletions : List Bytes32 :=
  (entries.filter fun (_, entry) =>
    entry.off.isSome && decide (entry.confirmedIndex > fork)).map Prod.fst

/-- The coins that a rollback unspends. -/
def sweepUnspends : List Bytes32 :=
  (entries.filter fun (_, entry) =>
    entry.off.isSome && !decide (entry.confirmedIndex > fork) &&
      decide (entry.spentIndex > fork)).map Prod.fst

/-- Change the payloads of some keys, and count those the table has. -/
def reviseAll (f : CoinEntry → CoinEntry) (keys : List Bytes32) :
    CoinProc Nat :=
  Proc.fold (fun touched key => do
    if ← revise f key then pure (touched + 1) else pure touched) 0 keys

/-- The loops over deletions and unspends of `rollback_to` and
`flush_coin_batch`. -/
def sweepTable (deletions unspends : List Bytes32) : CoinProc Nat := do
  let deleted ← reviseAll .delete deletions
  let unspent ← reviseAll .unspend unspends
  pure (deleted + unspent)

def rollbackTo : CoinProc Nat := do
  let entries ← .read fun s => s.tbl.entries
  sweepTable (sweepDeletions fork entries) (sweepUnspends fork entries)

/-- `rollback_to_in` on the coin files: a read-only scan. -/
def stageSweep (forkHash : Option Bytes32) : CoinProc StagedSweep := do
  let entries ← .read fun s => s.tbl.entries
  pure { forkHeight := fork, forkHash
         -- the deletions are gathered in a hash set
         deletions := (sweepDeletions fork entries).dedup
         unspends := sweepUnspends fork entries }

/-- One image of `flush_coin_batch`. -/
def publishImage (inserts : StagedImages) (staged : Bytes32 × CoinEntry) :
    CoinProc StagedImages := do
  if ← repoint staged.1 staged.2 then pure inserts
  else pure (inserts ++ [staged])

/-- The images of `flush_coin_batch`: in place for keys the table has, and one
batch of new records for the others. -/
def publishPending (order : IterationOrder) (pending : StagedImages) :
    CoinProc Unit := do
  let inserts ← Proc.fold publishImage [] pending
  insertBatch order inserts

end CoinFiles

/-- `BlockEntry`: the payload of `blocks.tbl`. -/
structure BlockEntry where
  recordOff : Option Nat
  bodyOff : Option Nat
  height : UInt32
  status : UInt8
  main : Bool
deriving Repr, DecidableEq

def blockBuckets : Nat := 2 ^ 20

/-- `HeightIndex`: 32 bytes a height, all zero when vacant, and the number of
heights that the file has room for. -/
structure HeightIndex where
  slotAt : Nat → Bytes32 := fun _ => Bytes32.zero
  slots : Nat := 1024
  vacant : ∀ height, slots ≤ height → slotAt height = Bytes32.zero := by
    exact fun _ _ => rfl

namespace HeightIndex

def get (index : HeightIndex) (height : UInt32) : Option Bytes32 :=
  if height.toNat < index.slots ∧ index.slotAt height.toNat ≠ Bytes32.zero
  then some (index.slotAt height.toNat)
  else none

/-- A write past the end grows the file to one and a half times the need. -/
def set (index : HeightIndex) (height : UInt32) (hash : Bytes32) :
    HeightIndex where
  slotAt := Function.update index.slotAt height.toNat hash
  slots := if height.toNat < index.slots then index.slots
    else (height.toNat + 1) * 3 / 2
  vacant other hother := by
    have hne : other ≠ height.toNat ∧ index.slots ≤ other := by
      split_ifs at hother <;> omega
    rw [Function.update_of_ne hne.1, index.vacant other hne.2]

end HeightIndex

/-- The block side of the store, with the peak in memory. -/
structure ChainFiles where
  records : List BlockRecord := []
  tbl : Table Bytes32 Nat BlockEntry := {}
  heights : HeightIndex := {}
  metaDat : Option (Bytes32 × UInt32) := none
  peak : Option (Bytes32 × UInt32) := none

/-- The file operations on the block side. -/
inductive ChainWrite where
  | record (record : BlockRecord)
  | tbl (write : Write Bytes32 Nat BlockEntry)
  | height (height : UInt32) (hash : Bytes32)
  | metaDat (peak : Option (Bytes32 × UInt32))
  | peak (peak : Option (Bytes32 × UInt32))

instance : Writable ChainFiles ChainWrite where
  write s
    | .record record => { s with records := s.records ++ [record] }
    | .tbl write => { s with tbl := s.tbl.write write }
    | .height height hash => { s with heights := s.heights.set height hash }
    | .metaDat peak => { s with metaDat := peak }
    | .peak peak => { s with peak }

namespace ChainFiles

abbrev ChainProc := Proc ChainFiles ChainWrite StoreError

def blockEntry (hash : Bytes32) : ChainProc (Option (Nat × BlockEntry)) :=
  .tryRead fun s =>
    match s.tbl.find (bucketOf blockBuckets) hash with
    | none => .ok none
    | some index =>
      match s.tbl.payload index with
      | some entry => .ok (some (index, entry))
      | none => .error (.corrupt "mmap: read past mapping")

/-- `ChainedTable::set_payload` on `blocks.tbl`. -/
def setPayload (index : Nat) (entry : BlockEntry) : ChainProc Unit :=
  .write (.tbl (.payload index entry))

def recordAt (s : ChainFiles) (entry : BlockEntry) :
    Except StoreError (Option BlockRecord) :=
  match entry.recordOff with
  | none => .ok none
  | some off =>
    match s.records[off]? with
    | some record => .ok (some record)
    | none => .error (.corrupt "mmap store: frame offset out of range")

def getBlockRecord (s : ChainFiles) (hash : Bytes32) :
    Except StoreError (Option BlockRecord) :=
  match s.tbl.get (bucketOf blockBuckets) hash with
  | none => .ok none
  | some entry => s.recordAt entry

def getBlockRecordByHeight (s : ChainFiles) (height : UInt32) :
    Except StoreError (Option BlockRecord) :=
  match s.heights.get height with
  | none => .ok none
  | some hash => s.getBlockRecord hash

/-- The entry of a block whose record is its first write. -/
def newEntry (off : Nat) (r : BlockRecord) : BlockEntry :=
  { recordOff := some off, bodyOff := none, height := r.height
    status := 0, main := false }

def addBlockRecord (pending : Staged Bytes32 BlockEntry) (r : BlockRecord) :
    ChainProc (Staged Bytes32 BlockEntry) := do
  let off ← .read fun s => s.records.length
  .write (.record r)
  match pending.index r.headerHash with
  | some slot => pure (pending.modify slot fun entry =>
    { entry with recordOff := some off, height := r.height })
  | none =>
    match ← blockEntry r.headerHash with
    | some (index, entry) =>
      setPayload index
        { entry with recordOff := some off, height := r.height }
      pure pending
    | none => pure (pending.push r.headerHash (newEntry off r))

def addBlockRecords (order : IterationOrder) (records : List BlockRecord) :
    ChainProc Unit := do
  let pending ← Proc.fold addBlockRecord {} records
  fun s => ((s.tbl.insertBatch (bucketOf blockBuckets) order.heads
    pending.records).map .tbl, .ok ())

/-- The walk of `set_peak` to the deepest ancestor on the main chain.  A walk
over more entries than the table has never ends; `fuel` stops it. -/
def forkHeight (s : ChainFiles) : Nat → Bytes32 → Except StoreError Int
  | 0, _ => .ok (-1)
  | fuel + 1, cursor =>
    match s.tbl.get (bucketOf blockBuckets) cursor with
    | none => .ok (-1)
    | some entry =>
      if entry.main then .ok entry.height.toNat
      else do
        match ← s.recordAt entry with
        | none => .ok (-1)
        | some record => s.forkHeight fuel record.prevHash

/-- Take a height off the main chain. -/
def retireHeight (height : UInt32) : ChainProc Unit := do
  match ← .read fun s => s.heights.get height with
  | none => pure ()
  | some hash =>
    match ← blockEntry hash with
    | some (index, entry) => setPayload index { entry with main := false }
    | none => pure ()
    .write (.height height Bytes32.zero)

/-- The heights from `start` up to and including `top`. -/
def heightsUpTo (start top : Nat) : List UInt32 :=
  (List.range' start (top + 1 - start)).map UInt32.ofNat

/-- The loop of `set_peak` that links the new ancestry onto the main chain. -/
def linkAncestors : Nat → Bytes32 → ChainProc Nat
  | 0, _ => pure 0
  | fuel + 1, cursor => do
      match ← blockEntry cursor with
      | none => pure 0
      | some (index, entry) =>
        if entry.main then pure 0
        else
          setPayload index { entry with main := true }
          .write (.height entry.height cursor)
          match ← Proc.tryRead fun s =>
            s.recordAt { entry with main := true } with
          | none => pure 1
          | some record =>
            let links ← linkAncestors fuel record.prevHash
            pure (links + 1)

def writeMeta : ChainProc Unit := do
  let peak ← .read fun s => s.peak
  .write (.metaDat peak)

def setPeak (newPeak : Bytes32) : ChainProc Nat := do
  match ← blockEntry newPeak with
  | none => .tryRead fun _ => .error (.corrupt "set_peak: unknown header hash")
  | some (_, peakEntry) =>
    let fork ← .tryRead fun s => s.forkHeight (s.tbl.count + 1) newPeak
    let oldTop ← .read fun s => (s.peak.map Prod.snd).getD 0
    let start := if fork + 1 < 2 ^ 32 then (fork + 1).toNat else 0
    Proc.each retireHeight (heightsUpTo start oldTop.toNat)
    let fuel ← .read fun s => s.tbl.count + 1
    let links ← linkAncestors fuel newPeak
    .write (.peak (some (newPeak, peakEntry.height)))
    writeMeta
    pure links

end ChainFiles

structure MmapStore where
  coins : CoinFiles := {}
  chain : ChainFiles := {}
  hints : List (Bytes32 × Bytes32) := []
  journal : Option (UInt32 × Option Bytes32) := none
  journalArmed : Bool := false

/-- The file operations on the store. -/
inductive StoreWrite where
  | coins (write : CoinWrite)
  | chain (write : ChainWrite)
  | hint (pair : Bytes32 × Bytes32)
  | journal (forkHeight : UInt32) (forkHash : Option Bytes32)
  | removeJournal
  | armed (armed : Bool)

instance : Writable MmapStore StoreWrite where
  write s
    | .coins write => { s with coins := Writable.write s.coins write }
    | .chain write => { s with chain := Writable.write s.chain write }
    | .hint pair => { s with hints := s.hints ++ [pair] }
    | .journal forkHeight forkHash =>
      { s with journal := some (forkHeight, forkHash) }
    | .removeJournal => { s with journal := none }
    | .armed armed => { s with journalArmed := armed }

namespace MmapStore

abbrev StoreProc := Proc MmapStore StoreWrite StoreError

def coinPart : Part MmapStore StoreWrite CoinFiles CoinWrite where
  get := coins
  op := .coins
  get_write _ _ := rfl

def chainPart : Part MmapStore StoreWrite ChainFiles ChainWrite where
  get := chain
  op := .chain
  get_write _ _ := rfl

variable (order : IterationOrder)

/-- The staged sweep of `flush_coin_batch`: the journal is written first. -/
def publishSweep : Option StagedSweep → StoreProc Unit
  | none => pure ()
  | some sweep => do
      .write (.journal sweep.forkHeight sweep.forkHash)
      .write (.armed true)
      let _ ← coinPart.lift
        (CoinFiles.sweepTable (order.keys sweep.deletions) sweep.unspends)
      pure ()

variable (batch : MmapBatch)

/-- `flush_coin_batch`; the batch is left empty. -/
def flushCoinBatch : StoreProc Unit :=
  if batch.pending.records = [] ∧ batch.sweep.isNone then pure ()
  else do
    publishSweep order batch.sweep
    coinPart.lift (CoinFiles.publishPending order batch.pending.records)

def clearReorgJournal : StoreProc Unit := do
  if ← .read fun s => s.journalArmed then
    .write (.armed false)
    .write .removeJournal
  else pure ()

def rollbackToIn (fork : UInt32) : StoreProc (MmapBatch × Nat) := do
  let forkHash ← .read fun s => s.chain.heights.get fork
  let sweep ← coinPart.lift (CoinFiles.stageSweep fork forkHash)
  pure ({ batch with sweep := some sweep },
    sweep.deletions.length + sweep.unspends.length)

def applyBlockIn (sha256 : HashFn) (batch : MmapBatch)
    (delta : CoinDelta) : StoreProc MmapBatch :=
  coinPart.lift (CoinFiles.applyBlockIn sha256 batch delta)

def applyHintsIn (pairs : List (Bytes32 × Bytes32)) : StoreProc Unit :=
  Proc.each (fun pair => .write (.hint pair)) pairs

def setPeakIn (newPeak : Bytes32) : StoreProc Nat := do
  flushCoinBatch order batch
  let links ← chainPart.lift (ChainFiles.setPeak newPeak)
  clearReorgJournal
  pure links

def commit : StoreProc Unit := do
  flushCoinBatch order batch
  clearReorgJournal

def convergeTornReorg (forkHeight : UInt32) (forkHash : Option Bytes32) :
    StoreProc Unit := do
  let _ ← coinPart.lift (CoinFiles.rollbackTo forkHeight)
  let slots ← .read fun s => min s.chain.heights.slots (2 ^ 32 - 1)
  chainPart.lift (Proc.each ChainFiles.retireHeight
    ((List.range' (forkHeight.toNat + 1) (slots - (forkHeight.toNat + 1))).map
      UInt32.ofNat))
  .write (.chain (.peak (forkHash.map fun hash => (hash, forkHeight))))
  chainPart.lift ChainFiles.writeMeta
  .write (.armed true)
  clearReorgJournal

variable (s : MmapStore)

/-- What a process that opens the files starts from. -/
def restarted : MmapStore :=
  { s with
    chain := { s.chain with peak := s.chain.metaDat }
    journalArmed := false }

/-- `open`: converge if a journal was left. -/
def openStore : StoreProc Unit := do
  match ← .read fun s => s.journal with
  | none => pure ()
  | some (forkHeight, forkHash) => convergeTornReorg forkHeight forkHash

def getCoinRecord (name : Bytes32) : Except StoreError (Option CoinRecord) :=
  s.coins.coinByName name

def getCoinsForHint (hint : Bytes32) (maxItems : Nat) : List Bytes32 :=
  ((s.hints.filter fun pair => pair.1 = hint).map Prod.snd).take maxItems

def getPeak : Option (Bytes32 × UInt32) := s.chain.peak

def getBlockRecordByHeight (s : MmapStore) (height : UInt32) :
    Except StoreError (Option BlockRecord) :=
  s.chain.getBlockRecordByHeight height

end MmapStore

open List Option Triple Function Prod Table CoinEntry

variable {pending : StagedImages} {index : Nat} {s : CoinFiles}

/-- What a rollback leaves of a payload. -/
def CoinEntry.sweep (fork : UInt32) (entry : CoinEntry) : CoinEntry :=
  if entry.off = none then entry
  else if fork < entry.confirmedIndex then entry.delete
  else if fork < entry.spentIndex then entry.unspend
  else entry

namespace CoinFiles

def image (s : CoinFiles) : CoinImages :=
  s.tbl.get (bucketOf coinBuckets)

/-- The coin files hold these frames and payloads.  Under `whole` every record
in use is linked, which a torn batch does not leave. -/
structure Stands (whole : Prop) (dat : List CoinFrame) (images : CoinImages)
    (s : CoinFiles) : Prop where
  sound : s.tbl.Sound
  linked : whole → s.tbl.Linked (bucketOf coinBuckets)
  dat_eq : s.dat = dat
  image_eq : s.image = images

theorem stands_empty : Stands True [] (fun _ => none) {} :=
  ⟨sound_empty, fun _ => linked_empty, rfl, rfl⟩

variable {whole : Prop} {dat : List CoinFrame} {images : CoinImages}
  {C : CoinWrite → CoinFiles → Prop}

section Specs

variable {key : Bytes32} {entry : CoinEntry} {f : CoinEntry → CoinEntry}

section

variable (h : Stands whole dat images s)

include h

theorem Stands.torn : Stands False dat images s :=
  ⟨h.sound, False.elim, h.dat_eq, h.image_eq⟩

theorem Stands.append (frame : CoinFrame) :
    Stands whole (dat ++ [frame]) images
      (Writable.write s (CoinWrite.frame frame)) :=
  ⟨h.sound, h.linked, congrArg (· ++ [frame]) h.dat_eq, h.image_eq⟩

/-- A payload write is an update of the images. -/
theorem Stands.setPayload
    (hfind : s.tbl.find (bucketOf coinBuckets) key = some index) :
    Stands whole dat (update images key (some entry))
      (Writable.write s (CoinWrite.tbl (.payload index entry))) where
  sound := h.sound.write_payload
  linked hwhole := (h.linked hwhole).write_payload h.sound hfind
  dat_eq := h.dat_eq
  image_eq := by
    rw [← h.image_eq]
    exact h.sound.get_write_payload hfind

end

theorem append_spec (frame : CoinFrame)
    (hC : ∀ s, Stands whole (dat ++ [frame]) images s → C (.frame frame) s) :
    Triple (Stands whole dat images) (append frame) C fun off s =>
      off = dat.length ∧ Stands whole (dat ++ [frame]) images s := by
  refine read_bind (· = dat.length)
    (fun s hs => congrArg length hs.dat_eq) fun off hoff => ?_
  exact bind (write fun s hs =>
    ⟨hC _ (hs.append frame), hoff, hs.append frame⟩) fun _ => pure fun _ => id

theorem find_spec :
    Triple (Stands whole dat images) (find key) C fun found s =>
      Stands whole dat images s ∧ found.isSome = (images key).isSome ∧
        s.tbl.find (bucketOf coinBuckets) key = found := by
  refine read fun _ hs => ⟨hs, ?_, rfl⟩
  rw [← hs.image_eq, Bool.eq_iff_iff, isSome_iff_ne_none, isSome_iff_ne_none]
  exact not_congr hs.sound.get_eq_none_iff.symm

theorem repoint_spec
    (hC : ∀ index s, Stands whole dat (update images key (some entry)) s →
      C (.tbl (.payload index entry)) s) :
    Triple (Stands whole dat images) (repoint key entry) C fun found s =>
      found = (images key).isSome ∧ Stands whole dat
        (if found then update images key (some entry) else images)
        s := by
  refine bind find_spec fun found => ?_
  cases found with
  | none =>
    apply Triple.pure
    rintro s ⟨hs, hnone, -⟩
    exact ⟨hnone, hs⟩
  | some index =>
    refine bind (write (Q := fun _ s =>
      true = (images key).isSome ∧ Stands whole dat
        (update images key (some entry)) s) ?_) fun _ =>
      pure fun _ => id
    rintro s ⟨hs, hsome, hfind⟩
    exact ⟨hC _ _ (hs.setPayload hfind), hsome, hs.setPayload hfind⟩

theorem payload_spec (hsome : images key = some entry) :
    Triple (fun s => Stands whole dat images s ∧
        s.tbl.find (bucketOf coinBuckets) key = some index)
      (payload index) C fun found s => found = entry ∧
        Stands whole dat images s ∧
        s.tbl.find (bucketOf coinBuckets) key = some index := by
  apply tryRead
  rintro s ⟨hs, hfind⟩
  refine ⟨entry, ?_, rfl, hs, hfind⟩
  have hget : s.tbl.get (bucketOf coinBuckets) key = some entry := by
    rw [← hsome, ← hs.image_eq]
    rfl
  rw [Table.get, hfind, bind_some] at hget
  rw [hget]

theorem revise_spec (hC : ∀ index entry s,
      Stands whole dat (update images key ((images key).map f)) s →
      C (.tbl (.payload index entry)) s) :
    Triple (Stands whole dat images) (revise f key) C fun found s =>
      found = (images key).isSome ∧ Stands whole dat
        (update images key ((images key).map f)) s := by
  refine bind find_spec fun found => ?_
  cases found with
  | none =>
    apply Triple.pure
    rintro s ⟨hs, hnone, -⟩
    refine ⟨hnone, ?_⟩
    have hkey : images key = none := not_isSome_iff_eq_none.mp
      fun h => Bool.false_ne_true (hnone.trans h)
    rwa [hkey, map_none, ← hkey, update_eq_self]
  | some index =>
    cases hentry : images key with
    | none =>
      rintro s ⟨-, hsome, -⟩
      cases hsome
    | some entry =>
      rw [hentry] at hC
      refine bind (Triple.consequence (payload_spec hentry)
        (fun s hs => ⟨hs.1, hs.2.2⟩) id fun _ _ => id) fun found => ?_
      refine bind (write (Q := fun _ s => Stands whole dat
        (update images key (some (f entry))) s) ?_) fun _ =>
          pure fun s hs => ⟨rfl, hs⟩
      rintro s ⟨rfl, hs, hfind⟩
      exact ⟨hC _ _ _ (hs.setPayload hfind), hs.setPayload hfind⟩

/-- The table writes of a batch, seen on the coin files. -/
theorem writes_tbl (s : CoinFiles) (ops : List (Write Bytes32 Nat CoinEntry)) :
    writes s (ops.map CoinWrite.tbl) = { s with tbl := s.tbl.writes ops } := by
  induction ops generalizing s with
  | nil => rfl
  | cons op ops ih => exact ih _

theorem insertBatch_spec (order : IterationOrder) {batch : StagedImages}
    (hwhole : whole) (hnodup : (batch.map fst).Nodup)
    (hnone : ∀ staged ∈ batch, images staged.1 = none)
    (hC : ∀ write torn s, Stands False dat torn s →
      (∀ key, torn key = images key ∨
        torn key = updateAll images batch key) → C (.tbl write) s) :
    Triple (Stands whole dat images) (insertBatch order batch) C fun _ =>
      Stands whole dat (updateAll images batch) := by
  intro s hs
  have himage : s.tbl.get (bucketOf coinBuckets) = images := hs.image_eq
  have hfits : s.tbl.Fits batch := (hs.linked hwhole).fits hnodup fun entry h =>
    (congrFun himage _).trans (hnone entry h)
  refine ⟨along_of_begins fun made w hmade => ?_, (), rfl, ?_⟩
  · obtain ⟨ops, hops, hmap⟩ := prefix_map_iff.mp hmade
    obtain ⟨hsound, hkeys, -⟩ := hs.sound.insertBatch_torn hfits
      order.heads_perm hops
    rw [himage] at hkeys
    obtain ⟨op, rfl⟩ : ∃ op, w = .tbl op := by
      obtain ⟨op, -, hop⟩ := mem_map.mp
        (hmap ▸ mem_append_right made (mem_singleton_self w))
      exact ⟨op, hop.symm⟩
    rw [hmap, writes_tbl]
    exact hC op _ _ ⟨hsound, False.elim, hs.dat_eq, rfl⟩ hkeys
  · obtain ⟨hsound, -, hget⟩ := hs.sound.insertBatch hfits order.heads_perm
    rw [himage] at hget
    change Stands whole dat _ (writes s (map _ _))
    rw [writes_tbl]
    exact ⟨hsound, fun _ => (hs.linked hwhole).insertBatch hs.sound hfits
      order.heads_perm, hs.dat_eq, hget⟩

/-- The images after the payloads of some keys were changed. -/
def revised (f : CoinEntry → CoinEntry) (keys : List Bytes32)
    (images : CoinImages) : CoinImages :=
  fun key => if key ∈ keys then (images key).map f else images key

theorem revised_concat (hf : ∀ entry, f (f entry) = f entry)
    {keys : List Bytes32} :
    update (revised f keys images) key ((revised f keys images key).map f) =
      revised f (keys ++ [key]) images := by
  funext key'
  by_cases hsame : key' = key
  · subst hsame
    rw [update_self, revised, revised, if_pos (mem_append_right _
      (mem_singleton_self _))]
    split_ifs
    · cases images key' with
      | none => rfl
      | some entry => exact congrArg some (hf entry)
    · rfl
  · rw [update_of_ne hsame, revised, revised]
    have hmem : key' ∈ keys ++ [key] ↔ key' ∈ keys := by
      rw [mem_append, mem_singleton, or_iff_left hsame]
    simp only [hmem]

theorem reviseAll_spec (hf : ∀ entry, f (f entry) = f entry)
    {keys : List Bytes32}
    (hC : ∀ done index entry s, done ⊆ keys →
      Stands whole dat (revised f done images) s →
      C (.tbl (.payload index entry)) s) :
    Triple (Stands whole dat images) (reviseAll f keys) C fun _ =>
      Stands whole dat (revised f keys images) := by
  refine fold (fun done _ => Stands whole dat (revised f done images)) keys ?_ 0
  intro done touched key rest hkeys
  have hdone : done ++ [key] ⊆ keys := by
    rw [hkeys, append_cons done key rest]
    exact subset_append_left _ _
  refine bind (revise_spec fun index entry s hs => ?_) fun found => ?_
  · rw [revised_concat hf] at hs
    exact hC _ index entry s hdone hs
  · rw [revised_concat hf]
    cases found with
    | false => exact pure fun _ hs => hs.2
    | true => exact pure fun _ hs => hs.2

end Specs

section Sweep

variable {fork : UInt32} {deletions unspends : List Bytes32}

/-- The lists that a scan of the table makes for a rollback. -/
structure Sweeps (fork : UInt32) (images : CoinImages)
    (deletions unspends : List Bytes32) : Prop where
  mem_deletions : ∀ {key entry}, images key = some entry →
    (key ∈ deletions ↔ entry.off ≠ none ∧ fork < entry.confirmedIndex)
  mem_unspends : ∀ {key entry}, images key = some entry →
    (key ∈ unspends ↔ entry.off ≠ none ∧ ¬ fork < entry.confirmedIndex ∧
      fork < entry.spentIndex)

theorem Stands.mem_filter (hs : Stands whole dat images s) {key : Bytes32}
    {entry : CoinEntry} (hentry : images key = some entry)
    (keep : Bytes32 × CoinEntry → Bool) :
    key ∈ (s.tbl.entries.filter keep).map fst ↔ keep (key, entry) = true := by
  have hget : s.tbl.get (bucketOf coinBuckets) key = some entry := by
    rw [← hentry, ← hs.image_eq]
    rfl
  constructor
  · intro h
    obtain ⟨⟨key', entry'⟩, hmem, rfl⟩ := List.mem_map.mp h
    obtain ⟨hin, hkeep⟩ := List.mem_filter.mp hmem
    have hcases : s.tbl.get (bucketOf coinBuckets) key' = some entry' ∨
        s.tbl.get (bucketOf coinBuckets) key' = none :=
      hs.sound.get_of_mem_entries hin
    rw [hget] at hcases
    rcases hcases with h | h
    · cases h
      exact hkeep
    · cases h
  · intro h
    exact List.mem_map.mpr ⟨(key, entry),
      List.mem_filter.mpr ⟨hs.sound.mem_entries hget, h⟩, rfl⟩

theorem Stands.sweeps (hs : Stands whole dat images s)
    (fork : UInt32) : Sweeps fork images (sweepDeletions fork s.tbl.entries)
      (sweepUnspends fork s.tbl.entries) where
  mem_deletions hentry := by
    refine (hs.mem_filter hentry _).trans ?_
    simp [isSome_iff_ne_none]
  mem_unspends hentry := by
    refine (hs.mem_filter hentry _).trans ?_
    simp [isSome_iff_ne_none, and_assoc]

/-- Both loops of a rollback sweep every payload. -/
theorem Sweeps.revised_eq (h : Sweeps fork images deletions unspends) :
    revised .unspend unspends (revised .delete deletions images) =
      fun key => (images key).map (sweep fork) := by
  funext key
  unfold revised
  cases hentry : images key with
  | none => simp
  | some entry =>
    simp only [h.mem_deletions hentry, h.mem_unspends hentry]
    unfold sweep
    by_cases hoff : entry.off = none
    · simp [hoff]
    by_cases hconf : fork < entry.confirmedIndex
    · simp [hoff, hconf]
    by_cases hspent : fork < entry.spentIndex <;> simp [hoff, hconf, hspent]

/-- While a rollback runs, each payload is as before or swept. -/
theorem Sweeps.revised_cases (h : Sweeps fork images deletions unspends)
    {done done' : List Bytes32} (hdone : done ⊆ deletions)
    (hdone' : done' ⊆ unspends) {key : Bytes32} :
    revised .unspend done' (revised .delete done images) key = images key ∨
      revised .unspend done' (revised .delete done images) key =
        (images key).map (sweep fork) := by
  unfold revised
  cases hentry : images key with
  | none => simp
  | some entry =>
    have hdel := h.mem_deletions hentry
    have huns := h.mem_unspends hentry
    unfold sweep
    by_cases hin : key ∈ done
    · obtain ⟨hoff, hconf⟩ := hdel.mp (hdone hin)
      right
      rw [if_pos hin, if_neg fun hm => (huns.mp (hdone' hm)).2.1 hconf]
      simp [hoff, hconf]
    by_cases hin' : key ∈ done'
    · obtain ⟨hoff, hconf, hspent⟩ := huns.mp (hdone' hin')
      right
      rw [if_neg hin, if_pos hin']
      simp [hoff, hconf, hspent]
    · left
      rw [if_neg hin, if_neg hin']

section

variable (hC : ∀ torn index entry s, (∀ key, torn key = images key ∨
    torn key = (images key).map (sweep fork)) →
  Stands whole dat torn s → C (.tbl (.payload index entry)) s)

include hC

theorem sweepTable_spec (h : Sweeps fork images deletions unspends) :
    Triple (Stands whole dat images) (sweepTable deletions unspends) C
      fun _ => Stands whole dat fun key => (images key).map (sweep fork) := by
  refine bind (reviseAll_spec (f := .delete) (fun _ => rfl) ?_) fun _ => ?_
  · intro done index entry s hdone hs
    refine hC _ index entry s (fun key => ?_) hs
    simpa [revised] using h.revised_cases hdone (nil_subset _)
  refine bind (reviseAll_spec (f := .unspend) (fun _ => rfl) ?_) fun _ => ?_
  · intro done index entry s hdone hs
    exact hC _ index entry s
      (fun key => h.revised_cases (List.Subset.refl _) hdone) hs
  rw [h.revised_eq]
  exact pure fun _ => id

theorem rollbackTo_spec :
    Triple (Stands whole dat images) (rollbackTo fork) C fun _ =>
      Stands whole dat fun key => (images key).map (sweep fork) := by
  refine read_bind (fun entries => Sweeps fork images
    (sweepDeletions fork entries) (sweepUnspends fork entries))
    (fun s hs => hs.sweeps fork) fun entries hsweeps => ?_
  exact sweepTable_spec hC hsweeps

end

theorem Sweeps.congr (h : Sweeps fork images deletions unspends)
    {keys : List Bytes32} (hmem : ∀ {key}, key ∈ keys ↔ key ∈ deletions) :
    Sweeps fork images keys unspends :=
  ⟨fun hentry => hmem.trans (h.mem_deletions hentry), h.mem_unspends⟩

theorem stageSweep_spec (forkHash : Option Bytes32) :
    Triple (Stands whole dat images) (stageSweep fork forkHash) C
      fun sweep s => (sweep.forkHeight = fork ∧ sweep.forkHash = forkHash ∧
        Sweeps fork images sweep.deletions sweep.unspends) ∧
        Stands whole dat images s :=
  read_bind (fun entries => Sweeps fork images
    (sweepDeletions fork entries) (sweepUnspends fork entries))
    (fun _ hs => hs.sweeps fork) fun _ hsweeps => pure fun _ hs =>
      ⟨⟨rfl, rfl, hsweeps.congr mem_dedup⟩, hs⟩

end Sweep

section Pending

variable {done inserts : StagedImages} {key : Bytes32}

/-- The staged images whose keys the table has. -/
def held (images : CoinImages) (pending : StagedImages) : StagedImages :=
  pending.filter fun staged => (images staged.1).isSome

/-- The staged images of new keys. -/
def missing (images : CoinImages) (pending : StagedImages) : StagedImages :=
  pending.filter fun staged => (images staged.1).isNone

theorem mem_keys_held : key ∈ (held images pending).map fst ↔
    key ∈ pending.map fst ∧ (images key).isSome := by
  simp [held]

theorem mem_keys_missing : key ∈ (missing images pending).map fst ↔
    key ∈ pending.map fst ∧ images key = none := by
  simp [missing]

theorem updateAll_cases (hnodup : (pending.map fst).Nodup)
    (hpart : done.Sublist pending) (key : Bytes32) :
    updateAll images done key = images key ∨ ∃ image,
      (key, image) ∈ pending ∧ updateAll images done key = some image := by
  by_cases hmem : key ∈ done.map fst
  · obtain ⟨⟨key, image⟩, hstaged, rfl⟩ := mem_map.mp hmem
    exact .inr ⟨image, hpart.subset hstaged,
      updateAll_of_mem (hnodup.sublist (hpart.map _)) hstaged⟩
  · exact .inl (updateAll_of_notMem hmem)

/-- A publication splits the images into those it writes in place and those it
inserts; together they are all of them. -/
theorem updateAll_split (hnodup : (pending.map fst).Nodup) :
    updateAll (updateAll images (held images pending))
      (missing images pending) = updateAll images pending := by
  have hfilter : ∀ keep : Bytes32 × CoinEntry → Bool,
      ((pending.filter keep).map fst).Nodup :=
    fun keep => hnodup.sublist (filter_sublist.map _)
  funext key
  by_cases hmem : key ∈ pending.map fst
  · obtain ⟨⟨key, image⟩, hstaged, rfl⟩ := mem_map.mp hmem
    rw [updateAll_of_mem hnodup hstaged]
    cases hkey : images key with
    | none =>
      exact updateAll_of_mem (hfilter _)
        (mem_filter.mpr ⟨hstaged, isNone_iff_eq_none.mpr hkey⟩)
    | some entry =>
      rw [updateAll_of_notMem (by simp [mem_keys_missing, hkey])]
      exact updateAll_of_mem (hfilter _)
        (mem_filter.mpr ⟨hstaged, isSome_iff_exists.mpr ⟨entry, hkey⟩⟩)
  · rw [updateAll_of_notMem hmem,
      updateAll_of_notMem fun h => hmem (mem_keys_missing.mp h).1,
      updateAll_of_notMem fun h => hmem (mem_keys_held.mp h).1]

/-- The state of the loop over the images, some of them done. -/
def Publishing (whole : Prop) (dat : List CoinFrame) (images : CoinImages)
    (done inserts : StagedImages) (s : CoinFiles)
    : Prop :=
  inserts = missing images done ∧
    Stands whole dat (updateAll images (held images done)) s

theorem publishImage_spec {staged : Bytes32 × CoinEntry}
    (hfresh : staged.1 ∉ done.map fst)
    (hC : ∀ index s,
      Stands whole dat (updateAll images (held images done ++ [staged])) s →
      C (.tbl (.payload index staged.2)) s) :
    Triple (Publishing whole dat images done inserts)
      (publishImage inserts staged) C
      (Publishing whole dat images (done ++ [staged])) := by
  have hsame : updateAll images (held images done) staged.1 = images staged.1 :=
    updateAll_of_notMem fun h => hfresh (mem_keys_held.mp h).1
  apply of_and
  rintro rfl
  rw [updateAll_append] at hC
  refine bind (repoint_spec hC) fun found => of_and ?_
  rw [hsame]
  intro hfound
  unfold Publishing held missing
  rw [filter_append, filter_append, filter_singleton, filter_singleton,
    ← not_isSome, ← hfound]
  cases found with
  | false => exact Triple.pure fun s hs => ⟨rfl, by simpa using hs⟩
  | true =>
    exact Triple.pure fun s hs => ⟨(append_nil _).symm, by
      rwa [cond_true, updateAll_append]⟩

theorem publishPending_spec (order : IterationOrder) (hwhole : whole)
    (hnodup : (pending.map fst).Nodup)
    (hC : ∀ write torn s, Stands False dat torn s →
      (∀ key, torn key = images key ∨
        ∃ image, (key, image) ∈ pending ∧ torn key = some image) →
      C (.tbl write) s) :
    Triple (Stands whole dat images) (publishPending order pending) C fun _ =>
      Stands whole dat (updateAll images pending) := by
  refine bind (consequence (fold (Publishing whole dat images) pending ?_ [])
    (fun s hs => ⟨rfl, hs⟩) id fun _ _ => id) fun inserts => of_and ?_
  · intro done inserts staged rest hpending
    apply publishImage_spec
    · rw [hpending, map_append, map_cons] at hnodup
      exact fun h => (nodup_append.mp hnodup).2.2 _ h _ (mem_cons_self ..) rfl
    · intro index s hs
      refine hC _ _ s hs.torn (updateAll_cases hnodup ?_)
      rw [hpending, append_cons done]
      exact (filter_sublist.append_right _).trans (sublist_append_left _ _)
  · rintro rfl
    rw [← updateAll_split hnodup]
    refine insertBatch_spec order hwhole
      (hnodup.sublist (filter_sublist.map _)) ?_ ?_
    · intro staged hstaged
      have hnone := isNone_iff_eq_none.mp (mem_filter.mp hstaged).2
      rwa [updateAll_of_notMem (by simp [mem_keys_held, hnone])]
    · intro write torn s hs htorn
      refine hC write torn s hs fun key => ?_
      rcases htorn key with h | h
      · rw [h]
        exact updateAll_cases hnodup filter_sublist key
      · rw [h, updateAll_split hnodup]
        exact updateAll_cases hnodup (List.Sublist.refl _) key

end Pending

end CoinFiles

end DgXch
