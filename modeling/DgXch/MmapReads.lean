/-
What a reader of the store is shown.  Every payload of the coin table points
into the coin log, so a coin can always be read, and the frames that a dropped
batch leaves there are never read.
-/
import DgXch.MmapChain

namespace DgXch

open ChainedTable WriteTrace MmapStore List CoinFiles Triple Nat StoreSession

variable {A : Type} {n : Nat} {store : MmapStore} {records : StagedImages}
  {f : CoinEntry → CoinEntry}

/-- The payload points into the first `n` frames. -/
def CoinEntry.Below (n : Nat) (entry : CoinEntry) : Prop :=
  ∀ off, entry.off = some off → off < n

theorem CoinEntry.Below.mono {entry : CoinEntry} {m : Nat} (h : entry.Below n)
    (hle : n ≤ m) : entry.Below m :=
  fun off hoff => Nat.lt_of_lt_of_le (h off hoff) hle

namespace CoinFiles

/-- The log has `n` frames or more, and every payload points into it. -/
structure InLog (n : Nat) (s : CoinFiles) : Prop where
  le : n ≤ s.dat.length
  slots : ∀ slot ∈ s.tbl.slots, slot.payload.Below s.dat.length

/-- Staged images that point into the first `n` frames. -/
def StagedBelow (n : Nat) (records : StagedImages) : Prop :=
  ∀ record ∈ records, record.2.Below n

/-- The payload that a table write carries points into the first `n`
frames. -/
def WriteBelow (n : Nat) : Write Bytes32 Nat CoinEntry → Prop
  | .slot _ slot => slot.payload.Below n
  | .payload _ entry => entry.Below n
  | .count _ => True
  | .head _ _ => True

variable {m : Nat} {s : CoinFiles} {key : Bytes32} {entry : CoinEntry}
  {C : CoinWrite → CoinFiles → Prop}

theorem StagedBelow.mono (h : StagedBelow n records)
    (hle : n ≤ m) : StagedBelow m records :=
  fun record hrecord => (h record hrecord).mono hle

theorem InLog.frame (h : InLog n s) (frame : CoinFrame) :
    InLog (s.dat.length + 1) (Writable.write s (CoinWrite.frame frame)) := by
  have hlen : (s.dat ++ [frame]).length = s.dat.length + 1 := length_append
  refine ⟨le_of_eq hlen.symm, fun slot hslot => ?_⟩
  exact (h.slots slot hslot).mono (hlen ▸ le_succ _)

theorem mem_writeAt {items : List A} {index : Nat} {item a : A}
    (h : a ∈ writeAt items index item) : a = item ∨ a ∈ items := by
  unfold writeAt at h
  split_ifs at h
  · exact (mem_or_eq_of_mem_set h).symm
  · rcases mem_append.mp h with h | h
    · exact .inr h
    · exact .inl (mem_singleton.mp h)

theorem InLog.tbl (h : InLog n s) {w : Write Bytes32 Nat CoinEntry}
    (hw : WriteBelow n w) : InLog n (Writable.write s (CoinWrite.tbl w)) := by
  refine ⟨h.le, fun slot hslot => ?_⟩
  change slot ∈ (s.tbl.write w).slots at hslot
  cases w with
  | slot i new =>
    rcases mem_writeAt hslot with rfl | hslot
    · exact hw.mono h.le
    · exact h.slots slot hslot
  | payload i new =>
    obtain ⟨j, hj⟩ := mem_iff_getElem?.mp hslot
    rw [Table.getElem?_write_payload, Option.map_eq_some_iff] at hj
    obtain ⟨old, hold, rfl⟩ := hj
    split_ifs
    · exact hw.mono h.le
    · exact h.slots old (mem_of_getElem? hold)
  | count => exact h.slots slot hslot
  | head => exact h.slots slot hslot

theorem repoint_inLog (hentry : entry.Below n) :
    Ends (InLog n) (repoint key entry) fun _ => InLog n := by
  refine bind (read (Q := fun _ => InLog n) fun _ => id) fun found => ?_
  cases found with
  | none => exact pure fun _ => id
  | some index =>
    exact bind (write (Q := fun _ => InLog n) fun s hs =>
      ⟨trivial, hs.tbl hentry⟩) fun _ => pure fun _ => id

/-- A found record can be read. -/
theorem walk_payload {t : Table Bytes32 Nat CoinEntry} {fuel link index : Nat}
    (h : t.walk key fuel link = some index) :
    ∃ slot ∈ t.slots, t.payload index = some slot.payload := by
  induction fuel generalizing link with
  | zero => cases h
  | succ fuel ih =>
    cases link with
    | zero => cases h
    | succ i =>
      rw [Table.walk] at h
      split at h
      · cases h
      rename_i slot hslot
      split_ifs at h
      · cases h
        refine ⟨slot, mem_of_getElem? hslot, ?_⟩
        rw [Table.payload, hslot, Option.map_some]
      · exact ih h

theorem InLog.full (h : InLog n s) : InLog s.dat.length s :=
  ⟨Nat.le_refl _, h.slots⟩

theorem InLog.anti (h : InLog m s) (hle : n ≤ m) : InLog n s :=
  ⟨le_trans hle h.le, h.slots⟩

theorem find_inLog :
    Ends (InLog n) (find key) fun found s =>
      (∀ index ∈ found, ∃ entry, s.tbl.payload index = some entry ∧
        entry.Below s.dat.length) ∧ InLog n s := by
  refine read fun s hs => ⟨fun index hindex => ?_, hs⟩
  obtain ⟨slot, hslot, hpayload⟩ := walk_payload hindex
  exact ⟨slot.payload, hpayload, hs.slots slot hslot⟩

theorem payload_inLog (index : Nat) :
    Ends (fun s => (∀ i ∈ some index, ∃ entry, s.tbl.payload i = some entry ∧
        entry.Below s.dat.length) ∧ InLog n s) (payload index)
      fun entry s => entry.Below s.dat.length ∧ InLog n s := by
  apply tryRead
  rintro s ⟨hfound, hs⟩
  obtain ⟨entry, hpayload, hbelow⟩ := hfound index rfl
  refine ⟨entry, ?_, hbelow, hs⟩
  rw [hpayload]

theorem revise_inLog (hf : ∀ n entry, entry.Below n → (f entry).Below n) :
    Ends (InLog n) (revise f key) fun _ => InLog n := by
  refine bind find_inLog fun found => ?_
  cases found with
  | none => exact pure fun _ hs => hs.2
  | some index =>
    refine bind (payload_inLog index) fun entry => ?_
    refine bind (write (Q := fun _ => InLog n) ?_) fun _ => pure fun _ => id
    rintro s ⟨hbelow, hs⟩
    have hw : WriteBelow s.dat.length (.payload index (f entry)) :=
      hf _ _ hbelow
    exact ⟨trivial, (hs.full.tbl hw).anti hs.le⟩

theorem insertBatch_inLog {order : IterationOrder} {batch : StagedImages}
    (hbatch : StagedBelow n batch) :
    Ends (InLog n) (insertBatch order batch) fun _ => InLog n := by
  intro s hs
  refine ⟨along_of_begins fun _ _ _ => trivial, (), rfl, ?_⟩
  refine writes_keep (fun s w hw hs => ?_) hs
  obtain ⟨op, hop, rfl⟩ := mem_map.mp hw
  refine hs.tbl ?_
  rcases Table.mem_insertBatch hop with ⟨i, slot, rfl, hslot⟩ | ⟨c, rfl⟩ |
    ⟨bucket, link, rfl⟩
  · exact hbatch _ hslot
  · trivial
  · trivial

/-- Staged images point into the log, which has `m` frames or more. -/
def StageIn (m : Nat) (pending : PendingCoins) (s : CoinFiles) : Prop :=
  ∃ n, m ≤ n ∧ StagedBelow n pending.records ∧ InLog n s

section Pending

variable {pending : PendingCoins} {height : UInt32} {timestamp : UInt64}
  {sha256 : HashFn} {order : IterationOrder} {batch : MmapBatch}
  {delta : CoinDelta} {cr : CoinRecord}

theorem StagedBelow.push (h : StagedBelow n pending.records)
    (hentry : entry.Below n) :
    StagedBelow n (pending.push key entry).records := by
  intro record hrecord
  rcases mem_append.mp hrecord with hold | hnew
  · exact h record hold
  · rw [mem_singleton.mp hnew]
    exact hentry

theorem StagedBelow.modify (h : StagedBelow n pending.records) (slot : Nat)
    (hf : ∀ entry, entry.Below n → (f entry).Below n) :
    StagedBelow n (pending.modify slot f).records := by
  intro record hrecord
  obtain ⟨old, hold, -, hsame | hnew⟩ := Staged.mem_modify hrecord
  · rw [hsame]
    exact h old hold
  · rw [hnew]
    exact hf _ (h old hold)

theorem below_added {off : Nat} : (CoinEntry.added off height).Below (off + 1) := by
  rintro _ ⟨⟩
  exact lt_succ_self off

theorem append_stageIn (frame : CoinFrame) :
    Ends (StageIn m pending) (append frame) fun off s => m ≤ off + 1 ∧
      StagedBelow (off + 1) pending.records ∧ InLog (off + 1) s := by
  refine of_exists fun n => of_and fun hm => of_and fun hstaged => ?_
  refine bind (read (Q := fun off s => off = s.dat.length ∧ InLog n s)
    fun s hs => ⟨rfl, hs⟩) fun off => bind (write ?_) fun _ => pure fun _ => id
  rintro s ⟨rfl, hs⟩
  have hle := le_succ_of_le hs.le
  exact ⟨trivial, le_trans hm hle, hstaged.mono hle, hs.frame frame⟩

theorem stageAddition_inLog :
    Ends (StageIn m pending) (stageAddition sha256 height timestamp pending cr)
      (StageIn m) := by
  refine bind (append_stageIn _) fun off => of_and fun hm =>
    of_and fun hgrown => ?_
  cases pending.index (cr.coin.name sha256) with
  | some slot => exact pure fun s hs =>
    ⟨off + 1, hm, hgrown.modify slot fun _ _ => below_added, hs⟩
  | none => exact pure fun s hs => ⟨off + 1, hm, hgrown.push below_added, hs⟩

theorem stageRemoval_inLog (sweep : Option StagedSweep) (name : Bytes32) :
    Ends (StageIn m pending) (stageRemoval sweep height pending name)
      (StageIn m) := by
  unfold stageRemoval
  split
  · exact pure fun s ⟨n, hm, hstaged, hs⟩ =>
      ⟨n, hm, hstaged.modify _ fun _ h => h, hs⟩
  split_ifs
  · exact pure fun _ => id
  refine of_exists fun n => of_and fun hm =>
    of_and fun hstaged => ?_
  refine bind find_inLog fun found => ?_
  cases found with
  | none => exact pure fun s hs => ⟨n, hm, hstaged, hs.2⟩
  | some index =>
    refine bind (payload_inLog index) fun entry => ?_
    apply Triple.pure
    rintro s ⟨hbelow, hs⟩
    exact ⟨s.dat.length, le_trans hm hs.le,
      (hstaged.mono hs.le).push hbelow, hs.full⟩

theorem applyAddition_inLog :
    Ends (StageIn m pending) (applyAddition sha256 height timestamp pending cr)
      (StageIn m) := by
  refine bind (append_stageIn _) fun off => of_and fun hm =>
    of_and fun hgrown => ?_
  refine bind (repoint_inLog below_added) fun found => ?_
  cases found with
  | true => exact pure fun s hs => ⟨off + 1, hm, hgrown, hs⟩
  | false => exact pure fun s hs => ⟨off + 1, hm, hgrown.push below_added, hs⟩

theorem applyRemoval_inLog (name : Bytes32) :
    Ends (StageIn m pending) (applyRemoval height pending name)
      (StageIn m) := by
  unfold applyRemoval
  split
  · exact pure fun s ⟨n, hm, hstaged, hs⟩ =>
      ⟨n, hm, hstaged.modify _ fun _ h => h, hs⟩
  refine of_exists fun n => of_and fun hm => of_and fun hstaged => ?_
  exact bind (revise_inLog (f := .spendAt height) (fun _ _ h => h))
    fun _ => pure fun s hs => ⟨n, hm, hstaged, hs⟩

theorem applyBlockIn_inLog :
    Ends (StageIn m batch.pending) (applyBlockIn sha256 batch delta)
      fun batch' => StageIn m batch'.pending := by
  refine bind (fold (fun _ => StageIn m) delta.additions
    (fun _ _ _ _ _ => stageAddition_inLog)
    batch.pending) fun pending => ?_
  exact bind (fold (fun _ => StageIn m) delta.removals
    (fun _ _ name _ _ => stageRemoval_inLog batch.sweep name) pending)
    fun _ => pure fun _ => id

theorem applyBlock_inLog :
    Ends (InLog m) (applyBlock sha256 order delta) fun _ => InLog m := by
  refine bind ((fold (fun _ => StageIn m) delta.additions
    (fun _ _ _ _ _ => applyAddition_inLog) {})
    |>.consequence (fun s hs => ⟨m, le_refl m,
      fun _ h => absurd h not_mem_nil, hs⟩) id fun _ _ => id)
    fun pending => ?_
  refine bind (fold (fun _ => StageIn m) delta.removals
    (fun _ _ name _ _ => applyRemoval_inLog name) pending) fun pending => ?_
  refine of_exists fun n => of_and fun hm => of_and fun hstaged => ?_
  exact (insertBatch_inLog hstaged).consequence (fun _ => id) id
    fun _ _ hs => hs.anti hm

theorem sweepTable_inLog (deletions unspends : List Bytes32) :
    Ends (InLog n) (sweepTable deletions unspends) fun _ => InLog n := by
  have hall : ∀ {f : CoinEntry → CoinEntry} (keys : List Bytes32),
      (∀ n entry, entry.Below n → (f entry).Below n) →
      Ends (InLog n) (reviseAll f keys) fun _ => InLog n := by
    intro f keys hf
    refine fold (fun _ _ => InLog n) keys (fun _ touched key _ _ => ?_) 0
    refine bind (revise_inLog hf) fun found => ?_
    cases found with
    | true => exact pure fun _ => id
    | false => exact pure fun _ => id
  refine bind (hall deletions fun _ _ _ => nofun) fun _ => ?_
  exact bind (hall unspends fun _ _ h => h) fun _ => pure fun _ => id

theorem publishPending_inLog (h : StagedBelow n records) :
    Ends (InLog n) (publishPending order records) fun _ => InLog n := by
  refine bind ((fold (fun _ inserts s =>
    StagedBelow n inserts ∧ InLog n s) records (fun done inserts staged rest
      hsplit => of_and fun hinserts => ?_) []).consequence
    (fun s hs => ⟨fun _ h => absurd h not_mem_nil, hs⟩) id fun _ _ => id)
    fun inserts => of_and fun hinserts => insertBatch_inLog hinserts
  have hstaged : staged.2.Below n := h staged (hsplit ▸
    mem_append_right _ (mem_cons_self ..))
  refine bind (repoint_inLog hstaged) fun found => ?_
  cases found with
  | true => exact pure fun s hs => ⟨hinserts, hs⟩
  | false =>
    refine pure fun s hs => ⟨fun record hrecord => ?_, hs⟩
    rcases mem_append.mp hrecord with hold | hnew
    · exact hinserts record hold
    · rw [mem_singleton.mp hnew]
      exact hstaged

end Pending

end CoinFiles

theorem coinLift_inLog {m : Nat} {p : CoinProc A}
    (hp : Ends (InLog n) p fun _ => InLog m) :
    Ends (fun s : MmapStore => s.coins.InLog n) (coinPart.lift p)
      fun _ s => s.coins.InLog m :=
  (Triple.lift coinPart (F := fun _ => True) (fun _ _ => id) hp).consequence
    (fun _ hs => ⟨trivial, hs⟩) (fun _ => trivial) fun _ _ hs => hs.2

theorem flush_inLog {order : IterationOrder} {batch : MmapBatch}
    (h : StagedBelow n batch.pending.records) (hs : store.coins.InLog n) :
    (flushCoinBatch order batch store).2 = .ok () ∧
      ((flushCoinBatch order batch).exec store).coins.InLog n := by
  have hflush : Ends (fun s : MmapStore => s.coins.InLog n)
      (flushCoinBatch order batch) fun _ s => s.coins.InLog n := by
    rw [flushCoinBatch]
    split_ifs
    · exact pure fun _ => id
    refine bind (Q := fun _ s => s.coins.InLog n) ?_ fun _ =>
      coinLift_inLog (publishPending_inLog h)
    cases batch.sweep with
    | none => exact pure fun _ => id
    | some sweep =>
      refine bind (write (Q := fun _ s => s.coins.InLog n)
        fun s hs => ⟨trivial, hs⟩) fun _ => ?_
      refine bind (write (Q := fun _ s => s.coins.InLog n)
        fun s hs => ⟨trivial, hs⟩) fun _ => ?_
      exact bind (coinLift_inLog (sweepTable_inLog _ _)) fun _ =>
        pure fun _ => id
  obtain ⟨-, _, hok, hs'⟩ := hflush store hs
  exact ⟨hok, hs'⟩

/-- Every payload of a session points into the coin log. -/
def SessionInLog (s : StoreSession) : Prop :=
  ∃ n, s.store.coins.InLog n ∧ ∀ batch ∈ s.batch,
    CoinFiles.StagedBelow n batch.pending.records

variable {s : StoreSession}

theorem SessionInLog.of_coins (h : SessionInLog s)
    (hsame : store.coins = s.store.coins) :
    SessionInLog { s with store } := by
  obtain ⟨n, hs, hbatch⟩ := h
  exact ⟨n, hsame.symm ▸ hs, hbatch⟩

theorem stagedBelow_empty : StagedBelow n ({} : MmapBatch).pending.records :=
  fun _ h => absurd h not_mem_nil

theorem SessionInLog.rollbackToIn (h : SessionInLog s) (fork : UInt32) :
    SessionInLog (s.step sha256 (.rollbackToIn fork)) := by
  obtain ⟨n, hs, hbatch⟩ := h
  obtain ⟨store, _ | batch⟩ := s
  · exact ⟨n, hs, hbatch⟩
  have hspec : Ends (fun s : MmapStore => s.coins.InLog n)
      (rollbackToIn batch fork) fun result s =>
        result.1.pending = batch.pending ∧ s.coins.InLog n := by
    refine bind (read (Q := fun _ s => s.coins.InLog n) fun _ => id) fun _ => ?_
    exact bind (coinLift_inLog (m := n) (bind (read
      (Q := fun _ => InLog n) fun _ => id) fun _ =>
        pure fun _ => id)) fun _ => pure fun _ hs => ⟨rfl, hs⟩
  obtain ⟨-, ⟨batch', _⟩, hok, hsame, hs'⟩ := hspec store hs
  rw [step_rollbackToIn (s := ⟨store, some batch⟩) rfl hok]
  refine ⟨n, hs', ?_⟩
  rintro _ ⟨⟩
  exact hsame.symm ▸ hbatch batch rfl

theorem SessionInLog.applyBlockIn (h : SessionInLog s) (delta : CoinDelta) :
    SessionInLog (s.step sha256 (.applyBlockIn delta)) := by
  obtain ⟨n, hs, hbatch⟩ := h
  obtain ⟨store, _ | batch⟩ := s
  · exact ⟨n, hs, hbatch⟩
  have hin : StageIn n batch.pending store.coins :=
    ⟨n, le_refl n, hbatch batch rfl, hs⟩
  obtain ⟨batch', hok, m, -, hstaged, hs'⟩ := coinLift_ok applyBlockIn_inLog hin
  rw [step_applyBlockIn (s := ⟨store, some batch⟩) rfl hok]
  refine ⟨m, hs', ?_⟩
  rintro _ ⟨⟩
  exact hstaged

/-- Every call keeps the payloads inside the log. -/
theorem SessionInLog.step (h : SessionInLog s) (c : StoreCall) :
    SessionInLog (s.step sha256 c) := by
  have hlog := h
  obtain ⟨n, hs, hbatch⟩ := hlog
  cases c with
  | rollbackToIn fork => exact h.rollbackToIn fork
  | applyBlockIn delta => exact h.applyBlockIn delta
  | beginBatch =>
    refine ⟨n, hs, ?_⟩
    rintro _ ⟨⟩
    exact stagedBelow_empty
  | dropBatch => exact ⟨n, hs, nofun⟩
  | applyHintsIn pairs =>
    exact h.of_coins (coins_of_makes (Proc.Makes.each
      (fun pair => .write fun _ => nofun) pairs))
  | addBlockRecords records =>
    exact h.of_coins (coins_of_makes (makes_chainLift _))
  | setPeakIn newPeak =>
    obtain ⟨store, _ | batch⟩ := s
    · exact ⟨n, hs, hbatch⟩
    obtain ⟨hok, hs'⟩ := flush_inLog (hbatch batch rfl) hs
    rw [← coins_setPeakIn hok] at hs'
    refine ⟨n, hs', ?_⟩
    rintro _ ⟨⟩
    exact stagedBelow_empty
  | commit =>
    obtain ⟨store, _ | batch⟩ := s
    · exact ⟨n, hs, hbatch⟩
    obtain ⟨hok, hs'⟩ := flush_inLog (hbatch batch rfl) hs
    rw [← coins_commit hok] at hs'
    exact ⟨n, hs', nofun⟩
  | applyBlock delta =>
    obtain ⟨-, -, hs'⟩ := coinLift_ok applyBlock_inLog hs
    exact ⟨n, hs', hbatch⟩
  | rollbackTo fork =>
    obtain ⟨-, -, hs'⟩ := coinLift_ok (bind (read
      (Q := fun _ => InLog n) fun _ => id) fun _ => sweepTable_inLog _ _) hs
    exact ⟨n, hs', hbatch⟩

theorem CoinFiles.InLog.coinByName {files : CoinFiles} (h : files.InLog n)
    (name : Bytes32) : ∃ record, files.coinByName name = .ok record := by
  unfold CoinFiles.coinByName
  split
  case h_1 => exact ⟨_, rfl⟩
  case h_2 entry hentry =>
    split
    case h_1 => exact ⟨_, rfl⟩
    case h_2 off hoff =>
      obtain ⟨index, -, hpayload⟩ := Option.bind_eq_some_iff.mp hentry
      obtain ⟨slot, hslot, rfl⟩ := Option.map_eq_some_iff.mp hpayload
      rw [getElem?_eq_getElem (h.slots slot (mem_of_getElem? hslot) off hoff)]
      exact ⟨_, rfl⟩

/-- Whatever calls were made, allowed or not, a coin can be read. -/
theorem getCoinRecord_never_fails (sha256 : HashFn)
    (calls : List StoreCall) (name : Bytes32) :
    let store := (calls.foldl (StoreSession.step sha256) {}).store
    ∃ record, store.getCoinRecord name = .ok record := by
  obtain ⟨n, hs, -⟩ : SessionInLog
      (calls.foldl (StoreSession.step sha256) {}) :=
    List.foldlRecOn (motive := SessionInLog) calls _
      ⟨0, ⟨le_refl 0, nofun⟩, nofun⟩ fun s hs c _ => hs.step c
  exact hs.coinByName name

/-- What a reader can ask of the store. -/
structure SameReads (s s' : MmapStore) : Prop where
  coins : ∀ name, s'.getCoinRecord name = s.getCoinRecord name
  hints : ∀ hint maxItems,
    s'.getCoinsForHint hint maxItems = s.getCoinsForHint hint maxItems
  peak : s'.getPeak = s.getPeak
  chain : ∀ height,
    s'.getBlockRecordByHeight height = s.getBlockRecordByHeight height

/-- The calls on a batch that defer everything to its publication. -/
def StoreCall.Deferred : StoreCall → Prop
  | .applyBlockIn _ => True
  | .rollbackToIn _ => True
  | .applyHintsIn pairs => pairs = []
  | _ => False

/-- The store with more frames in its coin log. -/
structure Grown (s s' : MmapStore) : Prop where
  rest : s'.rest = s.rest
  tbl : s'.coins.tbl = s.coins.tbl
  dat : s.coins.dat <+: s'.coins.dat

theorem Grown.refl (store : MmapStore) : Grown store store :=
  ⟨rfl, rfl, prefix_refl _⟩

/-- Frames past the payloads are not read. -/
theorem Grown.reads {store' : MmapStore} (h : Grown store store')
    (hs : store.coins.InLog n) : SameReads store store' := by
  have hchain : store'.rest.chain = store.rest.chain := congrArg _ h.rest
  have hhints : store'.rest.hints = store.rest.hints := congrArg _ h.rest
  change store'.chain = store.chain at hchain
  change store'.hints = store.hints at hhints
  refine ⟨fun name => ?_, fun hint maxItems => ?_, ?_, fun height => ?_⟩
  · rw [getCoinRecord, getCoinRecord, coinByName, coinByName, h.tbl]
    cases hget : store.coins.tbl.get (bucketOf coinBuckets) name with
    | none => rfl
    | some entry =>
      obtain ⟨index, hindex, hpayload⟩ := Option.bind_eq_some_iff.mp hget
      obtain ⟨slot, hslot, hsame⟩ := walk_payload hindex
      rw [hsame] at hpayload
      cases hpayload
      dsimp only
      cases hoff : slot.payload.off with
      | none => rfl
      | some off =>
        have hlt := hs.slots slot hslot off hoff
        obtain ⟨more, hmore⟩ := h.dat
        dsimp only
        rw [← hmore, getElem?_append_left hlt]
  · rw [getCoinsForHint, getCoinsForHint, hhints]
  · rw [getPeak, getPeak, hchain]
  · rw [getBlockRecordByHeight, getBlockRecordByHeight, hchain]

/-- The writes that a deferred call makes. -/
def IsFrame (w : StoreWrite) : Prop := ∃ frame, w = .coins (.frame frame)

theorem Grown.of_makes {store' : MmapStore} (h : Grown store store')
    {p : StoreProc A} (hp : p.Makes IsFrame) :
    Grown store (p.exec store') := by
  refine hp.keeps (I := Grown store) ?_ h
  rintro s _ ⟨frame, rfl⟩ hs
  exact ⟨hs.rest, hs.tbl, hs.dat.trans (prefix_append _ _)⟩

theorem makes_applyBlockIn {batch : MmapBatch} {delta : CoinDelta} :
    (MmapStore.applyBlockIn sha256 batch delta).Makes IsFrame := by
  apply Proc.Makes.lift
  have happend : ∀ frame, (append frame).Makes
      fun v => IsFrame (coinPart.op v) := by
    intro frame
    exact .bind .read fun _ => .bind (.write ⟨frame, rfl⟩) fun _ => .pure
  refine .bind (.fold (fun pending cr => .bind (happend _) fun off => ?_) _ _)
    fun _ => .bind (.fold (fun pending name => ?_) _ _) fun _ => .pure
  · cases pending.index (cr.coin.name sha256) with
    | none => exact .pure
    | some slot => exact .pure
  · unfold stageRemoval
    split
    · exact .pure
    split_ifs
    · exact .pure
    refine .bind .read fun found => ?_
    cases found with
    | none => exact .pure
    | some index => exact .bind .tryRead fun _ => .pure

theorem Grown.step (h : Grown store s.store) {c : StoreCall} (hc : c.Deferred) :
    Grown store (s.step sha256 c).store := by
  obtain ⟨store', batch⟩ := s
  cases c with
  | rollbackToIn fork =>
    cases batch with
    | none => exact h
    | some batch =>
      exact h.of_makes (.bind .read fun _ =>
        .bind (.lift (.bind .read fun _ => .pure)) fun _ => .pure)
  | applyBlockIn delta =>
    cases batch with
    | none => exact h
    | some batch => exact h.of_makes makes_applyBlockIn
  | applyHintsIn pairs =>
    cases hc
    exact h
  | beginBatch => exact hc.elim
  | dropBatch => exact hc.elim
  | addBlockRecords records => exact hc.elim
  | setPeakIn newPeak => exact hc.elim
  | commit => exact hc.elim
  | applyBlock delta => exact hc.elim
  | rollbackTo fork => exact hc.elim

/-- A batch whose calls are all deferred and that is then dropped never
happened, in whatever state the session was when it began. -/
theorem dropped_batch_reads (sha256 : HashFn) (before calls : List StoreCall)
    (hcalls : ∀ c ∈ calls, c.Deferred) :
    let s := before.foldl (StoreSession.step sha256) {}
    let s' := (StoreCall.beginBatch :: calls ++ [StoreCall.dropBatch]).foldl
      (StoreSession.step sha256) s
    SameReads s.store s'.store := by
  intro s s'
  obtain ⟨n, hs, -⟩ : SessionInLog s :=
    List.foldlRecOn (motive := SessionInLog) before _
      ⟨0, ⟨le_refl 0, nofun⟩, nofun⟩ fun s hs c _ => hs.step c
  have hgrown : Grown s.store (calls.foldl (step sha256)
      (s.step sha256 .beginBatch)).store :=
    List.foldlRecOn (motive := fun t : StoreSession =>
      Grown s.store t.store) calls _
      (Grown.refl s.store) fun t ht c hc => ht.step (hcalls c hc)
  have hdrop : s'.store = (calls.foldl (step sha256)
      (s.step sha256 .beginBatch)).store := by
    change store (List.foldl _ _ (calls ++ [_])) = _
    rw [foldl_append]
    rfl
  rw [hdrop]
  exact hgrown.reads hs

/-- A record of nothing but its place in a chain. -/
def plainRecord (headerHash prevHash : Bytes32) (height : UInt32) :
    BlockRecord where
  headerHash := headerHash
  prevHash := prevHash
  height := height
  totalIters := 0
  signagePointIndex := 0
  subSlotIters := 0
  requiredIters := 0
  overflow := false
  prevTransactionBlockHeight := 0
  timestamp := none

theorem dropped_batch_reads_at_deferred :
    let s := [StoreCall.beginBatch, .applyBlockIn ⟨1, 100, [plainCoin 1], []⟩,
      .commit sortedOrder].foldl (StoreSession.step hash256) {}
    let s' := [StoreCall.beginBatch, .rollbackToIn 0,
      .applyBlockIn ⟨1, 101, [plainCoin 2], []⟩, .applyHintsIn [],
      .dropBatch].foldl (StoreSession.step hash256) s
    s'.store.getCoinRecord ((plainCoin 1).coin.name hash256) =
      .ok (some ⟨(plainCoin 1).coin, 1, 0, false, 100, false⟩) := by
  intro s s'
  have hsame := dropped_batch_reads hash256 [.beginBatch,
    .applyBlockIn ⟨1, 100, [plainCoin 1], []⟩, .commit sortedOrder]
    [.rollbackToIn 0, .applyBlockIn ⟨1, 101, [plainCoin 2], []⟩, .applyHintsIn []] (by
      intro c hc
      rcases mem_cons.mp hc with rfl | hc
      · trivial
      rcases mem_cons.mp hc with rfl | hc
      · trivial
      rw [mem_singleton.mp hc]
      rfl)
  exact (hsame.coins _).trans (by decide +kernel)

set_option maxRecDepth 20000 in
/-- `set_peak_in` publishes the batch: dropping it afterwards leaves its coin,
its peak and its main chain behind. -/
theorem dropped_batch_published :
    let s := [StoreCall.addBlockRecords sortedOrder
      [plainRecord (plainHash 1) (plainHash 0) 1]].foldl
        (StoreSession.step hash256) {}
    let s' := [StoreCall.beginBatch,
      .applyBlockIn ⟨1, 100, [plainCoin 1], []⟩,
      .setPeakIn sortedOrder (plainHash 1), .dropBatch].foldl
        (StoreSession.step hash256) s
    s.store.getPeak = none ∧ s'.store.getPeak = some (plainHash 1, 1) ∧
      s.store.getCoinRecord ((plainCoin 1).coin.name hash256) = .ok none ∧
      s'.store.getCoinRecord ((plainCoin 1).coin.name hash256) =
        .ok (some ⟨(plainCoin 1).coin, 1, 0, false, 100, false⟩) ∧
      s.store.getBlockRecordByHeight 1 = .ok none ∧
      s'.store.getBlockRecordByHeight 1 =
        .ok (some (plainRecord (plainHash 1) (plainHash 0) 1)) := by
  decide +kernel

end DgXch
