/-
What `set_peak` and the convergence of a torn reorg do to the main flags and
the height index, and the main chains that the block files then show.
-/
import DgXch.MmapSession

namespace DgXch

open ChainedTable WriteTrace List Triple Nat Option ChainWrite BlockRecord Writable

namespace HeightIndex

variable (index : HeightIndex) (height : UInt32)

theorem get_eq_slotAt :
    index.get height = if index.slotAt height.toNat = Bytes32.zero then none
      else some (index.slotAt height.toNat) := by
  have hroom : index.slotAt height.toNat ≠ Bytes32.zero →
      height.toNat < index.slots :=
    fun h => Nat.lt_of_not_le fun hle => h (index.vacant _ hle)
  unfold get
  split_ifs with hand hzero hzero
  · exact absurd hzero hand.2
  · rfl
  · rfl
  · exact absurd ⟨hroom hzero, hzero⟩ hand

theorem get_set (hash : Bytes32) :
    (index.set height hash).get = Function.update index.get height
      (if hash = Bytes32.zero then none else some hash) := by
  funext other
  simp only [get_eq_slotAt, set]
  by_cases hsame : other = height
  · simp only [hsame, Function.update_self]
  · have hne : other.toNat ≠ height.toNat :=
      fun h => hsame (UInt32.toNat_inj.mp h)
    simp only [Function.update_of_ne hsame, Function.update_of_ne hne,
      get_eq_slotAt]

end HeightIndex

def BlockEntry.withMain (flag : Bool) (entry : BlockEntry) : BlockEntry :=
  { entry with main := flag }

/-- What the block files hold: the records, the entries but for their main
flags, the flags, the height index and the peak on disk and in memory. -/
@[ext]
structure ChainView where
  records : List BlockRecord
  base : Bytes32 → Option BlockEntry
  flags : Bytes32 → Bool
  listed : UInt32 → Option Bytes32
  metaDat : Option (Bytes32 × UInt32)
  peak : Option (Bytes32 × UInt32)

/-- The block files hold what a view says. -/
structure ChainAt (v : ChainView) (s : ChainFiles) : Prop where
  sound : s.tbl.Sound
  linked : s.tbl.Linked (bucketOf blockBuckets)
  records : s.records = v.records
  entry : ∀ hash, s.tbl.get (bucketOf blockBuckets) hash =
    (v.base hash).map (BlockEntry.withMain (v.flags hash))
  listed : s.heights.get = v.listed
  metaDat : s.metaDat = v.metaDat
  peak : s.peak = v.peak

namespace ChainView

variable (v : ChainView)

/-- Flag a block on or off the main chain. -/
def flag (hash : Bytes32) (on : Bool) : ChainView :=
  { v with flags := Function.update v.flags hash on }

/-- List a block at a height, or none. -/
def list (height : UInt32) (hash : Option Bytes32) : ChainView :=
  { v with listed := Function.update v.listed height hash }

/-- Take a height off the main chain. -/
def retire (height : UInt32) : ChainView :=
  match v.listed height with
  | none => v
  | some hash => (v.flag hash false).list height none

/-- Put a block on the main chain. -/
def link (b : BlockRecord) : ChainView :=
  (v.flag b.headerHash true).list b.height (some b.headerHash)

/-- Hold a peak in memory. -/
def crown (peak : Option (Bytes32 × UInt32)) : ChainView := { v with peak }

/-- Write the peak that is held. -/
def save : ChainView := { v with metaDat := v.peak }

/-- The table has an entry for the record, which points at it. -/
def Knows (b : BlockRecord) : Prop :=
  ∃ entry off, v.base b.headerHash = some entry ∧ entry.height = b.height ∧
    entry.recordOff = some off ∧ v.records[off]? = some b

end ChainView

variable {v : ChainView} {s : ChainFiles} {hash : Bytes32}
  {blocks : List BlockRecord}

namespace ChainAt

section

variable (h : ChainAt v s)

include h

open ChainView

theorem setMain {index : Nat} {entry : BlockEntry}
    (hfind : s.tbl.find (bucketOf blockBuckets) hash = some index)
    (hentry : s.tbl.get (bucketOf blockBuckets) hash = some entry) (on : Bool) :
    ChainAt (v.flag hash on) (write s
      (tbl (.payload index (entry.withMain on)))) := by
  refine { h with
    sound := h.sound.write_payload
    linked := h.linked.write_payload h.sound hfind
    entry := fun other => ?_ }
  refine (congrFun (h.sound.get_write_payload hfind) other).trans ?_
  by_cases hsame : other = hash
  · subst hsame
    rw [h.entry, map_eq_some_iff] at hentry
    obtain ⟨base, hbase, rfl⟩ := hentry
    simp only [flag, Function.update_self, hbase, map_some]
    rfl
  · simp only [flag, Function.update_of_ne hsame, h.entry]

/-- The flag of a block that the table does not have says nothing. -/
theorem flag_unknown (hnone : v.base hash = none) (on : Bool) :
    ChainAt (v.flag hash on) s := by
  refine { h with entry := fun other => ?_ }
  by_cases hsame : other = hash
  · rw [hsame, h.entry, flag, hnone]
    rfl
  · simp only [flag, Function.update_of_ne hsame, h.entry]

theorem setHeight (height : UInt32) (hash : Bytes32) :
    ChainAt (v.list height (if hash = Bytes32.zero then none else some hash))
      (write s (ChainWrite.height height hash)) :=
  { h with
    listed := by
      rw [list, ← h.listed]
      exact s.heights.get_set height hash }

theorem setPeak (peak : Option (Bytes32 × UInt32)) :
    ChainAt (v.crown peak) (write s (ChainWrite.peak peak)) :=
  { h with peak := rfl }

theorem setMeta : ChainAt v.save (write s (ChainWrite.metaDat s.peak)) :=
  { h with metaDat := h.peak }

/-- The table has no fewer records than there are known blocks. -/
theorem length_le (hnodup : (blocks.map headerHash).Nodup)
    (hknown : ∀ b ∈ blocks, v.Knows b) : blocks.length < s.tbl.count + 1 := by
  have hfound : ∀ hash ∈ blocks.map headerHash,
      s.tbl.get (bucketOf blockBuckets) hash ≠ none := by
    intro hash hhash
    obtain ⟨b, hb, rfl⟩ := mem_map.mp hhash
    obtain ⟨entry, -, hentry, -⟩ := hknown b hb
    rw [h.entry, hentry]
    exact some_ne_none _
  have hle := h.sound.length_le_count hnodup hfound
  rw [length_map] at hle
  exact lt_succ_of_le hle

end

end ChainAt

variable {C : ChainWrite → ChainFiles → Prop}

namespace ChainFiles

theorem blockEntry_spec :
    Triple (ChainAt v) (blockEntry hash) C fun found s => ChainAt v s ∧
      match found with
      | none => v.base hash = none
      | some (index, entry) =>
        s.tbl.find (bucketOf blockBuckets) hash = some index ∧
        s.tbl.get (bucketOf blockBuckets) hash = some entry := by
  apply tryRead
  intro s hs
  cases hfind : s.tbl.find (bucketOf blockBuckets) hash with
  | none =>
    refine ⟨none, rfl, hs, ?_⟩
    have hget := hs.entry hash
    rw [Table.get, hfind] at hget
    exact map_eq_none_iff.mp hget.symm
  | some index =>
    obtain ⟨slot, hslot, -, hget⟩ := hs.sound.get_of_find hfind
    have hpayload : s.tbl.payload index = some slot.payload := by
      rw [Table.payload, hslot, map_some]
    exact ⟨some (index, slot.payload), by simp only [hpayload], hs, rfl, hget⟩

theorem blockEntry_known {base : BlockEntry} (hbase : v.base hash = some base) :
    Triple (ChainAt v) (blockEntry hash) C fun found s => ∃ index,
      found = some (index, base.withMain (v.flags hash)) ∧ ChainAt v s ∧
      s.tbl.find (bucketOf blockBuckets) hash = some index ∧
      s.tbl.get (bucketOf blockBuckets) hash =
        some (base.withMain (v.flags hash)) := by
  refine blockEntry_spec.consequence (fun _ => id) id ?_
  rintro (_ | ⟨index, entry⟩) s ⟨hs, hfound⟩
  · rw [hbase] at hfound
    cases hfound
  · have hentry := hs.entry hash
    rw [hbase, hfound.2, map_some] at hentry
    cases hentry
    exact ⟨index, rfl, hs, hfound⟩

/-- Retiring a height: the flag goes first, then the listing. -/
theorem retireHeight_spec (height : UInt32)
    (hflag : ∀ hash index (entry : BlockEntry) s, v.listed height = some hash →
      ChainAt (v.flag hash false) s →
      C (.tbl (.payload index (entry.withMain false))) s)
    (hheight : ∀ s, ChainAt (v.retire height) s →
      C (.height height Bytes32.zero) s) :
    Triple (ChainAt v) (retireHeight height) C fun _ =>
      ChainAt (v.retire height) := by
  refine read_bind (· = v.listed height)
    (fun s hs => congrFun hs.listed height) ?_
  rintro _ rfl
  cases hlisted : v.listed height with
  | none =>
    apply Triple.pure
    intro s hs
    rw [ChainView.retire, hlisted]
    exact hs
  | some hash =>
    have hretire : v.retire height = (v.flag hash false).list height none := by
      rw [ChainView.retire, hlisted]
    have hwrite : Triple (ChainAt (v.flag hash false))
        (Proc.write (.height height Bytes32.zero) : ChainProc Unit) C
        fun _ => ChainAt (v.retire height) := by
      apply Triple.write
      intro s hs
      have hnow := hs.setHeight height Bytes32.zero
      rw [if_pos rfl, ← hretire] at hnow
      exact ⟨hheight _ hnow, hnow⟩
    refine bind blockEntry_spec fun entry? => ?_
    cases entry? with
    | none =>
      exact hwrite.consequence (fun s hs => hs.1.flag_unknown hs.2 false)
        id fun _ _ => id
    | some found =>
      refine bind (write fun s hs => ?_) fun _ => hwrite
      have hnow := hs.1.setMain hs.2.1 hs.2.2 false
      exact ⟨hflag hash found.1 found.2 _ hlisted hnow, hnow⟩

end ChainFiles

namespace ChainView

variable {height : UInt32}

/-- Take heights off the main chain, all at once. -/
def retireAll (v : ChainView) (heights : List UInt32) : ChainView :=
  { v with
    flags := fun hash =>
      v.flags hash && !decide (∃ height ∈ heights, v.listed height = some hash)
    listed := fun height => if height ∈ heights then none else v.listed height }

theorem retireAll_nil (v : ChainView) : v.retireAll [] = v := by
  simp [retireAll]

theorem retireAll_flags (v : ChainView) (heights : List UInt32) :
    (v.retireAll heights).flags hash = true ↔
      v.flags hash = true ∧ ∀ height ∈ heights, v.listed height ≠ some hash := by
  simp [retireAll]

theorem retireAll_listed (heights : List UInt32) :
    (v.retireAll heights).listed height =
      if height ∈ heights then none else v.listed height :=
  rfl

theorem retire_retireAll (v : ChainView) (heights : List UInt32) :
    (v.retireAll heights).retire height = v.retireAll (heights ++ [height]) := by
  have hflags : ∀ hash, (v.retireAll (heights ++ [height])).flags hash = true ↔
      (v.retireAll heights).flags hash = true ∧
        v.listed height ≠ some hash := by
    intro hash
    rw [retireAll_flags, retireAll_flags, forall_mem_append,
      forall_mem_singleton, and_assoc]
  have hlisted : (v.retireAll (heights ++ [height])).listed =
      Function.update (v.retireAll heights).listed height none := by
    funext other
    by_cases hsame : other = height
    · simp [hsame, retireAll_listed]
    · simp [hsame, retireAll_listed]
  rw [retire]
  cases hcase : (v.retireAll heights).listed height with
  | none =>
    refine ChainView.ext rfl rfl (funext fun hash => ?_) ?_ rfl rfl
    · rw [Bool.eq_iff_iff, hflags]
      refine ⟨fun h => ⟨h, fun hhash => ?_⟩, And.left⟩
      rw [retireAll_listed] at hcase
      split_ifs at hcase with hmem
      · exact (v.retireAll_flags heights).mp h |>.2 height hmem hhash
      · rw [hcase] at hhash
        cases hhash
    · refine Eq.trans ?_ hlisted.symm
      rw [← hcase, Function.update_eq_self, hcase]
  | some hash =>
    have hhash : v.listed height = some hash := by
      rw [retireAll_listed] at hcase
      split_ifs at hcase
      exact hcase
    refine ChainView.ext rfl rfl (funext fun other => ?_) hlisted.symm rfl rfl
    rw [Bool.eq_iff_iff, hflags, hhash]
    by_cases hsame : other = hash
    · simp [flag, list, hsame]
    · simp [flag, list, hsame, Ne.symm hsame]

/-- Put blocks on the main chain, one after the other. -/
def linkAll (v : ChainView) (blocks : List BlockRecord) : ChainView :=
  blocks.foldl link v

/-- What linking leaves alone. -/
theorem linkAll_frame (v : ChainView) :
    (v.linkAll blocks).base = v.base ∧
      (v.linkAll blocks).records = v.records ∧
      (v.linkAll blocks).metaDat = v.metaDat ∧
      (v.linkAll blocks).peak = v.peak := by
  induction blocks generalizing v with
  | nil => exact ⟨rfl, rfl, rfl, rfl⟩
  | cons b rest ih => exact ih (v.link b)

theorem linkAll_flags (v : ChainView) :
    (v.linkAll blocks).flags hash =
      (v.flags hash || decide (hash ∈ blocks.map headerHash)) := by
  induction blocks generalizing v with
  | nil => simp [linkAll]
  | cons b rest ih =>
    refine (ih (v.link b)).trans ?_
    by_cases hsame : hash = b.headerHash
    · simp [link, flag, list, hsame]
    · simp [link, flag, list, hsame]

theorem linkAll_listed_of_notMem (h : height ∉ blocks.map BlockRecord.height) :
    (v.linkAll blocks).listed height = v.listed height := by
  induction blocks generalizing v with
  | nil => rfl
  | cons b rest ih =>
    rw [map_cons, mem_cons, not_or] at h
    exact (ih h.2).trans (Function.update_of_ne h.1 _ _)

theorem linkAll_listed_of_mem {b : BlockRecord}
    (hnodup : (blocks.map BlockRecord.height).Nodup) (h : b ∈ blocks) :
    (v.linkAll blocks).listed b.height = some b.headerHash := by
  induction blocks generalizing v with
  | nil => cases h
  | cons head rest ih =>
    rw [map_cons, nodup_cons] at hnodup
    rcases mem_cons.mp h with rfl | h
    · exact (linkAll_listed_of_notMem hnodup.1).trans (Function.update_self ..)
    · exact ih hnodup.2 h

end ChainView

/-- The walk from a hash down the parents, to the hash that it ends at. -/
def Descends : Bytes32 → List BlockRecord → Bytes32 → Prop
  | cursor, [], stop => cursor = stop
  | cursor, b :: rest, stop =>
    cursor = b.headerHash ∧ Descends b.prevHash rest stop

/-- The walk of `set_peak` ends here, with this fork height. -/
def StopsAt (v : ChainView) (stop : Bytes32) (fork : Int) : Prop :=
  (v.base stop = none ∧ fork = -1) ∨
    ∃ entry, v.base stop = some entry ∧ v.flags stop = true ∧
      fork = entry.height.toNat

namespace ChainFiles

variable {cursor stop : Bytes32} {down : List BlockRecord} {fork : Int}
  {fuel : Nat}

theorem retireHeights_spec (heights : List UInt32)
    (hflag : ∀ done height rest hash index (entry : BlockEntry) s,
      heights = done ++ height :: rest →
      (v.retireAll done).listed height = some hash →
      ChainAt ((v.retireAll done).flag hash false) s →
      C (.tbl (.payload index (entry.withMain false))) s)
    (hheight : ∀ done height rest s, heights = done ++ height :: rest →
      ChainAt (v.retireAll (done ++ [height])) s →
      C (.height height Bytes32.zero) s) :
    Triple (ChainAt v) (Proc.each retireHeight heights) C fun _ =>
      ChainAt (v.retireAll heights) := by
  have hloop := each (C := C) (f := retireHeight)
    (fun done => ChainAt (v.retireAll done)) heights ?_
  · rwa [v.retireAll_nil] at hloop
  intro done height rest hsplit
  rw [← v.retire_retireAll]
  apply retireHeight_spec
  · intro hash index entry s hlisted hs
    exact hflag done height rest hash index entry s hsplit hlisted hs
  · intro s hs
    rw [v.retire_retireAll] at hs
    exact hheight done height rest s hsplit hs

theorem forkHeight_eq (hs : ChainAt v s) (hwalk : Descends cursor down stop)
    (hknown : ∀ b ∈ down, v.Knows b ∧ v.flags b.headerHash = false)
    (hstop : StopsAt v stop fork) (hfuel : down.length < fuel) :
    s.forkHeight fuel cursor = .ok fork := by
  induction down generalizing cursor fuel with
  | nil =>
    obtain ⟨fuel, rfl⟩ := exists_eq_succ_of_ne_zero (ne_of_gt hfuel)
    rw [forkHeight, hs.entry, show cursor = stop from hwalk]
    rcases hstop with ⟨hnone, rfl⟩ | ⟨entry, hentry, hflag, rfl⟩
    · rw [hnone]
      rfl
    · rw [hentry, hflag]
      rfl
  | cons b rest ih =>
    obtain ⟨fuel, rfl⟩ := exists_eq_succ_of_ne_zero (ne_zero_of_lt hfuel)
    obtain ⟨⟨entry, off, hentry, -, hoff, hrecord⟩, hflag⟩ :=
      hknown b (mem_cons_self ..)
    have hat : s.recordAt (entry.withMain false) = .ok (some b) := by
      rw [recordAt]
      simp only [BlockEntry.withMain, hoff, hs.records, hrecord]
    have hrest := ih hwalk.2 (fun b' hb' => hknown b'
      (mem_cons_of_mem _ hb')) (lt_of_succ_lt_succ hfuel)
    rw [forkHeight, hs.entry, hwalk.1, hentry, hflag, map_some]
    dsimp only
    rw [if_neg (show (entry.withMain false).main ≠ true from
      Bool.false_ne_true), hat]
    exact hrest

/-- Linking the ancestry of the new peak, from the peak down.  Each block is
flagged first and listed next. -/
theorem linkAncestors_spec (hwalk : Descends cursor down stop)
    (hknown : ∀ b ∈ down, v.Knows b ∧ v.flags b.headerHash = false)
    (hnodup : (down.map headerHash).Nodup)
    (hnonzero : ∀ b ∈ down, b.headerHash ≠ Bytes32.zero)
    (hstop : StopsAt v stop fork) (hfuel : down.length < fuel)
    (hflag : ∀ index (entry : BlockEntry) s,
      C (.tbl (.payload index (entry.withMain true))) s)
    (hheight : ∀ done b rest s, down = done ++ b :: rest →
      ChainAt (v.linkAll (done ++ [b])) s →
      C (.height b.height b.headerHash) s) :
    Triple (ChainAt v) (linkAncestors fuel cursor) C fun _ =>
      ChainAt (v.linkAll down) := by
  induction down generalizing v cursor fuel with
  | nil =>
    obtain ⟨fuel, rfl⟩ := exists_eq_succ_of_ne_zero (ne_of_gt hfuel)
    obtain rfl : cursor = stop := hwalk
    rcases hstop with ⟨hnone, -⟩ | ⟨entry, hentry, hmain, -⟩
    · refine bind blockEntry_spec fun found => ?_
      cases found with
      | none => exact pure fun s hs => hs.1
      | some found =>
        rintro s ⟨hs, -, hget⟩
        rw [hs.entry, hnone] at hget
        cases hget
    · refine bind (blockEntry_known hentry) fun found =>
        of_exists fun index => of_and ?_
      rintro rfl
      rw [hmain]
      exact pure fun s hs => hs.1
  | cons b rest ih =>
    obtain ⟨fuel, rfl⟩ := exists_eq_succ_of_ne_zero (ne_zero_of_lt hfuel)
    obtain ⟨⟨entry, off, hentry, hh, hoff, hrecord⟩, hunflagged⟩ :=
      hknown b mem_cons_self
    obtain ⟨hnew, hnodup⟩ := nodup_cons.mp hnodup
    have hknown' : ∀ b' ∈ rest, (v.link b).Knows b' ∧
        (v.link b).flags b'.headerHash = false := by
      intro b' hb'
      obtain ⟨hknows, hflags⟩ := hknown b' (mem_cons_of_mem _ hb')
      refine ⟨hknows, (Function.update_of_ne (fun heq => hnew ?_) ..).trans
        hflags⟩
      exact heq ▸ mem_map_of_mem hb'
    have hstop' : StopsAt (v.link b) stop fork := by
      refine hstop.imp_right ?_
      rintro ⟨entry, hentry, hmain, hfork⟩
      refine ⟨entry, hentry, ?_, hfork⟩
      by_cases hsame : stop = b.headerHash
      · exact hsame ▸ Function.update_self ..
      · exact (Function.update_of_ne hsame ..).trans hmain
    have hrest := ih hwalk.2 hknown' hnodup
      (fun b' hb' => hnonzero b' (mem_cons_of_mem _ hb')) hstop'
      (lt_of_succ_lt_succ hfuel) fun done b' rest' s hsplit =>
        hheight (b :: done) b' rest' s (hsplit ▸ rfl)
    rw [hwalk.1]
    refine bind (blockEntry_known hentry) fun found =>
      of_exists fun index => of_and ?_
    rintro rfl
    rw [hunflagged]
    refine bind (write (Q := fun _ =>
      ChainAt (v.flag b.headerHash true)) fun s hs =>
        ⟨hflag index entry _, hs.1.setMain hs.2.1 hs.2.2 true⟩) fun _ => ?_
    refine bind (write (Q := fun _ => ChainAt (v.link b))
      fun s hs => ?_) fun _ => ?_
    · have hnow := hs.setHeight b.height b.headerHash
      rw [if_neg (hnonzero b mem_cons_self)] at hnow
      change C (.height entry.height _) (write s
        (height entry.height _)) ∧ ChainAt _ (write s (height entry.height _))
      rw [hh]
      exact ⟨hheight [] b rest _ rfl hnow, hnow⟩
    refine bind (tryRead (Q := fun found s =>
      found = some b ∧ ChainAt (v.link b) s) fun s hs =>
        ⟨some b, ?_, rfl, hs⟩) fun found => of_and ?_
    · rw [recordAt]
      simp only [BlockEntry.withMain, hoff, hs.records,
        show (v.link b).records = v.records from rfl, hrecord]
    · rintro rfl
      exact bind hrest fun links => pure fun _ => id

theorem writeMeta_spec (hmeta : ∀ s, ChainAt v.save s → C (.metaDat v.peak) s) :
    Triple (ChainAt v) writeMeta C fun _ => ChainAt v.save := by
  refine read_bind (· = v.peak) (fun s hs => hs.peak) ?_
  rintro _ rfl
  refine write fun s hs => ?_
  have hnow := hs.setMeta
  rw [hs.peak] at hnow
  exact ⟨hmeta _ hnow, hnow⟩

/-- The heights that `set_peak` takes off the main chain. -/
def staleHeights (v : ChainView) (fork : Int) : List UInt32 :=
  heightsUpTo (fork + 1).toNat ((v.peak.map Prod.snd).getD 0).toNat

/-- `set_peak`: the heights above the fork are retired, the new ancestry is
linked from the peak down, and the peak is written last. -/
theorem setPeak_spec {tip : BlockRecord} {lower : List BlockRecord}
    (hwalk : Descends tip.headerHash (tip :: lower) stop)
    (hknown : ∀ b ∈ tip :: lower, v.Knows b ∧ v.flags b.headerHash = false)
    (hnodup : ((tip :: lower).map headerHash).Nodup)
    (hnonzero : ∀ b ∈ tip :: lower, b.headerHash ≠ Bytes32.zero)
    (hstop : StopsAt v stop fork) (hfork : fork + 1 < 2 ^ 32)
    (hkeep : ∀ height ∈ staleHeights v fork, v.listed height ≠ some stop)
    (hretireFlag : ∀ done height rest hash index (entry : BlockEntry) s,
      staleHeights v fork = done ++ height :: rest →
      (v.retireAll done).listed height = some hash →
      ChainAt ((v.retireAll done).flag hash false) s →
      C (.tbl (.payload index (entry.withMain false))) s)
    (hretire : ∀ done height rest s,
      staleHeights v fork = done ++ height :: rest →
      ChainAt (v.retireAll (done ++ [height])) s →
      C (.height height Bytes32.zero) s)
    (hlinkFlag : ∀ index (entry : BlockEntry) s,
      C (.tbl (.payload index (entry.withMain true))) s)
    (hlink : ∀ done b rest s, tip :: lower = done ++ b :: rest →
      ChainAt ((v.retireAll (staleHeights v fork)).linkAll (done ++ [b])) s →
      C (.height b.height b.headerHash) s)
    {new : ChainView} (hnew : ((v.retireAll (staleHeights v fork)).linkAll
      (tip :: lower)).crown (some (tip.headerHash, tip.height)) = new)
    (hpeak : ∀ s, ChainAt new s →
      C (.peak (some (tip.headerHash, tip.height))) s)
    (hmeta : ∀ s, ChainAt new.save s →
      C (.metaDat (some (tip.headerHash, tip.height))) s) :
    Triple (ChainAt v) (setPeak tip.headerHash) C fun _ =>
      ChainAt new.save := by
  subst hnew
  obtain ⟨⟨entry, off, hentry, hheight, -⟩, -⟩ := hknown tip (mem_cons_self ..)
  refine bind (blockEntry_known hentry) fun found =>
    of_exists fun index => of_and ?_
  rintro rfl
  refine bind (tryRead (Q := fun found s => found = fork ∧
    ChainAt v s) fun s hs => ⟨fork, ?_, rfl, hs.1⟩) fun found => of_and ?_
  · exact forkHeight_eq hs.1 hwalk hknown hstop
      (hs.1.length_le hnodup fun b hb => (hknown b hb).1)
  rintro rfl
  refine read_bind (· = (v.peak.map Prod.snd).getD 0)
    (fun s hs => by rw [hs.peak]) ?_
  rintro _ rfl
  rw [if_pos hfork]
  refine bind (retireHeights_spec _ hretireFlag hretire) fun _ => ?_
  have hknown' : ∀ b ∈ tip :: lower,
      (v.retireAll (staleHeights v found)).Knows b ∧
        (v.retireAll (staleHeights v found)).flags b.headerHash = false := by
    intro b hb
    refine ⟨(hknown b hb).1, ?_⟩
    simp [ChainView.retireAll, (hknown b hb).2]
  have hstop' : StopsAt (v.retireAll (staleHeights v found)) stop found := by
    refine hstop.imp id ?_
    rintro ⟨e, he, hmain, hfork⟩
    exact ⟨e, he, (v.retireAll_flags _).mpr ⟨hmain, hkeep⟩, hfork⟩
  refine read_bind ((tip :: lower).length < ·) (fun s hs =>
    hs.length_le hnodup fun b hb => (hknown' b hb).1) fun fuel hfuel => ?_
  refine bind (linkAncestors_spec hwalk hknown' hnodup hnonzero hstop'
    hfuel hlinkFlag hlink) fun links => ?_
  refine bind (write (Q := fun _ => ChainAt
    (((v.retireAll (staleHeights v found)).linkAll (tip :: lower)).crown
      (some (tip.headerHash, tip.height)))) fun s hs => ?_) fun _ => ?_
  · have hnow := hs.setPeak (some (tip.headerHash, tip.height))
    change C (.peak (some (_, entry.height))) (write s
      (ChainWrite.peak (some (_, entry.height)))) ∧ ChainAt _ (write s
        (ChainWrite.peak (some (_, entry.height))))
    rw [hheight]
    exact ⟨hpeak _ hnow, hnow⟩
  · exact bind (writeMeta_spec hmeta) fun _ => pure fun _ => id

end ChainFiles

open Function

namespace ChainView

variable {chain keep : List Bytes32} {height : UInt32}

/-- The height index lists this chain, and its blocks are the flagged ones. -/
structure Lists (chain : List Bytes32) (v : ChainView) : Prop where
  listed : ∀ height, v.listed height = chain[height.toNat]?
  flagged : ∀ hash, v.flags hash = true ↔ hash ∈ chain

/-- The lower part of the chain is in place, and every other flagged block is
listed above it.  Taking the heights above off leaves the lower part. -/
structure Recoverable (keep : List Bytes32) (v : ChainView) : Prop where
  low : ∀ height, height.toNat < keep.length →
    v.listed height = keep[height.toNat]?
  high : ∀ height hash, keep.length ≤ height.toNat →
    v.listed height = some hash → hash ∉ keep
  flagged : ∀ hash, v.flags hash = true → hash ∈ keep ∨
    ∃ height, keep.length ≤ height.toNat ∧ v.listed height = some hash
  kept : ∀ hash ∈ keep, v.flags hash = true

theorem Lists.recoverable {rest : List Bytes32} (h : Lists (keep ++ rest) v)
    (hnodup : (keep ++ rest).Nodup) (hroom : (keep ++ rest).length ≤ 2 ^ 32) :
    Recoverable keep v where
  low height hlt := by rw [h.listed, getElem?_append_left hlt]
  high height hash hle hlisted hmem := by
    rw [h.listed, getElem?_append_right hle] at hlisted
    exact (nodup_append.mp hnodup).2.2 hash hmem hash
      (mem_of_getElem? hlisted) rfl
  flagged hash hflag := by
    rcases mem_append.mp ((h.flagged hash).mp hflag) with hmem | hmem
    · exact .inl hmem
    · obtain ⟨i, hi⟩ := mem_iff_getElem?.mp hmem
      have hlt := (List.getElem?_eq_some_iff.mp hi).1
      rw [length_append] at hroom
      have hsmall : (UInt32.ofNat (keep.length + i)).toNat =
          keep.length + i := by
        rw [UInt32.toNat_ofNat']
        exact Nat.mod_eq_of_lt (by omega)
      refine .inr ⟨UInt32.ofNat (keep.length + i), ?_, ?_⟩
      · rw [hsmall]
        exact Nat.le_add_right _ _
      · rw [h.listed, hsmall, getElem?_append_right (by omega),
          Nat.add_sub_cancel_left, hi]
  kept hash hmem := (h.flagged hash).mpr (mem_append_left _ hmem)

section

variable (h : Recoverable keep v)

include h

theorem Recoverable.flag_false (hle : keep.length ≤ height.toNat)
    (hlisted : v.listed height = some hash) :
    Recoverable keep (v.flag hash false) where
  low := h.low
  high := h.high
  flagged other hother := by
    by_cases hsame : other = hash
    · exact .inr ⟨height, hle, hsame ▸ hlisted⟩
    · simp only [flag, update_of_ne hsame] at hother
      exact h.flagged other hother
  kept other hmem := by
    have hne : other ≠ hash :=
      fun hsame => h.high height hash hle hlisted (hsame ▸ hmem)
    simp only [flag, update_of_ne hne, h.kept other hmem]

theorem Recoverable.retireAll {heights : List UInt32}
    (hheights : ∀ height ∈ heights, keep.length ≤ height.toNat) :
    Recoverable keep (v.retireAll heights) where
  low height hlt := by
    rw [retireAll_listed, if_neg fun hmem =>
      Nat.not_le_of_lt hlt (hheights height hmem), h.low height hlt]
  high height hash hle hlisted := by
    rw [retireAll_listed] at hlisted
    split_ifs at hlisted
    exact h.high height hash hle hlisted
  flagged hash hflag := by
    rw [retireAll_flags] at hflag
    refine (h.flagged hash hflag.1).imp_right ?_
    rintro ⟨height, hle, hlisted⟩
    refine ⟨height, hle, ?_⟩
    rw [retireAll_listed, if_neg fun hmem => hflag.2 height hmem hlisted,
      hlisted]
  kept hash hmem := by
    rw [retireAll_flags]
    exact ⟨h.kept hash hmem, fun height hheight hlisted =>
      h.high height hash (hheights height hheight) hlisted hmem⟩

theorem Recoverable.link {b : BlockRecord} (hle : keep.length ≤ b.height.toNat)
    (hnew : b.headerHash ∉ keep) (hvacant : v.listed b.height = none) :
    Recoverable keep (v.link b) where
  low height hlt := by
    have hne : height ≠ b.height :=
      fun hsame => Nat.not_le_of_lt hlt (hsame ▸ hle)
    simp only [ChainView.link, flag, list, update_of_ne hne, h.low height hlt]
  high height hash hle' hlisted := by
    by_cases hsame : height = b.height
    · simp only [ChainView.link, flag, list, hsame, update_self,
        some.injEq] at hlisted
      exact hlisted ▸ hnew
    · simp only [ChainView.link, flag, list, update_of_ne hsame] at hlisted
      exact h.high height hash hle' hlisted
  flagged hash hflag := by
    by_cases hsame : hash = b.headerHash
    · refine .inr ⟨b.height, hle, ?_⟩
      simp only [ChainView.link, flag, list, update_self, hsame]
    · simp only [ChainView.link, flag, list, update_of_ne hsame] at hflag
      refine (h.flagged hash hflag).imp_right ?_
      rintro ⟨height, hle', hlisted⟩
      refine ⟨height, hle', ?_⟩
      have hne : height ≠ b.height := by
        rintro rfl
        rw [hvacant] at hlisted
        cases hlisted
      simp only [ChainView.link, flag, list, update_of_ne hne, hlisted]
  kept hash hmem := by
    have hne : hash ≠ b.headerHash := fun hsame => hnew (hsame ▸ hmem)
    simp only [ChainView.link, flag, list, update_of_ne hne, h.kept hash hmem]

/-- Taking every height above off leaves the lower part of the chain. -/
theorem Recoverable.lists {heights : List UInt32}
    (hheights : ∀ height ∈ heights, keep.length ≤ height.toNat)
    (hall : ∀ height, keep.length ≤ height.toNat → v.listed height ≠ none →
      height ∈ heights) : Lists keep (v.retireAll heights) where
  listed height := by
    rcases lt_or_ge height.toNat keep.length with hlt | hle
    · exact (h.retireAll hheights).low height hlt
    · rw [retireAll_listed, getElem?_eq_none hle]
      split_ifs with hmem
      · rfl
      · exact Classical.not_not.mp fun hne => hmem (hall height hle hne)
  flagged hash := by
    refine ⟨fun hflag => ?_, fun hmem => (h.retireAll hheights).kept hash hmem⟩
    rcases (h.retireAll hheights).flagged hash hflag with hmem |
      ⟨height, hle, hlisted⟩
    · exact hmem
    · rw [retireAll_listed] at hlisted
      split_ifs at hlisted with hmem
      exact absurd (hall height hle (hlisted ▸ some_ne_none hash)) hmem

theorem Recoverable.linkAll (hnodup : (blocks.map BlockRecord.height).Nodup)
    (hfree : ∀ b ∈ blocks, keep.length ≤ b.height.toNat ∧
      b.headerHash ∉ keep ∧ v.listed b.height = none) :
    Recoverable keep (v.linkAll blocks) := by
  induction blocks generalizing v with
  | nil => exact h
  | cons b rest ih =>
    rw [map_cons, nodup_cons] at hnodup
    obtain ⟨hle, hnew, hvacant⟩ := hfree b mem_cons_self
    refine ih (h.link hle hnew hvacant) hnodup.2 fun b' hb' => ?_
    obtain ⟨hle', hnew', hvacant'⟩ := hfree b' (mem_cons_of_mem _ hb')
    have hne : b'.height ≠ b.height :=
      fun hsame => hnodup.1 (mem_map.mpr ⟨b', hb', hsame⟩)
    refine ⟨hle', hnew', ?_⟩
    simp only [ChainView.link, flag, list, update_of_ne hne, hvacant']

end

/-- Blocks at consecutive heights. -/
def Stacked (start : Nat) (blocks : List BlockRecord) : Prop :=
  ∀ i b, blocks[i]? = some b → b.height.toNat = start + i

theorem Stacked.nodup {start : Nat} (h : Stacked start blocks) :
    (blocks.map BlockRecord.height).Nodup := by
  rw [nodup_iff_getElem?_ne_getElem?]
  intro i j hij hj heq
  rw [length_map] at hj
  rw [getElem?_map, getElem?_map, getElem?_eq_getElem (lt_trans hij hj),
    getElem?_eq_getElem hj, map_some, map_some, some.injEq] at heq
  have hi' := h i _ (getElem?_eq_getElem (lt_trans hij hj))
  have hj' := h j _ (getElem?_eq_getElem hj)
  rw [heq, hj'] at hi'
  omega

/-- Linking a branch onto the lower part, from its tip down. -/
theorem Lists.linkAll {branch : List BlockRecord} (h : Lists keep v)
    (hbranch : Stacked keep.length branch) :
    Lists (keep ++ branch.map BlockRecord.headerHash)
      (v.linkAll branch.reverse) where
  listed height := by
    have hnodup : (branch.reverse.map BlockRecord.height).Nodup := by
      rw [map_reverse, nodup_reverse]
      exact hbranch.nodup
    by_cases hmem : ∃ b ∈ branch, b.height = height
    · obtain ⟨b, hb, rfl⟩ := hmem
      obtain ⟨i, hi⟩ := mem_iff_getElem?.mp hb
      rw [linkAll_listed_of_mem hnodup (mem_reverse.mpr hb),
        hbranch i b hi, getElem?_append_right (Nat.le_add_right _ _),
        Nat.add_sub_cancel_left, getElem?_map, hi, map_some]
    · rw [linkAll_listed_of_notMem, h.listed]
      · rcases lt_or_ge height.toNat keep.length with hlt | hle
        · rw [getElem?_append_left hlt]
        · rw [getElem?_eq_none hle, getElem?_append_right hle, getElem?_map]
          cases hb : branch[height.toNat - keep.length]? with
          | none => rfl
          | some b =>
            have hheight := hbranch _ b hb
            rw [Nat.add_sub_cancel' hle] at hheight
            exact absurd ⟨b, mem_of_getElem? hb,
              UInt32.toNat_inj.mp hheight⟩ hmem
      · intro hin
        obtain ⟨b, hb, rfl⟩ := mem_map.mp hin
        exact hmem ⟨b, mem_reverse.mp hb, rfl⟩
  flagged hash := by
    rw [linkAll_flags, Bool.or_eq_true, h.flagged, decide_eq_true_iff,
      map_reverse, mem_reverse, mem_append]

def archive (v : ChainView) (r : BlockRecord) : ChainView :=
  { v with
    records := v.records ++ [r]
    base := Function.update v.base r.headerHash
      (some (ChainFiles.newEntry v.records.length r)) }

theorem knows_archive (v : ChainView) (r : BlockRecord) :
    (v.archive r).Knows r :=
  ⟨_, v.records.length, Function.update_self .., rfl, rfl,
    getElem?_concat_length⟩

theorem Knows.archive {b r : BlockRecord} (h : v.Knows b)
    (hne : b.headerHash ≠ r.headerHash) : (v.archive r).Knows b := by
  obtain ⟨entry, off, hentry, hheight, hoff, hrecord⟩ := h
  refine ⟨entry, off, ?_, hheight, hoff, ?_⟩
  · exact (update_of_ne hne _ _).trans hentry
  · exact (getElem?_append_left
      (List.getElem?_eq_some_iff.mp hrecord).1).trans hrecord

end ChainView

namespace ChainFiles

/-- The table writes of a batch, seen on the block files. -/
theorem writes_tbl (s : ChainFiles)
    (ops : List (Write Bytes32 Nat BlockEntry)) :
    writes s (ops.map ChainWrite.tbl) = { s with tbl := s.tbl.writes ops } := by
  induction ops generalizing s with
  | nil => rfl
  | cons op ops ih => exact ih _

/-- `add_block_records` archives a record that the table does not have. -/
theorem addBlockRecords_spec (order : IterationOrder) {r : BlockRecord}
    (hnew : v.base r.headerHash = none) (hflag : v.flags r.headerHash = false) :
    Ends (ChainAt v) (addBlockRecords order [r]) fun _ =>
      ChainAt (v.archive r) := by
  have hone : Ends (ChainAt v) (addBlockRecord {} r)
      fun pending s =>
        pending.records = [(r.headerHash, newEntry v.records.length r)] ∧
        ChainAt { v with records := v.records ++ [r] } s := by
    refine read_bind (· = v.records.length) (fun s hs => by rw [hs.records]) ?_
    rintro _ rfl
    refine bind (write (Q := fun _ =>
      ChainAt { v with records := v.records ++ [r] }) fun s hs =>
        ⟨trivial, { hs with records := congrArg (· ++ [r]) hs.records }⟩)
      fun _ => ?_
    refine bind blockEntry_spec fun found => ?_
    cases found with
    | none => exact pure fun s hs => ⟨rfl, hs.1⟩
    | some found =>
      rintro s ⟨hs, -, hget⟩
      rw [hs.entry, hnew] at hget
      cases hget
  refine bind (bind hone fun pending => pure fun _ => id)
    fun pending => of_and ?_
  intro hpending s hs
  refine ⟨along_of_begins fun _ _ _ => trivial, (), rfl, ?_⟩
  change ChainAt _ (writes s (List.map _ _))
  rw [writes_tbl, hpending]
  have hfits : s.tbl.Fits [(r.headerHash, newEntry v.records.length r)] := by
    refine hs.linked.fits (nodup_singleton _) fun entry hentry => ?_
    rw [mem_singleton.mp hentry, hs.entry, hnew]
    rfl
  obtain ⟨hsound, -, hget⟩ : (s.tbl.writes (s.tbl.insertBatch
    (bucketOf blockBuckets) order.heads _)).Sound ∧ _ ∧ _ :=
      hs.sound.insertBatch hfits order.heads_perm
  refine ⟨hsound, hs.linked.insertBatch hs.sound hfits order.heads_perm,
    hs.records, fun hash => ?_, hs.listed, hs.metaDat, hs.peak⟩
  refine (congrFun hget hash).trans ?_
  change update _ _ _ hash = _
  by_cases hsame : hash = r.headerHash
  · simp only [hsame, update_self, ChainView.archive, map_some,
      BlockEntry.withMain, newEntry, hflag]
  · simp only [update_of_ne hsame, ChainView.archive, hs.entry]

end ChainFiles

end DgXch
