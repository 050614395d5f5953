/-
Two files of the mapped store through a whole life of uses.  A chained table
takes insertions, batches and payload updates, and the process may stop between
two writes.  The frames of the log are appended under the file lock and read
through a mapping, which is renewed only when the header of a frame lies past
it, one file operation or lock at a time.
-/
import DgXch.MmapStore

namespace DgXch

open ChainedTable List Function Table Option Prod

variable {V : Type}

/-- One use of a table; `stop` is the number of writes an insertion made when
the process stopped in it. -/
inductive TableUse (V : Type) where
  | insert (key : Bytes32) (payload : V) (stop : Option Nat)
  | insertBatch (order : IterationOrder) (entries : List (Bytes32 × V))
      (stop : Option Nat)
  | setPayload (key : Bytes32) (payload : V)

/-- `ChainedTable::insert`: the record, the head, the count. -/
def insertWrites (buckets : Nat) (t : Table Bytes32 Nat V) (key : Bytes32)
    (payload : V) : List (Write Bytes32 Nat V) :=
  let bucket := bucketOf buckets key
  [.slot t.count ⟨key, t.heads bucket, payload⟩, .head bucket (t.count + 1),
    .count (t.count + 1)]

/-- The writes made before a stop. -/
def madeUpTo {A : Type} (stop : Option Nat) (writes : List A) : List A :=
  match stop with
  | none => writes
  | some made => writes.take made

namespace TableUse

/-- The file after a use; `set_payload` goes to the index `find` returned. -/
def step (buckets : Nat) (t : Table Bytes32 Nat V) :
    TableUse V → Table Bytes32 Nat V
  | .insert key payload stop =>
    t.writes (madeUpTo stop (insertWrites buckets t key payload))
  | .insertBatch order entries stop => t.writes (madeUpTo stop
      (t.insertBatch (bucketOf buckets) order.heads entries))
  | .setPayload key payload =>
    match t.find (bucketOf buckets) key with
    | some index => t.write (.payload index payload)
    | none => t

/-- The payload last written for every key whose insertion completed. -/
def note (map : Bytes32 → Option V) : TableUse V → Bytes32 → Option V
  | .insert key payload none => Function.update map key (some payload)
  | .insertBatch _ entries none => Table.updateAll map entries
  | .setPayload key payload =>
    if (map key).isSome then Function.update map key (some payload) else map
  | _ => map

/-- The keys a use inserts, or began to. -/
def keys : TableUse V → List Bytes32
  | .insert key _ _ => [key]
  | .insertBatch _ entries _ => entries.map Prod.fst
  | .setPayload _ _ => []

/-- The process does not stop between the head and the count of a single
insertion. -/
def CountFollows : TableUse V → Prop
  | .insert _ _ stop => stop ≠ some 2
  | _ => True

end TableUse

/-- A fresh file through a list of uses. -/
def tableAfter (buckets : Nat) (uses : List (TableUse V)) :
    Table Bytes32 Nat V :=
  uses.foldl (TableUse.step buckets) {}

def completedMap (uses : List (TableUse V)) : Bytes32 → Option V :=
  uses.foldl TableUse.note fun _ => none

/-- What a table keeps: only keys of `used` are in use, and every completed
key reads as noted. -/
structure Keeps (buckets : Nat) (used : List Bytes32)
    (map : Bytes32 → Option V) (t : Table Bytes32 Nat V) : Prop where
  sound : t.Sound
  keys : t.keys ⊆ used
  noted : ∀ {key}, map key ≠ none → key ∈ used
  get : ∀ {key value}, map key = some value →
    t.get (bucketOf buckets) key = some value

variable {buckets : Nat} {used : List Bytes32} {map : Bytes32 → Option V}
  {t : Table Bytes32 Nat V}

theorem madeUpTo_begins {A : Type} {stop : Option Nat} (writes : List A) :
    madeUpTo stop writes <+: writes := by
  cases stop with
  | none => exact prefix_refl writes
  | some made => exact take_prefix made writes

/-- Outside of the one gap, an insertion leaves the file as a batch of one. -/
theorem insert_writes_eq (order : IterationOrder) {key : Bytes32} {payload : V}
    {stop : Option Nat} (hstop : stop ≠ some 2) :
    t.writes (madeUpTo stop (insertWrites buckets t key payload)) =
      t.writes (madeUpTo stop (t.insertBatch (bucketOf buckets) order.heads
        [(key, payload)])) := by
  have hheads := perm_singleton.mp
    (order.heads_perm [⟨bucketOf buckets key, t.count + 1⟩])
  -- a batch of one writes its count before its head
  simp only [insertBatch, thread, slotWrites, headOf]
  rw [AList.entries_insert_of_notMem (AList.notMem_empty _)]
  simp only [show (∅ : AList fun _ : Nat => Nat).entries = [] from rfl, hheads]
  rcases stop with _ | _ | _ | _ | made
  · rfl
  · rfl
  · rfl
  · exact absurd rfl hstop
  · rfl

section

variable (hkeeps : Keeps buckets used map t)

include hkeeps

open TableUse

/-- A batch of new keys, complete or stopped anywhere. -/
theorem Keeps.insertBatch (order : IterationOrder)
    (entries : List (Bytes32 × V)) (stop : Option Nat)
    (hnodup : (used ++ entries.map fst).Nodup) :
    Keeps buckets (used ++ entries.map fst)
      (note map (.insertBatch order entries stop))
      (step buckets t (.insertBatch order entries stop)) := by
  obtain ⟨-, hentries, hdisjoint⟩ := nodup_append.mp hnodup
  have hfits : t.Fits entries := ⟨hentries, fun entry hentry hkey =>
    hdisjoint _ (hkeeps.keys hkey) _ (mem_map_of_mem hentry) rfl⟩
  obtain ⟨hsound, hget, hkeys⟩ := hkeeps.sound.insertBatch_torn hfits
    order.heads_perm (madeUpTo_begins _)
  have hold : ∀ {key value}, map key = some value →
      (t.writes (madeUpTo stop (t.insertBatch (bucketOf buckets) order.heads
        entries))).get (bucketOf buckets) key = some value := by
    intro key value hkey
    have hused := hkeeps.noted (hkey ▸ some_ne_none value)
    have hnew : key ∉ entries.map fst := fun h => hdisjoint _ hused _ h rfl
    rcases hget key with h | h
    · exact h.trans (hkeeps.get hkey)
    · exact (h.trans (updateAll_of_notMem hnew)).trans (hkeeps.get hkey)
  refine ⟨hsound, fun key hkey => ?_, fun {key} hkey => ?_, fun {key value} => ?_⟩
  · exact mem_append.mpr
      ((mem_append.mp (hkeys hkey)).imp_left fun h => hkeeps.keys h)
  · by_cases hnew : key ∈ entries.map fst
    · exact mem_append_right used hnew
    apply mem_append_left
    cases stop with
    | none =>
      apply hkeeps.noted
      rwa [note, updateAll_of_notMem hnew] at hkey
    | some made => exact hkeeps.noted hkey
  · cases stop with
    | some made => exact hold
    | none =>
      intro hkey
      by_cases hnew : key ∈ entries.map fst
      · obtain ⟨⟨_, payload⟩, hentry, rfl⟩ := mem_map.mp hnew
        rw [note, updateAll_of_mem hentries hentry] at hkey
        rw [← hkey]
        exact (congrFun
          (hkeeps.sound.insertBatch hfits order.heads_perm).2.2 _).trans
            (updateAll_of_mem hentries hentry)
      · rw [note, updateAll_of_notMem hnew] at hkey
        exact hold hkey

theorem Keeps.setPayload (key : Bytes32) (payload : V) :
    Keeps buckets used (note map (.setPayload key payload))
      (step buckets t (.setPayload key payload)) := by
  have hnoted : ∀ {key'}, note map (.setPayload key payload) key' ≠
      none → map key' ≠ none := by
    intro key' h hnone
    rw [note] at h
    split_ifs at h with hsome
    · rw [update_of_ne] at h
      · exact h hnone
      · rintro rfl
        simp [hnone] at hsome
    · exact h hnone
  rw [step]
  cases hfind : t.find (bucketOf buckets) key with
  | none =>
    have hnone : map key = none := by
      by_contra hsome
      obtain ⟨value, hvalue⟩ := ne_none_iff_exists'.mp hsome
      have hget := hkeeps.get hvalue
      simp [Table.get, hfind] at hget
    refine ⟨hkeeps.sound, hkeeps.keys, fun h => hkeeps.noted (hnoted h), ?_⟩
    intro key' value hvalue
    rw [note, hnone] at hvalue
    exact hkeeps.get hvalue
  | some index =>
    refine ⟨hkeeps.sound.write_payload, ?_,
      fun h => hkeeps.noted (hnoted h), fun {key' value} hvalue => ?_⟩
    · rw [keys_write_payload]
      exact hkeeps.keys
    rw [hkeeps.sound.get_write_payload hfind]
    by_cases hsame : key' = key
    · have hsome := hnoted (hvalue ▸ some_ne_none value)
      subst hsame
      rw [note, if_pos (isSome_iff_ne_none.mpr hsome)] at hvalue
      rw [update_self] at hvalue ⊢
      exact hvalue
    · rw [update_of_ne hsame]
      apply hkeeps.get
      rw [note] at hvalue
      split_ifs at hvalue
      · rwa [update_of_ne hsame] at hvalue
      · exact hvalue

theorem Keeps.step {use : TableUse V} (hfollows : use.CountFollows)
    (hnodup : (used ++ use.keys).Nodup) :
    Keeps buckets (used ++ use.keys) (use.note map)
      (use.step buckets t) := by
  cases use with
  | insert key payload stop =>
    have hbatch := hkeeps.insertBatch sortedOrder [(key, payload)] stop hnodup
    rw [TableUse.step, insert_writes_eq sortedOrder hfollows]
    cases stop with
    | none => exact hbatch
    | some made => exact hbatch
  | insertBatch order entries stop =>
    exact hkeeps.insertBatch order entries stop hnodup
  | setPayload key payload =>
    rw [TableUse.keys, append_nil]
    exact hkeeps.setPayload key payload

theorem Keeps.run {uses : List (TableUse V)}
    (hfollows : ∀ use ∈ uses, use.CountFollows)
    (hnodup : (used ++ uses.flatMap TableUse.keys).Nodup) :
    Keeps buckets (used ++ uses.flatMap TableUse.keys)
      (uses.foldl TableUse.note map)
      (uses.foldl (TableUse.step buckets) t) := by
  induction uses generalizing used map t with
  | nil =>
    rw [flatMap_nil, append_nil]
    exact hkeeps
  | cons use rest ih =>
    rw [flatMap_cons, ← append_assoc] at hnodup ⊢
    have hstep := hkeeps.step (hfollows use mem_cons_self)
      (nodup_append.mp hnodup).1
    exact ih hstep (fun use h => hfollows use (mem_cons_of_mem _ h)) hnodup

end

/-- As long as no single insertion stops between its head and its count:
every walk of a chain ends, links go down, a completed key reads its last
payload and is visited once, and a key nobody inserted is not found. -/
theorem tableAfter_keeps (buckets : Nat) (uses : List (TableUse V))
    (hnodup : (uses.flatMap TableUse.keys).Nodup)
    (hfollows : ∀ use ∈ uses, use.CountFollows) :
    let t := tableAfter buckets uses
    (∀ key, t.follow key (t.heads (bucketOf buckets key))
        (t.heads (bucketOf buckets key)) =
      some (t.find (bucketOf buckets) key)) ∧
    (∀ index slot, index < t.count → t.slots[index]? = some slot →
      slot.next ≤ index) ∧
    (∀ key value, completedMap uses key = some value →
      t.get (bucketOf buckets) key = some value ∧ (key, value) ∈ t.entries ∧
        (t.entries.map Prod.fst).count key = 1) ∧
    ∀ key, key ∉ uses.flatMap TableUse.keys →
      t.find (bucketOf buckets) key = none := by
  intro t
  have hempty : Keeps buckets [] (fun _ => none) ({} : Table Bytes32 Nat V) :=
    ⟨sound_empty, nil_subset _, fun h => absurd rfl h,
      fun h => absurd h (some_ne_none _).symm⟩
  have hkeeps : Keeps buckets (uses.flatMap TableUse.keys)
      (completedMap uses) t :=
    hempty.run hfollows hnodup
  have hkeys : t.entries.map fst = t.keys := map_map
  refine ⟨fun _ => hkeeps.sound.follow_eq (Nat.le_refl _)
      (hkeeps.sound.heads_le _),
    fun _ _ hindex hslot => hkeeps.sound.next_le hindex hslot, ?_, ?_⟩
  · intro key value hvalue
    have hentry := hkeeps.sound.mem_entries (hkeeps.get hvalue)
    refine ⟨hkeeps.get hvalue, hentry, ?_⟩
    apply count_eq_one_of_mem (hkeys ▸ hkeeps.sound.nodup)
    exact mem_map_of_mem hentry
  · intro key hkey
    by_contra hfound
    obtain ⟨index, hindex⟩ := ne_none_iff_exists'.mp hfound
    obtain ⟨slot, -, -, hvalue⟩ := hkeeps.sound.get_of_find hindex
    apply hkey
    apply hkeeps.keys
    rw [← hkeys]
    exact mem_map_of_mem (hkeeps.sound.mem_entries hvalue)

def sharedKey (first : UInt8) : Bytes32 := ⟨first :: List.replicate 31 0, rfl⟩

/-- The second insertion stops between its head and its count. -/
def stoppedUses : List (TableUse Nat) :=
  [.insert (sharedKey 1) 10 none, .insert (sharedKey 2) 20 (some 2),
    .insert (sharedKey 3) 30 none]

/-- The third insertion takes the index the head already points at, so its
record links to itself and the first key is never reached again. -/
theorem stoppedUses_never_ends :
    let t := tableAfter (2 ^ 14) stoppedUses
    (stoppedUses.flatMap TableUse.keys).Nodup ∧
    completedMap stoppedUses (sharedKey 1) = some 10 ∧
    ∀ fuel, t.follow (sharedKey 1) fuel
      (t.heads (bucketOf (2 ^ 14) (sharedKey 1))) = none := by
  intro t
  have hhead : t.heads (bucketOf (2 ^ 14) (sharedKey 1)) = 1 + 1 := by
    decide +kernel
  have hslot : t.slots[1]? = some ⟨sharedKey 3, 1 + 1, 30⟩ := by decide +kernel
  refine ⟨by decide, by decide, fun fuel => ?_⟩
  rw [hhead]
  induction fuel with
  | zero => rfl
  | succ fuel ih =>
    rw [follow, hslot]
    exact ih

theorem tableAfter_keeps_stopped_batch :
    let uses : List (TableUse Nat) := [.insert (sharedKey 1) 10 none,
      .insertBatch sortedOrder [(sharedKey 2, 20), (sharedKey 3, 30)] (some 3),
      .setPayload (sharedKey 1) 11, .insert (sharedKey 4) 40 (some 1),
      .insert (sharedKey 5) 50 none]
    (tableAfter (2 ^ 14) uses).get (bucketOf (2 ^ 14))
      (sharedKey 1) = some 11 := by
  intro uses
  have hkeeps := tableAfter_keeps (2 ^ 14) uses (by decide)
    fun use h => by
      simp only [uses, mem_cons, not_mem_nil, or_false] at h
      rcases h with rfl | rfl | rfl | rfl | rfl <;> simp [TableUse.CountFollows]
  exact (hkeeps.2.2.1 (sharedKey 1) 11 (by decide)).1

end DgXch

namespace DgXch.DataLog

open BigEndian List Option

/-- What `append` writes: the length, least significant byte first, then the
bytes. -/
def frame (bytes : Bytes) : Bytes := (beBytes 4 bytes.length).reverse ++ bytes

@[simp]
theorem length_frame (bytes : Bytes) :
    (frame bytes).length = 4 + bytes.length := by
  simp [frame]

/-- The append that holds the file lock, and how much of its frame it has
written. -/
structure Writer where
  off : Nat
  bytes : Bytes
  done : Nat

/-- What a call of `read` does next, or what it has returned. -/
inductive Phase where
  | testing
  | syncing
  | mapping
  | installing (mapped : Nat)
  | fetching
  | answered (result : Except StoreError Bytes)
  | killed
deriving DecidableEq

/-- A call of `read`, with the appends that had returned `Ok` when it was
made. -/
structure Read where
  off : Nat
  known : List (Nat × Bytes)
  phase : Phase := .testing
deriving DecidableEq

/-- The last part of `read`, under the lock of the mapping.  The file is never
cut, so a mapping shows its first bytes. -/
def fetch (file : Bytes) (map : Option Nat) (off : Nat) :
    Except StoreError Bytes :=
  match map with
  | none => .error (.corrupt "mmap store: unmapped log")
  | some mapped =>
    let view := file.take mapped
    let flen := beNat ((view.drop off).take 4).reverse
    if view.length < off + 4 then
      .error (.corrupt "mmap store: frame offset out of range")
    else if view.length < off + 4 + flen then
      .error (.corrupt "mmap store: torn frame")
    else .ok ((view.drop (off + 4)).take flen)

theorem fetch_framed {file bytes : Bytes} (hbytes : bytes.length < 2 ^ 32)
    (hfile : ∃ front, front.length = off ∧ front ++ frame bytes <+: file)
    (hmapped : off + (frame bytes).length ≤ mapped) :
    fetch file (some mapped) off = .ok bytes := by
  obtain ⟨front, rfl, back, rfl⟩ := hfile
  rw [← length_append] at hmapped
  have hheader : beNat (beBytes 4 bytes.length) = bytes.length := by
    rw [beNat_beBytes]
    exact Nat.mod_eq_of_lt hbytes
  have hview : ((front ++ frame bytes) ++ back).take mapped =
      front ++ ((beBytes 4 bytes.length).reverse ++
        (bytes ++ back.take (mapped - (front ++ frame bytes).length))) := by
    rw [take_append, take_of_length_le hmapped, frame,
      append_assoc, append_assoc]
  simp only [fetch, hview, drop_left, ← drop_drop]
  simp only [length_append, length_reverse, length_beBytes]
  rw [take_left' (by simp), reverse_reverse, hheader, if_neg (by omega),
    if_neg (by omega), drop_left' (by simp), take_left]

/-- An append takes the file lock, writes some bytes, ends or fails; a read is
made or takes its next step; the log is opened anew. -/
inductive Move where
  | lock (bytes : Bytes)
  | write (count : Nat)
  | finish
  | fail
  | read (i off : Nat)
  | next (i : Nat)
  | reopen

/-- The file, the tracked length, the holder of the file lock, the length of
the mapping, the appends that returned `Ok` and the reads. -/
structure Log where
  file : Bytes
  len : Nat
  writer : Option Writer := none
  map : Option Nat := none
  acked : List (Nat × Bytes) := []
  reads : Nat → Option Read := fun _ => none

namespace Log

def opened (file : Bytes) : Log := { file, len := file.length }

variable (s : Log)

def goto (i : Nat) (r : Read) (phase : Phase) : Log :=
  { s with reads := Function.update s.reads i (some { r with phase }) }

/-- The next step of a read.  It waits while an append holds the file lock that
it needs to flush. -/
def next (i : Nat) (r : Read) : Log :=
  match r.phase with
  | .testing => s.goto i r (if ∃ mapped ∈ s.map, r.off + 4 ≤ mapped
      then .fetching else .syncing)
  | .syncing => if s.writer.isSome then s else s.goto i r .mapping
  | .mapping => s.goto i r (.installing s.file.length)
  | .installing mapped => { s.goto i r .fetching with map := some mapped }
  | .fetching => s.goto i r (.answered (fetch s.file s.map r.off))
  | _ => s

/-- The last part of `append`. -/
def acknowledge (w : Writer) : Log :=
  { s with
    len := w.off + 4 + w.bytes.length
    writer := none
    acked := s.acked ++ [(w.off, w.bytes)] }

def step : Move → Log
  | .lock bytes =>
    -- a frame over 4 GiB is refused before anything is written
    if s.writer.isSome ∨ 2 ^ 32 ≤ bytes.length then s
    else { s with writer := some ⟨s.len, bytes, 0⟩ }
  | .write count =>
    match s.writer with
    | none => s
    | some w =>
      -- the header and the bytes are two writes
      let chunk := ((frame w.bytes).drop w.done).take
        (if w.done < 4 then min count (4 - w.done) else count)
      { s with
        file := s.file ++ chunk
        writer := some { w with done := w.done + chunk.length } }
  | .finish =>
    match s.writer with
    | none => s
    | some w => if w.done < (frame w.bytes).length then s else s.acknowledge w
  | .fail => { s with writer := none }
  | .read i off =>
    if (s.reads i).isSome then s else s.goto i ⟨off, s.acked, .testing⟩ .testing
  | .next i =>
    match s.reads i with
    | none => s
    | some r => s.next i r
  | .reopen =>
    { opened s.file with
      acked := s.acked
      reads := fun i => (s.reads i).map fun r =>
        match r.phase with
        | .answered _ => r
        | _ => { r with phase := .killed } }

def steps (moves : List Move) : Log := moves.foldl step s

/-- No append fails once it has written a byte, no mapping is made while an
append is under way, and none replaces a longer one. -/
def Calm : Move → Prop
  | .fail => ∀ w ∈ s.writer, w.done = 0
  | .next i => ∀ r ∈ s.reads i,
    match r.phase with
    | .mapping => s.writer = none
    | .installing mapped => ∀ old ∈ s.map, old ≤ mapped
    | _ => True
  | _ => True

def CalmAll : Log → List Move → Prop
  | _, [] => True
  | s, move :: moves => s.Calm move ∧ (s.step move).CalmAll moves

/-- A mapping that shows all of an acknowledged frame or not its header. -/
def Whole (mapped : Nat) : Prop :=
  mapped ≤ s.len ∧ ∀ p ∈ s.acked, p.1 + 4 ≤ mapped →
    p.1 + (frame p.2).length ≤ mapped

/-- What holds of a read between two steps, where its offset had been
acknowledged when it was made. -/
def PhaseSound (map : Option Nat) (off : Nat) (bytes : Bytes) : Phase → Prop
  | .installing mapped => off + 4 ≤ mapped
  | .fetching => ∃ mapped ∈ map, off + 4 ≤ mapped
  | .answered result => result = .ok bytes
  | _ => True

def ReadSound (r : Read) : Prop :=
  r.known ⊆ s.acked ∧
    (∀ mapped, r.phase = .installing mapped → s.Whole mapped) ∧
    ∀ bytes, (r.off, bytes) ∈ r.known → PhaseSound s.map r.off bytes r.phase

structure Sound : Prop where
  framed : ∀ p ∈ s.acked, p.2.length < 2 ^ 32 ∧
    p.1 + (frame p.2).length ≤ s.len ∧
    ∃ front, front.length = p.1 ∧ front ++ frame p.2 <+: s.file
  free : s.writer = none → s.file.length = s.len
  writer : ∀ w ∈ s.writer, w.off = s.len ∧ w.bytes.length < 2 ^ 32 ∧
    ∃ front, front.length = s.len ∧
      s.file = front ++ (frame w.bytes).take w.done
  map : ∀ mapped ∈ s.map, s.Whole mapped
  reads : ∀ i, ∀ r ∈ s.reads i, s.ReadSound r

variable {s : Log} {i off mapped : Nat} {bytes : Bytes} {r : Read}
  {phase : Phase}

theorem ReadSound.mono {t : Log} (h : s.ReadSound r)
    (hacked : s.acked ⊆ t.acked)
    (hwhole : ∀ {mapped}, s.Whole mapped → t.Whole mapped)
    (hmap : ∀ mapped ∈ s.map, ∃ more ∈ t.map, mapped ≤ more) :
    t.ReadSound r := by
  obtain ⟨hknown, hinstalling, hphase⟩ := h
  refine ⟨fun p hp => hacked (hknown hp), fun mapped hcase =>
    hwhole (hinstalling mapped hcase), fun bytes hb => ?_⟩
  replace hphase := hphase bytes hb
  generalize r.phase = phase at hphase ⊢
  cases phase with
  | fetching =>
    obtain ⟨mapped, hmapped, hle⟩ := hphase
    obtain ⟨more, hmore, hle'⟩ := hmap mapped hmapped
    exact ⟨more, hmore, hle.trans hle'⟩
  | _ => exact hphase

section

variable (h : s.Sound)

include h

/-- An acknowledged frame is found behind a mapping that shows its header. -/
theorem Sound.fetch_eq (hacked : (off, bytes) ∈ s.acked)
    (hwhole : s.Whole mapped) (hle : off + 4 ≤ mapped) :
    fetch s.file (some mapped) off = .ok bytes := by
  obtain ⟨hlt, -, hfile⟩ := h.framed _ hacked
  exact fetch_framed hlt hfile (hwhole.2 _ hacked hle)

/-- A mapping that is made while no append is under way. -/
theorem Sound.whole_file (hnone : s.writer = none) :
    s.Whole s.file.length ∧ ∀ p ∈ s.acked, p.1 + 4 ≤ s.file.length := by
  rw [h.free hnone]
  refine ⟨⟨le_rfl, fun p hp _ => (h.framed p hp).2.1⟩, fun p hp => ?_⟩
  have hle := (h.framed p hp).2.1
  rw [length_frame] at hle
  omega

theorem Sound.goto (hr : s.ReadSound { r with phase }) :
    (s.goto i r phase).Sound := by
  refine { h with reads := fun j other hother => ?_ }
  change other ∈ Function.update s.reads i _ j at hother
  rw [Function.update_apply] at hother
  split_ifs at hother
  · cases hother
    exact hr
  · exact h.reads j other hother

theorem Sound.next (hr : r ∈ s.reads i) (hcalm : s.Calm (.next i)) :
    (s.next i r).Sound := by
  obtain ⟨hknown, hwhole, hphase⟩ := h.reads i r hr
  replace hcalm := hcalm r hr
  rw [Log.next]
  generalize r.phase = phase at hwhole hphase hcalm
  cases phase with
  | testing =>
    dsimp only
    split_ifs with hmapped
    · exact h.goto ⟨hknown, nofun, fun _ _ => hmapped⟩
    · exact h.goto ⟨hknown, nofun, fun _ _ => trivial⟩
  | syncing =>
    dsimp only
    split_ifs
    · exact h
    · exact h.goto ⟨hknown, nofun, fun _ _ => trivial⟩
  | mapping =>
    obtain ⟨hfile, hle⟩ := h.whole_file hcalm
    refine h.goto ⟨hknown, ?_, fun bytes hb => hle _ (hknown hb)⟩
    rintro _ ⟨⟩
    exact hfile
  | installing mapped =>
    have hinstalled : { s with map := some mapped }.Sound := by
      refine { h with map := ?_, reads := fun j other hother =>
        (h.reads j other hother).mono (List.Subset.refl _) id fun old hold =>
          ⟨mapped, rfl, hcalm old hold⟩ }
      rintro _ ⟨⟩
      exact hwhole mapped rfl
    exact hinstalled.goto ⟨hknown, nofun, fun bytes hb =>
      ⟨mapped, rfl, hphase bytes hb⟩⟩
  | fetching =>
    refine h.goto ⟨hknown, nofun, fun bytes hb => ?_⟩
    obtain ⟨mapped, hmapped, hle⟩ := hphase bytes hb
    rw [mem_def.mp hmapped]
    exact h.fetch_eq (hknown hb) (h.map mapped hmapped) hle
  | _ => exact h

theorem Sound.acknowledge (hw : w ∈ s.writer)
    (hdone : ¬ w.done < (frame w.bytes).length) : (s.acknowledge w).Sound := by
  obtain ⟨hoff, hlt, front, hfront, hfile⟩ := h.writer w hw
  rw [take_of_length_le (by omega)] at hfile
  have hlength : s.file.length = w.off + 4 + w.bytes.length := by
    rw [hfile, length_append, length_frame]
    omega
  have hle : s.len ≤ w.off + 4 + w.bytes.length := by omega
  have hwhole : ∀ {mapped}, s.Whole mapped →
      (s.acknowledge w).Whole mapped := by
    refine fun hmapped => ⟨hmapped.1.trans hle, fun p hp hheader => ?_⟩
    rcases mem_append.mp hp with hp | hp
    · exact hmapped.2 p hp hheader
    · have := hmapped.1
      rw [mem_singleton.mp hp] at hheader
      omega
  refine ⟨fun p hp => ?_, fun _ => hlength, nofun, fun mapped hmapped =>
    hwhole (h.map mapped hmapped), fun j r hr => (h.reads j r hr).mono
      (subset_append_left _ _) hwhole fun m hm => ⟨m, hm, le_rfl⟩⟩
  rcases mem_append.mp hp with hp | hp
  · obtain ⟨hshort, hframe, hkept⟩ := h.framed p hp
    exact ⟨hshort, hframe.trans hle, hkept⟩
  · rw [mem_singleton.mp hp]
    refine ⟨hlt, ?_, front, hfront.trans hoff.symm, ?_⟩
    · rw [length_frame, ← Nat.add_assoc]
      rfl
    · exact hfile ▸ prefix_refl _

/-- One step of any call keeps the log sound. -/
theorem Sound.step (hcalm : s.Calm move) : (s.step move).Sound := by
  cases move with
  | lock content =>
    rw [Log.step]
    split_ifs with hblocked
    · exact h
    · rw [not_or, not_isSome_iff_eq_none, not_le] at hblocked
      refine { h with free := nofun, writer := ?_ }
      rintro _ ⟨⟩
      exact ⟨rfl, hblocked.2, s.file, h.free hblocked.1, (append_nil _).symm⟩
  | write count =>
    rw [Log.step]
    cases hw : s.writer with
    | none => exact h
    | some w =>
      obtain ⟨hoff, hlt, front, hfront, hfile⟩ := h.writer w hw
      refine { h with framed := fun p hp => ?_, free := nofun, writer := ?_ }
      · obtain ⟨hshort, hle, front, hfront, hkept⟩ := h.framed p hp
        exact ⟨hshort, hle, front, hfront, hkept.trans (prefix_append _ _)⟩
      · rintro _ ⟨⟩
        refine ⟨hoff, hlt, front, hfront, ?_⟩
        dsimp only
        rw [hfile, append_assoc, take_add,
          ← prefix_iff_eq_take.mp ( take_prefix _ _)]
  | finish =>
    rw [Log.step]
    cases hw : s.writer with
    | none => exact h
    | some w =>
      dsimp only
      split_ifs with hdone
      · exact h
      · exact h.acknowledge hw hdone
  | fail =>
    refine { h with free := fun _ => ?_, writer := nofun }
    cases hw : s.writer with
    | none => exact h.free hw
    | some w =>
      obtain ⟨-, -, front, hfront, hfile⟩ := h.writer w hw
      rw [hcalm w hw, take_zero, append_nil] at hfile
      exact (congrArg length hfile).trans hfront
  | read i start =>
    rw [Log.step]
    split_ifs
    · exact h
    · exact h.goto ⟨List.Subset.refl _, nofun, fun _ _ => trivial⟩
  | next i =>
    rw [Log.step]
    cases hr : s.reads i with
    | none => exact h
    | some r => exact h.next hr hcalm
  | reopen =>
    refine ⟨fun p hp => ?_, fun _ => rfl, nofun, nofun, fun j r hr => ?_⟩
    · obtain ⟨hshort, -, front, hfront, hkept⟩ := h.framed p hp
      refine ⟨hshort, ?_, front, hfront, hkept⟩
      rw [← hfront, ← length_append]
      exact hkept.length_le
    · obtain ⟨old, hold, rfl⟩ := map_eq_some_iff.mp hr
      obtain ⟨hknown, -, hphase⟩ := h.reads j old hold
      split
      · rename_i hcase
        rw [hcase] at hphase
        exact ⟨hknown, by rw [hcase]; nofun, by rw [hcase]; exact hphase⟩
      · exact ⟨hknown, nofun, fun _ _ => trivial⟩

theorem Sound.run (hcalm : s.CalmAll moves) : (s.steps moves).Sound := by
  induction moves generalizing s with
  | nil => exact h
  | cons move moves ih => exact ih (h.step hcalm.1) hcalm.2

/-- A read that is left alone while the file lock is free returns. -/
theorem Sound.returns (hr : s.reads i = some r)
    (hb : (r.off, bytes) ∈ r.known) (hnone : s.writer = none)
    (hkilled : r.phase ≠ .killed) :
    (s.steps (replicate 5 (.next i))).reads i =
      some { r with phase := .answered (.ok bytes) } := by
  obtain ⟨hknown, hinstalling, hphase⟩ := h.reads i r hr
  replace hphase := hphase bytes hb
  obtain ⟨hwhole, hle⟩ := h.whole_file hnone
  have hfile := h.fetch_eq (hknown hb) hwhole (hle _ (hknown hb))
  have hmapped : ∀ mapped, s.map = some mapped → r.off + 4 ≤ mapped →
      fetch s.file (some mapped) r.off = .ok bytes := fun mapped hmap =>
    h.fetch_eq (hknown hb) (h.map mapped hmap)
  obtain ⟨off, known, phase⟩ := r
  simp only [steps, replicate, foldl]
  cases phase with
  | testing =>
    by_cases hshown : ∃ mapped, s.map = some mapped ∧ off + 4 ≤ mapped
    · obtain ⟨mapped, hmap, hle⟩ := hshown
      simp [Log.step, Log.next, Log.goto, hr, hmap, hle,
        hmapped mapped hmap hle]
    · simp [Log.step, Log.next, Log.goto, hr, hnone, hshown, hfile]
  | syncing => simp [Log.step, Log.next, Log.goto, hr, hnone, hfile]
  | mapping => simp [Log.step, Log.next, Log.goto, hr, hfile]
  | installing mapped =>
    simp [Log.step, Log.next, Log.goto, hr,
      h.fetch_eq (hknown hb) (hinstalling mapped rfl) hphase]
  | fetching =>
    obtain ⟨mapped, hmap, hle⟩ := hphase
    simp [Log.step, Log.next, Log.goto, hr, mem_def.mp hmap,
      hmapped mapped hmap hle]
  | answered result =>
    cases hphase
    simp [Log.step, Log.next, hr]
  | killed => exact absurd rfl hkilled

end

/-- As long as every step is calm, a read that was made after its offset had
been acknowledged answers with the bytes that were appended there, and it
answers when it is left alone. -/
theorem read_acknowledged (file : Bytes) (moves : List Move) (i : Nat)
    (r : Read) (bytes : Bytes) :
    let s := (opened file).steps moves
    (opened file).CalmAll moves → s.reads i = some r →
    (r.off, bytes) ∈ r.known →
    (∀ result, r.phase = .answered result → result = .ok bytes) ∧
      (r.phase ≠ .killed → s.writer = none →
        (s.steps (List.replicate 5 (.next i))).reads i =
          some { r with phase := .answered (.ok bytes) }) := by
  intro s hcalm hr hb
  have hopened : (opened file).Sound :=
    ⟨nofun, fun _ => rfl, nofun, nofun, nofun⟩
  have hsound : s.Sound := hopened.run hcalm
  refine ⟨fun result hresult => ?_, fun hkilled hnone =>
    hsound.returns hr hb hnone hkilled⟩
  have hphase := (hsound.reads i r hr).2.2 bytes hb
  rwa [hresult] at hphase

/-- An undisturbed append of one byte. -/
def appendOne (byte : UInt8) : List Move :=
  [.lock [byte], .write 4, .write 1, .finish]

/-- An append between the steps of a read, and a read of what it appended. -/
def crossingRead : List Move :=
  [.read 1 0, .next 1, .next 1, .next 1, .lock [8], .write 4, .next 1,
    .write 1, .next 1, .finish, .read 0 5]

theorem read_acknowledged_at_two :
    let s := (opened []).steps (appendOne 7 ++ crossingRead)
    s.reads 1 = some ⟨0, [(0, [7])], .answered (.ok [7])⟩ ∧
      (s.steps (List.replicate 5 (.next 0))).reads 0 =
        some ⟨5, [(0, [7]), (5, [8])], .answered (.ok [8])⟩ := by
  have hcalm : (opened []).CalmAll (appendOne 7 ++ crossingRead) := by
    simp [CalmAll, Calm, appendOne, crossingRead, step, next, opened, goto,
      acknowledge]
  have hread := read_acknowledged [] _ 0
    ⟨5, [(0, [7]), (5, [8])], .testing⟩ [8] hcalm (by decide +kernel)
    (by decide)
  exact ⟨by decide +kernel, hread.2 nofun (by decide +kernel)⟩

/-- Three ways to go on that are not calm: an append fails within its header,
the file is mapped between a header and its byte, and an older mapping replaces
a newer one. -/
def tornRuns : List (List Move) :=
  [[.lock [7], .write 2, .fail] ++ appendOne 8 ++
      .read 0 5 :: List.replicate 5 (.next 0),
    [.read 1 0, .next 1, .next 1, .lock [8], .write 4, .next 1, .next 1,
      .write 1, .finish, .read 0 5, .next 0, .next 0],
    [.read 1 0, .next 1, .next 1, .next 1] ++ appendOne 8 ++ .read 0 5 ::
      List.replicate 4 (.next 0) ++ [.next 1, .next 0]]

/-- The read fails although its offset was acknowledged before. -/
theorem read_acknowledged_fails :
    (tornRuns.map fun moves =>
      ((opened []).steps (appendOne 7 ++ moves)).reads 0) =
    ["mmap store: torn frame", "mmap store: torn frame",
      "mmap store: frame offset out of range"].map fun message =>
        some ⟨5, [(0, [7]), (5, [8])], .answered (.error (.corrupt message))⟩ :=
  by decide +kernel

end Log

end DgXch.DataLog
