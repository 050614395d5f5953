/-
A hash table kept as chains of fixed-size records: an array of records, the
number of records in use, and for every bucket the link to the newest record
of its chain.  A link is an index plus one, and zero ends a chain.

A table changes through single writes, so that the state between two writes of
a batch can be spoken about.  It means the map `get`; a record that is not
linked, or lies past the count, is invisible to it.
-/
import Mathlib.Data.List.AList

namespace ChainedTable

open List Option Nat Function AList Prod

/-- One record: the key, the link to the next record of the chain, and the
payload. -/
structure Slot (K V : Type) where
  key : K
  next : Nat
  payload : V
deriving Repr, DecidableEq

/-- The records written so far, how many of them are in use, and the heads. -/
structure Table (K B V : Type) where
  slots : List (Slot K V) := []
  count : Nat := 0
  heads : B → Nat := fun _ => 0

/-- One write to the file of a table. -/
inductive Write (K B V : Type) where
  | slot (index : Nat) (slot : Slot K V)
  | count (count : Nat)
  | head (bucket : B) (link : Nat)
  | payload (index : Nat) (payload : V)

variable {K B V : Type}

/-- Overwrite an element, or add one at the end. -/
def writeAt {A : Type} (items : List A) (index : Nat) (item : A) : List A :=
  if index < items.length then items.set index item else items ++ [item]

variable {A C : Type}

theorem map_modify {g : A → C} {f : A → A} (h : ∀ a, g (f a) = g a)
    {items : List A} {index : Nat} :
    (items.modify index f).map g = items.map g := by
  apply ext_getElem?
  intro i
  rw [getElem?_map, getElem?_map, List.getElem?_modify]
  cases items[i]? with
  | none => rfl
  | some a =>
    change some (g (if index = i then f a else a)) = some (g a)
    split_ifs
    · rw [h]
    · rfl

namespace Table

def write [DecidableEq B] (t : Table K B V) : Write K B V → Table K B V
  | .slot index slot => { t with slots := writeAt t.slots index slot }
  | .count count => { t with count }
  | .head bucket link => { t with heads := Function.update t.heads bucket link }
  | .payload index payload =>
    { t with slots := t.slots.modify index fun slot => { slot with payload } }

def writes [DecidableEq B] (t : Table K B V) (ops : List (Write K B V)) :
    Table K B V :=
  ops.foldl write t

/-- Follow a chain to the record of a key. -/
def walk [DecidableEq K] (t : Table K B V) (key : K) : Nat → Nat → Option Nat
  | 0, _ => none
  | _ + 1, 0 => none
  | fuel + 1, index + 1 =>
    match t.slots[index]? with
    | none => none
    | some slot =>
      if slot.key = key then some index else walk t key fuel slot.next

/-- The index of the record of a key; links only go down, so a chain is no
longer than its first link. -/
def find [DecidableEq K] (t : Table K B V) (bucketOf : K → B) (key : K) :
    Option Nat :=
  walk t key (t.heads (bucketOf key)) (t.heads (bucketOf key))

/-- Follow a chain as far as `fuel` records; `none` when it goes on. -/
def follow [DecidableEq K] (t : Table K B V) (key : K) :
    Nat → Nat → Option (Option Nat)
  | _, 0 => some none
  | 0, _ + 1 => none
  | fuel + 1, index + 1 =>
    match t.slots[index]? with
    | none => some none
    | some slot =>
      if slot.key = key then some (some index)
      else follow t key fuel slot.next

def payload (t : Table K B V) (index : Nat) : Option V :=
  t.slots[index]?.map Slot.payload

/-- The map a table stands for. -/
def get [DecidableEq K] (t : Table K B V) (bucketOf : K → B) (key : K) :
    Option V :=
  (t.find bucketOf key).bind t.payload

/-- Every record in use, in the order of the file. -/
def entries (t : Table K B V) : List (K × V) :=
  (t.slots.take t.count).map fun slot => (slot.key, slot.payload)

def keys (t : Table K B V) : List K := (t.slots.take t.count).map Slot.key

/-- The chains are well founded and no key has two records in use. -/
structure Sound (t : Table K B V) : Prop where
  count_le : t.count ≤ t.slots.length
  heads_le : ∀ bucket, t.heads bucket ≤ t.count
  next_le : ∀ {index slot}, index < t.count →
    t.slots[index]? = some slot → slot.next ≤ index
  nodup : t.keys.Nodup

theorem sound_empty : Sound ({} : Table K B V) :=
  ⟨le_refl 0, fun _ => le_refl 0, fun h => absurd h (not_lt_zero _), nodup_nil⟩

variable {t t' : Table K B V} {bucketOf : K → B} {key : K} {index link : Nat}
  {map : K → Option V} {batch : List (K × V)}
  {order : List (Σ _ : B, Nat) → List (Σ _ : B, Nat)} {slot : Slot K V}

theorem Sound.next_below (hsound : t.Sound) (hlink : link ≤ t.count) {i : Nat}
    (hi : i < link) (hslot : t.slots[i]? = some slot) :
    slot.next ≤ i :=
  hsound.next_le (lt_of_lt_of_le hi hlink) hslot

/-- No two records in use have the same key. -/
theorem Sound.index_unique (hsound : t.Sound) {i j : Nat}
    {slot slot' : Slot K V} (hi : i < t.count) (hj : j < t.count)
    (hslot : t.slots[i]? = some slot) (hslot' : t.slots[j]? = some slot')
    (hkey : slot.key = slot'.key) : i = j := by
  refine (getElem?_inj ?_ hsound.nodup).mp ?_
  rotate_left
  · rw [keys, getElem?_map, getElem?_map, getElem?_take_of_lt hi,
      getElem?_take_of_lt hj, hslot, hslot']
    exact congrArg some hkey
  · rw [keys, length_map, length_take]
    exact lt_min hi (lt_of_lt_of_le hi hsound.count_le)

def slotWrites (index : Nat) : List (Slot K V) → List (Write K B V)
  | [] => []
  | slot :: rest => .slot index slot :: slotWrites (index + 1) rest

theorem mem_slotWrites {start : Nat} {slots : List (Slot K V)}
    {op : Write K B V} (h : op ∈ slotWrites start slots) :
    ∃ i slot, start ≤ i ∧ op = .slot i slot ∧ slot ∈ slots := by
  induction slots generalizing start with
  | nil => cases h
  | cons slot rest ih =>
    rcases mem_cons.mp h with rfl | h
    · exact ⟨start, slot, le_refl _, rfl, mem_cons_self ..⟩
    · obtain ⟨i, slot', hi, hop, hslot⟩ := ih h
      exact ⟨i, slot', le_of_succ_le hi, hop, mem_cons_of_mem _ hslot⟩

theorem writeAt_below (items : List (Slot K V)) (slot : Slot K V) {i : Nat}
    (hi : i < index) (hlen : i < items.length) :
    (writeAt items index slot)[i]? = items[i]? := by
  unfold writeAt
  split_ifs
  · exact getElem?_set_ne (ne_of_gt hi)
  · exact getElem?_append_left hlen

theorem length_le_writeAt (items : List A) (item : A) :
    items.length ≤ (writeAt items index item).length := by
  unfold writeAt
  split_ifs
  · rw [length_set]
  · rw [length_append]
    exact le_add_right _ _

theorem writeAt_self (items : List (Slot K V)) (hlen : index ≤ items.length) :
    (writeAt items index slot)[index]? = some slot ∧
      index < (writeAt items index slot).length := by
  unfold writeAt
  split_ifs with h
  · rw [length_set]
    exact ⟨getElem?_set_self h, h⟩
  · obtain rfl := Nat.le_antisymm hlen (Nat.le_of_not_lt h)
    exact ⟨getElem?_concat_length, by simp⟩

/-- Two tables that agree on the records in use. -/
structure Agrees (t t' : Table K B V) : Prop where
  slots : ∀ i < t.count, t'.slots[i]? = t.slots[i]?
  count : t'.count = t.count
  heads : t'.heads = t.heads

theorem Agrees.take (hagrees : Agrees t t') :
    t'.slots.take t.count = t.slots.take t.count := by
  apply ext_getElem?
  intro i
  by_cases hi : i < t.count
  · rw [getElem?_take_of_lt hi, getElem?_take_of_lt hi, hagrees.slots i hi]
  · rw [getElem?_take_eq_none (Nat.le_of_not_lt hi),
      getElem?_take_eq_none (Nat.le_of_not_lt hi)]

theorem Agrees.keys (hagrees : Agrees t t') : t'.keys = t.keys := by
  rw [Table.keys, hagrees.count, hagrees.take]
  rfl

theorem Agrees.sound (hagrees : Agrees t t') (hsound : t.Sound)
    (hlen : t.count ≤ t'.slots.length) : t'.Sound where
  count_le := hagrees.count ▸ hlen
  heads_le bucket := by
    rw [hagrees.heads, hagrees.count]
    exact hsound.heads_le bucket
  next_le hlt hslot := by
    rw [hagrees.count] at hlt
    rw [hagrees.slots _ hlt] at hslot
    exact hsound.next_le hlt hslot
  nodup := hagrees.keys ▸ hsound.nodup

variable {T : Table K B V}

/-- The records in use are the old ones and then the new ones. -/
theorem take_published {slots : List (Slot K V)}
    (hcount : t.count ≤ t.slots.length)
    (hbelow : ∀ i < t.count, T.slots[i]? = t.slots[i]?)
    (hslots : ∀ {j slot}, slots[j]? = some slot →
      T.slots[t.count + j]? = some slot) :
    T.slots.take (t.count + slots.length) = t.slots.take t.count ++ slots := by
  have hlen : (t.slots.take t.count).length = t.count :=
    length_take_of_le hcount
  apply ext_getElem?
  intro i
  by_cases hlt : i < t.count
  · rw [getElem?_append_left (hlen.symm ▸ hlt),
      getElem?_take_of_lt (Nat.lt_add_right _ hlt),
      getElem?_take_of_lt hlt, hbelow i hlt]
  · obtain ⟨j, rfl⟩ := Nat.exists_eq_add_of_le (Nat.le_of_not_lt hlt)
    rw [getElem?_append_right (hlen.symm ▸ le_add_right _ _), hlen,
      Nat.add_sub_cancel_left]
    by_cases hj : j < slots.length
    · rw [getElem?_take_of_lt (Nat.add_lt_add_left hj _),
        hslots (getElem?_eq_getElem hj), getElem?_eq_getElem hj]
    · rw [getElem?_take_eq_none (Nat.add_le_add_left
        (Nat.le_of_not_lt hj) _), getElem?_eq_none (Nat.le_of_not_lt hj)]

theorem prefix_append_cases {a : A} {front left right : List A}
    (h : front <+: left ++ a :: right) :
    front <+: left ∨ ∃ rest, front = left ++ a :: rest ∧ rest <+: right := by
  rcases prefix_or_prefix_of_prefix h (prefix_append left _) with
    hleft | ⟨rest, rfl⟩
  · exact .inl hleft
  rcases prefix_cons_iff.mp ((prefix_append_right_inj left).mp h) with
    rfl | ⟨rest, rfl, hrest⟩
  · rw [append_nil]
    exact .inl (prefix_refl _)
  · exact .inr ⟨rest, rfl, hrest⟩

section Writes

variable [DecidableEq B] {value : V}

/-- A new payload changes no key and no link. -/
theorem getElem?_write_payload (i : Nat) :
    (t.write (.payload index value)).slots[i]? =
      t.slots[i]?.map fun slot =>
        if index = i then { slot with payload := value } else slot := by
  rw [write, getElem?_modify]
  rfl

theorem keys_write_payload :
    (t.write (.payload index value)).keys = t.keys := by
  change ((t.slots.modify index _).take t.count).map Slot.key = _
  rw [keys, map_take, map_take, map_modify]
  exact fun _ => rfl

theorem Sound.write_payload (hsound : t.Sound) :
    (t.write (.payload index value)).Sound where
  count_le := by
    rw [write, length_modify]
    exact hsound.count_le
  heads_le := hsound.heads_le
  next_le hlt hslot := by
    rw [getElem?_write_payload, map_eq_some_iff] at hslot
    obtain ⟨slot, hslot, rfl⟩ := hslot
    have hle := hsound.next_le hlt hslot
    split_ifs <;> exact hle
  nodup := by
    rw [keys_write_payload]
    exact hsound.nodup

theorem writes_append (ops ops' : List (Write K B V)) :
    t.writes (ops ++ ops') = (t.writes ops).writes ops' :=
  foldl_append

/-- Records written past the count are not in use. -/
theorem agrees_slotWrites (hcount : t.count ≤ t.slots.length)
    {slots : List (Slot K V)} (ops : List (Write K B V))
    (hops : ∀ op ∈ ops, ∃ i slot, t.count ≤ i ∧ op = .slot i slot ∧
      slot ∈ slots) :
    Agrees t (t.writes ops) ∧ t.count ≤ (t.writes ops).slots.length := by
  induction ops generalizing t with
  | nil => exact ⟨⟨fun _ _ => rfl, rfl, rfl⟩, hcount⟩
  | cons op ops ih =>
    obtain ⟨i, slot, hi, rfl, -⟩ := hops op (mem_cons_self ..)
    have hlen : t.count ≤ (writeAt t.slots i slot).length :=
      le_trans hcount (length_le_writeAt ..)
    obtain ⟨hagrees, hle⟩ := ih (t := t.write (.slot i slot)) hlen
      fun op hop => hops op (mem_cons_of_mem _ hop)
    refine ⟨⟨fun j hj => ?_, hagrees.count, hagrees.heads⟩, hle⟩
    exact (hagrees.slots j hj).trans (writeAt_below _ _
      (lt_of_lt_of_le hj hi) (lt_of_lt_of_le hj hcount))

/-- All the records of a batch, once they are written. -/
theorem getElem?_slotWrites (start : Nat) {slots : List (Slot K V)}
    (hlen : start ≤ t.slots.length) :
    (∀ {j slot}, slots[j]? = some slot →
      (t.writes (slotWrites start slots)).slots[start + j]? = some slot) ∧
    (∀ i < start, (t.writes (slotWrites start slots)).slots[i]? = t.slots[i]?) ∧
    start + slots.length ≤ (t.writes (slotWrites start slots)).slots.length := by
  induction slots generalizing t start with
  | nil => exact ⟨fun h => (by cases h), fun _ _ => rfl, hlen⟩
  | cons slot rest ih =>
    obtain ⟨hself, hlt⟩ := writeAt_self t.slots hlen
    obtain ⟨hrest, hbelow, hle⟩ :=
      ih (t := t.write (.slot start slot)) (start + 1) hlt
    refine ⟨fun {j slot'} h => ?_, fun i hi => ?_, ?_⟩
    · cases j with
      | zero =>
        cases h
        exact (hbelow start (lt_succ_self _)).trans hself
      | succ j =>
        have hmoved := hrest h
        rwa [Nat.add_right_comm, Nat.add_assoc] at hmoved
    · exact (hbelow i (Nat.lt_succ_of_lt hi)).trans
        (writeAt_below _ _ hi (lt_of_lt_of_le hi hlen))
    · rw [length_cons]
      exact le_of_eq_of_le (by omega) hle

/-- The heads that a batch has staged so far, over the heads of the table. -/
def headOf (t : Table K B V) (staged : AList fun _ : B => Nat) (bucket : B) :
    Nat :=
  (staged.lookup bucket).getD (t.heads bucket)

/-- The records of a batch, threaded through the staged heads. -/
def thread (t : Table K B V) (bucketOf : K → B) :
    List (K × V) → Nat → (AList fun _ : B => Nat) →
      List (Slot K V) × AList fun _ : B => Nat
  | [], _, staged => ([], staged)
  | (key, payload) :: rest, index, staged =>
    let next := t.headOf staged (bucketOf key)
    let (slots, staged) := thread t bucketOf rest (index + 1)
      (staged.insert (bucketOf key) (index + 1))
    (⟨key, next, payload⟩ :: slots, staged)

/-- The writes of a batch of new records: the records, then the count, then the
heads in some order. -/
def insertBatch (t : Table K B V) (bucketOf : K → B)
    (order : List (Σ _ : B, Nat) → List (Σ _ : B, Nat))
    (batch : List (K × V)) : List (Write K B V) :=
  if batch = [] then []
  else
    let (slots, staged) := t.thread bucketOf batch t.count ∅
    slotWrites t.count slots ++ [.count (t.count + batch.length)] ++
      (order staged.entries).map fun head => .head head.1 head.2

theorem headOf_insert {staged : AList fun _ : B => Nat} (bucket bucket' : B) :
    t.headOf (staged.insert bucket link) bucket' =
      if bucket' = bucket then link else t.headOf staged bucket' := by
  unfold headOf
  split_ifs with h
  · rw [h, lookup_insert, getD_some]
  · rw [lookup_insert_ne h]

theorem length_thread (bucketOf : K → B) (index : Nat)
    (staged : AList fun _ : B => Nat) :
    (t.thread bucketOf batch index staged).1.length = batch.length := by
  induction batch generalizing index staged with
  | nil => rfl
  | cons head rest ih => exact congrArg (· + 1) (ih _ _)

theorem map_key_thread (index : Nat) (staged : AList fun _ : B => Nat) :
    (t.thread bucketOf batch index staged).1.map Slot.key = batch.map fst := by
  induction batch generalizing index staged with
  | nil => rfl
  | cons head rest ih => exact congrArg (head.1 :: ·) (ih _ _)

/-- The links of a batch go down, and so do the heads it stages. -/
theorem thread_le (index : Nat) (staged : AList fun _ : B => Nat)
    (hstaged : ∀ bucket, t.headOf staged bucket ≤ index) :
    (∀ {j slot}, (t.thread bucketOf batch index staged).1[j]? = some slot →
      slot.next ≤ index + j) ∧
    ∀ bucket, t.headOf (t.thread bucketOf batch index staged).2 bucket ≤
      index + batch.length := by
  induction batch generalizing index staged with
  | nil =>
    refine ⟨fun h => ?_, hstaged⟩
    cases h
  | cons head rest ih =>
    obtain ⟨key, value⟩ := head
    have hinsert : ∀ bucket, t.headOf
        (staged.insert (bucketOf key) (index + 1)) bucket ≤ index + 1 := by
      intro bucket
      rw [headOf_insert]
      split_ifs
      · exact le_refl _
      · exact le_succ_of_le (hstaged bucket)
    obtain ⟨hslots, hheads⟩ := ih (index + 1) _ hinsert
    constructor
    · intro j slot hslot
      cases j with
      | zero =>
        cases hslot
        exact hstaged _
      | succ j =>
        have := hslots hslot
        omega
    · intro bucket
      have := hheads bucket
      rw [length_cons]
      exact le_of_le_of_eq this (by omega)

theorem mem_thread {staged : AList fun _ : B => Nat}
    (h : slot ∈ (t.thread bucketOf batch index staged).1) :
    (slot.key, slot.payload) ∈ batch := by
  induction batch generalizing index staged with
  | nil => cases h
  | cons head rest ih =>
    rcases mem_cons.mp h with rfl | h
    · exact mem_cons_self ..
    · exact mem_cons_of_mem _ (ih h)

/-- The record writes of a batch carry its payloads. -/
theorem mem_insertBatch {op : Write K B V}
    (h : op ∈ t.insertBatch bucketOf order batch) :
    (∃ i slot, op = .slot i slot ∧ (slot.key, slot.payload) ∈ batch) ∨
      (∃ n, op = .count n) ∨ ∃ bucket link, op = .head bucket link := by
  unfold Table.insertBatch at h
  split_ifs at h
  · cases h
  rcases mem_append.mp h with h | h
  · rcases mem_append.mp h with h | h
    · obtain ⟨i, slot, -, rfl, hslot⟩ := mem_slotWrites h
      exact .inl ⟨i, slot, rfl, mem_thread hslot⟩
    · exact .inr (.inl ⟨_, mem_singleton.mp h⟩)
  · obtain ⟨head, -, rfl⟩ := mem_map.mp h
    exact .inr (.inr ⟨_, _, rfl⟩)

/-- Publishing heads: each bucket has its old head or the published one. -/
theorem heads_writes_head (heads : List (Σ _ : B, Nat)) (target : B → Nat)
    (htarget : ∀ head ∈ heads, head.2 = target head.1) (bucket : B) :
    (t.writes (heads.map fun head => .head head.1 head.2)).heads bucket =
      if bucket ∈ heads.map Sigma.fst then target bucket
      else t.heads bucket := by
  induction heads generalizing t with
  | nil => rfl
  | cons head rest ih =>
    obtain ⟨bucket', link⟩ := head
    have hlink : link = target bucket' := htarget _ (mem_cons_self ..)
    refine (ih (t := t.write (.head bucket' link)) fun head hhead =>
      htarget head (mem_cons_of_mem _ hhead)).trans ?_
    rw [map_cons]
    by_cases hrest : bucket ∈ rest.map Sigma.fst
    · rw [if_pos hrest, if_pos (mem_cons_of_mem _ hrest)]
    · rw [if_neg hrest]
      change update t.heads bucket' link bucket = _
      by_cases hsame : bucket = bucket'
      · subst hsame
        rw [update_self, if_pos (mem_cons_self ..), hlink]
      · rw [update_of_ne hsame, if_neg]
        intro hmem
        rcases mem_cons.mp hmem with h | h
        · exact hsame h
        · exact hrest h

theorem slots_writes_head (heads : List (Σ _ : B, Nat)) :
    (t.writes (heads.map fun head => .head head.1 head.2)).slots = t.slots ∧
      (t.writes (heads.map fun head => .head head.1 head.2)).count =
        t.count := by
  induction heads generalizing t with
  | nil => exact ⟨rfl, rfl⟩
  | cons head rest ih => exact ih

end Writes

variable [DecidableEq K]

section Walk

variable {fuel : Nat}
  (hnext : ∀ {i slot}, i < link → t.slots[i]? = some slot → slot.next ≤ i)

include hnext

theorem walk_some (h : t.walk key fuel link = some index) :
    index < link ∧ ∃ slot, t.slots[index]? = some slot ∧ slot.key = key := by
  induction fuel generalizing link with
  | zero => cases h
  | succ fuel ih =>
    cases link with
    | zero => cases h
    | succ i =>
      rw [walk] at h
      split at h
      · cases h
      rename_i slot hslot
      split_ifs at h with hkey
      · cases h
        exact ⟨lt_succ_self _, slot, hslot, hkey⟩
      · have hle := hnext (lt_succ_self i) hslot
        obtain ⟨hlt, hfound⟩ := ih
          (fun hi => hnext (lt_of_lt_of_le hi (le_succ_of_le hle))) h
        exact ⟨lt_of_lt_of_le hlt (le_succ_of_le hle), hfound⟩

/-- A chain reads only the records below its first link. -/
theorem walk_congr
    (hagree : ∀ i < link, t'.slots[i]?.map (fun slot => (slot.key, slot.next)) =
      t.slots[i]?.map fun slot => (slot.key, slot.next)) :
    t'.walk key fuel link = t.walk key fuel link := by
  induction fuel generalizing link with
  | zero => rfl
  | succ fuel ih =>
    cases link with
    | zero => rfl
    | succ i =>
      have hhere := hagree i (lt_succ_self i)
      rw [walk, walk]
      cases hslot : t.slots[i]? with
      | none =>
        rw [hslot, map_none, map_eq_none_iff] at hhere
        rw [hhere]
      | some slot =>
        rw [hslot, map_some, map_eq_some_iff] at hhere
        obtain ⟨slot', hslot', hsame⟩ := hhere
        obtain ⟨hkey, hlink⟩ := Prod.mk.inj hsame
        have hle := hnext (lt_succ_self i) hslot
        have hrest := ih
          (fun hi => hnext (lt_of_lt_of_le hi (le_succ_of_le hle)))
          fun j hj => hagree j (lt_of_lt_of_le hj (le_succ_of_le hle))
        rw [hslot']
        dsimp only
        rw [hkey, hlink, hrest]

/-- Any fuel beyond the first link is enough. -/
theorem walk_fuel {fuel' : Nat} (hfuel : link ≤ fuel) (hfuel' : link ≤ fuel') :
    t.walk key fuel link = t.walk key fuel' link := by
  induction fuel generalizing link fuel' with
  | zero =>
    obtain rfl := le_zero.mp hfuel
    cases fuel' <;> rfl
  | succ fuel ih =>
    cases link with
    | zero => cases fuel' <;> rfl
    | succ i =>
      obtain ⟨fuel', rfl⟩ : ∃ n, fuel' = n + 1 :=
        ⟨fuel' - 1, (succ_pred_eq_of_pos
          (lt_of_lt_of_le (succ_pos i) hfuel')).symm⟩
      rw [walk, walk]
      cases hslot : t.slots[i]? with
      | none => rfl
      | some slot =>
        have hle := hnext (lt_succ_self i) hslot
        dsimp only
        rw [ih (fun hi => hnext (lt_of_lt_of_le hi (le_succ_of_le hle)))
          (le_trans hle (le_of_succ_le_succ hfuel))
          (le_trans hle (le_of_succ_le_succ hfuel'))]

end Walk

namespace Sound

section

variable (hsound : t.Sound)

include hsound

/-- The links of a sound table go down, so a chain ends within as many records
as its first link. -/
theorem follow_eq {fuel : Nat} (hfuel : link ≤ fuel) (hlink : link ≤ t.count) :
    t.follow key fuel link = some (t.walk key fuel link) := by
  induction fuel generalizing link with
  | zero =>
    obtain rfl := le_zero.mp hfuel
    rfl
  | succ fuel ih =>
    cases link with
    | zero => rfl
    | succ index =>
      rw [follow, walk]
      cases hslot : t.slots[index]? with
      | none => rfl
      | some slot =>
        have hnext := hsound.next_below hlink (lt_succ_self _) hslot
        dsimp only
        split_ifs
        · rfl
        · exact ih (by omega) (by omega)

theorem find_some (h : t.find bucketOf key = some index) :
    index < t.count ∧ ∃ slot, t.slots[index]? = some slot ∧ slot.key = key := by
  have hlink := hsound.heads_le (bucketOf key)
  obtain ⟨hlt, hfound⟩ := walk_some (hsound.next_below hlink) h
  exact ⟨lt_of_lt_of_le hlt hlink, hfound⟩

theorem get_of_find (h : t.find bucketOf key = some index) :
    ∃ slot, t.slots[index]? = some slot ∧ slot.key = key ∧
      t.get bucketOf key = some slot.payload := by
  obtain ⟨-, slot, hslot, hkey⟩ := hsound.find_some h
  refine ⟨slot, hslot, hkey, ?_⟩
  rw [get, h, bind_some, payload, hslot, map_some]

theorem get_eq_none_iff :
    t.get bucketOf key = none ↔ t.find bucketOf key = none := by
  constructor
  · intro h
    cases hfind : t.find bucketOf key with
    | none => rfl
    | some index =>
      obtain ⟨slot, -, -, hget⟩ := hsound.get_of_find hfind
      rw [h] at hget
      cases hget
  · intro h
    rw [get, h, bind_none]

/-- What the map holds is among the entries. -/
theorem mem_entries {value : V} (h : t.get bucketOf key = some value) :
    (key, value) ∈ t.entries := by
  cases hfind : t.find bucketOf key with
  | none =>
    rw [hsound.get_eq_none_iff.mpr hfind] at h
    cases h
  | some index =>
    obtain ⟨hlt, -⟩ := hsound.find_some hfind
    obtain ⟨slot, hslot, hkey, hget⟩ := hsound.get_of_find hfind
    rw [hget] at h
    apply List.mem_map.mpr
    refine ⟨slot, mem_of_getElem? (i := index) ?_,
      Prod.ext hkey (Option.some.inj h)⟩
    rw [getElem?_take_of_lt hlt, hslot]

/-- The map has no more keys than the table has records in use. -/
theorem length_le_count {keys : List K} (hnodup : keys.Nodup)
    (h : ∀ key ∈ keys, t.get bucketOf key ≠ none) : keys.length ≤ t.count := by
  have hsub : keys ⊆ t.keys := by
    intro key hkey
    obtain ⟨value, hvalue⟩ := ne_none_iff_exists'.mp (h key hkey)
    obtain ⟨slot, hslot, hsame⟩ := mem_map.mp (hsound.mem_entries hvalue)
    exact mem_map.mpr ⟨slot, hslot, (Prod.mk.inj hsame).1⟩
  have hle := (subperm_of_subset hnodup hsub).length_le
  rw [Table.keys, length_map] at hle
  exact le_trans hle (length_take_le _ _)

/-- An entry is in the map, unless its record is not linked. -/
theorem get_of_mem_entries {value : V} (h : (key, value) ∈ t.entries) :
    t.get bucketOf key = some value ∨ t.get bucketOf key = none := by
  cases hfind : t.find bucketOf key with
  | none => exact .inr (hsound.get_eq_none_iff.mpr hfind)
  | some index =>
    obtain ⟨hlt, -⟩ := hsound.find_some hfind
    obtain ⟨slot, hslot, hkey, hget⟩ := hsound.get_of_find hfind
    obtain ⟨slot', hslot', hsame⟩ := mem_map.mp h
    obtain ⟨j, hj⟩ := mem_iff_getElem?.mp hslot'
    have hjlt : j < t.count := by
      by_contra hge
      rw [getElem?_eq_none] at hj
      · cases hj
      · rw [length_take]
        exact le_trans (min_le_left _ _) (Nat.le_of_not_lt hge)
    rw [getElem?_take_of_lt hjlt] at hj
    obtain ⟨hkey', hvalue⟩ := Prod.mk.inj hsame
    have hindex := hsound.index_unique hlt hjlt hslot hj (hkey.trans hkey'.symm)
    rw [hindex, hj] at hslot
    cases hslot
    rw [hget, hvalue]
    exact .inl rfl

end

end Sound

/-- Reading from a link, with the fuel the link needs. -/
def getFrom (t : Table K B V) (key : K) (link : Nat) : Option V :=
  (t.walk key link link).bind t.payload

section

variable (hsound : t.Sound) (hslots : ∀ i < t.count, t'.slots[i]? = t.slots[i]?)

include hsound hslots

theorem Sound.getFrom_congr (hlink : link ≤ t.count) :
    t'.getFrom key link = t.getFrom key link := by
  rw [getFrom, getFrom, walk_congr (hsound.next_below hlink) fun i hi => by
    rw [hslots i (lt_of_lt_of_le hi hlink)]]
  cases h : t.walk key link link with
  | none => rfl
  | some index =>
    obtain ⟨hlt, -⟩ := walk_some (hsound.next_below hlink) h
    have hlt := lt_of_lt_of_le hlt hlink
    rw [bind_some, bind_some, payload, payload, hslots index hlt]

/-- A table is read through its heads and the records in use alone. -/
theorem Sound.get_congr (hheads : t'.heads = t.heads) :
    t'.get bucketOf = t.get bucketOf := by
  funext key
  change t'.getFrom key (t'.heads _) = t.getFrom key (t.heads _)
  rw [hheads]
  exact hsound.getFrom_congr hslots (hsound.heads_le _)

end

theorem Agrees.get (hagrees : Agrees t t') (hsound : t.Sound) :
    t'.get bucketOf = t.get bucketOf :=
  hsound.get_congr hagrees.slots hagrees.heads

section Payload

variable [DecidableEq B] {value : V}

theorem find_write_payload (hsound : t.Sound) :
    (t.write (.payload index value)).find bucketOf key =
      t.find bucketOf key := by
  refine walk_congr (hsound.next_below (hsound.heads_le _)) fun i _ => ?_
  rw [← getElem?_map, ← getElem?_map, write, map_modify]
  exact fun _ => rfl

/-- A payload write is an update of the map at the key of its record. -/
theorem Sound.get_write_payload (hsound : t.Sound)
    (h : t.find bucketOf key = some index) :
    (t.write (.payload index value)).get bucketOf =
      update (t.get bucketOf) key (some value) := by
  funext key'
  obtain ⟨hlt, slot, hslot, hkey⟩ := hsound.find_some h
  by_cases hsame : key' = key
  · subst hsame
    rw [get, find_write_payload hsound, h, bind_some, payload,
      getElem?_write_payload, hslot, update_self]
    simp
  · rw [get, find_write_payload hsound, update_of_ne hsame, get]
    cases hfind : t.find bucketOf key' with
    | none => rfl
    | some i =>
      obtain ⟨hi, slot', hslot', hkey'⟩ := hsound.find_some hfind
      have hne : index ≠ i := by
        rintro rfl
        rw [hslot] at hslot'
        cases hslot'
        exact hsame (hkey'.symm.trans hkey)
      rw [bind_some, bind_some, payload, payload,
        getElem?_write_payload, hslot', map_some, if_neg hne]

end Payload

section Batch

variable [DecidableEq B]

/-- A map after a sequence of updates. -/
def updateAll (map : K → Option V) (batch : List (K × V)) : K → Option V :=
  batch.foldl (fun map entry => Function.update map entry.1 (some entry.2)) map

/-- Threading a batch is a sequence of map updates, in any table that holds
its records. -/
theorem thread_getFrom (index : Nat) (staged : AList fun _ : B => Nat)
    (map : K → Option V)
    (hslots : ∀ {j slot},
      (t.thread bucketOf batch index staged).1[j]? = some slot →
        T.slots[index + j]? = some slot)
    (hnext : ∀ {i slot}, i < index + batch.length → T.slots[i]? = some slot →
      slot.next ≤ i)
    (hstaged : ∀ bucket, t.headOf staged bucket ≤ index)
    (hmap : ∀ key, T.getFrom key (t.headOf staged (bucketOf key)) = map key)
    (key : K) :
    T.getFrom key (t.headOf (t.thread bucketOf batch index staged).2
      (bucketOf key)) = updateAll map batch key := by
  induction batch generalizing index staged map with
  | nil => exact hmap key
  | cons head rest ih =>
    obtain ⟨key', value⟩ := head
    rw [updateAll, foldl_cons]
    have hhead : T.slots[index]? = some
        ⟨key', t.headOf staged (bucketOf key'), value⟩ := hslots (j := 0) rfl
    apply ih (index + 1) (staged.insert (bucketOf key') (index + 1))
    · intro j slot hslot
      rw [Nat.add_right_comm, Nat.add_assoc]
      exact hslots (j := j + 1) hslot
    · intro i slot hi
      apply hnext
      rw [length_cons]
      omega
    · intro bucket
      rw [headOf_insert]
      split_ifs
      · exact le_refl _
      · exact le_succ_of_le (hstaged bucket)
    · intro key
      rw [headOf_insert]
      by_cases hsame : key = key'
      · subst hsame
        rw [if_pos rfl, update_self, getFrom, walk, hhead]
        dsimp only
        rw [if_pos rfl, bind_some, payload, hhead, map_some]
      · rw [update_of_ne hsame, ← hmap key]
        split_ifs with hbucket
        · rw [getFrom, walk, hhead, getFrom]
          dsimp only
          rw [if_neg (Ne.symm hsame), hbucket]
          rw [walk_fuel (fun hi => hnext (lt_of_lt_of_le hi
            (le_trans (hstaged _) (le_add_right _ _)))) (hstaged _) (le_refl _)]
        · rfl

/-- The batch can go in: its keys are new and different. -/
structure Fits (t : Table K B V) (batch : List (K × V)) : Prop where
  nodup : (batch.map Prod.fst).Nodup
  fresh : ∀ entry ∈ batch, entry.1 ∉ t.keys

/-- A table with the records of a batch in use and some of its heads. -/
theorem batch_published (hsound : t.Sound) (hfits : t.Fits batch)
    (hcount : T.count = t.count + batch.length)
    (hbelow : ∀ i < t.count, T.slots[i]? = t.slots[i]?)
    (hslots : ∀ {j slot}, (t.thread bucketOf batch t.count ∅).1[j]? =
      some slot → T.slots[t.count + j]? = some slot)
    (hlen : t.count + batch.length ≤ T.slots.length)
    (hheads : ∀ bucket, T.heads bucket = t.heads bucket ∨ T.heads bucket =
      t.headOf (t.thread bucketOf batch t.count ∅).2 bucket) :
    T.Sound ∧ T.keys = t.keys ++ batch.map fst ∧
      (∀ key, T.get bucketOf key = t.get bucketOf key ∨
        T.get bucketOf key = updateAll (t.get bucketOf) batch key) ∧
      ((∀ bucket, T.heads bucket =
          t.headOf (t.thread bucketOf batch t.count ∅).2 bucket) →
        T.get bucketOf = updateAll (t.get bucketOf) batch) := by
  have hempty : ∀ bucket, t.headOf ∅ bucket ≤ t.count := by
    intro bucket
    rw [headOf, lookup_empty, getD_none]
    exact hsound.heads_le bucket
  obtain ⟨hlinks, hstaged⟩ := thread_le t.count ∅ hempty
  have hnext : ∀ {i slot}, i < t.count + batch.length →
      T.slots[i]? = some slot → slot.next ≤ i := by
    intro i slot hi hslot
    by_cases hlt : i < t.count
    · rw [hbelow i hlt] at hslot
      exact hsound.next_le hlt hslot
    · obtain ⟨j, rfl⟩ := Nat.exists_eq_add_of_le (Nat.le_of_not_lt hlt)
      have hj : j < (t.thread bucketOf batch t.count ∅).1.length := by
        rw [length_thread]
        omega
      have hnew := hslots (getElem?_eq_getElem hj)
      rw [hslot] at hnew
      cases hnew
      exact hlinks (getElem?_eq_getElem hj)
  have hold : ∀ key, T.getFrom key (t.headOf ∅ (bucketOf key)) =
      t.get bucketOf key := by
    intro key
    rw [headOf, lookup_empty, getD_none]
    exact hsound.getFrom_congr hbelow (hsound.heads_le _)
  have hnew := thread_getFrom t.count ∅ _ hslots hnext hempty hold
  have hget (key : K) : T.get bucketOf key =
      T.getFrom key (T.heads (bucketOf key)) := rfl
  have hkeys : T.keys = t.keys ++ batch.map fst := by
    rw [keys, hcount, ← length_thread bucketOf t.count ∅,
      take_published hsound.count_le hbelow hslots, map_append, map_key_thread]
    rfl
  refine ⟨⟨hcount ▸ hlen, fun bucket => ?_, fun hlt hslot => ?_, ?_⟩,
    hkeys, fun key => ?_, fun hall => ?_⟩
  · rw [hcount]
    rcases hheads bucket with h | h <;> rw [h]
    · exact le_trans (hsound.heads_le bucket) (le_add_right _ _)
    · exact hstaged bucket
  · exact hnext (hcount ▸ hlt) hslot
  · rw [hkeys]
    apply List.Nodup.append hsound.nodup hfits.nodup
    intro key hused hnew
    obtain ⟨entry, hentry, rfl⟩ := mem_map.mp hnew
    exact hfits.fresh entry hentry hused
  · rw [hget]
    rcases hheads (bucketOf key) with h | h <;> rw [h]
    · left
      have := hold key
      rwa [headOf, lookup_empty, getD_none] at this
    · exact .inr (hnew key)
  · funext key
    rw [hget, hall]
    exact hnew key

/-- A batch whose records and count are written, with some of its heads. -/
theorem Sound.batch_heads (hsound : t.Sound)
    (hfits : t.Fits batch) (heads : List (Σ _ : B, Nat))
    (hsub : heads ⊆ (t.thread bucketOf batch t.count ∅).2.entries) :
    let T := t.writes (slotWrites t.count
      (t.thread bucketOf batch t.count ∅).1 ++
      [.count (t.count + batch.length)] ++
      heads.map fun head => .head head.1 head.2)
    T.Sound ∧ T.keys = t.keys ++ batch.map fst ∧
      (∀ key, T.get bucketOf key = t.get bucketOf key ∨
        T.get bucketOf key = updateAll (t.get bucketOf) batch key) ∧
      ((t.thread bucketOf batch t.count ∅).2.entries ⊆ heads →
        T.get bucketOf = updateAll (t.get bucketOf) batch) := by
  intro T
  obtain ⟨hslots, hbelow, hlen⟩ := getElem?_slotWrites t.count hsound.count_le
  set t₁ := t.writes (slotWrites t.count
    (t.thread bucketOf batch t.count ∅).1) with ht₁
  set t₂ := t₁.write (.count (t.count + batch.length)) with ht₂
  have hT : T = t₂.writes (heads.map fun head => .head head.1 head.2) := by
    rw [ht₂, ht₁]
    change t.writes _ = _
    rw [writes_append, writes_append]
    rfl
  obtain ⟨hkept, hcount⟩ := slots_writes_head (t := t₂) heads
  have htarget := heads_writes_head (t := t₂) heads
    (t.headOf (t.thread bucketOf batch t.count ∅).2) fun head hhead => by
      rw [headOf, mem_lookup_iff.mpr (hsub hhead), getD_some]
  have hold : t₂.heads = t.heads :=
    (agrees_slotWrites hsound.count_le _ fun _ => mem_slotWrites).1.heads
  rw [length_thread] at hlen
  rw [hold, ← hT] at htarget
  rw [← hT] at hkept hcount
  obtain ⟨hT', hkeys, hget, hall⟩ := batch_published (T := T) hsound hfits hcount
    (fun i hi => hkept ▸ hbelow i hi) (fun h => hkept ▸ hslots h)
    (hkept ▸ hlen) fun bucket => by
      rw [htarget]
      split_ifs
      · exact .inr rfl
      · exact .inl rfl
  refine ⟨hT', hkeys, hget, fun hfull => hall fun bucket => ?_⟩
  rw [htarget]
  split_ifs with hmem
  · rfl
  · rw [headOf, lookup_eq_none.mpr fun h => hmem ?_, getD_none]
    obtain ⟨head, hhead, rfl⟩ := mem_map.mp h
    exact mem_map_of_mem (hfull hhead)

/-- While a batch is being written, the table is sound, each key reads as
before or as after the batch, and only keys of the batch come into use. -/
theorem Sound.insertBatch_torn (hsound : t.Sound) (hfits : t.Fits batch)
    (horder : ∀ heads, (order heads).Perm heads) {ops : List (Write K B V)}
    (hops : ops <+: t.insertBatch bucketOf order batch) :
    (t.writes ops).Sound ∧
      (∀ key, (t.writes ops).get bucketOf key = t.get bucketOf key ∨
        (t.writes ops).get bucketOf key =
          updateAll (t.get bucketOf) batch key) ∧
      (t.writes ops).keys ⊆ t.keys ++ batch.map fst := by
  unfold insertBatch at hops
  split_ifs at hops
  · rw [prefix_nil.mp hops]
    exact ⟨hsound, fun _ => .inl rfl, subset_append_left ..⟩
  dsimp only at hops
  rw [append_assoc] at hops
  rcases prefix_append_cases hops with hslots | ⟨heads, rfl, hheads⟩
  · obtain ⟨hagrees, hlen⟩ := agrees_slotWrites hsound.count_le ops
      fun op hop => mem_slotWrites (hslots.subset hop)
    refine ⟨hagrees.sound hsound hlen,
      fun key => .inl (congrFun (hagrees.get hsound) key), ?_⟩
    rw [hagrees.keys]
    exact subset_append_left ..
  · change heads <+: List.map _ _ at hheads
    rw [prefix_iff_eq_take, ← map_take] at hheads
    obtain ⟨hT, hkeys, hget, -⟩ := hsound.batch_heads hfits
      ((order (t.thread bucketOf batch t.count ∅).2.entries).take heads.length)
      fun head hhead => (horder _).subset (mem_of_mem_take hhead)
    rw [← hheads, append_assoc] at hT hkeys hget
    exact ⟨hT, hget, fun _ hkey => hkeys ▸ hkey⟩

/-- A written batch is a sequence of updates of the map. -/
theorem Sound.insertBatch (hsound : t.Sound) (hfits : t.Fits batch)
    (horder : ∀ heads, (order heads).Perm heads) :
    (t.writes (t.insertBatch bucketOf order batch)).Sound ∧
      (t.writes (t.insertBatch bucketOf order batch)).keys =
        t.keys ++ batch.map fst ∧
      (t.writes (t.insertBatch bucketOf order batch)).get bucketOf =
        updateAll (t.get bucketOf) batch := by
  unfold Table.insertBatch
  split_ifs with h
  · rw [h]
    exact ⟨hsound, (append_nil _).symm, rfl⟩
  obtain ⟨hT, hkeys, -, hall⟩ := hsound.batch_heads hfits _
    (horder (t.thread bucketOf batch t.count ∅).2.entries).subset
  exact ⟨hT, hkeys, hall (horder _).symm.subset⟩

end Batch

section Linked

/-- Every record in use is linked, so that the map misses none of them. -/
def Linked (t : Table K B V) (bucketOf : K → B) : Prop :=
  ∀ key ∈ t.keys, t.get bucketOf key ≠ none

theorem linked_empty : Linked ({} : Table K B V) bucketOf :=
  fun _ h => absurd h not_mem_nil

theorem updateAll_append (batch batch' : List (K × V)) :
    updateAll map (batch ++ batch') = updateAll (updateAll map batch) batch' :=
  foldl_append

theorem updateAll_of_notMem (h : key ∉ batch.map fst) :
    updateAll map batch key = map key := by
  induction batch generalizing map with
  | nil => rfl
  | cons entry rest ih =>
    rw [map_cons, mem_cons, not_or] at h
    exact (ih h.2).trans (update_of_ne h.1 _ _)

theorem updateAll_update (h : key ∉ batch.map fst) (value : Option V) :
    updateAll (update map key value) batch =
      update (updateAll map batch) key value := by
  induction batch generalizing map with
  | nil => rfl
  | cons entry rest ih =>
    rw [map_cons, mem_cons, not_or] at h
    refine Eq.trans ?_ (ih h.2)
    exact congrArg (updateAll · rest) (update_comm h.1 _ _ _)

theorem updateAll_of_mem (hnodup : (batch.map fst).Nodup) {value : V}
    (h : (key, value) ∈ batch) : updateAll map batch key = some value := by
  induction batch generalizing map with
  | nil => cases h
  | cons entry rest ih =>
    rw [map_cons, nodup_cons] at hnodup
    rcases mem_cons.mp h with rfl | h
    · exact (updateAll_of_notMem hnodup.1).trans (update_self ..)
    · exact ih hnodup.2 h

theorem updateAll_ne_none (h : map key ≠ none ∨ key ∈ batch.map fst) :
    updateAll map batch key ≠ none := by
  induction batch generalizing map with
  | nil => exact h.resolve_right not_mem_nil
  | cons entry rest ih =>
    apply ih
    dsimp only
    by_cases hsame : key = entry.1
    · left
      rw [hsame, update_self]
      exact some_ne_none _
    · rw [update_of_ne hsame]
      exact h.imp_right fun hmem => mem_of_ne_of_mem hsame hmem

/-- Keys that the map does not hold can go in. -/
theorem Linked.fits (hlinked : t.Linked bucketOf)
    (hnodup : (batch.map fst).Nodup)
    (hnone : ∀ entry ∈ batch, t.get bucketOf entry.1 = none) :
    t.Fits batch :=
  ⟨hnodup, fun entry hentry hkey => hlinked _ hkey (hnone entry hentry)⟩

variable [DecidableEq B]

theorem Linked.write_payload (hlinked : t.Linked bucketOf) (hsound : t.Sound)
    {value : V} (h : t.find bucketOf key = some index) :
    (t.write (.payload index value)).Linked bucketOf := by
  intro key' hkey'
  rw [keys_write_payload] at hkey'
  rw [hsound.get_write_payload h]
  by_cases hsame : key' = key
  · rw [hsame, update_self]
    exact some_ne_none _
  · rw [update_of_ne hsame]
    exact hlinked key' hkey'

theorem Linked.insertBatch (hlinked : t.Linked bucketOf) (hsound : t.Sound)
    (hfits : t.Fits batch) (horder : ∀ heads, (order heads).Perm heads) :
    (t.writes (t.insertBatch bucketOf order batch)).Linked bucketOf := by
  obtain ⟨-, hkeys, hget⟩ := hsound.insertBatch hfits horder
  intro key hkey
  rw [hkeys] at hkey
  rw [hget]
  exact updateAll_ne_none ((mem_append.mp hkey).imp_left (hlinked key))

end Linked

end Table

/-- Staged records and their slots. -/
structure Staged (K V : Type) where
  records : List (K × V) := []
  index : K → Option Nat := fun _ => none

namespace Staged

open Table

def modify (pending : Staged K V) (slot : Nat) (f : V → V) : Staged K V :=
  { pending with
    records := pending.records.modify slot fun record =>
      (record.1, f record.2) }

/-- The slots are those of the records, one for each key. -/
structure Wf (pending : Staged K V) : Prop where
  nodup : (pending.records.map Prod.fst).Nodup
  index_iff : ∀ {key slot}, pending.index key = some slot ↔
    ∃ entry, pending.records[slot]? = some (key, entry)

variable {pending : Staged K V} {key : K} {entry : V}
  {slot : Nat} {f : V → V} {map : K → Option V}

theorem wf_empty : Wf ({} : Staged K V) := ⟨nodup_nil, by simp⟩

theorem Wf.index_eq_none_iff (h : pending.Wf) :
    pending.index key = none ↔ key ∉ pending.records.map Prod.fst := by
  constructor
  · intro hnone hmem
    obtain ⟨⟨key, entry⟩, hin, rfl⟩ := mem_map.mp hmem
    obtain ⟨slot, hslot⟩ := mem_iff_getElem?.mp hin
    rw [h.index_iff.mpr ⟨entry, hslot⟩] at hnone
    cases hnone
  · intro hout
    cases hindex : pending.index key with
    | none => rfl
    | some slot =>
      obtain ⟨entry, hslot⟩ := h.index_iff.mp hindex
      exact absurd (mem_map_of_mem (mem_of_getElem? hslot)) hout

theorem getElem?_modify (slot' : Nat) :
    (pending.modify slot f).records[slot']? = (pending.records[slot']?).map
      fun record =>
        if slot = slot' then (record.1, f record.2) else record := by
  rw [Staged.modify, List.getElem?_modify]
  rfl

theorem mem_modify {record : K × V}
    (h : record ∈ (pending.modify slot f).records) :
    ∃ old ∈ pending.records, record.1 = old.1 ∧
      (record.2 = old.2 ∨ record.2 = f old.2) := by
  obtain ⟨slot', hslot⟩ := mem_iff_getElem?.mp h
  rw [getElem?_modify, map_eq_some_iff] at hslot
  obtain ⟨old, hold, rfl⟩ := hslot
  refine ⟨old, mem_of_getElem? hold, ?_⟩
  split_ifs
  · exact ⟨rfl, .inr rfl⟩
  · exact ⟨rfl, .inl rfl⟩

theorem Wf.modify (h : pending.Wf) (slot : Nat) (f : V → V) :
    (pending.modify slot f).Wf where
  nodup := by
    dsimp only [Staged.modify]
    rw [map_modify]
    · exact h.nodup
    · exact fun _ => rfl
  index_iff {key slot'} := by
    refine h.index_iff.trans ?_
    rw [getElem?_modify]
    cases pending.records[slot']? with
    | none => simp
    | some record =>
      simp only [map_some, Option.some.injEq, Prod.ext_iff]
      split_ifs <;> simp

variable [DecidableEq K]

def push (pending : Staged K V) (key : K) (entry : V) : Staged K V :=
  { records := pending.records ++ [(key, entry)]
    index := Function.update pending.index key (some pending.records.length) }

theorem getElem?_concat_eq_some {items : List A} {item a : A} {i : Nat} :
    (items ++ [item])[i]? = some a ↔
      items[i]? = some a ∨ i = items.length ∧ item = a := by
  rcases Nat.lt_trichotomy i items.length with h | rfl | h
  · rw [getElem?_append_left h]
    exact (or_iff_left fun hi => Nat.ne_of_lt h hi.1).symm
  · rw [getElem?_concat_length, getElem?_eq_none (Nat.le_refl items.length)]
    simp
  · rw [getElem?_eq_none, getElem?_eq_none (Nat.le_of_lt h)]
    · simp [Nat.ne_of_gt h]
    · rw [length_append]
      exact h

theorem Wf.push (h : pending.Wf) (hnone : pending.index key = none)
    (entry : V) : (pending.push key entry).Wf where
  nodup := by
    rw [Staged.push, map_append, map_singleton]
    exact nodup_append.mpr ⟨h.nodup, nodup_singleton _, by
      rintro a ha b hb rfl
      rw [mem_singleton.mp hb] at ha
      exact h.index_eq_none_iff.mp hnone ha⟩
  index_iff {key' slot} := by
    change update pending.index key _ key' = some slot ↔
      ∃ e, (pending.records ++ [(key, entry)])[slot]? = some (key', e)
    by_cases hsame : key' = key
    · subst hsame
      rw [update_self]
      constructor
      · rintro ⟨⟩
        exact ⟨entry, getElem?_concat_length⟩
      · rintro ⟨e, he⟩
        rcases getElem?_concat_eq_some.mp he with hin | ⟨hslot, -⟩
        · rw [h.index_iff.mpr ⟨e, hin⟩] at hnone
          cases hnone
        · rw [hslot]
    · rw [update_of_ne hsame, h.index_iff]
      refine exists_congr fun e => ?_
      rw [getElem?_concat_eq_some]
      refine (or_iff_left ?_).symm
      rintro ⟨-, hnew⟩
      exact hsame (Prod.mk.inj hnew).1.symm

theorem updateAll_push : updateAll map (pending.push key entry).records =
    Function.update (updateAll map pending.records) key (some entry) :=
  updateAll_append _ _

theorem Wf.staged (h : pending.Wf) (hindex : pending.index key = some slot) :
    ∃ entry, pending.records[slot]? = some (key, entry) ∧
      updateAll map pending.records key = some entry := by
  obtain ⟨entry, hslot⟩ := h.index_iff.mp hindex
  exact ⟨entry, hslot, updateAll_of_mem h.nodup (mem_of_getElem? hslot)⟩

theorem Wf.updateAll_modify (h : pending.Wf)
    (hindex : pending.index key = some slot) :
    updateAll map (pending.modify slot f).records =
      Function.update (updateAll map pending.records) key
        ((updateAll map pending.records key).map f) := by
  have hwf := h.modify slot f
  obtain ⟨entry, hslot, hstaged⟩ := h.staged hindex
  rw [hstaged]
  funext key'
  by_cases hsame : key' = key
  · subst hsame
    rw [update_self]
    refine updateAll_of_mem hwf.nodup (mem_of_getElem? (i := slot) ?_)
    rw [getElem?_modify, hslot, map_some, if_pos rfl]
  rw [update_of_ne hsame]
  cases hkey : pending.index key' with
  | none =>
    rw [updateAll_of_notMem (h.index_eq_none_iff.mp hkey),
      updateAll_of_notMem (hwf.index_eq_none_iff.mp hkey)]
  | some slot' =>
    obtain ⟨entry', hslot', hstaged'⟩ := h.staged hkey
    rw [hstaged']
    refine updateAll_of_mem hwf.nodup (mem_of_getElem? (i := slot') ?_)
    rw [getElem?_modify, hslot', map_some, if_neg]
    rintro rfl
    rw [hslot] at hslot'
    cases hslot'
    exact hsame rfl

end Staged

end ChainedTable
