/-
Tables of rows under ids, as association lists, with sums over the rows and
reverse indices.
-/
import Mathlib.Algebra.BigOperators.Group.List.Basic
import Mathlib.Data.List.AList
import Mathlib.Data.List.Perm.Subperm
import Mathlib.Tactic.Ring

namespace KeyedTable

open List AList Option

universe u v w

/-- Rows under ids. -/
abbrev Table (I : Type u) (V : Type v) := AList fun _ : I => V

variable {I : Type u} {V : Type v} {table : Table I V} {row : V}

section Sums

variable [DecidableEq I]

/-- The sum of a measure over the rows. -/
def total (measure : V → Nat) (table : Table I V) : Nat :=
  (table.entries.map fun row => measure row.2).sum

variable {id : I}

/-- A row can be brought to the front of its table. -/
theorem entries_perm_of_lookup (h : table.lookup id = some row) :
    table.entries.Perm (⟨id, row⟩ :: (table.erase id).entries) := by
  have hmem : (⟨id, row⟩ : Sigma fun _ : I => V) ∈ table.entries :=
    mem_lookup_iff.mp h
  obtain ⟨row', left, right, _, hsplit, herase⟩ :=
    exists_of_kerase (mem_keys_of_mem hmem)
  have hrow : row = row' := by
    apply table.nodupKeys.eq_of_mk_mem hmem
    rw [hsplit]
    exact mem_append_right _ mem_cons_self
  change table.entries.Perm (_ :: kerase id table.entries)
  rw [herase, hsplit, hrow]
  exact perm_middle

variable (measure : V → Nat)

theorem total_erase (h : table.lookup id = some row) :
    measure row + total measure (table.erase id) = total measure table := by
  unfold total
  rw [((entries_perm_of_lookup h).map _).sum_eq]
  rfl

theorem length_erase (h : table.lookup id = some row) :
    (table.erase id).entries.length + 1 = table.entries.length := by
  rw [(entries_perm_of_lookup h).length_eq]
  rfl

theorem total_insert_of_notMem (h : id ∉ table) :
    total measure (table.insert id row) =
      measure row + total measure table := by
  unfold total
  rw [entries_insert_of_notMem h]
  rfl

/-- Replacing a row by one of the same measure keeps the sum. -/
theorem total_insert_of_lookup {old : V} (h : table.lookup id = some old)
    (hmeasure : measure row = measure old) :
    total measure (table.insert id row) = total measure table := by
  rw [← total_erase measure h, ← hmeasure]
  rfl

theorem erase_of_notMem (h : id ∉ table) : table.erase id = table :=
  AList.ext (kerase_of_notMem_keys h)

/-- Erasing an id keeps the other rows in their order. -/
theorem entries_erase :
    (table.erase id).entries = table.entries.filter (·.1 ≠ id) := by
  obtain ⟨entries, hkeys⟩ := table
  change kerase id entries = _
  induction entries with
  | nil => rfl
  | cons head tail ih =>
    obtain ⟨hhead, htail⟩ := nodupKeys_cons.mp hkeys
    by_cases hid : id = head.1
    · rw [kerase_cons_eq hid, filter_cons_of_neg (by simp [hid])]
      refine (filter_eq_self.mpr fun entry hentry => ?_).symm
      have hne := ne_key.mp hhead entry hentry
      simp [hid, hne.symm]
    · rw [kerase_cons_ne hid, ih htail,
        filter_cons_of_pos (by simp [Ne.symm hid])]

/-- Each row is kept, changed or dropped. -/
def retain (keep : V → Option V) (table : Table I V) : Table I V where
  entries := table.entries.filterMap fun row =>
    (keep row.2).map (Sigma.mk row.1)
  nodupKeys := by
    rw [nodupKeys_iff_pairwise]
    refine (nodupKeys_iff_pairwise.mp table.nodupKeys).filterMap _ ?_
    intro row row' hne kept hkept kept' hkept'
    obtain ⟨_, -, rfl⟩ := Option.map_eq_some_iff.mp hkept
    obtain ⟨_, -, rfl⟩ := Option.map_eq_some_iff.mp hkept'
    exact hne

/-- Every row has a property. -/
def All (P : V → Prop) (table : Table I V) : Prop :=
  ∀ row ∈ table.entries, P row.2

variable {P : V → Prop}

theorem All.insert (h : All P table) (hrow : P row) (id : I) :
    All P (table.insert id row) :=
  forall_mem_cons.mpr ⟨hrow, fun other hother =>
    h other ((kerase_sublist _ _).subset hother)⟩

theorem All.erase (h : All P table) (id : I) : All P (table.erase id) :=
  fun other hother => h other ((kerase_sublist _ _).subset hother)

omit [DecidableEq I] in
theorem all_retain {keep : V → Option V} : All P (retain keep table) ↔
    ∀ row ∈ table.entries, ∀ kept, keep row.2 = some kept → P kept := by
  refine ⟨fun h row hrow kept hkept => h ⟨row.1, kept⟩
    (mem_filterMap.mpr ⟨row, hrow, by rw [hkept]; rfl⟩), fun h _ hmem => ?_⟩
  obtain ⟨row, hrow, hmap⟩ := mem_filterMap.mp hmem
  obtain ⟨kept, hkept, rfl⟩ := map_eq_some_iff.mp hmap
  exact h row hrow kept hkept

end Sums

section Index

variable {K : Type w} [DecidableEq I] [DecidableEq K]

/-- The ids filed under a key. -/
def owners (index : Table K (List I)) (key : K) : List I :=
  (index.lookup key).getD []

/-- Take an id off the list of one key; an empty list is dropped. -/
def dropOwner (id : I) (index : Table K (List I)) (key : K) :
    Table K (List I) :=
  match index.lookup key with
  | none => index
  | some owners =>
    let owners := owners.filter (· ≠ id)
    if owners = [] then index.erase key else index.insert key owners

/-- Put an id on the list of one key. -/
def addOwner (id : I) (index : Table K (List I)) (key : K) : Table K (List I) :=
  let owners := (index.lookup key).getD []
  index.insert key (if id ∈ owners then owners else owners ++ [id])

/-- No list of owners is empty or repeats an id. -/
def Tidy (index : Table K (List I)) : Prop :=
  ∀ key owners, index.lookup key = some owners → owners ≠ [] ∧ owners.Nodup

variable {index : Table K (List I)} {id other : I} {key k : K}

@[simp] theorem mem_owners_dropOwner :
    other ∈ owners (dropOwner id index k) key ↔
      other ∈ owners index key ∧ ¬ (key = k ∧ other = id) := by
  unfold dropOwner
  split
  · rename_i hnone
    by_cases hkey : key = k
    · subst hkey
      simp [owners, hnone]
    · simp [hkey]
  · rename_i held hheld
    extract_lets kept
    by_cases hkey : key = k
    · subst hkey
      have hkept : other ∈ kept ↔ other ∈ owners index key ∧ other ≠ id := by
        simp [kept, owners, hheld]
      split_ifs with hempty
      · simp only [owners, lookup_erase, getD_none,
          not_mem_nil, true_and, false_iff]
        rw [hempty] at hkept
        exact fun h => not_mem_nil (hkept.mpr h)
      · simp only [owners, lookup_insert, getD_some, true_and]
        exact hkept
    · have hne : key ≠ k := hkey
      split_ifs <;> simp [owners, lookup_erase_ne hne,
        lookup_insert_ne hne, hkey]

@[simp] theorem mem_owners_addOwner :
    other ∈ owners (addOwner id index k) key ↔
      other ∈ owners index key ∨ (key = k ∧ other = id) := by
  unfold addOwner
  by_cases hkey : key = k
  · subst hkey
    simp only [owners, lookup_insert, getD_some, true_and]
    split_ifs with hheld
    · constructor
      · exact .inl
      · rintro (h | rfl)
        · exact h
        · exact hheld
    · simp
  · simp [owners, lookup_insert_ne (Ne.intro hkey), hkey]

theorem Tidy.dropOwner (h : Tidy index) (id : I) (k : K) :
    Tidy (dropOwner id index k) := by
  intro key held hheld
  unfold KeyedTable.dropOwner at hheld
  split at hheld
  · exact h key held hheld
  · rename_i before hbefore
    dsimp only at hheld
    by_cases hkey : key = k
    · subst hkey
      split_ifs at hheld with hempty
      · simp at hheld
      · rw [lookup_insert] at hheld
        cases hheld
        exact ⟨hempty, (h key before hbefore).2.filter _⟩
    · split_ifs at hheld
      · rw [lookup_erase_ne hkey] at hheld
        exact h key held hheld
      · rw [lookup_insert_ne hkey] at hheld
        exact h key held hheld

theorem Tidy.addOwner (h : Tidy index) (id : I) (k : K) :
    Tidy (addOwner id index k) := by
  intro key held hheld
  unfold KeyedTable.addOwner at hheld
  by_cases hkey : key = k
  · subst hkey
    rw [lookup_insert] at hheld
    cases hheld
    have hnodup : ((index.lookup key).getD []).Nodup := by
      cases hlookup : index.lookup key with
      | none => exact nodup_nil
      | some before => exact (h key before hlookup).2
    split_ifs with hmem
    · exact ⟨ne_nil_of_mem hmem, hnodup⟩
    · exact ⟨by simp, nodup_append.mpr ⟨hnodup, by simp, fun a ha b hb => by
          rintro rfl
          exact hmem (mem_singleton.mp hb ▸ ha)⟩⟩
  · rw [lookup_insert_ne hkey] at hheld
    exact h key held hheld

theorem mem_owners_foldl_dropOwner (keys : List K) :
    other ∈ owners (keys.foldl (dropOwner id) index) key ↔
      other ∈ owners index key ∧ ¬ (key ∈ keys ∧ other = id) := by
  induction keys generalizing index with
  | nil => simp
  | cons head tail ih =>
    rw [foldl_cons, ih, mem_owners_dropOwner, mem_cons]
    tauto

theorem mem_owners_foldl_addOwner (keys : List K) :
    other ∈ owners (keys.foldl (addOwner id) index) key ↔
      other ∈ owners index key ∨ (key ∈ keys ∧ other = id) := by
  induction keys generalizing index with
  | nil => simp
  | cons head tail ih =>
    rw [foldl_cons, ih, mem_owners_addOwner, mem_cons]
    tauto

/-- The index files a row under exactly its keys. -/
structure IndexFor (keysOf : V → List K) (table : Table I V)
    (index : Table K (List I)) : Prop where
  mem_owners : ∀ {key : K} {id : I}, id ∈ owners index key ↔
    ∃ row, table.lookup id = some row ∧ key ∈ keysOf row
  tidy : Tidy index

namespace IndexFor

variable {keysOf : V → List K}

theorem empty : IndexFor keysOf (∅ : Table I V) (∅ : Table K (List I)) where
  mem_owners := by simp [owners]
  tidy := by
    intro key held h
    simp at h

section

variable (h : IndexFor keysOf table index)

include h

/-- A row leaves its table and its lists. -/
theorem erase (hrow : table.lookup id = some row) :
    IndexFor keysOf (table.erase id)
      ((keysOf row).foldl (dropOwner id) index) where
  mem_owners := by
    intro key other
    rw [mem_owners_foldl_dropOwner, h.mem_owners]
    by_cases hother : other = id
    · subst hother
      simp [hrow]
    · simp [lookup_erase_ne hother, hother]
  tidy := foldlRecOn _ _ h.tidy fun _ h key _ => h.dropOwner id key

/-- A new row joins its table and its lists. -/
theorem insert (hid : id ∉ table) (row : V) :
    IndexFor keysOf (table.insert id row)
      ((keysOf row).foldl (addOwner id) index) where
  mem_owners := by
    intro key other
    rw [mem_owners_foldl_addOwner, h.mem_owners]
    by_cases hother : other = id
    · subst hother
      simp [lookup_eq_none.mpr hid]
    · simp [lookup_insert_ne hother, hother]
  tidy := foldlRecOn _ _ h.tidy fun _ h key _ => h.addOwner id key

/-- A changed row that leaves one key and takes up another. -/
theorem rekey {row' : V} {left joined : K} (hrow : table.lookup id = some row)
    (hkeys : ∀ key, key ∈ keysOf row' ↔
      (key ∈ keysOf row ∧ key ≠ left) ∨ key = joined) :
    IndexFor keysOf (table.insert id row')
      (addOwner id (dropOwner id index left) joined) where
  mem_owners := by
    intro key other
    rw [mem_owners_addOwner, mem_owners_dropOwner, h.mem_owners]
    by_cases hother : other = id
    · subst hother
      simp [hrow, hkeys]
    · simp [lookup_insert_ne hother, hother]
  tidy := (h.tidy.dropOwner id left).addOwner id joined

end

end IndexFor

end Index

end KeyedTable
