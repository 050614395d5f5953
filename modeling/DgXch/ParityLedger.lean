/-
A ledger of keyed entries that is checked by parity: only whether every entry
occurs an even number of times in all, which fixes what is left if each key is
made once.
-/
import Mathlib.Algebra.BigOperators.Ring.Nat
import Mathlib.Data.List.Perm.Subperm
import Mathlib.Tactic.Ring

namespace ParityLedger

open List Prod Nat

variable {A B : Type} [DecidableEq A] {list : List (A × B)} {a : A} {b : B}

theorem filter_fst_of_nodup (hnodup : (list.map fst).Nodup)
    (hmem : (a, b) ∈ list) : list.filter (·.1 = a) = [(a, b)] := by
  induction list with
  | nil => cases hmem
  | cons head tail ih =>
    obtain ⟨hhead, htail⟩ := nodup_cons.mp hnodup
    rcases mem_cons.mp hmem with rfl | hmem
    · have hnone : tail.filter (·.1 = a) = [] := by
        apply filter_eq_nil_iff.mpr
        intro entry hentry hsame
        exact hhead (mem_map.mpr ⟨entry, hentry, of_decide_eq_true hsame⟩)
      simp [hnone]
    · have hother : head.1 ≠ a := by
        rintro rfl
        exact hhead (mem_map.mpr ⟨_, hmem, rfl⟩)
      simp [hother, ih htail hmem]

/-- What is not taken, counted. -/
theorem length_filter_notMem {list taken : List A} (hnodup : list.Nodup)
    (htaken : taken.Nodup) (hsubset : taken ⊆ list) :
    (list.filter (· ∉ taken)).length = list.length - taken.length := by
  have hcounts := subperm_ext_iff.mp (htaken.subperm hsubset)
  have hperm := subperm_append_diff_self_of_count_le hcounts
  rw [← hnodup.sdiff_eq_filter, ← hperm.length_eq, length_append]
  exact (Nat.add_sub_cancel_left ..).symm

variable [DecidableEq B]

theorem count_flatMap_filter_fst (keys : List A) (entry : A × B) :
    (keys.flatMap fun key => list.filter (·.1 = key)).count entry =
      keys.count entry.1 * list.count entry := by
  induction keys with
  | nil => simp
  | cons key keys ih =>
    rw [flatMap_cons, count_append, ih, count_cons]
    by_cases hkey : entry.1 = key
    · rw [count_filter (by simpa using hkey), if_pos (by simp [hkey])]
      ring
    · have hnone : (list.filter (·.1 = key)).count entry = 0 := by
        rw [count_eq_zero]
        intro hmem
        exact hkey (by simpa using (mem_filter.mp hmem).2)
      rw [hnone, if_neg (by simpa using Ne.symm hkey)]
      ring

/-- Entries that are made, taken and left, in even numbers all together: what is
left is what was made and not taken, and a key that is taken is taken an odd
number of times. -/
structure Balanced (made taken : List (A × B)) (left : List A) : Prop where
  fresh : (made.map Prod.fst).Nodup
  known : ∀ a ∈ taken.map Prod.fst, a ∈ made.map Prod.fst
  length : left.length =
    ((made.map Prod.fst).filter (· ∉ taken.map Prod.fst)).length
  even : ∀ entry, Even (made.count entry + taken.count entry +
    left.count entry.1 * made.count entry)

variable {made taken : List (A × B)} {left : List A}

omit [DecidableEq B] in
omit [DecidableEq A] in
theorem snd_eq_of_nodup (hnodup : (list.map fst).Nodup) {b b' : B}
    (hmem : (a, b) ∈ list) (hmem' : (a, b') ∈ list) : b = b' :=
  (mk.inj (inj_on_of_nodup_map hnodup hmem hmem' rfl)).2

section

variable (h : Balanced made taken left)

include h

theorem Balanced.even_of_mem {entry : A × B} (hmem : entry ∈ made) :
    Even (1 + taken.count entry + left.count entry.1) := by
  have hone : made.count entry = 1 :=
    count_eq_one_of_mem (List.Nodup.of_map _ h.fresh) hmem
  have heven := h.even entry
  rwa [hone, mul_one] at heven

theorem Balanced.left_perm :
    left.Perm ((made.map fst).filter (· ∉ taken.map fst)) := by
  have hsubset : (made.map fst).filter (· ∉ taken.map fst) ⊆ left := by
    intro a ha
    obtain ⟨hmade, htaken⟩ := mem_filter.mp ha
    obtain ⟨⟨_, b⟩, hmem, rfl⟩ := mem_map.mp hmade
    have hnone : taken.count (_, b) = 0 := count_eq_zero.mpr fun hin =>
      of_decide_eq_true htaken (mem_map_of_mem hin)
    have heven := h.even_of_mem hmem
    rw [hnone] at heven
    apply count_pos_iff.mp
    by_contra hzero
    rw [Nat.eq_zero_of_not_pos hzero] at heven
    exact absurd heven (by decide)
  have hsubperm := (h.fresh.filter _).subperm hsubset
  exact (hsubperm.perm_of_length_le h.length.le).symm

/-- A taken entry is taken an odd number of times with the value it was made
with. -/
theorem Balanced.odd_of_taken (hmem : (a, b) ∈ made)
    (htaken : a ∈ taken.map fst) : Odd (taken.count (a, b)) := by
  have hnone : left.count a = 0 := by
    rw [h.left_perm.count_eq, count_eq_zero]
    intro hin
    exact of_decide_eq_true (mem_filter.mp hin).2 htaken
  have heven := h.even_of_mem hmem
  rw [hnone, add_zero, even_add] at heven
  rw [← not_even_iff_odd]
  intro hcount
  exact absurd (heven.mpr hcount) (by decide)

theorem Balanced.odd_count (htaken : a ∈ taken.map fst) :
    Odd ((taken.map fst).count a) := by
  obtain ⟨b, hmade⟩ : ∃ b, (a, b) ∈ made := by simpa using h.known a htaken
  have hodd := h.odd_of_taken hmade htaken
  have hlength : (taken.map fst).count a =
      ∑ entry ∈ (taken.filter (·.1 = a)).toFinset, taken.count entry := by
    rw [List.count, countP_map, countP_eq_length_filter,
      ← sum_toFinset_count_eq_length]
    apply Finset.sum_congr rfl
    intro entry hentry
    convert count_filter (mem_filter.mp (mem_toFinset.mp hentry)).2
  -- the value it was made with is the only one with an odd count
  have hvalues : ((taken.filter (·.1 = a)).toFinset.filter fun entry =>
      Odd (taken.count entry)) = {(a, b)} := by
    ext ⟨x, y⟩
    simp only [Finset.mem_filter, mem_toFinset, Finset.mem_singleton,
      mem_filter, decide_eq_true_eq]
    constructor
    · rintro ⟨⟨-, rfl⟩, hcount⟩
      by_contra hother
      have hnone : made.count (x, y) = 0 := count_eq_zero.mpr fun hin =>
        hother (by rw [snd_eq_of_nodup h.fresh hin hmade])
      have heven := h.even (x, y)
      rw [hnone, mul_zero, zero_add, add_zero] at heven
      exact not_even_iff_odd.mpr hcount heven
    · rintro ⟨⟩
      exact ⟨⟨count_pos_iff.mp (Odd.pos hodd), rfl⟩, hodd⟩
  rw [hlength, Finset.odd_sum_iff_odd_card_odd, hvalues]
  exact odd_one

variable (hodd : ∀ a, Odd ((taken.map fst).count a) →
  (taken.map fst).count a = 1)

include hodd

theorem Balanced.taken_nodup : (taken.map fst).Nodup := by
  rw [nodup_iff_count_le_one]
  intro a
  by_cases htaken : a ∈ taken.map fst
  · exact (hodd a (h.odd_count htaken)).le
  · rw [count_eq_zero.mpr htaken]
    exact zero_le _

theorem Balanced.taken_made (hentry : (a, b) ∈ taken) : (a, b) ∈ made := by
  have htaken : a ∈ taken.map fst := mem_map_of_mem hentry
  obtain ⟨b', hmade⟩ : ∃ b', (a, b') ∈ made := by simpa using h.known a htaken
  have htrue : (a, b') ∈ taken :=
    count_pos_iff.mp (Odd.pos (h.odd_of_taken hmade htaken))
  rwa [snd_eq_of_nodup (h.taken_nodup hodd) hentry htrue]

end

end ParityLedger
