/-
The iterations of a sub-slot (`pot_iterations.rs`).  The signage points of a
sub-slot stand at the multiples of an interval.  A block is infused some
intervals and its required iterations after its signage point, and in the next
sub-slot if this one ends before.
-/
import DgXch.CoinRecords

namespace DgXch

open Nat BlockRecord

/-- The constants that `pot_iterations.rs` reads. -/
structure PotConstants where
  numSpsSubSlot : UInt32
  numSpIntervalsExtra : UInt64
deriving Repr, DecidableEq

def potError (message : String) : IoResult A :=
  .error (.error ⟨.invalidData, message⟩)

section Source

variable (constants : PotConstants) (subSlotIters : UInt64)
  (signagePointIndex : UInt8) (requiredIters : UInt64)

/-- Whether a block is infused in the sub-slot after its signage point. -/
def isOverflowBlock : IoResult Bool :=
  if constants.numSpsSubSlot ≤ signagePointIndex.toUInt32 then
    potError "SP index too high"
  else
    .ok (constants.numSpsSubSlot.toUInt64 - constants.numSpIntervalsExtra ≤
      signagePointIndex.toUInt64)

/-- The iterations from one signage point to the next. -/
def calculateSpIntervalIters : IoResult UInt64 :=
  let sps := constants.numSpsSubSlot.toUInt64
  -- zero is a multiple of zero, but not divided by it
  if subSlotIters % sps ≠ 0 then
    potError s!"Invalid SubSlot Iterations: {subSlotIters}"
  else if sps = 0 then .error (.panic "attempt to divide by zero")
  else .ok (subSlotIters / sps)

/-- Where a signage point stands in its sub-slot. -/
def calculateSpIters : IoResult UInt64 :=
  if constants.numSpsSubSlot ≤ signagePointIndex.toUInt32 then
    potError "SP index too high"
  else do
    let spIntervalIters ← calculateSpIntervalIters constants subSlotIters
    .ok (spIntervalIters * signagePointIndex.toUInt64)

/-- Where a block is infused in a sub-slot. -/
def calculateIpIters : IoResult UInt64 := do
  let spIters ← calculateSpIters constants subSlotIters signagePointIndex
  let spIntervalIters ← calculateSpIntervalIters constants subSlotIters
  if spIntervalIters = 0 then
    .error (.panic
      "attempt to calculate the remainder with a divisor of zero")
  else if spIters % spIntervalIters ≠ 0 ∨ subSlotIters ≤ spIters then
    potError s!"Invalid sp iters {spIters} for this ssi {subSlotIters}"
  else if spIntervalIters ≤ requiredIters ∨ requiredIters = 0 then
    potError (s!"Required iters {requiredIters} is not below the sp " ++
      s!"interval iters {spIntervalIters}, {subSlotIters} or not > 0.")
  else
    .ok ((spIters + constants.numSpIntervalsExtra * spIntervalIters +
      requiredIters) % subSlotIters)

namespace BlockRecord

variable (r : BlockRecord)

def ipIters : IoResult UInt64 :=
  calculateIpIters constants r.subSlotIters r.signagePointIndex
    r.requiredIters

def spIters : IoResult UInt64 :=
  calculateSpIters constants r.subSlotIters r.signagePointIndex

/-- The total at the start of the sub-slot of the infusion point. -/
def ipSubSlotTotalIters : IoResult Nat := do
  let ip ← r.ipIters constants
  if ip.toNat ≤ r.totalIters then .ok (r.totalIters - ip.toNat)
  else potError "u128 underflow in ip_sub_slot_total_iters"

/-- The total at the start of the sub-slot of the signage point. -/
def spSubSlotTotalIters : IoResult Nat := do
  let ret ← r.ipSubSlotTotalIters constants
  if r.overflow then
    if r.subSlotIters.toNat ≤ ret then .ok (ret - r.subSlotIters.toNat)
    else potError "u128 underflow in sp_sub_slot_total_iters"
  else .ok ret

/-- The total at the signage point. -/
def spTotalIters : IoResult Nat := do
  let start ← r.spSubSlotTotalIters constants
  let sp ← r.spIters constants
  if start + sp.toNat < 2 ^ 128 then .ok (start + sp.toNat)
  else potError "u128 overflow in sp_total_iters"

end BlockRecord

end Source

/-- Where a block is infused in a sub-slot of `sps` intervals, `extra` of them
after the one of its signage point. -/
theorem infusion_mod {interval sps index extra required : Nat}
    (hrequired : required < interval) :
    (interval * index + extra * interval + required) % (interval * sps) =
      interval * ((index + extra) % sps) + required := by
  have hsum : interval * index + extra * interval + required =
      interval * (index + extra) + required := by ring
  rw [hsum, mod_mul, mul_add_mod, mod_eq_of_lt hrequired,
    mul_add_div (by omega), div_eq_of_lt hrequired, add_zero, add_comm]

theorem infusion_lt_iff {interval sps index extra required : Nat}
    (hrequired : required < interval) (hindex : index < sps)
    (hextra : extra < sps) :
    interval * ((index + extra) % sps) + required < interval * index ↔
      sps - extra ≤ index := by
  by_cases hwraps : sps ≤ index + extra
  · have hmod : (index + extra) % sps = index + extra - sps := by
      rw [mod_eq_sub_mod hwraps, mod_eq_of_lt (by omega)]
    have hle : interval * (index + extra - sps + 1) ≤ interval * index :=
      mul_le_mul_left _ (by omega)
    rw [mul_add_one] at hle
    rw [hmod]
    exact iff_of_true (by omega) (by omega)
  · have hle : interval * index ≤ interval * (index + extra) :=
      mul_le_mul_left _ (by omega)
    rw [mod_eq_of_lt (by omega)]
    exact iff_of_false (by omega) (by omega)

/-- A sum below two sub-slots that passes `2 ^ 64` is reduced to another
remainder: the sub-slot is shorter than `2 ^ 64`. -/
theorem wrapped_mod_eq_iff {slot total : Nat} (hslot : slot < 2 ^ 64)
    (htotal : total < 2 * slot) :
    total % 2 ^ 64 % slot = total % slot ↔ total < 2 ^ 64 := by
  refine ⟨fun hsame => ?_, fun hlt => by rw [mod_eq_of_lt hlt]⟩
  by_contra hpasses
  rw [mod_eq_sub_mod (Nat.le_of_not_lt hpasses),
    mod_eq_of_lt (by omega : total - 2 ^ 64 < 2 ^ 64),
    mod_eq_of_lt (by omega : total - 2 ^ 64 < slot),
    mod_eq_sub_mod (by omega : slot ≤ total),
    mod_eq_of_lt (by omega : total - slot < slot)] at hsame
  omega

section Infusion

variable {c : PotConstants} {slot : UInt64} {index : UInt8}
  (hextra : c.numSpIntervalsExtra.toNat < c.numSpsSubSlot.toNat)
  (hiters : 0 < slot.toNat) (hmultiple : c.numSpsSubSlot.toNat ∣ slot.toNat)
  (hindex : index.toNat < c.numSpsSubSlot.toNat)

include hextra hindex in
theorem isOverflowBlock_eq :
    isOverflowBlock c index = .ok (decide (c.numSpsSubSlot.toNat -
      c.numSpIntervalsExtra.toNat ≤ index.toNat)) := by
  have hle : c.numSpIntervalsExtra ≤ c.numSpsSubSlot.toUInt64 :=
    UInt64.le_iff_toNat_le.mpr hextra.le
  simp only [isOverflowBlock, UInt32.le_iff_toNat_le, UInt64.le_iff_toNat_le,
    UInt64.toNat_sub_of_le _ _ hle,
    UInt32.toNat_toUInt64, UInt8.toNat_toUInt32, UInt8.toNat_toUInt64,
    hindex.not_ge, ↓reduceIte]

include hextra hiters hmultiple hindex in
theorem calculateSpIters_ok :
    ∃ interval sp, calculateSpIntervalIters c slot = .ok interval ∧
      calculateSpIters c slot index = .ok sp ∧
      interval.toNat = slot.toNat / c.numSpsSubSlot.toNat ∧
      0 < interval.toNat ∧
      slot.toNat = interval.toNat * c.numSpsSubSlot.toNat ∧
      sp.toNat = interval.toNat * index.toNat ∧ sp.toNat < slot.toNat := by
  have hsps : 0 < c.numSpsSubSlot.toNat := Nat.zero_lt_of_lt hextra
  obtain ⟨interval, hvalue⟩ : ∃ interval, interval =
    slot / c.numSpsSubSlot.toUInt64 := ⟨_, rfl⟩
  have hinterval : calculateSpIntervalIters c slot = .ok interval := by
    have hdivides : slot % c.numSpsSubSlot.toUInt64 = 0 := by
      rw [← UInt64.toNat_inj, UInt64.toNat_mod, UInt32.toNat_toUInt64]
      exact Nat.mod_eq_zero_of_dvd hmultiple
    have hnonzero : c.numSpsSubSlot.toUInt64 ≠ 0 := by
      rw [← UInt64.toNat_inj.ne, UInt32.toNat_toUInt64]
      exact hsps.ne'
    simp only [calculateSpIntervalIters, hdivides, hnonzero, hvalue, ne_eq,
      not_true_eq_false, ↓reduceIte]
  have hdiv : interval.toNat = slot.toNat / c.numSpsSubSlot.toNat := by
    rw [hvalue, UInt64.toNat_div, UInt32.toNat_toUInt64]
  have hslot : slot.toNat = interval.toNat * c.numSpsSubSlot.toNat := by
    rw [hdiv, Nat.div_mul_cancel hmultiple]
  have hpos : 0 < interval.toNat :=
    hdiv ▸ Nat.div_pos (Nat.le_of_dvd hiters hmultiple) hsps
  have hlt : interval.toNat * index.toNat < slot.toNat :=
    hslot ▸ Nat.mul_lt_mul_of_pos_left hindex hpos
  have hsp : (interval * index.toUInt64).toNat =
      interval.toNat * index.toNat := by
    rw [UInt64.toNat_mul, UInt8.toNat_toUInt64,
      mod_eq_of_lt (hlt.trans slot.toNat_lt)]
  refine ⟨interval, _, hinterval, ?_, hdiv, hpos, hslot, hsp, hsp ▸ hlt⟩
  simp only [calculateSpIters, UInt32.le_iff_toNat_le, UInt8.toNat_toUInt32,
    hindex.not_ge, ↓reduceIte, hinterval]
  rfl

include hextra hiters hmultiple hindex in
theorem calculateIpIters_cases (required : UInt64) :
    let interval := slot.toNat / c.numSpsSubSlot.toNat
    if 0 < required.toNat ∧ required.toNat < interval then
      ∃ ip, calculateIpIters c slot index required = .ok ip ∧
        ip.toNat = (interval * index.toNat + c.numSpIntervalsExtra.toNat *
          interval + required.toNat) % 2 ^ 64 % slot.toNat
    else ∃ message,
      calculateIpIters c slot index required = potError message := by
  obtain ⟨interval, sp, hinterval, hsp, hdiv, hpos, -, hspNat, hspLt⟩ :=
    calculateSpIters_ok hextra hiters hmultiple hindex
  have hnonzero : interval ≠ 0 := by
    rintro rfl
    exact absurd hpos (lt_irrefl 0)
  have hvalid : ¬ (sp % interval ≠ 0 ∨ slot ≤ sp) := by
    rw [not_or, not_not, ← UInt64.toNat_inj, UInt64.toNat_mod, hspNat,
      UInt64.not_le, UInt64.lt_iff_toNat_lt]
    exact ⟨mul_mod_right _ _, hspLt⟩
  have hcases : (interval ≤ required ∨ required = 0) ↔
      ¬ (0 < required.toNat ∧ required.toNat < interval.toNat) := by
    rw [UInt64.le_iff_toNat_le, ← UInt64.toNat_inj, UInt64.toNat_zero]
    omega
  simp only [calculateIpIters, hsp, hinterval, bind, Except.bind, hnonzero,
    hvalid, hcases, ← hdiv, ↓reduceIte]
  split
  case isFalse hrefused => exact ⟨_, rfl⟩
  case isTrue hrequired =>
    refine ⟨_, rfl, ?_⟩
    rw [UInt64.toNat_mod, UInt64.toNat_add, UInt64.toNat_add,
      UInt64.toNat_mul, hspNat]
    simp only [add_mod_mod, mod_add_mod]

theorem BlockRecord.totals_eq {record : BlockRecord} {ip sp : UInt64}
    (hip : record.ipIters c = .ok ip) (hsp : record.spIters c = .ok sp)
    (henough : ip.toNat + record.subSlotIters.toNat ≤ record.totalIters) :
    let start := record.totalIters - ip.toNat -
      if record.overflow then record.subSlotIters.toNat else 0
    record.ipSubSlotTotalIters c = .ok (record.totalIters - ip.toNat) ∧
    record.spTotalIters c =
      if start + sp.toNat < 2 ^ 128 then .ok (start + sp.toNat)
      else potError "u128 overflow in sp_total_iters" := by
  intro start
  have hslot : record.ipSubSlotTotalIters c =
      .ok (record.totalIters - ip.toNat) := by
    simp only [ipSubSlotTotalIters, hip, bind, Except.bind]
    exact if_pos (by omega)
  have hstart : record.spSubSlotTotalIters c = .ok start := by
    simp only [spSubSlotTotalIters, hslot, bind, Except.bind]
    have hle : record.subSlotIters.toNat ≤ record.totalIters - ip.toNat := by
      omega
    cases hoverflow : record.overflow <;> simp [start, hoverflow, hle]
  refine ⟨hslot, ?_⟩
  simp only [spTotalIters, hstart, hsp, bind, Except.bind]

include hextra hiters hmultiple hindex

/-- The infusion point is computed for the required iterations below the
interval, zero excepted.  It stands where it should exactly when the sum it is
the remainder of stays below `2 ^ 64`; a record's totals are then derived from
it without an underflow. -/
theorem calculateIpIters_infuses_iff (required : UInt64) :
    let computed : IoResult UInt64 := calculateIpIters c slot index required
    let interval := slot.toNat / c.numSpsSubSlot.toNat
    let spIters := interval * index.toNat
    let total := spIters + c.numSpIntervalsExtra.toNat * interval +
      required.toNat
    ((∃ ip, computed = .ok ip) ↔
      0 < required.toNat ∧ required.toNat < interval) ∧
    (∀ fault, computed = .error fault → ∃ error, fault = .error error) ∧
    (∃ sp, calculateSpIters c slot index = .ok sp ∧ sp.toNat = spIters) ∧
    ∀ ip, computed = .ok ip →
      (total < 2 ^ 64 ↔
        ip.toNat < slot.toNat ∧ ¬ interval ∣ ip.toNat ∧
        ip.toNat = total % slot.toNat ∧
        (ip.toNat < spIters ↔ isOverflowBlock c index = .ok true)) ∧
      ∀ record : BlockRecord, record.subSlotIters = slot →
        record.signagePointIndex = index → record.requiredIters = required →
        ip.toNat + slot.toNat ≤ record.totalIters →
        let start := record.totalIters - ip.toNat -
          if record.overflow then slot.toNat else 0
        record.ipSubSlotTotalIters c = .ok (record.totalIters - ip.toNat) ∧
        record.spTotalIters c =
          if start + spIters < 2 ^ 128 then .ok (start + spIters)
          else potError "u128 overflow in sp_total_iters" := by
  intro computed interval spIters total
  obtain ⟨interval', sp, -, hsp, hdiv, -, hslot, hspNat, -⟩ :=
    calculateSpIters_ok hextra hiters hmultiple hindex
  have hcases := calculateIpIters_cases hextra hiters hmultiple hindex required
  rw [hdiv] at hslot hspNat
  dsimp only at hcases
  split at hcases
  case isFalse hrefused =>
    obtain ⟨message, hmessage⟩ := hcases
    refine ⟨iff_of_false ?_ hrefused, fun fault hfault => ?_,
      ⟨sp, hsp, hspNat⟩, fun ip hip => absurd (hip.symm.trans hmessage) nofun⟩
    · rintro ⟨ip, hip⟩
      exact absurd (hip.symm.trans hmessage) nofun
    · exact ⟨_, Except.error.inj (hfault.symm.trans hmessage)⟩
  case isTrue hrequired =>
    obtain ⟨ip, hip, hvalue⟩ := hcases
    refine ⟨iff_of_true ⟨ip, hip⟩ hrequired,
      fun fault hfault => absurd (hip.symm.trans hfault) nofun,
      ⟨sp, hsp, hspNat⟩, fun ip' hip' => ?_⟩
    obtain rfl := Except.ok.inj (hip.symm.trans hip')
    refine ⟨?_, ?_⟩
    · have hmod : total % slot.toNat = interval * ((index.toNat +
          c.numSpIntervalsExtra.toNat) % c.numSpsSubSlot.toNat) +
            required.toNat := by
        rw [hslot]
        exact infusion_mod hrequired.2
      have hbelow : required.toNat < interval := hrequired.2
      have htotal : total < 2 * slot.toNat := by
        calc total < interval * (index.toNat +
              c.numSpIntervalsExtra.toNat + 1) := by
              simp only [total, spIters]
              linarith
          _ ≤ interval * (2 * c.numSpsSubSlot.toNat) :=
              mul_le_mul_left _ (by omega)
          _ = 2 * slot.toNat := by rw [hslot]; ring
      rw [← wrapped_mod_eq_iff slot.toNat_lt htotal, ← hvalue]
      refine ⟨fun hsame => ⟨?_, ?_, hsame, ?_⟩, fun h => h.2.2.1⟩
      · exact hsame ▸ Nat.mod_lt _ hiters
      · rw [hsame, hmod, Nat.dvd_add_right (Nat.dvd_mul_right _ _)]
        exact Nat.not_dvd_of_pos_of_lt hrequired.1 hrequired.2
      · rw [hsame, hmod, infusion_lt_iff hrequired.2 hindex hextra,
          isOverflowBlock_eq hextra hindex]
        simp
    · rintro record rfl rfl rfl henough
      rw [show spIters = sp.toNat from hspNat.symm]
      exact totals_eq hip hsp henough

end Infusion

/-- A block of the last signage point but one is infused in the next
sub-slot. -/
theorem calculateIpIters_infuses_next :
    2098152 < 62 * 2097152 ↔ isOverflowBlock ⟨64, 3⟩ 62 = .ok true :=
  (((@calculateIpIters_infuses_iff ⟨64, 3⟩ 134217728 62 (by decide)
    (by decide) (by decide) (by decide) 1000).2.2.2 2098152
    (by decide +kernel)).1.mp (by decide)).2.2.2

/-- In a sub-slot of almost `2 ^ 64` iterations the sum of a block at the last
signage point wraps, and its infusion point is computed 64 iterations early. -/
theorem calculateIpIters_wraps :
    calculateIpIters ⟨64, 3⟩ 18446744073709551552 63 288230376151711742 =
        .ok 864691128455135164 ∧
      (18446744073709551552 = 2 ^ 64 - 64 ∧ 288230376151711742 = 2 ^ 58 - 2) ∧
      (63 * (2 ^ 58 - 1) + 3 * (2 ^ 58 - 1) + (2 ^ 58 - 2)) %
        (2 ^ 64 - 64) = 864691128455135228 := by
  decide +kernel

end DgXch
