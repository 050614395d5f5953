/-
Arithmetic on `SExpNumber`.  Every operation tries machine integers first and
falls back to unbounded ones, so it has four cases; each is shown to compute
the operation on the integers that its operands denote.
-/
import DgXch.ArenaRuns

namespace DgXch

open BigEndian TwosComplement Option Int SExpNumber List Arena

variable {a b : SExpNumber} {args args' : List NumberArg} {n : SExpNumber}
  {x y : Bytes} {v : Bytes}

def checkedAdd (l r : BitVec 128) : Option (BitVec 128) :=
  if l.saddOverflow r then none else some (l + r)

def checkedSub (l r : BitVec 128) : Option (BitVec 128) :=
  if l.ssubOverflow r then none else some (l - r)

def checkedMul (l r : BitVec 128) : Option (BitVec 128) :=
  if l.smulOverflow r then none else some (l * r)

def checkedDiv (l r : BitVec 128) : Option (BitVec 128) :=
  if r = 0 ∨ (l = BitVec.intMin 128 ∧ r = -1#128) then none
  else some (l.sdiv r)

/-- `i128::checked_rem`, which refuses what `checked_div` refuses. -/
def checkedRem (l r : BitVec 128) : Option (BitVec 128) :=
  if r = 0 ∨ (l = BitVec.intMin 128 ∧ r = -1#128) then none
  else some (l.srem r)

inductive Sign where
  | minus
  | noSign
  | plus
deriving Repr, DecidableEq

namespace SExpNumber

variable (checked : BitVec 128 → BitVec 128 → Option (BitVec 128))
  (big : Int → Int → Int)

/-- The shape of `+`, `-` and `*`: machine integers where they do not overflow,
unbounded ones otherwise. -/
def arith : SExpNumber → SExpNumber → SExpNumber
  | .i128 l, .i128 r =>
    match checked l r with
    | some v => .i128 v
    | none => .bigInt (big l.toInt r.toInt)
  | .bigInt l, .bigInt r => .bigInt (big l r)
  | .bigInt l, .i128 r => .bigInt (big l r.toInt)
  | .i128 l, .bigInt r => .bigInt (big l.toInt r)

def add : SExpNumber → SExpNumber → SExpNumber := arith checkedAdd (· + ·)

def addAssign : SExpNumber → SExpNumber → SExpNumber := arith checkedAdd (· + ·)

def sub : SExpNumber → SExpNumber → SExpNumber := arith checkedSub (· - ·)

def subAssign : SExpNumber → SExpNumber → SExpNumber := arith checkedSub (· - ·)

def mul : SExpNumber → SExpNumber → SExpNumber := arith checkedMul (· * ·)

def mulAssign : SExpNumber → SExpNumber → SExpNumber := arith checkedMul (· * ·)

/-- A division of `BigInt`s, which panics on zero. -/
def bigDivision (l r : Int) : ArenaResult SExpNumber :=
  if r = 0 then .error (.panic "attempt to divide by zero")
  else .ok (.bigInt (big l r))

/-- The shape of `/` and `%`. -/
def division : SExpNumber → SExpNumber → ArenaResult SExpNumber
  | .i128 l, .i128 r =>
    match checked l r with
    | some v => .ok (.i128 v)
    | none => bigDivision big l.toInt r.toInt
  | .bigInt l, .bigInt r => bigDivision big l r
  | .bigInt l, .i128 r => bigDivision big l r.toInt
  | .i128 l, .bigInt r => bigDivision big l.toInt r

def div : SExpNumber → SExpNumber → ArenaResult SExpNumber :=
  division checkedDiv Int.tdiv

def rem : SExpNumber → SExpNumber → ArenaResult SExpNumber :=
  division checkedRem Int.tmod

def sign : SExpNumber → Sign
  | .i128 i => if i = 0 then .noSign else if (0#128).slt i then .plus else .minus
  | .bigInt int => if int = 0 then .noSign else if 0 < int then .plus else .minus

def divModFloor (a b : SExpNumber) : ArenaResult (SExpNumber × SExpNumber) := do
  let d ← a.div b
  let r ← a.rem b
  if (r.sign = .plus ∧ b.sign = .minus) ∨
      (r.sign = .minus ∧ b.sign = .plus) then
    .ok (d.sub (.i128 1), r.add b)
  else .ok (d, r)

def eq : SExpNumber → SExpNumber → Bool
  | .i128 l, .i128 r => l = r
  | .bigInt l, .bigInt r => l = r
  | .bigInt l, .i128 r => l = r.toInt
  | .i128 l, .bigInt r => l.toInt = r

def cmp : SExpNumber → SExpNumber → Ordering
  | .i128 l, .i128 r => if l.slt r then .lt else if l = r then .eq else .gt
  | .bigInt l, .bigInt r => compare l r
  | .bigInt l, .i128 r => compare l r.toInt
  | .i128 l, .bigInt r => compare l.toInt r

/-- `limbs_for_num`: the bytes of the absolute value. -/
def limbsForNum : SExpNumber → Nat
  | .bigInt int => (int.natAbs.size + 7) / 8
  | .i128 i => (128 - (128 - i.toInt.natAbs.size) + 7) / 8

variable {checked : BitVec 128 → BitVec 128 → Option (BitVec 128)}
  {big : Int → Int → Int}

theorem arith_value
    (hchecked : ∀ l r v, checked l r = some v → v.toInt = big l.toInt r.toInt) :
    (arith checked big a b).value = big a.value b.value := by
  cases a with
  | i128 l =>
    cases b with
    | i128 r =>
      rw [arith]
      cases hfits : checked l r with
      | none => rfl
      | some v => exact hchecked l r v hfits
    | bigInt r => rfl
  | bigInt l => cases b <;> rfl

@[simp]
theorem value_add (a b : SExpNumber) : (a.add b).value = a.value + b.value := by
  apply arith_value
  intro l r v hfits
  simp only [checkedAdd, ite_none_left_eq_some, some.injEq] at hfits
  obtain ⟨hover, rfl⟩ := hfits
  exact BitVec.toInt_add_of_not_saddOverflow hover

@[simp]
theorem value_sub (a b : SExpNumber) : (a.sub b).value = a.value - b.value := by
  apply arith_value
  intro l r v hfits
  simp only [checkedSub, ite_none_left_eq_some, some.injEq] at hfits
  obtain ⟨hover, rfl⟩ := hfits
  exact BitVec.toInt_sub_of_not_ssubOverflow hover

@[simp]
theorem value_mul (a b : SExpNumber) : (a.mul b).value = a.value * b.value := by
  apply arith_value
  intro l r v hfits
  simp only [checkedMul, ite_none_left_eq_some, some.injEq] at hfits
  obtain ⟨hover, rfl⟩ := hfits
  exact BitVec.toInt_mul_of_not_smulOverflow hover

theorem division_value (hchecked : ∀ l r v, checked l r = some v →
      v.toInt = big l.toInt r.toInt) (hb : b.value ≠ 0) :
    ∃ q, division checked big a b = .ok q ∧ q.value = big a.value b.value := by
  have hbig (l r : Int) (hr : r ≠ 0) :
      ∃ q, bigDivision big l r = .ok q ∧ q.value = big l r :=
    ⟨_, if_neg hr, rfl⟩
  cases a with
  | i128 l =>
    cases b with
    | i128 r =>
      rw [division]
      cases hfits : checked l r with
      | none => exact hbig _ _ hb
      | some v => exact ⟨_, rfl, hchecked l r v hfits⟩
    | bigInt r => exact hbig _ _ hb
  | bigInt l => cases b <;> exact hbig _ _ hb

theorem div_value (hb : b.value ≠ 0) :
    ∃ q, a.div b = .ok q ∧ q.value = a.value.tdiv b.value := by
  apply division_value _ hb
  intro l r v hfits
  simp only [checkedDiv, ite_none_left_eq_some, some.injEq,
    not_or, not_and_or] at hfits
  obtain ⟨⟨-, hfits⟩, rfl⟩ := hfits
  exact BitVec.toInt_sdiv_of_ne_or_ne l r hfits

theorem rem_value (hb : b.value ≠ 0) :
    ∃ q, a.rem b = .ok q ∧ q.value = a.value.tmod b.value := by
  apply division_value _ hb
  intro l r v hfits
  simp only [checkedRem, ite_none_left_eq_some, some.injEq] at hfits
  obtain ⟨-, rfl⟩ := hfits
  exact BitVec.toInt_srem l r

theorem sign_eq :
    n.sign = if n.value = 0 then .noSign
      else if 0 < n.value then .plus else .minus := by
  cases n with
  | i128 i =>
    have hzero : i = 0 ↔ i.toInt = 0 := by
      rw [← BitVec.toInt_inj]
      rfl
    simp only [sign, value, hzero, BitVec.slt_iff_toInt_lt]
    rfl
  | bigInt int => rfl

theorem sign_eq_plus : n.sign = .plus ↔ 0 < n.value := by
  rw [sign_eq]
  split_ifs <;> simp <;> omega

theorem sign_eq_minus : n.sign = .minus ↔ n.value < 0 := by
  rw [sign_eq]
  split_ifs <;> simp <;> omega

/-- The truncated quotient is corrected where the remainder and the divisor
have opposite signs. -/
theorem floor_of_trunc {a b : Int} (hb : b ≠ 0) :
    (a.fdiv b, a.fmod b) =
      if (0 < a.tmod b ∧ b < 0) ∨ (a.tmod b < 0 ∧ 0 < b) then
        (a.tdiv b - 1, a.tmod b + b)
      else (a.tdiv b, a.tmod b) := by
  have hquotient : a.fdiv b =
      if (0 < a.tmod b ∧ b < 0) ∨ (a.tmod b < 0 ∧ 0 < b) then a.tdiv b - 1
      else a.tdiv b := by
    have hsign := sign_tmod a b
    rw [fdiv_eq_tdiv]
    by_cases hdvd : b ∣ a
    · have hzero := tmod_eq_zero_of_dvd hdvd
      simp [hdvd, hzero]
    · rw [if_neg hdvd] at hsign ⊢
      have hplus : 0 < a.tmod b ↔ 0 < a := by
        rw [← sign_eq_one_iff_pos, hsign, sign_eq_one_iff_pos]
      have hminus : a.tmod b < 0 ↔ a < 0 := by
        rw [← sign_eq_neg_one_iff_neg, hsign, sign_eq_neg_one_iff_neg]
      have ha : a ≠ 0 := fun h => hdvd (h ▸ dvd_zero b)
      simp only [hplus, hminus]
      rcases lt_or_gt_of_ne hb with hneg | hpos
      · have hsign := sign_eq_neg_one_of_neg hneg
        split_ifs <;> omega
      · have hsign := sign_eq_one_of_pos hpos
        split_ifs <;> omega
  rw [fmod_def, hquotient]
  have hsplit := mul_tdiv_add_tmod a b
  split_ifs with hopposite
  · rw [Prod.mk.injEq]
    refine ⟨rfl, ?_⟩
    linarith [mul_sub b (a.tdiv b) 1]
  · rw [Prod.mk.injEq]
    exact ⟨rfl, by linarith⟩

theorem divModFloor_value (hb : b.value ≠ 0) :
    ∃ q r, a.divModFloor b = .ok (q, r) ∧
      q.value = a.value.fdiv b.value ∧ r.value = a.value.fmod b.value := by
  obtain ⟨d, hd, hquotient⟩ := div_value (a := a) hb
  obtain ⟨r, hr, hremainder⟩ := rem_value (a := a) hb
  have hfloor := floor_of_trunc (a := a.value) hb
  have hopposite : ((r.sign = .plus ∧ b.sign = .minus) ∨
      (r.sign = .minus ∧ b.sign = .plus)) ↔
      (0 < r.value ∧ b.value < 0) ∨ (r.value < 0 ∧ 0 < b.value) := by
    rw [sign_eq_plus, sign_eq_minus, sign_eq_plus, sign_eq_minus]
  rw [← hquotient, ← hremainder] at hfloor
  rw [divModFloor, hd, Except.bind_ok, hr, Except.bind_ok]
  split_ifs at hfloor with hcase
  · obtain ⟨hq, hm⟩ := Prod.mk.inj hfloor
    rw [if_pos (hopposite.mpr hcase), hq, hm]
    exact ⟨_, _, rfl, value_sub d (.i128 1), value_add r b⟩
  · obtain ⟨hq, hm⟩ := Prod.mk.inj hfloor
    rw [if_neg (hopposite.not.mpr hcase), hq, hm]
    exact ⟨d, r, rfl, rfl, rfl⟩

theorem eq_iff (a b : SExpNumber) : a.eq b = true ↔ a.value = b.value := by
  cases a <;> cases b <;> simp [eq, value, BitVec.toInt_inj]

theorem cmp_eq (a b : SExpNumber) : a.cmp b = compare a.value b.value := by
  cases a with
  | bigInt l => cases b <;> rfl
  | i128 l =>
    cases b with
    | bigInt r => rfl
    | i128 r =>
      rw [cmp, value, value, compare_eq_ite_lt]
      simp only [BitVec.slt_iff_toInt_lt, ← BitVec.toInt_inj]
      split_ifs <;> first | rfl | omega

theorem limbsForNum_eq (n : SExpNumber) :
    n.limbsForNum = (n.value.natAbs.size + 7) / 8 := by
  cases n with
  | i128 i =>
    have hsize : i.toInt.natAbs.size ≤ 128 := by
      apply Nat.size_le.mpr
      have hupper := BitVec.toInt_lt (x := i)
      have hlower := BitVec.le_toInt (x := i)
      omega
    rw [limbsForNum, value, Nat.sub_sub_self hsize]
  | bigInt int => rfl

end SExpNumber

section Bytes

/-- Byte strings of one length that denote the same number are the same. -/
theorem eq_of_beInt_eq (hlength : x.length = y.length)
    (hvalue : beInt x = beInt y) : x = y := by
  have hnat : beNat x = beNat y := by
    have hx := beNat_lt x
    have hy := beNat_lt y
    rw [beInt, beInt, hlength] at hvalue
    rw [hlength] at hx
    zify at hx hy ⊢
    split_ifs at hvalue <;> omega
  have hbytes := beBytes_beNat x 0
  have hbytes' := beBytes_beNat y 0
  rw [hnat, hlength] at hbytes
  exact hbytes.symm.trans hbytes'

/-- Filling up with the sign is undone by stripping it. -/
theorem stripSign_fill (first : UInt8) (rest : Bytes) (count : Nat) :
    stripSign (replicate count (fillByte first) ++ first :: rest) =
      stripSign (first :: rest) := by
  induction count with
  | zero => rfl
  | succ count ih =>
    obtain ⟨second, tail, hsplit, hsign⟩ := fillByte_signByte first count
    rw [← ih, replicate_succ, cons_append, hsplit, stripSign, if_pos hsign]

/-- What is left after stripping depends on the number only. -/
theorem stripSign_congr (hx : x ≠ []) (hy : y ≠ [])
    (hvalue : beInt x = beInt y) : stripSign x = stripSign y := by
  obtain ⟨first, rest, rfl⟩ := exists_cons_of_ne_nil hx
  obtain ⟨head, tail, rfl⟩ := exists_cons_of_ne_nil hy
  rw [← stripSign_fill first rest (head :: tail).length,
    ← stripSign_fill head tail (first :: rest).length]
  congr 1
  apply eq_of_beInt_eq
  · simp only [length_append, length_replicate]
    omega
  · rw [beInt_fill, beInt_fill, hvalue]

theorem bigintToBytes_beInt {bytes : Bytes} (hne : bytes ≠ [])
    (hvalue : beInt bytes ≠ 0) :
    bigintToBytes (beInt bytes) = stripSign bytes := by
  rw [bigintToBytes, if_neg hvalue]
  apply stripSign_congr _ hne (beInt_intBytes _)
  intro hnil
  apply hvalue
  rw [← beInt_intBytes (beInt bytes), hnil]
  rfl

/-- No byte string that denotes a number is shorter than its encoding. -/
theorem length_bigintToBytes_minimal (bytes : Bytes) :
    (bigintToBytes (beInt bytes)).length ≤ bytes.length := by
  by_cases hzero : beInt bytes = 0
  · rw [bigintToBytes, if_pos hzero]
    exact Nat.zero_le _
  · have hne : bytes ≠ [] := by
      rintro rfl
      exact hzero rfl
    rw [bigintToBytes_beInt hne hzero]
    exact length_stripSign_le bytes

/-- Both representations are stored as the same bytes. -/
theorem SExpNumber.bytes_eq (n : SExpNumber) :
    n.bytes = bigintToBytes n.value := by
  cases n with
  | bigInt v => rfl
  | i128 v =>
    by_cases hzero : v = 0
    · subst hzero
      rfl
    · have hvalue := beInt_beBytes_toNat v
      have hne : beBytes 16 v.toNat ≠ [] := by
        rw [← length_pos_iff, length_beBytes]
        decide
      rw [SExpNumber.bytes, i128ToBytes, if_neg hzero,
        stripI128_eq_stripSign, SExpNumber.value, ← hvalue,
        bigintToBytes_beInt hne]
      rw [hvalue]
      intro htoInt
      exact hzero (BitVec.toInt_inj.mp htoInt)

end Bytes

/-- What `number_with_len` returns for an argument: a number and the length of
its atom, or the error of a pair. -/
abbrev NumberArg := ClvmResult (SExpNumber × Nat)

def checkCost (cost maxCost : UInt64) : ClvmResult Unit :=
  if cost > maxCost then
    .error (.ioError ⟨.invalidData,
      "cost " ++ toString cost ++ " exceeded " ++ toString maxCost⟩)
  else .ok ()

/-- What the loops of `op_add`, `op_subtract` and `op_multiply` carry: whether
the next argument is the first, the cost, the bytes counted so far or the limbs
of the product, and the result. -/
structure ArgLoop where
  first : Bool
  cost : UInt64
  bytes : UInt64
  total : SExpNumber

/-- A loop over the arguments: the charge is checked, then the argument is read
and folded in. -/
def argLoop (maxCost : UInt64) (charge : ArgLoop → UInt64)
    (step : ArgLoop → SExpNumber → UInt64 → ArgLoop) :
    List NumberArg → ArgLoop → ClvmResult ArgLoop
  | [], state => .ok state
  | arg :: args, state => do
      checkCost (charge state) maxCost
      let (n, len) ← arg
      argLoop maxCost charge step args (step state n (UInt64.ofNat len))

/-- The loop of `op_add` and `op_subtract`; `fold` takes in an argument, and is
told whether it is the first. -/
def sumArgs (fold : Bool → SExpNumber → SExpNumber → SExpNumber)
    (args : List NumberArg) (maxCost : UInt64) :
    ClvmResult (UInt64 × SExpNumber) := do
  let out ← argLoop maxCost (fun s => s.cost + 320 + s.bytes * 3)
    (fun s n len => ⟨false, s.cost + 320, s.bytes + len, fold s.first s.total n⟩)
    args ⟨true, 99, 0, .i128 0⟩
  .ok (out.cost + out.bytes * 3, out.total)

/-- `op_add`, before its result is written. -/
def opAdd : List NumberArg → UInt64 → ClvmResult (UInt64 × SExpNumber) :=
  sumArgs fun _ total n => total.addAssign n

/-- `op_subtract`, before its result is written. -/
def opSubtract : List NumberArg → UInt64 → ClvmResult (UInt64 × SExpNumber) :=
  sumArgs fun first total n => if first then n else total.subAssign n

/-- `op_multiply`, before its result is written. -/
def opMultiply (args : List NumberArg) (maxCost : UInt64) :
    ClvmResult (UInt64 × SExpNumber) := do
  let out ← argLoop maxCost ArgLoop.cost
    (fun s n l1 =>
      if s.first then ⟨false, s.cost, l1, n⟩
      else
        let total := s.total.mulAssign n
        ⟨false, s.cost + 885 + (s.bytes + l1) * 6 + (s.bytes * l1) / 128,
          UInt64.ofNat total.limbsForNum, total⟩)
    args ⟨true, 92, 0, .i128 1⟩
  .ok (out.cost, out.total)

/-- `OpOut::Number` materialized: the number is written and its bytes are paid
for. -/
def Arena.materialize (a : Arena) (out : ClvmResult (UInt64 × SExpNumber)) :
    ArenaResult (UInt64 × NodePtr) × Arena :=
  match out with
  | .error e => (.error (.error e), a)
  | .ok (cost, n) =>
    match a.newNumber n with
    | (.error fault, a) => (.error fault, a)
    | (.ok node, a) =>
      match a.atomLen node with
      | .ok (some len) => (.ok (cost + UInt64.ofNat len * 10, node), a)
      | .ok none => (.error (.error (.expectedAtomGotPairText "")), a)
      | .error fault => (.error fault, a)

/-- `OpOut::NumberPair` materialized, for the quotient and remainder of
`op_divmod`. -/
def Arena.materializePair (a : Arena) (cost : UInt64)
    (out : ArenaResult (SExpNumber × SExpNumber)) :
    ArenaResult (UInt64 × NodePtr) × Arena :=
  match out with
  | .error fault => (.error fault, a)
  | .ok (q, r) =>
    match a.newNumber q with
    | (.error fault, a) => (.error fault, a)
    | (.ok q1, a) =>
      match a.newNumber r with
      | (.error fault, a) => (.error fault, a)
      | (.ok r1, a) =>
        match a.atomLen q1, a.atomLen r1 with
        | .ok lenQ, .ok lenR =>
          let c := UInt64.ofNat (lenQ.getD 0 + lenR.getD 0) * 10
          let (out, a) := a.newPair q1 r1
          (out.map fun node => (cost + c, node), a)
        | .error fault, _ => (.error fault, a)
        | _, .error fault => (.error fault, a)

/-- Two results that are the same error, or values in a relation. -/
def Alike {A : Type} (R : A → A → Prop) : ClvmResult A → ClvmResult A → Prop
  | .ok x, .ok y => R x y
  | .error e, .error e' => e = e'
  | _, _ => False

/-- The same argument, but for the representation of its number. -/
def SameArg : NumberArg → NumberArg → Prop :=
  Alike fun x y => x.1.value = y.1.value ∧ x.2 = y.2

/-- The same state of a loop, but for the representation of its number. -/
structure ArgLoop.Same (s s' : ArgLoop) : Prop where
  first : s.first = s'.first
  cost : s.cost = s'.cost
  bytes : s.bytes = s'.bytes
  total : s.total.value = s'.total.value

section Operators

/-- A loop whose step sees the integers only ends the same way in either
representation. -/
theorem argLoop_congr {maxCost : UInt64} {charge : ArgLoop → UInt64}
    {step : ArgLoop → SExpNumber → UInt64 → ArgLoop}
    (hcharge : ∀ s s' : ArgLoop, s.Same s' → charge s = charge s')
    (hstep : ∀ (s s' : ArgLoop) (n n' : SExpNumber) (len : UInt64),
      s.Same s' → n.value = n'.value → (step s n len).Same (step s' n' len))
    (hargs : Forall₂ SameArg args args') {s s' : ArgLoop}
    (hs : s.Same s') :
    Alike ArgLoop.Same (argLoop maxCost charge step args s)
      (argLoop maxCost charge step args' s') := by
  induction hargs generalizing s s' with
  | nil => exact hs
  | @cons arg arg' args args' harg htail ih =>
    rw [argLoop, argLoop, hcharge s s' hs]
    cases checkCost (charge s') maxCost with
    | error e => rfl
    | ok _ =>
      cases arg with
      | error e =>
        cases arg' with
        | error e' => exact harg
        | ok y => exact harg.elim
      | ok x =>
        cases arg' with
        | error e' => exact harg.elim
        | ok y =>
          obtain ⟨hvalue, hlen⟩ := harg
          simp only [Except.bind_ok, hlen]
          exact ih (hstep s s' _ _ _ hs hvalue)

/-- A number is written the same way in either representation. -/
theorem Arena.newNumber_congr (a : Arena) {n m : SExpNumber}
    (hvalue : n.value = m.value) : a.newNumber n = a.newNumber m := by
  rw [newNumber, newNumber, n.bytes_eq, m.bytes_eq, hvalue]

theorem Arena.materialize_congr (a : Arena) {out out' : ClvmResult ArgLoop}
    {finish : ArgLoop → UInt64 × SExpNumber}
    (hsame : Alike ArgLoop.Same out out')
    (hfinish : ∀ s s' : ArgLoop, s.Same s' → (finish s).1 = (finish s').1 ∧
      (finish s).2.value = (finish s').2.value) :
    a.materialize (out >>= fun s => .ok (finish s)) =
      a.materialize (out' >>= fun s => .ok (finish s)) := by
  cases out with
  | error e =>
    cases out' with
    | error e' =>
      cases hsame
      rfl
    | ok s' => exact hsame.elim
  | ok s =>
    cases out' with
    | error e' => exact hsame.elim
    | ok s' =>
      obtain ⟨hcost, hvalue⟩ := hfinish s s' hsame
      simp only [Except.bind_ok, materialize, a.newNumber_congr hvalue, hcost]

theorem Arena.sumArgs_congr (a : Arena)
    {fold : Bool → SExpNumber → SExpNumber → SExpNumber}
    (hfold : ∀ first total total' n n', total.value = total'.value →
      n.value = n'.value → (fold first total n).value = (fold first total' n').value)
    (hargs : Forall₂ SameArg args args') {maxCost : UInt64} :
    a.materialize (sumArgs fold args maxCost) =
      a.materialize (sumArgs fold args' maxCost) := by
  apply a.materialize_congr
  · apply argLoop_congr _ _ hargs ⟨rfl, rfl, rfl, rfl⟩
    · intro s s' hs
      rw [hs.cost, hs.bytes]
    · intro s s' n n' len hs hn
      exact ⟨rfl, by rw [hs.cost], by rw [hs.bytes],
        by rw [hs.first]; exact hfold _ _ _ _ _ hs.total hn⟩
  · intro s s' hs
    rw [hs.cost, hs.bytes]
    exact ⟨rfl, hs.total⟩

theorem Arena.opMultiply_congr (a : Arena)
    (hargs : Forall₂ SameArg args args') {maxCost : UInt64} :
    a.materialize (opMultiply args maxCost) =
      a.materialize (opMultiply args' maxCost) := by
  apply a.materialize_congr
  · apply argLoop_congr (fun s s' hs => hs.cost) _ hargs ⟨rfl, rfl, rfl, rfl⟩
    intro s s' n n' len hs hn
    have hproduct : (s.total.mulAssign n).value =
        (s'.total.mulAssign n').value := by
      rw [mulAssign, ← mul, value_mul, value_mul, hs.total, hn]
    rw [hs.first]
    cases s'.first with
    | true => exact ⟨rfl, hs.cost, rfl, hn⟩
    | false =>
      refine ⟨rfl, ?_, ?_, hproduct⟩
      · simp only [Bool.false_eq_true, if_false, hs.cost, hs.bytes]
      · simp only [Bool.false_eq_true, if_false, limbsForNum_eq, hproduct]
  · intro s s' hs
    exact ⟨hs.cost, hs.total⟩

theorem Arena.materializePair_congr (a : Arena) (cost : UInt64)
    {q q' r r' : SExpNumber} (hq : q.value = q'.value)
    (hr : r.value = r'.value) :
    a.materializePair cost (.ok (q, r)) =
      a.materializePair cost (.ok (q', r')) := by
  simp only [materializePair, a.newNumber_congr hq,
    fun b : Arena => b.newNumber_congr hr]

end Operators

/-- The intern map is a cache: its nodes have the bytes they are kept for. -/
def Arena.InternSound (a : Arena) : Prop :=
  ∀ v node, (v, node) ∈ a.atomIntern → Denotes a.toPools node (.atom v)

namespace Arena.InternSound

variable {a a' : Arena}

/-- An atom that was written is there. -/
theorem newAtom_denotes (hintern : a.InternSound) {node : NodePtr}
    (hnew : a.newAtom v = (.ok node, a')) :
    Denotes a'.toPools node (.atom v) := by
  rcases a.newAtom_cases with ⟨e, hcase⟩ | ⟨-, ⟨val, hfits, hcase⟩ |
    ⟨node, hmem, hcase⟩ | ⟨hroom, hcase⟩⟩ <;> cases hnew.symm.trans hcase
  · obtain ⟨hval, hbytes⟩ := fitsInSmallAtom_eq_some hfits
    rw [← hbytes]
    exact .small hval
  · exact hintern v node hmem
  · rw [(a.storeAtom_pools v).1]
    exact pushBytes_denotes hroom

end Arena.InternSound

/-- For every pair of numbers, in either representation, the operators compute
the operation on the integers; a number is written as its shortest two's
complement bytes and read back as itself; and the results and costs of the
operators are those of the integers alone. -/
theorem sexpNumber_as_integers :
    (∀ a b : SExpNumber, (a.add b).value = a.value + b.value ∧
      (a.addAssign b).value = a.value + b.value ∧
      (a.sub b).value = a.value - b.value ∧
      (a.subAssign b).value = a.value - b.value ∧
      (a.mul b).value = a.value * b.value ∧
      (a.mulAssign b).value = a.value * b.value ∧
      (a.eq b = true ↔ a.value = b.value) ∧
      a.cmp b = compare a.value b.value ∧
      (b.value ≠ 0 → ∃ q r, a.divModFloor b = .ok (q, r) ∧
        q.value = a.value.fdiv b.value ∧ r.value = a.value.fmod b.value)) ∧
    (∀ (arena arena' : Arena) (n : SExpNumber) (node : NodePtr),
      arena.InternSound → arena.newNumber n = (.ok node, arena') →
      arena'.atom node = .ok (some (bigintToBytes n.value)) ∧
      beInt (bigintToBytes n.value) = n.value ∧
      (∀ bytes, beInt bytes = n.value →
        (bigintToBytes n.value).length ≤ bytes.length) ∧
      ∃ m, arena'.number node = .ok (some m) ∧ m.value = n.value) ∧
    (∀ (n m : SExpNumber), n.value = m.value →
      n.limbsForNum = m.limbsForNum ∧
      ∀ arena : Arena, arena.newNumber n = arena.newNumber m) ∧
    (∀ (arena : Arena) (maxCost : UInt64) (args args' : List NumberArg),
      Forall₂ SameArg args args' →
      arena.materialize (opAdd args maxCost) =
        arena.materialize (opAdd args' maxCost) ∧
      arena.materialize (opSubtract args maxCost) =
        arena.materialize (opSubtract args' maxCost) ∧
      arena.materialize (opMultiply args maxCost) =
        arena.materialize (opMultiply args' maxCost)) ∧
    ∀ (arena : Arena) (cost : UInt64) (a a' b b' : SExpNumber),
      a.value = a'.value → b.value = b'.value → b.value ≠ 0 →
      arena.materializePair cost (a.divModFloor b) =
        arena.materializePair cost (a'.divModFloor b') := by
  refine ⟨?_, ?_, ?_, ?_, ?_⟩
  · intro a b
    exact ⟨a.value_add b, a.value_add b, a.value_sub b, a.value_sub b,
      a.value_mul b, a.value_mul b, a.eq_iff b, a.cmp_eq b, divModFloor_value⟩
  · intro arena arena' n node hintern hnew
    have hdenotes := hintern.newAtom_denotes hnew
    rw [n.bytes_eq] at hdenotes
    have hbytes := beInt_bigintToBytes n.value
    obtain ⟨m, hnumber, hvalue⟩ := hdenotes.number_eq
    refine ⟨hdenotes.atom_eq, hbytes, ?_, m, hnumber, hvalue.trans hbytes⟩
    intro bytes hbeInt
    rw [← hbeInt]
    exact length_bigintToBytes_minimal bytes
  · intro n m hvalue
    refine ⟨?_, fun arena => arena.newNumber_congr hvalue⟩
    rw [n.limbsForNum_eq, m.limbsForNum_eq, hvalue]
  · intro arena maxCost args args' hargs
    refine ⟨?_, ?_, arena.opMultiply_congr hargs⟩
    · apply arena.sumArgs_congr _ hargs
      intro first total total' n n' htotal hn
      rw [addAssign, ← add, value_add, value_add, htotal, hn]
    · apply arena.sumArgs_congr _ hargs
      intro first total total' n n' htotal hn
      cases first with
      | true => exact hn
      | false =>
        change (total.sub n).value = (total'.sub n').value
        rw [value_sub, value_sub, htotal, hn]
  · intro arena cost a a' b b' ha hb hne
    obtain ⟨q, r, hdiv, hq, hr⟩ := divModFloor_value (a := a) hne
    obtain ⟨q', r', hdiv', hq', hr'⟩ := divModFloor_value (a := a') (hb ▸ hne)
    rw [hdiv, hdiv']
    apply arena.materializePair_congr
    · rw [hq, hq', ha, hb]
    · rw [hr, hr', ha, hb]

/-- The smallest machine integer: its sum with -1 and its quotient by -1 leave
the machine, and one number is written once in each representation. -/
theorem sexpNumber_as_integers_at_min :
    ((SExpNumber.i128 (BitVec.intMin 128)).add (.i128 (-1#128))).value =
        -2 ^ 127 - 1 ∧
      (∃ q r, (SExpNumber.i128 (BitVec.intMin 128)).divModFloor
          (.i128 (-1#128)) = .ok (q, r) ∧ q.value = 2 ^ 127 ∧ r.value = 0) ∧
      Arena.new.newNumber (.i128 5) = Arena.new.newNumber (.bigInt 5) := by
  obtain ⟨hops, -, hsame, -, -⟩ := sexpNumber_as_integers
  exact ⟨(hops _ _).1, (hops _ _).2.2.2.2.2.2.2.2 (by decide),
    (hsame _ _ rfl).2 _⟩

end DgXch
