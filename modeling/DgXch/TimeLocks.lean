/-
Time locks.  A lock compares an unbounded integer with the clock of the block,
or with the clock less the birth of the coin; the code stores a clamped word
and folds all words of one kind into a bound, which decides the lock except at
the ends of the word range.  In an accepted block the locks of every run hold.
-/
import DgXch.BlockGenerator

namespace DgXch

open BigEndian TwosComplement UInt64 ConditionWithArgs ConditionOpcode Option

/-- The two clocks. -/
inductive TimeUnit where
  | height
  | seconds
deriving Repr, DecidableEq

/-- The number of bytes of a clock value. -/
def TimeUnit.width : TimeUnit → Nat
  | .height => 4
  | .seconds => 8

/-- The first number past the range of a clock. -/
def TimeUnit.limit (unit : TimeUnit) : Nat := 256 ^ unit.width

/-- A kind of time lock: its clock, whether it counts from the birth of the
coin, and whether the clock must not have reached it. -/
structure TimeLock where
  unit : TimeUnit
  relative : Bool
  before : Bool
deriving Repr, DecidableEq

variable {result : Option ConditionWithArgs} {lock : TimeLock} {args : SExp}
  {cond : SExp}

def TimeLock.ofOpcode : ConditionOpcode → Option TimeLock
  | .assertSecondsRelative => some ⟨.seconds, true, false⟩
  | .assertSecondsAbsolute => some ⟨.seconds, false, false⟩
  | .assertHeightRelative => some ⟨.height, true, false⟩
  | .assertHeightAbsolute => some ⟨.height, false, false⟩
  | .assertBeforeSecondsRelative => some ⟨.seconds, true, true⟩
  | .assertBeforeSecondsAbsolute => some ⟨.seconds, false, true⟩
  | .assertBeforeHeightRelative => some ⟨.height, true, true⟩
  | .assertBeforeHeightAbsolute => some ⟨.height, false, true⟩
  | _ => none

/-- The time lock of one output condition: its kind and its argument. -/
def lockOf : SExp → Option (TimeLock × Bytes)
  | .pair (.atom [byte]) (.pair (.atom arg) _) =>
    (TimeLock.ofOpcode (ConditionOpcode.ofByte byte)).map fun lock =>
      (lock, arg)
  | _ => none

/-- The time locks of a puzzle's output. -/
def locksOf : SExp → List (TimeLock × Bytes)
  | .atom _ => []
  | .pair cond rest => (lockOf cond).toList ++ locksOf rest

/-- The clocks of the block and of the birth of a coin. -/
structure LockContext where
  blockHeight : UInt32
  timestamp : UInt64
  birthHeight : UInt32
  birthSeconds : UInt64
deriving Repr, DecidableEq

namespace LockContext

/-- The clock of the block. -/
def now (c : LockContext) : TimeUnit → Nat
  | .height => c.blockHeight.toNat
  | .seconds => c.timestamp.toNat

/-- The clock at the birth of the coin. -/
def birth (c : LockContext) : TimeUnit → Nat
  | .height => c.birthHeight.toNat
  | .seconds => c.birthSeconds.toNat

theorem now_lt (c : LockContext) (unit : TimeUnit) : c.now unit < unit.limit := by
  cases unit with
  | height => exact c.blockHeight.toNat_lt
  | seconds => exact c.timestamp.toNat_lt

end LockContext

namespace TimeLock

/-- Where a lock counts from. -/
def base (lock : TimeLock) (c : LockContext) : Nat :=
  if lock.relative then c.birth lock.unit else 0

/-- The meaning of a lock with an unbounded integer argument. -/
def Holds (lock : TimeLock) (v : Int) (c : LockContext) : Prop :=
  if lock.before then (c.now lock.unit : Int) < lock.base c + v
  else lock.base c + v ≤ c.now lock.unit

/-- A nonnegative argument as a clock value: the last one if it does not fit
or is padded with a zero byte. -/
def clamped (lock : TimeLock) (arg : Bytes) : Nat :=
  if zeroPadded arg ∨ lock.unit.limit ≤ beNat arg then lock.unit.limit - 1
  else beNat arg

/-- A lock that no comparison decides: one that reaches back behind the birth
of the coin, or a relative lower bound beside one of its kind that runs over
the clock when counted from the birth. -/
def Unchecked (lock : TimeLock) (arg : Bytes) (locks : List (TimeLock × Bytes))
    (c : LockContext) : Prop :=
  lock.relative ∧ (beInt arg < 0 ∨ ¬ lock.before ∧
    ∃ entry ∈ locks, entry.1 = lock ∧ ¬ beInt entry.2 < 0 ∧
      lock.unit.limit ≤ c.birth lock.unit + lock.clamped entry.2)

/-- Where an accepted lock is met: a lower bound fits its clock, and a lock
that no comparison decides holds as it is. -/
def Safe (lock : TimeLock) (arg : Bytes) (locks : List (TimeLock × Bytes))
    (c : LockContext) : Prop :=
  (¬ lock.before → lock.base c + beInt arg < lock.unit.limit) ∧
  (lock.Unchecked arg locks c → lock.Holds (beInt arg) c)

instance (lock : TimeLock) (v : Int) (c : LockContext) :
    Decidable (lock.Holds v c) :=
  inferInstanceAs (Decidable (ite _ _ _))

instance (lock : TimeLock) (arg : Bytes) (locks : List (TimeLock × Bytes))
    (c : LockContext) : Decidable (lock.Safe arg locks c) :=
  inferInstanceAs (Decidable (_ ∧ (_ ∧ (_ ∨ _ ∧ _) → _)))

/-- The word that the streaming reader stores for an argument, if any. -/
def stored (lock : TimeLock) (arg : Bytes) : Option Nat :=
  if lock.before then
    if beInt arg < 0 ∨ zeroPadded arg then some 0
    else if lock.unit.limit ≤ beNat arg then none
    else some (beNat arg)
  else if beInt arg < 0 then none
  else some (lock.clamped arg)

/-- A bound together with one more word: a minimum or a maximum. -/
def combine (lock : TimeLock) (bound : Option Nat) (v : Nat) : Nat :=
  if lock.before then min (bound.getD v) v else max (bound.getD 0) v

/-- A bound that is at least as strict as a word. -/
def Covers (lock : TimeLock) (bound v : Nat) : Prop :=
  if lock.before then bound ≤ v else v ≤ bound

end TimeLock

def Locks.bound (locks : Locks) : TimeLock → Option Nat
  | ⟨.height, false, false⟩ => some locks.heightAbsolute.toNat
  | ⟨.seconds, false, false⟩ => some locks.secondsAbsolute.toNat
  | ⟨.height, false, true⟩ => locks.beforeHeightAbsolute.map UInt32.toNat
  | ⟨.seconds, false, true⟩ => locks.beforeSecondsAbsolute.map UInt64.toNat
  | ⟨.height, true, false⟩ => locks.heightRelative.map UInt32.toNat
  | ⟨.seconds, true, false⟩ => locks.secondsRelative.map UInt64.toNat
  | ⟨.height, true, true⟩ => locks.beforeHeightRelative.map UInt32.toNat
  | ⟨.seconds, true, true⟩ => locks.beforeSecondsRelative.map UInt64.toNat

/-- The lock and the word of a parsed condition. -/
def ConditionWithArgs.timeLock : ConditionWithArgs → Option (TimeLock × Nat)
  | .assertSecondsRelative v => some (⟨.seconds, true, false⟩, v.toNat)
  | .assertSecondsAbsolute v => some (⟨.seconds, false, false⟩, v.toNat)
  | .assertHeightRelative v => some (⟨.height, true, false⟩, v.toNat)
  | .assertHeightAbsolute v => some (⟨.height, false, false⟩, v.toNat)
  | .assertBeforeSecondsRelative v => some (⟨.seconds, true, true⟩, v.toNat)
  | .assertBeforeSecondsAbsolute v => some (⟨.seconds, false, true⟩, v.toNat)
  | .assertBeforeHeightRelative v => some (⟨.height, true, true⟩, v.toNat)
  | .assertBeforeHeightAbsolute v => some (⟨.height, false, true⟩, v.toNat)
  | _ => none

/-- One more word, if it is of this kind of lock. -/
def TimeLock.add (lock : TimeLock) (entry : Option (TimeLock × Nat))
    (bound : Option Nat) : Option Nat :=
  match entry with
  | some (kind, v) => if kind = lock then some (lock.combine bound v) else bound
  | none => bound

theorem map_tighten32 (bound : Option UInt32) (v : UInt32) :
    (tighten bound v).map UInt32.toNat =
      some (min ((bound.map UInt32.toNat).getD v.toNat) v.toNat) := by
  cases bound <;> simp [tighten, UInt32.toNat_min]

theorem map_tighten64 (bound : Option UInt64) (v : UInt64) :
    (tighten bound v).map UInt64.toNat =
      some (min ((bound.map UInt64.toNat).getD v.toNat) v.toNat) := by
  cases bound <;> simp [tighten, toNat_min]

theorem map_max32 (bound : Option UInt32) (v : UInt32) :
    (some (max (bound.getD 0) v)).map UInt32.toNat =
      some (max ((bound.map UInt32.toNat).getD 0) v.toNat) := by
  cases bound <;> simp [UInt32.toNat_max]

theorem map_max64 (bound : Option UInt64) (v : UInt64) :
    (some (max (bound.getD 0) v)).map UInt64.toNat =
      some (max ((bound.map UInt64.toNat).getD 0) v.toNat) := by
  cases bound <;> simp [toNat_max]

/-- What a condition does to the recorded bounds. -/
theorem Locks.bound_add (locks : Locks) (condition : ConditionWithArgs) :
    (locks.add condition).bound lock =
      lock.add condition.timeLock (locks.bound lock) := by
  rcases lock with ⟨_ | _, _ | _, _ | _⟩
  all_goals
    cases condition with
    | assertSecondsRelative v => first | rfl | exact map_max64 _ v
    | assertHeightRelative v => first | rfl | exact map_max32 _ v
    | assertSecondsAbsolute v =>
      first | rfl | exact congrArg some (toNat_max _ v)
    | assertHeightAbsolute v =>
      first | rfl | exact congrArg some (UInt32.toNat_max _ v)
    | assertBeforeSecondsRelative v => first | rfl | exact map_tighten64 _ v
    | assertBeforeSecondsAbsolute v => first | rfl | exact map_tighten64 _ v
    | assertBeforeHeightRelative v => first | rfl | exact map_tighten32 _ v
    | assertBeforeHeightAbsolute v => first | rfl | exact map_tighten32 _ v
    | _ => rfl

theorem toNat_clampU32_of_lt {n : Nat} (hn : n < 2 ^ 32) :
    (clampU32 (UInt64.ofNat n)).toNat = n := by
  have hsmall := UInt64.toNat_ofNat_of_lt' (lt_trans hn (by norm_num))
  rw [clampU32, hsmall, if_pos hn]
  simpa using hn

section Stored

variable (unit : TimeUnit) (relative before : Bool) (arg : Bytes)

/-- The four verdicts on an argument of a clock. -/
theorem sanitizeUint_cases :
    (beInt arg < 0 ∧ sanitizeUint arg unit.width = .negativeOverflow) ∨
    (¬ beInt arg < 0 ∧ zeroPadded arg = true ∧
      sanitizeUint arg unit.width = .leadingZero) ∨
    (¬ beInt arg < 0 ∧ ¬ zeroPadded arg = true ∧ unit.limit ≤ beNat arg ∧
      sanitizeUint arg unit.width = .positiveOverflow) ∨
    (¬ beInt arg < 0 ∧ ¬ zeroPadded arg = true ∧ ¬ unit.limit ≤ beNat arg ∧
      sanitizeUint arg unit.width = .ok (UInt64.ofNat (beNat arg))) := by
  rw [sanitizeUint_eq, TimeUnit.limit]
  split_ifs with hneg hpad hover
  · exact .inl ⟨hneg, rfl⟩
  · exact .inr (.inl ⟨hneg, hpad, rfl⟩)
  · exact .inr (.inr (.inl ⟨hneg, hpad, hover, rfl⟩))
  · exact .inr (.inr (.inr ⟨hneg, hpad, hover, rfl⟩))

/-- The stored word as a function of the verdict. -/
def storedWord (unit : TimeUnit) (before : Bool) : SanitizedUint → Option Nat
  | .ok value => some value.toNat
  | .negativeOverflow => if before then some 0 else none
  | .positiveOverflow => if before then none else some (unit.limit - 1)
  | .leadingZero => if before then some 0 else some (unit.limit - 1)

open TimeLock

theorem stored_eq_storedWord :
    TimeLock.stored ⟨unit, relative, before⟩ arg =
      storedWord unit before (sanitizeUint arg unit.width) := by
  rcases sanitizeUint_cases unit arg with ⟨hneg, hverdict⟩ |
    ⟨hneg, hpad, hverdict⟩ | ⟨hneg, hpad, hover, hverdict⟩ |
    ⟨hneg, hpad, hover, hverdict⟩
  all_goals rw [hverdict]
  · simp [TimeLock.stored, storedWord, hneg]
  · simp [TimeLock.stored, clamped, storedWord, hneg, hpad]
  · simp [TimeLock.stored, clamped, storedWord, hneg, hpad, hover]
  · have hsmall : beNat arg < 2 ^ 64 := by
      refine lt_of_lt_of_le (not_le.mp hover) ?_
      cases unit <;> decide
    simp [TimeLock.stored, clamped, storedWord, hneg, hpad, hover,
      UInt64.toNat_ofNat_of_lt' hsmall]

theorem saturatingU32_toNat :
    (saturatingAssertU32 (sanitizeUint arg 4)).map UInt32.toNat =
        storedWord .height false (sanitizeUint arg 4) ∧
      (saturatingBeforeU32 (sanitizeUint arg 4)).map UInt32.toNat =
        storedWord .height true (sanitizeUint arg 4) := by
  rcases sanitizeUint_cases .height arg with ⟨-, hverdict⟩ | ⟨-, -, hverdict⟩ |
    ⟨-, -, -, hverdict⟩ | ⟨-, -, hfits, hverdict⟩
  all_goals rw [TimeUnit.width] at hverdict; rw [hverdict]
  · exact ⟨rfl, rfl⟩
  · exact ⟨rfl, rfl⟩
  · exact ⟨rfl, rfl⟩
  · have hsmall : beNat arg < 2 ^ 32 := not_le.mp hfits
    simp [saturatingAssertU32, saturatingAssertU64, saturatingBeforeU32,
      saturatingBeforeU64, storedWord, toNat_clampU32_of_lt hsmall,
      UInt64.toNat_ofNat_of_lt' (lt_trans hsmall (by norm_num))]

end Stored

/-- What a condition records: the lock and the stored word, if any. -/
def recorded (cond : SExp) : Option (TimeLock × Nat) :=
  (lockOf cond).bind fun entry =>
    (entry.1.stored entry.2).map fun word => (entry.1, word)

theorem timeLock_eq_none {condition : ConditionWithArgs}
    (hopcode : TimeLock.ofOpcode condition.opCode = none) :
    condition.timeLock = none := by
  cases condition <;> first | rfl | cases hopcode

theorem bind_timeLock_map {A : Type} {build : A → ConditionWithArgs}
    {toNat : A → Nat}
    (hbuild : ∀ value, (build value).timeLock = some (lock, toNat value))
    (word : Option A) :
    (word.map build).bind timeLock =
      (word.map toNat).map fun word => (lock, word) := by
  cases word with
  | none => rfl
  | some value => simp [hbuild]

/-- One integer argument is recorded as its stored word. -/
theorem arenaUintArg_timeLock {A : Type} {saturate : SanitizedUint → Option A}
    {build : A → ConditionWithArgs} {toNat : A → Nat} {argNode : SExp}
    (hread : arenaUintArg argNode lock.unit.width saturate build = .ok result)
    (hbuild : ∀ value, (build value).timeLock = some (lock, toNat value))
    (hsaturate : ∀ arg,
      (saturate (sanitizeUint arg lock.unit.width)).map toNat =
        storedWord lock.unit lock.before (sanitizeUint arg lock.unit.width)) :
    ∃ arg, argNode = .atom arg ∧ result.bind timeLock =
      (lock.stored arg).map fun word => (lock, word) := by
  obtain ⟨verdict, hverdict, hresult⟩ := Except.bind_eq_ok.mp hread
  cases argNode with
  | pair left right => cases hverdict
  | atom arg =>
    cases hverdict
    cases hresult
    have hstored := stored_eq_storedWord lock.unit lock.relative lock.before arg
    refine ⟨arg, rfl, ?_⟩
    rw [bind_timeLock_map hbuild, hsaturate, ← hstored]

variable {opcode : ConditionOpcode}

theorem arenaUintCondition_timeLock
    (hlock : TimeLock.ofOpcode opcode = some lock)
    (hread : arenaUintCondition opcode args = .ok result) :
    ∃ arg rest, args = .pair (.atom arg) rest ∧
      result.bind timeLock =
        (lock.stored arg).map fun word => (lock, word) := by
  cases args with
  | atom data => cases hread
  | pair argNode rest =>
    suffices hword : ∃ arg, argNode = .atom arg ∧
        result.bind timeLock = (lock.stored arg).map fun word => (lock, word) by
      obtain ⟨arg, rfl, hword⟩ := hword
      exact ⟨arg, rest, rfl, hword⟩
    cases opcode <;> cases hlock
    case assertSecondsRelative.refl | assertSecondsAbsolute.refl
      | assertBeforeSecondsRelative.refl | assertBeforeSecondsAbsolute.refl =>
      exact arenaUintArg_timeLock hread (fun _ => rfl)
        fun arg => by cases sanitizeUint arg _ <;> rfl
    case assertHeightRelative.refl | assertHeightAbsolute.refl =>
      exact arenaUintArg_timeLock hread (fun _ => rfl)
        fun arg => (saturatingU32_toNat arg).1
    case assertBeforeHeightRelative.refl | assertBeforeHeightAbsolute.refl =>
      exact arenaUintArg_timeLock hread (fun _ => rfl)
        fun arg => (saturatingU32_toNat arg).2

theorem arenaDispatch_of_lock (hlock : TimeLock.ofOpcode opcode = some lock) :
    arenaDispatch opcode cond args = arenaUintCondition opcode args := by
  cases opcode <;> first | rfl | cases hlock

theorem arenaGenericCondition_eq_ok
    (hread : arenaGenericCondition cond = .ok result) :
    ∃ condition, result = some condition ∧
      conditionFromSexp cond = .ok condition := by
  obtain ⟨bounded, hbounded, hread⟩ := Except.bind_eq_ok.mp hread
  obtain ⟨⟨⟩, -, hbounded⟩ := Except.bind_eq_ok.mp hbounded
  cases hbounded
  obtain ⟨condition, hcondition, hresult⟩ := Except.bind_eq_ok.mp hread
  exact ⟨condition, (Except.ok.inj hresult).symm, hcondition⟩

theorem arenaGenericCondition_timeLock {first rest : SExp}
    (hread : arenaGenericCondition (.pair first rest) = .ok result)
    (hfirst : ∀ byte, first = .atom [byte] →
      TimeLock.ofOpcode (ofByte byte) = none) :
    result.bind timeLock = none := by
  obtain ⟨condition, rfl, hcondition⟩ := arenaGenericCondition_eq_ok hread
  apply timeLock_eq_none
  rcases conditionFromSexp_opCode hcondition with ⟨byte, hbyte, hopcode⟩ |
    ⟨-, hopcode⟩
  · rw [hopcode]
    exact hfirst byte hbyte
  · rw [hopcode]
    rfl

theorem arenaCreateCoin_eq_ok (hread : arenaCreateCoin args = .ok result) :
    ∃ hash node rest amount, args = .pair (.atom hash) (.pair node rest) ∧
      sanitizeUintFromArena node 8 = .ok (.ok amount) ∧
      result = some (.createCoin (.ofVec hash) amount (arenaHint rest)) := by
  unfold arenaCreateCoin at hread
  split at hread
  · cases hread
  · cases hread
  · split_ifs at hread
    split at hread
    · cases hread
    · obtain ⟨verdict, hverdict, hresult⟩ := Except.bind_eq_ok.mp hread
      cases verdict <;> cases hresult
      exact ⟨_, _, _, _, rfl, hverdict, rfl⟩

/-- The dispatch on an opcode that is no lock records nothing. -/
theorem arenaDispatch_timeLock_none {byte : UInt8}
    (hlock : TimeLock.ofOpcode (ofByte byte) = none)
    (hread : arenaDispatch (ofByte byte)
      (.pair (.atom [byte]) args) args = .ok result) :
    result.bind timeLock = none := by
  have hgeneric (hread : arenaGenericCondition (.pair (.atom [byte]) args) =
      .ok result) : result.bind timeLock = none := by
    apply arenaGenericCondition_timeLock hread
    intro head hhead
    cases hhead
    exact hlock
  generalize ofByte byte = opcode at hlock hread
  cases opcode <;> try cases hlock
  case createCoin =>
    obtain ⟨hash, node, rest, amount, -, -, rfl⟩ := arenaCreateCoin_eq_ok hread
    rfl
  case remark | unknown =>
    cases hread
    rfl
  case reserveFee =>
    cases args with
    | atom data => cases hread
    | pair argNode rest =>
      obtain ⟨verdict, -, hresult⟩ := Except.bind_eq_ok.mp hread
      cases verdict <;> cases hresult
      rfl
  all_goals exact hgeneric hread

/-- What the streaming reader makes of a condition is what is recorded. -/
theorem arenaCondition_timeLock (hread : arenaCondition cond = .ok result) :
    result.bind timeLock = recorded cond := by
  unfold arenaCondition at hread
  split at hread
  · cases hread
  · rename_i byte args
    cases hlock : TimeLock.ofOpcode (ofByte byte) with
    | some lock =>
      rw [arenaDispatch_of_lock hlock] at hread
      obtain ⟨arg, rest, rfl, hword⟩ := arenaUintCondition_timeLock hlock hread
      rw [hword]
      simp [recorded, lockOf, hlock]
    | none =>
      rw [arenaDispatch_timeLock_none hlock hread]
      unfold recorded lockOf
      split
      · rename_i heq
        cases heq
        rw [hlock]
        rfl
      · rfl
  · rename_i first rest hfirst
    rw [arenaGenericCondition_timeLock hread
      fun byte hbyte => (hfirst byte hbyte).elim]
    unfold recorded lockOf
    split
    · rename_i heq
      cases heq
      exact (hfirst _ rfl).elim
    · rfl

namespace TimeLock

variable {bound : Option Nat} {b v w : Nat}

theorem Covers.refl : lock.Covers b b := by
  unfold Covers
  split_ifs <;> exact le_rfl

theorem Covers.trans (hfirst : lock.Covers b v) (hsecond : lock.Covers v w) :
    lock.Covers b w := by
  unfold Covers at *
  split_ifs at *
  · exact le_trans hfirst hsecond
  · exact le_trans hsecond hfirst

theorem covers_combine : lock.Covers (lock.combine bound v) v := by
  unfold Covers combine
  split_ifs
  · exact min_le_right _ _
  · exact le_max_right _ _

theorem covers_combine_some : lock.Covers (lock.combine (some b) v) b := by
  unfold Covers combine
  split_ifs
  · exact min_le_left _ _
  · exact le_max_left _ _

/-- A combined bound is one of the two values. -/
theorem combine_eq (bound : Option Nat) (v : Nat) :
    lock.combine bound v = v ∨ bound = some (lock.combine bound v) := by
  cases bound with
  | none => simp [combine]
  | some b =>
    unfold combine
    split_ifs
    · rcases min_choice b v with hmin | hmin
      · exact .inr (by simp [hmin])
      · exact .inl (by simp [hmin])
    · rcases max_choice b v with hmax | hmax
      · exact .inr (by simp [hmax])
      · exact .inl (by simp [hmax])

/-- The bound after the conditions of an output. -/
def fold (lock : TimeLock) : SExp → Option Nat → Option Nat
  | .atom _, bound => bound
  | .pair cond rest, bound => lock.fold rest (lock.add (recorded cond) bound)

theorem add_some {entry : Option (TimeLock × Nat)} :
    ∃ b', lock.add entry (some b) = some b' ∧ lock.Covers b' b := by
  rcases entry with _ | ⟨kind, v⟩
  · exact ⟨b, rfl, .refl⟩
  · by_cases hkind : kind = lock
    · exact ⟨_, if_pos hkind, covers_combine_some⟩
    · exact ⟨b, if_neg hkind, .refl⟩

/-- Later conditions only tighten a bound. -/
theorem fold_some {output : SExp} (b : Nat) :
    ∃ b', lock.fold output (some b) = some b' ∧ lock.Covers b' b := by
  induction output generalizing b with
  | atom data => exact ⟨b, rfl, .refl⟩
  | pair cond rest _ ih =>
    obtain ⟨mid, hadd, hmid⟩ := add_some
    obtain ⟨b', hfold, hlast⟩ := ih mid
    exact ⟨b', by rw [fold, hadd, hfold], hlast.trans hmid⟩

theorem recorded_eq_some :
    recorded cond = some (lock, v) ↔
      ∃ arg, lockOf cond = some (lock, arg) ∧ lock.stored arg = some v := by
  simp only [recorded, bind_eq_some_iff, map_eq_some_iff,
    Prod.exists, Prod.mk.injEq]
  constructor
  · rintro ⟨kind, arg, hlock, word, hstored, rfl, rfl⟩
    exact ⟨arg, hlock, hstored⟩
  · rintro ⟨arg, hlock, hstored⟩
    exact ⟨lock, arg, hlock, v, hstored, rfl, rfl⟩

/-- The bound covers every word of its kind that the output stores. -/
theorem fold_covers {output : SExp} {arg : Bytes}
    (hmem : (lock, arg) ∈ locksOf output) (hstored : lock.stored arg = some v) :
    ∃ b, lock.fold output bound = some b ∧ lock.Covers b v := by
  induction output generalizing bound with
  | atom data => simp [locksOf] at hmem
  | pair cond rest _ ih =>
    rw [locksOf, List.mem_append] at hmem
    rcases hmem with hhead | htail
    · have hrecorded : recorded cond = some (lock, v) :=
        recorded_eq_some.mpr ⟨arg, mem_toList.mp hhead, hstored⟩
      obtain ⟨b, hfold, hcovers⟩ := fold_some (lock.combine bound v)
      refine ⟨b, ?_, hcovers.trans covers_combine⟩
      rw [fold, hrecorded, add, if_pos rfl, hfold]
    · exact ih htail

theorem add_origin (hadd : lock.add (recorded cond) bound = some b) :
    bound = some b ∨ recorded cond = some (lock, b) := by
  cases hrecorded : recorded cond with
  | none =>
    rw [hrecorded] at hadd
    exact .inl hadd
  | some entry =>
    obtain ⟨kind, word⟩ := entry
    rw [hrecorded, add] at hadd
    split_ifs at hadd with hkind
    · cases hadd
      rcases combine_eq bound word with h | h
      · rw [h, hkind]
        exact .inr rfl
      · exact .inl h
    · exact .inl hadd

/-- A bound that was not there before is a word that the output stores. -/
theorem fold_origin {output : SExp} (hfold : lock.fold output bound = some b) :
    bound = some b ∨
      ∃ arg, (lock, arg) ∈ locksOf output ∧ lock.stored arg = some b := by
  induction output generalizing bound with
  | atom data => exact .inl hfold
  | pair cond rest _ ih =>
    rw [locksOf]
    rcases ih hfold with hadd | ⟨arg, hmem, hstored⟩
    · rcases add_origin hadd with hbound | hrecorded
      · exact .inl hbound
      · obtain ⟨arg, hlock, hstored⟩ := recorded_eq_some.mp hrecorded
        have hhead : (lock, arg) ∈ (lockOf cond).toList := mem_toList.mpr hlock
        exact .inr ⟨arg, List.mem_append_left _ hhead, hstored⟩
    · exact .inr ⟨arg, List.mem_append_right _ hmem, hstored⟩

end TimeLock

open TimeLock UInt32

variable {b : Nat} {spend : Spend} {conds : SpendBundleConditions}
  {spendRun : SpendRun} {state state' : BundleState}

/-- The bound of a spend in its bundle. -/
def boundOf (spend : Spend) (conds : SpendBundleConditions) (lock : TimeLock) :
    Option Nat :=
  (Accumulators.locks ⟨spend, conds, 0⟩).bound lock

variable {conds' : SpendBundleConditions}

section Bounds

theorem boundOf_relative (hrelative : lock.relative = true) :
    boundOf spend conds lock = boundOf spend conds' lock := by
  rcases lock with ⟨_ | _, _ | _, _ | _⟩ <;> first | rfl | cases hrelative

theorem map_toNat32_lt (word : Option UInt32)
    (hword : word.map UInt32.toNat = some b) : b < 2 ^ 32 := by
  obtain ⟨value, -, rfl⟩ := map_eq_some_iff.mp hword
  exact value.toNat_lt

theorem map_toNat64_lt (word : Option UInt64)
    (hword : word.map UInt64.toNat = some b) : b < 2 ^ 64 := by
  obtain ⟨value, -, rfl⟩ := map_eq_some_iff.mp hword
  exact value.toNat_lt

theorem boundOf_lt
    (hbound : boundOf spend conds lock = some b) : b < lock.unit.limit := by
  rcases lock with ⟨_ | _, _ | _, _ | _⟩
  · exact map_toNat32_lt (some conds.heightAbsolute) hbound
  · exact map_toNat32_lt conds.beforeHeightAbsolute hbound
  · exact map_toNat32_lt spend.heightRelative hbound
  · exact map_toNat32_lt spend.beforeHeightRelative hbound
  · exact map_toNat64_lt (some conds.secondsAbsolute) hbound
  · exact map_toNat64_lt conds.beforeSecondsAbsolute hbound
  · exact map_toNat64_lt spend.secondsRelative hbound
  · exact map_toNat64_lt spend.beforeSecondsRelative hbound

end Bounds

variable {sha256 : HashFn} {constants : ConsensusConstants} {maxCost : UInt64}

/-- The loop over an output folds its locks and leaves the rest alone. -/
theorem streamConditions_bound {coin : Coin} {mempool : Bool} {output : SExp}
    {index : Nat} {acc acc' : Accumulators}
    (hstream : streamConditions sha256 constants coin maxCost mempool output
      index acc = .ok acc') :
    acc'.frame = acc.frame ∧ ∀ lock,
      acc'.locks.bound lock = lock.fold output (acc.locks.bound lock) := by
  induction output generalizing index acc with
  | atom data =>
    cases hstream
    exact ⟨rfl, fun lock => rfl⟩
  | pair cond rest _ ih =>
    rcases streamConditions_pair hstream with ⟨hread, hstream⟩ |
      ⟨condition, mid, hread, happly, hstream⟩
    · obtain ⟨hframe, hbound⟩ := ih hstream
      refine ⟨hframe, fun lock => ?_⟩
      rw [hbound, fold, ← arenaCondition_timeLock hread]
      rfl
    · obtain ⟨hframe, hbound⟩ := ih hstream
      obtain ⟨hlocks, -, hmid⟩ := applyParsedCondition_views happly
      refine ⟨hframe.trans hmid, fun lock => ?_⟩
      rw [hbound, fold, ← arenaCondition_timeLock hread, hlocks,
        Locks.bound_add]
      rfl

/-- What has been recorded of a spend's run: its locks are covered by the
bounds, and a relative bound comes from one of them. -/
structure Recorded (sha256 : HashFn) (spend : Spend)
    (conds : SpendBundleConditions) (spendRun : SpendRun) : Prop where
  coinId : spend.coinId = spendRun.coin.name sha256
  covers : ∀ lock arg word, (lock, arg) ∈ locksOf spendRun.output →
    lock.stored arg = some word →
      ∃ b, boundOf spend conds lock = some b ∧ lock.Covers b word
  origin : ∀ lock b, lock.relative = true →
    boundOf spend conds lock = some b →
      ∃ arg, (lock, arg) ∈ locksOf spendRun.output ∧ lock.stored arg = some b

/-- A bundle that has recorded more: the spends stay, and the absolute bounds
only get tighter. -/
structure Extends (conds conds' : SpendBundleConditions) : Prop where
  spends : conds.spends ⊆ conds'.spends
  tightens : ∀ spend lock b, lock.relative = false →
    boundOf spend conds lock = some b →
      ∃ b', boundOf spend conds' lock = some b' ∧ lock.Covers b' b

theorem Extends.refl (conds : SpendBundleConditions) : Extends conds conds :=
  ⟨List.Subset.refl _, fun _ _ b _ hbound => ⟨b, hbound, .refl⟩⟩

theorem Extends.trans {first second third : SpendBundleConditions}
    (hfirst : Extends first second) (hsecond : Extends second third) :
    Extends first third where
  spends := List.Subset.trans hfirst.spends hsecond.spends
  tightens spend lock b habsolute hbound := by
    obtain ⟨b', hbound', hcovers⟩ := hfirst.tightens spend lock b habsolute hbound
    obtain ⟨b'', hbound'', hcovers'⟩ :=
      hsecond.tightens spend lock b' habsolute hbound'
    exact ⟨b'', hbound'', hcovers'.trans hcovers⟩

theorem Recorded.mono (hrecorded : Recorded sha256 spend conds spendRun)
    (hextends : Extends conds conds') :
    Recorded sha256 spend conds' spendRun where
  coinId := hrecorded.coinId
  covers lock arg word hmem hstored := by
    obtain ⟨b, hbound, hcovers⟩ := hrecorded.covers lock arg word hmem hstored
    cases hrelative : lock.relative with
    | true =>
      rw [boundOf_relative hrelative] at hbound
      exact ⟨b, hbound, hcovers⟩
    | false =>
      obtain ⟨b', hbound', hcovers'⟩ :=
        hextends.tightens spend lock b hrelative hbound
      exact ⟨b', hbound', hcovers'.trans hcovers⟩
  origin lock b hrelative hbound := by
    apply hrecorded.origin lock b hrelative
    rw [boundOf_relative hrelative, hbound]

/-- A new spend has no relative bounds, and its bundle keeps the others. -/
theorem startSpend_bound {coin : Coin} {mempool : Bool} {extraCost : UInt64}
    {acc : Accumulators}
    (hstart : startSpend sha256 coin mempool conds extraCost = .ok acc)
    (spend : Spend) :
    acc.locks.bound lock =
      if lock.relative then none else boundOf spend conds lock := by
  obtain ⟨removalAmount, rfl⟩ := startSpend_eq_ok hstart
  rcases lock with ⟨_ | _, _ | _, _ | _⟩ <;> rfl

section

variable
  (hstream : streamSpend sha256 constants maxCost spendRun state = .ok state')

include hstream

/-- Reading one spend folds its locks into the bounds and pushes it. -/
theorem streamSpend_bound :
    ∃ spend, state'.conds.spends = state.conds.spends ++ [spend] ∧
      spend.coinId = spendRun.coin.name sha256 ∧
      ∀ lock other, boundOf spend state'.conds lock =
        lock.fold spendRun.output
          (if lock.relative then none else boundOf other state.conds lock) := by
  obtain ⟨cost, -, hstream⟩ := Except.bind_eq_ok.mp hstream
  obtain ⟨out, hparse, hrecord⟩ := Except.bind_eq_ok.mp hstream
  obtain ⟨created, -, hrecord⟩ := Except.bind_eq_ok.mp hrecord
  cases hrecord
  obtain ⟨start, last, hstart, hloop, rfl⟩ :=
    parseAndApplySpendFromArena_eq_ok hparse
  obtain ⟨flags, conditionCost, hfinal⟩ := finalizeSpend_eq last.spend
    last.extraCost state.conditionsCost false
  obtain ⟨hframe, hbound⟩ := streamConditions_bound hloop
  have hfold (lock : TimeLock) (other : Spend) := (hbound lock).trans
    (congrArg (lock.fold spendRun.output) (startSpend_bound hstart other))
  obtain ⟨removalAmount, rfl⟩ := startSpend_eq_ok hstart
  simp only [hfinal]
  refine ⟨{ last.spend with
    flags, conditionCost, executionCost := spendRun.puzzleCost }, ?_, ?_, ?_⟩
  · exact congrArg (· ++ _) (congrArg Frame.spends hframe)
  · exact congrArg Frame.coinId hframe
  · exact hfold

theorem streamSpend_recorded :
    Extends state.conds state'.conds ∧
      ∃ spend ∈ state'.conds.spends,
        Recorded sha256 spend state'.conds spendRun := by
  obtain ⟨spend, hspends, hcoin, hbound⟩ := streamSpend_bound hstream
  refine ⟨⟨?_, ?_⟩, spend, ?_, hcoin, ?_, ?_⟩
  · rw [hspends]
    exact List.subset_append_left _ _
  · intro other lock b habsolute hb
    have hfold := hbound lock other
    rw [habsolute, hb] at hfold
    have hsame : boundOf other state'.conds lock =
        boundOf spend state'.conds lock := by
      rcases lock with ⟨_ | _, _ | _, _ | _⟩ <;> first | rfl | cases habsolute
    rw [hsame, hfold]
    exact fold_some b
  · simp [hspends]
  · intro lock arg word hmem hstored
    rw [hbound lock spend]
    exact fold_covers hmem hstored
  · intro lock b hrelative hb
    rw [hbound lock spend, if_pos hrelative] at hb
    rcases fold_origin hb with hnone | horigin
    · cases hnone
    · exact horigin

end

/-- Every run of a block is recorded in its conditions. -/
theorem streamSpends_recorded {runs : List SpendRun}
    (hstream : streamSpends sha256 constants maxCost runs state = .ok state') :
    Extends state.conds state'.conds ∧
      ∀ spendRun ∈ runs, ∃ spend ∈ state'.conds.spends,
        Recorded sha256 spend state'.conds spendRun := by
  induction runs generalizing state with
  | nil =>
    cases hstream
    exact ⟨.refl _, by simp⟩
  | cons head tail ih =>
    obtain ⟨marked, hmark, hstream⟩ := Except.bind_eq_ok.mp hstream
    obtain ⟨mid, hhead, htail⟩ := Except.bind_eq_ok.mp hstream
    have hconds : marked.conds = state.conds := by
      unfold markSpent at hmark
      split_ifs at hmark
      cases hmark
      rfl
    obtain ⟨hextends, spend, hspend, hrecorded⟩ := streamSpend_recorded hhead
    obtain ⟨hrest, hruns⟩ := ih htail
    rw [hconds] at hextends
    refine ⟨hextends.trans hrest, ?_⟩
    intro spendRun hmem
    rcases List.mem_cons.mp hmem with rfl | hmem
    · exact ⟨spend, hrest.spends hspend, hrecorded.mono hrest⟩
    · exact hruns spendRun hmem

/-- What the block's checks say about a bound: the comparison of the clamped
words, made only where the sum fits the clock. -/
def TimeLock.Accepted (lock : TimeLock) (b : Nat) (c : LockContext) : Prop :=
  lock.base c + b < lock.unit.limit →
    if lock.before then c.now lock.unit < lock.base c + b
    else lock.base c + b ≤ c.now lock.unit

/-- Every bound of an accepted spend has been compared. -/
theorem accepted_of_valid {context : CoinSpendContext}
    {ctx : ConditionValidationContext} {timestamp birthSeconds : UInt64}
    {birthHeight : UInt32}
    (habsolute : validateAbsoluteLocks conds ctx = .ok ())
    (hspend : validateSpendContext spend context ctx = .ok ())
    (htime : ctx.previousTransactionBlockTimestamp = some timestamp)
    (hbirth : context.spentHeight = some birthHeight)
    (hborn : context.spentSeconds = some birthSeconds)
    (hbound : boundOf spend conds lock = some b) :
    lock.Accepted b ⟨ctx.blockHeight, timestamp, birthHeight, birthSeconds⟩ := by
  obtain ⟨hheight, hbeforeHeight, hseconds, hbeforeSeconds⟩ :=
    validateAbsoluteLocks_ok habsolute htime
  obtain ⟨hrelHeight, hrelBeforeHeight, hrelSeconds, hrelBeforeSeconds⟩ :=
    validateSpendContext_locks hspend htime hbirth hborn
  rcases lock with ⟨_ | _, _ | _, _ | _⟩
  -- An absolute lock counts from zero.
  · cases hbound
    intro _
    change 0 + conds.heightAbsolute.toNat ≤ ctx.blockHeight.toNat
    rw [Nat.zero_add]
    exact le_iff_toNat_le.mp hheight
  · obtain ⟨bound, hsome, rfl⟩ := map_eq_some_iff.mp hbound
    intro _
    change ctx.blockHeight.toNat < 0 + bound.toNat
    rw [Nat.zero_add]
    exact lt_iff_toNat_lt.mp (hbeforeHeight bound hsome)
  · obtain ⟨bound, hsome, rfl⟩ := map_eq_some_iff.mp hbound
    exact hrelHeight bound hsome
  · obtain ⟨bound, hsome, rfl⟩ := map_eq_some_iff.mp hbound
    exact hrelBeforeHeight bound hsome
  · cases hbound
    intro _
    change 0 + conds.secondsAbsolute.toNat ≤ timestamp.toNat
    rw [Nat.zero_add]
    exact le_iff_toNat_le.mp hseconds
  · obtain ⟨bound, hsome, rfl⟩ := map_eq_some_iff.mp hbound
    intro _
    change timestamp.toNat < 0 + bound.toNat
    rw [Nat.zero_add]
    exact lt_iff_toNat_lt.mp (hbeforeSeconds bound hsome)
  · obtain ⟨bound, hsome, rfl⟩ := map_eq_some_iff.mp hbound
    exact hrelSeconds bound hsome
  · obtain ⟨bound, hsome, rfl⟩ := map_eq_some_iff.mp hbound
    exact hrelBeforeSeconds bound hsome

theorem beInt_eq_beNat {arg : Bytes} (hneg : ¬ beInt arg < 0) :
    beInt arg = beNat arg :=
  beInt_of_not_negative (Bool.eq_false_iff.mpr (mt beInt_neg_iff.mpr hneg))

section Meaning

variable {arg : Bytes} {c : LockContext}

/-- A lower bound that fits its clock and was compared is met by the
integer. -/
theorem TimeLock.holds_of_assert (hbefore : lock.before = false)
    (hrange : lock.base c + beInt arg < lock.unit.limit)
    (hback : lock.relative → ¬ beInt arg < 0)
    (hbound : ∀ word, lock.stored arg = some word → ∃ b, lock.Covers b word ∧
      lock.base c + b < lock.unit.limit ∧ lock.Accepted b c) :
    lock.Holds (beInt arg) c := by
  rw [Holds, hbefore, if_neg Bool.false_ne_true]
  by_cases hneg : beInt arg < 0
  · rw [base, if_neg (mt hback (not_not.mpr hneg))]
    omega
  · have hstored : lock.stored arg = some (lock.clamped arg) := by
      rw [stored, hbefore, if_neg Bool.false_ne_true, if_neg hneg]
    obtain ⟨b, hcovers, hfits, haccepted⟩ := hbound _ hstored
    have hclock := haccepted hfits
    rw [hbefore, if_neg Bool.false_ne_true] at hclock
    rw [Covers, hbefore, if_neg Bool.false_ne_true] at hcovers
    rw [beInt_eq_beNat hneg] at hrange ⊢
    rw [clamped] at hcovers
    split_ifs at hcovers <;> omega

/-- An accepted upper bound that does not reach back behind the birth is met
by the integer. -/
theorem TimeLock.holds_of_before (hbefore : lock.before = true)
    (hback : lock.relative → ¬ beInt arg < 0)
    (hbound : ∀ word, lock.stored arg = some word →
      ∃ b, lock.Covers b word ∧ lock.Accepted b c) :
    lock.Holds (beInt arg) c := by
  rw [Holds, if_pos hbefore]
  have hnow := c.now_lt lock.unit
  -- A sum that does not fit the clock is beyond it anyway.
  have hclock : ∀ word, lock.stored arg = some word →
      c.now lock.unit < lock.base c + word := by
    intro word hstored
    obtain ⟨b, hcovers, haccepted⟩ := hbound word hstored
    rw [Covers, if_pos hbefore] at hcovers
    by_cases hfits : lock.base c + b < lock.unit.limit
    · have hlt := haccepted hfits
      rw [if_pos hbefore] at hlt
      omega
    · omega
  by_cases hneg : beInt arg < 0
  · have hzero := hclock 0 (by simp [stored, hbefore, hneg])
    rw [base, if_neg (mt hback (not_not.mpr hneg))] at hzero
    omega
  rw [beInt_eq_beNat hneg]
  by_cases hpad : zeroPadded arg = true
  · have hzero := hclock 0 (by simp [stored, hbefore, hpad])
    omega
  by_cases hover : lock.unit.limit ≤ beNat arg
  · omega
  · have hword := hclock (beNat arg)
      (by simp [stored, hbefore, hneg, hpad, hover])
    omega

theorem TimeLock.safe_of_holds {locks : List (TimeLock × Bytes)}
    (hholds : lock.Holds (beInt arg) c) : lock.Safe arg locks c := by
  refine ⟨fun hbefore => ?_, fun _ => hholds⟩
  have hnow := c.now_lt lock.unit
  rw [Holds, if_neg hbefore] at hholds
  omega

end Meaning

/-- In a block that is accepted with a timestamp and with the birth of a coin,
the time locks of that coin's spend hold of the unbounded integers exactly
where they are safe. -/
theorem validateBlockConditions_timeLocks {runs : List SpendRun}
    {start state : BundleState} {ctx : ConditionValidationContext}
    {timestamp birthSeconds : UInt64} {birthHeight : UInt32}
    {context : CoinSpendContext} {spendRun : SpendRun}
    (hstream : streamSpends sha256 constants maxCost runs start = .ok state)
    (hvalid : validateBlockConditions sha256 state.conds ctx = .ok ())
    (htime : ctx.previousTransactionBlockTimestamp = some timestamp)
    (hrun : spendRun ∈ runs)
    (hcontext : ctx.coinContext (spendRun.coin.name sha256) = some context)
    (hbirth : context.spentHeight = some birthHeight)
    (hborn : context.spentSeconds = some birthSeconds) :
    (∀ entry ∈ locksOf spendRun.output, entry.1.Holds (beInt entry.2)
        ⟨ctx.blockHeight, timestamp, birthHeight, birthSeconds⟩) ↔
      ∀ entry ∈ locksOf spendRun.output,
        entry.1.Safe entry.2 (locksOf spendRun.output)
          ⟨ctx.blockHeight, timestamp, birthHeight, birthSeconds⟩ := by
  refine forall₂_congr fun entry hmem => ⟨safe_of_holds, fun hsafe => ?_⟩
  by_cases hunchecked : entry.1.Unchecked entry.2 (locksOf spendRun.output)
    ⟨ctx.blockHeight, timestamp, birthHeight, birthSeconds⟩
  · exact hsafe.2 hunchecked
  obtain ⟨lock, arg⟩ := entry
  have hback (hrelative : lock.relative) : ¬ beInt arg < 0 := fun hneg =>
    hunchecked ⟨hrelative, .inl hneg⟩
  obtain ⟨-, hrecorded⟩ := streamSpends_recorded hstream
  obtain ⟨spend, hspend, hrecorded⟩ := hrecorded spendRun hrun
  obtain ⟨habsolute, hcontexts⟩ := validateBlockConditions_ok hvalid
  have hchecked := hcontexts spend hspend context
    (by rw [hrecorded.coinId, hcontext])
  have haccepted {b : Nat} (hbound : boundOf spend state.conds lock = some b) :=
    accepted_of_valid habsolute hchecked htime hbirth hborn hbound
  cases hbefore : lock.before with
  | true =>
    apply holds_of_before hbefore hback
    intro word hstored
    obtain ⟨b, hbound, hcovers⟩ := hrecorded.covers lock arg word hmem hstored
    exact ⟨b, hcovers, haccepted hbound⟩
  | false =>
    have hlower : ¬ lock.before := by simp [hbefore]
    apply holds_of_assert hbefore (hsafe.1 hlower) hback
    intro word hstored
    obtain ⟨b, hbound, hcovers⟩ := hrecorded.covers lock arg word hmem hstored
    refine ⟨b, hcovers, ?_, haccepted hbound⟩
    by_cases hrelative : lock.relative
    · -- The bound is the word of a lock of this kind, and none runs over.
      obtain ⟨arg', hmem', hstored'⟩ := hrecorded.origin lock b hrelative hbound
      rw [TimeLock.stored, hbefore, if_neg Bool.false_ne_true] at hstored'
      split_ifs at hstored' with hneg
      cases hstored'
      rw [base, if_pos hrelative]
      exact not_le.mp fun hover => hunchecked ⟨hrelative, .inr ⟨hlower,
        _, hmem', rfl, hneg, hover⟩⟩
    · rw [base, if_neg hrelative, Nat.zero_add]
      exact boundOf_lt hbound

def zeroCoin : Coin := ⟨.zero, .zero, 0⟩

/-- A block at height 10 and time 1000 that spends a coin born at height 1 and
time 100. -/
def lateBlock : ConditionValidationContext where
  blockHeight := 10
  previousTransactionBlockTimestamp := some 1000
  coinContext _ := some ⟨some 1, some 100, some 1, some 100⟩

/-- `ASSERT_HEIGHT_RELATIVE 5`, `ASSERT_BEFORE_SECONDS_RELATIVE 901` and
`ASSERT_SECONDS_ABSOLUTE 1000`. -/
def metLocks : SExp :=
  .ofList [.ofList [.atom [82], .atom [5]],
    .ofList [.atom [84], .atom [0x03, 0x85]],
    .ofList [.atom [81], .atom [0x03, 0xe8]]]

/-- `ASSERT_HEIGHT_RELATIVE 4294967295`. -/
def endlessLock : SExp :=
  .ofList [.ofList [.atom [82], .atom [0, 0xff, 0xff, 0xff, 0xff]]]

/-- A coin born at height 1 is locked for the whole range of heights and is
spent at height 10: the sum overflows, and no comparison is made. -/
theorem validateBlockConditions_passes_endlessLock :
    ∃ state, streamSpends hash256 mainnet mainnet.maxBlockCostClvm
        [⟨zeroCoin, 0, endlessLock⟩] ⟨{}, [], [], 0⟩ = .ok state ∧
      validateBlockConditions hash256 state.conds lateBlock = .ok () ∧
      ∃ entry ∈ locksOf endlessLock,
        ¬ entry.1.Holds (beInt entry.2) ⟨10, 1000, 1, 100⟩ := by
  refine ⟨_, rfl, by decide +kernel,
    (⟨.height, true, false⟩, [0, 0xff, 0xff, 0xff, 0xff]), by decide, ?_⟩
  change ¬ ((1 : Int) + 4294967295 ≤ 10)
  norm_num

/-- The locks of `metLocks` hold of the block. -/
theorem validateBlockConditions_timeLocks_at_metLocks :
    ∃ state, streamSpends hash256 mainnet mainnet.maxBlockCostClvm
        [⟨zeroCoin, 0, metLocks⟩] ⟨{}, [], [], 0⟩ = .ok state ∧
      validateBlockConditions hash256 state.conds lateBlock = .ok () ∧
      ∀ entry ∈ locksOf metLocks,
        entry.1.Holds (beInt entry.2) ⟨10, 1000, 1, 100⟩ := by
  have hstream : streamSpends hash256 mainnet mainnet.maxBlockCostClvm
    [⟨zeroCoin, 0, metLocks⟩] ⟨{}, [], [], 0⟩ = .ok _ := rfl
  refine ⟨_, hstream, ?hvalid, (validateBlockConditions_timeLocks hstream
    ?hvalid rfl (List.mem_singleton_self _) rfl rfl rfl).mpr ?hsafe⟩ <;>
    decide +kernel

end DgXch
