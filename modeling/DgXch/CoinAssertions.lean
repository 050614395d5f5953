/-
The assertions that a puzzle makes about the coin it spends: its id, parent,
puzzle hash, amount, and the height and time of its birth.  The first four are
checked when they are read.  Of the birth assertions a later one replaces an
earlier one, and what is left is compared with the coin, so all of them are
enforced exactly when those of a spend agree with each other.
-/
import DgXch.TimeLocks

namespace DgXch

open BigEndian TwosComplement List DgXch.Except Option ConditionOpcode Births

variable {index : Nat} {result : Option ConditionWithArgs} {args : List Bytes}
  {height : UInt32}
  {assertions : List (ConditionOpcode × Bytes)}
  {conditions : List ConditionWithArgs}

section Typed

variable (sha256 : HashFn) (coin : Coin) (context : CoinSpendContext)

/-- What a condition asserts about the coin that is spent. -/
def Enforced : ConditionWithArgs → Prop
  | .assertMyCoinId coinId => coinId = coin.name sha256
  | .assertMyParentId parentId => parentId = coin.parentCoinInfo
  | .assertMyPuzzlehash puzzleHash => puzzleHash = coin.puzzleHash
  | .assertMyAmount amount => amount = coin.amount
  | .assertMyBirthHeight height => context.birthHeight = some height
  | .assertMyBirthSeconds seconds => context.birthSeconds = some seconds
  | _ => True

end Typed

/-- No two birth assertions of a list differ. -/
def BirthsAgree (conditions : List ConditionWithArgs) : Prop :=
  (∀ height height', .assertMyBirthHeight height ∈ conditions →
    .assertMyBirthHeight height' ∈ conditions → height = height') ∧
  ∀ seconds seconds', .assertMyBirthSeconds seconds ∈ conditions →
    .assertMyBirthSeconds seconds' ∈ conditions → seconds = seconds'

/-- The accumulators after a list of conditions has been applied, whatever the
index under which each of them was counted. -/
inductive Applied (sha256 : HashFn) (constants : ConsensusConstants)
    (coin : Coin) (mempool : Bool) :
    List ConditionWithArgs → Accumulators → Accumulators → Prop
  | nil (acc : Accumulators) : Applied sha256 constants coin mempool [] acc acc
  | cons {condition : ConditionWithArgs} {rest : List ConditionWithArgs}
      {acc mid last : Accumulators} (index : Nat)
      (hstep : applyParsedCondition sha256 constants coin mempool index
        condition acc = .ok mid)
      (hrest : Applied sha256 constants coin mempool rest mid last) :
      Applied sha256 constants coin mempool (condition :: rest) acc last

variable {sha256 : HashFn} {constants : ConsensusConstants}
  {coin : Coin} {context : CoinSpendContext} {mempool : Bool}
  {acc last : Accumulators}

section Fold

theorem applyConditions_applied
    (hloop : applyConditions sha256 constants coin mempool index conditions
      acc = .ok last) :
    Applied sha256 constants coin mempool conditions acc last := by
  induction conditions generalizing index acc with
  | nil =>
    cases hloop
    exact .nil _
  | cons head tail ih =>
    obtain ⟨mid, hstep, hloop⟩ := bind_eq_ok.mp hloop
    exact .cons index hstep (ih hloop)

/-- The birth assertions that are left are those of the fold. -/
theorem Applied.births
    (happlied : Applied sha256 constants coin mempool conditions acc last) :
    last.births = conditions.foldl add acc.births := by
  induction happlied with
  | nil acc => rfl
  | cons index hstep hrest ih =>
    obtain ⟨-, hbirths, -⟩ := applyParsedCondition_views hstep
    rw [ih, hbirths, foldl_cons]

/-- A step that succeeds has checked the assertion it applies, unless that is
about the birth of the coin. -/
theorem applyParsedCondition_enforced {condition : ConditionWithArgs}
    {mid : Accumulators}
    (hstep : applyParsedCondition sha256 constants coin mempool index condition
      acc = .ok mid)
    (hheight : ∀ height, condition = .assertMyBirthHeight height →
      context.birthHeight = some height)
    (hseconds : ∀ seconds, condition = .assertMyBirthSeconds seconds →
      context.birthSeconds = some seconds) :
    Enforced sha256 coin context condition := by
  obtain ⟨flags, hstep⟩ := applyParsedCondition_eq_ok hstep
  cases condition
  case assertMyCoinId | assertMyParentId | assertMyPuzzlehash
    | assertMyAmount => simpa [Enforced] using (assertMy_eq_ok.mp hstep).1
  case assertMyBirthHeight => exact hheight _ rfl
  case assertMyBirthSeconds => exact hseconds _ rfl
  all_goals trivial

theorem Applied.enforced
    (happlied : Applied sha256 constants coin mempool conditions acc last)
    (hheight : ∀ height, .assertMyBirthHeight height ∈ conditions →
      context.birthHeight = some height)
    (hseconds : ∀ seconds, .assertMyBirthSeconds seconds ∈ conditions →
      context.birthSeconds = some seconds) :
    ∀ condition ∈ conditions, Enforced sha256 coin context condition := by
  induction happlied with
  | nil acc => simp
  | cons index hstep hrest ih =>
    intro condition hmem
    rcases mem_cons.mp hmem with rfl | hmem
    · apply applyParsedCondition_enforced hstep
      · rintro height rfl
        exact hheight height (mem_cons_self ..)
      · rintro seconds rfl
        exact hseconds seconds (mem_cons_self ..)
    · exact ih (fun height h => hheight height (mem_cons_of_mem _ h))
        (fun seconds h => hseconds seconds (mem_cons_of_mem _ h)) condition hmem

end Fold

/-- What is left of one kind of birth assertions is one of them.  So all of them
hold exactly when they agree, if what is left is checked. -/
theorem births_settled {A : Type} {build : A → ConditionWithArgs}
    {left : Births → Option A} {births : Births} {actual : Option A}
    (hset : ∀ births a, left (.add births (build a)) = some a)
    (hkeep : ∀ births condition, (∀ a, build a ≠ condition) →
      left (.add births condition) = left births)
    (hcheck : ∀ a, left (conditions.foldl add births) = some a →
      actual = some a) :
    (∀ a, build a ∈ conditions → actual = some a) ↔
      ∀ a b, build a ∈ conditions → build b ∈ conditions → a = b := by
  have hleft : (∀ a, build a ∉ conditions) ∨ ∃ a, build a ∈ conditions ∧
      left (conditions.foldl add births) = some a := by
    clear hcheck
    induction conditions using List.reverseRecOn with
    | nil => exact .inl (by simp)
    | append_singleton front condition ih =>
      rw [foldl_append, foldl_cons, foldl_nil]
      by_cases hnew : ∃ a, build a = condition
      · obtain ⟨a, rfl⟩ := hnew
        exact .inr ⟨a, by simp, hset _ a⟩
      · rw [not_exists] at hnew
        simpa [hkeep _ _ hnew, hnew] using ih
  constructor
  · intro hall a b ha hb
    exact some.inj ((hall a ha).symm.trans (hall b hb))
  · intro hagree a ha
    obtain hnone | ⟨b, hb, hstored⟩ := hleft
    · exact absurd ha (hnone a)
    · rw [hagree a b ha hb]
      exact hcheck b hstored

variable {ctx : ConditionValidationContext} {spend : Spend}

section Accepted

variable {start : Accumulators}

def Spend.births (spend : Spend) : Births where
  height := spend.birthHeight
  seconds := spend.birthSeconds

/-- In a spend that passes its context, everything that was applied is enforced
exactly when the birth assertions agree. -/
theorem Applied.enforced_iff
    (happlied : Applied sha256 constants coin mempool conditions start last)
    (hbirths : spend.births = last.births)
    (hcheck : validateSpendContext spend context ctx = .ok ()) :
    (∀ condition ∈ conditions, Enforced sha256 coin context condition) ↔
      BirthsAgree conditions := by
  obtain ⟨hcheckHeight, hcheckSeconds⟩ := validateSpendContext_births hcheck
  have hfold : spend.births = conditions.foldl add start.births :=
    hbirths.trans happlied.births
  have hheights := @births_settled conditions _ .assertMyBirthHeight
    height start.births context.birthHeight (fun _ _ => rfl)
    (fun births condition h => by cases condition <;> simp_all [add])
    (hfold ▸ hcheckHeight)
  have hsecondss := @births_settled conditions _ .assertMyBirthSeconds
    seconds start.births context.birthSeconds (fun _ _ => rfl)
    (fun births condition h => by cases condition <;> simp_all [add])
    (hfold ▸ hcheckSeconds)
  constructor
  · intro henforced
    exact ⟨hheights.mp fun _ => henforced _, hsecondss.mp fun _ => henforced _⟩
  · intro hagree
    exact happlied.enforced (hheights.mpr hagree.1) (hsecondss.mpr hagree.2)

end Accepted

/-- The opcodes that assert something about the spent coin. -/
def ConditionOpcode.assertsCoin : ConditionOpcode → Bool
  | .assertMyCoinId | .assertMyParentId | .assertMyPuzzlehash
  | .assertMyAmount | .assertMyBirthHeight | .assertMyBirthSeconds => true
  | _ => false

/-- The assertion that a condition of an output makes, with its argument as it
is written. -/
def assertionOf (cond : SExp) : Option (ConditionOpcode × Bytes) :=
  match opCodeWithArgsFromSexp cond with
  | .ok (opcode, [arg]) =>
    if opcode.assertsCoin then some (opcode, arg) else none
  | _ => none

def assertionsOf : SExp → List (ConditionOpcode × Bytes)
  | .atom _ => []
  | .pair cond rest => (assertionOf cond).toList ++ assertionsOf rest

/-- What the argument of an assertion, as it is written, says of the coin. -/
def AssertionHolds (sha256 : HashFn) (coin : Coin)
    (context : CoinSpendContext) : ConditionOpcode × Bytes → Prop
  | (.assertMyCoinId, arg) => arg = (coin.name sha256).bytes
  | (.assertMyParentId, arg) => arg = coin.parentCoinInfo.bytes
  | (.assertMyPuzzlehash, arg) => arg = coin.puzzleHash.bytes
  | (.assertMyAmount, arg) => beInt arg = coin.amount.toNat
  | (.assertMyBirthHeight, arg) =>
    context.birthHeight.map (fun height => (height.toNat : Int)) =
      some (beInt arg)
  | (.assertMyBirthSeconds, arg) =>
    context.birthSeconds.map (fun seconds => (seconds.toNat : Int)) =
      some (beInt arg)
  | _ => True

/-- The assertions are spelled as they are meant and do not contradict each
other: hashes of 32 bytes, birth heights that are not negative, and birth
assertions that agree. -/
structure Consistent (assertions : List (ConditionOpcode × Bytes)) : Prop where
  hashes : ∀ opcode arg, (opcode, arg) ∈ assertions →
    opcode = .assertMyCoinId ∨ opcode = .assertMyParentId ∨
      opcode = .assertMyPuzzlehash → arg.length = 32
  heights : ∀ arg, (.assertMyBirthHeight, arg) ∈ assertions → 0 ≤ beInt arg
  births : ∀ opcode arg arg', (opcode, arg) ∈ assertions →
    (opcode, arg') ∈ assertions →
      opcode = .assertMyBirthHeight ∨ opcode = .assertMyBirthSeconds →
        beInt arg = beInt arg'

variable {opcode : ConditionOpcode} {arg : Bytes}
  {condition : ConditionWithArgs}

section Reading

variable {cond rest : SExp}

theorem conditionFromSexp_eq_ok
    (hread : conditionFromSexp cond = .ok condition) :
    ∃ args, opCodeWithArgsFromSexp cond = .ok (condition.opCode, args) ∧
      fromOpcodeWithArgs condition.opCode args = .ok condition := by
  obtain ⟨⟨opcode, args⟩, hopcode, hread⟩ := bind_eq_ok.mp hread
  have hbuild := liftIo_eq_ok.mp hread
  rw [fromOpcodeWithArgs_opCode hbuild]
  exact ⟨args, liftIo_eq_ok.mp hopcode, hbuild⟩

/-- The dispatch on an opcode yields a condition with that opcode. -/
theorem arenaDispatch_opCode {byte : UInt8} {args : SExp}
    (hread : arenaDispatch (ofByte byte)
      (.pair (.atom [byte]) args) args = .ok (some condition)) :
    condition.opCode = ofByte byte := by
  have hgeneric (hread : arenaGenericCondition (.pair (.atom [byte]) args) =
      .ok (some condition)) :
      condition.opCode = ofByte byte := by
    obtain ⟨condition', hsome, hcondition⟩ := arenaGenericCondition_eq_ok hread
    cases hsome
    rcases conditionFromSexp_opCode hcondition with ⟨byte', hbyte, hopcode⟩ |
      ⟨⟨left, right, hpair⟩, -⟩
    · cases hbyte
      exact hopcode
    · cases hpair
  generalize ofByte byte = opcode at *
  cases opcode
  case remark | unknown =>
    cases hread
    rfl
  case createCoin =>
    obtain ⟨hash, node, rest, amount, -, -, hresult⟩ :=
      arenaCreateCoin_eq_ok hread
    cases hresult
    rfl
  case reserveFee =>
    cases args with
    | atom data => cases hread
    | pair argNode rest =>
      obtain ⟨verdict, -, hresult⟩ := bind_eq_ok.mp hread
      cases verdict <;> cases hresult
      rfl
  case assertHeightAbsolute | assertHeightRelative | assertSecondsAbsolute
    | assertSecondsRelative | assertBeforeHeightAbsolute
    | assertBeforeHeightRelative | assertBeforeSecondsAbsolute
    | assertBeforeSecondsRelative =>
    cases args with
    | atom data => cases hread
    | pair argNode rest =>
      obtain ⟨verdict, -, hresult⟩ := bind_eq_ok.mp hread
      obtain ⟨value, -, rfl⟩ := map_eq_some_iff.mp (Except.ok.inj hresult)
      rfl
  all_goals exact hgeneric hread

theorem arenaDispatch_of_assertsCoin (hasserts : opcode.assertsCoin = true)
    (cond args : SExp) :
    arenaDispatch opcode cond args = arenaGenericCondition cond := by
  cases opcode <;> first | rfl | cases hasserts

/-- An assertion is read by the generic path, whatever leads to it. -/
theorem arenaCondition_of_assertsCoin
    (hread : arenaCondition cond = .ok (some condition))
    (hasserts : condition.opCode.assertsCoin = true) :
    conditionFromSexp cond = .ok condition := by
  have hgeneric (hread : arenaGenericCondition cond = .ok (some condition)) :
      conditionFromSexp cond = .ok condition := by
    obtain ⟨condition', hsome, hcondition⟩ := arenaGenericCondition_eq_ok hread
    cases hsome
    exact hcondition
  unfold arenaCondition at hread
  split at hread
  · cases hread
  · rw [arenaDispatch_opCode hread] at hasserts
    rw [arenaDispatch_of_assertsCoin hasserts] at hread
    exact hgeneric hread
  · exact hgeneric hread

/-- An assertion has exactly one argument. -/
theorem fromOpcodeWithArgs_oneArg
    (hbuild : fromOpcodeWithArgs opcode args = .ok condition)
    (hasserts : opcode.assertsCoin = true) : ∃ arg, args = [arg] := by
  cases opcode <;> try cases hasserts
  case assertMyBirthHeight =>
    obtain ⟨arg, harg, -⟩ := oneArg_eq_ok.mp hbuild
    exact ⟨arg, harg⟩
  case assertMyAmount | assertMyBirthSeconds =>
    obtain ⟨arg, value, harg, -, -⟩ := u64Arg_eq_ok.mp hbuild
    exact ⟨arg, harg⟩
  all_goals
    obtain ⟨arg, harg, -⟩ := bytes32Arg_eq_ok.mp hbuild
    exact ⟨arg, harg⟩

theorem assertionOf_eq_some :
    assertionOf cond = some (opcode, arg) ↔
      opCodeWithArgsFromSexp cond = .ok (opcode, [arg]) ∧
        opcode.assertsCoin = true := by
  unfold assertionOf
  split
  · rename_i opcode' arg' hread
    rw [hread]
    split_ifs with hasserts
    · simp only [some.injEq, Prod.mk.injEq, Except.ok.injEq,
        List.cons.injEq, and_true]
      constructor
      · rintro ⟨rfl, rfl⟩
        exact ⟨⟨rfl, rfl⟩, hasserts⟩
      · rintro ⟨⟨rfl, rfl⟩, -⟩
        exact ⟨rfl, rfl⟩
    · simp only [Except.ok.injEq, Prod.mk.injEq, false_iff, not_and]
      rintro ⟨rfl, -⟩
      exact hasserts
  · rename_i hread
    simp only [reduceCtorEq, false_iff, not_and]
    intro hok
    exact absurd hok (hread opcode arg)

/-- A condition with an assertion's opcode is a pair that starts with it. -/
theorem opCodeWithArgsFromSexp_pair
    (hread : opCodeWithArgsFromSexp cond = .ok (opcode, args))
    (hasserts : opcode.assertsCoin = true) :
    ∃ byte rest, cond = .pair (.atom [byte]) rest ∧ opcode = ofByte byte := by
  have hloop := opCodeWithArgsFromSexp_eq_ok hread
  have hbare : opcode.mayBeBare = false := by
    cases opcode <;> first | rfl | cases hasserts
  rcases cond with data | ⟨first, rest⟩
  · -- a single atom leaves no arguments, which only a bare opcode may do
    have hvars : args = [] := by
      rcases data with - | ⟨byte, tail⟩
      · cases hloop
        rfl
      · rw [SExp.iter, opCodeWithArgsLoop] at hloop
        · split_ifs at hloop
          cases hloop
          rfl
        · simp
    subst hvars
    rw [opCodeWithArgsFromSexp, hloop] at hread
    simp [bind_ok, hbare] at hread
  · rw [SExp.iter] at hloop
    rcases first with data | ⟨left, right⟩
    · rw [opCodeWithArgsLoop] at hloop
      split_ifs at hloop with hlength
      obtain ⟨byte, rfl⟩ := length_eq_one_iff.mp (not_not.mp hlength)
      exact ⟨byte, rest, rfl, opCodeWithArgsLoop_opcode hloop⟩
    · cases hloop
      cases hasserts

/-- Every assertion that is written is read, if its condition is accepted. -/
theorem arenaCondition_of_assertionOf
    (hassertion : assertionOf cond = some (opcode, arg))
    (hread : arenaCondition cond = .ok result) :
    ∃ condition, result = some condition ∧
      fromOpcodeWithArgs opcode [arg] = .ok condition := by
  obtain ⟨hopcode, hasserts⟩ := assertionOf_eq_some.mp hassertion
  obtain ⟨byte, rest, rfl, rfl⟩ := opCodeWithArgsFromSexp_pair hopcode hasserts
  change arenaDispatch (ofByte byte) _ rest = _ at hread
  rw [arenaDispatch_of_assertsCoin hasserts] at hread
  obtain ⟨condition, rfl, hcondition⟩ := arenaGenericCondition_eq_ok hread
  obtain ⟨args, hopcode', hbuild⟩ := conditionFromSexp_eq_ok hcondition
  obtain ⟨hop, rfl⟩ := Prod.mk.inj (Except.ok.inj (hopcode'.symm.trans hopcode))
  rw [hop] at hbuild
  exact ⟨condition, rfl, hbuild⟩

end Reading

/-- The conditions that the streaming reader makes of an output. -/
def conditionsOf : SExp → List ConditionWithArgs
  | .atom _ => []
  | .pair cond rest =>
    match arenaCondition cond with
    | .ok (some condition) => condition :: conditionsOf rest
    | _ => conditionsOf rest

section Streaming

variable {maxCost : UInt64} {output : SExp}

/-- The streaming loop applies the conditions of the output, in which every
assertion that is read has been written and the other way round. -/
theorem streamConditions_applied
    (hstream : streamConditions sha256 constants coin maxCost mempool output
      index acc = .ok last) :
    Applied sha256 constants coin mempool (conditionsOf output) acc last ∧
      (∀ opcode arg, (opcode, arg) ∈ assertionsOf output →
        ∃ condition ∈ conditionsOf output,
          fromOpcodeWithArgs opcode [arg] = .ok condition) ∧
      ∀ condition ∈ conditionsOf output, condition.opCode.assertsCoin = true →
        ∃ arg, (condition.opCode, arg) ∈ assertionsOf output ∧
          fromOpcodeWithArgs condition.opCode [arg] = .ok condition := by
  induction output generalizing index acc with
  | atom data =>
    cases hstream
    exact ⟨.nil _, by simp [assertionsOf], by simp [conditionsOf]⟩
  | pair cond rest _ ih =>
    rcases streamConditions_pair hstream with ⟨hread, hstream⟩ |
      ⟨condition, mid, hread, happly, hstream⟩
    · obtain ⟨happlied, hwritten, hbuilt⟩ := ih hstream
      simp only [conditionsOf, hread, assertionsOf, mem_append, mem_toList]
      refine ⟨happlied, ?_, ?_⟩
      · rintro opcode arg (hassertion | hmem)
        · obtain ⟨condition, hsome, -⟩ :=
            arenaCondition_of_assertionOf hassertion hread
          cases hsome
        · exact hwritten opcode arg hmem
      · intro condition hmem hasserts
        obtain ⟨arg, hmem', hbuild⟩ := hbuilt condition hmem hasserts
        exact ⟨arg, .inr hmem', hbuild⟩
    · obtain ⟨happlied, hwritten, hbuilt⟩ := ih hstream
      simp only [conditionsOf, hread, assertionsOf, mem_append,
        mem_toList, mem_cons]
      refine ⟨.cons index happly happlied, ?_, ?_⟩
      · rintro opcode arg (hassertion | hmem)
        · obtain ⟨condition', hsome, hbuild⟩ :=
            arenaCondition_of_assertionOf hassertion hread
          cases hsome
          exact ⟨condition, .inl rfl, hbuild⟩
        · obtain ⟨condition', hmem', hbuild⟩ := hwritten opcode arg hmem
          exact ⟨condition', .inr hmem', hbuild⟩
      · rintro condition' (rfl | hmem) hasserts
        · obtain ⟨args, hopcode, hbuild⟩ := conditionFromSexp_eq_ok
            (arenaCondition_of_assertsCoin hread hasserts)
          obtain ⟨arg, rfl⟩ := fromOpcodeWithArgs_oneArg hbuild hasserts
          exact ⟨arg, .inl (assertionOf_eq_some.mpr ⟨hopcode, hasserts⟩),
            hbuild⟩
        · obtain ⟨arg, hmem', hbuild⟩ := hbuilt condition' hmem hasserts
          exact ⟨arg, .inr hmem', hbuild⟩

end Streaming

theorem u64FromBigint_eq_ok {item : Int} {value : UInt64}
    (hvalue : u64FromBigint item = .ok value) : item = value.toNat := by
  unfold u64FromBigint at hvalue
  split_ifs at hvalue with hneg hfits
  cases hvalue
  have hnat : item.toNat < 2 ^ 64 := by omega
  rw [UInt64.toNat_ofNat_of_lt' hnat, Int.toNat_of_nonneg (not_lt.mp hneg)]

/-- Four bytes are read without their sign. -/
theorem u32FromSlice_eq_some (hheight : u32FromSlice arg = some height) :
    height.toNat = beNat arg := by
  unfold u32FromSlice at hheight
  split_ifs at hheight with hlength
  cases hheight
  have hsmall : beNat arg < 2 ^ 32 :=
    calc beNat arg < 256 ^ arg.length := beNat_lt arg
      _ ≤ 256 ^ 4 := Nat.pow_le_pow_right (by decide) (not_lt.mp hlength)
  rw [foldl_mod_eq _ toNat_shift_or32 arg 0 (by decide)]
  simpa using hsmall

section Meaning

theorem birthHeight_eq (hsign : 0 ≤ beInt arg)
    (hbuild : fromOpcodeWithArgs .assertMyBirthHeight [arg] =
      .ok (.assertMyBirthHeight height)) : beInt arg = height.toNat := by
  simp only [fromOpcodeWithArgs, oneArg] at hbuild
  split at hbuild
  · rename_i height' hheight
    cases hbuild
    rw [u32FromSlice_eq_some hheight]
    apply beInt_of_not_negative
    rw [← Bool.not_eq_true, ← beInt_neg_iff]
    exact not_lt.mpr hsign
  · cases hbuild

theorem birthSeconds_eq {seconds : UInt64}
    (hbuild : fromOpcodeWithArgs .assertMyBirthSeconds [arg] =
      .ok (.assertMyBirthSeconds seconds)) : beInt arg = seconds.toNat := by
  obtain ⟨arg', value, harg, hvalue, hseconds⟩ := u64Arg_eq_ok.mp hbuild
  cases harg
  cases hseconds
  exact u64FromBigint_eq_ok hvalue

/-- An enforced condition enforces the argument it was read from, if that is
spelled as it is meant. -/
theorem assertionHolds_of_enforced
    (hbuild : fromOpcodeWithArgs opcode [arg] = .ok condition)
    (hhash : opcode = .assertMyCoinId ∨ opcode = .assertMyParentId ∨
      opcode = .assertMyPuzzlehash → arg.length = 32)
    (hheight : opcode = .assertMyBirthHeight → 0 ≤ beInt arg)
    (henforced : Enforced sha256 coin context condition) :
    AssertionHolds sha256 coin context (opcode, arg) := by
  have hcode := fromOpcodeWithArgs_opCode hbuild
  cases opcode
  case assertMyCoinId | assertMyParentId | assertMyPuzzlehash =>
    obtain ⟨arg', harg, rfl⟩ := bytes32Arg_eq_ok.mp hbuild
    cases harg
    rw [← Bytes32.ofVec_bytes_of_length (hhash (by simp))]
    exact congrArg Bytes32.bytes henforced
  case assertMyAmount =>
    obtain ⟨arg', value, harg, hvalue, rfl⟩ := u64Arg_eq_ok.mp hbuild
    cases harg
    have hamount : value = coin.amount := henforced
    change beInt arg = coin.amount.toNat
    rw [← hamount]
    exact u64FromBigint_eq_ok hvalue
  case assertMyBirthHeight =>
    cases condition <;> cases hcode
    have hbirth : context.birthHeight = some _ := henforced
    simp only [AssertionHolds, hbirth, map_some,
      birthHeight_eq (hheight rfl) hbuild]
  case assertMyBirthSeconds =>
    cases condition <;> cases hcode
    have hbirth : context.birthSeconds = some _ := henforced
    simp only [AssertionHolds, hbirth, map_some, birthSeconds_eq hbuild]
  all_goals trivial

theorem consistent_of_holds (hholds : ∀ assertion ∈ assertions,
      AssertionHolds sha256 coin context assertion) :
    Consistent assertions where
  hashes opcode arg hmem hopcode := by
    rcases hopcode with rfl | rfl | rfl
    · have harg : arg = (coin.name sha256).bytes := hholds _ hmem
      rw [harg, Bytes32.length_eq]
    · have harg : arg = coin.parentCoinInfo.bytes := hholds _ hmem
      rw [harg, Bytes32.length_eq]
    · have harg : arg = coin.puzzleHash.bytes := hholds _ hmem
      rw [harg, Bytes32.length_eq]
  heights arg hmem := by
    obtain ⟨height, -, hheight⟩ := map_eq_some_iff.mp (hholds _ hmem)
    rw [← hheight]
    exact Int.natCast_nonneg _
  births opcode arg arg' hmem hmem' hopcode := by
    rcases hopcode with rfl | rfl
    · exact some.inj ((hholds _ hmem).symm.trans (hholds _ hmem'))
    · exact some.inj ((hholds _ hmem).symm.trans (hholds _ hmem'))

/-- Consistent assertions are read as birth assertions that agree. -/
theorem birthsAgree_of_consistent (hconsistent : Consistent assertions)
    (hbuilt : ∀ condition ∈ conditions, condition.opCode.assertsCoin = true →
      ∃ arg, (condition.opCode, arg) ∈ assertions ∧
        fromOpcodeWithArgs condition.opCode [arg] = .ok condition) :
    BirthsAgree conditions := by
  constructor
  · intro height height' hmem hmem'
    obtain ⟨arg, harg, hbuild⟩ := hbuilt _ hmem rfl
    obtain ⟨arg', harg', hbuild'⟩ := hbuilt _ hmem' rfl
    have heq := hconsistent.births _ arg arg' harg harg' (.inl rfl)
    rw [birthHeight_eq (hconsistent.heights arg harg) hbuild,
      birthHeight_eq (hconsistent.heights arg' harg') hbuild'] at heq
    exact UInt32.toNat_inj.mp (Int.ofNat_inj.mp heq)
  · intro seconds seconds' hmem hmem'
    obtain ⟨arg, harg, hbuild⟩ := hbuilt _ hmem rfl
    obtain ⟨arg', harg', hbuild'⟩ := hbuilt _ hmem' rfl
    have heq := hconsistent.births _ arg arg' harg harg' (.inr rfl)
    rw [birthSeconds_eq hbuild, birthSeconds_eq hbuild'] at heq
    exact UInt64.toNat_inj.mp (Int.ofNat_inj.mp heq)

end Meaning

section Enforcement

variable {conds : SpendBundleConditions} {extraCost : UInt64}
  {out : Accumulators}

theorem finalizeSpend_births {start : UInt64} :
    (finalizeSpend acc.spend acc.extraCost start mempool).births =
      acc.births := by
  obtain ⟨flags, conditionCost, hfinal⟩ :=
    finalizeSpend_eq acc.spend acc.extraCost start mempool
  rw [hfinal]
  rfl

theorem spendFromConditions_enforced
    (hspend : spendFromConditions sha256 coin conditions conds constants
      extraCost mempool = .ok out) (hbirths : spend.births = out.spend.births)
    (hcheck : validateSpendContext spend context ctx = .ok ()) :
    (∀ condition ∈ conditions, Enforced sha256 coin context condition) ↔
      BirthsAgree conditions := by
  obtain ⟨start, -, hspend⟩ := bind_eq_ok.mp hspend
  obtain ⟨last, hloop, hout⟩ := bind_eq_ok.mp hspend
  cases hout
  exact (applyConditions_applied hloop).enforced_iff
    (hbirths.trans finalizeSpend_births) hcheck

theorem parseAndApplySpendFromArena_enforced {maxCost : UInt64} {output : SExp}
    (hparse : parseAndApplySpendFromArena sha256 constants coin maxCost mempool
      output conds extraCost = .ok out)
    (hbirths : spend.births = out.spend.births)
    (hcheck : validateSpendContext spend context ctx = .ok ()) :
    (∀ assertion ∈ assertionsOf output,
      AssertionHolds sha256 coin context assertion) ↔
      Consistent (assertionsOf output) := by
  refine ⟨consistent_of_holds, fun hconsistent => ?_⟩
  obtain ⟨start, last, -, hloop, rfl⟩ :=
    parseAndApplySpendFromArena_eq_ok hparse
  obtain ⟨happlied, hwritten, hbuilt⟩ := streamConditions_applied hloop
  have henforced := (happlied.enforced_iff
    (hbirths.trans finalizeSpend_births) hcheck).mpr
      (birthsAgree_of_consistent hconsistent hbuilt)
  rintro ⟨opcode, arg⟩ hmem
  obtain ⟨condition, hcondition, hbuild⟩ := hwritten opcode arg hmem
  apply assertionHolds_of_enforced hbuild
  · exact hconsistent.hashes opcode arg hmem
  · rintro rfl
    exact hconsistent.heights arg hmem
  · exact henforced condition hcondition

/-- In a block that is accepted with a context for a coin, every assertion of
that coin's spend is enforced exactly when its assertions are consistent.  The
spend in the block may differ from the one that was read in its flags and its
costs. -/
theorem validateBlockConditions_coinAssertions {block : SpendBundleConditions}
    (hvalid : validateBlockConditions sha256 block ctx = .ok ())
    (hspend : spend ∈ block.spends) (hcoin : spend.coinId = coin.name sha256)
    (hcontext : ctx.coinContext (coin.name sha256) = some context)
    (hbirths : spend.births = out.spend.births) :
    (∀ conditions, spendFromConditions sha256 coin conditions conds constants
        extraCost mempool = .ok out →
      ((∀ condition ∈ conditions, Enforced sha256 coin context condition) ↔
        BirthsAgree conditions)) ∧
    ∀ maxCost output, parseAndApplySpendFromArena sha256 constants coin
        maxCost mempool output conds extraCost = .ok out →
      ((∀ assertion ∈ assertionsOf output,
          AssertionHolds sha256 coin context assertion) ↔
        Consistent (assertionsOf output)) := by
  obtain ⟨-, hcontexts⟩ := validateBlockConditions_ok hvalid
  have hcheck := hcontexts spend hspend context (by rw [hcoin, hcontext])
  exact ⟨fun conditions hread =>
      spendFromConditions_enforced hread hbirths hcheck,
    fun maxCost output hread =>
      parseAndApplySpendFromArena_enforced hread hbirths hcheck⟩

end Enforcement

/-- `ASSERT_MY_BIRTH_HEIGHT 7` and `ASSERT_MY_BIRTH_HEIGHT 1`. -/
def twoBirths : SExp :=
  .ofList [.ofList [.atom [75], .atom [7]], .ofList [.atom [75], .atom [1]]]

/-- `ASSERT_MY_BIRTH_HEIGHT 1` and `ASSERT_MY_AMOUNT 0`. -/
def oneBirth : SExp :=
  .ofList [.ofList [.atom [75], .atom [1]], .ofList [.atom [73], .atom []]]

/-- What is left of these assertions in the spend. -/
def bornAtOne : Accumulators :=
  ⟨{ newSpend hash256 zeroCoin false with birthHeight := some 1 }, {}, 0⟩

/-- A bundle with one spend. -/
def soleSpend (spend : Spend) : SpendBundleConditions :=
  ⟨[spend], 0, 0, 0, none, none, [], 0, 0, 0⟩

/-- A coin born at height 1 is asserted to be born at height 7 and at height 1:
the second assertion replaces the first, and both readers and the block accept
the spend. -/
theorem validateBlockConditions_passes_twoBirths :
    (∃ out, spendFromConditions hash256 zeroCoin
        [.assertMyBirthHeight 7, .assertMyBirthHeight 1] {} mainnet 0 false =
          .ok out ∧
      validateBlockConditions hash256 (soleSpend out.spend) lateBlock = .ok () ∧
      ¬ Enforced hash256 zeroCoin ⟨some 1, some 100, some 1, some 100⟩
        (.assertMyBirthHeight 7)) ∧
    ∃ out, parseAndApplySpendFromArena hash256 mainnet zeroCoin
        mainnet.maxBlockCostClvm false twoBirths {} 0 = .ok out ∧
      validateBlockConditions hash256 (soleSpend out.spend) lateBlock = .ok () ∧
      ∃ assertion ∈ assertionsOf twoBirths, ¬ AssertionHolds hash256 zeroCoin
        ⟨some 1, some 100, some 1, some 100⟩ assertion := by
  refine ⟨⟨_, rfl, by decide +kernel, ?_⟩, bornAtOne, by decide +kernel,
    by decide +kernel, (.assertMyBirthHeight, [7]), by decide, ?_⟩
  · intro henforced
    exact absurd (some.inj henforced) (by decide)
  · intro hholds
    exact absurd (some.inj hholds) (by decide)

/-- The assertions of `oneBirth` are enforced, whichever reader reads them. -/
theorem validateBlockConditions_coinAssertions_at_oneBirth :
    (∃ out, spendFromConditions hash256 zeroCoin
        [.assertMyBirthHeight 1, .assertMyAmount 0] {} mainnet 0 false =
          .ok out ∧
      validateBlockConditions hash256 (soleSpend out.spend) lateBlock = .ok () ∧
      ∀ condition ∈ [.assertMyBirthHeight 1, .assertMyAmount 0],
        Enforced hash256 zeroCoin ⟨some 1, some 100, some 1, some 100⟩
          condition) ∧
    ∃ out, parseAndApplySpendFromArena hash256 mainnet zeroCoin
        mainnet.maxBlockCostClvm false oneBirth {} 0 = .ok out ∧
      validateBlockConditions hash256 (soleSpend out.spend) lateBlock = .ok () ∧
      Consistent (assertionsOf oneBirth) := by
  have hrun : spendFromConditions hash256 zeroCoin
    [.assertMyBirthHeight 1, .assertMyAmount 0] {} mainnet 0 false = .ok _ := rfl
  refine ⟨⟨_, hrun, ?hread, ((validateBlockConditions_coinAssertions ?hread
      (mem_singleton_self _) rfl rfl rfl).1 _ hrun).mpr ?_⟩, bornAtOne, ?hout,
    ?hstream, ((validateBlockConditions_coinAssertions ?hstream
      (mem_singleton_self _) rfl rfl rfl).2 _ _ ?hout).mp ?_⟩
  case hread | hstream | hout => decide +kernel
  · constructor <;> simp
  · have hassertions : assertionsOf oneBirth =
        [(.assertMyBirthHeight, [1]), (.assertMyAmount, [])] := by decide
    rw [hassertions]
    intro assertion hmem
    simp only [mem_cons, not_mem_nil, or_false] at hmem
    rcases hmem with rfl | rfl <;> rfl

end DgXch
