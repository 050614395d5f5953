/-
The encodings of an amount and the length of a generator.  A coin id,
`bigint_to_bytes` and the arena write the shortest two's-complement bytes;
`SExp` writes a word with its top bit set as a negative number.  The mempool's
length formula is exact on canonical programs and a bound on all others, except
that an empty program is written with one byte.
-/
import DgXch.CoinAssertions
import DgXch.NumberArith
import DgXch.SingletonRebase
import Mathlib.Algebra.Order.BigOperators.Group.List

namespace DgXch

open BigEndian TwosComplement FastForward Nat List

section Minimal

variable {bytes : Bytes}

/-- As the sign bit, a redundant zero is read off the range of the value. -/
theorem not_zeroPadded_iff {first : UInt8} {tail : Bytes} :
    zeroPadded (first :: tail) = false ↔
      256 ^ tail.length ≤ 2 * beNat (first :: tail) := by
  by_cases hfirst : first = 0
  · subst hfirst
    rw [beNat_zero_cons]
    rcases tail with _ | ⟨second, rest⟩
    · decide
    · rw [← negative_iff (cons_ne_nil _ _)]
      simp [zeroPadded]
  · have hle := le_beNat_cons hfirst tail
    exact iff_of_true (by simp [zeroPadded, hfirst]) (by omega)

/-- Bytes without a sign and without a redundant zero are the encoding of their
value. -/
theorem eq_bigintToBytes (hsign : negative bytes = false)
    (hpad : zeroPadded bytes = false) :
    bytes = bigintToBytes (beNat bytes) := by
  rw [← beInt_of_not_negative hsign]
  rcases bytes with _ | ⟨first, tail⟩
  · rfl
  have hvalue : beInt (first :: tail) ≠ 0 := by
    have hlow := not_zeroPadded_iff.mp hpad
    have hpos : 0 < 256 ^ tail.length := Nat.pow_pos (by decide)
    rw [beInt_of_not_negative hsign]
    omega
  rw [bigintToBytes_beInt (cons_ne_nil _ _) hvalue]
  rcases tail with _ | ⟨second, rest⟩
  · rfl
  rw [stripSign, if_neg]
  rintro (⟨rfl, hclear⟩ | ⟨rfl, -⟩)
  · simp [zeroPadded, negative_cons_iff, hclear] at hpad
  · cases hsign

/-- The range in which bytes need no sign and have no redundant zero. -/
theorem shortest_of_range {width n : Nat} (hlength : bytes.length = width + 1)
    (hvalue : beNat bytes = n) (hlow : 256 ^ width ≤ 2 * n)
    (hhigh : 2 * n < 256 ^ (width + 1)) :
    beNat bytes = n ∧ negative bytes = false ∧ zeroPadded bytes = false := by
  subst hvalue
  rcases bytes with _ | ⟨first, tail⟩
  · cases hlength
  rw [length_cons, succ_inj] at hlength
  subst hlength
  refine ⟨rfl, ?_, not_zeroPadded_iff.mpr hlow⟩
  rw [← Bool.not_eq_true, negative_iff (cons_ne_nil _ _)]
  exact hhigh.not_ge

/-- The bytes in front of those that hold the value are zero. -/
theorem beNat_drop {k : Nat} (h : beNat bytes < 256 ^ (bytes.drop k).length) :
    beNat (bytes.drop k) = beNat bytes := by
  have hsplit := beNat_append (bytes.take k) (bytes.drop k)
  rw [take_append_drop] at hsplit
  rw [← mod_eq_of_lt (beNat_lt (bytes.drop k)),
    ← mul_add_mod_self_right, ← hsplit, mod_eq_of_lt h]

end Minimal

section Words

variable {v : UInt64}

/-- A coin id hashes bytes that need no sign and have no redundant zero. -/
theorem coinAmountBytes_shortest :
    beNat (coinAmountBytes v) = v.toNat ∧
      negative (coinAmountBytes v) = false ∧
      zeroPadded (coinAmountBytes v) = false := by
  have hlt := v.toNat_lt
  have hbytes : beNat (beBytes 8 v.toNat) = v.toNat := by
    rw [beNat_beBytes, mod_eq_of_lt (lt_of_lt_of_le hlt (by norm_num))]
  unfold coinAmountBytes
  by_cases hbig : 0x8000000000000000 ≤ v
  · rw [if_pos hbig]
    have hhalf : 2 ^ 63 ≤ v.toNat := UInt64.le_iff_toNat_le.mp hbig
    have hlength : (0 :: beBytes 8 v.toNat).length = 8 + 1 := by
      rw [length_cons, length_beBytes]
    apply shortest_of_range hlength
    · rw [beNat_zero_cons, hbytes]
    · norm_num
      omega
    · norm_num
      omega
  rw [if_neg hbig]
  by_cases hzero : v = 0
  · subst hzero
    exact ⟨rfl, rfl, rfl⟩
  -- one byte for each eight bits and the sign
  have hne : v.toNat ≠ 0 := fun h => hzero (UInt64.toNat_inj.mp h)
  have hsmall : v.toNat.log2 < 63 := (Nat.log2_lt hne).mpr
    (UInt64.lt_iff_toNat_lt.mp (UInt64.not_le.mp hbig))
  have hpow (k : Nat) : 256 ^ k = 2 ^ (8 * k) := by
    rw [pow_mul]
    norm_num
  have hlow : 256 ^ ((v.toNat.log2 + 1) / 8) ≤ 2 * v.toNat := by
    calc 256 ^ ((v.toNat.log2 + 1) / 8) ≤ 2 ^ (v.toNat.log2 + 1) :=
          hpow _ ▸ Nat.pow_le_pow_right (by decide) (by omega)
      _ = 2 * 2 ^ v.toNat.log2 := Nat.pow_succ'
      _ ≤ 2 * v.toNat := Nat.mul_le_mul_left 2 (Nat.log2_self_le hne)
  have hhigh : 2 * v.toNat < 256 ^ ((v.toNat.log2 + 1) / 8 + 1) := by
    calc 2 * v.toNat < 2 * 2 ^ (v.toNat.log2 + 1) :=
          Nat.mul_lt_mul_of_pos_left Nat.lt_log2_self (by decide)
      _ = 2 ^ (v.toNat.log2 + 2) := Nat.pow_succ'.symm
      _ ≤ 256 ^ ((v.toNat.log2 + 1) / 8 + 1) :=
          hpow _ ▸ Nat.pow_le_pow_right (by decide) (by omega)
  rw [if_neg hzero, amountLeadingZeros, if_neg hzero]
  have hlength : ((beBytes 8 v.toNat).drop
      ((63 - v.toNat.log2 + 7) / 8 - 1)).length =
        (v.toNat.log2 + 1) / 8 + 1 := by
    rw [length_drop, length_beBytes]
    omega
  apply shortest_of_range hlength _ hlow hhigh
  rw [beNat_drop (by rw [hlength, hbytes]; omega), hbytes]

theorem coinAmountBytes_eq : coinAmountBytes v = bigintToBytes v.toNat := by
  obtain ⟨hvalue, hsign, hpad⟩ := coinAmountBytes_shortest (v := v)
  rw [← hvalue]
  exact eq_bigintToBytes hsign hpad

/-- `sanitize_uint` accepts the shortest encoding only. -/
theorem sanitizeUint_eq_ok {buf : Bytes} :
    sanitizeUint buf 8 = .ok v ↔ buf = bigintToBytes v.toNat := by
  have hlt := v.toNat_lt
  rw [sanitizeUint_eq]
  constructor
  · intro hok
    split_ifs at hok with hsign hpad hsize
    cases hok
    rw [beInt_neg_iff, Bool.not_eq_true] at hsign
    rw [UInt64.toNat_ofNat_of_lt' (not_le.mp hsize)]
    exact eq_bigintToBytes hsign (Bool.eq_false_iff.mpr hpad)
  · rintro rfl
    obtain ⟨hvalue, hsign, hpad⟩ := coinAmountBytes_shortest (v := v)
    rw [← coinAmountBytes_eq, if_neg (by rw [beInt_neg_iff, hsign]; decide),
      hpad, hvalue, if_neg (by decide), if_neg (by omega), UInt64.ofNat_toNat]

theorem atomU64_bigintToBytes (what : String) :
    atomU64 (.atom (bigintToBytes v.toNat)) what = .ok v := by
  have hlt := v.toNat_lt
  simp only [atomU64, numberFromSlice, beInt_bigintToBytes]
  rw [if_pos ⟨Int.natCast_nonneg _, by omega⟩, Int.toNat_natCast,
    UInt64.ofNat_toNat]

/-- `SExp::from` keeps eight bytes, so the top bit of a word becomes its
sign. -/
theorem ofU64_eq_iff :
    SExp.ofU64 v = .atom (bigintToBytes v.toNat) ↔ v.toNat < 2 ^ 63 := by
  constructor
  · intro hsame
    by_contra hbig
    have hread := atomU64_ofU64 v ""
    rw [hsame, atomU64_bigintToBytes, if_neg hbig] at hread
    cases hread
  · intro hsmall
    by_cases hzero : v = 0
    · subst hzero
      rfl
    have hne : beBytes 8 v.toNat ≠ [] := by
      rw [← length_pos_iff, length_beBytes]
      decide
    have hvalue : beInt (beBytes 8 v.toNat) = v.toNat := by
      rw [beInt_beBytes (by decide)
        (lt_of_lt_of_le v.toNat_lt (by norm_num)), if_pos]
      norm_num
      omega
    rw [SExp.ofU64, if_neg hzero, stripI128_eq_stripSign, ← hvalue,
      bigintToBytes_beInt hne]
    rw [hvalue]
    exact_mod_cast fun h => hzero (UInt64.toNat_inj.mp h)

end Words

section Reading

variable {cond : SExp} {condition : ConditionWithArgs} {v : UInt64} {buf : Bytes}

/-- A known condition was dispatched on its opcode. -/
theorem arenaCondition_known
    (hread : arenaCondition cond = .ok (some condition))
    (hknown : condition.opCode ≠ .unknown) :
    ∃ byte args, cond = .pair (.atom [byte]) args ∧
      arenaDispatch condition.opCode cond args = .ok (some condition) := by
  unfold arenaCondition at hread
  split at hread
  · cases hread
  · exact ⟨_, _, rfl, arenaDispatch_opCode hread ▸ hread⟩
  · rename_i hother
    obtain ⟨condition', hsome, hcondition⟩ := arenaGenericCondition_eq_ok hread
    cases hsome
    rcases conditionFromSexp_opCode hcondition with ⟨byte, rfl, -⟩ |
      ⟨-, hunknown⟩
    · exact (hother byte rfl).elim
    · exact absurd hunknown hknown

theorem sanitizeUintFromArena_eq_ok {node : SExp}
    (hread : sanitizeUintFromArena node 8 = .ok (.ok v)) :
    node = .atom (bigintToBytes v.toNat) := by
  cases node with
  | pair left right => cases hread
  | atom buf => rw [sanitizeUint_eq_ok.mp (Except.ok.inj hread)]

/-- The amount of a created coin has one encoding. -/
theorem arenaCondition_createCoin {puzzleHash : Bytes32} {memos : List Bytes}
    (hread : arenaCondition cond =
      .ok (some (.createCoin puzzleHash v memos))) :
    ∃ byte hash rest, cond = .pair (.atom [byte])
      (.pair (.atom hash) (.pair (.atom (bigintToBytes v.toNat)) rest)) := by
  obtain ⟨byte, args, rfl, hread⟩ := arenaCondition_known hread nofun
  obtain ⟨hash, node, rest, amount, rfl, hverdict, hresult⟩ :=
    arenaCreateCoin_eq_ok hread
  cases hresult
  exact ⟨byte, hash, rest, by rw [sanitizeUintFromArena_eq_ok hverdict]⟩

theorem arenaCondition_reserveFee
    (hread : arenaCondition cond = .ok (some (.reserveFee v))) :
    ∃ byte rest, cond = .pair (.atom [byte])
      (.pair (.atom (bigintToBytes v.toNat)) rest) := by
  obtain ⟨byte, args, rfl, hread⟩ := arenaCondition_known hread nofun
  cases args with
  | atom data => cases hread
  | pair node rest =>
    obtain ⟨verdict, hverdict, hresult⟩ := Except.bind_eq_ok.mp hread
    cases verdict <;> cases hresult
    exact ⟨byte, rest, by rw [sanitizeUintFromArena_eq_ok hverdict]⟩

theorem u64FromBigint_iff {item : Int} :
    u64FromBigint item = .ok v ↔ item = v.toNat := by
  have hlt := v.toNat_lt
  refine ⟨u64FromBigint_eq_ok, ?_⟩
  rintro rfl
  rw [u64FromBigint, if_neg (by omega), if_pos (by omega), Int.toNat_natCast,
    UInt64.ofNat_toNat]

/-- A reader that goes through `number_from_slice` accepts every encoding of an
amount. -/
theorem u64Read_iff {A : Type} {build : UInt64 → A}
    (hinj : Function.Injective build) :
    (u64FromBigint (numberFromSlice buf) >>= fun amount => .ok (build amount)) =
      .ok (build v) ↔ beInt buf = v.toNat := by
  rw [Except.bind_eq_ok, ← u64FromBigint_iff]
  constructor
  · rintro ⟨amount, hread, hbuild⟩
    rw [← hinj (Except.ok.inj hbuild)]
    exact hread
  · exact fun hread => ⟨v, hread, rfl⟩

theorem conditionFromSexp_createCoin_iff (puzzleHash : Bytes) :
    conditionFromSexp (.ofList [.atom [51], .atom puzzleHash, .atom buf]) =
        .ok (.createCoin (.ofVec puzzleHash) v []) ↔ beInt buf = v.toNat := by
  rw [← u64Read_iff (show Function.Injective fun amount : UInt64 =>
    ConditionWithArgs.createCoin (.ofVec puzzleHash) amount [] from
      fun _ _ h => (ConditionWithArgs.createCoin.inj h).2.1), ← liftIo_eq_ok]
  rfl

theorem conditionFromSexp_reserveFee_iff :
    conditionFromSexp (.ofList [.atom [52], .atom buf]) = .ok (.reserveFee v) ↔
      beInt buf = v.toNat := by
  rw [← u64Read_iff (fun _ _ => ConditionWithArgs.reserveFee.inj),
    ← liftIo_eq_ok]
  rfl

theorem messageArgs_amount_iff (role : String) :
    messageArgs .amount [buf] role = .ok (.amount v) ↔ beInt buf = v.toNat :=
  u64Read_iff (fun _ _ => MessageArgs.amount.inj)

theorem arenaCondition_assertMyAmount_iff
    (hlen : buf.length ≤ maxConditionAtom) :
    arenaCondition (.ofList [.atom [73], .atom buf]) =
      .ok (some (.assertMyAmount v)) ↔ beInt buf = v.toNat := by
  have hbounded : exportBoundedCondition (.ofList [.atom [73], .atom buf]) =
      .ok (.ofList [.atom [73], .atom buf]) := by
    have hsmall : ¬ maxConditionAtom < buf.length := Nat.not_lt.mpr hlen
    simp [exportBoundedCondition, SExp.ofList, SExp.nil, boundedWalk, hsmall,
      maxConditionNodes, show ¬ maxConditionAtom < 1 by decide]
  rw [← u64Read_iff (fun _ _ => ConditionWithArgs.assertMyAmount.inj),
    ← liftIo_eq_ok]
  change (exportBoundedCondition _ >>= fun bounded =>
    conditionFromSexp bounded >>= fun c => .ok (some c)) = _ ↔ _
  rw [hbounded, Except.bind_ok, Except.bind_eq_ok]
  simp only [Except.ok.injEq, Option.some.injEq, exists_eq_right]
  rfl

end Reading

/-- The encoders write the same shortest bytes for an amount, `SExp::from` for
the amounts below `2 ^ 63` only; the decoders read them back, and a condition
that creates a coin or reserves a fee is read from no other bytes of the arena.
The other readers accept all bytes that denote the amount. -/
theorem amount_encodings_agree (v : UInt64) :
    let minimal : Bytes := bigintToBytes v.toNat
    coinAmountBytes v = minimal ∧
    (∀ (arena arena' : Arena) (n : SExpNumber) (node : NodePtr),
      arena.InternSound → n.value = v.toNat →
      arena.newNumber n = (.ok node, arena') →
      arena'.atom node = .ok (some minimal)) ∧
    (SExp.ofU64 v = .atom minimal ↔ v.toNat < 2 ^ 63) ∧
    beInt minimal = v.toNat ∧
    (∀ bytes, beInt bytes = v.toNat → minimal.length ≤ bytes.length) ∧
    sanitizeUintFromArena (.atom minimal) 8 = .ok (.ok v) ∧
    asIntToU64 (.atom minimal) = .ok v ∧
    (∀ what, atomU64 (.atom minimal) what = .ok v) ∧
    (∀ puzzleHash memos, fromOpcodeWithArgs .createCoin
      (puzzleHash :: minimal :: memos) =
        .ok (.createCoin (.ofVec puzzleHash) v (createCoinMemos memos))) ∧
    (∀ cond puzzleHash memos,
      arenaCondition cond = .ok (some (.createCoin puzzleHash v memos)) →
      ∃ byte hash rest, cond = .pair (.atom [byte])
        (.pair (.atom hash) (.pair (.atom minimal) rest))) ∧
    (∀ cond, arenaCondition cond = .ok (some (.reserveFee v)) →
      ∃ byte rest, cond =
        .pair (.atom [byte]) (.pair (.atom minimal) rest)) ∧
    (∀ buf puzzleHash role,
      (conditionFromSexp (.ofList [.atom [51], .atom puzzleHash, .atom buf]) =
        .ok (.createCoin (.ofVec puzzleHash) v []) ↔ beInt buf = v.toNat) ∧
      (conditionFromSexp (.ofList [.atom [52], .atom buf]) =
        .ok (.reserveFee v) ↔ beInt buf = v.toNat) ∧
      (messageArgs .amount [buf] role = .ok (.amount v) ↔
        beInt buf = v.toNat) ∧
      (buf.length ≤ maxConditionAtom →
        (arenaCondition (.ofList [.atom [73], .atom buf]) =
          .ok (some (.assertMyAmount v)) ↔ beInt buf = v.toNat))) ∧
    beInt (0 :: minimal) = v.toNat := by
  have hlt := v.toNat_lt
  refine ⟨coinAmountBytes_eq, ?_, ofU64_eq_iff, beInt_bigintToBytes _, ?_, ?_,
    asIntToU64_bigintToBytes v, atomU64_bigintToBytes, ?_,
    fun _ _ _ => arenaCondition_createCoin,
    fun _ => arenaCondition_reserveFee, fun _ puzzleHash role =>
      ⟨conditionFromSexp_createCoin_iff puzzleHash,
        conditionFromSexp_reserveFee_iff, messageArgs_amount_iff role,
        arenaCondition_assertMyAmount_iff⟩, ?_⟩
  · intro arena arena' n node hintern hvalue hnew
    have hdenotes := hintern.newAtom_denotes hnew
    rw [n.bytes_eq, hvalue] at hdenotes
    exact hdenotes.atom_eq
  · intro bytes hvalue
    rw [← hvalue]
    exact length_bigintToBytes_minimal bytes
  · exact congrArg Except.ok (sanitizeUint_eq_ok.mpr rfl)
  · intro puzzleHash memos
    simp only [fromOpcodeWithArgs, numberFromSlice,
      u64FromBigint_iff.mpr (beInt_bigintToBytes v.toNat)]
    rfl
  · rw [beInt_of_not_negative rfl, beNat_zero_cons, ← coinAmountBytes_eq,
      coinAmountBytes_shortest.1]

/-- The amount five: its atom in an arena, the atom of a created coin, and an
assertion with a zero in front. -/
theorem amount_encodings_agree_at_five :
    (∃ node arena', Arena.new.newNumber (.i128 5) = (.ok node, arena') ∧
      arena'.atom node = .ok (some (bigintToBytes 5))) ∧
    (∃ byte hash rest, SExp.ofList [.atom [51], .atom Bytes32.zero.bytes,
        .atom [5]] = .pair (.atom [byte]) (.pair (.atom hash)
          (.pair (.atom (bigintToBytes 5)) rest))) ∧
    arenaCondition (.ofList [.atom [73], .atom [0, 5]]) =
      .ok (some (.assertMyAmount 5)) := by
  obtain ⟨-, hnumber, -, -, -, -, -, -, -, hcreates, -, hreads, -⟩ :=
    amount_encodings_agree 5
  refine ⟨⟨_, _, rfl, hnumber _ _ (.i128 5) _ Arena.sound_new.intern rfl rfl⟩,
    hcreates _ Bytes32.zero [] (by decide +kernel), ?_⟩
  exact ((hreads [0, 5] [] "").2.2.2 (by decide)).mpr (by decide)

/-- `SExp::from` writes `2 ^ 63` as a negative number, and `ASSERT_MY_AMOUNT`
is read from an amount with a redundant zero in front. -/
theorem amount_encodings_differ :
    SExp.ofU64 0x8000000000000000 ≠ .atom (coinAmountBytes 0x8000000000000000) ∧
      arenaCondition (.ofList [.atom [73], .atom [0, 5]]) =
        .ok (some (.assertMyAmount 5)) ∧
      coinAmountBytes 5 = [5] := by
  decide +kernel

open DgXch.Except

def solutionGeneratorFromCoinSpends (spends : List CoinSpend) :
    ClvmResult Bytes :=
  simpleSolutionGenerator spends.reverse

/-- The number of bytes that a tree is written with. -/
def wireLength : SExp → Nat
  | .atom data => serializedLengthAtom data
  | .pair first rest => 1 + wireLength first + wireLength rest

/-- The number of bytes that a program is written with again. -/
def rewrittenLength (program : Bytes) : Nat :=
  match fromSerial program with
  | .ok t => wireLength t
  | .error _ => 0

section Trees

variable {t : SExp} {w : Bytes}

theorem length_serialize (hwrite : serialize t = .ok w) :
    w.length = wireLength t := by
  induction t generalizing w with
  | atom data => exact length_writeAtom hwrite
  | pair first rest ihfirst ihrest =>
    obtain ⟨front, back, hfront, hback, rfl⟩ := serialize_pair_eq_ok.mp hwrite
    rw [length_cons, length_append, ihfirst hfront, ihrest hback, wireLength]
    omega

/-- A size that fits in a prefix needs no wider one. -/
theorem serializedLengthAtom_le {data : Bytes} {width : Nat}
    (hwidth : 1 ≤ width) (hle : width ≤ 6)
    (hlt : data.length < 2 ^ (7 - width) * 256 ^ (width - 1)) :
    serializedLengthAtom data ≤ width + data.length := by
  unfold serializedLengthAtom
  interval_cases width <;> norm_num at hlt <;> dsimp only <;> split_ifs <;>
    omega

/-- No spelling of a tree is shorter than the serializer's. -/
theorem Reads.wireLength_le (h : Reads w t) : wireLength t ≤ w.length := by
  induction h with
  | atom htoken =>
    cases htoken with
    | nil => decide
    | byte b hb =>
      have hwrite : writeAtom [b] = .ok [b] := by simp [writeAtom, hb]
      exact (length_writeAtom hwrite).ge
    | sized lead tail data hlead hwidth hsize hspells =>
      have hlength := hspells.width
      rw [length_cons, length_append, wireLength]
      apply (serializedLengthAtom_le (by omega) hwidth hspells.lt_pow).trans
      omega
  | pair hfirst hrest ihfirst ihrest =>
    rw [length_cons, length_append, wireLength]
    omega

theorem rewrittenLength_le (hne : w ≠ []) : rewrittenLength w ≤ w.length := by
  unfold rewrittenLength
  cases hparse : fromSerial w with
  | error e => exact zero_le _
  | ok t =>
    obtain ⟨token, back, hreads, rfl⟩ := (fromSerial_eq_ok hne).mp hparse
    rw [length_append]
    exact hreads.wireLength_le.trans (le_add_right _ _)

theorem rewrittenLength_serialize (hwrite : serialize t = .ok w) :
    rewrittenLength w = w.length := by
  rw [rewrittenLength, fromSerial_of_serialize hwrite, length_serialize hwrite]

theorem wireLength_ofList (items : List SExp) :
    wireLength (.ofList items) =
      1 + (items.map fun item => 1 + wireLength item).sum := by
  induction items with
  | nil => rfl
  | cons head tail ih =>
    rw [SExp.ofList, wireLength, ih, map_cons, sum_cons]
    omega

end Trees

/-- The formula's case for each width is the length of the amount's token. -/
theorem wireLength_amount (v : UInt64) :
    wireLength (.atom (bigintToBytes v.toNat)) = clvmBytesLen v := by
  obtain ⟨hvalue, hsign, hpad⟩ := @coinAmountBytes_shortest v
  have hnine := length_bigintToBytes_le v
  rw [coinAmountBytes_eq] at hvalue hsign hpad
  rcases hbytes : bigintToBytes v.toNat with _ | ⟨first, tail⟩
  · rw [hbytes] at hvalue
    obtain rfl : (0 : UInt64) = v := UInt64.toNat_inj.mp hvalue
    decide
  rw [hbytes] at hvalue hsign hpad hnine
  have hlow := not_zeroPadded_iff.mp hpad
  rw [← Bool.not_eq_true] at hsign
  have hhigh := mt (negative_iff (cons_ne_nil first tail)).mpr hsign
  rw [hvalue, length_cons] at hhigh
  rw [hvalue] at hlow
  rw [length_cons] at hnine
  simp only [clvmBytesLen, UInt64.lt_iff_toNat_lt, UInt64.reduceToNat]
  rcases tail with _ | ⟨second, rest⟩
  · have hfirst : first < 128 := UInt8.lt_iff_toNat_lt.mpr
      (not_le.mp (mt negative_cons.mpr hsign))
    rw [wireLength, serializedLengthAtom, if_pos (.inr ⟨rfl, hfirst⟩), if_pos]
    rw [length_nil] at hhigh
    omega
  · rw [wireLength, serializedLengthAtom, length_cons, if_neg (by simp),
      if_pos (by omega)]
    have hwidth : 1 ≤ (second :: rest).length := le_add_left 1 _
    generalize (second :: rest).length = width at hlow hhigh hnine hwidth ⊢
    have hle : width ≤ 8 := le_of_succ_le_succ hnine
    interval_cases width <;> norm_num at hlow hhigh <;> grind

section Spends

variable {spends : List CoinSpend}

/-- Both programs of a spend can be read. -/
def CoinSpend.Parses (spend : CoinSpend) : Prop :=
  (∃ t, fromSerial spend.puzzleReveal = .ok t) ∧
    ∃ t, fromSerial spend.solution = .ok t

/-- Both programs of a spend are as the serializer writes them. -/
def CoinSpend.Canonical (spend : CoinSpend) : Prop :=
  (∃ t, sexpToBytes t = .ok spend.puzzleReveal) ∧
    ∃ t, sexpToBytes t = .ok spend.solution

/-- The length of a generator whose programs have the lengths of `size`. -/
def generatorLength (size : Bytes → Nat) (spends : List CoinSpend) : Nat :=
  5 + (spends.map fun s => 39 + size s.puzzleReveal +
    clvmBytesLen s.coin.amount + size s.solution).sum

theorem spendBundleGeneratorLength_eq :
    spendBundleGeneratorLength spends = generatorLength length spends := by
  unfold spendBundleGeneratorLength generatorLength
  generalize 5 = start
  induction spends generalizing start with
  | nil => rfl
  | cons head tail ih => rw [foldl_cons, ih, map_cons, sum_cons, add_assoc]

theorem generatorLength_reverse (size : Bytes → Nat) :
    generatorLength size spends.reverse = generatorLength size spends := by
  rw [generatorLength, map_reverse, sum_reverse, generatorLength]

theorem wireLength_listed (spend : CoinSpend) (item : SExp)
    (h : spend.Listed item) :
    1 + wireLength item = 39 + rewrittenLength spend.puzzleReveal +
      clvmBytesLen spend.coin.amount + rewrittenLength spend.solution := by
  obtain ⟨puzzle, solution, hpuzzle, hsolution, rfl⟩ := h
  have hparent : wireLength (.atom spend.coin.parentCoinInfo.bytes) = 33 := by
    simp [wireLength, serializedLengthAtom, spend.coin.parentCoinInfo.length_eq]
  rw [wireLength_ofList, rewrittenLength, hpuzzle, rewrittenLength, hsolution]
  simp only [map_cons, map_nil, sum_cons, sum_nil, hparent, wireLength_amount]
  omega

/-- The generator is written with the lengths of the rewritten programs. -/
theorem buildGeneratorTree_length (h : ∀ s ∈ spends, s.Parses) :
    ∃ tree plain, buildGeneratorTree spends = .ok tree ∧ tree.Encodable ∧
      serialize tree = .ok plain ∧
      plain.length = generatorLength rewrittenLength spends := by
  obtain ⟨items, hitems, hlisted⟩ :=
    mapM_exists (f := generatorItem) (R := CoinSpend.Listed) fun s hs => by
      obtain ⟨⟨puzzle, hpuzzle⟩, solution, hsolution⟩ := h s hs
      refine ⟨_, ?_, puzzle, solution, hpuzzle, hsolution, rfl⟩
      rw [generatorItem, hpuzzle, bind_ok, hsolution, bind_ok]
  have hencodable := quotedList_encodable hlisted
  obtain ⟨plain, hplain⟩ := serialize_ok hencodable
  refine ⟨quotedList items, plain, ?_, hencodable, hplain, ?_⟩
  · rw [buildGeneratorTree, hitems]
    rfl
  rw [length_serialize hplain, quotedList, wireLength, wireLength_ofList,
    map_singleton, sum_singleton, wireLength_ofList, generatorLength,
    forall₂_map_eq wireLength_listed hlisted]
  change 1 + 1 + _ = _
  omega

theorem simpleSolutionGenerator_length (h : ∀ s ∈ spends, s.Parses) :
    ∃ program, simpleSolutionGenerator spends = .ok program ∧
      program.length = generatorLength rewrittenLength spends := by
  obtain ⟨tree, plain, htree, -, hplain, hlength⟩ := buildGeneratorTree_length h
  refine ⟨plain, ?_, hlength⟩
  rw [simpleSolutionGenerator, htree, bind_ok, sexpToBytes_eq_serialize, hplain]
  rfl

theorem compressedSolutionGenerator_length (sha256 : HashFn)
    (h : ∀ s ∈ spends, s.Parses) :
    ∃ program,
      compressedSolutionGeneratorFromCoinSpends sha256 spends = .ok program ∧
      program.length ≤ generatorLength rewrittenLength spends := by
  obtain ⟨tree, plain, htree, hencodable, hplain, hlength⟩ :=
    buildGeneratorTree_length fun s hs => h s (mem_reverse.mp hs)
  obtain ⟨w, hwrite, hcompressed⟩ := sexpToBytesBackrefs_ok sha256 hencodable
  refine ⟨w, ?_, ?_⟩
  · rw [compressedSolutionGeneratorFromCoinSpends, htree, bind_ok, hwrite]
  · rw [← generatorLength_reverse, ← hlength]
    exact hcompressed.length_le hplain

/-- The mempool's length is that of the plain generators where the programs are
canonical, and bounds both forms where no program is empty. -/
theorem spendBundleGeneratorLength_exact (sha256 : HashFn)
    (spends : List CoinSpend) :
    ((∀ s ∈ spends, s.Canonical) →
      (∃ program, simpleSolutionGenerator spends = .ok program ∧
        program.length = spendBundleGeneratorLength spends) ∧
      ∃ program, solutionGeneratorFromCoinSpends spends = .ok program ∧
        program.length = spendBundleGeneratorLength spends) ∧
    ((∀ s ∈ spends, s.Parses ∧ s.puzzleReveal ≠ [] ∧ s.solution ≠ []) →
      (∃ program, simpleSolutionGenerator spends = .ok program ∧
        program.length ≤ spendBundleGeneratorLength spends) ∧
      ∃ program,
        compressedSolutionGeneratorFromCoinSpends sha256 spends = .ok program ∧
        program.length ≤ spendBundleGeneratorLength spends) := by
  rw [spendBundleGeneratorLength_eq]
  constructor
  · intro h
    simp only [CoinSpend.Canonical, sexpToBytes_eq_serialize] at h
    have hparses (s : CoinSpend) (hs : s ∈ spends) : s.Parses :=
      (h s hs).imp (.imp fun _ => fromSerial_of_serialize)
        (.imp fun _ => fromSerial_of_serialize)
    have hlength : generatorLength length spends =
        generatorLength rewrittenLength spends := by
      unfold generatorLength
      rw [map_congr_left]
      intro s hs
      obtain ⟨⟨puzzle, hpuzzle⟩, solution, hsolution⟩ := h s hs
      rw [rewrittenLength_serialize hpuzzle,
        rewrittenLength_serialize hsolution]
    rw [hlength]
    refine ⟨simpleSolutionGenerator_length hparses, ?_⟩
    rw [← generatorLength_reverse]
    exact simpleSolutionGenerator_length fun s hs =>
      hparses s (mem_reverse.mp hs)
  · intro h
    have hle : generatorLength rewrittenLength spends ≤
        generatorLength length spends := by
      apply Nat.add_le_add_left
      apply List.sum_le_sum
      intro s hs
      have hreveal := rewrittenLength_le (h s hs).2.1
      have hsolution := rewrittenLength_le (h s hs).2.2
      omega
    obtain ⟨plain, hplain, hlength⟩ :=
      simpleSolutionGenerator_length fun s hs => (h s hs).1
    obtain ⟨small, hsmall, hshort⟩ :=
      compressedSolutionGenerator_length sha256 fun s hs => (h s hs).1
    exact ⟨⟨plain, hplain, hlength.le.trans hle⟩, small, hsmall,
      hshort.trans hle⟩

/-- Canonical programs, and a solution with a length byte too many. -/
theorem spendBundleGeneratorLength_exact_at_two :
    let plain : CoinSpend := ⟨⟨.zero, .zero, 1⟩, [1], [255, 1, 128]⟩
    let padded : CoinSpend := ⟨⟨.zero, .zero, 2⟩, [1], [192, 1, 5]⟩
    (∃ program, solutionGeneratorFromCoinSpends [plain, plain] = .ok program ∧
      program.length = 93) ∧
    ∃ program,
      compressedSolutionGeneratorFromCoinSpends hash256 [plain, padded] =
        .ok program ∧ program.length ≤ 93 := by
  intro plain padded
  have hcanonical : plain.Canonical :=
    ⟨⟨.atom [1], by decide +kernel⟩, .ofList [.atom [1]], by decide +kernel⟩
  have hplain : plain.Parses :=
    ⟨⟨.atom [1], by decide +kernel⟩, .ofList [.atom [1]], by decide +kernel⟩
  have hpadded : padded.Parses :=
    ⟨⟨.atom [1], by decide +kernel⟩, .atom [5], by decide +kernel⟩
  have hexact := spendBundleGeneratorLength_exact hash256
  constructor
  · exact ((hexact [plain, plain]).1 (by simpa using hcanonical)).2
  · apply ((hexact [plain, padded]).2 (forall_mem_cons.mpr ⟨?_, ?_⟩)).2
    · exact ⟨hplain, by decide, by decide⟩
    · exact forall_mem_singleton.mpr ⟨hpadded, by decide, by decide⟩

/-- A spend without solution bytes is read as a spend with a nil solution, which
the generator writes with a byte that the formula does not count. -/
theorem spendBundleGeneratorLength_undercharges :
    let spend : CoinSpend := ⟨⟨.zero, .zero, 1⟩, [1], []⟩
    spend.Parses ∧ spendBundleGeneratorLength [spend] = 46 ∧
      (simpleSolutionGenerator [spend]).map length = .ok 47 ∧
      (compressedSolutionGeneratorFromCoinSpends hash256 [spend]).map length =
        .ok 47 := by
  refine ⟨⟨⟨.atom [1], ?_⟩, .nil, ?_⟩, ?_⟩ <;> decide +kernel

end Spends

end DgXch
