/-
The checks that a block makes on the accumulated conditions of its spends
(`validate_block_conditions`), and the streaming reader of a puzzle's output
(`parse_and_apply_spend_from_arena`), which charges each condition before it
reads the next one.  A node of the run arena is the tree that it exports.
-/
import DgXch.Spends

namespace DgXch

open BigEndian DgXch.Except

variable {sha256 : HashFn} {ctx : ConditionValidationContext}
  {index : Nat} {state state' : SpendIndex}

structure CoinSpendContext where
  birthHeight : Option UInt32
  birthSeconds : Option UInt64
  spentHeight : Option UInt32
  spentSeconds : Option UInt64
deriving Repr, DecidableEq

structure ConditionValidationContext where
  blockHeight : UInt32
  previousTransactionBlockTimestamp : Option UInt64
  coinContext : Bytes32 → Option CoinSpendContext

/-- A check that raises one error. -/
def require (holds : Bool) (error : ChiaError) : Except ChiaError Unit :=
  if holds then .ok () else .error error

@[simp]
theorem require_eq_ok {holds : Bool} {error : ChiaError} :
    require holds error = .ok () ↔ holds = true := by
  cases holds <;> simp [require]

/-- An optional bound that is met, or that is not given. -/
def whenSome {A : Type} (bound : Option A) (holds : A → Bool) : Bool :=
  match bound with
  | some value => holds value
  | none => true

variable (spend : Spend)

/-- `validate_spend_context`.  A sum that overflows is not compared. -/
def validateSpendContext (context : CoinSpendContext)
    (blockContext : ConditionValidationContext) : Except ChiaError Unit := do
  require (whenSome spend.birthHeight fun expected =>
    context.birthHeight = some expected) .invalidCondition
  require (whenSome spend.birthSeconds fun expected =>
    context.birthSeconds = some expected) .invalidCondition
  require (whenSome spend.heightRelative fun relative =>
    whenSome (context.spentHeight.bind fun height =>
      checkedAdd32 height relative) fun required =>
        required ≤ blockContext.blockHeight) .assertHeightRelativeFailed
  require (whenSome spend.beforeHeightRelative fun beforeRelative =>
    whenSome (context.spentHeight.bind fun height =>
      checkedAdd32 height beforeRelative) fun before =>
        blockContext.blockHeight < before) .assertHeightRelativeFailed
  match blockContext.previousTransactionBlockTimestamp with
  | none => .ok ()
  | some timestamp => do
      require (whenSome spend.secondsRelative fun relative =>
        whenSome (context.spentSeconds.bind fun seconds =>
          checkedAdd64 seconds relative) fun required =>
            required ≤ timestamp) .assertSecondsRelativeFailed
      require (whenSome spend.beforeSecondsRelative fun beforeRelative =>
        whenSome (context.spentSeconds.bind fun seconds =>
          checkedAdd64 seconds beforeRelative) fun before =>
            timestamp < before) .assertSecondsRelativeFailed

def validateAbsoluteLocks (conds : SpendBundleConditions)
    (ctx : ConditionValidationContext) : Except ChiaError Unit := do
  require (conds.heightAbsolute ≤ ctx.blockHeight) .assertHeightAbsoluteFailed
  require (whenSome conds.beforeHeightAbsolute fun beforeHeight =>
    ctx.blockHeight < beforeHeight) .assertHeightAbsoluteFailed
  match ctx.previousTransactionBlockTimestamp with
  | none => .ok ()
  | some timestamp => do
      require (conds.secondsAbsolute ≤ timestamp) .assertSecondsAbsoluteFailed
      require (whenSome conds.beforeSecondsAbsolute fun beforeSeconds =>
        timestamp < beforeSeconds) .assertSecondsAbsoluteFailed

/-- Insert ids one after the other into a set and stop at the first that is
already there. -/
def insertAll {E : Type} (duplicate : Bytes32 → E) :
    List Bytes32 → List Bytes32 → Except E (List Bytes32)
  | [], seen => .ok seen
  | id :: rest, seen =>
    if id ∈ seen then .error (duplicate id)
    else insertAll duplicate rest (id :: seen)

def Spend.createdIds (sha256 : HashFn) (spend : Spend) : List Bytes32 :=
  spend.createCoin.map fun coin =>
    Coin.name sha256 ⟨spend.coinId, coin.puzzleHash, coin.amount⟩

/-- What the first loop of `validate_block_conditions` collects.  The index of
a coin in `spends` is found at its latest insertion. -/
structure SpendIndex where
  spent : List Bytes32 := []
  spentPuzzles : List Bytes32 := []
  coinIndex : List (Bytes32 × Nat) := []
  created : List Bytes32 := []
  coinAnnouncements : List Bytes32 := []
  puzzleAnnouncements : List Bytes32 := []
  assertedCoinAnnouncements : List Bytes32 := []
  assertedPuzzleAnnouncements : List Bytes32 := []
deriving Repr, DecidableEq

def collectAnnouncements (sha256 : HashFn) (spend : Spend)
    (state : SpendIndex) : SpendIndex :=
  { state with
    coinAnnouncements := state.coinAnnouncements ++
      spend.createCoinAnnouncements.map fun msg =>
        sha256 (spend.coinId.bytes ++ msg)
    puzzleAnnouncements := state.puzzleAnnouncements ++
      spend.createPuzzleAnnouncements.map fun msg =>
        sha256 (spend.puzzleHash.bytes ++ msg)
    assertedCoinAnnouncements :=
      state.assertedCoinAnnouncements ++ spend.assertCoinAnnouncements
    assertedPuzzleAnnouncements :=
      state.assertedPuzzleAnnouncements ++ spend.assertPuzzleAnnouncements }

/-- The context check of a spend whose coin is known. -/
def validateKnownContext (ctx : ConditionValidationContext) :
    Except ChiaError Unit :=
  match ctx.coinContext spend.coinId with
  | some context => validateSpendContext spend context ctx
  | none => .ok ()

/-- The body of the first loop of `validate_block_conditions`. -/
def indexSpend (sha256 : HashFn) (ctx : ConditionValidationContext)
    (index : Nat) (spend : Spend) (state : SpendIndex) :
    Except ChiaError SpendIndex := do
  require (spend.coinId ∉ state.spent) .doubleSpend
  validateKnownContext spend ctx
  let created ← insertAll (fun _ => .duplicateOutput)
    (spend.createdIds sha256) state.created
  .ok (collectAnnouncements sha256 spend
    { state with
      spent := spend.coinId :: state.spent
      spentPuzzles := spend.puzzleHash :: state.spentPuzzles
      coinIndex := (spend.coinId, index) :: state.coinIndex
      created })

/-- The first loop of `validate_block_conditions`. -/
def indexSpends (sha256 : HashFn) (ctx : ConditionValidationContext) :
    Nat → List Spend → SpendIndex → Except ChiaError SpendIndex
  | _, [], state => .ok state
  | index, spend :: rest, state => do
      let state ← indexSpend sha256 ctx index spend state
      indexSpends sha256 ctx (index + 1) rest state

def isEphemeral (coinIndex : List (Bytes32 × Nat)) (spends : List Spend) :
    Bool :=
  match coinIndex.lookup spend.parentId with
  | none => false
  | some idx =>
    match spends[idx]? with
    | none => false
    | some parent => parent.createCoin.any fun coin =>
      coin.puzzleHash = spend.puzzleHash && coin.amount = spend.coinAmount

def ownMessageId (bits : UInt8) (spend : Spend) : Bytes :=
  match (bits &&& 0b111).toNat with
  | 0 => [0]
  | 1 => 1 :: beBytes 8 spend.coinAmount.toNat
  | 2 => 2 :: spend.puzzleHash.bytes
  | 3 => 3 :: (spend.puzzleHash.bytes ++ beBytes 8 spend.coinAmount.toNat)
  | 4 => 4 :: spend.parentId.bytes
  | 5 => 5 :: (spend.parentId.bytes ++ beBytes 8 spend.coinAmount.toNat)
  | 6 => 6 :: (spend.parentId.bytes ++ spend.puzzleHash.bytes)
  | _ => 7 :: spend.coinId.bytes

def argsMessageId : MessageArgs → Bytes
  | .none => [0]
  | .amount amount => 1 :: beBytes 8 amount.toNat
  | .puzzle puzzleHash => 2 :: puzzleHash.bytes
  | .puzzleAmount puzzleHash amount =>
    3 :: (puzzleHash.bytes ++ beBytes 8 amount.toNat)
  | .parent parent => 4 :: parent.bytes
  | .parentAmount parent amount => 5 :: (parent.bytes ++ beBytes 8 amount.toNat)
  | .parentPuzzle parent puzzleHash => 6 :: (parent.bytes ++ puzzleHash.bytes)
  | .coinId coinId => 7 :: coinId.bytes

/-- `*message_counts.entry(key).or_insert(0) += delta`. -/
def adjustCount (key : Bytes) (delta : Int) :
    List (Bytes × Int) → List (Bytes × Int)
  | [] => [(key, delta)]
  | (existing, count) :: rest =>
    if existing = key then (existing, count + delta) :: rest
    else (existing, count) :: adjustCount key delta rest

/-- The messages of one spend, sent and received. -/
def countMessages (counts : List (Bytes × Int)) : List (Bytes × Int) :=
  let sent := spend.sentMessages.foldl (fun counts (message : SpendMessage) =>
    adjustCount (ownMessageId (message.mode >>> 3) spend ++
      argsMessageId message.args ++ message.message) 1 counts) counts
  spend.receivedMessages.foldl (fun counts (message : SpendMessage) =>
    adjustCount (argsMessageId message.args ++
      ownMessageId message.mode spend ++ message.message) (-1) counts) sent

/-- The body of the second loop of `validate_block_conditions`. -/
def checkSpend (state : SpendIndex) (spends : List Spend) (spend : Spend)
    (counts : List (Bytes × Int)) : Except ChiaError (List (Bytes × Int)) := do
  require (spend.assertConcurrentSpend.all (· ∈ state.spent))
    .assertConcurrentSpendFailed
  require (spend.assertConcurrentPuzzle.all (· ∈ state.spentPuzzles))
    .assertConcurrentPuzzleFailed
  require (!spend.assertEphemeral || isEphemeral spend state.coinIndex spends)
    .assertEphemeralFailed
  .ok (countMessages spend counts)

/-- The second loop of `validate_block_conditions`. -/
def checkSpends (state : SpendIndex) (spends : List Spend) :
    List Spend → List (Bytes × Int) → Except ChiaError (List (Bytes × Int))
  | [], counts => .ok counts
  | spend :: rest, counts => do
      let counts ← checkSpend state spends spend counts
      checkSpends state spends rest counts

def validateBlockConditions (sha256 : HashFn)
    (conds : SpendBundleConditions) (ctx : ConditionValidationContext) :
    Except ChiaError Unit := do
  validateAbsoluteLocks conds ctx
  let state ← indexSpends sha256 ctx 0 conds.spends {}
  require (state.assertedCoinAnnouncements.all (· ∈ state.coinAnnouncements))
    .assertAnnounceConsumedFailed
  require
    (state.assertedPuzzleAnnouncements.all (· ∈ state.puzzleAnnouncements))
    .assertAnnounceConsumedFailed
  let counts ← checkSpends state conds.spends conds.spends []
  require (counts.all fun entry => entry.2 = 0) .messageNotSentOrReceived

theorem indexSpends_contexts {spends : List Spend}
    (hindex : indexSpends sha256 ctx index spends state = .ok state') :
    ∀ spend ∈ spends, ∀ context, ctx.coinContext spend.coinId = some context →
      validateSpendContext spend context ctx = .ok () := by
  induction spends generalizing index state with
  | nil => simp
  | cons head tail ih =>
    obtain ⟨mid, hhead, htail⟩ := bind_eq_ok.mp hindex
    refine List.forall_mem_cons.mpr ⟨fun context hcontext => ?_, ih htail⟩
    obtain ⟨⟨⟩, -, hhead⟩ := bind_eq_ok.mp hhead
    obtain ⟨⟨⟩, hcheck, -⟩ := bind_eq_ok.mp hhead
    simpa only [validateKnownContext, hcontext] using hcheck

/-- An accepted block has passed the absolute locks and, for every spend whose
coin has a context, the checks against that context. -/
theorem validateBlockConditions_ok {conds : SpendBundleConditions}
    (hvalid : validateBlockConditions sha256 conds ctx = .ok ()) :
    validateAbsoluteLocks conds ctx = .ok () ∧
      ∀ spend ∈ conds.spends, ∀ context,
        ctx.coinContext spend.coinId = some context →
          validateSpendContext spend context ctx = .ok () := by
  obtain ⟨⟨⟩, habsolute, hvalid⟩ := bind_eq_ok.mp hvalid
  obtain ⟨state, hindex, -⟩ := bind_eq_ok.mp hvalid
  exact ⟨habsolute, indexSpends_contexts hindex⟩

theorem whenSome_eq_true {A : Type} {bound : Option A} {holds : A → Bool} :
    whenSome bound holds = true ↔
      ∀ value, bound = some value → holds value = true := by
  cases bound <;> simp [whenSome]

section Context

variable {spend : Spend} {conds : SpendBundleConditions}
  {context : CoinSpendContext} {timestamp : UInt64}

theorem validateAbsoluteLocks_ok
    (hvalid : validateAbsoluteLocks conds ctx = .ok ())
    (htime : ctx.previousTransactionBlockTimestamp = some timestamp) :
    conds.heightAbsolute ≤ ctx.blockHeight ∧
      (∀ bound, conds.beforeHeightAbsolute = some bound →
        ctx.blockHeight < bound) ∧
      conds.secondsAbsolute ≤ timestamp ∧
      (∀ bound, conds.beforeSecondsAbsolute = some bound →
        timestamp < bound) := by
  unfold validateAbsoluteLocks at hvalid
  simp only [htime] at hvalid
  obtain ⟨⟨⟩, hheight, hvalid⟩ := bind_eq_ok.mp hvalid
  obtain ⟨⟨⟩, hbeforeHeight, hvalid⟩ := bind_eq_ok.mp hvalid
  obtain ⟨⟨⟩, hseconds, hbeforeSeconds⟩ := bind_eq_ok.mp hvalid
  simp only [require_eq_ok, whenSome_eq_true, decide_eq_true_iff] at *
  exact ⟨hheight, hbeforeHeight, hseconds, hbeforeSeconds⟩

theorem validateSpendContext_births
    (hvalid : validateSpendContext spend context ctx = .ok ()) :
    (∀ height, spend.birthHeight = some height →
      context.birthHeight = some height) ∧
      ∀ seconds, spend.birthSeconds = some seconds →
        context.birthSeconds = some seconds := by
  obtain ⟨⟨⟩, hheight, hvalid⟩ := bind_eq_ok.mp hvalid
  obtain ⟨⟨⟩, hseconds, -⟩ := bind_eq_ok.mp hvalid
  simp only [require_eq_ok, whenSome_eq_true, decide_eq_true_iff] at *
  exact ⟨hheight, hseconds⟩

variable {birthHeight : UInt32} {birthSeconds : UInt64}

/-- The relative locks as comparisons of sums, where the sums fit. -/
theorem validateSpendContext_locks
    (hvalid : validateSpendContext spend context ctx = .ok ())
    (htime : ctx.previousTransactionBlockTimestamp = some timestamp)
    (hbirth : context.spentHeight = some birthHeight)
    (hborn : context.spentSeconds = some birthSeconds) :
    (∀ bound, spend.heightRelative = some bound →
      birthHeight.toNat + bound.toNat < 2 ^ 32 →
        birthHeight.toNat + bound.toNat ≤ ctx.blockHeight.toNat) ∧
      (∀ bound, spend.beforeHeightRelative = some bound →
        birthHeight.toNat + bound.toNat < 2 ^ 32 →
          ctx.blockHeight.toNat < birthHeight.toNat + bound.toNat) ∧
      (∀ bound, spend.secondsRelative = some bound →
        birthSeconds.toNat + bound.toNat < 2 ^ 64 →
          birthSeconds.toNat + bound.toNat ≤ timestamp.toNat) ∧
      ∀ bound, spend.beforeSecondsRelative = some bound →
        birthSeconds.toNat + bound.toNat < 2 ^ 64 →
          timestamp.toNat < birthSeconds.toNat + bound.toNat := by
  unfold validateSpendContext at hvalid
  simp only [htime, hbirth, hborn, Option.bind_some] at hvalid
  obtain ⟨⟨⟩, -, hvalid⟩ := bind_eq_ok.mp hvalid
  obtain ⟨⟨⟩, -, hvalid⟩ := bind_eq_ok.mp hvalid
  obtain ⟨⟨⟩, hheight, hvalid⟩ := bind_eq_ok.mp hvalid
  obtain ⟨⟨⟩, hbeforeHeight, hvalid⟩ := bind_eq_ok.mp hvalid
  obtain ⟨⟨⟩, hseconds, hbeforeSeconds⟩ := bind_eq_ok.mp hvalid
  simp only [require_eq_ok, whenSome_eq_true, decide_eq_true_iff] at *
  refine ⟨fun bound hbound hfits => ?_, fun bound hbound hfits => ?_,
    fun bound hbound hfits => ?_, fun bound hbound hfits => ?_⟩ <;>
    rw [← Nat.mod_eq_of_lt hfits]
  · rw [← UInt32.toNat_add, ← UInt32.le_iff_toNat_le]
    exact hheight bound hbound _ (if_pos hfits)
  · rw [← UInt32.toNat_add, ← UInt32.lt_iff_toNat_lt]
    exact hbeforeHeight bound hbound _ (if_pos hfits)
  · rw [← UInt64.toNat_add, ← UInt64.le_iff_toNat_le]
    exact hseconds bound hbound _ (if_pos hfits)
  · rw [← UInt64.toNat_add, ← UInt64.lt_iff_toNat_lt]
    exact hbeforeSeconds bound hbound _ (if_pos hfits)

end Context

open List Spend

/-- A message as both sides commit to it. -/
structure MessageTriple where
  source : MessageArgs
  destination : MessageArgs
  message : Bytes
deriving Repr, DecidableEq

/-- The fields of a spend that the three bits of a mode select. -/
def Spend.commitment (bits : UInt8) : MessageArgs :=
  match messageMode bits with
  | .none => .none
  | .amount => .amount spend.coinAmount
  | .puzzle => .puzzle spend.puzzleHash
  | .puzzleAmount => .puzzleAmount spend.puzzleHash spend.coinAmount
  | .parent => .parent spend.parentId
  | .parentAmount => .parentAmount spend.parentId spend.coinAmount
  | .parentPuzzle => .parentPuzzle spend.parentId spend.puzzleHash
  | .coinId => .coinId spend.coinId

def Spend.sentTriples : List MessageTriple :=
  spend.sentMessages.map fun (message : SpendMessage) =>
    ⟨spend.commitment (message.mode >>> 3), message.args, message.message⟩

def Spend.receivedTriples : List MessageTriple :=
  spend.receivedMessages.map fun (message : SpendMessage) =>
    ⟨message.args, spend.commitment message.mode, message.message⟩

def MessageTriple.key (triple : MessageTriple) : Bytes :=
  argsMessageId triple.source ++ argsMessageId triple.destination ++
    triple.message

/-- Both encoders write the same bytes for the same commitment. -/
theorem ownMessageId_eq (bits : UInt8) {spend : Spend} :
    ownMessageId bits spend = argsMessageId (spend.commitment bits) := by
  unfold ownMessageId commitment messageMode
  generalize (bits &&& 0b111).toNat = n
  match n with
  | 0 | 1 | 2 | 3 | 4 | 5 | 6 | _ + 7 => rfl

/-- The hash at the start of a byte string. -/
def leadingHash (bytes : Bytes) : Bytes32 := .ofVec (bytes.take 32)

/-- The amount at the start of a byte string. -/
def leadingAmount (bytes : Bytes) : UInt64 := .ofNat (beNat (bytes.take 8))

/-- Read a commitment back, with what follows it. -/
def readMessageId : Bytes → Option (MessageArgs × Bytes)
  | 0 :: rest => some (.none, rest)
  | 1 :: rest => some (.amount (leadingAmount rest), rest.drop 8)
  | 2 :: rest => some (.puzzle (leadingHash rest), rest.drop 32)
  | 3 :: rest => some (.puzzleAmount (leadingHash rest)
      (leadingAmount (rest.drop 32)), (rest.drop 32).drop 8)
  | 4 :: rest => some (.parent (leadingHash rest), rest.drop 32)
  | 5 :: rest => some (.parentAmount (leadingHash rest)
      (leadingAmount (rest.drop 32)), (rest.drop 32).drop 8)
  | 6 :: rest => some (.parentPuzzle (leadingHash rest)
      (leadingHash (rest.drop 32)), (rest.drop 32).drop 32)
  | 7 :: rest => some (.coinId (leadingHash rest), rest.drop 32)
  | _ => none

@[simp]
theorem leadingHash_append (hash : Bytes32) {rest : Bytes} :
    leadingHash (hash.bytes ++ rest) = hash := by
  rw [leadingHash, take_left' hash.length_eq]
  exact Bytes32.ext (Bytes32.ofVec_bytes_of_length hash.length_eq)

@[simp]
theorem leadingAmount_append (amount : UInt64) {rest : Bytes} :
    leadingAmount (beBytes 8 amount.toNat ++ rest) = amount := by
  have hlt : amount.toNat < 256 ^ 8 := amount.toNat_lt
  rw [leadingAmount, take_left' (length_beBytes 8 _), beNat_beBytes,
    Nat.mod_eq_of_lt hlt]
  exact UInt64.ofNat_toNat

@[simp]
theorem drop_hash_append (hash : Bytes32) {rest : Bytes} :
    (hash.bytes ++ rest).drop 32 = rest :=
  drop_left' hash.length_eq

theorem readMessageId_append (args : MessageArgs) {rest : Bytes} :
    readMessageId (argsMessageId args ++ rest) = some (args, rest) := by
  cases args <;> simp [argsMessageId, readMessageId]

/-- A commitment can be told from what follows it. -/
theorem argsMessageId_append_inj {args args' : MessageArgs} {rest rest' : Bytes}
    (h : argsMessageId args ++ rest = argsMessageId args' ++ rest') :
    args = args' ∧ rest = rest' := by
  have hread := congrArg readMessageId h
  simp only [readMessageId_append, Option.some.injEq, Prod.mk.injEq] at hread
  exact hread

open MessageTriple

theorem MessageTriple.key_injective : Function.Injective key := by
  rintro ⟨source, destination, message⟩ ⟨source', destination', message'⟩ h
  simp only [key, append_assoc] at h
  obtain ⟨hsource, hrest⟩ := argsMessageId_append_inj h
  obtain ⟨hdestination, hmessage⟩ := argsMessageId_append_inj hrest
  rw [hsource, hdestination, hmessage]

variable {counts : List (Bytes × Int)}

section Counts

def countOf (key : Bytes) (counts : List (Bytes × Int)) : Int :=
  (counts.lookup key).getD 0

variable {key other : Bytes} {delta : Int}

theorem countOf_cons (existing : Bytes) (count : Int) :
    countOf key ((existing, count) :: counts) =
      if key = existing then count else countOf key counts := by
  by_cases hsame : key = existing
  · simp [countOf, hsame]
  · have hbeq : (key == existing) = false := by simpa using hsame
    simp [countOf, lookup_cons, hbeq, hsame]

theorem countOf_adjustCount :
    countOf other (adjustCount key delta counts) =
      countOf other counts + if other = key then delta else 0 := by
  induction counts with
  | nil =>
    rw [adjustCount, countOf_cons]
    exact (zero_add _).symm
  | cons head tail ih =>
    obtain ⟨existing, count⟩ := head
    by_cases hfound : existing = key
    · simp only [adjustCount, hfound, if_true, countOf_cons]
      split_ifs <;> simp
    · simp only [adjustCount, hfound, if_false, countOf_cons, ih]
      by_cases hother : other = existing
      · simp [hother, hfound]
      · simp [hother]

theorem map_fst_adjustCount :
    (adjustCount key delta counts).map Prod.fst =
      if key ∈ counts.map Prod.fst then counts.map Prod.fst
      else counts.map Prod.fst ++ [key] := by
  induction counts with
  | nil => rfl
  | cons head tail ih =>
    obtain ⟨existing, count⟩ := head
    by_cases hfound : existing = key
    · simp [adjustCount, hfound]
    · simp only [adjustCount, hfound, if_false, map_cons, ih,
        mem_cons, Ne.symm hfound, false_or]
      split_ifs <;> rfl

/-- Counts that are kept for each key once. -/
theorem nodup_adjustCount (h : (counts.map Prod.fst).Nodup) :
    ((adjustCount key delta counts).map Prod.fst).Nodup := by
  rw [map_fst_adjustCount]
  split_ifs with hmem
  · exact h
  · exact nodup_append.mpr ⟨h, nodup_singleton key,
      fun a ha b hb hab => hmem (mem_singleton.mp hb ▸ hab ▸ ha)⟩

theorem all_zero_iff (h : (counts.map Prod.fst).Nodup) :
    (counts.all fun entry => entry.2 = 0) = true ↔
      ∀ key, countOf key counts = 0 := by
  induction counts with
  | nil => simp [countOf]
  | cons head tail ih =>
    obtain ⟨existing, count⟩ := head
    rw [map_cons, nodup_cons] at h
    have habsent : countOf existing tail = 0 := by
      have hnone : tail.lookup existing = none := by
        rw [lookup_eq_none_iff]
        intro entry hentry
        rw [bne_iff_ne]
        intro hsame
        exact h.1 (mem_map.mpr ⟨entry, hentry, hsame.symm⟩)
      rw [countOf, hnone]
      rfl
    rw [all_cons, Bool.and_eq_true, ih h.2, decide_eq_true_iff]
    constructor
    · rintro ⟨hcount, htail⟩ key
      rw [countOf_cons, htail key, show count = 0 from hcount, ite_self]
    · intro hall
      refine ⟨by simpa [countOf_cons] using hall existing, fun key => ?_⟩
      by_cases hsame : key = existing
      · rw [hsame, habsent]
      · simpa [countOf_cons, hsame] using hall key

/-- Adjusting by the same amount for each of a list of keys. -/
theorem countOf_foldl (keys : List Bytes) :
    countOf other (keys.foldl (fun counts key =>
      adjustCount key delta counts) counts) =
        countOf other counts + keys.count other * delta := by
  induction keys generalizing counts with
  | nil => simp
  | cons key keys ih =>
    rw [foldl_cons, ih, countOf_adjustCount, count_cons]
    by_cases hsame : other = key
    · simp [hsame]
      ring
    · simp [hsame, Ne.symm hsame]

theorem nodup_foldl (keys : List Bytes) (h : (counts.map Prod.fst).Nodup) :
    ((keys.foldl (fun counts key =>
      adjustCount key delta counts) counts).map Prod.fst).Nodup := by
  induction keys generalizing counts with
  | nil => exact h
  | cons key keys ih => exact ih (nodup_adjustCount h)

end Counts

/-- The counts of a list of spends. -/
def countAll (spends : List Spend) (counts : List (Bytes × Int)) :
    List (Bytes × Int) :=
  spends.foldl (fun counts spend => countMessages spend counts) counts

/-- The keys of sent messages count up, those of received ones down. -/
theorem countMessages_eq {spend : Spend} :
    countMessages spend counts =
      (spend.receivedTriples.map key).foldl
        (fun counts key => adjustCount key (-1) counts)
        ((spend.sentTriples.map key).foldl
          (fun counts key => adjustCount key 1 counts) counts) := by
  simp only [countMessages, receivedTriples, sentTriples, map_map,
    foldl_map, Function.comp_apply, key, ownMessageId_eq]

theorem countOf_countAll {spends : List Spend} (counts : List (Bytes × Int))
    (key : Bytes) : countOf key (countAll spends counts) =
      countOf key counts +
        ((spends.flatMap sentTriples).map MessageTriple.key).count key -
        ((spends.flatMap receivedTriples).map MessageTriple.key).count key := by
  induction spends generalizing counts with
  | nil => simp [countAll]
  | cons spend rest ih =>
    refine (ih _).trans ?_
    simp only [countMessages_eq, countOf_foldl, flatMap_cons,
      map_append, count_append, Nat.cast_add]
    ring

theorem nodup_countAll {spends : List Spend} (h : (counts.map Prod.fst).Nodup) :
    ((countAll spends counts).map Prod.fst).Nodup := by
  induction spends generalizing counts with
  | nil => exact h
  | cons spend rest ih =>
    apply ih
    dsimp only
    rw [countMessages_eq]
    exact nodup_foldl _ (nodup_foldl _ h)

/-- The counts net to zero exactly when what is sent is what is received. -/
theorem countAll_balanced_iff {spends : List Spend} :
    ((countAll spends []).all fun entry => entry.2 = 0) = true ↔
      (spends.flatMap sentTriples).Perm (spends.flatMap receivedTriples) := by
  have hnodup : ((countAll spends []).map Prod.fst).Nodup :=
    nodup_countAll (nodup_nil (α := Bytes))
  rw [all_zero_iff hnodup,
    ← map_perm_map_iff MessageTriple.key_injective, perm_iff_count]
  apply forall_congr'
  intro key
  rw [countOf_countAll, show countOf key [] = 0 from rfl]
  omega

def Spend.withoutMessages : Spend :=
  { spend with sentMessages := [], receivedMessages := [] }

def SpendBundleConditions.withoutMessages (conds : SpendBundleConditions) :
    SpendBundleConditions :=
  { conds with spends := conds.spends.map Spend.withoutMessages }

section Check

variable {spends rest : List Spend} {spend : Spend}

theorem indexSpends_withoutMessages :
    indexSpends sha256 ctx index (spends.map withoutMessages) state =
      indexSpends sha256 ctx index spends state := by
  induction spends generalizing index state with
  | nil => rfl
  | cons spend rest ih =>
    rw [map_cons, indexSpends, indexSpends]
    simp only [ih]
    rfl

theorem isEphemeral_withoutMessages :
    isEphemeral spend.withoutMessages state.coinIndex
        (spends.map withoutMessages) =
      isEphemeral spend state.coinIndex spends := by
  unfold isEphemeral
  rw [show spend.withoutMessages.parentId = spend.parentId from rfl]
  cases state.coinIndex.lookup spend.parentId with
  | none => rfl
  | some idx =>
    dsimp only
    rw [getElem?_map]
    cases spends[idx]? <;> rfl

variable (counts' : List (Bytes × Int))

/-- Apart from the messages, the second loop only checks. -/
theorem checkSpend_eq :
    checkSpend state spends spend counts =
      (checkSpend state (spends.map withoutMessages)
        spend.withoutMessages counts').map
          fun _ => countMessages spend counts := by
  rw [checkSpend, checkSpend, isEphemeral_withoutMessages]
  have hchecks : ∀ (r r' r'' : Except ChiaError Unit)
      (x y : List (Bytes × Int)),
      (do r; r'; r''; .ok x) = (do r; r'; r''; .ok y : Except _ _).map
        fun _ => x := by
    intro r r' r'' x y
    cases r with
    | error e => rfl
    | ok _ =>
      cases r' with
      | error e => rfl
      | ok _ => cases r'' <;> rfl
  exact hchecks _ _ _ _ _

theorem checkSpends_eq :
    checkSpends state spends rest counts =
      (checkSpends state (spends.map withoutMessages)
        (rest.map withoutMessages) counts').map
          fun _ => countAll rest counts := by
  induction rest generalizing counts counts' with
  | nil => rfl
  | cons spend rest ih =>
    rw [map_cons, checkSpends, checkSpends, checkSpend_eq counts']
    cases checkSpend state (spends.map withoutMessages)
      spend.withoutMessages counts' with
    | error e => rfl
    | ok mid => exact ih mid

theorem checkSpends_ok {counts' : List (Bytes × Int)}
    (h : checkSpends state spends rest counts = .ok counts') :
    counts' = countAll rest counts := by
  rw [checkSpends_eq []] at h
  cases hchecks : checkSpends state (spends.map withoutMessages)
      (rest.map withoutMessages) [] with
  | error e =>
    rw [hchecks] at h
    cases h
  | ok mid =>
    rw [hchecks] at h
    exact (Except.ok.inj h).symm

theorem countAll_withoutMessages :
    countAll (spends.map withoutMessages) counts = counts := by
  induction spends with
  | nil => rfl
  | cons spend rest ih => exact ih

end Check

open TwosComplement

inductive SanitizedUint where
  | ok (value : UInt64)
  | positiveOverflow
  | negativeOverflow
  | leadingZero
deriving Repr, DecidableEq

/-- The verdict of `sanitize_uint_from_arena` on the bytes of an atom. -/
def sanitizeUint (buf : Bytes) (maxSize : Nat) : SanitizedUint :=
  match buf with
  | [] => .ok 0
  | first :: tail =>
    if first &&& 0x80 ≠ 0 then .negativeOverflow
    else if buf = [0] ∨
        (1 < buf.length ∧ first = 0 ∧ tail.headD 0 &&& 0x80 = 0) then
      .leadingZero
    else if (if first = 0 then maxSize + 1 else maxSize) < buf.length then
      .positiveOverflow
    else .ok (buf.foldl (fun value b => (value <<< 8) ||| b.toUInt64) 0)

def sanitizeUintFromArena (node : SExp) (maxSize : Nat) :
    ClvmResult SanitizedUint :=
  match node with
  | .atom buf => .ok (sanitizeUint buf maxSize)
  | .pair _ _ => .error (.expectedAtomGotPair node)

def saturatingAssertU64 : SanitizedUint → Option UInt64
  | .ok value => some value
  | .negativeOverflow => none
  | .positiveOverflow | .leadingZero => some 0xffffffffffffffff

def saturatingBeforeU64 : SanitizedUint → Option UInt64
  | .ok value => some value
  | .positiveOverflow => none
  | .negativeOverflow | .leadingZero => some 0

/-- `u32::try_from(value).unwrap_or(u32::MAX)`. -/
def clampU32 (value : UInt64) : UInt32 :=
  if value.toNat < 2 ^ 32 then UInt32.ofNat value.toNat else 0xffffffff

def saturatingAssertU32 (verdict : SanitizedUint) : Option UInt32 :=
  (saturatingAssertU64 verdict).map clampU32

def saturatingBeforeU32 (verdict : SanitizedUint) : Option UInt32 :=
  (saturatingBeforeU64 verdict).map clampU32

/-- One integer argument, classified and turned into a condition. -/
def arenaUintArg {A : Type} (argNode : SExp) (maxSize : Nat)
    (saturate : SanitizedUint → Option A) (build : A → ConditionWithArgs) :
    ClvmResult (Option ConditionWithArgs) := do
  let verdict ← sanitizeUintFromArena argNode maxSize
  .ok ((saturate verdict).map build)

/-- `arena_uint_condition`.  The last branch is `unreachable!` in the source,
which calls the function on these nine opcodes only. -/
def arenaUintCondition (opcode : ConditionOpcode) (args : SExp) :
    ClvmResult (Option ConditionWithArgs) :=
  match args with
  | .atom _ =>
    .error (.invalidSpendbundle (opcode.display ++ " missing argument"))
  | .pair argNode _ =>
    match opcode with
    | .reserveFee => do
        match ← sanitizeUintFromArena argNode 8 with
        | .ok fee => .ok (some (.reserveFee fee))
        | _ => .error (.conditionFailure .reserveFeeConditionFailed)
    | .assertHeightAbsolute =>
      arenaUintArg argNode 4 saturatingAssertU32 .assertHeightAbsolute
    | .assertHeightRelative =>
      arenaUintArg argNode 4 saturatingAssertU32 .assertHeightRelative
    | .assertSecondsAbsolute =>
      arenaUintArg argNode 8 saturatingAssertU64 .assertSecondsAbsolute
    | .assertSecondsRelative =>
      arenaUintArg argNode 8 saturatingAssertU64 .assertSecondsRelative
    | .assertBeforeHeightAbsolute =>
      arenaUintArg argNode 4 saturatingBeforeU32 .assertBeforeHeightAbsolute
    | .assertBeforeHeightRelative =>
      arenaUintArg argNode 4 saturatingBeforeU32 .assertBeforeHeightRelative
    | .assertBeforeSecondsAbsolute =>
      arenaUintArg argNode 8 saturatingBeforeU64
        .assertBeforeSecondsAbsolute
    | .assertBeforeSecondsRelative =>
      arenaUintArg argNode 8 saturatingBeforeU64
        .assertBeforeSecondsRelative
    | _ => .error (.invalidSpendbundle "unreachable")

/-- The hint memo of `CREATE_COIN`: the first element of the memo list if it is
an atom of at most 32 bytes. -/
def arenaHint : SExp → List Bytes
  | .pair (.pair (.atom memo) _) _ => if memo.length ≤ 32 then [memo] else []
  | _ => []

def arenaCreateCoin (args : SExp) : ClvmResult (Option ConditionWithArgs) :=
  match args with
  | .atom _ => .error (.invalidSpendbundle "CREATE_COIN missing puzzle hash")
  | .pair (.pair _ _) _ =>
    .error (.invalidSpendbundle "CREATE_COIN puzzle hash not 32 bytes")
  | .pair (.atom puzzleHash) afterPh =>
    if puzzleHash.length ≠ 32 then
      .error (.invalidSpendbundle "CREATE_COIN puzzle hash not 32 bytes")
    else
      match afterPh with
      | .atom _ => .error (.invalidSpendbundle "CREATE_COIN missing amount")
      | .pair amountNode afterAmount => do
          match ← sanitizeUintFromArena amountNode 8 with
          | .ok amount =>
            .ok (some (.createCoin (.ofVec puzzleHash) amount
              (arenaHint afterAmount)))
          | .negativeOverflow => .error (.conditionFailure .coinAmountNegative)
          | .positiveOverflow | .leadingZero =>
            .error (.conditionFailure .coinAmountExceedsMaximum)

def maxConditionAtom : Nat := 1024

def maxConditionNodes : Nat := 2 ^ 16

/-- The bounded walk of `export_bounded_condition`; the stack has its top
first. -/
def boundedWalk : List SExp → Nat → ClvmResult Unit
  | [], _ => .ok ()
  | node :: stack, nodes =>
    if maxConditionNodes < nodes + 1 then
      .error (.invalidSpendbundle "condition subtree too large")
    else
      match node with
      | .atom data =>
        if maxConditionAtom < data.length then
          .error (.invalidSpendbundle "condition argument atom too large")
        else boundedWalk stack (nodes + 1)
      | .pair first rest => boundedWalk (rest :: first :: stack) (nodes + 1)
termination_by stack => (stack.map SExp.size).sum
decreasing_by
  all_goals simp [SExp.size]
  all_goals omega

def exportBoundedCondition (cond : SExp) : ClvmResult SExp := do
  boundedWalk [cond] 0
  .ok cond

def arenaGenericCondition (cond : SExp) :
    ClvmResult (Option ConditionWithArgs) := do
  let bounded ← exportBoundedCondition cond
  let condition ← conditionFromSexp bounded
  .ok (some condition)

/-- The dispatch of `arena_condition` on a one-byte opcode. -/
def arenaDispatch (opcode : ConditionOpcode) (cond args : SExp) :
    ClvmResult (Option ConditionWithArgs) :=
  match opcode with
  | .assertHeightAbsolute | .assertHeightRelative | .assertSecondsAbsolute
  | .assertSecondsRelative | .assertBeforeHeightAbsolute
  | .assertBeforeHeightRelative | .assertBeforeSecondsAbsolute
  | .assertBeforeSecondsRelative | .reserveFee => arenaUintCondition opcode args
  | .createCoin => arenaCreateCoin args
  | .remark => .ok (some (.remark ⟨[], Nat.zero_le _⟩))
  | .unknown => .ok (some .unknown)
  | _ => arenaGenericCondition cond

def arenaCondition (cond : SExp) : ClvmResult (Option ConditionWithArgs) :=
  match cond with
  | .atom _ => .error (.invalidSpendbundle "condition is not a list")
  | .pair (.atom [byte]) args =>
    arenaDispatch (ConditionOpcode.ofByte byte) cond args
  | .pair _ _ => arenaGenericCondition cond

section Stream

variable (sha256 : HashFn) (constants : ConsensusConstants)
  (coin : Coin) (maxCost : UInt64) (mempool : Bool)

/-- The loop of `parse_and_apply_spend_from_arena`. -/
def streamConditions : SExp → Nat → Accumulators → ClvmResult Accumulators
  | .atom _, _, acc => .ok acc
  | .pair cond rest, index, acc => do
      match ← arenaCondition cond with
      | none => streamConditions rest index acc
      | some condition =>
        let acc ← applyParsedCondition sha256 constants coin mempool index
          condition acc
        let running ← addOrOverflow "block generator cost overflow"
          acc.conds.cost acc.extraCost
        if maxCost < running then .error (.costExceeded maxCost running)
        else streamConditions rest (index + 1) acc

def parseAndApplySpendFromArena (output : SExp)
    (conds : SpendBundleConditions) (extraCost : UInt64) :
    ClvmResult Accumulators := do
  let acc ← startSpend sha256 coin mempool conds extraCost
  let acc ← streamConditions sha256 constants coin maxCost mempool output 0 acc
  let spend := finalizeSpend acc.spend acc.extraCost extraCost mempool
  .ok { acc with spend }

end Stream

theorem foldl_u64_eq (buf : Bytes) :
    buf.foldl (fun (value : UInt64) b => (value <<< 8) ||| b.toUInt64) 0 =
      UInt64.ofNat (beNat buf) := by
  apply UInt64.toNat_inj.mp
  rw [foldl_mod_eq _ toNat_shift_or64 buf 0 (by decide)]
  simp

/-- The leading-zero test of `sanitize_uint_from_arena`. -/
theorem leadingZero_iff (first : UInt8) (tail : Bytes) :
    (first :: tail = [0] ∨ (1 < (first :: tail).length ∧ first = 0 ∧
      tail.headD 0 &&& 0x80 = 0)) ↔ zeroPadded (first :: tail) = true := by
  cases tail with
  | nil => simp [zeroPadded, negative]
  | cons second rest =>
    have hsign : negative (second :: rest) = false ↔ second &&& 0x80 = 0 := by
      rw [← Bool.not_eq_true, negative_cons_iff, not_not]
    simp [zeroPadded, hsign]

/-- The size test: a leading zero does not count. -/
theorem sizeLimit_iff {first : UInt8} {tail : Bytes}
    (hpad : ¬ zeroPadded (first :: tail) = true) (maxSize : Nat) :
    (if first = 0 then maxSize + 1 else maxSize) < (first :: tail).length ↔
      256 ^ maxSize ≤ beNat (first :: tail) := by
  by_cases hfirst : first = 0
  · subst hfirst
    cases tail with
    | nil => exact absurd rfl hpad
    | cons second rest =>
      have hsecond : second ≠ 0 := by
        rintro rfl
        exact hpad rfl
      rw [if_pos rfl, beNat_zero_cons, pow_le_beNat_iff hsecond]
      simp only [List.length_cons]
      omega
  · rw [if_neg hfirst, pow_le_beNat_iff hfirst, List.length_cons,
      Nat.lt_succ_iff]

/-- The verdict is about the integer, except that a redundant zero byte is
reported in place of it. -/
theorem sanitizeUint_eq (buf : Bytes) (maxSize : Nat) :
    sanitizeUint buf maxSize =
      if beInt buf < 0 then .negativeOverflow
      else if zeroPadded buf then .leadingZero
      else if 256 ^ maxSize ≤ beNat buf then .positiveOverflow
      else .ok (UInt64.ofNat (beNat buf)) := by
  cases buf with
  | nil => simp [sanitizeUint, beInt, negative, zeroPadded]
  | cons first tail =>
    rw [sanitizeUint, if_congr ((negative_cons_iff first tail).symm.trans
      beInt_neg_iff.symm) rfl (if_congr (leadingZero_iff first tail) rfl rfl)]
    by_cases hpad : zeroPadded (first :: tail) = true
    · rw [if_pos hpad, if_pos hpad]
    · rw [if_neg hpad, if_neg hpad,
        if_congr (sizeLimit_iff hpad maxSize) rfl rfl, foldl_u64_eq]

section Run

variable {constants : ConsensusConstants} {coin : Coin} {maxCost : UInt64}
  {mempool : Bool}

/-- One turn of the loop either skips the condition or applies it. -/
theorem streamConditions_pair {cond rest : SExp} {index : Nat}
    {acc acc' : Accumulators}
    (hstream : streamConditions sha256 constants coin maxCost mempool
      (.pair cond rest) index acc = .ok acc') :
    (arenaCondition cond = .ok none ∧
      streamConditions sha256 constants coin maxCost mempool rest index acc =
        .ok acc') ∨
    ∃ condition mid, arenaCondition cond = .ok (some condition) ∧
      applyParsedCondition sha256 constants coin mempool index condition acc =
        .ok mid ∧
      streamConditions sha256 constants coin maxCost mempool rest (index + 1)
        mid = .ok acc' := by
  obtain ⟨result, hread, hstream⟩ := bind_eq_ok.mp hstream
  cases result with
  | none => exact .inl ⟨hread, hstream⟩
  | some condition =>
    obtain ⟨mid, happly, hstream⟩ := bind_eq_ok.mp hstream
    obtain ⟨running, -, hstream⟩ := bind_eq_ok.mp hstream
    split_ifs at hstream
    exact .inr ⟨condition, mid, hread, happly, hstream⟩

/-- The three parts of reading a spend from the arena. -/
theorem parseAndApplySpendFromArena_eq_ok {output : SExp}
    {conds : SpendBundleConditions} {extraCost : UInt64} {out : Accumulators}
    (hparse : parseAndApplySpendFromArena sha256 constants coin maxCost mempool
      output conds extraCost = .ok out) :
    ∃ start last, startSpend sha256 coin mempool conds extraCost = .ok start ∧
      streamConditions sha256 constants coin maxCost mempool output 0 start =
        .ok last ∧
      out = { last with
        spend := finalizeSpend last.spend last.extraCost extraCost mempool } := by
  obtain ⟨start, hstart, hparse⟩ := bind_eq_ok.mp hparse
  obtain ⟨last, hstream, hparse⟩ := bind_eq_ok.mp hparse
  exact ⟨start, last, hstart, hstream, (Except.ok.inj hparse).symm⟩

end Run

end DgXch
