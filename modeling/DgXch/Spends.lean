/-
The conditions a puzzle can output, how one of them is read from a CLVM tree
(`condition_opcode.rs`, `condition_with_args.rs`, the integer conversions of
`formatting.rs`), and how they are folded into the record of a spend and of its
bundle (`apply_parsed_condition`, `spend_from_conditions`).
-/
import DgXch.ClvmParser

namespace DgXch

open BigEndian TwosComplement DgXch.Except

inductive ConditionOpcode where
  | unknown
  | remark
  | aggSigParent
  | aggSigPuzzle
  | aggSigAmount
  | aggSigPuzzleAmount
  | aggSigParentAmount
  | aggSigParentPuzzle
  | aggSigUnsafe
  | aggSigMe
  | createCoin
  | reserveFee
  | createCoinAnnouncement
  | assertCoinAnnouncement
  | createPuzzleAnnouncement
  | assertPuzzleAnnouncement
  | assertConcurrentSpend
  | assertConcurrentPuzzle
  | sendMessage
  | receiveMessage
  | assertMyCoinId
  | assertMyParentId
  | assertMyPuzzlehash
  | assertMyAmount
  | assertMyBirthSeconds
  | assertMyBirthHeight
  | assertEphemeral
  | assertSecondsRelative
  | assertSecondsAbsolute
  | assertHeightRelative
  | assertHeightAbsolute
  | assertBeforeSecondsRelative
  | assertBeforeSecondsAbsolute
  | assertBeforeHeightRelative
  | assertBeforeHeightAbsolute
  | softFork
deriving Repr, DecidableEq

namespace ConditionOpcode

/-- `impl From<u8> for ConditionOpcode`. -/
def ofByte (value : UInt8) : ConditionOpcode :=
  match value.toNat with
  | 1 => .remark
  | 43 => .aggSigParent
  | 44 => .aggSigPuzzle
  | 45 => .aggSigAmount
  | 46 => .aggSigPuzzleAmount
  | 47 => .aggSigParentAmount
  | 48 => .aggSigParentPuzzle
  | 49 => .aggSigUnsafe
  | 50 => .aggSigMe
  | 51 => .createCoin
  | 52 => .reserveFee
  | 60 => .createCoinAnnouncement
  | 61 => .assertCoinAnnouncement
  | 62 => .createPuzzleAnnouncement
  | 63 => .assertPuzzleAnnouncement
  | 64 => .assertConcurrentSpend
  | 65 => .assertConcurrentPuzzle
  | 66 => .sendMessage
  | 67 => .receiveMessage
  | 70 => .assertMyCoinId
  | 71 => .assertMyParentId
  | 72 => .assertMyPuzzlehash
  | 73 => .assertMyAmount
  | 74 => .assertMyBirthSeconds
  | 75 => .assertMyBirthHeight
  | 76 => .assertEphemeral
  | 80 => .assertSecondsRelative
  | 81 => .assertSecondsAbsolute
  | 82 => .assertHeightRelative
  | 83 => .assertHeightAbsolute
  | 84 => .assertBeforeSecondsRelative
  | 85 => .assertBeforeSecondsAbsolute
  | 86 => .assertBeforeHeightRelative
  | 87 => .assertBeforeHeightAbsolute
  | 90 => .softFork
  | _ => .unknown

/-- `impl Display for ConditionOpcode`. -/
def display : ConditionOpcode → String
  | .unknown => "Unknown"
  | .remark => "Remark"
  | .aggSigParent => "AggSigParent"
  | .aggSigPuzzle => "AggSigPuzzle"
  | .aggSigAmount => "AggSigAmount"
  | .aggSigPuzzleAmount => "AggSigPuzzleAmount"
  | .aggSigParentAmount => "AggSigParentAmount"
  | .aggSigParentPuzzle => "AggSigParentPuzzle"
  | .aggSigUnsafe => "AggSigUnsafe"
  | .aggSigMe => "AggSigMe"
  | .createCoin => "CreateCoin"
  | .reserveFee => "ReserveFee"
  | .createCoinAnnouncement => "CreateCoinAnnouncement"
  | .assertCoinAnnouncement => "AssertCoinAnnouncement"
  | .createPuzzleAnnouncement => "CreatePuzzleAnnouncement"
  | .assertPuzzleAnnouncement => "AssertPuzzleAnnouncement"
  | .assertConcurrentSpend => "AssertConcurrentSpend"
  | .assertConcurrentPuzzle => "AssertConcurrentPuzzle"
  | .sendMessage => "SendMessage"
  | .receiveMessage => "ReceiveMessage"
  | .assertMyCoinId => "AssertMyCoinId"
  | .assertMyParentId => "AssertMyParentId"
  | .assertMyPuzzlehash => "AssertMyPuzzlehash"
  | .assertMyAmount => "AssertMyAmount"
  | .assertMyBirthSeconds => "AssertMyBirthSeconds"
  | .assertMyBirthHeight => "AssertMyBirthHeight"
  | .assertEphemeral => "AssertEphemeral"
  | .assertSecondsRelative => "AssertSecondsRelative"
  | .assertSecondsAbsolute => "AssertSecondsAbsolute"
  | .assertHeightRelative => "AssertHeightRelative"
  | .assertHeightAbsolute => "AssertHeightAbsolute"
  | .assertBeforeSecondsRelative => "AssertBeforeSecondsRelative"
  | .assertBeforeSecondsAbsolute => "AssertBeforeSecondsAbsolute"
  | .assertBeforeHeightRelative => "AssertBeforeHeightRelative"
  | .assertBeforeHeightAbsolute => "AssertBeforeHeightAbsolute"
  | .softFork => "SoftFork"

end ConditionOpcode

/-- `Message`: at most 1024 bytes. -/
@[ext]
structure Message where
  data : Bytes
  length_le : data.length ≤ 1024
deriving Repr, DecidableEq

def Message.new (msg : Bytes) : ClvmResult Message :=
  if hlength : msg.length ≤ 1024 then .ok ⟨msg, hlength⟩
  else .error (.invalidInput "Message too long")

inductive MessageArgs where
  | none
  | coinId (coinId : Bytes32)
  | parent (parent : Bytes32)
  | puzzle (puzzleHash : Bytes32)
  | amount (amount : UInt64)
  | parentPuzzle (parent puzzleHash : Bytes32)
  | parentAmount (parent : Bytes32) (amount : UInt64)
  | puzzleAmount (puzzleHash : Bytes32) (amount : UInt64)
deriving Repr, DecidableEq

inductive MessageArgsType where
  | none
  | coinId
  | parent
  | puzzle
  | amount
  | parentPuzzle
  | parentAmount
  | puzzleAmount
deriving Repr, DecidableEq

inductive ConditionWithArgs where
  | unknown
  | remark (message : Message)
  | aggSigParent (publicKey : Bytes48) (message : Message)
  | aggSigPuzzle (publicKey : Bytes48) (message : Message)
  | aggSigAmount (publicKey : Bytes48) (message : Message)
  | aggSigPuzzleAmount (publicKey : Bytes48) (message : Message)
  | aggSigParentAmount (publicKey : Bytes48) (message : Message)
  | aggSigParentPuzzle (publicKey : Bytes48) (message : Message)
  | aggSigUnsafe (publicKey : Bytes48) (message : Message)
  | aggSigMe (publicKey : Bytes48) (message : Message)
  | createCoin (puzzleHash : Bytes32) (amount : UInt64) (memos : List Bytes)
  | reserveFee (fee : UInt64)
  | createCoinAnnouncement (message : Message)
  | assertCoinAnnouncement (announcement : Bytes32)
  | createPuzzleAnnouncement (message : Message)
  | assertPuzzleAnnouncement (announcement : Bytes32)
  | assertConcurrentSpend (coinId : Bytes32)
  | assertConcurrentPuzzle (puzzleHash : Bytes32)
  | sendMessage (mode : UInt8) (message : Message) (args : MessageArgs)
  | receiveMessage (mode : UInt8) (message : Message) (args : MessageArgs)
  | assertMyCoinId (coinId : Bytes32)
  | assertMyParentId (parentId : Bytes32)
  | assertMyPuzzlehash (puzzleHash : Bytes32)
  | assertMyAmount (amount : UInt64)
  | assertMyBirthSeconds (seconds : UInt64)
  | assertMyBirthHeight (height : UInt32)
  | assertEphemeral
  | assertSecondsRelative (seconds : UInt64)
  | assertSecondsAbsolute (seconds : UInt64)
  | assertHeightRelative (height : UInt32)
  | assertHeightAbsolute (height : UInt32)
  | assertBeforeSecondsRelative (seconds : UInt64)
  | assertBeforeSecondsAbsolute (seconds : UInt64)
  | assertBeforeHeightRelative (height : UInt32)
  | assertBeforeHeightAbsolute (height : UInt32)
  | softFork (cost : UInt64)
deriving Repr, DecidableEq

/-- `number_from_slice`: a signed big-endian integer, zero for no bytes. -/
def numberFromSlice (v : Bytes) : Int := beInt v

def u64FromBigint (item : Int) : Except IoError UInt64 :=
  if item < 0 then
    .error ⟨.invalidData, "cannot convert negative integer to u64"⟩
  else if item < 2 ^ 64 then .ok (UInt64.ofNat item.toNat)
  else .error ⟨.invalidData, "u64::MAX overflow"⟩

def saturatingU32FromBigint (item : Int) : UInt32 :=
  if item < 0 then 0
  else if item < 2 ^ 32 then UInt32.ofNat item.toNat
  else 0xffffffff

def saturatingU64FromBigint (item : Int) : UInt64 :=
  if item < 0 then 0
  else if item < 2 ^ 64 then UInt64.ofNat item.toNat
  else 0xffffffffffffffff

/-- `u32_from_slice`: unsigned, at most four bytes. -/
def u32FromSlice (buf : Bytes) : Option UInt32 :=
  if 4 < buf.length then none
  else some (buf.foldl (fun ret b => (ret <<< 8) ||| b.toUInt32) 0)

def ErrorKind.debug : ErrorKind → String
  | .invalidData => "InvalidData"
  | .invalidInput => "InvalidInput"
  | .unexpectedEof => "UnexpectedEof"
  | .other => "Other"

/-- An I/O error that has passed through `ClvmError::IoError` and back. -/
def IoError.rewrapped (e : IoError) : IoError :=
  ⟨.other, "IoError(Custom \x7b kind: " ++ e.kind.debug ++ ", error: \"" ++
    e.message ++ "\" \x7d)"⟩

/-- `Message::new(..)?` in a function that returns an I/O error. -/
def messageArg (msg : Bytes) : Except IoError Message :=
  (Message.new msg).mapError
    fun _ => ⟨.other, "InvalidInput(\"Message too long\")"⟩

def messageMode (bits : UInt8) : MessageArgsType :=
  match (bits &&& 0b111).toNat with
  | 0 => .none
  | 1 => .amount
  | 2 => .puzzle
  | 3 => .puzzleAmount
  | 4 => .parent
  | 5 => .parentAmount
  | 6 => .parentPuzzle
  | _ => .coinId

/-- `send_message_mode`: the receiver bits. -/
def sendMessageMode (mode : UInt8) : MessageArgsType :=
  messageMode (mode &&& 0b111)

/-- `receive_message_mode`: the sender bits. -/
def receiveMessageMode (mode : UInt8) : MessageArgsType :=
  messageMode ((mode >>> 3) &&& 0b111)

/-- `args.pop()` in `message_args`. -/
def popArg (sendOrReceive : String) :
    List Bytes → Except IoError (Bytes × List Bytes)
  | [] => .error ⟨.invalidData, "Too Few Vars for " ++ sendOrReceive⟩
  | arg :: args => .ok (arg, args)

/-- `message_args`; the arguments are in the order they were written. -/
def messageArgs (mode : MessageArgsType) (args : List Bytes)
    (sendOrReceive : String) : Except IoError MessageArgs :=
  match mode with
  | .none => .ok .none
  | .coinId => do
      let (coinId, _) ← popArg sendOrReceive args
      .ok (.coinId (.ofVec coinId))
  | .parent => do
      let (parent, _) ← popArg sendOrReceive args
      .ok (.parent (.ofVec parent))
  | .puzzle => do
      let (puzzle, _) ← popArg sendOrReceive args
      .ok (.puzzle (.ofVec puzzle))
  | .amount => do
      let (amountVec, _) ← popArg sendOrReceive args
      let amount ← u64FromBigint (numberFromSlice amountVec)
      .ok (.amount amount)
  | .parentPuzzle => do
      let (parent, args) ← popArg sendOrReceive args
      let (puzzleHash, _) ← popArg sendOrReceive args
      .ok (.parentPuzzle (.ofVec parent) (.ofVec puzzleHash))
  | .parentAmount => do
      let (parent, args) ← popArg sendOrReceive args
      let (amountVec, _) ← popArg sendOrReceive args
      let amount ← u64FromBigint (numberFromSlice amountVec)
      .ok (.parentAmount (.ofVec parent) amount)
  | .puzzleAmount => do
      let (puzzleHash, args) ← popArg sendOrReceive args
      let (amountVec, _) ← popArg sendOrReceive args
      let amount ← u64FromBigint (numberFromSlice amountVec)
      .ok (.puzzleAmount (.ofVec puzzleHash) amount)

variable (sexp : SExp)

/-- `memos_from_sexp`: a list of atoms. -/
def memosFromSexp : ClvmResult (List Bytes) :=
  sexp.asList.mapM fun
    | .atom data => .ok data
    | .pair _ _ => .error
        (.ioError ⟨.invalidData, "CreateCoin memos must be a list of atoms"⟩)

/-- `memos_from_bytes`.  The caller drops the error, so a parse error is passed
on as it is and not by its text. -/
def memosFromBytes (blob : Bytes) : ClvmResult (List Bytes) := do
  let (sexp, cursor) ← sexpFromBytes ⟨blob, 0⟩
  if cursor.pos ≠ blob.length then
    .error (.ioError ⟨.invalidData, "Invalid memo list encoding"⟩)
  else memosFromSexp sexp

/-- The memos of `CREATE_COIN`: what follows the puzzle hash and the amount. -/
def createCoinMemos : List Bytes → List Bytes
  | [] => []
  | [memoBytes] =>
    match memosFromBytes memoBytes with
    | .ok memos => memos
    | .error _ => [memoBytes]
  | memos => memos

def invalidVars {A : Type} (name : String) : Except IoError A :=
  .error ⟨.invalidData, "Invalid Vars for " ++ name⟩

/-- A condition with exactly one argument. -/
def oneArg {A : Type} (name : String) (read : Bytes → Except IoError A) :
    List Bytes → Except IoError A
  | [arg] => read arg
  | _ => invalidVars name

section Readers

variable (name : String)

/-- The arguments of an `AGG_SIG` condition; the message is checked first. -/
def aggSigArgs (build : Bytes48 → Message → ConditionWithArgs) :
    List Bytes → Except IoError ConditionWithArgs
  | [publicKey, msg] => do
      let message ← messageArg msg
      .ok (build (.ofVec publicKey) message)
  | _ => invalidVars name

/-- The arguments of `SEND_MESSAGE` and `RECEIVE_MESSAGE`. -/
def messageConditionArgs (side : UInt8 → MessageArgsType)
    (build : UInt8 → Message → MessageArgs → ConditionWithArgs) :
    List Bytes → Except IoError ConditionWithArgs
  | modeAtom :: msg :: args =>
    match modeAtom with
    | [mode] =>
      if mode &&& 0b11000000 ≠ 0 then
        .error ⟨.invalidData, "Invalid Mode for " ++ name⟩
      else do
        let message ← messageArg msg
        let msgArgs ← (messageArgs (side mode) args name).mapError
          IoError.rewrapped
        .ok (build mode message msgArgs)
    | _ => .error ⟨.invalidData, "Invalid Mode for " ++ name⟩
  | _ => invalidVars name

/-- A one-argument condition on a 32-byte string. -/
def bytes32Arg (build : Bytes32 → ConditionWithArgs) :
    List Bytes → Except IoError ConditionWithArgs :=
  oneArg name fun arg => .ok (build (.ofVec arg))

/-- A one-argument condition on a message. -/
def messageOnlyArg (build : Message → ConditionWithArgs) :
    List Bytes → Except IoError ConditionWithArgs :=
  oneArg name fun arg => do
    let message ← messageArg arg
    .ok (build message)

variable (build : UInt64 → ConditionWithArgs)

/-- A one-argument condition on an integer that must fit in 64 bits. -/
def u64Arg : List Bytes → Except IoError ConditionWithArgs :=
  oneArg name fun arg => do
    let value ← u64FromBigint (numberFromSlice arg)
    .ok (build value)

/-- A one-argument time lock in seconds. -/
def secondsArg : List Bytes → Except IoError ConditionWithArgs :=
  oneArg name fun arg =>
    .ok (build (saturatingU64FromBigint (numberFromSlice arg)))

/-- A one-argument time lock in blocks. -/
def heightArg (build : UInt32 → ConditionWithArgs) :
    List Bytes → Except IoError ConditionWithArgs :=
  oneArg name fun arg =>
    .ok (build (saturatingU32FromBigint (numberFromSlice arg)))

end Readers

/-- `from_opcode_with_args`.  `RESERVE_FEE` reports `CreateCoin`, and the cost
of `SOFTFORK` is scaled in wrapping arithmetic. -/
def fromOpcodeWithArgs (opCode : ConditionOpcode) (args : List Bytes) :
    Except IoError ConditionWithArgs :=
  match opCode with
  | .unknown => .ok .unknown
  | .remark => .ok (.remark ⟨[], by decide⟩)
  | .aggSigParent => aggSigArgs "AggSigParent" .aggSigParent args
  | .aggSigPuzzle => aggSigArgs "AggSigPuzzle" .aggSigPuzzle args
  | .aggSigAmount => aggSigArgs "AggSigAmount" .aggSigAmount args
  | .aggSigPuzzleAmount =>
    aggSigArgs "AggSigPuzzleAmount" .aggSigPuzzleAmount args
  | .aggSigParentAmount =>
    aggSigArgs "AggSigParentAmount" .aggSigParentAmount args
  | .aggSigParentPuzzle =>
    aggSigArgs "AggSigParentPuzzle" .aggSigParentPuzzle args
  | .aggSigUnsafe => aggSigArgs "AggSigUnsafe" .aggSigUnsafe args
  | .aggSigMe => aggSigArgs "AggSigMe" .aggSigMe args
  | .createCoin =>
    match args with
    | puzzleHash :: amountBytes :: memos => do
        let amount ← u64FromBigint (numberFromSlice amountBytes)
        .ok (.createCoin (.ofVec puzzleHash) amount (createCoinMemos memos))
    | _ => invalidVars "CreateCoin"
  | .reserveFee => u64Arg "CreateCoin" .reserveFee args
  | .createCoinAnnouncement =>
    messageOnlyArg "CreateCoinAnnouncement" .createCoinAnnouncement args
  | .assertCoinAnnouncement =>
    bytes32Arg "AssertCoinAnnouncement" .assertCoinAnnouncement args
  | .createPuzzleAnnouncement =>
    messageOnlyArg "CreatePuzzleAnnouncement" .createPuzzleAnnouncement args
  | .assertPuzzleAnnouncement =>
    bytes32Arg "AssertPuzzleAnnouncement" .assertPuzzleAnnouncement args
  | .assertConcurrentSpend =>
    bytes32Arg "AssertConcurrentSpend" .assertConcurrentSpend args
  | .assertConcurrentPuzzle =>
    bytes32Arg "AssertConcurrentPuzzle" .assertConcurrentPuzzle args
  | .sendMessage =>
    messageConditionArgs "SendMessage" sendMessageMode .sendMessage args
  | .receiveMessage =>
    messageConditionArgs "ReceiveMessage" receiveMessageMode .receiveMessage
      args
  | .assertMyCoinId => bytes32Arg "AssertMyCoinId" .assertMyCoinId args
  | .assertMyParentId => bytes32Arg "AssertMyParentId" .assertMyParentId args
  | .assertMyPuzzlehash =>
    bytes32Arg "AssertMyPuzzlehash" .assertMyPuzzlehash args
  | .assertMyAmount => u64Arg "AssertMyAmount" .assertMyAmount args
  | .assertMyBirthSeconds =>
    u64Arg "AssertMyBirthSeconds" .assertMyBirthSeconds args
  | .assertMyBirthHeight =>
    oneArg "AssertMyBirthHeight"
      (fun arg =>
        match u32FromSlice arg with
        | some height => .ok (.assertMyBirthHeight height)
        | none =>
          .error ⟨.invalidData, "Invalid Height for AssertMyBirthHeight"⟩)
      args
  | .assertEphemeral =>
    if args = [] then .ok .assertEphemeral
    else invalidVars "AssertEphemeral"
  | .assertSecondsRelative =>
    secondsArg "AssertSecondsRelative" .assertSecondsRelative args
  | .assertSecondsAbsolute =>
    secondsArg "AssertSecondsAbsolute" .assertSecondsAbsolute args
  | .assertHeightRelative =>
    heightArg "AssertHeightRelative" .assertHeightRelative args
  | .assertHeightAbsolute =>
    heightArg "AssertHeightAbsolute" .assertHeightAbsolute args
  | .assertBeforeSecondsRelative =>
    secondsArg "AssertBeforeSecondsRelative" .assertBeforeSecondsRelative args
  | .assertBeforeSecondsAbsolute =>
    secondsArg "AssertBeforeSecondsAbsolute" .assertBeforeSecondsAbsolute args
  | .assertBeforeHeightRelative =>
    heightArg "AssertBeforeHeightRelative" .assertBeforeHeightRelative args
  | .assertBeforeHeightAbsolute =>
    heightArg "AssertBeforeHeightAbsolute" .assertBeforeHeightAbsolute args
  | .softFork => u64Arg "SoftFork" (fun cost => .softFork (cost * 10000)) args

/-- The loop of `op_code_with_args_from_sexp` over the elements of a
condition. -/
def opCodeWithArgsLoop : List SExp → Nat → Bool → ConditionOpcode →
    List Bytes → Except IoError (ConditionOpcode × List Bytes)
  | [], _, _, opcode, vars => .ok (opcode, vars)
  | .atom arg :: rest, index, true, _, vars =>
    if arg.length ≠ 1 then
      .error ⟨.invalidData, "Invalid OpCode for Condition"⟩
    else
      opCodeWithArgsLoop rest (index + 1) false
        (ConditionOpcode.ofByte (arg.headD 0)) vars
  | .atom arg :: rest, index, false, opcode, vars =>
    opCodeWithArgsLoop rest (index + 1) false opcode (vars ++ [arg])
  | .pair left right :: rest, index, first, opcode, vars =>
    if opcode = .remark ∨ (index = 3 ∧ opcode = .createCoin) then do
      let bytes ← sexpToBytes (.pair left right)
      opCodeWithArgsLoop rest (index + 1) first opcode (vars ++ [bytes])
    else .ok (opcode, vars)

/-- The opcodes that may stand without arguments. -/
def ConditionOpcode.mayBeBare (opcode : ConditionOpcode) : Bool :=
  opcode = .assertEphemeral || opcode = .remark || opcode = .unknown

def opCodeWithArgsFromSexp : Except IoError (ConditionOpcode × List Bytes) := do
  let (opcode, vars) ← opCodeWithArgsLoop sexp.iter 0 true .unknown []
  if vars = [] ∧ opcode.mayBeBare = false then
    .error ⟨.invalidData, "Invalid Condition " ++ opcode.display ++ " No Vars"⟩
  else .ok (opcode, vars)

/-- `impl TryFrom<&SExp> for ConditionWithArgs`. -/
def conditionFromSexp : ClvmResult ConditionWithArgs := do
  let (opCode, args) ← liftIo (opCodeWithArgsFromSexp sexp)
  liftIo (fromOpcodeWithArgs opCode args)

/-- `impl TryFrom<&SExp> for Vec<ConditionWithArgs>`. -/
def conditionsFromSexp : ClvmResult (List ConditionWithArgs) :=
  sexp.iter.mapM conditionFromSexp

def ConditionWithArgs.aggSigInfinityPubkey (condition : ConditionWithArgs) :
    Option Bytes48 :=
  match condition with
  | .aggSigParent publicKey _ | .aggSigPuzzle publicKey _
  | .aggSigAmount publicKey _ | .aggSigPuzzleAmount publicKey _
  | .aggSigParentAmount publicKey _ | .aggSigParentPuzzle publicKey _
  | .aggSigUnsafe publicKey _ | .aggSigMe publicKey _ =>
    if publicKey.bytes = 0xc0 :: List.replicate 47 0 then some publicKey
    else none
  | _ => none

def ConditionWithArgs.opCode : ConditionWithArgs → ConditionOpcode
  | .unknown => .unknown
  | .remark _ => .remark
  | .aggSigParent _ _ => .aggSigParent
  | .aggSigPuzzle _ _ => .aggSigPuzzle
  | .aggSigAmount _ _ => .aggSigAmount
  | .aggSigPuzzleAmount _ _ => .aggSigPuzzleAmount
  | .aggSigParentAmount _ _ => .aggSigParentAmount
  | .aggSigParentPuzzle _ _ => .aggSigParentPuzzle
  | .aggSigUnsafe _ _ => .aggSigUnsafe
  | .aggSigMe _ _ => .aggSigMe
  | .createCoin _ _ _ => .createCoin
  | .reserveFee _ => .reserveFee
  | .createCoinAnnouncement _ => .createCoinAnnouncement
  | .assertCoinAnnouncement _ => .assertCoinAnnouncement
  | .createPuzzleAnnouncement _ => .createPuzzleAnnouncement
  | .assertPuzzleAnnouncement _ => .assertPuzzleAnnouncement
  | .assertConcurrentSpend _ => .assertConcurrentSpend
  | .assertConcurrentPuzzle _ => .assertConcurrentPuzzle
  | .sendMessage _ _ _ => .sendMessage
  | .receiveMessage _ _ _ => .receiveMessage
  | .assertMyCoinId _ => .assertMyCoinId
  | .assertMyParentId _ => .assertMyParentId
  | .assertMyPuzzlehash _ => .assertMyPuzzlehash
  | .assertMyAmount _ => .assertMyAmount
  | .assertMyBirthSeconds _ => .assertMyBirthSeconds
  | .assertMyBirthHeight _ => .assertMyBirthHeight
  | .assertEphemeral => .assertEphemeral
  | .assertSecondsRelative _ => .assertSecondsRelative
  | .assertSecondsAbsolute _ => .assertSecondsAbsolute
  | .assertHeightRelative _ => .assertHeightRelative
  | .assertHeightAbsolute _ => .assertHeightAbsolute
  | .assertBeforeSecondsRelative _ => .assertBeforeSecondsRelative
  | .assertBeforeSecondsAbsolute _ => .assertBeforeSecondsAbsolute
  | .assertBeforeHeightRelative _ => .assertBeforeHeightRelative
  | .assertBeforeHeightAbsolute _ => .assertBeforeHeightAbsolute
  | .softFork _ => .softFork

section Arguments

variable {name : String} {args : List Bytes} {condition : ConditionWithArgs}

theorem oneArg_eq_ok {A : Type} {read : Bytes → Except IoError A} {out : A} :
    oneArg name read args = .ok out ↔
      ∃ arg, args = [arg] ∧ read arg = .ok out := by
  constructor
  · intro hread
    unfold oneArg at hread
    split at hread
    · exact ⟨_, rfl, hread⟩
    · cases hread
  · rintro ⟨arg, rfl, hread⟩
    exact hread

theorem bytes32Arg_eq_ok {build : Bytes32 → ConditionWithArgs} :
    bytes32Arg name build args = .ok condition ↔
      ∃ arg, args = [arg] ∧ build (.ofVec arg) = condition := by
  simp only [bytes32Arg, oneArg_eq_ok, Except.ok.injEq]

theorem u64Arg_eq_ok {build : UInt64 → ConditionWithArgs} :
    u64Arg name build args = .ok condition ↔
      ∃ arg value, args = [arg] ∧
        u64FromBigint (numberFromSlice arg) = .ok value ∧
        build value = condition := by
  simp only [u64Arg, oneArg_eq_ok, bind_eq_ok, Except.ok.injEq, exists_and_left]

theorem aggSigArgs_eq_ok {build : Bytes48 → Message → ConditionWithArgs}
    (hread : aggSigArgs name build args = .ok condition) :
    ∃ publicKey message, build publicKey message = condition := by
  unfold aggSigArgs at hread
  split at hread
  · obtain ⟨message, -, hbuild⟩ := bind_eq_ok.mp hread
    exact ⟨_, message, Except.ok.inj hbuild⟩
  · cases hread

theorem messageConditionArgs_eq_ok {side : UInt8 → MessageArgsType}
    {build : UInt8 → Message → MessageArgs → ConditionWithArgs}
    (hread : messageConditionArgs name side build args = .ok condition) :
    ∃ mode message msgArgs, build mode message msgArgs = condition := by
  unfold messageConditionArgs at hread
  split at hread
  · split at hread
    · split_ifs at hread
      obtain ⟨message, -, hread⟩ := bind_eq_ok.mp hread
      obtain ⟨msgArgs, -, hbuild⟩ := bind_eq_ok.mp hread
      exact ⟨_, message, msgArgs, Except.ok.inj hbuild⟩
    · cases hread
  · cases hread

/-- A condition keeps the opcode it was read from. -/
theorem fromOpcodeWithArgs_opCode {opCode : ConditionOpcode}
    (hread : fromOpcodeWithArgs opCode args = .ok condition) :
    condition.opCode = opCode := by
  cases opCode
  case unknown | remark =>
    cases hread
    rfl
  case createCoin =>
    simp only [fromOpcodeWithArgs] at hread
    split at hread
    · obtain ⟨amount, -, hbuild⟩ := bind_eq_ok.mp hread
      cases hbuild
      rfl
    · cases hread
  case assertMyBirthHeight =>
    obtain ⟨arg, -, hread⟩ := oneArg_eq_ok.mp hread
    split at hread
    · cases hread
      rfl
    · cases hread
  case assertEphemeral =>
    simp only [fromOpcodeWithArgs] at hread
    split at hread
    · cases hread
      rfl
    · cases hread
  case aggSigParent | aggSigPuzzle | aggSigAmount | aggSigPuzzleAmount
    | aggSigParentAmount | aggSigParentPuzzle | aggSigUnsafe | aggSigMe =>
    obtain ⟨publicKey, message, rfl⟩ := aggSigArgs_eq_ok hread
    rfl
  case sendMessage | receiveMessage =>
    obtain ⟨mode, message, msgArgs, rfl⟩ := messageConditionArgs_eq_ok hread
    rfl
  case createCoinAnnouncement | createPuzzleAnnouncement =>
    obtain ⟨arg, -, hread⟩ := oneArg_eq_ok.mp hread
    obtain ⟨message, -, hbuild⟩ := bind_eq_ok.mp hread
    cases hbuild
    rfl
  case reserveFee | assertMyAmount | assertMyBirthSeconds | softFork =>
    obtain ⟨arg, value, -, -, rfl⟩ := u64Arg_eq_ok.mp hread
    rfl
  case assertSecondsRelative | assertSecondsAbsolute
    | assertBeforeSecondsRelative | assertBeforeSecondsAbsolute
    | assertHeightRelative | assertHeightAbsolute
    | assertBeforeHeightRelative | assertBeforeHeightAbsolute =>
    obtain ⟨arg, -, hbuild⟩ := oneArg_eq_ok.mp hread
    cases hbuild
    rfl
  all_goals
    obtain ⟨arg, -, rfl⟩ := bytes32Arg_eq_ok.mp hread
    rfl

end Arguments

/-- Once the opcode is read, the loop keeps it. -/
theorem opCodeWithArgsLoop_opcode {items : List SExp} {index : Nat}
    {opcode out : ConditionOpcode} {vars args : List Bytes}
    (hloop : opCodeWithArgsLoop items index false opcode vars =
      .ok (out, args)) : out = opcode := by
  induction items generalizing index vars with
  | nil =>
    cases hloop
    rfl
  | cons head tail ih =>
    cases head with
    | atom arg => exact ih hloop
    | pair left right =>
      rw [opCodeWithArgsLoop] at hloop
      split at hloop
      · obtain ⟨bytes, -, hloop⟩ := bind_eq_ok.mp hloop
        exact ih hloop
      · cases hloop
        rfl

theorem opCodeWithArgsFromSexp_eq_ok {sexp : SExp} {opcode : ConditionOpcode}
    {args : List Bytes}
    (hread : opCodeWithArgsFromSexp sexp = .ok (opcode, args)) :
    opCodeWithArgsLoop sexp.iter 0 true .unknown [] = .ok (opcode, args) := by
  obtain ⟨⟨opcode', vars⟩, hloop, hread⟩ := bind_eq_ok.mp hread
  dsimp only at hread
  split_ifs at hread
  cases hread
  exact hloop

/-- A condition that is a list has the opcode of its first element if that is a
single byte, and is unknown if it starts with a pair. -/
theorem conditionFromSexp_opCode {first rest : SExp}
    {condition : ConditionWithArgs}
    (hread : conditionFromSexp (.pair first rest) = .ok condition) :
    (∃ byte, first = .atom [byte] ∧
      condition.opCode = ConditionOpcode.ofByte byte) ∨
    (∃ left right, first = .pair left right) ∧ condition.opCode = .unknown := by
  obtain ⟨⟨opcode, args⟩, hopcode, hread⟩ := bind_eq_ok.mp hread
  have hloop := opCodeWithArgsFromSexp_eq_ok (liftIo_eq_ok.mp hopcode)
  rw [fromOpcodeWithArgs_opCode (liftIo_eq_ok.mp hread)]
  rw [SExp.iter] at hloop
  cases first with
  | atom data =>
    rw [opCodeWithArgsLoop] at hloop
    split_ifs at hloop with hlength
    obtain ⟨byte, rfl⟩ := List.length_eq_one_iff.mp (not_not.mp hlength)
    exact .inl ⟨byte, rfl, opCodeWithArgsLoop_opcode hloop⟩
  | pair left right =>
    cases hloop
    exact .inr ⟨⟨left, right, rfl⟩, rfl⟩

def checkedAdd32 (a b : UInt32) : Option UInt32 :=
  if a.toNat + b.toNat < 2 ^ 32 then some (a + b) else none

def checkedAdd64 (a b : UInt64) : Option UInt64 :=
  if a.toNat + b.toNat < 2 ^ 64 then some (a + b) else none

/-- `checked_add(..).ok_or_else(..)` with an overflow error. -/
def addOrOverflow (text : String) (a b : UInt64) : ClvmResult UInt64 :=
  match checkedAdd64 a b with
  | some sum => .ok sum
  | none => .error (.overflow text)

/-- `checked_add` on `u128` amounts with an overflow error. -/
def addAmount (text : String) (a : Nat) (b : UInt64) : ClvmResult Nat :=
  if a + b.toNat < 2 ^ 128 then .ok (a + b.toNat)
  else .error (.overflow text)

structure Coin where
  parentCoinInfo : Bytes32
  puzzleHash : Bytes32
  amount : UInt64
deriving Repr, DecidableEq

def amountLeadingZeros (v : UInt64) : Nat :=
  if v = 0 then 64 else 63 - v.toNat.log2

/-- The amount as `coin_id` hashes it: without redundant leading zeros, with a
zero byte in front of a set top bit. -/
def coinAmountBytes (amount : UInt64) : Bytes :=
  let amountBytes := beBytes 8 amount.toNat
  if 0x8000000000000000 ≤ amount then 0 :: amountBytes
  else
    amountBytes.drop
      (if amount = 0 then 8 else (amountLeadingZeros amount + 7) / 8 - 1)

variable (sha256 : HashFn)

/-- `Coin::name`, that is `Coin::coin_id`. -/
def Coin.name (coin : Coin) : Bytes32 :=
  sha256 (coin.parentCoinInfo.bytes ++ coin.puzzleHash.bytes ++
    coinAmountBytes coin.amount)

structure NewCoin where
  puzzleHash : Bytes32
  amount : UInt64
  hint : Option Bytes
deriving Repr, DecidableEq

structure SpendMessage where
  mode : UInt8
  message : Bytes
  args : MessageArgs
deriving Repr, DecidableEq

/-- `Spend`.  The set `create_coin` is a list in insertion order. -/
structure Spend where
  parentId : Bytes32
  coinAmount : UInt64
  puzzleHash : Bytes32
  coinId : Bytes32
  heightRelative : Option UInt32 := none
  secondsRelative : Option UInt64 := none
  beforeHeightRelative : Option UInt32 := none
  beforeSecondsRelative : Option UInt64 := none
  birthHeight : Option UInt32 := none
  birthSeconds : Option UInt64 := none
  createCoin : List NewCoin := []
  aggSigMe : List (Bytes × Bytes) := []
  aggSigParent : List (Bytes × Bytes) := []
  aggSigPuzzle : List (Bytes × Bytes) := []
  aggSigAmount : List (Bytes × Bytes) := []
  aggSigPuzzleAmount : List (Bytes × Bytes) := []
  aggSigParentAmount : List (Bytes × Bytes) := []
  aggSigParentPuzzle : List (Bytes × Bytes) := []
  createCoinAnnouncements : List Bytes := []
  assertCoinAnnouncements : List Bytes32 := []
  createPuzzleAnnouncements : List Bytes := []
  assertPuzzleAnnouncements : List Bytes32 := []
  assertConcurrentSpend : List Bytes32 := []
  assertConcurrentPuzzle : List Bytes32 := []
  assertEphemeral : Bool := false
  sentMessages : List SpendMessage := []
  receivedMessages : List SpendMessage := []
  flags : UInt32 := 0
  conditionCost : UInt64 := 0
  executionCost : UInt64 := 0
deriving Repr, DecidableEq

structure SpendBundleConditions where
  spends : List Spend := []
  reserveFee : UInt64 := 0
  heightAbsolute : UInt32 := 0
  secondsAbsolute : UInt64 := 0
  beforeHeightAbsolute : Option UInt32 := none
  beforeSecondsAbsolute : Option UInt64 := none
  aggSigUnsafe : List (Bytes × Bytes) := []
  cost : UInt64 := 0
  removalAmount : Nat := 0
  additionAmount : Nat := 0
deriving Repr, DecidableEq

/-- The `ConsensusConstants` read by the modelled code. -/
structure ConsensusConstants where
  maxCoinAmount : UInt64
  maxBlockCostClvm : UInt64
  costPerByte : UInt64
  maxGeneratorSize : UInt32
  maxGeneratorRefListSize : UInt32
  hardForkHeight : UInt32
  hardFork2Height : UInt32
  softFork8Height : UInt32
  softFork9Height : UInt32
  aggSigMeAdditionalData : Bytes32
deriving Repr, DecidableEq

def mainnet : ConsensusConstants where
  maxCoinAmount := 0xffffffffffffffff
  maxBlockCostClvm := 11000000000
  costPerByte := 12000
  maxGeneratorSize := 1000000
  maxGeneratorRefListSize := 512
  hardForkHeight := 5496000
  hardFork2Height := 0xfffffffa
  softFork8Height := 8655000
  softFork9Height := 8655000
  aggSigMeAdditionalData :=
    ⟨[0xcc, 0xd5, 0xbb, 0x71, 0x18, 0x35, 0x32, 0xbf,
      0xf2, 0x20, 0xba, 0x46, 0xc2, 0x68, 0x99, 0x1a,
      0x3f, 0xf0, 0x7e, 0xb3, 0x58, 0xe8, 0x25, 0x5a,
      0x65, 0xc3, 0x0a, 0x2d, 0xce, 0x0e, 0x5f, 0xbb], by decide⟩

/-- What `apply_parsed_condition` updates: the spend, the bundle and the cost
of the conditions so far. -/
structure Accumulators where
  spend : Spend
  conds : SpendBundleConditions
  extraCost : UInt64
deriving Repr, DecidableEq

def createCoinCost : UInt64 := 1800000

def aggSigCost : UInt64 := 1200000

def eligibleForDedup : UInt32 := 1

def eligibleForFf : UInt32 := 4

def clearEligibilityForCondition (flags : UInt32)
    (condition : ConditionWithArgs) (index : Nat) : UInt32 :=
  match condition with
  | .assertMyCoinId _ | .assertHeightRelative _ | .assertSecondsRelative _
  | .assertBeforeHeightRelative _ | .assertBeforeSecondsRelative _
  | .assertMyBirthHeight _ | .assertMyBirthSeconds _ | .assertEphemeral =>
    flags &&& ~~~eligibleForFf
  | .assertMyParentId _ =>
    if index ≠ 1 then flags &&& ~~~eligibleForFf else flags
  | .aggSigMe _ _ | .aggSigParent _ _ | .aggSigParentAmount _ _
  | .aggSigParentPuzzle _ _ => flags &&& ~~~(eligibleForDedup ||| eligibleForFf)
  | .aggSigPuzzle _ _ | .aggSigAmount _ _ | .aggSigPuzzleAmount _ _
  | .aggSigUnsafe _ _ => flags &&& ~~~eligibleForDedup
  | .sendMessage mode _ _ =>
    (if (mode >>> 3) &&& 0b100 ≠ 0 then flags &&& ~~~eligibleForFf
      else flags) &&& ~~~eligibleForDedup
  | .receiveMessage mode _ _ =>
    (if mode &&& 0b100 ≠ 0 then flags &&& ~~~eligibleForFf else flags) &&&
      ~~~eligibleForDedup
  | .createCoinAnnouncement _ => flags &&& ~~~eligibleForFf
  | _ => flags

def newSpend (coin : Coin) (mempool : Bool) : Spend where
  parentId := coin.parentCoinInfo
  coinAmount := coin.amount
  puzzleHash := coin.puzzleHash
  coinId := coin.name sha256
  flags :=
    if mempool then
      eligibleForDedup ||| (if coin.amount &&& 1 = 1 then eligibleForFf else 0)
    else 0

/-- The opcodes whose domain suffix an unsafe message may not end with. -/
def unsafeSuffixCodes : List UInt8 := [43, 44, 45, 46, 47, 48]

def verifyAggSigUnsafeMessage (message : Message)
    (constants : ConsensusConstants) : ClvmResult Unit :=
  if unsafeSuffixCodes.any fun code =>
      (sha256 (constants.aggSigMeAdditionalData.bytes ++ [code])).bytes
        |>.isSuffixOf message.data
  then .error (.invalidSyntax "Invalid Condition")
  else .ok ()

namespace Accumulators

def charge (acc : Accumulators) (text : String) (cost : UInt64) :
    ClvmResult Accumulators := do
  let extraCost ← addOrOverflow text acc.extraCost cost
  .ok { acc with extraCost }

/-- Charge for a signature and record its key and message in the spend. -/
def pushAggSig (acc : Accumulators) (publicKey : Bytes48) (message : Message)
    (push : Spend → Bytes × Bytes → Spend) : ClvmResult Accumulators := do
  let acc ← acc.charge "aggregate signature cost overflow" aggSigCost
  .ok { acc with spend := push acc.spend (publicKey.bytes, message.data) }

end Accumulators

/-- A failed assertion about the spent coin itself. -/
def assertMy (text : String) (holds : Bool) (acc : Accumulators) :
    ClvmResult Accumulators :=
  if holds then .ok acc else .error (.invalidSpendbundle text)

/-- The strictest of an optional upper bound and a new one. -/
def tighten {A : Type} [Min A] (bound : Option A) (value : A) : Option A :=
  match bound with
  | some existing => some (min existing value)
  | none => some value

/-- The `match` of `apply_parsed_condition`. -/
def applyCondition (constants : ConsensusConstants) (coin : Coin)
    (condition : ConditionWithArgs) (acc : Accumulators) :
    ClvmResult Accumulators :=
  let spend := acc.spend
  let conds := acc.conds
  match condition with
  | .createCoin puzzleHash amount memos => do
      let acc ← acc.charge "create coin cost overflow" createCoinCost
      let additionAmount ←
        addAmount "addition amount overflow" conds.additionAmount amount
      let newCoin : NewCoin := ⟨puzzleHash, amount, memos.head?⟩
      if newCoin ∈ spend.createCoin then
        .error (.duplicateCreate
          (Coin.name sha256 ⟨coin.name sha256, puzzleHash, amount⟩))
      else
        .ok { acc with
          conds := { conds with additionAmount }
          spend := { spend with createCoin := spend.createCoin ++ [newCoin] } }
  | .reserveFee fee => do
      let reserveFee ← addOrOverflow "reserve fee overflow" conds.reserveFee fee
      .ok { acc with conds := { conds with reserveFee } }
  | .assertHeightAbsolute height =>
    .ok { acc with conds := { conds with
      heightAbsolute := max conds.heightAbsolute height } }
  | .assertSecondsAbsolute seconds =>
    .ok { acc with conds := { conds with
      secondsAbsolute := max conds.secondsAbsolute seconds } }
  | .assertBeforeHeightAbsolute height =>
    .ok { acc with conds := { conds with
      beforeHeightAbsolute := tighten conds.beforeHeightAbsolute height } }
  | .assertBeforeSecondsAbsolute seconds =>
    .ok { acc with conds := { conds with
      beforeSecondsAbsolute := tighten conds.beforeSecondsAbsolute seconds } }
  | .assertHeightRelative height =>
    .ok { acc with spend := { spend with
      heightRelative := some (max (spend.heightRelative.getD 0) height) } }
  | .assertSecondsRelative seconds =>
    .ok { acc with spend := { spend with
      secondsRelative := some (max (spend.secondsRelative.getD 0) seconds) } }
  | .assertBeforeHeightRelative height =>
    .ok { acc with spend := { spend with
      beforeHeightRelative := tighten spend.beforeHeightRelative height } }
  | .assertBeforeSecondsRelative seconds =>
    .ok { acc with spend := { spend with
      beforeSecondsRelative := tighten spend.beforeSecondsRelative seconds } }
  | .assertMyBirthHeight height =>
    .ok { acc with spend := { spend with birthHeight := some height } }
  | .assertMyBirthSeconds seconds =>
    .ok { acc with spend := { spend with birthSeconds := some seconds } }
  | .aggSigMe pk msg =>
    acc.pushAggSig pk msg fun spend pair =>
      { spend with aggSigMe := spend.aggSigMe ++ [pair] }
  | .aggSigParent pk msg =>
    acc.pushAggSig pk msg fun spend pair =>
      { spend with aggSigParent := spend.aggSigParent ++ [pair] }
  | .aggSigPuzzle pk msg =>
    acc.pushAggSig pk msg fun spend pair =>
      { spend with aggSigPuzzle := spend.aggSigPuzzle ++ [pair] }
  | .aggSigAmount pk msg =>
    acc.pushAggSig pk msg fun spend pair =>
      { spend with aggSigAmount := spend.aggSigAmount ++ [pair] }
  | .aggSigPuzzleAmount pk msg =>
    acc.pushAggSig pk msg fun spend pair =>
      { spend with aggSigPuzzleAmount := spend.aggSigPuzzleAmount ++ [pair] }
  | .aggSigParentAmount pk msg =>
    acc.pushAggSig pk msg fun spend pair =>
      { spend with aggSigParentAmount := spend.aggSigParentAmount ++ [pair] }
  | .aggSigParentPuzzle pk msg =>
    acc.pushAggSig pk msg fun spend pair =>
      { spend with aggSigParentPuzzle := spend.aggSigParentPuzzle ++ [pair] }
  | .aggSigUnsafe pk msg => do
      let acc ← acc.charge "aggregate signature cost overflow" aggSigCost
      verifyAggSigUnsafeMessage sha256 msg constants
      .ok { acc with conds := { conds with
        aggSigUnsafe := conds.aggSigUnsafe ++ [(pk.bytes, msg.data)] } }
  | .createCoinAnnouncement msg =>
    .ok { acc with spend := { spend with createCoinAnnouncements :=
      spend.createCoinAnnouncements ++ [msg.data] } }
  | .assertCoinAnnouncement announcement =>
    .ok { acc with spend := { spend with assertCoinAnnouncements :=
      spend.assertCoinAnnouncements ++ [announcement] } }
  | .createPuzzleAnnouncement msg =>
    .ok { acc with spend := { spend with createPuzzleAnnouncements :=
      spend.createPuzzleAnnouncements ++ [msg.data] } }
  | .assertPuzzleAnnouncement announcement =>
    .ok { acc with spend := { spend with assertPuzzleAnnouncements :=
      spend.assertPuzzleAnnouncements ++ [announcement] } }
  | .assertMyCoinId coinId =>
    assertMy "ASSERT_MY_COIN_ID" (coinId = coin.name sha256) acc
  | .assertMyParentId parentId =>
    assertMy "ASSERT_MY_PARENT_ID" (parentId = coin.parentCoinInfo) acc
  | .assertMyPuzzlehash puzzleHash =>
    assertMy "ASSERT_MY_PUZZLEHASH" (puzzleHash = coin.puzzleHash) acc
  | .assertMyAmount amount =>
    assertMy "ASSERT_MY_AMOUNT" (amount = coin.amount) acc
  | .softFork cost => acc.charge "soft fork cost overflow" cost
  | .assertConcurrentSpend coinId =>
    .ok { acc with spend := { spend with assertConcurrentSpend :=
      spend.assertConcurrentSpend ++ [coinId] } }
  | .assertConcurrentPuzzle puzzleHash =>
    .ok { acc with spend := { spend with assertConcurrentPuzzle :=
      spend.assertConcurrentPuzzle ++ [puzzleHash] } }
  | .assertEphemeral =>
    .ok { acc with spend := { spend with assertEphemeral := true } }
  | .sendMessage mode message args =>
    .ok { acc with spend := { spend with sentMessages :=
      spend.sentMessages ++ [⟨mode, message.data, args⟩] } }
  | .receiveMessage mode message args =>
    .ok { acc with spend := { spend with receivedMessages :=
      spend.receivedMessages ++ [⟨mode, message.data, args⟩] } }
  | .unknown | .remark _ => .ok acc

def applyParsedCondition (constants : ConsensusConstants) (coin : Coin)
    (mempool : Bool) (conditionIndex : Nat) (condition : ConditionWithArgs)
    (acc : Accumulators) : ClvmResult Accumulators :=
  let flags :=
    if mempool then
      clearEligibilityForCondition acc.spend.flags condition conditionIndex
    else acc.spend.flags
  let acc := { acc with spend := { acc.spend with flags } }
  match condition.aggSigInfinityPubkey with
  | some publicKey => .error (.invalidPublicKey publicKey)
  | none => applyCondition sha256 constants coin condition acc

def finalizeSpend (spend : Spend) (extraCost conditionCostStart : UInt64)
    (mempool : Bool) : Spend :=
  let conditionCost :=
    if conditionCostStart ≤ extraCost then extraCost - conditionCostStart
    else 0
  let spend := { spend with conditionCost }
  if mempool then
    let flags := spend.flags
    let flags :=
      if flags &&& eligibleForFf ≠ 0 ∧ ¬ spend.createCoin.any fun c =>
          c.puzzleHash = spend.puzzleHash && c.amount = spend.coinAmount
      then flags &&& ~~~eligibleForFf else flags
    let flags :=
      if flags &&& eligibleForDedup ≠ 0 ∧
          (spend.createCoin.map fun c => c.amount.toNat).sum <
            spend.coinAmount.toNat
      then flags &&& ~~~eligibleForDedup else flags
    { spend with flags }
  else spend

/-- The loop of `spend_from_conditions`. -/
def applyConditions (sha256 : HashFn)
    (constants : ConsensusConstants) (coin : Coin) (mempool : Bool) :
    Nat → List ConditionWithArgs → Accumulators → ClvmResult Accumulators
  | _, [], acc => .ok acc
  | index, condition :: rest, acc => do
      let acc ← applyParsedCondition sha256 constants coin mempool index
        condition acc
      applyConditions sha256 constants coin mempool (index + 1) rest acc

/-- The accumulators with which both readers of a spend begin. -/
def startSpend (coin : Coin) (mempool : Bool) (conds : SpendBundleConditions)
    (extraCost : UInt64) : ClvmResult Accumulators := do
  let removalAmount ←
    addAmount "removal amount overflow" conds.removalAmount coin.amount
  .ok ⟨newSpend sha256 coin mempool, { conds with removalAmount }, extraCost⟩

def spendFromConditions (coin : Coin) (conditions : List ConditionWithArgs)
    (conds : SpendBundleConditions) (constants : ConsensusConstants)
    (extraCost : UInt64) (mempool : Bool) : ClvmResult Accumulators := do
  let acc ← startSpend sha256 coin mempool conds extraCost
  let acc ← applyConditions sha256 constants coin mempool 0 conditions acc
  let spend := finalizeSpend acc.spend acc.extraCost extraCost mempool
  .ok { acc with spend }

/-- The time locks recorded in the accumulators. -/
@[ext]
structure Locks where
  heightAbsolute : UInt32
  secondsAbsolute : UInt64
  beforeHeightAbsolute : Option UInt32
  beforeSecondsAbsolute : Option UInt64
  heightRelative : Option UInt32
  secondsRelative : Option UInt64
  beforeHeightRelative : Option UInt32
  beforeSecondsRelative : Option UInt64

variable (acc : Accumulators)

/-- The locks of a spend together with the locks of its bundle. -/
def Accumulators.locks : Locks where
  heightAbsolute := acc.conds.heightAbsolute
  secondsAbsolute := acc.conds.secondsAbsolute
  beforeHeightAbsolute := acc.conds.beforeHeightAbsolute
  beforeSecondsAbsolute := acc.conds.beforeSecondsAbsolute
  heightRelative := acc.spend.heightRelative
  secondsRelative := acc.spend.secondsRelative
  beforeHeightRelative := acc.spend.beforeHeightRelative
  beforeSecondsRelative := acc.spend.beforeSecondsRelative

/-- What one condition does to the time locks. -/
def Locks.add (locks : Locks) : ConditionWithArgs → Locks
  | .assertHeightAbsolute height =>
    { locks with heightAbsolute := max locks.heightAbsolute height }
  | .assertSecondsAbsolute seconds =>
    { locks with secondsAbsolute := max locks.secondsAbsolute seconds }
  | .assertBeforeHeightAbsolute height =>
    { locks with
      beforeHeightAbsolute := tighten locks.beforeHeightAbsolute height }
  | .assertBeforeSecondsAbsolute seconds =>
    { locks with
      beforeSecondsAbsolute := tighten locks.beforeSecondsAbsolute seconds }
  | .assertHeightRelative height =>
    { locks with
      heightRelative := some (max (locks.heightRelative.getD 0) height) }
  | .assertSecondsRelative seconds =>
    { locks with
      secondsRelative := some (max (locks.secondsRelative.getD 0) seconds) }
  | .assertBeforeHeightRelative height =>
    { locks with
      beforeHeightRelative := tighten locks.beforeHeightRelative height }
  | .assertBeforeSecondsRelative seconds =>
    { locks with
      beforeSecondsRelative := tighten locks.beforeSecondsRelative seconds }
  | _ => locks

/-- The birth assertions recorded in a spend. -/
@[ext]
structure Births where
  height : Option UInt32
  seconds : Option UInt64

def Accumulators.births : Births where
  height := acc.spend.birthHeight
  seconds := acc.spend.birthSeconds

/-- What one condition does to the birth assertions: the last one stays. -/
def Births.add (births : Births) : ConditionWithArgs → Births
  | .assertMyBirthHeight height => { births with height := some height }
  | .assertMyBirthSeconds seconds => { births with seconds := some seconds }
  | _ => births

/-- What no condition changes. -/
@[ext]
structure Frame where
  spends : List Spend
  cost : UInt64
  coinId : Bytes32

def Accumulators.frame : Frame where
  spends := acc.conds.spends
  cost := acc.conds.cost
  coinId := acc.spend.coinId

def Spend.coin (spend : Spend) : Coin :=
  ⟨spend.parentId, spend.puzzleHash, spend.coinAmount⟩

section Step

variable {sha256 : HashFn} {constants : ConsensusConstants}
  {coin : Coin} {condition : ConditionWithArgs} {acc acc' : Accumulators}

theorem Accumulators.charge_eq_ok {text : String} {cost : UInt64}
    (hcharge : acc.charge text cost = .ok acc') :
    ∃ extraCost, acc' = { acc with extraCost } := by
  obtain ⟨extraCost, -, hacc⟩ := bind_eq_ok.mp hcharge
  exact ⟨extraCost, (Except.ok.inj hacc).symm⟩

theorem assertMy_eq_ok {text : String} {holds : Bool} :
    assertMy text holds acc = .ok acc' ↔ holds = true ∧ acc' = acc := by
  cases holds with
  | true => simp [assertMy, eq_comm]
  | false => simp [assertMy]

/-- What a successful step does to the locks and to the birth assertions, and
what it leaves alone. -/
theorem applyCondition_views
    (happly : applyCondition sha256 constants coin condition acc = .ok acc') :
    acc'.locks = acc.locks.add condition ∧
      acc'.births = acc.births.add condition ∧ acc'.frame = acc.frame ∧
      acc'.spend.coin = acc.spend.coin := by
  cases condition
  case createCoin puzzleHash amount memos =>
    obtain ⟨charged, hcharge, happly⟩ := bind_eq_ok.mp happly
    obtain ⟨extraCost, rfl⟩ := Accumulators.charge_eq_ok hcharge
    obtain ⟨additionAmount, -, happly⟩ := bind_eq_ok.mp happly
    dsimp only at happly
    split_ifs at happly
    cases happly
    exact ⟨rfl, rfl, rfl, rfl⟩
  case reserveFee fee =>
    obtain ⟨reserveFee, -, happly⟩ := bind_eq_ok.mp happly
    cases happly
    exact ⟨rfl, rfl, rfl, rfl⟩
  case softFork cost =>
    obtain ⟨extraCost, rfl⟩ := Accumulators.charge_eq_ok happly
    exact ⟨rfl, rfl, rfl, rfl⟩
  case aggSigUnsafe pk msg =>
    obtain ⟨charged, hcharge, happly⟩ := bind_eq_ok.mp happly
    obtain ⟨extraCost, rfl⟩ := Accumulators.charge_eq_ok hcharge
    obtain ⟨-, -, happly⟩ := bind_eq_ok.mp happly
    cases happly
    exact ⟨rfl, rfl, rfl, rfl⟩
  case aggSigMe pk msg | aggSigParent pk msg | aggSigPuzzle pk msg
    | aggSigAmount pk msg | aggSigPuzzleAmount pk msg
    | aggSigParentAmount pk msg | aggSigParentPuzzle pk msg =>
    obtain ⟨charged, hcharge, hacc⟩ := bind_eq_ok.mp happly
    obtain ⟨extraCost, rfl⟩ := Accumulators.charge_eq_ok hcharge
    cases hacc
    exact ⟨rfl, rfl, rfl, rfl⟩
  case assertMyCoinId coinId | assertMyParentId parentId
    | assertMyPuzzlehash puzzleHash | assertMyAmount amount =>
    obtain ⟨-, rfl⟩ := assertMy_eq_ok.mp happly
    exact ⟨rfl, rfl, rfl, rfl⟩
  all_goals
    cases happly
    exact ⟨rfl, rfl, rfl, rfl⟩

section

variable {mempool : Bool} {index : Nat}
  (happly : applyParsedCondition sha256 constants coin mempool index condition
    acc = .ok acc')

include happly

/-- A step that succeeds has applied the condition to the spend with its new
flags. -/
theorem applyParsedCondition_eq_ok :
    ∃ flags, applyCondition sha256 constants coin condition
      { acc with spend := { acc.spend with flags } } = .ok acc' := by
  unfold applyParsedCondition at happly
  dsimp only at happly
  split at happly
  · cases happly
  · exact ⟨_, happly⟩

theorem applyParsedCondition_views :
    acc'.locks = acc.locks.add condition ∧
      acc'.births = acc.births.add condition ∧ acc'.frame = acc.frame := by
  obtain ⟨flags, happly⟩ := applyParsedCondition_eq_ok happly
  obtain ⟨hlocks, hbirths, hframe, -⟩ := applyCondition_views happly
  exact ⟨hlocks, hbirths, hframe⟩

end

end Step

/-- Finishing a spend changes its flags and its share of the cost only. -/
theorem finalizeSpend_eq (spend : Spend) (extraCost start : UInt64)
    (mempool : Bool) :
    ∃ flags conditionCost, finalizeSpend spend extraCost start mempool =
      { spend with flags, conditionCost } := by
  unfold finalizeSpend
  cases mempool with
  | true => exact ⟨_, _, rfl⟩
  | false => exact ⟨spend.flags, _, rfl⟩

theorem startSpend_eq_ok {sha256 : HashFn} {coin : Coin}
    {mempool : Bool} {conds : SpendBundleConditions} {extraCost : UInt64}
    {acc : Accumulators}
    (hstart : startSpend sha256 coin mempool conds extraCost = .ok acc) :
    ∃ removalAmount, acc = ⟨newSpend sha256 coin mempool,
      { conds with removalAmount }, extraCost⟩ := by
  obtain ⟨removalAmount, -, hacc⟩ := bind_eq_ok.mp hstart
  exact ⟨removalAmount, (Except.ok.inj hacc).symm⟩

end DgXch
