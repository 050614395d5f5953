/-
The coin-set accumulator of the `roots` crate and the validation of a range of
blocks in any order.  Each creation is a leaf of a mountain range of perfect
trees; a root binds the bagged peaks, a bitmap of the spent leaves, the height
and the header hash.  A `RangeValidator` gathers the creations and the spends of
the blocks it is shown; `reconcile` compares parities, so that three equal
spends cancel like one.
-/
import DgXch.CoinRecords
import DgXch.ParityLedger
import Mathlib.Data.List.AList

namespace DgXch

def asciiBytes (text : String) : Bytes :=
  text.toList.map fun c => UInt8.ofNat c.toNat

/-- `to_le_bytes` of a number of `width` bytes. -/
def leBytes (width n : Nat) : Bytes := (BigEndian.beBytes width n).reverse

namespace CoinRoots

def domainCoinLeaf : Bytes := asciiBytes "dgxch.coinroot.v1.coin-leaf"
def domainNode : Bytes := asciiBytes "dgxch.coinroot.v1.node"
def domainBag : Bytes := asciiBytes "dgxch.coinroot.v1.bag"
def domainMmrRoot : Bytes := asciiBytes "dgxch.coinroot.v1.mmr-root"
def domainBitmapLeaf : Bytes := asciiBytes "dgxch.coinroot.v1.bitmap-leaf"
def domainBitmapRoot : Bytes := asciiBytes "dgxch.coinroot.v1.bitmap-root"
def domainEmpty : Bytes := asciiBytes "dgxch.coinroot.v1.empty"
def domainRoot : Bytes := asciiBytes "dgxch.coinroot.v1.root"

def bitmapChunkBits : Nat := 1024

inductive RootsError where
  | outOfOrder (prev next : UInt32 × Bytes32)
  | spentBeforeCreated (coinId : Bytes32) (confirmed spent : UInt32)
  | boundaryBehindAppends (boundary lastHeight : UInt32)
deriving Repr, DecidableEq

/-- `Peaks`: order and root of each perfect tree, the newest first. -/
abbrev Peaks := List (Nat × Bytes32)

structure RootV1 where
  height : UInt32
  headerHash : Bytes32
  coinCount : Nat
  spentCount : Nat
  mmrRoot : Bytes32
  spentBitmapRoot : Bytes32
  rootV1 : Bytes32
deriving Repr, DecidableEq

structure CoinSetAccumulator where
  peaks : Peaks := []
  spentAt : List UInt32 := []
  last : Option (UInt32 × Bytes32) := none

/-- What `bitmap_root` threads through its loop. -/
structure BitmapState where
  peaks : Peaks := []
  spentCount : Nat := 0
  chunk : Bytes := List.replicate (bitmapChunkBits / 8) 0
  chunkIndex : Nat := 0
  bit : Nat := 0

/-- The order of `(confirmed_height, coin_id)`, bytewise in the id. -/
def orderedBefore (a b : UInt32 × Bytes32) : Prop :=
  a.1 < b.1 ∨ a.1 = b.1 ∧ a.2.bytes ≤ b.2.bytes

instance (a b : UInt32 × Bytes32) : Decidable (orderedBefore a b) :=
  inferInstanceAs (Decidable (_ ∨ _))

section Roots

variable (sha256 : HashFn)

def sha256Parts (parts : List Bytes) : Bytes32 := sha256 parts.flatten

def emptyRoot : Bytes32 := sha256Parts sha256 [domainEmpty]

def node (left right : Bytes32) : Bytes32 :=
  sha256Parts sha256 [domainNode, left.bytes, right.bytes]

/-- The loop of `Peaks::append`: merge while the two newest peaks have one
order. -/
def Peaks.carry : Nat × Bytes32 → Peaks → Peaks
  | top, [] => [top]
  | (ro, rh), (lo, lh) :: rest =>
    if lo ≠ ro then (ro, rh) :: (lo, lh) :: rest
    else Peaks.carry (lo + 1, node sha256 lh rh) rest

def Peaks.append (peaks : Peaks) (leaf : Bytes32) : Peaks :=
  Peaks.carry sha256 (0, leaf) peaks

/-- `Peaks::root`: bag the peaks from the newest to the oldest and bind the leaf
count. -/
def Peaks.root (peaks : Peaks) (domain : Bytes) (leafCount : Nat) : Bytes32 :=
  match peaks with
  | [] => emptyRoot sha256
  | (_, first) :: rest =>
    let acc := rest.foldl (fun acc peak =>
      sha256Parts sha256 [domainBag, peak.2.bytes, acc.bytes]) first
    sha256Parts sha256 [domain, leBytes 8 leafCount, acc.bytes]

def BitmapState.closed (s : BitmapState) : Peaks :=
  Peaks.append sha256 s.peaks
    (sha256Parts sha256 [domainBitmapLeaf, leBytes 8 s.chunkIndex, s.chunk])

/-- One turn of the loop of `bitmap_root`. -/
def BitmapState.step (height : UInt32) (s : BitmapState) (spent : UInt32) :
    BitmapState :=
  let s := if spent ≠ 0 ∧ spent ≤ height then
      { s with
        chunk := s.chunk.modify (s.bit / 8) fun byte =>
          byte ||| (1 <<< UInt8.ofNat (s.bit % 8))
        spentCount := s.spentCount + 1 }
    else s
  let s := { s with bit := s.bit + 1 }
  if s.bit = bitmapChunkBits then
    { peaks := s.closed sha256
      spentCount := s.spentCount
      chunkIndex := s.chunkIndex + 1 }
  else s

namespace CoinSetAccumulator

def append (acc : CoinSetAccumulator) (coinId : Bytes32)
    (confirmedHeight : UInt32) (timestamp : UInt64) (spentIndex : UInt32) :
    Except RootsError CoinSetAccumulator :=
  match acc.last.filter fun prev =>
      orderedBefore (confirmedHeight, coinId) prev with
  | some prev => .error (.outOfOrder prev (confirmedHeight, coinId))
  | none =>
    if spentIndex ≠ 0 ∧ spentIndex < confirmedHeight then
      .error (.spentBeforeCreated coinId confirmedHeight spentIndex)
    else
      let leaf := sha256Parts sha256 [domainCoinLeaf,
        leBytes 8 acc.spentAt.length, coinId.bytes,
        leBytes 4 confirmedHeight.toNat, leBytes 8 timestamp.toNat]
      .ok {
        peaks := Peaks.append sha256 acc.peaks leaf
        spentAt := acc.spentAt ++ [spentIndex]
        last := some (confirmedHeight, coinId) }

def bitmapRoot (acc : CoinSetAccumulator) (height : UInt32) : Bytes32 × Nat :=
  let s := acc.spentAt.foldl (BitmapState.step sha256 height) {}
  let peaks := if s.bit ≠ 0 then s.closed sha256 else s.peaks
  (Peaks.root sha256 peaks domainBitmapRoot acc.spentAt.length, s.spentCount)

def rootAt (acc : CoinSetAccumulator) (height : UInt32) (headerHash : Bytes32) :
    Except RootsError RootV1 :=
  match acc.last.filter fun last => height < last.1 with
  | some (lastHeight, _) => .error (.boundaryBehindAppends height lastHeight)
  | none =>
    let n := acc.spentAt.length
    let mmrRoot := Peaks.root sha256 acc.peaks domainMmrRoot n
    let (spentBitmapRoot, spentCount) := acc.bitmapRoot sha256 height
    .ok {
      height, headerHash, spentCount, mmrRoot, spentBitmapRoot
      coinCount := n
      rootV1 := sha256Parts sha256 [domainRoot, mmrRoot.bytes,
        spentBitmapRoot.bytes, leBytes 4 height.toNat, headerHash.bytes] }

end CoinSetAccumulator

end Roots

end CoinRoots

def Bytes32.xor (a b : Bytes32) : Bytes32 :=
  ⟨List.zipWith (· ^^^ ·) a.bytes b.bytes, by
    rw [List.length_zipWith, a.length_eq, b.length_eq, Nat.min_self]⟩

namespace CoinRoots

def domainFoldLeaf : Bytes := asciiBytes "dgxch.coinroot.v2.fold-leaf"

structure CoinMeta where
  createdHeight : UInt32
  createdTimestamp : UInt64
deriving Repr, DecidableEq

inductive TimeLockError where
  | birthHeight (got want : UInt32)
  | birthSeconds (got want : UInt64)
  | heightRelative (now created delta : UInt32)
  | secondsRelative (now created delta : UInt64)
  | beforeHeightRelative (now created delta : UInt32)
  | beforeSecondsRelative (now created delta : UInt64)
deriving Repr, DecidableEq

structure TimeLockConditions where
  birthHeight : Option UInt32 := none
  birthSeconds : Option UInt64 := none
  heightRelative : Option UInt32 := none
  secondsRelative : Option UInt64 := none
  beforeHeightRelative : Option UInt32 := none
  beforeSecondsRelative : Option UInt64 := none
deriving Repr, DecidableEq

/-- An optional bound that fails for its value. -/
def refuse {V : Type} (bound : Option V) (fails : V → Bool)
    (error : V → TimeLockError) : Except TimeLockError Unit :=
  match bound.filter fails with
  | some v => .error (error v)
  | none => .ok ()

def TimeLockConditions.check (locks : TimeLockConditions) (info : CoinMeta)
    (nowHeight : UInt32) (nowTimestamp : UInt64) :
    Except TimeLockError Unit := do
  refuse locks.birthHeight (info.createdHeight ≠ ·)
    (.birthHeight info.createdHeight)
  refuse locks.birthSeconds (info.createdTimestamp ≠ ·)
    (.birthSeconds info.createdTimestamp)
  refuse locks.heightRelative
    (fun v => nowHeight < saturatingAdd32 info.createdHeight v)
    (.heightRelative nowHeight info.createdHeight)
  refuse locks.secondsRelative
    (fun v => nowTimestamp < saturatingAdd64 info.createdTimestamp v)
    (.secondsRelative nowTimestamp info.createdTimestamp)
  refuse locks.beforeHeightRelative
    (fun v => saturatingAdd32 info.createdHeight v ≤ nowHeight)
    (.beforeHeightRelative nowHeight info.createdHeight)
  refuse locks.beforeSecondsRelative
    (fun v => saturatingAdd64 info.createdTimestamp v ≤ nowTimestamp)
    (.beforeSecondsRelative nowTimestamp info.createdTimestamp)

structure Creation where
  coinId : Bytes32
  info : CoinMeta
deriving Repr, DecidableEq

structure SpendRef where
  coinId : Bytes32
  spentHeight : UInt32
  info : CoinMeta
  timeLocks : TimeLockConditions
deriving Repr, DecidableEq

structure BlockObservation where
  height : UInt32
  nowHeight : UInt32
  nowTimestamp : UInt64
  selfValid : Bool
  creations : List Creation
  spends : List SpendRef
deriving Repr, DecidableEq

inductive ValidateError where
  | blockSelfInvalid (height : UInt32)
  | duplicateCreation (coinId : Bytes32)
  | spendOfMissingCoin (coinId : Bytes32)
  | timeLock (coinId : Bytes32) (source : TimeLockError)
  | xorResidualMismatch
  | survivorHintMismatch (hinted actual : Nat)
  | rootMismatch (got want : Bytes32)
  | roots (source : RootsError)
deriving Repr, DecidableEq

structure RangeValidator where
  created : AList (fun _ : Bytes32 => CoinMeta) := ∅
  spent : AList (fun _ : Bytes32 => UInt32) := ∅
  xor : Bytes32 := Bytes32.zero
  errors : List ValidateError := []

section Folding

variable (sha256 : HashFn)

def foldLeaf (coinId : Bytes32) (info : CoinMeta) : Bytes32 :=
  sha256Parts sha256 [domainFoldLeaf, coinId.bytes,
    leBytes 4 info.createdHeight.toNat, leBytes 8 info.createdTimestamp.toNat]

namespace RangeValidator

variable (v : RangeValidator)

/-- An insertion into `created`, which folds the leaf of a new coin in.  This is
`seed`, and the body of the first loop of `observe`. -/
def seed (coinId : Bytes32) (info : CoinMeta) : RangeValidator :=
  if coinId ∈ v.created then
    { v with
      created := v.created.insert coinId info
      errors := v.errors ++ [.duplicateCreation coinId] }
  else
    { v with
      created := v.created.insert coinId info
      xor := v.xor.xor (foldLeaf sha256 coinId info) }

/-- The body of the second loop of `observe`. -/
def observeSpend (nowHeight : UInt32) (nowTimestamp : UInt64)
    (v : RangeValidator) (s : SpendRef) : RangeValidator :=
  { v with
    errors := match s.timeLocks.check s.info nowHeight nowTimestamp with
      | .error source => v.errors ++ [.timeLock s.coinId source]
      | .ok () => v.errors
    spent := v.spent.insert s.coinId s.spentHeight
    xor := v.xor.xor (foldLeaf sha256 s.coinId s.info) }

def observe (block : BlockObservation) : RangeValidator :=
  let v := if block.selfValid then v
    else { v with errors := v.errors ++ [.blockSelfInvalid block.height] }
  let v := block.creations.foldl (fun v c => v.seed sha256 c.coinId c.info) v
  block.spends.foldl (observeSpend sha256 block.nowHeight block.nowTimestamp) v

/-- One coin of the canonical stream. -/
structure StreamCoin where
  height : UInt32
  coinId : Bytes32
  timestamp : UInt64
  spentIndex : UInt32
deriving Repr, DecidableEq

def StreamCoin.before (a b : StreamCoin) : Prop :=
  orderedBefore (a.height, a.coinId) (b.height, b.coinId)

instance : DecidableRel StreamCoin.before :=
  fun _ _ => inferInstanceAs (Decidable (orderedBefore _ _))

/-- The creations of a range, each with the height of its spend. -/
def coins : List StreamCoin :=
  v.created.entries.map fun entry =>
    ⟨entry.2.createdHeight, entry.1, entry.2.createdTimestamp,
      (v.spent.lookup entry.1).getD 0⟩

def phase1Root (boundaryHeight : UInt32) (headerHash : Bytes32) :
    Except ValidateError RootV1 := do
  let acc ← ((v.coins.insertionSort StreamCoin.before).foldlM
    (fun acc c => CoinSetAccumulator.append sha256 acc c.coinId c.height
      c.timestamp c.spentIndex) {}).mapError .roots
  (acc.rootAt sha256 boundaryHeight headerHash).mapError .roots

/-- The loop of `reconcile` over the hints. -/
def survivorXor (survivorHints : List Bytes32) : Except ValidateError Bytes32 :=
  survivorHints.foldlM (fun acc s =>
    match v.created.lookup s with
    | none => .error (.spendOfMissingCoin s)
    | some info => .ok (acc.xor (foldLeaf sha256 s info))) Bytes32.zero

def reconcile (survivorHints : List Bytes32) (boundaryHeight : UInt32)
    (headerHash expectedRoot : Bytes32) :
    Except ValidateError RootV1 :=
  match v.errors with
  | e :: _ => .error e
  | [] =>
    match v.spent.keys.find? (· ∉ v.created) with
    | some coinId => .error (.spendOfMissingCoin coinId)
    | none => do
        let survivorXor ← v.survivorXor sha256 survivorHints
        if survivorXor ≠ v.xor then .error .xorResidualMismatch
        else
          let actualSurvivors :=
            v.created.entries.length - v.spent.entries.length
          if survivorHints.length ≠ actualSurvivors then
            .error (.survivorHintMismatch survivorHints.length
              actualSurvivors)
          else do
            let root ← v.phase1Root sha256 boundaryHeight headerHash
            if root.rootV1 ≠ expectedRoot then
              .error (.rootMismatch root.rootV1 expectedRoot)
            else .ok root

end RangeValidator

end Folding

end CoinRoots

open List AList ParityLedger Bytes32

section Xor

theorem Bytes32.xor_comm (a b : Bytes32) : a.xor b = b.xor a := by
  apply Bytes32.ext
  exact zipWith_comm_of_comm UInt8.xor_comm

theorem Bytes32.xor_assoc (a b c : Bytes32) :
    (a.xor b).xor c = a.xor (b.xor c) := by
  apply Bytes32.ext
  apply ext_getElem
  · simp [Bytes32.xor]
  · intro i hleft hright
    simp [Bytes32.xor, UInt8.xor_assoc]

theorem Bytes32.xor_self (a : Bytes32) : a.xor a = Bytes32.zero := by
  apply Bytes32.ext
  simp [Bytes32.xor, Bytes32.zero, zipWith_self, map_const', a.length_eq]

theorem Bytes32.zero_xor (a : Bytes32) : Bytes32.zero.xor a = a := by
  apply Bytes32.ext
  apply ext_getElem
  · simp [Bytes32.xor, Bytes32.zero, a.length_eq]
  · intro i hleft hright
    simp only [Bytes32.xor, Bytes32.zero, getElem_zipWith,
      getElem_replicate, UInt8.zero_xor]

instance : RightCommutative Bytes32.xor :=
  ⟨fun a b c => by
    rw [Bytes32.xor_assoc, Bytes32.xor_comm b c, Bytes32.xor_assoc]⟩

/-- The exclusive or of a list. -/
def xorAll (list : List Bytes32) : Bytes32 := list.foldl Bytes32.xor Bytes32.zero

theorem foldl_xor (start : Bytes32) (list : List Bytes32) :
    list.foldl Bytes32.xor start = start.xor (xorAll list) := by
  induction list generalizing start with
  | nil => rw [xorAll, foldl_nil, foldl_nil, Bytes32.xor_comm, zero_xor]
  | cons head tail ih =>
    rw [xorAll, foldl_cons, foldl_cons, ih, ih, zero_xor, Bytes32.xor_assoc]

theorem xorAll_append (front back : List Bytes32) :
    xorAll (front ++ back) = (xorAll front).xor (xorAll back) := by
  rw [xorAll, foldl_append, foldl_xor]
  rfl

theorem xorAll_perm {list list' : List Bytes32} (h : list.Perm list') :
    xorAll list = xorAll list' :=
  h.foldl_eq Bytes32.zero

end Xor

namespace CoinRoots

/-- A call on a range validator. -/
inductive RangeOp where
  | seed (coinId : Bytes32) (info : CoinMeta)
  | observe (block : BlockObservation)

/-- What a call does to the maps, one entry at a time. -/
inductive RangeEvent where
  | invalid (height : UInt32)
  | create (coinId : Bytes32) (info : CoinMeta)
  | spend (nowHeight : UInt32) (nowTimestamp : UInt64) (s : SpendRef)

/-- The events of a call, in their order. -/
def RangeOp.events : RangeOp → List RangeEvent
  | .seed coinId info => [.create coinId info]
  | .observe block =>
    (if block.selfValid then [] else [.invalid block.height]) ++
      block.creations.map (fun c => .create c.coinId c.info) ++
      block.spends.map (.spend block.nowHeight block.nowTimestamp)

/-- An event that raises no error by itself. -/
def RangeEvent.Passes : RangeEvent → Prop
  | .invalid _ => False
  | .create _ _ => True
  | .spend nowHeight nowTimestamp s =>
    s.timeLocks.check s.info nowHeight nowTimestamp = .ok ()

variable (events : List RangeEvent)

/-- The created coins of some events, seeds included. -/
def createdIn : List (Bytes32 × CoinMeta) :=
  events.filterMap fun
    | .create coinId info => some (coinId, info)
    | _ => none

def spendsIn : List SpendRef :=
  events.filterMap fun
    | .spend _ _ s => some s
    | _ => none

/-- The coin and the metadata that a spend is folded in with. -/
def SpendRef.folded (s : SpendRef) : Bytes32 × CoinMeta := (s.coinId, s.info)

/-- The coins that are folded in, at their creations and at their spends. -/
def foldedIn : List (Bytes32 × CoinMeta) :=
  createdIn events ++ (spendsIn events).map SpendRef.folded

/-- The created coins that some hints name. -/
def hintedIn (hints : List Bytes32) : List (Bytes32 × CoinMeta) :=
  hints.flatMap fun hint => (createdIn events).filter (·.1 = hint)

/-- The leaves of a list of coins are independent: they cancel only when each
coin is there an even number of times. -/
def CancelsInPairs (leaf : Bytes32 × CoinMeta → Bytes32)
    (coins : List (Bytes32 × CoinMeta)) : Prop :=
  xorAll (coins.map leaf) = Bytes32.zero → ∀ coin, Even (coins.count coin)

/-- The leaf of a coin with its metadata. -/
def leafOf (sha256 : HashFn) (coin : Bytes32 × CoinMeta) : Bytes32 :=
  foldLeaf sha256 coin.1 coin.2

section Runs

variable (sha256 : HashFn)

def RangeValidator.step (v : RangeValidator) : RangeOp → RangeValidator
  | .seed coinId info => v.seed sha256 coinId info
  | .observe block => v.observe sha256 block

/-- A sequence of calls on a new validator. -/
def RangeValidator.run (ops : List RangeOp) : RangeValidator :=
  ops.foldl (RangeValidator.step sha256) {}

def RangeValidator.happen (v : RangeValidator) : RangeEvent → RangeValidator
  | .invalid height => { v with errors := v.errors ++ [.blockSelfInvalid height] }
  | .create coinId info => v.seed sha256 coinId info
  | .spend nowHeight nowTimestamp s =>
    v.observeSpend sha256 nowHeight nowTimestamp s

open RangeValidator

theorem RangeValidator.step_eq_events (v : RangeValidator) (op : RangeOp) :
    v.step sha256 op = op.events.foldl (happen sha256) v := by
  cases op with
  | seed coinId info => rfl
  | observe block =>
    simp only [step, observe, RangeOp.events, foldl_append, foldl_map]
    split_ifs <;> rfl

end Runs

variable {sha256 : HashFn} {v : RangeValidator} {events : List RangeEvent}

section Follows

/-- What a validator holds after some events.  The metadata and the exclusive or
are only right while no error was raised. -/
structure RangeValidator.Follows (sha256 : HashFn)
    (v : RangeValidator) (events : List RangeEvent) : Prop where
  keys : ∀ id, id ∈ v.created ↔ id ∈ (createdIn events).map Prod.fst
  clean : v.errors = [] ↔ (∀ event ∈ events, event.Passes) ∧
    ((createdIn events).map Prod.fst).Nodup
  created : v.errors = [] → ∀ id info,
    v.created.lookup id = some info ↔ (id, info) ∈ createdIn events
  spent : ∀ id, id ∈ v.spent ↔ id ∈ (spendsIn events).map SpendRef.coinId
  spentAt : ∀ id height, v.spent.lookup id = some height →
    ∃ s ∈ spendsIn events, s.coinId = id ∧ s.spentHeight = height
  xor : v.errors = [] → v.xor = xorAll ((foldedIn events).map (leafOf sha256))

theorem RangeValidator.Follows.new : RangeValidator.Follows sha256 {} [] where
  keys id := by simp [createdIn]
  clean := by simp [createdIn]
  created _ id info := by simp [createdIn]
  spent id := by simp [spendsIn]
  spentAt id height h := by simp at h
  xor _ := rfl

theorem createdIn_concat (event : RangeEvent) : createdIn (events ++ [event]) =
    createdIn events ++ createdIn [event] := filterMap_append

theorem spendsIn_concat (event : RangeEvent) : spendsIn (events ++ [event]) =
    spendsIn events ++ spendsIn [event] := filterMap_append

theorem RangeValidator.Follows.invalid (h : v.Follows sha256 events)
    (height : UInt32) :
    (v.happen sha256 (.invalid height)).Follows sha256
      (events ++ [.invalid height]) := by
  have hcreated : createdIn (events ++ [.invalid height]) = createdIn events := by
    rw [createdIn_concat]
    exact append_nil _
  have hspends : spendsIn (events ++ [.invalid height]) = spendsIn events := by
    rw [spendsIn_concat]
    exact append_nil _
  have hdirty : (v.happen sha256 (.invalid height)).errors ≠ [] := by
    simp [happen]
  constructor
  · rw [hcreated]
    exact h.keys
  · apply iff_of_false hdirty
    rintro ⟨hpasses, -⟩
    exact hpasses (.invalid height) (by simp)
  · exact fun hclean => absurd hclean hdirty
  · rw [hspends]
    exact h.spent
  · rw [hspends]
    exact h.spentAt
  · exact fun hclean => absurd hclean hdirty

variable (coinId : Bytes32) (info : CoinMeta)

@[simp]
theorem RangeValidator.seed_created :
    (v.seed sha256 coinId info).created = v.created.insert coinId info := by
  unfold seed
  split_ifs <;> rfl

@[simp]
theorem RangeValidator.seed_spent :
    (v.seed sha256 coinId info).spent = v.spent := by
  unfold seed
  split_ifs <;> rfl

/-- An error is raised for a coin that was created before. -/
theorem RangeValidator.seed_errors_eq_nil :
    (v.seed sha256 coinId info).errors = [] ↔
      v.errors = [] ∧ coinId ∉ v.created := by
  unfold seed
  split_ifs with hmem <;> simp [hmem]

theorem RangeValidator.Follows.create (h : v.Follows sha256 events)
    (coinId : Bytes32) (info : CoinMeta) :
    (v.seed sha256 coinId info).Follows sha256
      (events ++ [.create coinId info]) := by
  have hcreated : createdIn (events ++ [.create coinId info]) =
      createdIn events ++ [(coinId, info)] := createdIn_concat _
  have hspends : spendsIn (events ++ [.create coinId info]) =
      spendsIn events := by
    rw [spendsIn_concat]
    exact append_nil _
  constructor
  · intro id
    rw [seed_created, hcreated, mem_insert, h.keys]
    simp [or_comm]
  · rw [seed_errors_eq_nil, h.clean, h.keys, hcreated, map_append, nodup_append]
    simp only [mem_append, mem_singleton, or_imp, forall_and, forall_eq,
      RangeEvent.Passes, and_true, map_cons, map_nil, nodup_singleton, true_and,
      mem_map, Prod.exists, exists_and_right, exists_eq_right, ne_eq]
    constructor
    · rintro ⟨⟨hpasses, hnodup⟩, hfresh⟩
      refine ⟨hpasses, hnodup, ?_⟩
      intro id hid
      rintro rfl
      exact hfresh hid
    · rintro ⟨hpasses, hnodup, hfresh⟩
      exact ⟨⟨hpasses, hnodup⟩, fun hid => hfresh coinId hid rfl⟩
  · intro herrors id other
    obtain ⟨herrors, hfresh⟩ := (seed_errors_eq_nil coinId info).mp herrors
    rw [seed_created, hcreated, mem_append, mem_singleton, Prod.mk.injEq]
    by_cases hid : id = coinId
    · subst hid
      rw [lookup_insert, Option.some.injEq]
      have hnone : (id, other) ∉ createdIn events := fun hmem =>
        hfresh ((h.keys id).mpr (mem_map_of_mem hmem))
      simp [hnone, eq_comm]
    · rw [lookup_insert_ne hid, h.created herrors]
      simp [hid]
  · rw [hspends, seed_spent]
    exact h.spent
  · rw [hspends, seed_spent]
    exact h.spentAt
  · intro herrors
    obtain ⟨herrors, hfresh⟩ := (seed_errors_eq_nil coinId info).mp herrors
    have hperm : (foldedIn (events ++ [.create coinId info])).Perm
        (foldedIn events ++ [(coinId, info)]) := by
      unfold foldedIn
      rw [hcreated, hspends, append_assoc, append_assoc]
      exact (perm_append_comm).append_left _
    rw [seed, if_neg hfresh, xorAll_perm (hperm.map _),
      map_append, xorAll_append, ← h.xor herrors]
    simp [xorAll, zero_xor, leafOf]

theorem RangeValidator.Follows.spend (h : v.Follows sha256 events)
    (nowHeight : UInt32) (nowTimestamp : UInt64) (s : SpendRef) :
    (v.observeSpend sha256 nowHeight nowTimestamp s).Follows sha256
      (events ++ [.spend nowHeight nowTimestamp s]) := by
  have hcreated : createdIn (events ++ [.spend nowHeight nowTimestamp s]) =
      createdIn events := by
    rw [createdIn_concat]
    exact append_nil _
  have hspends : spendsIn (events ++ [.spend nowHeight nowTimestamp s]) =
      spendsIn events ++ [s] := spendsIn_concat _
  have hclean :
      (v.observeSpend sha256 nowHeight nowTimestamp s).errors = [] ↔
        v.errors = [] ∧
          s.timeLocks.check s.info nowHeight nowTimestamp = .ok () := by
    unfold observeSpend
    cases s.timeLocks.check s.info nowHeight nowTimestamp <;> simp
  constructor
  · rw [hcreated]
    exact h.keys
  · rw [hclean, h.clean, hcreated]
    simp only [mem_append, mem_singleton, or_imp, forall_and,
      forall_eq, RangeEvent.Passes]
    tauto
  · rw [hcreated]
    exact fun herrors => h.created (hclean.mp herrors).1
  · intro id
    rw [hspends]
    change id ∈ v.spent.insert s.coinId s.spentHeight ↔ _
    rw [mem_insert, h.spent]
    simp [or_comm]
  · intro id height hlookup
    change (v.spent.insert s.coinId s.spentHeight).lookup id = _ at hlookup
    rw [hspends]
    by_cases hid : id = s.coinId
    · subst hid
      rw [lookup_insert, Option.some.injEq] at hlookup
      exact ⟨s, by simp, rfl, hlookup⟩
    · rw [lookup_insert_ne hid] at hlookup
      obtain ⟨earlier, hmem, hsame⟩ := h.spentAt id height hlookup
      exact ⟨earlier, mem_append_left _ hmem, hsame⟩
  · intro herrors
    have hfolded : foldedIn (events ++ [.spend nowHeight nowTimestamp s]) =
        foldedIn events ++ [s.folded] := by
      unfold foldedIn
      rw [hcreated, hspends, map_append, append_assoc]
      rfl
    change v.xor.xor (leafOf sha256 s.folded) = _
    rw [h.xor (hclean.mp herrors).1, hfolded, map_append, xorAll_append]
    simp [xorAll, zero_xor]

theorem RangeValidator.run_follows (sha256 : HashFn) (ops : List RangeOp) :
    (run sha256 ops).Follows sha256 (ops.flatMap RangeOp.events) := by
  have hstep : step sha256 = fun v op => op.events.foldl (happen sha256) v :=
    funext₂ fun v op => v.step_eq_events sha256 op
  rw [run, hstep, ← foldl_flatMap]
  induction ops.flatMap RangeOp.events using reverseRecOn with
  | nil => exact .new
  | append_singleton events event ih =>
    rw [foldl_append, foldl_cons, foldl_nil]
    cases event with
    | invalid height => exact ih.invalid height
    | create coinId info => exact ih.create coinId info
    | spend nowHeight nowTimestamp s => exact ih.spend nowHeight nowTimestamp s

end Follows

variable {hints : List Bytes32} {boundary : UInt32}
  {headerHash expectedRoot : Bytes32} {root : RootV1}

section Reconciled

theorem reconcile_eq_ok : v.reconcile sha256 hints boundary headerHash
      expectedRoot = .ok root ↔
    v.errors = [] ∧ (∀ id ∈ v.spent.keys, id ∈ v.created) ∧
      v.survivorXor sha256 hints = .ok v.xor ∧
      hints.length = v.created.keys.length - v.spent.keys.length ∧
      v.phase1Root sha256 boundary headerHash = .ok root ∧
      root.rootV1 = expectedRoot := by
  have hlengths : v.created.entries.length - v.spent.entries.length =
      v.created.keys.length - v.spent.keys.length := by
    simp [AList.keys, List.keys]
  unfold RangeValidator.reconcile
  rw [hlengths]
  cases herrors : v.errors with
  | cons e rest => simp
  | nil =>
    cases hfind : v.spent.keys.find? (· ∉ v.created) with
    | some id =>
      have hmissing := find?_some hfind
      have hmem := mem_of_find?_eq_some hfind
      simp only [reduceCtorEq, true_and, false_iff, not_and]
      intro hall
      exact absurd (hall id hmem) (by simpa using hmissing)
    | none =>
      have hall : ∀ id ∈ v.spent.keys, id ∈ v.created := by simpa using hfind
      simp only [true_and, and_iff_right hall]
      cases hxor : v.survivorXor sha256 hints with
      | error e => simp
      | ok survivors =>
        simp only [Except.bind_ok, Except.ok.injEq]
        by_cases hsame : survivors = v.xor
        · by_cases hlength : hints.length =
              v.created.keys.length - v.spent.keys.length
          · simp only [hsame, hlength, ne_eq, not_true_eq_false,
              if_false, true_and]
            cases v.phase1Root sha256 boundary headerHash with
            | error e => simp
            | ok found =>
              by_cases hroot : found.rootV1 = expectedRoot
              · simp only [Except.bind_ok, hroot, not_true_eq_false,
                  if_false, Except.ok.injEq]
                constructor
                · rintro rfl
                  exact ⟨rfl, hroot⟩
                · exact And.left
              · simp only [Except.bind_ok, hroot, not_false_eq_true,
                  if_true, reduceCtorEq, Except.ok.injEq, false_iff]
                rintro ⟨rfl, hsame⟩
                exact hroot hsame
          · simp [hsame, hlength]
        · simp [hsame]

/-- The loop over the hints, while no error was raised. -/
theorem foldlM_survivors (h : v.Follows sha256 events) (hclean : v.errors = [])
    (hints : List Bytes32) (start out : Bytes32) :
    hints.foldlM (fun acc s =>
        match v.created.lookup s with
        | none => .error (.spendOfMissingCoin s)
        | some info => .ok (acc.xor (foldLeaf sha256 s info))) start =
          (.ok out : Except ValidateError Bytes32) ↔
      (∀ hint ∈ hints, hint ∈ v.created) ∧
        out = start.xor (xorAll ((hintedIn events hints).map
          (leafOf sha256))) := by
  induction hints generalizing start with
  | nil =>
    simp only [foldlM_nil, not_mem_nil, false_implies, implies_true, true_and]
    rw [show (xorAll ((hintedIn events []).map (leafOf sha256))) =
      Bytes32.zero from rfl, Bytes32.xor_comm, zero_xor]
    exact ⟨fun hout => (Except.ok.inj hout).symm, fun hout => hout ▸ rfl⟩
  | cons hint hints ih =>
    rw [foldlM_cons, Except.bind_eq_ok, forall_mem_cons]
    cases hlookup : v.created.lookup hint with
    | none =>
      have hmissing : hint ∉ v.created := lookup_eq_none.mp hlookup
      simp [hmissing]
    | some info =>
      have hmem : (hint, info) ∈ createdIn events :=
        (h.created hclean hint info).mp hlookup
      have hpresent : hint ∈ v.created :=
        lookup_isSome.mp (by rw [hlookup]; rfl)
      have hhinted : hintedIn events (hint :: hints) =
          (hint, info) :: hintedIn events hints := by
        unfold hintedIn
        rw [flatMap_cons, filter_fst_of_nodup (h.clean.mp hclean).2 hmem]
        rfl
      have hxor : xorAll ((hintedIn events (hint :: hints)).map
          (leafOf sha256)) = (foldLeaf sha256 hint info).xor
            (xorAll ((hintedIn events hints).map (leafOf sha256))) := by
        rw [hhinted, map_cons, xorAll, foldl_cons, foldl_xor, zero_xor]
        rfl
      simp only [Except.ok.injEq, exists_eq_left']
      rw [ih, hxor, Bytes32.xor_assoc, and_iff_right hpresent]

theorem survivorXor_eq_ok (h : v.Follows sha256 events)
    (hclean : v.errors = []) {out : Bytes32} :
    v.survivorXor sha256 hints = .ok out ↔
      (∀ hint ∈ hints, hint ∈ v.created) ∧
        out = xorAll ((hintedIn events hints).map (leafOf sha256)) := by
  have hfold := foldlM_survivors h hclean hints Bytes32.zero out
  rwa [zero_xor] at hfold

theorem keys_perm {V : Type} {map : AList fun _ : Bytes32 => V}
    {ids : List Bytes32} (hnodup : ids.Nodup) (h : ∀ id, id ∈ map ↔ id ∈ ids) :
    map.keys.Perm ids := by
  rw [perm_ext_iff_of_nodup map.keys_nodup hnodup]
  exact h

open SpendRef

theorem map_fst_folded :
    ((spendsIn events).map folded).map Prod.fst =
      (spendsIn events).map coinId := by
  rw [map_map]
  rfl

theorem balanced_of_reconcile (h : v.Follows sha256 events)
    (hcancel : CancelsInPairs (leafOf sha256)
      (foldedIn events ++ hintedIn events hints))
    (hok : v.reconcile sha256 hints boundary headerHash expectedRoot =
      .ok root) :
    ParityLedger.Balanced (createdIn events)
      ((spendsIn events).map folded) hints := by
  obtain ⟨hclean, hspent, hxor, hlength, -, -⟩ := reconcile_eq_ok.mp hok
  have hfresh := (h.clean.mp hclean).2
  constructor
  · exact hfresh
  · rw [map_fst_folded]
    intro id hid
    exact (h.keys id).mp (hspent id ((h.spent id).mpr hid))
  · have hkeys : v.created.keys.Perm ((createdIn events).map Prod.fst) :=
      keys_perm hfresh h.keys
    have hcount := length_filter_notMem v.created.keys_nodup
      v.spent.keys_nodup hspent
    rw [hlength, ← hcount, (hkeys.filter _).length_eq, map_fst_folded]
    congr 2
    funext id
    have hiff : id ∉ v.spent.keys ↔
        id ∉ (spendsIn events).map coinId := not_congr (h.spent id)
    simp only [hiff]
  · intro coin
    have hzero : xorAll ((foldedIn events ++ hintedIn events hints).map
        (leafOf sha256)) = Bytes32.zero := by
      rw [map_append, xorAll_append, ← h.xor hclean,
        ← ((survivorXor_eq_ok h hclean).mp hxor).2, Bytes32.xor_self]
    have heven := hcancel hzero coin
    rw [count_append, foldedIn, count_append] at heven
    rwa [show (hintedIn events hints).count coin = _ from
      count_flatMap_filter_fst _ _] at heven

/-- A range in which every coin is created once and spent at most once, with the
metadata of its creation, and the hints are the coins that are left. -/
structure RangeValid (events : List RangeEvent) (hints : List Bytes32) :
    Prop where
  created : ((createdIn events).map Prod.fst).Nodup
  matched : ∀ s ∈ spendsIn events, (s.coinId, s.info) ∈ createdIn events
  once : ((spendsIn events).map SpendRef.coinId).Nodup
  passes : ∀ event ∈ events, event.Passes
  survivors : hints.Perm (((createdIn events).map Prod.fst).filter
    (· ∉ (spendsIn events).map SpendRef.coinId))

/-- No coin is spent an odd number of times but once. -/
def OddSpendsSingle (events : List RangeEvent) : Prop :=
  ∀ id, Odd (((spendsIn events).map coinId).count id) →
    ((spendsIn events).map coinId).count id = 1

theorem rangeValid_of_reconcile (h : v.Follows sha256 events)
    (hodd : OddSpendsSingle events)
    (hcancel : CancelsInPairs (leafOf sha256)
      (foldedIn events ++ hintedIn events hints))
    (hok : v.reconcile sha256 hints boundary headerHash expectedRoot =
      .ok root) : RangeValid events hints := by
  have hbalanced := balanced_of_reconcile h hcancel hok
  have hclean := h.clean.mp (reconcile_eq_ok.mp hok).1
  rw [OddSpendsSingle, ← map_fst_folded] at hodd
  constructor
  · exact hclean.2
  · intro s hs
    exact hbalanced.taken_made hodd (mem_map_of_mem hs)
  · rw [← map_fst_folded]
    exact hbalanced.taken_nodup hodd
  · exact hclean.1
  · rw [← map_fst_folded]
    exact hbalanced.left_perm

end Reconciled

section Order

variable {v' : RangeValidator} {events' : List RangeEvent}

theorem orderedBefore_total (a b : UInt32 × Bytes32) :
    orderedBefore a b ∨ orderedBefore b a := by
  unfold orderedBefore
  by_cases heq : a.1 = b.1
  · rcases List.le_total a.2.bytes b.2.bytes with hle | hle
    · exact .inl (.inr ⟨heq, hle⟩)
    · exact .inr (.inr ⟨heq.symm, hle⟩)
  · rcases UInt32.lt_or_lt_of_ne heq with hlt | hlt
    · exact .inl (.inl hlt)
    · exact .inr (.inl hlt)

theorem orderedBefore_trans {a b c : UInt32 × Bytes32}
    (hab : orderedBefore a b) (hbc : orderedBefore b c) : orderedBefore a c := by
  rcases hab with hab | ⟨hab, hle⟩
  · rcases hbc with hbc | ⟨hbc, -⟩
    · exact .inl (UInt32.lt_trans hab hbc)
    · exact .inl (hbc ▸ hab)
  · rcases hbc with hbc | ⟨hbc, hle'⟩
    · exact .inl (hab ▸ hbc)
    · exact .inr ⟨hab.trans hbc, List.le_trans hle hle'⟩

theorem orderedBefore_antisymm {a b : UInt32 × Bytes32}
    (hab : orderedBefore a b) (hba : orderedBefore b a) : a = b := by
  rcases hab with hab | ⟨hab, hle⟩
  · rcases hba with hba | ⟨hba, -⟩
    · exact absurd (UInt32.lt_trans hab hba) (UInt32.lt_irrefl _)
    · exact absurd hab (hba ▸ UInt32.lt_irrefl _)
  · rcases hba with hba | ⟨-, hle'⟩
    · exact absurd hba (hab ▸ UInt32.lt_irrefl _)
    · exact Prod.ext hab (Bytes32.ext (List.le_antisymm hle hle'))

instance : Std.Total RangeValidator.StreamCoin.before :=
  ⟨fun _ _ => orderedBefore_total _ _⟩

instance : IsTrans RangeValidator.StreamCoin
    RangeValidator.StreamCoin.before :=
  ⟨fun _ _ _ => orderedBefore_trans⟩

theorem eq_of_mem_coins {a b : RangeValidator.StreamCoin} (ha : a ∈ v.coins)
    (hb : b ∈ v.coins) (hsame : a.coinId = b.coinId) : a = b := by
  obtain ⟨⟨id, info⟩, hentry, rfl⟩ := mem_map.mp ha
  obtain ⟨⟨id', info'⟩, hentry', rfl⟩ := mem_map.mp hb
  obtain rfl : id = id' := hsame
  have hlookup := mem_lookup_iff.mpr hentry
  rw [mem_lookup_iff.mpr hentry'] at hlookup
  obtain rfl := Option.some.inj hlookup
  rfl

section

variable
  (hcreated : ∀ id info, v.created.lookup id = some info ↔ v'.created.lookup id
    = some info) (hspent : ∀ id, v.spent.lookup id = v'.spent.lookup id)

include hcreated hspent

/-- The canonical stream depends on what the maps hold, not on how they came to
hold it. -/
theorem sorted_coins_eq :
    v.coins.insertionSort RangeValidator.StreamCoin.before =
      v'.coins.insertionSort RangeValidator.StreamCoin.before := by
  have hentries : v.created.entries.Perm v'.created.entries :=
    lookup_ext v.created.nodupKeys v'.created.nodupKeys hcreated
  have hcoins : v.coins.Perm v'.coins := by
    unfold RangeValidator.coins
    simp only [hspent]
    exact hentries.map _
  have hperm : (v.coins.insertionSort RangeValidator.StreamCoin.before).Perm
      (v'.coins.insertionSort RangeValidator.StreamCoin.before) :=
    (perm_insertionSort _ _).trans (hcoins.trans (perm_insertionSort _ _).symm)
  refine List.Perm.eq_of_pairwise ?_ (pairwise_insertionSort _ _)
    (pairwise_insertionSort _ _) hperm
  intro a b ha hb hab hba
  rw [mem_insertionSort] at ha hb
  exact eq_of_mem_coins ha (hcoins.mem_iff.mpr hb)
    (congrArg Prod.snd (orderedBefore_antisymm hab hba))

end

/-- Where no coin is spent twice, the map of spends is the list of spends. -/
theorem lookup_spent_iff (h : v.Follows sha256 events)
    (honce : ((spendsIn events).map SpendRef.coinId).Nodup) (id : Bytes32)
    (height : UInt32) : v.spent.lookup id = some height ↔
      ∃ s ∈ spendsIn events, s.coinId = id ∧ s.spentHeight = height := by
  constructor
  · exact h.spentAt id height
  · rintro ⟨s, hs, rfl, rfl⟩
    have hmem : s.coinId ∈ v.spent := (h.spent _).mpr (mem_map_of_mem hs)
    obtain ⟨found, hfound⟩ :=
      Option.isSome_iff_exists.mp (lookup_isSome.mpr hmem)
    obtain ⟨s', hs', hid, rfl⟩ := h.spentAt _ _ hfound
    rw [hfound, inj_on_of_nodup_map honce hs' hs hid]

section

variable (h : events.Perm events')

include h

theorem createdIn_perm :
    (createdIn events).Perm (createdIn events') := h.filterMap _

theorem spendsIn_perm :
    (spendsIn events).Perm (spendsIn events') := h.filterMap _

theorem foldedIn_perm : (foldedIn events).Perm (foldedIn events') :=
  (createdIn_perm h).append ((spendsIn_perm h).map _)

theorem hintedIn_perm :
    (hintedIn events hints).Perm (hintedIn events' hints) := by
  induction hints with
  | nil => exact .nil
  | cons hint hints ih => exact ((createdIn_perm h).filter _).append ih

end

/-- The same events in another order reconcile to the same root. -/
theorem reconcile_of_perm (hperm : events.Perm events')
    (h : v.Follows sha256 events) (h' : v'.Follows sha256 events')
    (honce : ((spendsIn events).map SpendRef.coinId).Nodup)
    (hok : v.reconcile sha256 hints boundary headerHash expectedRoot =
      .ok root) :
    v'.reconcile sha256 hints boundary headerHash expectedRoot = .ok root := by
  obtain ⟨hclean, hspent, hxor, hlength, hroot, hexpected⟩ :=
    reconcile_eq_ok.mp hok
  have hids := (createdIn_perm hperm).map Prod.fst
  have hspentIds := (spendsIn_perm hperm).map SpendRef.coinId
  have hclean' : v'.errors = [] := by
    obtain ⟨hpasses, hnodup⟩ := h.clean.mp hclean
    refine h'.clean.mpr ⟨?_, hids.nodup hnodup⟩
    intro event hevent
    exact hpasses event (hperm.mem_iff.mpr hevent)
  have hkeys : ∀ id, id ∈ v'.created ↔ id ∈ v.created := by
    intro id
    rw [h.keys, h'.keys, hids.mem_iff]
  have hspentKeys : ∀ id, id ∈ v'.spent ↔ id ∈ v.spent := by
    intro id
    rw [h.spent, h'.spent, hspentIds.mem_iff]
  have hcreated : ∀ id info, v.created.lookup id = some info ↔
      v'.created.lookup id = some info := by
    intro id info
    rw [h.created hclean, h'.created hclean', (createdIn_perm hperm).mem_iff]
  have hlookup : ∀ id, v.spent.lookup id = v'.spent.lookup id := by
    intro id
    apply Option.ext
    intro height
    rw [lookup_spent_iff h honce, lookup_spent_iff h' (hspentIds.nodup honce)]
    simp only [(spendsIn_perm hperm).mem_iff]
  have hxor' : v'.xor = v.xor := by
    rw [h.xor hclean, h'.xor hclean']
    exact xorAll_perm ((foldedIn_perm hperm.symm).map _)
  refine reconcile_eq_ok.mpr ⟨hclean', ?_, ?_, ?_, ?_, hexpected⟩
  · intro id hid
    exact (hkeys id).mpr (hspent id ((hspentKeys id).mp hid))
  · obtain ⟨hhints, hout⟩ := (survivorXor_eq_ok h hclean).mp hxor
    refine (survivorXor_eq_ok h' hclean').mpr ⟨?_, ?_⟩
    · intro hint hmem
      exact (hkeys hint).mpr (hhints hint hmem)
    · rw [hxor', hout]
      exact xorAll_perm ((hintedIn_perm hperm).map _)
  · rw [hlength, (keys_perm v.created.keys_nodup hkeys).length_eq,
      (keys_perm v.spent.keys_nodup hspentKeys).length_eq]
  · rw [← hroot, RangeValidator.phase1Root, RangeValidator.phase1Root,
      sorted_coins_eq hcreated hlookup]

theorem CancelsInPairs.perm {leaf : Bytes32 × CoinMeta → Bytes32}
    {coins coins' : List (Bytes32 × CoinMeta)} (hperm : coins.Perm coins')
    (h : CancelsInPairs leaf coins) : CancelsInPairs leaf coins' := by
  intro hzero coin
  rw [← hperm.count_eq]
  apply h
  rw [xorAll_perm (hperm.map leaf), hzero]

/-- If no coin is spent three times, or a greater odd number of times, the calls
may come in any order, and a range that reconciles is valid. -/
theorem reconcile_any_order (sha256 : HashFn) (ops : List RangeOp)
    (hints : List Bytes32) (boundary : UInt32)
    (headerHash expectedRoot : Bytes32)
    (hodd : OddSpendsSingle (ops.flatMap RangeOp.events))
    (hcancel : CancelsInPairs (leafOf sha256)
      (foldedIn (ops.flatMap RangeOp.events) ++
        hintedIn (ops.flatMap RangeOp.events) hints)) :
    (∀ ops', ops'.Perm ops →
      ((RangeValidator.run sha256 ops').reconcile sha256 hints boundary
        headerHash expectedRoot).toOption =
      ((RangeValidator.run sha256 ops).reconcile sha256 hints boundary
        headerHash expectedRoot).toOption) ∧
    ∀ root, (RangeValidator.run sha256 ops).reconcile sha256 hints boundary
        headerHash expectedRoot = .ok root →
      RangeValid (ops.flatMap RangeOp.events) hints := by
  have hfollows := RangeValidator.run_follows sha256 ops
  constructor
  · intro ops' hops
    have hperm : (ops'.flatMap RangeOp.events).Perm
        (ops.flatMap RangeOp.events) := hops.flatMap_right _
    have hfollows' := RangeValidator.run_follows sha256 ops'
    have hodd' : OddSpendsSingle (ops'.flatMap RangeOp.events) := by
      intro id
      rw [((spendsIn_perm hperm).map _).count_eq]
      exact hodd id
    have hcancel' := hcancel.perm
      ((foldedIn_perm hperm.symm).append (hintedIn_perm hperm.symm))
    apply Option.ext
    intro root
    rw [Except.toOption_eq_some, Except.toOption_eq_some]
    constructor
    · intro hok
      have hvalid := rangeValid_of_reconcile hfollows' hodd' hcancel' hok
      exact reconcile_of_perm hperm hfollows' hfollows hvalid.once hok
    · intro hok
      have hvalid := rangeValid_of_reconcile hfollows hodd hcancel hok
      exact reconcile_of_perm hperm.symm hfollows hfollows' hvalid.once hok
  · intro root hok
    exact rangeValid_of_reconcile hfollows hodd hcancel hok

section Thrice

/-- A coin that is created at height 1. -/
def onceMeta : CoinMeta := ⟨1, 1⟩

/-- The block that creates the coin zero, and one that spends it some times. -/
def spendingRange (times : Nat) : List RangeOp :=
  [.observe ⟨1, 1, 1, true, [⟨Bytes32.zero, onceMeta⟩], []⟩,
    .observe ⟨2, 2, 2, true, [],
      List.replicate times ⟨Bytes32.zero, 2, onceMeta, {}⟩⟩]

def spendingRoot : Option RootV1 :=
  ((RangeValidator.run hash256 (spendingRange 1)).phase1Root hash256 2
    Bytes32.zero).toOption

/-- One spend and three spends reconcile to the same root, evaluated. -/
theorem spendingRange_facts : ∃ root ∈ spendingRoot,
    (RangeValidator.run hash256 (spendingRange 1)).reconcile hash256 [] 2
      Bytes32.zero root.rootV1 = .ok root ∧
    (RangeValidator.run hash256 (spendingRange 3)).reconcile hash256 [] 2
      Bytes32.zero root.rootV1 = .ok root := by
  decide +kernel

theorem reconcile_any_order_at_one_spend :
    ∃ root, (RangeValidator.run hash256 (spendingRange 1)).reconcile hash256 []
        2 Bytes32.zero root.rootV1 = .ok root ∧
      (RangeValidator.run hash256 (spendingRange 1).reverse).reconcile hash256
        [] 2 Bytes32.zero root.rootV1 = .ok root ∧
      RangeValid ((spendingRange 1).flatMap RangeOp.events) [] := by
  obtain ⟨root, -, hok, -⟩ := spendingRange_facts
  have hodd : OddSpendsSingle ((spendingRange 1).flatMap RangeOp.events) :=
    fun id hid => le_antisymm (count_le_length.trans (by decide)) hid.pos
  have hcancel : CancelsInPairs (leafOf hash256)
      (foldedIn ((spendingRange 1).flatMap RangeOp.events) ++
        hintedIn ((spendingRange 1).flatMap RangeOp.events) []) := by
    intro _ coin
    change Even (count coin (replicate 2 (Bytes32.zero, onceMeta)))
    rw [count_replicate]
    split_ifs <;> decide
  obtain ⟨horder, hvalid⟩ := reconcile_any_order hash256 (spendingRange 1) [] 2
    Bytes32.zero root.rootV1 hodd hcancel
  refine ⟨root, hok, ?_, hvalid root hok⟩
  have hreverse := horder _ (reverse_perm (spendingRange 1))
  rw [hok] at hreverse
  exact Except.toOption_eq_some.mp hreverse

/-- A range that spends its only coin three times is accepted, with the root of
the range that spends it once. -/
theorem reconcile_accepts_three_spends : ∃ root ∈ spendingRoot,
    (RangeValidator.run hash256 (spendingRange 3)).reconcile hash256 [] 2
      Bytes32.zero root.rootV1 = .ok root ∧
    (spendsIn ((spendingRange 3).flatMap RangeOp.events)).map
      SpendRef.coinId = List.replicate 3 Bytes32.zero := by
  obtain ⟨root, hroot, -, hok⟩ := spendingRange_facts
  exact ⟨root, hroot, hok, rfl⟩

end Thrice

end Order

end CoinRoots

end DgXch
