/-
What a fast-forward rebase keeps.  `fast_forward_singleton` reads a spend
through helpers that fill short atoms up and close improper lists, and writes
amounts as machine words; a rebased spend can be rebased again exactly where
none of these changed anything.
-/
import DgXch.BlockRerun
import DgXch.MempoolLedger
import Mathlib.Data.UInt

namespace DgXch

open FastForward BigEndian TwosComplement DgXch.Except SExp

/-- Amounts from `2 ^ 63` on are written as negative numbers, which are then not
read back. -/
theorem atomU64_ofU64 (amount : UInt64) (what : String) :
    atomU64 (.ofU64 amount) what =
      if amount.toNat < 2 ^ 63 then .ok amount
      else err (what ++ " is not a u64") := by
  have hlt := amount.toNat_lt
  have hvalue : ∃ data, ofU64 amount = .atom data ∧ beInt data =
      if amount.toNat < 2 ^ 63 then (amount.toNat : Int)
      else amount.toNat - 2 ^ 64 := by
    by_cases hzero : amount = 0
    · subst hzero
      exact ⟨[], rfl, by decide⟩
    · refine ⟨_, if_neg hzero, ?_⟩
      rw [stripI128_eq_stripSign, beInt_stripSign,
        beInt_beBytes (by decide) (lt_of_lt_of_le hlt (by norm_num))]
      have hhalf : amount.toNat < 2 ^ 63 ↔ 2 * amount.toNat < 256 ^ 8 := by
        norm_num
        omega
      simp only [hhalf]
      norm_num
  obtain ⟨data, hdata, hvalue⟩ := hvalue
  rw [hdata]
  simp only [atomU64, numberFromSlice, hvalue]
  split_ifs with hsmall hfits hfits
  · rw [Int.toNat_natCast, UInt64.ofNat_toNat]
  · omega
  · omega
  · rfl

theorem guard_eq_ok {A : Type} {c : Prop} [Decidable c] {msg : String}
    {next : ClvmResult A} {out : A} :
    (if c then err msg else next) = .ok out ↔ ¬ c ∧ next = .ok out := by
  by_cases hc : c <;> simp [hc, err]

section Rebase

variable (sha256 : HashFn)

/-- What makes a spend one that can be rebased, with what is read of it. -/
structure Rebasable (s : CoinSpend) (puzzle : SExp)
    (singleton : SingletonStruct) (innerPuzzle : SExp)
    (solution : Solution) : Prop where
  odd : s.coin.amount &&& 1 ≠ 0
  reveal : fromSerial s.puzzleReveal = .ok puzzle
  curried : uncurrySingleton sha256 puzzle = .ok (singleton, innerPuzzle)
  solved : (fromSerial s.solution >>= parseSolution) = .ok solution
  amount : s.coin.amount = solution.amount
  parent : Coin.name sha256 ⟨solution.lineageParentParent,
    singletonPuzzleHash sha256 solution.parentInnerPuzzleHash singleton,
    solution.lineageParentAmount⟩ = s.coin.parentCoinInfo
  inner : treeHash sha256 innerPuzzle = solution.parentInnerPuzzleHash
  hash : treeHash sha256 puzzle = s.coin.puzzleHash

/-- A child of an odd coin, both with one puzzle hash and the child with an odd
amount. -/
structure OddChild (puzzleHash : Bytes32) (coin parent : Coin) : Prop where
  oddParent : parent.amount &&& 1 ≠ 0
  oddCoin : coin.amount &&& 1 ≠ 0
  parentHash : parent.puzzleHash = puzzleHash
  coinHash : coin.puzzleHash = puzzleHash
  child : coin.parentCoinInfo = parent.name sha256

/-- The solution that `fast_forward_singleton` writes. -/
def rebasedSolution (coin parent : Coin) (solution : Solution) : SExp :=
  .ofList [
    .ofList [.atom parent.parentCoinInfo.bytes,
      .atom solution.parentInnerPuzzleHash.bytes, .ofU64 parent.amount],
    .ofU64 coin.amount, solution.innerSolution]

variable {sha256} {s : CoinSpend} {coin parent : Coin} {puzzle : SExp}
  {singleton : SingletonStruct} {innerPuzzle : SExp} {solution : Solution}

theorem fastForwardSingleton_eq_ok {out : Bytes} :
    fastForwardSingleton sha256 s coin parent = .ok out ↔
      ∃ puzzle singleton innerPuzzle solution,
        Rebasable sha256 s puzzle singleton innerPuzzle solution ∧
        OddChild sha256 s.coin.puzzleHash coin parent ∧
        serialize (rebasedSolution coin parent solution) = .ok out := by
  simp only [fastForwardSingleton, guard_eq_ok, bind_eq_ok, liftIo_eq_ok,
    not_or, not_not, ← sexpToBytes_eq_serialize]
  constructor
  · rintro ⟨hodd, hhash, puzzle, hreveal, ⟨singleton, innerPuzzle⟩, hcurried,
      serial, hserial, solution, hsolution, hamount, hparent, hinner, hfull,
      hchild, hwrite⟩
    exact ⟨puzzle, singleton, innerPuzzle, solution,
      ⟨hodd.1, hreveal, hcurried, bind_eq_ok.mpr ⟨_, hserial, hsolution⟩,
        hamount, hparent, hinner, hfull.2⟩,
      ⟨hodd.2.1, hodd.2.2, hhash.1.symm, hhash.2.symm, hchild⟩, hwrite⟩
  · rintro ⟨puzzle, singleton, innerPuzzle, solution, hs, hchild, hwrite⟩
    obtain ⟨serial, hserial, hsolution⟩ := bind_eq_ok.mp hs.solved
    exact ⟨⟨hs.odd, hchild.oddParent, hchild.oddCoin⟩,
      ⟨hchild.parentHash.symm, hchild.coinHash.symm⟩, puzzle, hs.reveal,
      (singleton, innerPuzzle), hs.curried, serial, hserial, solution,
      hsolution, hs.amount, hs.parent, hs.inner,
      ⟨hs.hash.trans hchild.parentHash.symm, hs.hash⟩, hchild.child, hwrite⟩

theorem atom32_bytes (bytes : Bytes32) (what : String) :
    atom32 (.atom bytes.bytes) what = .ok bytes := by
  have hparse : Bytes32.parse bytes.bytes = .ok bytes := by
    rw [Bytes32.parse, dif_pos bytes.length_eq.le]
    congr 1
    apply Bytes32.ext
    simp [bytes.length_eq]
  rw [atom32, hparse]

/-- A rebased solution is read back where both amounts are. -/
theorem parseSolution_rebased {solution' : Solution} :
    parseSolution (rebasedSolution coin parent solution) = .ok solution' ↔
      coin.amount.toNat < 2 ^ 63 ∧ parent.amount.toNat < 2 ^ 63 ∧
        solution' = ⟨solution.parentInnerPuzzleHash, parent.parentCoinInfo,
          parent.amount, coin.amount, solution.innerSolution⟩ := by
  simp only [parseSolution, rebasedSolution, asList, iter_ofList,
    atom32_bytes, bind_ok, atomU64_ofU64]
  by_cases hparent : parent.amount.toNat < 2 ^ 63
  · by_cases hcoin : coin.amount.toNat < 2 ^ 63
    · simp only [hparent, hcoin, true_and]
      exact ⟨fun h => (Except.ok.inj h).symm, fun h => congrArg _ h.symm⟩
    · simp only [if_pos hparent, bind_ok, hcoin, false_and, iff_false]
      exact fun h => nomatch h
  · simp only [hparent, false_and, and_false, iff_false]
    exact fun h => nomatch h

theorem mem_iter_encodable {t part : SExp} (ht : t.Encodable)
    (hpart : part ∈ t.iter) : part.Encodable := by
  induction t with
  | atom data =>
    cases data with
    | nil => cases hpart
    | cons head tail =>
      have hsame : part = .atom (head :: tail) := by simpa [iter] using hpart
      rw [hsame]
      exact ht
  | pair first rest _ ih =>
    rw [iter, List.mem_cons] at hpart
    rcases hpart with rfl | hpart
    · exact fun data hdata => ht data (List.mem_append_left _ hdata)
    · exact ih (fun data hdata => ht data (List.mem_append_right _ hdata)) hpart

theorem parseSolution_inner {tree : SExp}
    (hparse : parseSolution tree = .ok solution) :
    solution.innerSolution ∈ tree.iter := by
  unfold parseSolution at hparse
  split at hparse
  · rename_i hlist
    split at hparse
    · simp only [bind_eq_ok] at hparse
      obtain ⟨_, -, _, -, _, -, _, -, hsolution⟩ := hparse
      cases hsolution
      rw [asList] at hlist
      simp [hlist]
    · cases hparse
  · cases hparse

theorem encodable_ofU64 (amount : UInt64) : (ofU64 amount).Encodable := by
  rw [ofU64]
  split_ifs
  · decide
  · apply SExp.Encodable.atom
    rw [stripI128_eq_stripSign]
    have hle := length_stripSign_le (beBytes 8 amount.toNat)
    rw [length_beBytes] at hle
    exact lt_of_le_of_lt hle (by decide)

/-- Whatever can be rebased can be written. -/
theorem Rebasable.writes
    (hs : Rebasable sha256 s puzzle singleton innerPuzzle solution)
    (coin parent : Coin) :
    ∃ out, serialize (rebasedSolution coin parent solution) = .ok out := by
  obtain ⟨serial, hserial, hsolution⟩ := bind_eq_ok.mp hs.solved
  have hinner := mem_iter_encodable (fromSerial_encodable hserial)
    (parseSolution_inner hsolution)
  have hatom (bytes : Bytes32) : (atom bytes.bytes).Encodable :=
    .atom (by rw [bytes.length_eq]; decide)
  apply serialize_ok
  exact .pair (.pair (hatom _) (.pair (hatom _) (.pair (encodable_ofU64 _)
    (by decide)))) (.pair (encodable_ofU64 _) (.pair hinner (by decide)))

theorem fastForwardSingleton_isOk :
    (fastForwardSingleton sha256 s coin parent).isOk = true ↔
      (∃ puzzle singleton innerPuzzle solution,
        Rebasable sha256 s puzzle singleton innerPuzzle solution) ∧
      OddChild sha256 s.coin.puzzleHash coin parent := by
  constructor
  · intro hok
    cases hff : fastForwardSingleton sha256 s coin parent with
    | error e =>
      rw [hff] at hok
      cases hok
    | ok out =>
      obtain ⟨puzzle, singleton, innerPuzzle, solution, hs, hchild, -⟩ :=
        fastForwardSingleton_eq_ok.mp hff
      exact ⟨⟨puzzle, singleton, innerPuzzle, solution, hs⟩, hchild⟩
  · rintro ⟨⟨puzzle, singleton, innerPuzzle, solution, hs⟩, hchild⟩
    obtain ⟨out, hwrite⟩ := hs.writes coin parent
    rw [fastForwardSingleton_eq_ok.mpr ⟨_, _, _, _, hs, hchild, hwrite⟩]
    rfl

/-- A spend supports fast-forward when it can be rebased at all. -/
theorem supportsFastForward_iff :
    supportsFastForward sha256 s = true ↔
      ∃ puzzle singleton innerPuzzle solution,
        Rebasable sha256 s puzzle singleton innerPuzzle solution := by
  rw [supportsFastForward, fastForwardSingleton_isOk, and_iff_left_iff_imp]
  rintro ⟨puzzle, singleton, innerPuzzle, solution, hs⟩
  exact ⟨hs.odd, hs.odd, rfl, rfl, rfl⟩

theorem supportsFastForward_iff_every_child :
    supportsFastForward sha256 s = true ↔
      ∀ coin parent, OddChild sha256 s.coin.puzzleHash coin parent →
        (fastForwardSingleton sha256 s coin parent).isOk = true := by
  rw [supportsFastForward_iff]
  constructor
  · intro hs coin parent hchild
    exact fastForwardSingleton_isOk.mpr ⟨hs, hchild⟩
  · intro hevery
    let parent : Coin := ⟨Bytes32.zero, s.coin.puzzleHash, 1⟩
    have hchild : OddChild sha256 s.coin.puzzleHash
        ⟨parent.name sha256, s.coin.puzzleHash, 1⟩ parent :=
      ⟨(by decide : (1 : UInt64) &&& 1 ≠ 0),
        (by decide : (1 : UInt64) &&& 1 ≠ 0), rfl, rfl, rfl⟩
    exact (fastForwardSingleton_isOk.mp (hevery _ _ hchild)).1

theorem fromSerial_of_serialize {t : SExp} {out : Bytes}
    (hwrite : serialize t = .ok out) : fromSerial out = .ok t := by
  have hreads := reads_of_serialize hwrite
  exact (fromSerial_eq_ok hreads.ne_nil).mpr
    ⟨out, [], hreads, (List.append_nil out).symm⟩

/-- The coin that a spend's lineage proof describes, and the amount that its
solution names. -/
def carriedLineage (sha256 : HashFn) (s : CoinSpend) :
    ClvmResult (Coin × UInt64) := do
  let puzzle ← fromSerial s.puzzleReveal
  let (singleton, _) ← uncurrySingleton sha256 puzzle
  let solution ← fromSerial s.solution >>= parseSolution
  return (⟨solution.lineageParentParent,
    singletonPuzzleHash sha256 solution.parentInnerPuzzleHash singleton,
    solution.lineageParentAmount⟩, solution.amount)

/-- The puzzle hash computed from the curried arguments is the one of the
reveal: no atom of the singleton structure was filled up or cut and no tail of
it dropped. -/
def CanonicallyCurried (sha256 : HashFn) (s : CoinSpend) : Prop :=
  ∃ puzzle singleton innerPuzzle,
    fromSerial s.puzzleReveal = .ok puzzle ∧
    uncurrySingleton sha256 puzzle = .ok (singleton, innerPuzzle) ∧
    treeHash sha256 puzzle =
      singletonPuzzleHash sha256 (treeHash sha256 innerPuzzle) singleton

/-- What a rebase `out` of `s` onto `coin` should keep: the lineage of `coin`,
that it can be rebased, and where to. -/
structure Composes (sha256 : HashFn) (s : CoinSpend)
    (coin parent : Coin) (out : Bytes) : Prop where
  lineage : carriedLineage sha256 ⟨coin, s.puzzleReveal, out⟩ =
    .ok (parent, coin.amount)
  again : supportsFastForward sha256 ⟨coin, s.puzzleReveal, out⟩ = true
  same : ∀ coin' parent' out',
    fastForwardSingleton sha256 ⟨coin, s.puzzleReveal, out⟩ coin' parent' =
        .ok out' ↔
      fastForwardSingleton sha256 s coin' parent' = .ok out'

section Again

variable {out : Bytes}
  (hs : Rebasable sha256 s puzzle singleton innerPuzzle solution)
  (hchild : OddChild sha256 s.coin.puzzleHash coin parent)
  (hwrite : serialize (rebasedSolution coin parent solution) = .ok out)

include hs

theorem Rebasable.canonicallyCurried_iff :
    CanonicallyCurried sha256 s ↔
      s.coin.puzzleHash =
        singletonPuzzleHash sha256 solution.parentInnerPuzzleHash singleton := by
  constructor
  · rintro ⟨puzzle', singleton', innerPuzzle', hreveal, hcurried, hhash⟩
    cases hs.reveal.symm.trans hreveal
    cases hs.curried.symm.trans hcurried
    rw [← hs.hash, hhash, hs.inner]
  · intro hhash
    refine ⟨puzzle, singleton, innerPuzzle, hs.reveal, hs.curried, ?_⟩
    rw [hs.hash, hhash, hs.inner]

include hwrite

/-- The lineage that a rebased spend carries, where it can be read. -/
theorem Rebasable.carriedLineage_iff {lineage : Coin × UInt64} :
    carriedLineage sha256 ⟨coin, s.puzzleReveal, out⟩ = .ok lineage ↔
      coin.amount.toNat < 2 ^ 63 ∧ parent.amount.toNat < 2 ^ 63 ∧
        lineage = (⟨parent.parentCoinInfo,
          singletonPuzzleHash sha256 solution.parentInnerPuzzleHash singleton,
          parent.amount⟩, coin.amount) := by
  rw [carriedLineage, hs.reveal, bind_ok, hs.curried, bind_ok,
    fromSerial_of_serialize hwrite, bind_ok, bind_eq_ok]
  simp only [parseSolution_rebased]
  constructor
  · rintro ⟨solution', ⟨hcoin, hparent, rfl⟩, hlineage⟩
    cases hlineage
    exact ⟨hcoin, hparent, rfl⟩
  · rintro ⟨hcoin, hparent, rfl⟩
    exact ⟨_, ⟨hcoin, hparent, rfl⟩, rfl⟩

include hchild

/-- Where nothing was changed on the way, a rebased spend can be rebased, with
everything but the lineage as before. -/
theorem Rebasable.rebased (hcurried : CanonicallyCurried sha256 s)
    (hcoin : coin.amount.toNat < 2 ^ 63)
    (hparent : parent.amount.toNat < 2 ^ 63) :
    Rebasable sha256 ⟨coin, s.puzzleReveal, out⟩ puzzle singleton innerPuzzle
      ⟨solution.parentInnerPuzzleHash, parent.parentCoinInfo, parent.amount,
        coin.amount, solution.innerSolution⟩ where
  odd := hchild.oddCoin
  reveal := hs.reveal
  curried := hs.curried
  solved := by
    rw [fromSerial_of_serialize hwrite, bind_ok, parseSolution_rebased]
    exact ⟨hcoin, hparent, rfl⟩
  amount := rfl
  parent := by
    rw [← hs.canonicallyCurried_iff.mp hcurried, ← hchild.parentHash]
    exact hchild.child.symm
  inner := hs.inner
  hash := hs.hash.trans hchild.coinHash.symm

end Again

theorem Rebasable.fastForwardSingleton_iff {out : Bytes}
    (hs : Rebasable sha256 s puzzle singleton innerPuzzle solution) :
    fastForwardSingleton sha256 s coin parent = .ok out ↔
      OddChild sha256 s.coin.puzzleHash coin parent ∧
        serialize (rebasedSolution coin parent solution) = .ok out := by
  rw [fastForwardSingleton_eq_ok]
  constructor
  · rintro ⟨puzzle', singleton', innerPuzzle', solution', hs', hchild, hwrite⟩
    cases hs.solved.symm.trans hs'.solved
    exact ⟨hchild, hwrite⟩
  · rintro ⟨hchild, hwrite⟩
    exact ⟨_, _, _, _, hs, hchild, hwrite⟩

/-- A spend supports fast-forward exactly when it can be rebased onto every odd
child, with its puzzle hash, of an odd coin with it; and a rebase composes
exactly where the curried singleton was written canonically and both amounts
are below `2 ^ 63`. -/
theorem fastForwardSingleton_composes_iff (sha256 : HashFn) (s : CoinSpend) :
    (supportsFastForward sha256 s = true ↔
      ∀ coin parent, OddChild sha256 s.coin.puzzleHash coin parent →
        (fastForwardSingleton sha256 s coin parent).isOk = true) ∧
    ∀ coin parent out, fastForwardSingleton sha256 s coin parent = .ok out →
        (Composes sha256 s coin parent out ↔
          CanonicallyCurried sha256 s ∧ coin.amount.toNat < 2 ^ 63 ∧
            parent.amount.toNat < 2 ^ 63) := by
  refine ⟨supportsFastForward_iff_every_child, ?_⟩
  intro coin parent out hff
  obtain ⟨puzzle, singleton, innerPuzzle, solution, hs, hchild, hwrite⟩ :=
    fastForwardSingleton_eq_ok.mp hff
  constructor
  · intro hcomposes
    obtain ⟨hcoin, hparent, hlineage⟩ :=
      (hs.carriedLineage_iff hwrite).mp hcomposes.lineage
    refine ⟨hs.canonicallyCurried_iff.mpr ?_, hcoin, hparent⟩
    rw [← hchild.parentHash]
    exact congrArg (fun lineage => lineage.1.puzzleHash) hlineage
  · rintro ⟨hcurried, hcoin, hparent⟩
    have hagain := hs.rebased hchild hwrite hcurried hcoin hparent
    refine ⟨?_, supportsFastForward_iff.mpr ⟨_, _, _, _, hagain⟩, ?_⟩
    · rw [hs.carriedLineage_iff hwrite,
        ← hs.canonicallyCurried_iff.mp hcurried, ← hchild.parentHash]
      exact ⟨hcoin, hparent, rfl⟩
    · intro coin' parent' out'
      rw [hagain.fastForwardSingleton_iff, hs.fastForwardSingleton_iff,
        show (⟨coin, s.puzzleReveal, out⟩ : CoinSpend).coin.puzzleHash =
          s.coin.puzzleHash from hchild.coinHash]
      rfl

end Rebase

section Singletons

/-- The puzzle with an empty launcher id, which is read as 32 zero bytes. -/
def shortPuzzle : SExp := topLayerPuzzle .nil

/-- A spend with the empty launcher id, of a child of `lineageCoin 0`. -/
def shortSpend : CoinSpend :=
  { lineageSpend 0 [] with
    coin := { lineageCoin 1 with puzzleHash := treeHash standInHash shortPuzzle }
    puzzleReveal := serialOf shortPuzzle }

/-- A child of `parent` with the same puzzle hash. -/
def childOf (parent : Coin) (amount : UInt64) : Coin :=
  ⟨parent.name standInHash, parent.puzzleHash, amount⟩

/-- Rebase onto `coin`, then test whether the result can be rebased, at all and
onto the child of `coin`. -/
def rebasedTwice (s : CoinSpend) (coin parent : Coin) :
    ClvmResult (Bool × Bool) := do
  let out ← fastForwardSingleton standInHash s coin parent
  let again : CoinSpend := ⟨coin, s.puzzleReveal, out⟩
  return (supportsFastForward standInHash again,
    (fastForwardSingleton standInHash again (childOf coin 1) coin).isOk)

/-- Rebased onto a child with the amount `2 ^ 63 + 1`, a spend can not be rebased
any more, and neither can the spend with the empty launcher id, rebased onto a
child with the amount `1`; both can be rebased directly onto the next child. -/
theorem fastForwardSingleton_rebased_once :
    rebasedTwice (lineageSpend 0 []) (childOf (lineageCoin 1) (2 ^ 63 + 1))
        (lineageCoin 1) = .ok (false, false) ∧
    (fastForwardSingleton standInHash (lineageSpend 0 [])
      (childOf (childOf (lineageCoin 1) (2 ^ 63 + 1)) 1)
      (childOf (lineageCoin 1) (2 ^ 63 + 1))).isOk = true ∧
    rebasedTwice shortSpend (childOf shortSpend.coin 1) shortSpend.coin =
      .ok (false, false) ∧
    (fastForwardSingleton standInHash shortSpend
      (childOf (childOf shortSpend.coin 1) 1)
      (childOf shortSpend.coin 1)).isOk = true := by
  decide +kernel

theorem fastForwardSingleton_composes_lineageSpend :
    ∃ out, fastForwardSingleton standInHash (lineageSpend 0 []) (lineageCoin 2)
        (lineageCoin 1) = .ok out ∧
      Composes standInHash (lineageSpend 0 []) (lineageCoin 2) (lineageCoin 1)
        out := by
  have hok : (fastForwardSingleton standInHash (lineageSpend 0 [])
      (lineageCoin 2) (lineageCoin 1)).isOk = true := by decide +kernel
  have hcurried : CanonicallyCurried standInHash (lineageSpend 0 []) :=
    ⟨lineagePuzzle,
      ⟨singletonTopLayerV11TreeHash, Bytes32.zero, Bytes32.zero⟩, .atom [1],
      by decide +kernel, by decide +kernel, by decide +kernel⟩
  cases hff : fastForwardSingleton standInHash (lineageSpend 0 [])
      (lineageCoin 2) (lineageCoin 1) with
  | error e =>
    rw [hff] at hok
    cases hok
  | ok out =>
    exact ⟨out, rfl, ((fastForwardSingleton_composes_iff _ _).2 _ _ _
      hff).mpr ⟨hcurried, by decide, by decide⟩⟩

end Singletons

end DgXch
