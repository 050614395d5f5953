/-
Powers of class-group forms as `form.rs` computes them, and the prover and the
verifier of `proof.rs`.  Composition is the multiplication of a commutative
group.  A proof is the result `y`, a witness and, from the end backwards, the
segments from the input to the form the final witness is about.
-/
import DgXch.ByteStream

namespace DgXch

open List Nat Option

/-- The errors of the `vdf` crate that the modelled code raises. -/
inductive VdfError where
  | invalidDiscriminant
  | invalidProofLength
  | invalidForm
  | invalidFormSize
  | formNotReduced
  | invalidSegmentIterations
  | invalidProofParameters
deriving Repr, DecidableEq

namespace ClassForms

variable {G : Type} [CommGroup G]

def powWindow : Nat := 4

/-- The loop of `fast_pow_form_with` for exponents of at most 64 bits. -/
def squareAndMultiply (base : G) (exponent nbits : Nat) : G :=
  (List.range (nbits - 1)).reverse.foldl (fun result bit =>
    let result := result * result
    if exponent.testBit bit then result * base else result) base

def powWindowTable (base : G) : List G :=
  (List.range (2 ^ powWindow - 2)).foldl (fun table i =>
    table ++ [table.getD i 1 * base]) [base]

def powWindowDigit (exponent nbits w : Nat) : Nat :=
  (List.range powWindow).reverse.foldl (fun v j =>
    let bitIndex := w * powWindow + j
    if bitIndex < nbits ∧ exponent.testBit bitIndex then v ||| (1 <<< j)
    else v) 0

/-- Multiply one table entry in; the first one starts the chain. -/
def windowMultiply (w : Nat) (result : Option G) (term : G × Nat) : Option G :=
  let v := powWindowDigit term.2 term.2.size w
  if v ≠ 0 then
    let entry := (powWindowTable term.1).getD (v - 1) 1
    some (match result with
      | some r => r * entry
      | none => entry)
  else result

/-- The loop of the windowed exponentiations over some bases with their
exponents. -/
def windowLoop (terms : List (G × Nat)) (nwin : Nat) : Option G :=
  (List.range nwin).reverse.foldl (fun result w =>
    let result := result.map fun r =>
      (List.range powWindow).foldl (fun r _ => r * r) r
    terms.foldl (windowMultiply w) result) none

def orInvalidForm : Option G → Except VdfError G
  | some r => .ok r
  | none => .error .invalidForm

def fastPowForm (base : G) (exponent : Nat) : Except VdfError G :=
  if exponent = 0 then .ok 1
  else if exponent.size ≤ 64 then
    .ok (squareAndMultiply base exponent exponent.size)
  else
    orInvalidForm (windowLoop [(base, exponent)]
      ((exponent.size + powWindow - 1) / powWindow))

def fastPowFormPair (x : G) (xe : Nat) (y : G) (ye : Nat) : Except VdfError G :=
  if xe = 0 then fastPowForm y ye
  else if ye = 0 then fastPowForm x xe
  else if xe.size ≤ 64 ∨ ye.size ≤ 64 then do
    let fx ← fastPowForm x xe
    let fy ← fastPowForm y ye
    .ok (fx * fy)
  else
    orInvalidForm (windowLoop [(x, xe), (y, ye)]
      ((max xe.size ye.size + powWindow - 1) / powWindow))

section Powers

theorem foldl_squareAndMultiply (base : G) (exponent w : Nat) :
    (range w).reverse.foldl (fun result bit =>
      let result := result * result
      if exponent.testBit bit then result * base else result)
        (base ^ (exponent / 2 ^ w)) = base ^ exponent := by
  induction w with
  | zero => simp
  | succ w ih =>
    rw [range_succ, reverse_append, reverse_singleton, singleton_append,
      foldl_cons, ← ih]
    congr 1
    dsimp only
    rw [Nat.testBit_eq_decide_div_mod_eq, pow_succ, ← Nat.div_div_eq_div_mul,
      ← pow_add, ← pow_succ]
    split_ifs with hbit <;> congr 1 <;> simp at hbit <;> omega

theorem div_two_pow_size_pred {n : Nat} (hn : n ≠ 0) :
    n / 2 ^ (n.size - 1) = 1 := by
  have hpos : 0 < n.size := Nat.size_pos.mpr (Nat.pos_of_ne_zero hn)
  have hlow : 2 ^ (n.size - 1) ≤ n := Nat.lt_size.mp (by omega)
  have hhigh : n < 2 ^ (n.size - 1 + 1) := by
    rw [Nat.sub_add_cancel hpos]
    exact Nat.lt_size_self n
  apply Nat.div_eq_of_lt_le <;> rw [pow_succ] at * <;> omega

variable (base : G)

theorem foldl_powWindowTable (n : Nat) :
    (range n).foldl (fun table i => table ++ [table.getD i 1 * base])
      [base] = (range (n + 1)).map fun i => base ^ (i + 1) := by
  induction n with
  | zero => simp
  | succ n ih =>
    rw [range_succ, foldl_append, ih, foldl_cons,
      foldl_nil, range_succ (n := n + 1), map_append]
    congr 1
    simp [pow_succ]

theorem powWindowTable_getD {v : Nat} (hv : v ≠ 0) (hlt : v < 16) :
    (powWindowTable base).getD (v - 1) 1 = base ^ v := by
  have htable : powWindowTable base =
      (range 15).map fun i => base ^ (i + 1) := foldl_powWindowTable base 14
  rw [htable, getD_eq_getElem?_getD, getElem?_map, getElem?_range (by omega)]
  simp only [map_some, getD_some]
  congr 1
  omega

theorem powWindowDigit_eq {exponent w : Nat} :
    powWindowDigit exponent exponent.size w = exponent / 16 ^ w % 16 := by
  have hbit : ∀ j, (w * powWindow + j < exponent.size ∧
      exponent.testBit (w * powWindow + j) = true) ↔
        exponent / 16 ^ w / 2 ^ j % 2 = 1 := by
    intro j
    have hpow : (16 : Nat) ^ w * 2 ^ j = 2 ^ (w * 4 + j) := by
      rw [pow_add, Nat.mul_comm w 4, pow_mul]
      rfl
    have htest : exponent.testBit (w * 4 + j) = true ↔
        exponent / 16 ^ w / 2 ^ j % 2 = 1 := by
      rw [Nat.testBit_eq_decide_div_mod_eq, decide_eq_true_eq,
        Nat.div_div_eq_div_mul, hpow]
    rw [← htest]
    refine ⟨And.right, fun h => ⟨?_, h⟩⟩
    exact Nat.lt_size.mpr (Nat.ge_two_pow_of_testBit h)
  simp only [powWindowDigit, hbit]
  generalize exponent / 16 ^ w = q
  have hlow : ∀ j < powWindow, q / 2 ^ j % 2 = q % 16 / 2 ^ j % 2 := by
    intro j (hj : j < 4)
    interval_cases j <;> omega
  have hall : ∀ r < 16, (range powWindow).reverse.foldl (fun v j =>
      if r / 2 ^ j % 2 = 1 then v ||| (1 <<< j) else v) 0 = r := by decide
  refine (foldl_ext _ _ _ fun v j hj => ?_).trans
    (hall _ (mod_lt _ (by decide)))
  rw [hlow j (mem_range.mp (mem_reverse.mp hj))]

/-- The power that a chain of windows has reached. -/
def chainValue (result : Option G) : G := result.getD 1

variable (w : Nat) (result : Option G)

theorem windowMultiply_value (term : G × Nat) :
    chainValue (windowMultiply w result term) =
      chainValue result * term.1 ^ (term.2 / 16 ^ w % 16) := by
  unfold windowMultiply
  rw [powWindowDigit_eq]
  have hlt : term.2 / 16 ^ w % 16 < 16 := mod_lt _ (by decide)
  by_cases hv : term.2 / 16 ^ w % 16 = 0
  · simp [hv]
  · simp only [hv, ne_eq, not_false_eq_true, if_true,
      powWindowTable_getD term.1 hv hlt]
    cases result <;> simp [chainValue]

theorem foldl_windowMultiply_value {terms : List (G × Nat)}
    {result : Option G} :
    chainValue (terms.foldl (windowMultiply w) result) = chainValue result *
      (terms.map fun term => term.1 ^ (term.2 / 16 ^ w % 16)).prod := by
  induction terms generalizing result with
  | nil => simp
  | cons term terms ih =>
    rw [foldl_cons, ih, windowMultiply_value, map_cons, prod_cons, mul_assoc]

theorem chainValue_square :
    chainValue (result.map fun r =>
      (range powWindow).foldl (fun r _ => r * r) r) =
        chainValue result ^ 16 := by
  cases result with
  | none => simp [chainValue]
  | some r =>
    simp only [chainValue, map_some, getD_some, powWindow,
      range_succ, range_zero, nil_append, foldl_append, foldl_cons, foldl_nil,
      ← pow_two, ← pow_mul, reducePow, reduceMul]

theorem pow_div_window (exponent w : Nat) :
    base ^ (exponent / 16 ^ w) = (base ^ (exponent / 16 ^ (w + 1))) ^ 16 *
      base ^ (exponent / 16 ^ w % 16) := by
  rw [← pow_mul, ← pow_add, pow_succ 16 w, ← Nat.div_div_eq_div_mul,
    Nat.mul_comm, Nat.div_add_mod]

variable (terms : List (G × Nat))

theorem prod_pow_window :
    (terms.map fun term => term.1 ^ (term.2 / 16 ^ (w + 1))).prod ^ 16 *
      (terms.map fun term => term.1 ^ (term.2 / 16 ^ w % 16)).prod =
        (terms.map fun term => term.1 ^ (term.2 / 16 ^ w)).prod := by
  induction terms with
  | nil => simp
  | cons term terms ih =>
    simp only [map_cons, prod_cons]
    rw [pow_div_window term.1 term.2 w, ← ih, mul_pow]
    exact mul_mul_mul_comm _ _ _ _

/-- Windows from the top down: what is left of the exponents is multiplied
in. -/
theorem foldl_windows_value (h : chainValue result =
      (terms.map fun term => term.1 ^ (term.2 / 16 ^ w)).prod) :
    chainValue ((range w).reverse.foldl (fun result w =>
      let result := result.map fun r =>
        (range powWindow).foldl (fun r _ => r * r) r
      terms.foldl (windowMultiply w) result) result) =
        (terms.map fun term => term.1 ^ term.2).prod := by
  induction w generalizing result with
  | zero => simpa using h
  | succ w ih =>
    rw [range_succ, reverse_append, reverse_singleton,
      singleton_append, foldl_cons]
    apply ih
    rw [foldl_windowMultiply_value, chainValue_square, h, prod_pow_window]

theorem windowLoop_value {nwin : Nat}
    (hnwin : ∀ term ∈ terms, term.2 < 16 ^ nwin) :
    chainValue (windowLoop terms nwin) =
      (terms.map fun term => term.1 ^ term.2).prod := by
  apply foldl_windows_value
  have hone : terms.map (fun term => term.1 ^ (term.2 / 16 ^ nwin)) =
      terms.map fun _ => 1 := by
    apply map_congr_left
    intro term hterm
    rw [div_eq_of_lt (hnwin term hterm), pow_zero]
  rw [hone]
  simp [chainValue]

/-- A chain that never starts has only zero digits before it. -/
theorem foldl_windowMultiply_eq_none {w : Nat} {terms : List (G × Nat)}
    {result : Option G} (h : terms.foldl (windowMultiply w) result = none) :
    result = none ∧ ∀ term ∈ terms, term.2 / 16 ^ w % 16 = 0 := by
  induction terms generalizing result with
  | nil => exact ⟨h, by simp⟩
  | cons term terms ih =>
    obtain ⟨hstep, hrest⟩ := ih h
    unfold windowMultiply at hstep
    rw [powWindowDigit_eq] at hstep
    by_cases hv : term.2 / 16 ^ w % 16 = 0
    · simp only [hv, ne_eq, not_true_eq_false, if_false] at hstep
      exact ⟨hstep, forall_mem_cons.mpr ⟨hv, hrest⟩⟩
    · simp [hv] at hstep

theorem mod_pow_of_windows_none {terms : List (G × Nat)} {w : Nat}
    {result : Option G} (h : (range w).reverse.foldl (fun result w =>
      let result := result.map fun r =>
        (range powWindow).foldl (fun r _ => r * r) r
      terms.foldl (windowMultiply w) result) result = none) :
    result = none ∧ ∀ term ∈ terms, term.2 % 16 ^ w = 0 := by
  induction w generalizing result with
  | zero => exact ⟨h, fun term _ => by rw [pow_zero, Nat.mod_one]⟩
  | succ w ih =>
    rw [range_succ, reverse_append, reverse_singleton,
      singleton_append, foldl_cons] at h
    obtain ⟨hstep, hrest⟩ := ih h
    obtain ⟨hstart, hdigits⟩ := foldl_windowMultiply_eq_none hstep
    refine ⟨by simpa using hstart, ?_⟩
    intro term hterm
    rw [pow_succ, Nat.mod_mul, hrest term hterm, hdigits term hterm,
      Nat.mul_zero]

theorem windowLoop_eq_some {terms : List (G × Nat)} {nwin : Nat}
    (hnwin : ∀ term ∈ terms, term.2 < 16 ^ nwin)
    (hne : ∃ term ∈ terms, term.2 ≠ 0) :
    windowLoop terms nwin = some (terms.map fun term => term.1 ^ term.2).prod := by
  have hvalue := windowLoop_value terms hnwin
  cases hloop : windowLoop terms nwin with
  | none =>
    obtain ⟨term, hterm, hzero⟩ := hne
    have hmod := (mod_pow_of_windows_none hloop).2 term hterm
    rw [mod_eq_of_lt (hnwin term hterm)] at hmod
    exact absurd hmod hzero
  | some r =>
    rw [hloop] at hvalue
    exact congrArg some hvalue

theorem lt_pow_windows {exponent size : Nat} (h : exponent.size ≤ size) :
    exponent < 16 ^ ((size + powWindow - 1) / powWindow) := by
  have hbits : size ≤ 4 * ((size + powWindow - 1) / powWindow) := by
    unfold powWindow
    omega
  calc exponent < 2 ^ exponent.size := Nat.lt_size_self exponent
    _ ≤ 2 ^ (4 * ((size + powWindow - 1) / powWindow)) :=
      Nat.pow_le_pow_right (by decide) (h.trans hbits)
    _ = 16 ^ ((size + powWindow - 1) / powWindow) := pow_mul 2 4 _

theorem fastPowForm_eq (exponent : Nat) :
    fastPowForm base exponent = .ok (base ^ exponent) := by
  unfold fastPowForm
  split_ifs with hzero hshort
  · rw [hzero, pow_zero]
  · have hfold := foldl_squareAndMultiply base exponent (exponent.size - 1)
    rw [div_two_pow_size_pred hzero, pow_one] at hfold
    exact congrArg Except.ok hfold
  · rw [windowLoop_eq_some]
    · simp [orInvalidForm]
    · simpa using lt_pow_windows le_rfl
    · exact ⟨(base, exponent), mem_singleton_self _, hzero⟩

theorem fastPowFormPair_eq (x : G) (xe : Nat) (y : G) (ye : Nat) :
    fastPowFormPair x xe y ye = .ok (x ^ xe * y ^ ye) := by
  unfold fastPowFormPair
  split_ifs with hx hy hshort
  · rw [fastPowForm_eq, hx, pow_zero, one_mul]
  · rw [fastPowForm_eq, hy, pow_zero, mul_one]
  · rw [fastPowForm_eq, fastPowForm_eq]
    rfl
  · rw [windowLoop_eq_some]
    · simp [orInvalidForm]
    · intro term hterm
      rcases mem_cons.mp hterm with rfl | hterm
      · exact lt_pow_windows (le_max_left _ _)
      · rw [mem_singleton.mp hterm]
        exact lt_pow_windows (le_max_right _ _)
    · exact ⟨(x, xe), mem_cons_self, hx⟩

end Powers

end ClassForms

open ClassForms

def formSize : Nat := 100

def bBytes : Nat := 33

def segmentLen : Nat := 8 + bBytes + formSize

/-- What the prover and the verifier take from elsewhere: discriminants with
their class groups, the encoding of forms, the hash to a prime of 264 bits and
the floating-point estimate of the stride `l` and the window `k`. -/
structure VdfSeams (D : Type) (G : D → Type) where
  createDiscriminant : Bytes → Nat → Except VdfError D
  bitLen : D → Nat
  deserialize : (d : D) → Bytes → Except VdfError (G d)
  serialize : {d : D} → G d → Except VdfError Bytes
  hashPrime : Bytes → Nat
  estimate : Nat → Nat × Nat

section Vdf

variable {D : Type} {G : D → Type} (seams : VdfSeams D G)

def getB {d : D} (x y : G d) : Except VdfError Nat := do
  let xBytes ← seams.serialize x
  let yBytes ← seams.serialize y
  .ok (seams.hashPrime (xBytes ++ yBytes))

def fastPowMod (base exponent modulus : Nat) : Except VdfError Nat :=
  if modulus = 0 then .error .invalidProofParameters
  else .ok (base ^ exponent % modulus)

/-- `k * (i + 1)` in 64 bits. -/
def blockEnd (k i : Nat) : Nat := k * (i + 1) % 2 ^ 64

def getBlock (i k t b : Nat) : Except VdfError Nat := do
  let res ← fastPowMod 2 (t - blockEnd k i) b
  .ok (res * 2 ^ k / b % 2 ^ 64)

/-- `approximate_parameters`, around the floating-point estimate. -/
def approximateParameters (t : Nat) : Except VdfError (Nat × Nat) :=
  if t = 0 then .ok (1, 1)
  else
    let (l, k) := seams.estimate t
    if l = 0 ∨ k = 0 ∨ 20 < k then .error .invalidProofParameters
    else .ok (l, k)

variable [∀ d, CommGroup (G d)]

/-- One turn of the bucket loop: multiply an intermediate into the bucket of its
block. -/
def fillBucket {d : D} (intermediates : List (G d)) (t k l j b : Nat)
    (ys : List (G d)) (i : Nat) : Except VdfError (List (G d)) :=
  if blockEnd k (i * l + j) ≤ t then do
    let block ← getBlock (i * l + j) k t b
    if ys.length ≤ block then .error .invalidProofParameters
    else match intermediates[i]? with
      | none => .error .invalidProofParameters
      | some form => .ok (ys.modify block (· * form))
  else .ok ys

/-- Multiply the power of a bucket product in. -/
def raiseBuckets {d : D} (ys : List (G d)) (indices : List Nat) (weight : Nat)
    (x : G d) : Except VdfError (G d) := do
  let z ← fastPowForm
    (indices.foldl (fun z index => z * ys.getD index 1) 1) weight
  .ok (x * z)

def wesolowskiPass {d : D} (intermediates : List (G d)) (t k l b : Nat)
    (x : G d) (j : Nat) : Except VdfError (G d) := do
  let k1 := k / 2
  let k0 := k - k1
  let x ← fastPowForm x (2 ^ k)
  let chunks := (t + k * l - 1) / (k * l)
  let ys ← (List.range chunks).foldlM (fillBucket intermediates t k l j b)
    (List.replicate (2 ^ k) 1)
  let x ← (List.range (2 ^ k1)).foldlM (fun x b1 =>
    raiseBuckets ys ((List.range (2 ^ k0)).map fun b0 => b1 * 2 ^ k0 + b0)
      (b1 * 2 ^ k0) x) x
  (List.range (2 ^ k0)).foldlM (fun x b0 =>
    raiseBuckets ys ((List.range (2 ^ k1)).map fun b1 => b1 * 2 ^ k0 + b0)
      b0 x) x

def generateWesolowski {d : D} (y x : G d) (intermediates : List (G d))
    (t k l : Nat) : Except VdfError (G d) := do
  let b ← getB seams x y
  if 64 ≤ k then .error .invalidProofParameters
  else (List.range l).reverse.foldlM (wesolowskiPass intermediates t k l b) 1

/-- The squaring loop of `prove_with_discriminant`, which keeps every `kl`-th
form. -/
def squareRun {d : D} (x : G d) (t kl : Nat) : G d × List (G d) :=
  (List.range t).foldl (fun run i =>
    (run.1 * run.1, if i % kl = 0 then run.2 ++ [run.1] else run.2)) (x, [])

def proveWithDiscriminant {d : D} (x : G d) (t : Nat) :
    Except VdfError Bytes := do
  let (l, k) ← approximateParameters seams t
  if 2 ^ 64 ≤ k * l then .error .invalidProofParameters
  else do
    let (y, intermediates) := squareRun x t (k * l)
    let witness ← generateWesolowski seams y x intermediates t k l
    let yBytes ← seams.serialize y
    let witnessBytes ← seams.serialize witness
    .ok (yBytes ++ witnessBytes)

def proveResult (challenge x_s : Bytes) (sizeBits t : Nat) :
    Except VdfError Bytes := do
  let d ← seams.createDiscriminant challenge sizeBits
  let x ← seams.deserialize d x_s
  proveWithDiscriminant seams x t

def prove (challenge x_s : Bytes) (sizeBits t : Nat) : Option Bytes :=
  (proveResult seams challenge x_s sizeBits t).toOption

def powPairProduct {d : D} (witness : G d) (witnessExp : Nat) (x : G d)
    (xExp : Nat) (parallel : Bool) : Except VdfError (G d) :=
  if parallel then do
    let f1 ← fastPowForm witness witnessExp
    let f2 ← fastPowForm x xExp
    .ok (f1 * f2)
  else fastPowFormPair witness witnessExp x xExp

def verifySegment {d : D} (x witness : G d) (b iterations : Nat)
    (parallel : Bool) : Except VdfError (G d) := do
  let r ← fastPowMod 2 iterations b
  let y ← powPairProduct witness b x r parallel
  let expected ← getB seams x y
  if expected = b then .ok y else .error .invalidForm

variable [∀ d, DecidableEq (G d)]

def verifyWesolowski {d : D} (x y witness : G d) (iterations : Nat)
    (parallel : Bool) : Except VdfError Unit := do
  let b ← getB seams x y
  let r ← fastPowMod 2 iterations b
  let product ← powPairProduct witness b x r parallel
  if product = y then .ok () else .error .invalidForm

/-- `proof[start..start + len]`. -/
def slice (proof : Bytes) (start len : Nat) : Bytes :=
  (proof.drop start).take len

/-- The loop of `check_n_wesolowski_impl` over the segments that are left; the
next one to read ends at `2 * FORM_SIZE + (n + 1) * SEGMENT_LEN`. -/
def checkSegments (d : D) (proof : Bytes) (parallel : Bool) :
    Nat → G d → Nat → Except VdfError (G d × Nat)
  | 0, x, iterations => .ok (x, iterations)
  | n + 1, x, iterations => do
      let offset := formSize * 2 + n * segmentLen
      let segmentIters := BigEndian.beNat (slice proof offset 8)
      let b := BigEndian.beNat (slice proof (offset + 8) bBytes)
      let proofForm ← seams.deserialize d
        (slice proof (offset + 8 + bBytes) formSize)
      let x ← verifySegment seams x proofForm b segmentIters parallel
      if iterations < segmentIters then .error .invalidSegmentIterations
      else checkSegments d proof parallel n x (iterations - segmentIters)

/-- `check_n_wesolowski_impl`. -/
def checkNWesolowski (d : D) (x_s proof : Bytes) (iterations depth : Nat)
    (parallel : Bool) : Except VdfError Unit :=
  if seams.bitLen d = 0 ∨ 1024 < seams.bitLen d then
    .error .invalidDiscriminant
  else if 2 ^ 64 ≤ formSize * 2 + segmentLen * depth ∨
      proof.length ≠ formSize * 2 + segmentLen * depth then
    .error .invalidProofLength
  else do
    let x ← seams.deserialize d x_s
    let (x, iterations) ←
      checkSegments seams d proof parallel depth x iterations
    let y ← seams.deserialize d (slice proof 0 formSize)
    let witness ← seams.deserialize d (slice proof formSize formSize)
    verifyWesolowski seams x y witness iterations parallel

/-- The arguments of `verify_vdf`. -/
structure VdfCall where
  challenge : Bytes
  x_s : Bytes
  proof : Bytes
  sizeBits : Nat
  iterations : Nat
  recursion : Nat

def verifyVdfUncached (call : VdfCall) (parallel : Bool) : Bool :=
  match seams.createDiscriminant call.challenge call.sizeBits with
  | .error _ => false
  | .ok d => (checkNWesolowski seams d call.x_s call.proof call.iterations
      call.recursion parallel).isOk

def verifyMemoKey (call : VdfCall) : Bytes :=
  ([call.challenge, call.x_s, call.proof].flatMap fun field =>
    BigEndian.beBytes 8 field.length ++ field) ++
    BigEndian.beBytes 8 call.sizeBits ++ BigEndian.beBytes 8 call.iterations ++
    BigEndian.beBytes 8 call.recursion

/-- `VerifyMemo`: keys with their verdicts and the tick of their last use. -/
structure VerifyMemo where
  map : List (Bytes × Bool × Nat) := []
  tick : Nat := 0

def verifyMemoCapacity : Nat := 1000

/-- The entry that was used least recently. -/
def VerifyMemo.oldest : List (Bytes × Bool × Nat) → Option (Bytes × Bool × Nat)
  | [] => none
  | entry :: entries =>
    match VerifyMemo.oldest entries with
    | none => some entry
    | some other => some (if entry.2.2 ≤ other.2.2 then entry else other)

variable (memo : VerifyMemo)

def VerifyMemo.get (key : Bytes) : Option Bool × VerifyMemo :=
  let tick := memo.tick + 1
  match memo.map.find? (·.1 = key) with
  | none => (none, { memo with tick })
  | some (_, result, _) =>
    (some result, {
      tick
      map := memo.map.map fun entry =>
        if entry.1 = key then (key, result, tick) else entry })

def VerifyMemo.put (key : Bytes) (result : Bool) : VerifyMemo :=
  let map :=
    if verifyMemoCapacity ≤ memo.map.length ∧ ¬ memo.map.any (·.1 = key) then
      match VerifyMemo.oldest memo.map with
      | some oldest => memo.map.filter (·.1 ≠ oldest.1)
      | none => memo.map
    else memo.map
  { map := (key, result, memo.tick + 1) :: map.filter (·.1 ≠ key)
    tick := memo.tick + 1 }

/-- `verify_vdf` and, without the inner threads, `verify_vdf_serial`. -/
def verifyVdf (call : VdfCall) (parallel : Bool) : Bool × VerifyMemo :=
  let key := verifyMemoKey call
  match memo.get key with
  | (some hit, memo) => (hit, memo)
  | (none, memo) =>
    let result := verifyVdfUncached seams call parallel
    (result, memo.put key result)

end Vdf

end DgXch
