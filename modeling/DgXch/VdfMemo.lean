/-
The caches around the verification of proofs of time.  Whatever was verified
before, an honest proof is accepted, and what the memo and the cache of
discriminants hold is true between concurrent calls.
-/
import DgXch.Interleaving
import DgXch.WesolowskiHonest
import Mathlib.Data.ZMod.Basic

namespace DgXch

open List DgXch.Except Nat BigEndian

variable {n : Nat} {memo : VerifyMemo} {call : VdfCall} {parallel : Bool}

variable {D : Type} {G : D → Type} [∀ d, CommGroup (G d)] {seams : VdfSeams D G}
  {d : D}

variable [∀ d, DecidableEq (G d)]

section Memo

/-- The arguments of a call as machine words and slices hold them. -/
structure VdfCall.InRange (call : VdfCall) : Prop where
  challenge : call.challenge.length < 2 ^ 64
  x_s : call.x_s.length < 2 ^ 64
  proof : call.proof.length < 2 ^ 64
  sizeBits : call.sizeBits < 2 ^ 64
  iterations : call.iterations < 2 ^ 64
  recursion : call.recursion < 2 ^ 64

theorem beBytes_eight_inj {m : Nat} (hm : m < 2 ^ 64) (hn : n < 2 ^ 64)
    (h : beBytes 8 m = beBytes 8 n) : m = n := by
  have hvalue := congrArg beNat h
  rw [beNat_beBytes, beNat_beBytes] at hvalue
  rwa [mod_eq_of_lt (show m < 256 ^ 8 from hm),
    mod_eq_of_lt (show n < 256 ^ 8 from hn)] at hvalue

/-- A field with its length in front is read off in one way. -/
theorem field_append_inj {field field' rest rest' : Bytes}
    (hfield : field.length < 2 ^ 64) (hfield' : field'.length < 2 ^ 64)
    (h : beBytes 8 field.length ++ (field ++ rest) =
      beBytes 8 field'.length ++ (field' ++ rest')) :
    field = field' ∧ rest = rest' := by
  obtain ⟨hwidth, h⟩ := append_inj h (by simp)
  exact append_inj h (beBytes_eight_inj hfield hfield' hwidth)

/-- Calls with one key are one call. -/
theorem verifyMemoKey_inj {call' : VdfCall} (hcall : call.InRange)
    (hcall' : call'.InRange) (h : verifyMemoKey call = verifyMemoKey call') :
    call = call' := by
  unfold verifyMemoKey at h
  simp only [flatMap_cons, flatMap_nil, append_nil, append_assoc] at h
  obtain ⟨hchallenge, h⟩ := field_append_inj hcall.challenge hcall'.challenge h
  obtain ⟨hx, h⟩ := field_append_inj hcall.x_s hcall'.x_s h
  obtain ⟨hproof, h⟩ := field_append_inj hcall.proof hcall'.proof h
  obtain ⟨hsize, h⟩ := append_inj h (by simp)
  obtain ⟨hiterations, hrecursion⟩ := append_inj h (by simp)
  cases call
  cases call'
  congr
  · exact beBytes_eight_inj hcall.sizeBits hcall'.sizeBits hsize
  · exact beBytes_eight_inj hcall.iterations hcall'.iterations hiterations
  · exact beBytes_eight_inj hcall.recursion hcall'.recursion hrecursion

omit [∀ d, DecidableEq (G d)] in
/-- The inner threads do not change a verdict. -/
theorem checkSegments_parallel (proof : Bytes) (x : G d) {iterations : Nat} :
    checkSegments seams d proof parallel n x iterations =
      checkSegments seams d proof true n x iterations := by
  induction n generalizing x iterations with
  | zero => rfl
  | succ n ih => simp only [checkSegments, verifySegment, powPairProduct_eq, ih]

theorem verifyVdfUncached_parallel :
    verifyVdfUncached seams call parallel =
      verifyVdfUncached seams call true := by
  simp only [verifyVdfUncached, checkNWesolowski, verifyWesolowski,
    powPairProduct_eq, checkSegments_parallel _ _]

/-- Every entry of the memo is the verdict of a call with its key. -/
def VerifyMemo.Truthful (seams : VdfSeams D G) (memo : VerifyMemo) : Prop :=
  ∀ entry ∈ memo.map, ∃ call : VdfCall, call.InRange ∧
    entry.1 = verifyMemoKey call ∧
    entry.2.1 = verifyVdfUncached seams call true

theorem VerifyMemo.Truthful.get (h : memo.Truthful seams) (key : Bytes) :
    (memo.get key).2.Truthful seams := by
  unfold VerifyMemo.get
  split
  · exact h
  case h_2 found result used hfind =>
    have hkey : found = key := by simpa using find?_some hfind
    obtain ⟨call, hcall, hfound, hresult⟩ := h _ (mem_of_find?_eq_some hfind)
    intro entry hentry
    obtain ⟨old, hold, rfl⟩ := mem_map.mp hentry
    split_ifs
    · exact ⟨call, hcall, hkey ▸ hfound, hresult⟩
    · exact h old hold

theorem VerifyMemo.Truthful.put (h : memo.Truthful seams)
    (hcall : call.InRange) :
    (memo.put (verifyMemoKey call)
      (verifyVdfUncached seams call true)).Truthful seams := by
  intro entry hentry
  rcases mem_cons.mp hentry with rfl | hentry
  · exact ⟨call, hcall, rfl, rfl⟩
  · apply h
    have hmem := (mem_filter.mp hentry).1
    split_ifs at hmem
    · split at hmem
      · exact (mem_filter.mp hmem).1
      · exact hmem
    · exact hmem

/-- A hit is the verdict of the call itself. -/
theorem VerifyMemo.Truthful.hit {after : VerifyMemo} {result : Bool}
    (h : memo.Truthful seams) (hcall : call.InRange)
    (hmemo : memo.get (verifyMemoKey call) = (some result, after)) :
    result = verifyVdfUncached seams call true := by
  unfold VerifyMemo.get at hmemo
  split at hmemo
  · cases hmemo
  case h_2 found verdict used hfind =>
    cases hmemo
    have hkey : found = verifyMemoKey call := by simpa using find?_some hfind
    obtain ⟨other, hother, hfound, hverdict⟩ := h _ (mem_of_find?_eq_some hfind)
    rw [verifyMemoKey_inj hcall hother (hkey ▸ hfound)]
    exact hverdict

/-- With a truthful memo a call gets its own verdict, and the memo stays
truthful. -/
theorem verifyVdf_truthful (h : memo.Truthful seams) (hcall : call.InRange) :
    (verifyVdf seams memo call parallel).1 = verifyVdfUncached seams call true ∧
      (verifyVdf seams memo call parallel).2.Truthful seams := by
  have hget := h.get (verifyMemoKey call)
  cases hmemo : memo.get (verifyMemoKey call) with
  | mk hit after =>
    rw [hmemo] at hget
    cases hit with
    | none =>
      simp only [verifyVdf, hmemo, verifyVdfUncached_parallel]
      exact ⟨trivial, hget.put hcall⟩
    | some result =>
      simp only [verifyVdf, hmemo]
      exact ⟨h.hit hcall hmemo, hget⟩

/-- A sequence of calls on the empty memo. -/
def verifyMemoRun (seams : VdfSeams D G) (calls : List (VdfCall × Bool)) :
    VerifyMemo :=
  calls.foldl (fun memo call => (verifyVdf seams memo call.1 call.2).2) {}

theorem verifyMemoRun_truthful {calls : List (VdfCall × Bool)}
    (hcalls : ∀ call ∈ calls, call.1.InRange) :
    (verifyMemoRun seams calls).Truthful seams := by
  unfold verifyMemoRun
  induction calls using reverseRecOn with
  | nil => intro entry hentry; cases hentry
  | append_singleton calls call ih =>
    rw [foldl_append, foldl_cons, foldl_nil]
    have hrest := ih fun c hc => hcalls c (mem_append_left _ hc)
    exact (verifyVdf_truthful hrest (hcalls call (by simp))).2

end Memo

section Honest

/-- What `prove` returns encodes the result and the witness and is accepted,
whatever was verified before; honest segments compose. -/
theorem vdf_honest_verifies (seams : VdfSeams D G) (hlawful : seams.Lawful) :
    (∀ challenge x_s sizeBits t proof,
      prove seams challenge x_s sizeBits t = some proof →
      ∃ d x, seams.createDiscriminant challenge sizeBits = .ok d ∧
        seams.deserialize d x_s = .ok x ∧ EncodesRun seams x t proof ∧
        ∀ calls : List (VdfCall × Bool), (∀ call ∈ calls, call.1.InRange) →
          VdfCall.InRange ⟨challenge, x_s, proof, sizeBits, t, 0⟩ →
          ∀ parallel, (verifyVdf seams (verifyMemoRun seams calls)
            ⟨challenge, x_s, proof, sizeBits, t, 0⟩ parallel).1 = true) ∧
    ∀ (d : D) (x_s : Bytes) (x z : G d) (segments : List VdfSegment) (t : Nat)
      (final : Bytes) (parallel : Bool),
      0 < seams.bitLen d ∧ seams.bitLen d ≤ 1024 →
      seams.deserialize d x_s = .ok x →
      HonestSegments seams x segments z → EncodesRun seams z t final →
      (proofBytes final segments).length < 2 ^ 64 →
      checkNWesolowski seams d x_s (proofBytes final segments)
          (segmentSum segments + t) segments.length parallel = .ok () ∧
        ∀ iterations < segmentSum segments, ∃ e,
          checkNWesolowski seams d x_s (proofBytes final segments) iterations
            segments.length parallel = .error e := by
  constructor
  · intro challenge x_s sizeBits t proof hprove
    obtain ⟨d, hd, hresult⟩ := bind_eq_ok.mp (toOption_eq_some.mp hprove)
    obtain ⟨x, hx, hresult⟩ := bind_eq_ok.mp hresult
    have hrun := proveWithDiscriminant_encodes hlawful hresult
    refine ⟨d, x, hd, hx, hrun, ?_⟩
    intro calls hcalls hcall parallel
    rw [(verifyVdf_truthful (verifyMemoRun_truthful hcalls) hcall).1]
    have hproof : proofBytes proof [] = proof := append_nil proof
    have hcheck : checkNWesolowski seams d x_s (proofBytes proof [])
        (segmentSum [] + t) ([] : List VdfSegment).length true = .ok () :=
      checkNWesolowski_honest hlawful (by exact rfl)
        (hlawful.bits _ _ _ hd) hx hrun (by rw [hproof]; exact hcall.proof)
    simp only [hproof, segmentSum, map_nil, sum_nil,
      zero_add, length_nil] at hcheck
    simp only [verifyVdfUncached, hd, hcheck]
    rfl
  · intro d x_s x z segments t final parallel hbits hx hsegments hrun hmemory
    refine ⟨checkNWesolowski_honest hlawful hsegments hbits hx hrun hmemory, ?_⟩
    intro iterations hfew
    obtain ⟨b, yBytes, witnessBytes, -, hy, hw, rfl⟩ := hrun
    unfold checkNWesolowski
    split_ifs
    · exact ⟨_, rfl⟩
    · exact ⟨_, rfl⟩
    · rw [hx, bind_ok, checkSegments_honest hlawful hsegments,
        if_neg (not_le.mpr hfew)]
      · exact ⟨_, rfl⟩
      · rw [length_append, (hlawful.roundTrip hy).1,
          (hlawful.roundTrip hw).1, mul_two]

/-- A group of seven forms, each written as one byte and padding. -/
def smallSeams : VdfSeams Unit fun _ => Multiplicative (ZMod 7) where
  createDiscriminant _ _ := .ok ()
  bitLen _ := 1024
  deserialize _ bytes :=
    if bytes.length = formSize then
      .ok (Multiplicative.ofAdd ((bytes.headD 0).toNat : ZMod 7))
    else .error .invalidFormSize
  serialize form :=
    .ok (UInt8.ofNat (ZMod.val form.toAdd) :: List.replicate 99 0)
  hashPrime _ := 2 ^ 263 + 1
  estimate t := (2, if t ≤ 1000 then 3 else 21)

theorem smallSeams_lawful : smallSeams.Lawful where
  roundTrip := by
    rintro ⟨⟩ form bytes ⟨⟩
    obtain ⟨residue, rfl⟩ := Multiplicative.ofAdd.surjective form
    revert residue
    decide
  prime _ := by
    change 2 ^ 263 ≤ 2 ^ 263 + 1 ∧ 2 ^ 263 + 1 < 2 ^ 264
    decide +kernel
  bits _ _ _ _ := by
    change 0 < 1024 ∧ 1024 ≤ 1024
    decide
  estimate t h := by
    have hsmall : t ≤ 1000 := by
      by_contra hlarge
      have hwide : (smallSeams.estimate t).2 = 21 := if_neg hlarge
      omega
    have hnarrow : (smallSeams.estimate t).2 = 3 := if_pos hsmall
    have hstride : (smallSeams.estimate t).1 = 2 := rfl
    rw [hnarrow, hstride]
    omega

/-- The form three of the group. -/
def smallForm : Bytes := 3 :: replicate 99 0

/-- Its run of three hundred squarings leads back to it. -/
def smallSegment : VdfSegment := ⟨300, 2 ^ 263 + 1, smallForm⟩

theorem smallForm_pow (n : Nat) (h : n % 7 = 1) :
    (Multiplicative.ofAdd 3 : Multiplicative (ZMod 7)) ^ n =
      Multiplicative.ofAdd 3 := by
  rw [pow_eq_pow_mod n (show _ ^ 7 = _ by decide), h, pow_one]

/-- Three hundred squarings of a form of order seven, and as many again behind
a segment of them. -/
theorem vdf_honest_verifies_at_small_group :
    (∃ proof, prove smallSeams [1] smallForm 1024 300 = some proof ∧
      (verifyVdf smallSeams {} ⟨[1], smallForm, proof, 1024, 300, 0⟩ true).1 =
        true) ∧
    checkNWesolowski smallSeams () smallForm
      (proofBytes (smallForm ++ smallForm) [smallSegment]) 600 1 true =
        .ok () ∧
    ∃ e, checkNWesolowski smallSeams () smallForm
      (proofBytes (smallForm ++ smallForm) [smallSegment]) 299 1 true =
        .error e := by
  have hhonest := vdf_honest_verifies smallSeams smallSeams_lawful
  constructor
  · have hproof : (prove smallSeams [1] smallForm 1024 300).any
        fun proof => proof.length = 200 := by decide +kernel
    cases hprove : prove smallSeams [1] smallForm 1024 300 with
    | none =>
      rw [hprove] at hproof
      cases hproof
    | some proof =>
      rw [hprove] at hproof
      have hlength : proof.length = 200 := by simpa using hproof
      obtain ⟨d, x, -, -, -, haccepts⟩ := hhonest.1 _ _ _ _ _ hprove
      refine ⟨proof, rfl, haccepts [] (by simp) ?_ true⟩
      constructor <;> simp [smallForm, hlength]
  · have hrun := smallForm_pow (2 ^ 300) (by decide +kernel)
    have hwitness := smallForm_pow (2 ^ 300 / (2 ^ 263 + 1)) (by decide +kernel)
    have hsegments : HonestSegments smallSeams (d := ())
        (Multiplicative.ofAdd 3) [smallSegment] (Multiplicative.ofAdd 3) :=
      ⟨by decide, rfl, congrArg smallSeams.serialize hwitness, hrun.symm⟩
    have hfinal : EncodesRun smallSeams (d := ()) (Multiplicative.ofAdd 3) 300
        (smallForm ++ smallForm) :=
      ⟨2 ^ 263 + 1, smallForm, smallForm, rfl,
        congrArg smallSeams.serialize hrun,
        congrArg smallSeams.serialize hwitness, rfl⟩
    have hcheck := hhonest.2 () smallForm (Multiplicative.ofAdd 3) _
      [smallSegment] 300 _ true (by decide) rfl hsegments hfinal
      (by decide +kernel)
    exact ⟨hcheck.1, hcheck.2 299 (by decide)⟩

end Honest

open Interleaving

def discriminantCacheCapacity : Nat := 200

/-- `DISCRIMINANT_CACHE`: seeds and sizes with their discriminants, the least
recently used in front. -/
abbrev DiscriminantCache (D : Type) := List (Bytes × Nat × D)

def isFor (seed : Bytes) (sizeBits : Nat) (entry : Bytes × Nat × D) : Bool :=
  entry.2.1 = sizeBits ∧ entry.1 = seed

def discriminantCacheGet (cache : DiscriminantCache D) (seed : Bytes)
    (sizeBits : Nat) : Option D × DiscriminantCache D :=
  match cache.find? (isFor seed sizeBits) with
  | none => (none, cache)
  | some entry =>
    (some entry.2.2, cache.eraseP (isFor seed sizeBits) ++ [entry])

def discriminantCachePut (cache : DiscriminantCache D) (seed : Bytes)
    (sizeBits : Nat) (d : D) : DiscriminantCache D :=
  if cache.any (isFor seed sizeBits) then cache
  else (if discriminantCacheCapacity ≤ cache.length then cache.tail
    else cache) ++ [(seed, sizeBits, d)]

structure VdfCaches (D : Type) where
  memo : VerifyMemo := {}
  discriminants : DiscriminantCache D := []

/-- A call of `verify_vdf`, or with `parallel` unset of `verify_vdf_serial`, or
of `create_discriminant_int`. -/
inductive VdfCaller where
  | verify (call : VdfCall) (parallel : Bool) (inRange : call.InRange)
  | create (seed : Bytes) (sizeBits : Nat)

inductive VdfOutcome (D : Type) where
  | verdict (result : Bool)
  | discriminant (out : Except VdfError D)

section Programs

variable {G : D → Type} (seams : VdfSeams D G)

/-- The arguments are checked before the first section; `next` is what the
caller does with the outcome. -/
def createDiscriminantInt (seed : Bytes) (sizeBits : Nat)
    (next : Except VdfError D → Program (VdfCaches D) (VdfOutcome D)) :
    Program (VdfCaches D) (VdfOutcome D) :=
  match seams.createDiscriminant seed sizeBits with
  | .error e => next (.error e)
  | .ok fresh => .locked
    (fun s =>
      match (discriminantCacheGet s.discriminants seed sizeBits).1 with
      | some d => next (.ok d)
      | none => .locked (fun _ => next (.ok fresh)) fun s => { s with
          discriminants :=
            discriminantCachePut s.discriminants seed sizeBits fresh })
    fun s => { s with
      discriminants := (discriminantCacheGet s.discriminants seed sizeBits).2 }

variable [∀ d, CommGroup (G d)] [∀ d, DecidableEq (G d)]

def verifyVdfImpl (call : VdfCall) (parallel : Bool) :
    Program (VdfCaches D) (VdfOutcome D) :=
  let key := verifyMemoKey call
  .locked
    (fun s =>
      match (s.memo.get key).1 with
      | some hit => .done (.verdict hit)
      | none => createDiscriminantInt seams call.challenge call.sizeBits
        fun out =>
          let result := match out with
            | .error _ => false
            | .ok d => (checkNWesolowski seams d call.x_s call.proof
                call.iterations call.recursion parallel).isOk
          .locked (fun _ => .done (.verdict result)) fun s =>
            { s with memo := s.memo.put key result })
    fun s => { s with memo := (s.memo.get key).2 }

def VdfCaller.program : VdfCaller → Program (VdfCaches D) (VdfOutcome D)
  | .verify call parallel _ => verifyVdfImpl seams call parallel
  | .create seed sizeBits => createDiscriminantInt seams seed sizeBits
      fun out => .done (.discriminant out)

/-- What a call has to return, whatever the caches hold. -/
def VdfCaller.Answered : VdfCaller → VdfOutcome D → Prop
  | .verify call _ _, .verdict result =>
    ∀ parallel, result = verifyVdfUncached seams call parallel
  | .create seed sizeBits, .discriminant out =>
    out = seams.createDiscriminant seed sizeBits
  | _, _ => False

structure VdfCaches.Inv (s : VdfCaches D) : Prop where
  memo : s.memo.Truthful seams
  memo_le : s.memo.map.length ≤ verifyMemoCapacity
  discriminants : ∀ entry ∈ s.discriminants,
    seams.createDiscriminant entry.1 entry.2.1 = .ok entry.2.2
  discriminants_le : s.discriminants.length ≤ discriminantCacheCapacity

variable {seams} {s : VdfCaches D}

theorem VerifyMemo.oldest_mem {entries : List (Bytes × Bool × Nat)}
    (hne : entries ≠ []) : ∃ entry ∈ entries, oldest entries = some entry := by
  induction entries with
  | nil => exact absurd rfl hne
  | cons entry entries ih =>
    rw [oldest]
    cases entries with
    | nil => exact ⟨entry, List.mem_singleton_self _, rfl⟩
    | cons next entries =>
      obtain ⟨other, hmem, hother⟩ := ih (cons_ne_nil _ _)
      rw [hother]
      dsimp only
      split_ifs
      · exact ⟨entry, mem_cons_self, rfl⟩
      · exact ⟨other, mem_cons_of_mem _ hmem, rfl⟩

/-- A new entry takes the place of the oldest or of the one with its key. -/
theorem VerifyMemo.length_put (h : memo.map.length ≤ verifyMemoCapacity)
    (key : Bytes) (result : Bool) :
    (memo.put key result).map.length ≤ verifyMemoCapacity := by
  have hless : ∀ entry ∈ memo.map,
      (memo.map.filter (·.1 ≠ entry.1)).length < verifyMemoCapacity :=
    fun entry hmem => lt_of_lt_of_le
      (length_filter_lt_length_iff_exists.mpr ⟨entry, hmem, by simp⟩) h
  rw [put, length_cons]
  split_ifs with hfull
  · have hne : memo.map ≠ [] := ne_nil_of_length_pos
      (lt_of_lt_of_le (by decide) hfull.1)
    obtain ⟨oldest, hmem, holdest⟩ := oldest_mem hne
    rw [holdest]
    exact lt_of_le_of_lt (length_filter_le _ _) (hless oldest hmem)
  · rcases not_and_or.mp hfull with hroom | hfound
    · exact lt_of_le_of_lt (length_filter_le _ _) (not_le.mp hroom)
    · obtain ⟨entry, hmem, hkey⟩ := any_eq_true.mp (not_not.mp hfound)
      rw [decide_eq_true_iff] at hkey
      exact hkey ▸ hless entry hmem

theorem VerifyMemo.length_get (key : Bytes) :
    (memo.get key).2.map.length = memo.map.length := by
  rw [get]
  split
  · rfl
  · exact length_map _

/-- A read only reorders the cache. -/
theorem discriminantCacheGet_perm {cache : DiscriminantCache D} {seed : Bytes}
    {sizeBits : Nat} :
    (discriminantCacheGet cache seed sizeBits).2.Perm cache ∧
      ∀ d, (discriminantCacheGet cache seed sizeBits).1 = some d →
        (seed, sizeBits, d) ∈ cache := by
  rw [discriminantCacheGet]
  cases hfind : cache.find? (isFor seed sizeBits) with
  | none => exact ⟨.refl _, nofun⟩
  | some entry =>
    obtain ⟨hfor, front, back, rfl, hfront⟩ := find?_eq_some_iff_append.mp hfind
    rw [eraseP_append_right _ (by simpa using hfront), eraseP_cons_of_pos hfor]
    constructor
    · exact (perm_append_singleton _ _).trans perm_middle.symm
    · rintro d ⟨⟩
      obtain ⟨rfl, rfl⟩ := of_decide_eq_true hfor
      exact mem_append_right _ mem_cons_self

theorem VdfCaches.Inv.put (hs : s.Inv seams) {seed : Bytes} {sizeBits : Nat}
    (hd : seams.createDiscriminant seed sizeBits = .ok d) :
    Inv seams { s with discriminants :=
      discriminantCachePut s.discriminants seed sizeBits d } := by
  obtain ⟨hmemo, hmemo_le, htrue, hle⟩ := hs
  refine ⟨hmemo, hmemo_le, ?_, ?_⟩
  all_goals dsimp only [discriminantCachePut]
  · intro entry hentry
    split_ifs at hentry with hfound
    · exact htrue entry hentry
    all_goals rcases mem_append.mp hentry with hold | hnew
    · exact htrue entry (mem_of_mem_tail hold)
    · exact List.mem_singleton.mp hnew ▸ hd
    · exact htrue entry hold
    · exact List.mem_singleton.mp hnew ▸ hd
  · split_ifs with hfound hfull
    · exact hle
    · rw [length_append, length_tail, length_singleton]
      exact (Nat.sub_add_cancel (Nat.le_trans (by decide) hfull)).trans_le hle
    · rw [length_append]
      exact not_le.mp hfull

/-- A caller that goes on well from the derived discriminant goes on well from
the cached one. -/
theorem createDiscriminantInt_right {good : VdfOutcome D → Prop} {seed : Bytes}
    {sizeBits : Nat}
    {next : Except VdfError D → Program (VdfCaches D) (VdfOutcome D)}
    (hnext : (next (seams.createDiscriminant seed sizeBits)).Right
      (VdfCaches.Inv seams) good) :
    (createDiscriminantInt seams seed sizeBits next).Right
      (VdfCaches.Inv seams) good := by
  rw [createDiscriminantInt]
  cases hfresh : seams.createDiscriminant seed sizeBits with
  | error e => rwa [hfresh] at hnext
  | ok fresh =>
    intro s hs
    obtain ⟨hperm, hhit⟩ := discriminantCacheGet_perm
    refine ⟨{ hs with
      discriminants := fun entry h => hs.discriminants entry (hperm.mem_iff.mp h)
      discriminants_le := hperm.length_eq.trans_le hs.discriminants_le }, ?_⟩
    dsimp only
    cases hget : (discriminantCacheGet s.discriminants seed sizeBits).1 with
    | none => exact fun s hs => ⟨hs.put hfresh, hfresh ▸ hnext⟩
    | some d =>
      rwa [hs.discriminants _ (hhit d hget)] at hnext

theorem verifyVdfImpl_right (hcall : call.InRange) (parallel : Bool) :
    (verifyVdfImpl seams call parallel).Right (VdfCaches.Inv seams)
      (VdfCaller.Answered seams (.verify call parallel hcall)) := by
  intro s hs
  refine ⟨{ hs with
    memo := hs.memo.get _
    memo_le := (VerifyMemo.length_get _).trans_le hs.memo_le }, ?_⟩
  dsimp only
  cases hget : (s.memo.get (verifyMemoKey call)).1 with
  | some hit =>
    intro other
    rw [verifyVdfUncached_parallel]
    exact hs.memo.hit hcall (Prod.ext hget rfl)
  | none =>
    apply createDiscriminantInt_right
    intro s hs
    have hput := hs.memo.put hcall
    rw [← verifyVdfUncached_parallel] at hput
    refine ⟨{ hs with
      memo := hput
      memo_le := VerifyMemo.length_put hs.memo_le _ _ }, fun other => ?_⟩
    rw [verifyVdfUncached_parallel, ← verifyVdfUncached_parallel]
    rfl

/-- Neither cache changes what a call returns, whatever the calls and however
their sections interleave, and neither outgrows its capacity. -/
theorem vdf_caches_transparent (seams : VdfSeams D G)
    (events : List (Event VdfCaller)) :
    let world := run (VdfCaller.program seams) {} events
    (∀ task ∈ world.tasks, task.1.Answered seams (task.2.finish world.state)) ∧
    world.state.memo.map.length ≤ 1000 ∧
    world.state.discriminants.length ≤ 200 := by
  intro world
  have hsound : world.Sound (VdfCaches.Inv seams) (VdfCaller.Answered seams) := by
    apply sound_run
    · rintro (⟨call, parallel, hcall⟩ | ⟨seed, sizeBits⟩)
      · exact verifyVdfImpl_right hcall parallel
      · rw [VdfCaller.program]
        apply createDiscriminantInt_right
        exact Eq.refl (seams.createDiscriminant seed sizeBits)
    · exact ⟨nofun, Nat.zero_le _, nofun, Nat.zero_le _⟩
  exact ⟨fun task htask => (hsound.tasks task htask).finish hsound.state,
    hsound.state.memo_le, hsound.state.discriminants_le⟩

end Programs

end DgXch
