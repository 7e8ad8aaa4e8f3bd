import Mathlib

/-!
# The identifier layout of the epoch protocol

`transaction_proto2` packs a commit identifier into one 64-bit word: the core id
in the low `CoreBits` bits, a 27-bit counter above it, and the epoch in the
remaining high bits. `CoreBits` and `NMaxCores` are build-time macros, so the
layout is a parameter: an `EpochLayout` is a configuration the static asserts of
`MakeTid` admit.
-/

namespace Silo.Tid

/-- A build configuration of `transaction_proto2`: `NMAXCOREBITS` and `NMAXCORES`. -/
structure EpochLayout where
  coreBits : Nat
  nMaxCores : Nat
  nMaxCores_eq : nMaxCores = 2 ^ coreBits
  fits : coreBits + 27 < 64

namespace EpochLayout

variable (L : EpochLayout)

def coreMask : BitVec 64 := BitVec.ofNat 64 L.nMaxCores - 1

def numIdShift : Nat := L.coreBits

def numIdMask : BitVec 64 := ((1#64 <<< 27) - 1) <<< L.numIdShift

def epochShift : Nat := L.numIdShift + 27

def epochMask : BitVec 64 := BitVec.allOnes 64 <<< L.epochShift

def coreId (v : BitVec 64) : BitVec 64 := v &&& L.coreMask

def numId (v : BitVec 64) : BitVec 64 := (v &&& L.numIdMask) >>> L.numIdShift

def epochId (v : BitVec 64) : BitVec 64 := (v &&& L.epochMask) >>> L.epochShift

def makeTid (coreId numId epochId : BitVec 64) : BitVec 64 :=
  coreId ||| (numId <<< L.numIdShift) ||| (epochId <<< L.epochShift)

/-- `transaction_proto2::can_overwrite_record_tid`: a version may be updated in
place only by a commit of its own epoch. -/
def canOverwriteRecordTid (prev cur : BitVec 64) : Bool := L.epochId prev == L.epochId cur

/-- `transaction_proto2::can_read_tid`, for a transaction running in `currentEpoch`. -/
def canReadTid (currentEpoch t : BitVec 64) : Bool := L.epochId t ≤ currentEpoch

/-- The static asserts of `MakeTid`. -/
def StaticAsserts : Prop :=
  (L.coreMask ||| L.numIdMask ||| L.epochMask) = BitVec.allOnes 64 ∧
    L.coreMask &&& L.numIdMask = 0 ∧ L.numIdMask &&& L.epochMask = 0

/-! ## Bits of the masks and of the fields -/

theorem two_pow_coreBits_lt : 2 ^ L.coreBits < 2 ^ 64 :=
  Nat.pow_lt_pow_right (by decide) (by have := L.fits; omega)

@[simp] theorem getLsbD_coreMask (i : Nat) : L.coreMask.getLsbD i = decide (i < L.coreBits) := by
  have hlt := L.two_pow_coreBits_lt
  have hpos := Nat.one_le_two_pow (n := L.coreBits)
  have hone : (1 : BitVec 64).toNat = 1 := rfl
  have htoNat : L.coreMask.toNat = 2 ^ L.coreBits - 1 := by
    simp only [coreMask, L.nMaxCores_eq, BitVec.toNat_sub, BitVec.toNat_ofNat,
      Nat.mod_eq_of_lt hlt, hone]
    omega
  rw [← BitVec.testBit_toNat, htoNat, Nat.testBit_two_pow_sub_one]

@[simp] theorem getLsbD_numIdMask (i : Nat) :
    L.numIdMask.getLsbD i = (decide (L.coreBits ≤ i) && decide (i < L.coreBits + 27)) := by
  have hfits := L.fits
  have hmask : (1#64 <<< 27) - 1 = BitVec.ofNat 64 (2 ^ 27 - 1) := by decide
  simp only [numIdMask, numIdShift, hmask, BitVec.getLsbD_shiftLeft, BitVec.getLsbD_ofNat,
    Nat.testBit_two_pow_sub_one]
  by_cases h : L.coreBits ≤ i <;> by_cases h' : i < L.coreBits + 27 <;> simp [h, h'] <;> omega

@[simp] theorem getLsbD_epochMask (i : Nat) :
    L.epochMask.getLsbD i = (decide (L.coreBits + 27 ≤ i) && decide (i < 64)) := by
  simp only [epochMask, epochShift, numIdShift, BitVec.getLsbD_shiftLeft, BitVec.getLsbD_allOnes]
  by_cases h : L.coreBits + 27 ≤ i <;> by_cases h' : i < 64 <;> simp [h, h']
  omega

@[simp] theorem getLsbD_coreId (v : BitVec 64) (i : Nat) :
    (L.coreId v).getLsbD i = (decide (i < L.coreBits) && v.getLsbD i) := by
  simp [coreId, Bool.and_comm]

@[simp] theorem getLsbD_numId (v : BitVec 64) (i : Nat) :
    (L.numId v).getLsbD i = (decide (i < 27) && v.getLsbD (L.coreBits + i)) := by
  simp [numId, numIdShift, Bool.and_comm]

@[simp] theorem getLsbD_epochId (v : BitVec 64) (i : Nat) :
    (L.epochId v).getLsbD i = v.getLsbD (L.coreBits + 27 + i) := by
  by_cases h : L.coreBits + 27 + i < 64
  · simp [epochId, epochShift, numIdShift, h]
  · simp [epochId, epochShift, numIdShift, h, BitVec.getLsbD_ge v (L.coreBits + 27 + i) (by omega)]

theorem getLsbD_makeTid (c n e : BitVec 64) (i : Nat) :
    (L.makeTid c n e).getLsbD i =
      (c.getLsbD i ||
        (decide (i < 64) && !decide (i < L.coreBits) && n.getLsbD (i - L.coreBits)) ||
        (decide (i < 64) && !decide (i < L.coreBits + 27) &&
          e.getLsbD (i - (L.coreBits + 27)))) := by
  simp only [makeTid, numIdShift, epochShift, BitVec.getLsbD_or, BitVec.getLsbD_shiftLeft]

/-- Every admissible layout passes the static asserts of `MakeTid`: the three
masks tile the word. -/
theorem staticAsserts_hold : L.StaticAsserts := by
  have hfits := L.fits
  refine ⟨?_, ?_, ?_⟩ <;> ext i <;>
    simp only [BitVec.getLsbD_or, BitVec.getLsbD_and, getLsbD_coreMask, getLsbD_numIdMask,
      getLsbD_epochMask, BitVec.getLsbD_allOnes, BitVec.getLsbD_zero] <;>
    by_cases h1 : (i : Nat) < L.coreBits <;> by_cases h2 : (i : Nat) < L.coreBits + 27 <;>
    simp [h1, h2] <;> omega

/-! ## Round trips -/

theorem getLsbD_of_lt_two_pow {x : BitVec 64} {k i : Nat} (hx : x.toNat < 2 ^ k) (hi : k ≤ i) :
    x.getLsbD i = false := by
  rw [← BitVec.testBit_toNat]
  exact Nat.testBit_lt_two_pow (lt_of_lt_of_le hx (Nat.pow_le_pow_right (by decide) hi))

theorem makeTid_ids (t : BitVec 64) : L.makeTid (L.coreId t) (L.numId t) (L.epochId t) = t := by
  ext i
  rw [getLsbD_makeTid]
  by_cases h1 : (i : Nat) < L.coreBits
  · simp [h1, show ¬ L.coreBits ≤ (i : Nat) by omega, show ¬ L.coreBits + 27 ≤ (i : Nat) by omega]
  · by_cases h2 : (i : Nat) < L.coreBits + 27
    · simp [h1, h2, show ¬ L.coreBits + 27 ≤ (i : Nat) by omega,
        show (i : Nat) - L.coreBits < 27 by omega,
        show L.coreBits + ((i : Nat) - L.coreBits) = i by omega]
    · simp [h1, h2, show ¬ (i : Nat) - L.coreBits < 27 by omega,
        show L.coreBits + 27 + ((i : Nat) - (L.coreBits + 27)) = i by omega]

section Bounded

variable {L} {c n e : BitVec 64} (hc : c.toNat < 2 ^ L.coreBits) (hn : n.toNat < 2 ^ 27)

include hc in
theorem coreId_makeTid : L.coreId (L.makeTid c n e) = c := by
  ext i
  by_cases h1 : (i : Nat) < L.coreBits
  · simp [getLsbD_makeTid, h1, show ¬ L.coreBits ≤ (i : Nat) by omega,
      show ¬ L.coreBits + 27 ≤ (i : Nat) by omega]
  · simp [h1, getLsbD_of_lt_two_pow hc (Nat.le_of_not_lt h1)]

include hc hn in
theorem numId_makeTid : L.numId (L.makeTid c n e) = n := by
  ext i
  by_cases h1 : (i : Nat) < 27
  · simp [getLsbD_makeTid, h1, getLsbD_of_lt_two_pow hc (Nat.le_add_right _ _),
      show L.coreBits + (i : Nat) < 64 by have := L.fits; omega]
  · simp [h1, getLsbD_of_lt_two_pow hn (Nat.le_of_not_lt h1)]

include hc hn in
theorem epochId_makeTid (he : e.toNat < 2 ^ (64 - L.coreBits - 27)) :
    L.epochId (L.makeTid c n e) = e := by
  ext i
  have hfits := L.fits
  rw [getLsbD_epochId, getLsbD_makeTid, getLsbD_of_lt_two_pow hc (by omega),
    getLsbD_of_lt_two_pow hn (by omega)]
  by_cases h1 : L.coreBits + 27 + (i : Nat) < 64
  · simp [h1, show L.coreBits + 27 + (i : Nat) - (L.coreBits + 27) = i by omega]
  · simp [h1, getLsbD_of_lt_two_pow (i := i) he (by omega)]

end Bounded

/-! ## Values and order -/

theorem toNat_coreId (t : BitVec 64) : (L.coreId t).toNat = t.toNat % 2 ^ L.coreBits := by
  apply Nat.eq_of_testBit_eq
  intro i
  rw [Nat.testBit_mod_two_pow, BitVec.testBit_toNat, BitVec.testBit_toNat, getLsbD_coreId]

theorem toNat_numId (t : BitVec 64) :
    (L.numId t).toNat = t.toNat / 2 ^ L.coreBits % 2 ^ 27 := by
  apply Nat.eq_of_testBit_eq
  intro i
  rw [Nat.testBit_mod_two_pow, ← Nat.shiftRight_eq_div_pow, Nat.testBit_shiftRight,
    BitVec.testBit_toNat, BitVec.testBit_toNat, getLsbD_numId]

theorem toNat_epochId (t : BitVec 64) : (L.epochId t).toNat = t.toNat / 2 ^ (L.coreBits + 27) := by
  apply Nat.eq_of_testBit_eq
  intro i
  rw [← Nat.shiftRight_eq_div_pow, Nat.testBit_shiftRight, BitVec.testBit_toNat,
    BitVec.testBit_toNat, getLsbD_epochId]

/-- An identifier is the mixed-radix number its three fields spell. -/
theorem toNat_eq_fields (t : BitVec 64) :
    t.toNat = (L.coreId t).toNat +
      2 ^ L.coreBits * ((L.numId t).toNat + 2 ^ 27 * (L.epochId t).toNat) := by
  rw [toNat_coreId, toNat_numId, toNat_epochId, Nat.pow_add, ← Nat.div_div_eq_div_mul,
    Nat.mod_add_div, Nat.mod_add_div]

theorem epochId_lt (t : BitVec 64) : (L.epochId t).toNat < 2 ^ (64 - L.coreBits - 27) := by
  have hfits := L.fits
  rw [toNat_epochId, Nat.div_lt_iff_lt_mul (Nat.two_pow_pos _), ← Nat.pow_add,
    show 64 - L.coreBits - 27 + (L.coreBits + 27) = 64 by omega]
  exact t.isLt

/-- Two numbers in radix `A` compare as their high digits, then their low digits. -/
theorem add_mul_lt_add_mul_iff {A r r' q q' : Nat} (hr : r < A) (hr' : r' < A) :
    r + A * q < r' + A * q' ↔ q < q' ∨ (q = q' ∧ r < r') := by
  constructor
  · intro h
    rcases lt_trichotomy q q' with hq | rfl | hq
    · exact .inl hq
    · exact .inr ⟨rfl, by omega⟩
    · have := Nat.mul_le_mul_left A hq
      rw [Nat.mul_succ] at this
      omega
  · rintro (hq | ⟨rfl, hlt⟩)
    · have := Nat.mul_le_mul_left A hq
      rw [Nat.mul_succ] at this
      omega
    · omega

theorem epochId_mono {t t' : BitVec 64} (h : t ≤ t') : L.epochId t ≤ L.epochId t' := by
  rw [BitVec.le_def] at h ⊢
  rw [toNat_epochId, toNat_epochId]
  exact Nat.div_le_div_right h

section Bounded

variable {L} {c n e c' n' e' : BitVec 64}

theorem toNat_makeTid (hc : c.toNat < 2 ^ L.coreBits) (hn : n.toNat < 2 ^ 27)
    (he : e.toNat < 2 ^ (64 - L.coreBits - 27)) :
    (L.makeTid c n e).toNat = c.toNat + 2 ^ L.coreBits * (n.toNat + 2 ^ 27 * e.toNat) := by
  rw [toNat_eq_fields, coreId_makeTid hc, numId_makeTid hc hn, epochId_makeTid hc hn he]

/-- `MakeTid` orders identifiers by epoch, then number, then core. -/
theorem makeTid_lt_makeTid_iff (hc : c.toNat < 2 ^ L.coreBits) (hn : n.toNat < 2 ^ 27)
    (he : e.toNat < 2 ^ (64 - L.coreBits - 27)) (hc' : c'.toNat < 2 ^ L.coreBits)
    (hn' : n'.toNat < 2 ^ 27) (he' : e'.toNat < 2 ^ (64 - L.coreBits - 27)) :
    L.makeTid c n e < L.makeTid c' n' e' ↔ e < e' ∨ (e = e' ∧ (n < n' ∨ (n = n' ∧ c < c'))) := by
  rw [BitVec.lt_def, toNat_makeTid hc hn he, toNat_makeTid hc' hn' he',
    add_mul_lt_add_mul_iff hc hc', BitVec.lt_def, BitVec.lt_def, BitVec.lt_def,
    BitVec.toNat_eq, BitVec.toNat_eq]
  omega

/-! ## The last tid of an epoch -/

theorem toNat_coreMask (L : EpochLayout) : L.coreMask.toNat = 2 ^ L.coreBits - 1 := by
  have hlt := L.two_pow_coreBits_lt
  have hpos := Nat.two_pow_pos L.coreBits
  have hone : (1 : BitVec 64).toNat = 1 := rfl
  simp only [coreMask, L.nMaxCores_eq, BitVec.toNat_sub, BitVec.toNat_ofNat, Nat.mod_eq_of_lt hlt, hone]
  omega

/-- `MakeTid(CoreMask, 2^27 - 1, e)` is in epoch `e`. -/
theorem epochId_epochEnd (he : e.toNat < 2 ^ (64 - L.coreBits - 27)) :
    L.epochId (L.makeTid L.coreMask (BitVec.ofNat 64 (2 ^ 27 - 1)) e) = e :=
  epochId_makeTid (by rw [toNat_coreMask]; have := Nat.two_pow_pos L.coreBits; omega) (by decide) he

/-- The tids at most `MakeTid(CoreMask, 2^27 - 1, e)` are those of the epochs up to `e`. -/
theorem le_epochEnd_iff (he : e.toNat < 2 ^ (64 - L.coreBits - 27)) (t : BitVec 64) :
    t ≤ L.makeTid L.coreMask (BitVec.ofNat 64 (2 ^ 27 - 1)) e ↔ L.epochId t ≤ e := by
  have hA : 1 ≤ 2 ^ L.coreBits := Nat.one_le_two_pow
  have hn : (BitVec.ofNat 64 (2 ^ 27 - 1)).toNat = 2 ^ 27 - 1 := rfl
  -- the next tid starts epoch `e + 1`
  have hend : (L.makeTid L.coreMask (BitVec.ofNat 64 (2 ^ 27 - 1)) e).toNat + 1 =
      (e.toNat + 1) * 2 ^ (L.coreBits + 27) := by
    rw [toNat_makeTid (by rw [toNat_coreMask]; omega) (by rw [hn]; decide) he, toNat_coreMask, hn, Nat.pow_add]
    zify [hA]
    ring
  rw [BitVec.le_def, BitVec.le_def, toNat_epochId, ← Nat.lt_add_one_iff, hend,
    ← Nat.div_lt_iff_lt_mul (Nat.two_pow_pos _)]
  omega

/-- A transaction of `transaction_proto2` running in epoch `e` may read exactly the
tids up to `MakeTid(CoreMask, 2^27 - 1, e)`, the last tid of its epoch: every tid
of the epochs up to `e`, and none of a later one. -/
theorem canReadTid_iff_le_epochEnd (he : e.toNat < 2 ^ (64 - L.coreBits - 27)) :
    L.epochId (L.makeTid L.coreMask (BitVec.ofNat 64 (2 ^ 27 - 1)) e) = e ∧
      ∀ t, L.canReadTid e t = true ↔ t ≤ L.makeTid L.coreMask (BitVec.ofNat 64 (2 ^ 27 - 1)) e :=
  ⟨epochId_epochEnd he, fun t => by rw [le_epochEnd_iff he, canReadTid, decide_eq_true_iff]⟩

/-- With ten core bits, a transaction in epoch 3 reads up to the last tid of epoch 3. -/
theorem canReadTid_iff_le_epochEnd_three :
    (3#64).toNat < 2 ^ (64 - 10 - 27) ∧
      (EpochLayout.epochId ⟨10, 1024, rfl, by decide⟩
          ((⟨10, 1024, rfl, by decide⟩ : EpochLayout).makeTid (EpochLayout.coreMask ⟨10, 1024, rfl, by decide⟩)
            (BitVec.ofNat 64 (2 ^ 27 - 1)) 3#64) = 3#64 ∧
        ∀ t, EpochLayout.canReadTid ⟨10, 1024, rfl, by decide⟩ 3#64 t = true ↔
          t ≤ (⟨10, 1024, rfl, by decide⟩ : EpochLayout).makeTid
            (EpochLayout.coreMask ⟨10, 1024, rfl, by decide⟩) (BitVec.ofNat 64 (2 ^ 27 - 1)) 3#64) :=
  ⟨by decide, canReadTid_iff_le_epochEnd (L := ⟨10, 1024, rfl, by decide⟩) (by decide)⟩

end Bounded

end EpochLayout

/-- The epoch layout is faithful and order-preserving: on in-range fields
`MakeTid` is inverted by `CoreId`, `NumId` and `EpochId`; every identifier is the
`MakeTid` of its in-range fields; `MakeTid` orders identifiers lexicographically by
(epoch, number, core); and so `EpochId` is monotone, each epoch being an interval. -/
theorem makeTid_layout (L : EpochLayout) :
    (∀ c n e : BitVec 64, c.toNat < 2 ^ L.coreBits → n.toNat < 2 ^ 27 →
        e.toNat < 2 ^ (64 - L.coreBits - 27) →
        L.coreId (L.makeTid c n e) = c ∧ L.numId (L.makeTid c n e) = n ∧
          L.epochId (L.makeTid c n e) = e) ∧
      (∀ t : BitVec 64, L.makeTid (L.coreId t) (L.numId t) (L.epochId t) = t ∧
        (L.coreId t).toNat < 2 ^ L.coreBits ∧ (L.numId t).toNat < 2 ^ 27 ∧
        (L.epochId t).toNat < 2 ^ (64 - L.coreBits - 27)) ∧
      (∀ c n e c' n' e' : BitVec 64, c.toNat < 2 ^ L.coreBits → n.toNat < 2 ^ 27 →
        e.toNat < 2 ^ (64 - L.coreBits - 27) → c'.toNat < 2 ^ L.coreBits →
        n'.toNat < 2 ^ 27 → e'.toNat < 2 ^ (64 - L.coreBits - 27) →
        (L.makeTid c n e < L.makeTid c' n' e' ↔
          e < e' ∨ (e = e' ∧ (n < n' ∨ (n = n' ∧ c < c'))))) ∧
      (∀ t t' : BitVec 64, t ≤ t' → L.epochId t ≤ L.epochId t') :=
  ⟨fun _ _ _ hc hn he =>
      ⟨EpochLayout.coreId_makeTid hc, EpochLayout.numId_makeTid hc hn,
        EpochLayout.epochId_makeTid hc hn he⟩,
    fun t => ⟨L.makeTid_ids t,
      by rw [EpochLayout.toNat_coreId]; exact Nat.mod_lt _ (Nat.two_pow_pos _),
      by rw [EpochLayout.toNat_numId]; exact Nat.mod_lt _ (Nat.two_pow_pos _),
      L.epochId_lt t⟩,
    fun _ _ _ _ _ _ hc hn he hc' hn' he' =>
      EpochLayout.makeTid_lt_makeTid_iff hc hn he hc' hn' he',
    fun _ _ h => L.epochId_mono h⟩

/-- With ten core bits, core 3, number 5 and epoch 7 come back out of their identifier. -/
theorem makeTid_layout_ten_core_bits :
    let L : EpochLayout := ⟨10, 1024, rfl, by decide⟩
    L.coreId (L.makeTid 3#64 5#64 7#64) = 3#64 ∧ L.numId (L.makeTid 3#64 5#64 7#64) = 5#64 ∧
      L.epochId (L.makeTid 3#64 5#64 7#64) = 7#64 :=
  (makeTid_layout ⟨10, 1024, rfl, by decide⟩).1 3#64 5#64 7#64 (by decide) (by decide) (by decide)

end Silo.Tid
