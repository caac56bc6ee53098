import Mathlib.Algebra.Order.BigOperators.Group.List
import Mathlib.Algebra.Order.Ring.Nat
import Rustlux.Bore

/-!
# Averages without division

`build_reciprocal_lut` and `average_penalty`: the mean of up to 63 penalties as
a product with the reciprocal of their number, rounded up to 32 fraction bits.
The product is off by less than a reciprocal's last bit for each unit of the
total, which 63 penalties of 16 bits do not add up to a quotient step
(`average_exact`). Entry 1 of the table does not fit in its 32 bits and is 0,
so a single penalty has to be answered without it.
-/

namespace Rustlux

/-- `((0xFFFFFFFF + i) / i) as u32`. -/
def reciprocal (i : Nat) : U32 :=
  ((0xffffffff + BitVec.ofNat 64 i : U64) / BitVec.ofNat 64 i).setWidth 32

def buildReciprocalLut : List U32 :=
  (List.range' 1 BURST_CACHE_SAMPLE_LIMIT).foldl (fun lut i => lut.set i (reciprocal i))
    (List.replicate (BURST_CACHE_SAMPLE_LIMIT + 1) 0)

/-- `none` is the panic of an index out of bounds. -/
def averagePenalty (total : U32) (count : Nat) (lut : List U32) : Option (Checked U32) :=
  if count = 0 then some (pure 0)
  else if count = 1 then some (pure total)
  else do
    let recip ← lut[min count BURST_CACHE_SAMPLE_LIMIT]?
    some do
      let product ← Checked.mul (total.setWidth 64) (recip.setWidth 64)
      Checked.narrow 32 (← Checked.shr product 32)

/-! ## The table -/

theorem lut_getElem? : ∀ i < 64, i ≠ 0 → buildReciprocalLut[i]? = some (reciprocal i) := by
  decide +kernel

/-- Every entry but the first is the reciprocal; that of 1 has lost its only
bit. -/
theorem toNat_reciprocal :
    ∀ i < 64, 2 ≤ i → (reciprocal i).toNat = FixedPoint.ceilRecip (2 ^ 32) i := by
  decide +kernel

/-! ## The average -/

/-- The sum of the penalties, as `u32`. -/
def penaltyTotal (penalties : List U16) : U32 :=
  BitVec.ofNat 32 (penalties.map BitVec.toNat).sum

theorem sum_penalties_le (penalties : List U16) :
    (penalties.map BitVec.toNat).sum ≤ penalties.length * 65535 := by
  have h := List.sum_le_card_nsmul (penalties.map BitVec.toNat) 65535 fun n hn => by
    obtain ⟨p, -, rfl⟩ := List.mem_map.mp hn
    have := p.isLt
    omega
  rwa [List.length_map, Nat.nsmul_eq_mul] at h

/-- The high half of a wide product. -/
theorem mulShr_eq {total recip : U32} {quotient : Nat} (hlt : quotient < 2 ^ 32)
    (hquotient : total.toNat * recip.toNat / 2 ^ 32 = quotient) :
    (do let product ← Checked.mul (total.setWidth 64 : U64) (recip.setWidth 64)
        Checked.narrow 32 (← Checked.shr product 32))
      = pure (BitVec.ofNat 32 quotient) := by
  have ht : (total.setWidth 64).toNat = total.toNat := BitVec.toNat_setWidth_of_le (by decide)
  have hr : (recip.setWidth 64).toNat = recip.toNat := BitVec.toNat_setWidth_of_le (by decide)
  have hmul : total.toNat * recip.toNat < 2 ^ 32 * 2 ^ 32 :=
    Nat.mul_lt_mul'' total.isLt recip.isLt
  have hshr : ((total.setWidth 64 * recip.setWidth 64) >>> 32).toNat = quotient := by
    rw [BitVec.toNat_ushiftRight, BitVec.toNat_mul, ht, hr, Nat.mod_eq_of_lt (by omega),
      Nat.shiftRight_eq_div_pow, hquotient]
  rw [Checked.mul_eq (by rw [ht, hr]; omega), Checked.pure_bind_eq,
    Checked.shr_eq (by decide), Checked.pure_bind_eq, Checked.narrow_eq (by rw [hshr]; exact hlt)]
  refine congrArg pure (BitVec.eq_of_toNat_eq ?_)
  rw [BitVec.toNat_setWidth, hshr, BitVec.toNat_ofNat]

/-- While the reciprocal is exact for the total, the average is the quotient. -/
theorem averagePenalty_eq {total : U32} {count : Nat} (hcount : count ≠ 0) (hlimit : count ≤ 63)
    (htotal : total.toNat * (count - 1) < 2 ^ 32) :
    averagePenalty total count buildReciprocalLut
      = some (pure (BitVec.ofNat 32 (total.toNat / count))) := by
  unfold averagePenalty
  by_cases h1 : count = 1
  · rw [if_neg hcount, if_pos h1, h1, Nat.div_one, BitVec.ofNat_toNat, BitVec.setWidth_eq]
  have hexact := FixedPoint.mul_ceilRecip_div (by decide) (Nat.pos_of_ne_zero hcount) htotal
  have hmin : min count BURST_CACHE_SAMPLE_LIMIT = count := Nat.min_eq_left hlimit
  have hle : total.toNat / count ≤ total.toNat := Nat.div_le_self ..
  rw [← toNat_reciprocal count (by omega) (by omega)] at hexact
  rw [if_neg hcount, if_neg h1, hmin, lut_getElem? count (by omega) hcount]
  exact congrArg some (mulShr_eq (Nat.lt_of_le_of_lt hle total.isLt) hexact)

/-- The quotient of a sum by the number of its terms lies among the terms. -/
theorem mean_between {terms : List Nat} (hne : terms ≠ []) :
    (∃ n ∈ terms, n ≤ terms.sum / terms.length) ∧ ∃ n ∈ terms, terms.sum / terms.length ≤ n := by
  have hpos : 0 < terms.length := List.length_pos_iff.mpr hne
  constructor
  · have hlt := Nat.lt_mul_div_succ terms.sum hpos
    obtain ⟨n, hn, hle⟩ := List.exists_lt_of_sum_lt (l := terms) (fun n => n)
      (fun _ => terms.sum / terms.length + 1)
      (by simpa [List.map_const', List.sum_replicate] using hlt)
    exact ⟨n, hn, Nat.le_of_lt_succ hle⟩
  · have hle := Nat.mul_div_le terms.sum terms.length
    obtain ⟨n, hn, hle⟩ := List.exists_le_of_sum_le hne (fun _ => terms.sum / terms.length)
      (fun n => n) (by simpa [List.map_const', List.sum_replicate] using hle)
    exact ⟨n, hn, hle⟩

/-- **The reciprocal-table average is the exact mean.** -/
theorem average_exact {penalties : List U16} (hne : penalties ≠ [])
    (hlimit : penalties.length ≤ 63) :
    ∃ average, averagePenalty (penaltyTotal penalties) penalties.length buildReciprocalLut
          = some (pure average)
      ∧ average.toNat = (penalties.map BitVec.toNat).sum / penalties.length
      ∧ (∃ p ∈ penalties, p.toNat ≤ average.toNat) ∧ ∃ p ∈ penalties, average.toNat ≤ p.toNat := by
  have hsum := sum_penalties_le penalties
  have hbetween := @mean_between (penalties.map BitVec.toNat) (by simpa using hne)
  have hdiv := Nat.div_le_self (penalties.map BitVec.toNat).sum penalties.length
  have hpos : penalties.length ≠ 0 := fun h => hne (List.length_eq_zero_iff.mp h)
  have htotal : (penaltyTotal penalties).toNat = (penalties.map BitVec.toNat).sum := by
    rw [penaltyTotal, BitVec.toNat_ofNat]
    omega
  rw [List.length_map] at hbetween
  refine ⟨_, averagePenalty_eq hpos hlimit ?_, ?_⟩
  · rw [htotal]
    have hmul := Nat.mul_le_mul hsum (Nat.sub_le_sub_right hlimit 1)
    omega
  · rw [htotal, BitVec.toNat_ofNat, Nat.mod_eq_of_lt (by omega)]
    simpa using hbetween

/-- Three penalties, the largest of them the maximum. -/
theorem average_exact_three :
    ∃ average, averagePenalty (penaltyTotal [10239, 5, 7]) 3 buildReciprocalLut
          = some (pure average)
      ∧ average.toNat = 10251 / 3
      ∧ (∃ p ∈ [10239#16, 5, 7], p.toNat ≤ average.toNat)
      ∧ ∃ p ∈ [10239#16, 5, 7], average.toNat ≤ p.toNat :=
  @average_exact [10239, 5, 7] (List.cons_ne_nil _ _) (by decide)

end Rustlux
