import Mathlib.Algebra.Ring.Int.Defs
import Rustlux.Bore

/-!
# The documented penalty

The comment on `calc_burst_penalty` gives its result as a formula over the
integers, `clamp (max 0 (log2 burst - offset) * scale / 1024) MAX`. Here the
formula is written down as it stands (`documentedPenalty`), with a logarithm
that is linear between powers of two; the code's leading-zero count, shifts and
sign masks compute it for every burst time (`penalty_documented`). From the
formula the penalty grows with the burst and the scale and falls with the
offset.
-/

namespace Rustlux

/-- `log2 burst + 1` in units of 1/256, and 0 at 0. -/
def greed (burst : Nat) : Int :=
  if burst = 0 then 0
  else
    let k := Nat.log2 burst
    256 * (k + 1) + ((burst : Int) - 2 ^ k) * 256 / 2 ^ k

def documentedPenalty (params : BoreParams) (burst : Nat) : Int :=
  min (MAX_BURST_PENALTY.toNat : Int)
    (max 0 (greed burst - 256 * params.burstPenaltyOffset.toNat)
      * params.burstPenaltyScale.toNat / 1024)

/-! ## The formula over the natural numbers -/

theorem natCast_log2p1 (burst : Nat) :
    ((FixedPoint.log2p1 256 burst : Nat) : Int) = greed burst := by
  unfold FixedPoint.log2p1 greed
  by_cases h0 : burst = 0
  · rw [if_pos h0, if_pos h0]
    rfl
  · have hlow : 2 ^ Nat.log2 burst ≤ burst := Nat.log2_self_le h0
    have hfrac : ((burst - 2 ^ Nat.log2 burst : Nat) : Int) = burst - 2 ^ Nat.log2 burst := by
      rw [Int.ofNat_sub hlow, Int.natCast_pow]
      rfl
    rw [if_neg h0, if_neg h0, Int.natCast_add, Int.natCast_ediv, Int.natCast_mul (burst - _),
      hfrac, Int.natCast_pow]
    rfl

theorem natCast_penaltyOf (params : BoreParams) (burst : Nat) :
    ((penaltyOf params burst : Nat) : Int) = documentedPenalty params burst := by
  have hpos : ((FixedPoint.log2p1 256 burst - 256 * params.burstPenaltyOffset.toNat : Nat) : Int)
      = max 0 (greed burst - 256 * params.burstPenaltyOffset.toNat) := by
    rw [← natCast_log2p1]
    omega
  rw [penaltyOf, documentedPenalty, ← hpos, ← Int.natCast_mul]
  generalize (_ - _) * params.burstPenaltyScale.toNat = scaled
  omega

/-- A larger scale and a smaller offset charge no less. -/
theorem penaltyOf_mono_tunables {params params' : BoreParams} (burst : Nat)
    (hoffset : params'.burstPenaltyOffset.toNat ≤ params.burstPenaltyOffset.toNat)
    (hscale : params.burstPenaltyScale.toNat ≤ params'.burstPenaltyScale.toNat) :
    penaltyOf params burst ≤ penaltyOf params' burst := by
  have htolerance := Nat.mul_le_mul_left 256 hoffset
  have hmul := Nat.mul_le_mul
    (Nat.sub_le_sub_left htolerance (FixedPoint.log2p1 256 burst)) hscale
  have hdiv := @Nat.div_le_div_right _ _ 1024 hmul
  unfold penaltyOf
  omega

/-! ## The code -/

theorem toNat_calcBurstPenalty {params : BoreParams}
    (hoffset : params.burstPenaltyOffset.toNat ≤ 63)
    (hscale : params.burstPenaltyScale.toNat ≤ 4095) (burstTime : U64) :
    (calcBurstPenalty burstTime params).val.toNat = penaltyOf params burstTime.toNat := by
  have hlt := penaltyOf_lt params burstTime.toNat
  rw [calcBurstPenalty_of_le hoffset hscale, Checked.val_pure, BitVec.toNat_ofNat]
  omega

/-- **`calc_burst_penalty` computes its documented formula**, and with it is
monotone in the burst time and the scale and antitone in the offset. -/
theorem penalty_documented {params : BoreParams} (hoffset : params.burstPenaltyOffset.toNat ≤ 63)
    (hscale : params.burstPenaltyScale.toNat ≤ 4095) (burstTime : U64) :
    (calcBurstPenalty burstTime params).ok = true
      ∧ ((calcBurstPenalty burstTime params).val.toNat : Int)
          = documentedPenalty params burstTime.toNat
      ∧ (∀ longer, burstTime ≤ longer →
          (calcBurstPenalty burstTime params).val ≤ (calcBurstPenalty longer params).val)
      ∧ (∀ scale : U32, scale.toNat ≤ 4095 → params.burstPenaltyScale ≤ scale →
          (calcBurstPenalty burstTime params).val
            ≤ (calcBurstPenalty burstTime { params with burstPenaltyScale := scale }).val)
      ∧ ∀ offset : U8, offset.toNat ≤ 63 → params.burstPenaltyOffset ≤ offset →
          (calcBurstPenalty burstTime { params with burstPenaltyOffset := offset }).val
            ≤ (calcBurstPenalty burstTime params).val := by
  have hval := toNat_calcBurstPenalty hoffset hscale
  refine ⟨?_, ?_, fun longer hle => ?_, fun scale hscale' hle => ?_, fun offset hoffset' hle => ?_⟩
  · rw [calcBurstPenalty_of_le hoffset hscale, Checked.ok_pure]
  · rw [hval, natCast_penaltyOf]
  · rw [BitVec.le_def, hval, hval]
    exact penaltyOf_mono params hle
  · have hval' := @toNat_calcBurstPenalty { params with burstPenaltyScale := scale } hoffset hscale'
    rw [BitVec.le_def, hval, hval']
    exact penaltyOf_mono_tunables _ (Nat.le_refl _) hle
  · have hval' := @toNat_calcBurstPenalty { params with burstPenaltyOffset := offset } hoffset'
      hscale
    rw [BitVec.le_def, hval, hval']
    exact penaltyOf_mono_tunables _ hle (Nat.le_refl _)

/-- One second at the default tunables. -/
theorem penalty_documented_second :
    ((calcBurstPenalty 1000000000 .default).val.toNat : Int)
      = documentedPenalty .default 1000000000 :=
  (@penalty_documented .default (by decide) (by decide) 1000000000).2.1

end Rustlux
