import Rustlux.BoreHistory

/-!
# The length of a tick

`update_curr` once per delta, or once with their sum: the context and the last
answer are the same (`ticks_coalesce`). Run time saturates associatively, so the
two agree on the burst; and since the penalty of a burst never falls as it goes
on, a call that left the early return behind is followed only by such calls,
the last of which overwrites what the earlier ones stored.
-/

namespace Rustlux

/-- One `update_curr` for each delta, up to the answer of the last call. -/
def updateCurrs (params : BoreParams) (isKthread : Bool) :
    BoreCtx → U64 → List U64 → Checked (Bool × BoreCtx)
  | ctx, deltaNs, [] => updateCurr ctx deltaNs params isKthread
  | ctx, deltaNs, next :: rest => do
      let (_, ctx) ← updateCurr ctx deltaNs params isKthread
      updateCurrs params isKthread ctx next rest

/-- The sum of the deltas, capped at `u64::MAX`. -/
def cappedTotal (deltas : List U64) : U64 :=
  BitVec.ofNat 64 (min (BoreCtx.burstTotal deltas) (2 ^ 64 - 1))

/-! ## Capped sums -/

theorem toNat_cappedTotal (deltas : List U64) :
    (cappedTotal deltas).toNat = min (BoreCtx.burstTotal deltas) (2 ^ 64 - 1) := by
  rw [cappedTotal, BitVec.toNat_ofNat]
  omega

theorem saturatingAdd_assoc (x y z : U64) :
    saturatingAdd (saturatingAdd x y) z = saturatingAdd x (saturatingAdd y z) := by
  refine BitVec.eq_of_toNat_eq ?_
  simp only [toNat_saturatingAdd]
  omega

theorem cappedTotal_singleton (deltaNs : U64) : cappedTotal [deltaNs] = deltaNs := by
  have hlt := deltaNs.isLt
  refine BitVec.eq_of_toNat_eq ?_
  simp only [toNat_cappedTotal, BoreCtx.burstTotal, List.map_cons, List.map_nil, List.sum_cons,
    List.sum_nil]
  omega

theorem cappedTotal_cons (deltaNs : U64) (rest : List U64) :
    cappedTotal (deltaNs :: rest) = saturatingAdd deltaNs (cappedTotal rest) := by
  refine BitVec.eq_of_toNat_eq ?_
  rw [toNat_saturatingAdd, toNat_cappedTotal, toNat_cappedTotal, BoreCtx.burstTotal,
    List.map_cons, List.sum_cons, BoreCtx.burstTotal]
  omega

/-! ## Two ticks -/

namespace BoreCtx

variable (ctx : BoreCtx) (params : BoreParams) (a b : U64)

theorem charged_charged :
    (ctx.charged a params).charged b params = ctx.charged (saturatingAdd a b) params := by
  simp only [charged, chargedTo, saturatingAdd_assoc]

/-- Charging does not look at the effective penalty. -/
theorem charged_withPenalty (p : U16) (isKthread : Bool) :
    (ctx.withPenalty p isKthread).charged b params
      = (ctx.charged b params).withPenalty p isKthread := rfl

/-- A burst that goes on is charged no less. -/
theorem charged_curr_mono :
    (ctx.charged a params).currPenalty
      ≤ (ctx.charged (saturatingAdd a b) params).currPenalty := by
  rw [BitVec.le_def, toNat_charged_curr, toNat_charged_curr]
  refine penaltyOf_mono params ?_
  simp only [toNat_saturatingAdd]
  omega

end BoreCtx

variable {params : BoreParams}

theorem updateCurr_twice (hoffset : params.burstPenaltyOffset.toNat ≤ 63)
    (hscale : params.burstPenaltyScale.toNat ≤ 4095) (isKthread : Bool) (ctx : BoreCtx)
    (a b : U64) :
    (do let (_, ctx) ← updateCurr ctx a params isKthread
        updateCurr ctx b params isKthread)
      = updateCurr ctx (saturatingAdd a b) params isKthread := by
  have hmono := ctx.charged_curr_mono params a b
  simp only [updateCurr_of_le hoffset hscale, Checked.pure_bind_eq]
  refine congrArg pure ?_
  by_cases hstop : ctx.stopUpdate
  · rw [if_pos hstop, if_pos hstop, if_pos hstop]
  rw [if_neg hstop, if_neg hstop]
  by_cases hle : (ctx.charged a params).currPenalty ≤ ctx.prevPenalty
  · -- the first tick returns early and has only run the burst on
    rw [if_pos hle]
    dsimp only
    rw [BoreCtx.charged_charged]
    exact if_neg hstop
  · -- the first tick exceeds the previous penalty, and so does the second
    have hlt : ¬(ctx.charged (saturatingAdd a b) params).currPenalty ≤ ctx.prevPenalty :=
      fun h => hle (BitVec.le_trans hmono h)
    rw [if_neg hle, if_neg hlt]
    dsimp only
    rw [BoreCtx.charged_withPenalty, BoreCtx.charged_charged]
    exact (if_neg hstop).trans (if_neg hlt)

/-- **Tick granularity does not matter.** -/
theorem ticks_coalesce (hoffset : params.burstPenaltyOffset.toNat ≤ 63)
    (hscale : params.burstPenaltyScale.toNat ≤ 4095) (isKthread : Bool) (ctx : BoreCtx)
    (deltaNs : U64) (rest : List U64) :
    updateCurrs params isKthread ctx deltaNs rest
      = updateCurr ctx (cappedTotal (deltaNs :: rest)) params isKthread := by
  induction rest generalizing ctx deltaNs with
  | nil => rw [updateCurrs, cappedTotal_singleton]
  | cons next rest ih =>
      rw [updateCurrs, cappedTotal_cons, ← updateCurr_twice hoffset hscale]
      refine congrArg (updateCurr ctx deltaNs params isKthread >>= ·) (funext fun result => ?_)
      exact ih result.2 next

/-- Two ticks of half a second with the default tunables. -/
theorem ticks_coalesce_default :
    updateCurrs .default false .new 500000000 [500000000]
      = updateCurr .new (cappedTotal [500000000, 500000000]) .default false :=
  ticks_coalesce (by decide) (by decide) false .new 500000000 [500000000]

end Rustlux
