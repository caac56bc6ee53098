import Rustlux.Checked
import Rustlux.FixedPoint
import Rustlux.Prim

/-!
# BORE

`rust/rustlux_sched/src/bore.rs` and `params.rs`: a task accumulates the time
it runs without sleeping, its penalty grows with the logarithm of that time,
and the high byte of the penalty is added to its priority.

Every function is written in checked arithmetic. For tunables in their sysctl
ranges all of it is exact, and what is left are formulas over natural
numbers: `penaltyOf` for a burst time, `smoothed` for the end of a burst.
-/

open FixedPoint (leadingZeros posPart negPart log2p1 approach)

namespace Rustlux

/-! ## Parameters -/

/-- `(40 << 8) - 1`. -/
def MAX_BURST_PENALTY : U32 := (40 <<< 8) - 1

def BURST_CACHE_SAMPLE_LIMIT : Nat := 63

def BORE_BC_TIMESTAMP_SHIFT : Nat := 16

structure BoreParams where
  enabled : U8
  burstInheritType : U8
  burstSmoothness : U8
  burstPenaltyOffset : U8
  burstPenaltyScale : U32
  burstCacheLifetimeNs : U32
deriving DecidableEq, Repr

/-- The sysctl ranges of the tunables that a penalty depends on. -/
structure BoreParams.InRange (params : BoreParams) : Prop where
  smoothness : params.burstSmoothness.toNat ≤ 3
  offset : params.burstPenaltyOffset.toNat ≤ 63
  scale : params.burstPenaltyScale.toNat ≤ 4095

instance (params : BoreParams) : Decidable params.InRange :=
  decidable_of_iff (params.burstSmoothness.toNat ≤ 3 ∧ params.burstPenaltyOffset.toNat ≤ 63
      ∧ params.burstPenaltyScale.toNat ≤ 4095)
    ⟨fun h => ⟨h.1, h.2.1, h.2.2⟩, fun h => ⟨h.smoothness, h.offset, h.scale⟩⟩

/-- Parameters as the sysctls can be set. -/
abbrev Tunables : Type := { params : BoreParams // params.InRange }

/-- `BoreParams::default()`. -/
def BoreParams.default : BoreParams :=
  { enabled := 1, burstInheritType := 2, burstSmoothness := 1, burstPenaltyOffset := 24
    burstPenaltyScale := 1536, burstCacheLifetimeNs := 75000000 }

/-- The defaults are in range. -/
def Tunables.default : Tunables := ⟨BoreParams.default, by decide⟩

/-- The defaults with another scale. -/
def Tunables.rescaled (scale : U32) (h : scale.toNat ≤ 4095) : Tunables :=
  ⟨{ BoreParams.default with burstPenaltyScale := scale },
    ⟨Tunables.default.property.smoothness, Tunables.default.property.offset, h⟩⟩

/-! ## The context of a task -/

/-- A timestamp and a penalty in one word. -/
structure BoreBc where
  value : U64
deriving DecidableEq, Repr

namespace BoreBc

def timestamp (bc : BoreBc) : U64 :=
  (bc.value >>> BORE_BC_TIMESTAMP_SHIFT) <<< BORE_BC_TIMESTAMP_SHIFT

/-- `self.value as u16`. -/
def penalty (bc : BoreBc) : U16 := bc.value.setWidth 16

def pack (timestampNs : U64) (penalty : U16) : BoreBc :=
  let tsShifted := timestampNs >>> BORE_BC_TIMESTAMP_SHIFT
  ⟨(tsShifted <<< BORE_BC_TIMESTAMP_SHIFT) ||| penalty.setWidth 64⟩

def isExpired (bc : BoreBc) (nowNs lifetimeNs : U64) : Bool :=
  nowNs - bc.timestamp > lifetimeNs

end BoreBc

structure BoreCtx where
  burstTime : U64
  prevPenalty : U16
  currPenalty : U16
  penalty : U16
  score : U8
  stopUpdate : Bool
  futexWaiting : Bool
  subtree : BoreBc
  group : BoreBc
deriving DecidableEq, Repr

/-- An empty context, for `init_task` and new tasks. -/
def BoreCtx.new : BoreCtx :=
  { burstTime := 0, prevPenalty := 0, currPenalty := 0, penalty := 0, score := 0
    stopUpdate := false, futexWaiting := false, subtree := ⟨0⟩, group := ⟨0⟩ }

/-! ## The functions -/

/-- `u64::saturating_add`. -/
def saturatingAdd (x y : U64) : U64 := if x.uaddOverflow y then BitVec.allOnes 64 else x + y

/-- `log2(v) + 1` in fixed point with `fp` fraction bits, 0 at 0. -/
def log2p1U64Fp (v : U64) (fp : U8) : Checked U32 :=
  if v = 0 then pure 0
  else do
    let clz : U32 := BitVec.ofNat 32 (leadingZeros v)
    let exponent ← Checked.sub 64 clz
    let fp : U32 := fp.setWidth 32
    let shifted ← Checked.shl (← Checked.shl v clz.toNat) 1
    let mantissa ← Checked.narrow 32 (← Checked.shr shifted (← Checked.sub 64 fp).toNat)
    pure ((← Checked.shl exponent fp.toNat) ||| mantissa)

def calcBurstPenalty (burstTime : U64) (params : BoreParams) : Checked U32 := do
  let greed ← log2p1U64Fp burstTime 8
  let tolerance ← Checked.shl (params.burstPenaltyOffset.setWidth 32) 8
  -- negative below the tolerance
  let penalty := posPart (greed - tolerance)
  let scaled ← Checked.shr (← Checked.mul penalty params.burstPenaltyScale) 10
  Checked.sub scaled (posPart (scaled - MAX_BURST_PENALTY))

def binarySmooth (new old : U32) (smoothness : U8) : Checked U32 :=
  if new > old then do
    let increment ← Checked.sub new old
    let shift : U32 := smoothness.setWidth 32
    let sum ← Checked.add increment (← Checked.shl 1 shift.toNat)
    Checked.add old (← Checked.shr (← Checked.sub sum 1) shift.toNat)
  else pure new

def effectivePrio (staticPrioOffset score : U8) (boreEnabled : Bool) : Checked U8 := do
  let prio : U32 ←
    if boreEnabled then Checked.add (staticPrioOffset.setWidth 32) (score.setWidth 32)
    else pure (staticPrioOffset.setWidth 32)
  Checked.narrow 8 (if prio ≤ 39 then prio else 39)

/-- Whether the penalty changed, so that the task needs a reweight. -/
def updateCurr (ctx : BoreCtx) (deltaNs : U64) (params : BoreParams) (isKthread : Bool) :
    Checked (Bool × BoreCtx) :=
  if ctx.stopUpdate then pure (false, ctx)
  else do
    let ctx := { ctx with burstTime := saturatingAdd ctx.burstTime deltaNs }
    let currPenalty ← Checked.narrow 16 (← calcBurstPenalty ctx.burstTime params)
    let ctx := { ctx with currPenalty }
    if currPenalty ≤ ctx.prevPenalty then pure (false, ctx)
    else do
      let diff : U32 ← Checked.ssub (ctx.currPenalty.setWidth 32) (ctx.prevPenalty.setWidth 32)
      let maxVal ← Checked.sub ctx.currPenalty (← Checked.narrow 16 (negPart diff))
      let ctx := { ctx with penalty := if isKthread then 0 else maxVal }
      let score ← Checked.narrow 8 (← Checked.shr ctx.penalty 8)
      pure (true, { ctx with score })

def restartBurst (ctx : BoreCtx) (params : BoreParams) (isKthread : Bool) : Checked BoreCtx := do
  let newPenalty ← Checked.narrow 16
    (← binarySmooth (ctx.currPenalty.setWidth 32) (ctx.prevPenalty.setWidth 32)
      params.burstSmoothness)
  let ctx := { ctx with prevPenalty := newPenalty, currPenalty := 0, burstTime := 0 }
  let ctx := { ctx with penalty := if isKthread then 0 else newPenalty }
  let score ← Checked.narrow 8 (← Checked.shr ctx.penalty 8)
  pure { ctx with score }

/-! ## In range

With tunables in their ranges no operation overflows and no cast cuts off a
bit, so each function is `pure` of its formula. -/

/-- `calc_burst_penalty` as a formula. -/
def penaltyOf (params : BoreParams) (burst : Nat) : Nat :=
  min MAX_BURST_PENALTY.toNat
    ((log2p1 256 burst - 256 * params.burstPenaltyOffset.toNat)
      * params.burstPenaltyScale.toNat / 1024)

/-- `binary_smooth` as a formula. -/
def smoothed (params : BoreParams) (new old : Nat) : Nat :=
  approach (2 ^ params.burstSmoothness.toNat) new old

theorem toNat_saturatingAdd (x y : U64) :
    (saturatingAdd x y).toNat = min (x.toNat + y.toNat) (2 ^ 64 - 1) := by
  have hx := x.isLt
  have hy := y.isLt
  by_cases h : 2 ^ 64 ≤ x.toNat + y.toNat
  · have hover : x.uaddOverflow y = true := decide_eq_true h
    rw [saturatingAdd, if_pos hover, BitVec.toNat_allOnes, Nat.min_eq_right (by omega)]
  · have hover : ¬x.uaddOverflow y = true := fun hov => h (of_decide_eq_true hov)
    rw [saturatingAdd, if_neg hover, BitVec.toNat_add_of_lt (by omega), Nat.min_eq_left (by omega)]

/-- Run time that is capped once is capped for good. -/
theorem toNat_saturatingAdd_capped {x : U64} {total : Nat} (hx : x.toNat = min total (2 ^ 64 - 1))
    (y : U64) : (saturatingAdd x y).toNat = min (total + y.toNat) (2 ^ 64 - 1) := by
  rw [toNat_saturatingAdd, hx]
  omega

theorem log2p1U64Fp_eq (v : U64) :
    log2p1U64Fp v 8 = pure (BitVec.ofNat 32 (log2p1 256 v.toNat)) := by
  by_cases hv : v = 0
  · subst hv
    rfl
  obtain ⟨hclz, hlog⟩ := FixedPoint.leadingZeros_of_ne hv
  have hmant := @FixedPoint.toNat_mantissa 64 8 v hv (by decide)
  have hfrac := FixedPoint.fraction_lt (v := v.toNat) (Nat.two_pow_pos 8)
  have hne : v.toNat ≠ 0 := fun h => hv (BitVec.eq_of_toNat_eq h)
  have hclz' : (BitVec.ofNat 32 (leadingZeros v)).toNat = 63 - Nat.log2 v.toNat := by
    rw [BitVec.toNat_ofNat, hclz, Nat.mod_eq_of_lt (by omega)]
  rw [hclz] at hmant
  have hexp : (64#32 - BitVec.ofNat 32 (leadingZeros v)).toNat = Nat.log2 v.toNat + 1 := by
    have h64 : (64#32).toNat = 64 := rfl
    rw [BitVec.toNat_sub_of_le (by rw [BitVec.le_def, hclz', h64]; omega), hclz', h64]
    omega
  have hmant' : (v <<< (63 - Nat.log2 v.toNat) <<< 1 >>> 56).toNat < 2 ^ 8 := hmant ▸ hfrac
  have hclzSub : Checked.sub 64 (BitVec.ofNat 32 (leadingZeros v))
      = pure (64 - BitVec.ofNat 32 (leadingZeros v)) :=
    Checked.sub_eq (by rw [hclz']; exact Nat.le_trans (Nat.sub_le _ _) (by decide))
  have hfpSub : Checked.sub 64 (BitVec.setWidth 32 8#8) = pure 56 := rfl
  have hfp : (BitVec.setWidth 32 8#8).toNat = 8 := rfl
  have h56 : (56#32).toNat = 56 := rfl
  have hnarrow := Checked.narrow_eq (Nat.lt_trans hmant' (by decide : 2 ^ 8 < 2 ^ 32))
  rw [log2p1U64Fp, if_neg hv]
  simp only [BitVec.ofNat_eq_ofNat] at hclzSub hfpSub ⊢
  simp only [hclz', hclzSub, hfpSub, hfp, h56, Checked.pure_bind_eq, hnarrow,
    Checked.shl_eq (by omega : 63 - Nat.log2 v.toNat < 64), Checked.shl_eq (by decide : 1 < 64),
    Checked.shl_eq (by decide : 8 < 32), Checked.shr_eq (by decide : 56 < 64)]
  refine congrArg pure (BitVec.eq_of_toNat_eq ?_)
  have hlt := FixedPoint.log2p1_lt (Nat.two_pow_pos 8) v.isLt
  have hwide : (Nat.log2 v.toNat + 1) <<< 8 < 2 ^ 32 := by
    rw [Nat.shiftLeft_eq]
    omega
  rw [BitVec.toNat_or, BitVec.toNat_shiftLeft, hexp, Nat.mod_eq_of_lt hwide,
    BitVec.toNat_setWidth, Nat.mod_eq_of_lt (Nat.lt_trans hmant' (by decide)), hmant,
    ← Nat.shiftLeft_add_eq_or_of_lt hfrac, Nat.shiftLeft_eq, BitVec.toNat_ofNat,
    Nat.mod_eq_of_lt (Nat.lt_trans hlt (by decide)), log2p1, if_neg hne, Nat.mul_comm]

/-- Offset and scale are the only tunables a penalty depends on. -/
theorem calcBurstPenalty_of_le {params : BoreParams}
    (hoffset : params.burstPenaltyOffset.toNat ≤ 63)
    (hscale : params.burstPenaltyScale.toNat ≤ 4095) (burstTime : U64) :
    calcBurstPenalty burstTime params
      = pure (BitVec.ofNat 32 (penaltyOf params burstTime.toNat)) := by
  have hlog : log2p1 256 burstTime.toNat < 256 * 65 :=
    FixedPoint.log2p1_lt (by decide) burstTime.isLt
  generalize hG : log2p1 256 burstTime.toNat = G at *
  have hgreed : (BitVec.ofNat 32 G).toNat = G := by
    rw [BitVec.toNat_ofNat, Nat.mod_eq_of_lt (by omega)]
  have htol : (params.burstPenaltyOffset.setWidth 32 <<< 8).toNat
      = 256 * params.burstPenaltyOffset.toNat := by
    rw [BitVec.toNat_shiftLeft, BitVec.toNat_setWidth_of_le (by decide), Nat.shiftLeft_eq,
      Nat.mod_eq_of_lt (by omega), Nat.mul_comm]
  have hpen := FixedPoint.toNat_posPart_sub (x := BitVec.ofNat 32 G)
    (y := params.burstPenaltyOffset.setWidth 32 <<< 8) (by omega) (by omega)
  rw [hgreed, htol] at hpen
  have hmul : (G - 256 * params.burstPenaltyOffset.toNat) * params.burstPenaltyScale.toNat
      ≤ 16640 * 4095 := Nat.mul_le_mul (by omega) hscale
  rw [calcBurstPenalty, log2p1U64Fp_eq, hG]
  simp only [Checked.pure_bind_eq, Checked.shl_eq (by decide : 8 < 32)]
  generalize posPart (BitVec.ofNat 32 G - params.burstPenaltyOffset.setWidth 32 <<< 8) = pen at *
  rw [← hpen] at hmul
  have hscaled : ((pen * params.burstPenaltyScale) >>> 10).toNat
      = pen.toNat * params.burstPenaltyScale.toNat / 1024 := by
    rw [BitVec.toNat_ushiftRight, BitVec.toNat_mul, Nat.mod_eq_of_lt (by omega),
      Nat.shiftRight_eq_div_pow]
  have hmax : MAX_BURST_PENALTY.toNat = 10239 := rfl
  have hover := FixedPoint.toNat_posPart_sub (x := (pen * params.burstPenaltyScale) >>> 10)
    (y := MAX_BURST_PENALTY) (by omega) (by omega)
  rw [Checked.mul_eq (by omega), Checked.pure_bind_eq, Checked.shr_eq (by decide),
    Checked.pure_bind_eq, Checked.sub_eq (by rw [hover]; exact Nat.sub_le _ _)]
  refine congrArg pure (BitVec.eq_of_toNat_eq ?_)
  rw [BitVec.toNat_sub_of_le (by rw [BitVec.le_def, hover]; exact Nat.sub_le _ _), hover,
    hscaled, penaltyOf, hG, ← hpen, BitVec.toNat_ofNat, Nat.mod_eq_of_lt (by omega)]
  omega

theorem calcBurstPenalty_eq {params : BoreParams} (hp : params.InRange) (burstTime : U64) :
    calcBurstPenalty burstTime params
      = pure (BitVec.ofNat 32 (penaltyOf params burstTime.toNat)) :=
  calcBurstPenalty_of_le hp.offset hp.scale burstTime

theorem penaltyOf_le (params : BoreParams) (burst : Nat) :
    penaltyOf params burst ≤ MAX_BURST_PENALTY.toNat := Nat.min_le_left _ _

theorem penaltyOf_mono (params : BoreParams) {burst burst' : Nat} (h : burst ≤ burst') :
    penaltyOf params burst ≤ penaltyOf params burst' := by
  have hlog := @FixedPoint.log2p1_mono 256 _ _ (by decide) h
  have hmul := Nat.mul_le_mul_right params.burstPenaltyScale.toNat
    (Nat.sub_le_sub_right hlog (256 * params.burstPenaltyOffset.toNat))
  have hdiv := @Nat.div_le_div_right _ _ 1024 hmul
  unfold penaltyOf
  omega

@[simp] theorem penaltyOf_zero (params : BoreParams) : penaltyOf params 0 = 0 := by
  simp [penaltyOf, log2p1]

theorem binarySmooth_eq {params : BoreParams} (hp : params.InRange) {new old : U32}
    (hnew : new.toNat < 2 ^ 16) :
    binarySmooth new old params.burstSmoothness
      = pure (BitVec.ofNat 32 (smoothed params new.toNat old.toNat)) := by
  by_cases hgt : old.toNat < new.toNat
  · have hs : params.burstSmoothness.toNat < 32 := Nat.lt_of_le_of_lt hp.smoothness (by decide)
    have hshift : (params.burstSmoothness.setWidth 32).toNat = params.burstSmoothness.toNat :=
      BitVec.toNat_setWidth_of_le (by decide)
    have hpow : 2 ^ params.burstSmoothness.toNat ≤ 2 ^ 3 :=
      Nat.pow_le_pow_right (by decide) hp.smoothness
    have hpos := Nat.two_pow_pos params.burstSmoothness.toNat
    have hone := FixedPoint.toNat_one_shl hs
    have hinc : (new - old).toNat = new.toNat - old.toNat :=
      BitVec.toNat_sub_of_le (Nat.le_of_lt hgt)
    have hfit : (new - old).toNat + 2 ^ params.burstSmoothness.toNat < 2 ^ 32 := by omega
    have hsum := FixedPoint.toNat_add_one_shl hs hfit
    have hshr := FixedPoint.toNat_shr_ceil hs hfit
    rw [hinc] at hshr
    generalize hn : 2 ^ params.burstSmoothness.toNat = n at *
    have hquot : (new.toNat - old.toNat + (n - 1)) / n ≤ new.toNat - old.toNat + (n - 1) :=
      Nat.div_le_self _ _
    have hgt' : new > old := hgt
    rw [binarySmooth, if_pos hgt', smoothed, approach, if_pos hgt, hn]
    simp only [BitVec.ofNat_eq_ofNat, hshift]
    rw [Checked.sub_eq (Nat.le_of_lt hgt), Checked.pure_bind_eq, Checked.shl_eq hs,
      Checked.pure_bind_eq, Checked.add_eq (by omega), Checked.pure_bind_eq,
      Checked.sub_eq (by rw [hsum]; exact Nat.le_trans hpos (Nat.le_add_left _ _)),
      Checked.pure_bind_eq, Checked.shr_eq hs, Checked.pure_bind_eq,
      Checked.add_eq (by rw [hshr]; omega)]
    refine congrArg pure (BitVec.eq_of_toNat_eq ?_)
    rw [BitVec.toNat_add_of_lt (by rw [hshr]; omega), hshr, BitVec.toNat_ofNat,
      Nat.mod_eq_of_lt (by omega)]
  · have hgt' : ¬new > old := hgt
    rw [binarySmooth, if_neg hgt', smoothed, approach, if_neg hgt, BitVec.ofNat_toNat,
      BitVec.setWidth_eq]

theorem smoothed_le (params : BoreParams) (new old : Nat) :
    smoothed params new old ≤ max new old :=
  FixedPoint.approach_le (Nat.two_pow_pos _)

/-- Between two penalties there is room for a penalty. -/
theorem smoothed_lt (params : BoreParams) (new old : U16) :
    smoothed params new.toNat old.toNat < 2 ^ 16 :=
  Nat.lt_of_le_of_lt (smoothed_le params _ _) (Nat.max_lt.mpr ⟨new.isLt, old.isLt⟩)

theorem smoothed_mono (params : BoreParams) {new new' old old' : Nat} (hnew : new ≤ new')
    (hold : old ≤ old') : smoothed params new old ≤ smoothed params new' old' :=
  FixedPoint.approach_mono (Nat.two_pow_pos _) hnew hold

theorem effectivePrio_eq (staticPrioOffset score : U8) (boreEnabled : Bool) :
    effectivePrio staticPrioOffset score boreEnabled
      = pure (BitVec.ofNat 8
          (min (staticPrioOffset.toNat + if boreEnabled then score.toNat else 0) 39)) := by
  have hclamp : ∀ prio : U32, Checked.narrow 8 (if prio ≤ 39 then prio else 39)
      = pure (BitVec.ofNat 8 (min prio.toNat 39)) := by
    intro prio
    have h39 : (39#32).toNat = 39 := rfl
    by_cases h : prio.toNat ≤ 39
    · have h' : prio ≤ 39 := h
      rw [if_pos h', Checked.narrow_eq (by omega), Nat.min_eq_left h, BitVec.ofNat_toNat]
    · have h' : ¬prio ≤ 39 := h
      rw [if_neg h', Checked.narrow_eq (by decide), Nat.min_eq_right (by omega)]
      rfl
  have hs : (staticPrioOffset.setWidth 32).toNat = staticPrioOffset.toNat :=
    BitVec.toNat_setWidth_of_le (by decide)
  have hc : (score.setWidth 32).toNat = score.toNat := BitVec.toNat_setWidth_of_le (by decide)
  cases boreEnabled with
  | false =>
      rw [effectivePrio, if_neg Bool.false_ne_true, Checked.pure_bind_eq]
      refine (hclamp _).trans ?_
      rw [hs]
      rfl
  | true =>
      rw [effectivePrio, if_pos rfl, Checked.add_eq (by omega), Checked.pure_bind_eq]
      refine (hclamp _).trans ?_
      rw [BitVec.toNat_add_of_lt (by omega), hs, hc]
      rfl

namespace BoreCtx

/-- The score is the high byte of the penalty. -/
def highByte (p : U16) : U8 := (p >>> 8).setWidth 8

theorem toNat_highByte (p : U16) : (highByte p).toNat = p.toNat / 256 := by
  rw [highByte, BitVec.toNat_setWidth, BitVec.toNat_ushiftRight, Nat.shiftRight_eq_div_pow]
  omega

/-- The context with effective penalty `p`, or 0 for a kernel thread. -/
def withPenalty (ctx : BoreCtx) (p : U16) (isKthread : Bool) : BoreCtx :=
  let p := if isKthread then 0 else p
  { ctx with penalty := p, score := highByte p }

/-- The context with the burst time run on, at penalty `currPenalty`. -/
def chargedTo (ctx : BoreCtx) (deltaNs : U64) (currPenalty : U16) : BoreCtx :=
  { ctx with burstTime := saturatingAdd ctx.burstTime deltaNs, currPenalty }

/-- The context with the burst time run on, at the penalty of its formula. -/
def charged (ctx : BoreCtx) (deltaNs : U64) (params : BoreParams) : BoreCtx :=
  ctx.chargedTo deltaNs
    (BitVec.ofNat 16 (penaltyOf params (saturatingAdd ctx.burstTime deltaNs).toNat))

/-- The context after a burst, with previous penalty `prevPenalty`. -/
def restartedTo (ctx : BoreCtx) (prevPenalty : U16) : BoreCtx :=
  { ctx with prevPenalty, currPenalty := 0, burstTime := 0 }

/-- The context with the burst smoothed into the previous penalty. -/
def restarted (ctx : BoreCtx) (params : BoreParams) : BoreCtx :=
  ctx.restartedTo
    (BitVec.ofNat 16 (smoothed params ctx.currPenalty.toNat ctx.prevPenalty.toNat))

end BoreCtx

theorem score_eq {β : Type} (p : U16) (f : U8 → Checked β) :
    (do let score ← Checked.narrow 8 (← Checked.shr p 8); f score) = f (BoreCtx.highByte p) := by
  have hlt : (p >>> 8).toNat < 2 ^ 8 := by
    rw [BitVec.toNat_ushiftRight, Nat.shiftRight_eq_div_pow]
    omega
  rw [Checked.shr_eq (by decide), Checked.pure_bind_eq, Checked.narrow_eq hlt,
    Checked.pure_bind_eq]
  rfl

theorem narrow_penalty {p : Nat} (hp : p < 2 ^ 16) :
    Checked.narrow 16 (BitVec.ofNat 32 p) = pure (BitVec.ofNat 16 p) := by
  rw [Checked.narrow_eq (by rw [BitVec.toNat_ofNat]; omega)]
  refine congrArg pure (BitVec.eq_of_toNat_eq ?_)
  rw [BitVec.toNat_setWidth, BitVec.toNat_ofNat, BitVec.toNat_ofNat]
  omega

theorem penaltyOf_lt (params : BoreParams) (burst : Nat) : penaltyOf params burst < 2 ^ 16 :=
  Nat.lt_of_le_of_lt (penaltyOf_le params burst) (by decide)

/-- After the penalty of the burst everything is exact, whatever the tunables:
past the early return the difference is positive, so its negative part is 0. -/
theorem updateCurr_bind (ctx : BoreCtx) (deltaNs : U64) (params : BoreParams) (isKthread : Bool) :
    updateCurr ctx deltaNs params isKthread
      = if ctx.stopUpdate then pure (false, ctx)
        else (do
          let curr ← Checked.narrow 16
            (← calcBurstPenalty (saturatingAdd ctx.burstTime deltaNs) params)
          pure (if curr ≤ ctx.prevPenalty then (false, ctx.chargedTo deltaNs curr)
            else (true, (ctx.chargedTo deltaNs curr).withPenalty curr isKthread))) := by
  cases hstop : ctx.stopUpdate with
  | true =>
      rw [updateCurr, if_pos hstop]
      rfl
  | false =>
      have hne : ¬ctx.stopUpdate = true := by simp [hstop]
      rw [updateCurr, if_neg hne, if_neg Bool.false_ne_true]
      refine congrArg (_ >>= ·) (funext fun raw => congrArg (_ >>= ·) (funext fun curr => ?_))
      by_cases hle : curr ≤ ctx.prevPenalty
      · exact (if_pos hle).trans (congrArg pure (if_pos hle).symm)
      · refine (if_neg hle).trans (Eq.trans ?_ (congrArg pure (if_neg hle).symm))
        dsimp only
        have hlt : ctx.prevPenalty.toNat < curr.toNat := Nat.lt_of_not_le hle
        have hc : (curr.setWidth 32).toNat = curr.toNat := BitVec.toNat_setWidth_of_le (by decide)
        have hq : (ctx.prevPenalty.setWidth 32).toNat = ctx.prevPenalty.toNat :=
          BitVec.toNat_setWidth_of_le (by decide)
        have hneg : negPart (curr.setWidth 32 - ctx.prevPenalty.setWidth 32) = 0#32 := by
          rw [FixedPoint.negPart_sub (by omega) (by omega), hc, hq, if_neg (by omega)]
        have hzero : curr - BitVec.setWidth 16 0#32 = curr := BitVec.sub_zero curr
        rw [Checked.ssub_eq (by omega) (by omega), Checked.pure_bind_eq, hneg,
          Checked.narrow_eq (by decide), Checked.pure_bind_eq, Checked.sub_eq (Nat.zero_le _),
          Checked.pure_bind_eq, hzero, score_eq]
        rfl

theorem updateCurr_of_le {params : BoreParams}
    (hoffset : params.burstPenaltyOffset.toNat ≤ 63)
    (hscale : params.burstPenaltyScale.toNat ≤ 4095) (ctx : BoreCtx) (deltaNs : U64)
    (isKthread : Bool) :
    updateCurr ctx deltaNs params isKthread
      = pure (if ctx.stopUpdate then (false, ctx)
          else if (ctx.charged deltaNs params).currPenalty ≤ ctx.prevPenalty then
            (false, ctx.charged deltaNs params)
          else (true, (ctx.charged deltaNs params).withPenalty
            (ctx.charged deltaNs params).currPenalty isKthread)) := by
  rw [updateCurr_bind]
  split
  · rfl
  · rw [calcBurstPenalty_of_le hoffset hscale, Checked.pure_bind_eq,
      narrow_penalty (penaltyOf_lt params _), Checked.pure_bind_eq]
    rfl

theorem updateCurr_eq {params : BoreParams} (hp : params.InRange) (ctx : BoreCtx) (deltaNs : U64)
    (isKthread : Bool) :
    updateCurr ctx deltaNs params isKthread
      = pure (if ctx.stopUpdate then (false, ctx)
          else if (ctx.charged deltaNs params).currPenalty ≤ ctx.prevPenalty then
            (false, ctx.charged deltaNs params)
          else (true, (ctx.charged deltaNs params).withPenalty
            (ctx.charged deltaNs params).currPenalty isKthread)) :=
  updateCurr_of_le hp.offset hp.scale ctx deltaNs isKthread

theorem restartBurst_bind (ctx : BoreCtx) (params : BoreParams) (isKthread : Bool) :
    restartBurst ctx params isKthread
      = (do
          let prev ← Checked.narrow 16
            (← binarySmooth (ctx.currPenalty.setWidth 32) (ctx.prevPenalty.setWidth 32)
              params.burstSmoothness)
          pure ((ctx.restartedTo prev).withPenalty prev isKthread)) :=
  congrArg (_ >>= ·) (funext fun _ => congrArg (_ >>= ·) (funext fun _ => score_eq _ _))

theorem restartBurst_eq {params : BoreParams} (hp : params.InRange) (ctx : BoreCtx)
    (isKthread : Bool) :
    restartBurst ctx params isKthread
      = pure ((ctx.restarted params).withPenalty (ctx.restarted params).prevPenalty
          isKthread) := by
  have hcurr : (ctx.currPenalty.setWidth 32).toNat = ctx.currPenalty.toNat :=
    BitVec.toNat_setWidth_of_le (by decide)
  have hprev : (ctx.prevPenalty.setWidth 32).toNat = ctx.prevPenalty.toNat :=
    BitVec.toNat_setWidth_of_le (by decide)
  rw [restartBurst_bind, binarySmooth_eq hp (by rw [hcurr]; exact ctx.currPenalty.isLt),
    Checked.pure_bind_eq, hcurr, hprev, narrow_penalty (smoothed_lt params _ _),
    Checked.pure_bind_eq]
  rfl

end Rustlux
