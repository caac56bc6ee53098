import Rustlux.Bore
import Rustlux.Lts

/-!
# The life of a task

Runs of `update_curr` and `restart_burst` from an empty context, with
tunables that may change from call to call within their sysctl ranges.

- In every run the penalties stay below `MAX_BURST_PENALTY`, the score is the
  high byte of the penalty, and no arithmetic is inexact (`reachable_bounded`).
- The penalty is the larger of the previous and the current one as long as no
  call takes the current one back below the previous one
  (`effective_penalty_iff`).
-/

namespace Rustlux

/-! ## Calls -/

/-- A call on a task's context, with the tunables it reads. -/
inductive BoreOp where
  | updateCurr (deltaNs : U64) (tunables : Tunables)
  | restartBurst (tunables : Tunables)

def BoreOp.call (isKthread : Bool) (ctx : BoreCtx) : BoreOp → Checked BoreCtx
  | .updateCurr deltaNs tunables => do
      let (_, ctx) ← Rustlux.updateCurr ctx deltaNs tunables.val isKthread
      pure ctx
  | .restartBurst tunables => Rustlux.restartBurst ctx tunables.val isKthread

namespace BoreCtx

/-- One call of a task that is or is not a kernel thread. -/
def step (isKthread : Bool) (ctx : BoreCtx) (op : BoreOp) : Option BoreCtx :=
  some (op.call isKthread ctx).val

/-- What the two calls do to a context. -/
def after (isKthread : Bool) (ctx : BoreCtx) : BoreOp → BoreCtx
  | .updateCurr deltaNs tunables =>
      if ctx.stopUpdate then ctx
      else
        let charged := ctx.charged deltaNs tunables.val
        if charged.currPenalty ≤ ctx.prevPenalty then charged
        else charged.withPenalty charged.currPenalty isKthread
  | .restartBurst tunables =>
      let restarted := ctx.restarted tunables.val
      restarted.withPenalty restarted.prevPenalty isKthread

theorem call_eq (isKthread : Bool) (ctx : BoreCtx) (op : BoreOp) :
    op.call isKthread ctx = pure (ctx.after isKthread op) := by
  cases op with
  | updateCurr deltaNs tunables =>
      rw [BoreOp.call, updateCurr_eq tunables.property, Checked.pure_bind_eq, after]
      by_cases hstop : ctx.stopUpdate
      · rw [if_pos hstop, if_pos hstop]
      · rw [if_neg hstop, if_neg hstop]
        by_cases hle : (ctx.charged deltaNs tunables.val).currPenalty ≤ ctx.prevPenalty
        · rw [if_pos hle, if_pos hle]
        · rw [if_neg hle, if_neg hle]
  | restartBurst tunables => exact restartBurst_eq tunables.property ctx isKthread

theorem step_eq (isKthread : Bool) (ctx : BoreCtx) (op : BoreOp) :
    ctx.step isKthread op = some (ctx.after isKthread op) := by
  rw [step, call_eq, Checked.val_pure]

/-! ## Bounds -/

/-- Every penalty is in range, and the score is the high byte of the
effective one. -/
structure Bounded (ctx : BoreCtx) : Prop where
  prev : ctx.prevPenalty.toNat ≤ MAX_BURST_PENALTY.toNat
  curr : ctx.currPenalty.toNat ≤ MAX_BURST_PENALTY.toNat
  penalty : ctx.penalty.toNat ≤ MAX_BURST_PENALTY.toNat
  score : ctx.score = highByte ctx.penalty

theorem highByte_mono {p q : U16} (h : p.toNat ≤ q.toNat) :
    (highByte p).toNat ≤ (highByte q).toNat := by
  rw [toNat_highByte, toNat_highByte]
  exact Nat.div_le_div_right h

theorem Bounded.score_le {ctx : BoreCtx} (h : ctx.Bounded) : ctx.score.toNat ≤ 39 := by
  have hmax : MAX_BURST_PENALTY.toNat = 10239 := rfl
  have := h.penalty
  rw [h.score, toNat_highByte]
  omega

theorem toNat_charged_curr (ctx : BoreCtx) (deltaNs : U64) (params : BoreParams) :
    (ctx.charged deltaNs params).currPenalty.toNat
      = penaltyOf params (saturatingAdd ctx.burstTime deltaNs).toNat := by
  have := penaltyOf_lt params (saturatingAdd ctx.burstTime deltaNs).toNat
  rw [charged, chargedTo, BitVec.toNat_ofNat, Nat.mod_eq_of_lt this]

theorem toNat_restarted_prev (ctx : BoreCtx) (params : BoreParams) :
    (ctx.restarted params).prevPenalty.toNat
      = smoothed params ctx.currPenalty.toNat ctx.prevPenalty.toNat := by
  rw [restarted, restartedTo, BitVec.toNat_ofNat, Nat.mod_eq_of_lt (smoothed_lt params _ _)]

theorem withPenalty_le (ctx : BoreCtx) (p : U16) (isKthread : Bool) :
    (ctx.withPenalty p isKthread).penalty.toNat ≤ p.toNat := by
  cases isKthread with
  | false => exact Nat.le_refl _
  | true => exact Nat.zero_le _

theorem new_bounded : BoreCtx.new.Bounded :=
  ⟨Nat.zero_le _, Nat.zero_le _, Nat.zero_le _, rfl⟩

theorem Bounded.after {ctx : BoreCtx} (h : ctx.Bounded) (isKthread : Bool) (op : BoreOp) :
    (ctx.after isKthread op).Bounded := by
  cases op with
  | updateCurr deltaNs tunables =>
      have hcurr : (ctx.charged deltaNs tunables.val).currPenalty.toNat
          ≤ MAX_BURST_PENALTY.toNat := by
        rw [toNat_charged_curr]
        exact penaltyOf_le _ _
      rw [BoreCtx.after]
      split
      · exact h
      · dsimp only
        split
        · exact ⟨h.prev, hcurr, h.penalty, h.score⟩
        · exact ⟨h.prev, hcurr, Nat.le_trans (withPenalty_le ..) hcurr, rfl⟩
  | restartBurst tunables =>
      have hprev : (ctx.restarted tunables.val).prevPenalty.toNat ≤ MAX_BURST_PENALTY.toNat := by
        have hle := smoothed_le tunables.val ctx.currPenalty.toNat ctx.prevPenalty.toNat
        rw [toNat_restarted_prev]
        exact Nat.le_trans hle (Nat.max_le.mpr ⟨h.curr, h.prev⟩)
      exact ⟨hprev, Nat.zero_le _, Nat.le_trans (withPenalty_le ..) hprev, rfl⟩

theorem effectivePrio_bounds {s score : U8} (hs : s.toNat ≤ 39) (boreEnabled : Bool) :
    (effectivePrio s score boreEnabled).ok = true
      ∧ s.toNat ≤ (effectivePrio s score boreEnabled).val.toNat
      ∧ (effectivePrio s score boreEnabled).val.toNat ≤ 39 := by
  rw [effectivePrio_eq, Checked.ok_pure, Checked.val_pure, BitVec.toNat_ofNat]
  exact ⟨rfl, by omega, by omega⟩

/-- One call of any kind of task. -/
def anyStep (ctx : BoreCtx) (call : Bool × BoreOp) : Option BoreCtx := ctx.step call.1 call.2

theorem bounded_of_run {calls : List (Bool × BoreOp)} {ctx : BoreCtx}
    (hrun : Lts.run anyStep .new calls = some ctx) : ctx.Bounded := by
  refine Lts.run_invariant (fun ctx call ctx' h hstep => ?_) new_bounded hrun
  rw [anyStep, step_eq] at hstep
  obtain rfl := Option.some.inj hstep
  exact h.after call.1 call.2

/-- **No run leaves the ranges, and nothing in it is inexact.** -/
theorem reachable_bounded {calls : List (Bool × BoreOp)} {ctx : BoreCtx}
    (hrun : Lts.run anyStep .new calls = some ctx) :
    (ctx.Bounded ∧ ctx.score.toNat ≤ 39)
      ∧ (∀ isKthread op, (BoreOp.call isKthread ctx op).ok = true)
      ∧ ∀ s boreEnabled, s.toNat ≤ 39 →
          (effectivePrio s ctx.score boreEnabled).ok = true
            ∧ s.toNat ≤ (effectivePrio s ctx.score boreEnabled).val.toNat
            ∧ (effectivePrio s ctx.score boreEnabled).val.toNat ≤ 39 := by
  have hctx := bounded_of_run hrun
  refine ⟨⟨hctx, hctx.score_le⟩, fun isKthread op => ?_, fun s boreEnabled hs => ?_⟩
  · rw [call_eq, Checked.ok_pure]
  · exact effectivePrio_bounds hs boreEnabled

theorem bounded_after_burst :
    ∃ ctx, Lts.run anyStep .new
        [(false, .updateCurr 1000000000 .default), (true, .restartBurst .default)] = some ctx
      ∧ ctx.Bounded ∧ ctx.score.toNat ≤ 39 := by
  have hrun : Lts.run anyStep .new
      [(false, .updateCurr 1000000000 .default), (true, .restartBurst .default)] = some _ := rfl
  exact ⟨_, hrun, (reachable_bounded hrun).1⟩

/-! ## The effective penalty -/

/-- The penalty is the larger of the previous and the current one, or 0 for a
kernel thread, and the score is its high byte. -/
structure EffectivePenalty (isKthread : Bool) (ctx : BoreCtx) : Prop where
  penalty : ctx.penalty.toNat
    = if isKthread then 0 else max ctx.prevPenalty.toNat ctx.currPenalty.toNat
  score : ctx.score = highByte ctx.penalty

/-- The tunables charge a burst time more than a penalty `p`. -/
def Exceeds (params : BoreParams) (burst p : Nat) : Prop :=
  1024 * (p + 1) ≤ (FixedPoint.log2p1 256 burst - 256 * params.burstPenaltyOffset.toNat)
    * params.burstPenaltyScale.toNat

theorem lt_penaltyOf_iff {params : BoreParams} {burst p : Nat} (hp : p < MAX_BURST_PENALTY.toNat) :
    p < penaltyOf params burst ↔ Exceeds params burst p := by
  rw [penaltyOf, Exceeds, Nat.lt_min, and_iff_right hp, Nat.lt_iff_add_one_le,
    Nat.le_div_iff_mul_le (by decide), Nat.mul_comm]

/-- No call takes the current penalty of a user task back below the previous
one. -/
def Keeps (isKthread : Bool) (ctx : BoreCtx) : BoreOp → Prop
  | .updateCurr deltaNs tunables =>
      isKthread = true ∨ ctx.currPenalty ≤ ctx.prevPenalty
        ∨ Exceeds tunables.val (saturatingAdd ctx.burstTime deltaNs).toNat ctx.prevPenalty.toNat
  | .restartBurst _ => True

theorem effectivePenalty_withPenalty {ctx : BoreCtx} {p : U16} (isKthread : Bool)
    (hp : p.toNat = max ctx.prevPenalty.toNat ctx.currPenalty.toNat) :
    (ctx.withPenalty p isKthread).EffectivePenalty isKthread := by
  refine ⟨?_, rfl⟩
  cases isKthread with
  | false => exact hp
  | true => rfl

/-- A tick that exceeds the previous penalty is one that `Keeps` allows. -/
theorem keeps_of_lt {ctx : BoreCtx} {deltaNs : U64} {tunables : Tunables} (isKthread : Bool)
    (hlt : ctx.prevPenalty.toNat
      < penaltyOf tunables.val (saturatingAdd ctx.burstTime deltaNs).toNat) :
    ctx.Keeps isKthread (.updateCurr deltaNs tunables) := by
  have hmax := penaltyOf_le tunables.val (saturatingAdd ctx.burstTime deltaNs).toNat
  exact .inr (.inr ((lt_penaltyOf_iff (Nat.lt_of_lt_of_le hlt hmax)).mp hlt))

/-- The early return leaves the penalty as it is: it has to be the previous one
already. -/
theorem EffectivePenalty.charged_iff {ctx : BoreCtx} {isKthread : Bool}
    (h : ctx.EffectivePenalty isKthread) (deltaNs : U64) {curr : U16}
    (hle : curr ≤ ctx.prevPenalty) :
    (ctx.chargedTo deltaNs curr).EffectivePenalty isKthread
      ↔ isKthread = true ∨ ctx.currPenalty ≤ ctx.prevPenalty := by
  cases isKthread with
  | true => exact iff_of_true ⟨h.penalty, h.score⟩ (.inl rfl)
  | false =>
      have hold : ctx.penalty.toNat = max ctx.prevPenalty.toNat ctx.currPenalty.toNat := h.penalty
      have hmax : max ctx.prevPenalty.toNat curr.toNat = ctx.prevPenalty.toNat :=
        Nat.max_eq_left hle
      constructor
      · intro hnew
        have hprev : ctx.penalty.toNat = ctx.prevPenalty.toNat := hnew.penalty.trans hmax
        have hcurr := Nat.le_max_right ctx.prevPenalty.toNat ctx.currPenalty.toNat
        exact .inr (Nat.le_trans hcurr (Nat.le_of_eq (hold.symm.trans hprev)))
      · rintro (hk | hcurr)
        · exact absurd hk Bool.false_ne_true
        · exact ⟨hold.trans ((Nat.max_eq_left hcurr).trans hmax.symm), h.score⟩

theorem EffectivePenalty.after_iff {ctx : BoreCtx} {isKthread : Bool}
    (h : ctx.EffectivePenalty isKthread) (hb : ctx.Bounded) (hstop : ctx.stopUpdate = false)
    (op : BoreOp) :
    (ctx.after isKthread op).EffectivePenalty isKthread ↔ ctx.Keeps isKthread op := by
  cases op with
  | restartBurst tunables =>
      exact iff_of_true (effectivePenalty_withPenalty isKthread (Nat.max_zero _).symm) trivial
  | updateCurr deltaNs tunables =>
      have hcurr := ctx.toNat_charged_curr deltaNs tunables.val
      have hne : ¬ctx.stopUpdate = true := by simp [hstop]
      simp only [BoreCtx.after, if_neg hne]
      by_cases hle : (ctx.charged deltaNs tunables.val).currPenalty ≤ ctx.prevPenalty
      · rw [if_pos hle]
        refine (h.charged_iff deltaNs hle).trans ⟨?_, ?_⟩
        · exact Or.imp_right Or.inl
        · rintro (hk | hprev | hexc)
          · exact .inl hk
          · exact .inr hprev
          · -- a tick that exceeds the previous penalty does not return early
            refine .inr (Nat.le_of_not_lt fun hlt => ?_)
            have hmore := (lt_penaltyOf_iff (Nat.lt_of_lt_of_le hlt hb.curr)).mpr hexc
            exact absurd hmore (Nat.not_lt.mpr (hcurr ▸ hle))
      · rw [if_neg hle]
        have hlt : ctx.prevPenalty.toNat < (ctx.charged deltaNs tunables.val).currPenalty.toNat :=
          Nat.lt_of_not_le hle
        exact iff_of_true
          (effectivePenalty_withPenalty isKthread (Nat.max_eq_right (Nat.le_of_lt hlt)).symm)
          (keeps_of_lt isKthread (hcurr ▸ hlt))

@[simp] theorem after_stopUpdate (isKthread : Bool) (ctx : BoreCtx) (op : BoreOp) :
    (ctx.after isKthread op).stopUpdate = ctx.stopUpdate := by
  cases op with
  | restartBurst tunables => rfl
  | updateCurr deltaNs tunables =>
      simp only [BoreCtx.after]
      split
      · rfl
      · split <;> rfl

theorem after_tick {ctx : BoreCtx} (hrunning : ctx.stopUpdate = false) (isKthread : Bool)
    (deltaNs : U64) (tunables : Tunables) :
    let ctx' := ctx.after isKthread (.updateCurr deltaNs tunables)
    ctx'.burstTime = saturatingAdd ctx.burstTime deltaNs ∧ ctx'.prevPenalty = ctx.prevPenalty
      ∧ ctx'.currPenalty = (ctx.charged deltaNs tunables.val).currPenalty := by
  have hne : ¬ctx.stopUpdate = true := by simp [hrunning]
  simp only [BoreCtx.after, if_neg hne]
  split <;> exact ⟨rfl, rfl, rfl⟩

theorem new_effectivePenalty (isKthread : Bool) : BoreCtx.new.EffectivePenalty isKthread := by
  refine ⟨?_, rfl⟩
  cases isKthread <;> rfl

/-- **The field says what it documents exactly along the runs whose calls all
keep it.** -/
theorem effective_penalty_iff (isKthread : Bool) (ops : List BoreOp) :
    (∀ pre ctx, pre <+: ops → Lts.run (step isKthread) .new pre = some ctx →
        ctx.EffectivePenalty isKthread)
      ↔ Lts.Along (step isKthread) (Keeps isKthread) .new ops := by
  refine Lts.along_iff (J := fun ctx => ctx.Bounded ∧ ctx.stopUpdate = false)
    (fun ctx op ctx' hctx hstep => ?_) (fun ctx op ctx' hctx h hstep => ?_) (fun ctx op => ?_)
    ⟨new_bounded, rfl⟩ (new_effectivePenalty isKthread)
  · rw [step_eq] at hstep
    obtain rfl := Option.some.inj hstep
    exact ⟨hctx.1.after isKthread op, (after_stopUpdate isKthread ctx op).trans hctx.2⟩
  · rw [step_eq] at hstep
    obtain rfl := Option.some.inj hstep
    exact h.after_iff hctx.1 hctx.2 op
  · rw [step_eq]
    rfl

/-- The scale is lowered to 0 during a burst: the penalty keeps what the burst
earned before. -/
theorem lowered_scale_keeps_penalty :
    ¬∀ (ops : List BoreOp) (ctx : BoreCtx), Lts.run (step false) .new ops = some ctx →
      ctx.EffectivePenalty false := by
  intro h
  have hpen := (h [.updateCurr 1000000000 (.rescaled 4095 (by decide)),
    .updateCurr 0 (.rescaled 0 (by decide))] _ rfl).penalty
  exact absurd hpen (by decide)

end BoreCtx

end Rustlux
