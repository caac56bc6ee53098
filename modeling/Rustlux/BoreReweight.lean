import Rustlux.BoreRun

/-!
# When a task needs a reweight

`update_curr` returns true "if the penalty changed". What it decides by is
whether the burst is charged more than the previous penalty; the penalty it
then stores may be the one already there. For a kernel thread that is always
so once its penalty is 0, and for a user task on every tick that ends on the
step of the logarithm on which it began (`reports_iff`).
-/

namespace Rustlux

namespace BoreCtx

/-- The result of an `update_curr` is whether it has changed the penalty. -/
def Reports (ctx : BoreCtx) (isKthread : Bool) (deltaNs : U64) (tunables : Tunables) : Prop :=
  (updateCurr ctx deltaNs tunables.val isKthread).val.1 = true
    ↔ (updateCurr ctx deltaNs tunables.val isKthread).val.2.penalty ≠ ctx.penalty

instance (ctx : BoreCtx) (isKthread : Bool) (deltaNs : U64) (tunables : Tunables) :
    Decidable (ctx.Reports isKthread deltaNs tunables) :=
  inferInstanceAs (Decidable (_ ↔ _))

/-- The tunables charge a burst time more than `p`, below the maximum. -/
def ChargedMore (params : BoreParams) (burst p : Nat) : Prop :=
  p < MAX_BURST_PENALTY.toNat ∧ Exceeds params burst p

/-- A kernel thread has a penalty to lose, or the burst is not charged more than
the previous penalty. A user task has not been charged more than that so far,
or the burst is charged less than the penalty it has, or more. -/
def OffStep (ctx : BoreCtx) (isKthread : Bool) (deltaNs : U64) (tunables : Tunables) : Prop :=
  let burst := (saturatingAdd ctx.burstTime deltaNs).toNat
  if isKthread then
    ctx.penalty ≠ 0 ∨ ¬ChargedMore tunables.val burst ctx.prevPenalty.toNat
  else
    ctx.penalty ≤ ctx.prevPenalty
      ∨ ¬ChargedMore tunables.val burst (ctx.penalty.toNat - 1)
      ∨ ChargedMore tunables.val burst ctx.penalty.toNat

theorem chargedMore_iff {params : BoreParams} {burst p : Nat} :
    ChargedMore params burst p ↔ p < penaltyOf params burst := by
  have hmax := penaltyOf_le params burst
  constructor
  · rintro ⟨hp, hexceeds⟩
    exact (lt_penaltyOf_iff hp).mpr hexceeds
  · intro hlt
    have hp := Nat.lt_of_lt_of_le hlt hmax
    exact ⟨hp, (lt_penaltyOf_iff hp).mp hlt⟩

/-! ## One call -/

variable {ctx : BoreCtx} {deltaNs : U64} {tunables : Tunables}

/-- A running task is told to reweight when the burst is charged more than the
previous penalty, and then it has the penalty charged, a kernel thread 0. -/
theorem reports_iff_charge (hrunning : ctx.stopUpdate = false) (isKthread : Bool) {charge : Nat}
    (hcharge : penaltyOf tunables.val (saturatingAdd ctx.burstTime deltaNs).toNat = charge) :
    Reports ctx isKthread deltaNs tunables
      ↔ charge ≤ ctx.prevPenalty.toNat ∨ (if isKthread then 0 else charge) ≠ ctx.penalty.toNat := by
  have hcurr := (ctx.toNat_charged_curr deltaNs tunables.val).trans hcharge
  have hne : ¬ctx.stopUpdate = true := by simp [hrunning]
  unfold Reports
  rw [updateCurr_eq tunables.property, Checked.val_pure, if_neg hne]
  by_cases hle : (ctx.charged deltaNs tunables.val).currPenalty ≤ ctx.prevPenalty
  · -- nothing returned, and nothing stored
    rw [if_pos hle]
    rw [BitVec.le_def, hcurr] at hle
    exact iff_of_true (iff_of_false Bool.false_ne_true (not_not.mpr rfl)) (.inl hle)
  · rw [if_neg hle]
    rw [BitVec.le_def, hcurr] at hle
    rw [iff_true_left rfl, or_iff_right hle, ← hcurr, ne_eq, ← BitVec.toNat_inj]
    cases isKthread <;> rfl

theorem reports_iff_offStep (hrunning : ctx.stopUpdate = false) (hbounded : ctx.Bounded)
    (isKthread : Bool) :
    Reports ctx isKthread deltaNs tunables ↔ OffStep ctx isKthread deltaNs tunables := by
  have hmax := hbounded.penalty
  rw [reports_iff_charge hrunning isKthread rfl]
  simp only [OffStep, chargedMore_iff]
  generalize penaltyOf tunables.val (saturatingAdd ctx.burstTime deltaNs).toNat = charge
  cases isKthread with
  | true =>
      have h0 : (0 : U16).toNat = 0 := rfl
      simp only [if_true, ne_eq, ← BitVec.toNat_inj, h0]
      omega
  | false =>
      simp only [Bool.false_eq_true, if_false, BitVec.le_def]
      omega

/-! ## Every call of every run -/

/-- Nobody stops the updates of a task that is only charged and restarted. -/
theorem running_of_run {calls : List (Bool × BoreOp)}
    (hrun : Lts.run anyStep .new calls = some ctx) : ctx.stopUpdate = false := by
  refine Lts.run_invariant (I := fun ctx => ctx.stopUpdate = false)
    (fun ctx call ctx' h hstep => ?_) rfl hrun
  rw [anyStep, step_eq] at hstep
  obtain rfl := Option.some.inj hstep
  exact (after_stopUpdate ..).trans h

/-- **After any run the result is the documented one exactly when** a kernel
thread still has a penalty or is not charged past its previous one, and a user
task is charged something else than the penalty it has, or has not been charged
past its previous one before. -/
theorem reports_iff {calls : List (Bool × BoreOp)} {ctx : BoreCtx}
    (hrun : Lts.run anyStep .new calls = some ctx) (isKthread : Bool) (deltaNs : U64)
    (tunables : Tunables) :
    Reports ctx isKthread deltaNs tunables ↔ OffStep ctx isKthread deltaNs tunables :=
  reports_iff_offStep (running_of_run hrun) (bounded_of_run hrun) isKthread

/-- A second burst of a second. -/
theorem reports_iff_two_seconds :
    ∃ ctx, Lts.run anyStep .new [(false, .updateCurr 1000000000 .default)] = some ctx
      ∧ Reports ctx false 1000000000 .default ∧ OffStep ctx false 1000000000 .default := by
  obtain ⟨ctx, hrun⟩ : ∃ ctx,
      Lts.run anyStep .new [(false, .updateCurr 1000000000 .default)] = some ctx := ⟨_, rfl⟩
  have hreports : Reports ctx false 1000000000 .default := by
    obtain rfl := Option.some.inj hrun
    decide +kernel
  exact ⟨ctx, hrun, hreports, (reports_iff hrun false 1000000000 .default).mp hreports⟩

/-- A burst of a second is charged the same after one more nanosecond, and the
result is true all the same. -/
theorem reports_on_plateau :
    ¬∀ (calls : List (Bool × BoreOp)) (ctx : BoreCtx), Lts.run anyStep .new calls = some ctx →
      ∀ isKthread deltaNs tunables, Reports ctx isKthread deltaNs tunables := by
  intro h
  exact absurd (h [(false, .updateCurr 1000000000 .default)] _ rfl false 1 .default)
    (by decide +kernel)

end BoreCtx

end Rustlux
