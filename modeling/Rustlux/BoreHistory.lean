import Rustlux.BoreRun

/-!
# Two histories

Two tasks with the same tunables, each a list of bursts. If the first has run
no longer than the second in each of them, it has no larger penalties at the
end and no worse priority (`heavier_history`). Inside a burst the state of a
task depends on two numbers only (`InBurst`): what the bursts before left, and
how long this one has run. Everything in it is monotone in both.
-/

namespace Rustlux

theorem effectivePrio_mono (staticPrioOffset : U8) {score score' : U8} (boreEnabled : Bool)
    (h : score ≤ score') :
    (effectivePrio staticPrioOffset score boreEnabled).val
      ≤ (effectivePrio staticPrioOffset score' boreEnabled).val := by
  have h' : score.toNat ≤ score'.toNat := h
  rw [effectivePrio_eq, effectivePrio_eq, Checked.val_pure, Checked.val_pure, BitVec.le_def,
    BitVec.toNat_ofNat, BitVec.toNat_ofNat]
  cases boreEnabled with
  | false => exact Nat.le_refl _
  | true =>
      simp only [if_true]
      omega

namespace BoreCtx

/-! ## Bursts -/

/-- How long the ticks of a burst run. -/
def burstTotal (ticks : List U64) : Nat := (ticks.map BitVec.toNat).sum

def tickOps (tunables : Tunables) (ticks : List U64) : List BoreOp :=
  ticks.map fun deltaNs => .updateCurr deltaNs tunables

/-- The calls of a list of bursts, each but the last ended by `restart_burst`. -/
def history (tunables : Tunables) : List (List U64) → List BoreOp
  | [] => []
  | [ticks] => tickOps tunables ticks
  | ticks :: next :: rest =>
      tickOps tunables ticks ++ .restartBurst tunables :: history tunables (next :: rest)

/-- A burst that has run for `total`, after bursts that left `prev`. -/
structure InBurst (isKthread : Bool) (params : BoreParams) (prev total : Nat) (ctx : BoreCtx) :
    Prop where
  running : ctx.stopUpdate = false
  burst : ctx.burstTime.toNat = min total (2 ^ 64 - 1)
  prev : ctx.prevPenalty.toNat = prev
  curr : ctx.currPenalty.toNat = penaltyOf params (min total (2 ^ 64 - 1))
  bounded : ctx.Bounded
  effective : ctx.EffectivePenalty isKthread

theorem InBurst.new (isKthread : Bool) (params : BoreParams) :
    InBurst isKthread params 0 0 .new where
  running := rfl
  burst := rfl
  prev := rfl
  curr := (penaltyOf_zero params).symm
  bounded := new_bounded
  effective := new_effectivePenalty isKthread

variable {isKthread : Bool} {tunables : Tunables} {prev total : Nat} {ctx : BoreCtx}

theorem InBurst.tick (h : InBurst isKthread tunables.val prev total ctx) (deltaNs : U64) :
    InBurst isKthread tunables.val prev (total + deltaNs.toNat)
      (ctx.after isKthread (.updateCurr deltaNs tunables)) := by
  obtain ⟨hburst, hprev, hcurr⟩ := after_tick h.running isKthread deltaNs tunables
  have htotal := toNat_saturatingAdd_capped h.burst deltaNs
  refine ⟨?_, hburst ▸ htotal, hprev ▸ h.prev, ?_, h.bounded.after _ _, ?_⟩
  · rw [after_stopUpdate, h.running]
  · rw [hcurr, toNat_charged_curr, htotal]
  · -- the penalty of a burst only grows while the tunables stay
    refine (h.effective.after_iff h.bounded h.running _).mpr ?_
    have hgrows : ctx.currPenalty.toNat
        ≤ penaltyOf tunables.val (saturatingAdd ctx.burstTime deltaNs).toNat := by
      rw [h.curr, htotal]
      exact penaltyOf_mono _ (by omega)
    by_cases hle : ctx.currPenalty.toNat ≤ ctx.prevPenalty.toNat
    · exact .inr (.inl hle)
    · exact keeps_of_lt isKthread (Nat.lt_of_lt_of_le (Nat.lt_of_not_le hle) hgrows)

theorem InBurst.ticks {ticks : List U64} {ctx' : BoreCtx}
    (h : InBurst isKthread tunables.val prev total ctx)
    (hrun : Lts.run (step isKthread) ctx (tickOps tunables ticks) = some ctx') :
    InBurst isKthread tunables.val prev (total + burstTotal ticks) ctx' := by
  induction ticks generalizing ctx total with
  | nil =>
      cases hrun
      exact h
  | cons deltaNs ticks ih =>
      rw [tickOps, List.map_cons, Lts.run_cons (step_eq ..)] at hrun
      have hticks := ih (h.tick deltaNs) hrun
      rw [burstTotal, List.map_cons, List.sum_cons, ← Nat.add_assoc]
      exact hticks

theorem InBurst.restart (h : InBurst isKthread tunables.val prev total ctx) :
    InBurst isKthread tunables.val
      (smoothed tunables.val (penaltyOf tunables.val (min total (2 ^ 64 - 1))) prev) 0
      (ctx.after isKthread (.restartBurst tunables)) := by
  refine ⟨h.running, rfl, ?_, (penaltyOf_zero _).symm, h.bounded.after _ _,
    (h.effective.after_iff h.bounded h.running _).mpr trivial⟩
  rw [← h.curr, ← h.prev]
  exact toNat_restarted_prev ctx tunables.val

/-! ## Side by side -/

variable {prev' total' : Nat} {ctx' : BoreCtx}

/-- The first of two tasks has run for less, in this burst and before. -/
theorem InBurst.le (h : InBurst isKthread tunables.val prev total ctx)
    (h' : InBurst isKthread tunables.val prev' total' ctx') (hprev : prev ≤ prev')
    (htotal : total ≤ total') :
    ctx.prevPenalty ≤ ctx'.prevPenalty ∧ ctx.currPenalty ≤ ctx'.currPenalty
      ∧ ctx.penalty ≤ ctx'.penalty ∧ ctx.score ≤ ctx'.score := by
  have hp : ctx.prevPenalty.toNat ≤ ctx'.prevPenalty.toNat := by
    rw [h.prev, h'.prev]
    exact hprev
  have hc : ctx.currPenalty.toNat ≤ ctx'.currPenalty.toNat := by
    rw [h.curr, h'.curr]
    exact penaltyOf_mono _ (by omega)
  have hpen : ctx.penalty.toNat ≤ ctx'.penalty.toNat := by
    rw [h.effective.penalty, h'.effective.penalty]
    cases isKthread with
    | true => exact Nat.le_refl _
    | false =>
        simp only [Bool.false_eq_true, if_false]
        omega
  refine ⟨hp, hc, hpen, ?_⟩
  rw [h.effective.score, h'.effective.score]
  exact highByte_mono hpen

/-- Two runs from the start of a burst to the end of the last one. -/
theorem InBurst.histories {bursts bursts' : List (List U64)}
    (hle : List.Forall₂ (fun ticks ticks' => burstTotal ticks ≤ burstTotal ticks') bursts bursts')
    {last last' : BoreCtx} (h : InBurst isKthread tunables.val prev 0 ctx)
    (h' : InBurst isKthread tunables.val prev' 0 ctx') (hprev : prev ≤ prev')
    (hrun : Lts.run (step isKthread) ctx (history tunables bursts) = some last)
    (hrun' : Lts.run (step isKthread) ctx' (history tunables bursts') = some last') :
    ∃ p p' n n', p ≤ p' ∧ n ≤ n' ∧ InBurst isKthread tunables.val p n last
      ∧ InBurst isKthread tunables.val p' n' last' := by
  induction hle generalizing prev prev' ctx ctx' with
  | nil =>
      cases hrun
      cases hrun'
      exact ⟨prev, prev', 0, 0, hprev, Nat.le_refl _, h, h'⟩
  | @cons ticks ticks' rest rest' hticks hrest ih =>
      cases hrest with
      | nil =>
          have hlast := h.ticks hrun
          have hlast' := h'.ticks hrun'
          exact ⟨_, _, _, _, hprev, Nat.add_le_add_left hticks 0, hlast, hlast'⟩
      | cons hnext hrest =>
          rw [history, Lts.run_append, Option.bind_eq_some_iff] at hrun hrun'
          obtain ⟨mid, hmid, hrun⟩ := hrun
          obtain ⟨mid', hmid', hrun'⟩ := hrun'
          rw [Lts.run_cons (step_eq ..)] at hrun hrun'
          refine ih (h.ticks hmid).restart (h'.ticks hmid').restart ?_ hrun hrun'
          exact smoothed_mono _ (penaltyOf_mono _ (by omega)) hprev

/-- **A heavier history never earns a better priority.** -/
theorem heavier_history {isKthread : Bool} {tunables : Tunables} {bursts bursts' : List (List U64)}
    {ctx ctx' : BoreCtx}
    (hle : List.Forall₂ (fun ticks ticks' => burstTotal ticks ≤ burstTotal ticks') bursts bursts')
    (hrun : Lts.run (step isKthread) .new (history tunables bursts) = some ctx)
    (hrun' : Lts.run (step isKthread) .new (history tunables bursts') = some ctx') :
    (ctx.prevPenalty ≤ ctx'.prevPenalty ∧ ctx.currPenalty ≤ ctx'.currPenalty
        ∧ ctx.penalty ≤ ctx'.penalty ∧ ctx.score ≤ ctx'.score)
      ∧ ∀ staticPrioOffset boreEnabled,
          (effectivePrio staticPrioOffset ctx.score boreEnabled).val
            ≤ (effectivePrio staticPrioOffset ctx'.score boreEnabled).val := by
  obtain ⟨p, p', n, n', hp, hn, h, h'⟩ :=
    (InBurst.new isKthread tunables.val).histories hle (.new ..) (Nat.le_refl 0) hrun hrun'
  have hpens := h.le h' hp hn
  exact ⟨hpens, fun s boreEnabled => effectivePrio_mono s boreEnabled hpens.2.2.2⟩

/-- One long burst against two ticks, then a short one against none. -/
theorem heavier_two_bursts :
    ∃ ctx ctx', Lts.run (step false) .new (history .default [[600000000], []]) = some ctx
      ∧ Lts.run (step false) .new
          (history .default [[500000000, 500000000], [2000000]]) = some ctx'
      ∧ ctx.penalty ≤ ctx'.penalty := by
  have hrun : Lts.run (step false) .new (history .default [[600000000], []]) = some _ := rfl
  have hrun' : Lts.run (step false) .new
      (history .default [[500000000, 500000000], [2000000]]) = some _ := rfl
  have hle : List.Forall₂ (fun ticks ticks' => burstTotal ticks ≤ burstTotal ticks')
      [[600000000], []] [[500000000, 500000000], [2000000]] :=
    .cons (by decide) (.cons (by decide) .nil)
  exact ⟨_, _, hrun, hrun', (heavier_history hle hrun hrun').1.2.2.1⟩

end BoreCtx

end Rustlux
