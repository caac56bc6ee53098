import Rustlux.BoreHistory

/-!
# A steady workload

A task that runs for the same time in every burst. From the second burst on each
of them is charged the same penalty (`charge_from_second`), whatever context the
task came from, and the smoothed penalty goes towards it: down at once, up by
one `2 ^ s`-th of the way, rounded up. The rounding is what makes it arrive; it
never goes past, and stays (`steady_workload`).
-/

open FixedPoint (approach)

namespace Rustlux

namespace BoreCtx

/-! ## Bursts on end -/

section Bursts

variable (isKthread : Bool) (tunables : Tunables)

/-- The context at the end of a burst of these ticks, before the task sleeps. -/
def endOfBurst (ctx : BoreCtx) (ticks : List U64) : BoreCtx :=
  (tickOps tunables ticks).foldl (fun ctx op => (op.call isKthread ctx).val) ctx

/-- The context after `k` bursts, each ended by `restart_burst`. -/
def afterBursts (bursts : Nat → List U64) (ctx : BoreCtx) : Nat → BoreCtx
  | 0 => ctx
  | k + 1 =>
      let last := endOfBurst isKthread tunables (afterBursts bursts ctx k) (bursts k)
      ((BoreOp.restartBurst tunables).call isKthread last).val

/-- The penalty that burst `k` gives. -/
def charge (bursts : Nat → List U64) (ctx : BoreCtx) (k : Nat) : U16 :=
  (endOfBurst isKthread tunables (afterBursts isKthread tunables bursts ctx k)
    (bursts k)).currPenalty

end Bursts

variable {isKthread : Bool} {tunables : Tunables} {bursts : Nat → List U64} {ctx : BoreCtx}

/-! ## Inside a burst -/

theorem endOfBurst_cons (deltaNs : U64) (ticks : List U64) :
    endOfBurst isKthread tunables ctx (deltaNs :: ticks)
      = endOfBurst isKthread tunables (ctx.after isKthread (.updateCurr deltaNs tunables))
          ticks := by
  rw [endOfBurst, tickOps, List.map_cons, List.foldl_cons, call_eq, Checked.val_pure]
  rfl

theorem after_tick_prev (isKthread : Bool) (ctx : BoreCtx) (deltaNs : U64) :
    (ctx.after isKthread (.updateCurr deltaNs tunables)).prevPenalty = ctx.prevPenalty := by
  simp only [BoreCtx.after]
  split
  · rfl
  · split <;> rfl

/-- Ticks neither touch the previous penalty nor stop the updates. -/
theorem endOfBurst_frame (isKthread : Bool) (tunables : Tunables) (ticks : List U64) :
    ∀ ctx : BoreCtx, (endOfBurst isKthread tunables ctx ticks).prevPenalty = ctx.prevPenalty
      ∧ (endOfBurst isKthread tunables ctx ticks).stopUpdate = ctx.stopUpdate := by
  induction ticks with
  | nil =>
      intro ctx
      exact ⟨rfl, rfl⟩
  | cons deltaNs ticks ih =>
      intro ctx
      obtain ⟨hprev, hstop⟩ := ih (ctx.after isKthread (.updateCurr deltaNs tunables))
      rw [endOfBurst_cons, hprev, hstop, after_tick_prev, after_stopUpdate]
      exact ⟨rfl, rfl⟩

theorem endOfBurst_stopped (hstop : ctx.stopUpdate = true) (ticks : List U64) :
    endOfBurst isKthread tunables ctx ticks = ctx := by
  induction ticks with
  | nil => rfl
  | cons deltaNs ticks ih =>
      have htick : ctx.after isKthread (.updateCurr deltaNs tunables) = ctx := if_pos hstop
      rw [endOfBurst_cons, htick, ih]

/-- A running task is charged for the whole burst, capped. -/
theorem endOfBurst_curr {total : Nat} {ticks : List U64} (hrunning : ctx.stopUpdate = false)
    (hburst : ctx.burstTime.toNat = min total (2 ^ 64 - 1))
    (hcurr : ctx.currPenalty.toNat = penaltyOf tunables.val (min total (2 ^ 64 - 1))) :
    (endOfBurst isKthread tunables ctx ticks).currPenalty.toNat
      = penaltyOf tunables.val (min (total + burstTotal ticks) (2 ^ 64 - 1)) := by
  induction ticks generalizing ctx total with
  | nil => exact hcurr
  | cons deltaNs ticks ih =>
      obtain ⟨hburst', -, hcurr'⟩ := after_tick hrunning isKthread deltaNs tunables
      have htotal := toNat_saturatingAdd_capped hburst deltaNs
      rw [endOfBurst_cons, burstTotal, List.map_cons, List.sum_cons, ← Nat.add_assoc]
      refine ih ?_ (hburst' ▸ htotal) ?_
      · rw [after_stopUpdate, hrunning]
      · rw [hcurr', toNat_charged_curr, htotal]

/-! ## From burst to burst -/

theorem afterBursts_succ (k : Nat) :
    afterBursts isKthread tunables bursts ctx (k + 1)
      = (endOfBurst isKthread tunables (afterBursts isKthread tunables bursts ctx k)
          (bursts k)).after isKthread (.restartBurst tunables) := by
  rw [afterBursts, call_eq, Checked.val_pure]

theorem afterBursts_stopUpdate (k : Nat) :
    (afterBursts isKthread tunables bursts ctx k).stopUpdate = ctx.stopUpdate := by
  induction k with
  | zero => rfl
  | succ k ih => rw [afterBursts_succ, after_stopUpdate, (endOfBurst_frame ..).2, ih]

/-- The previous penalty takes one step towards the penalty of the burst. -/
theorem afterBursts_prev (k : Nat) :
    (afterBursts isKthread tunables bursts ctx (k + 1)).prevPenalty.toNat
      = smoothed tunables.val (charge isKthread tunables bursts ctx k).toNat
          (afterBursts isKthread tunables bursts ctx k).prevPenalty.toNat := by
  have hprev := toNat_restarted_prev
    (endOfBurst isKthread tunables (afterBursts isKthread tunables bursts ctx k) (bursts k))
    tunables.val
  rw [(endOfBurst_frame ..).1] at hprev
  rw [afterBursts_succ]
  exact hprev

/-- After its first restart a task starts every burst from nothing, so the
bursts of one total are all charged the same. -/
theorem charge_from_second {total : Nat} (hbursts : ∀ k, burstTotal (bursts k) = total) (k : Nat) :
    (charge isKthread tunables bursts ctx (k + 1)).toNat
      = if ctx.stopUpdate then 0 else penaltyOf tunables.val (min total (2 ^ 64 - 1)) := by
  have hstop := @afterBursts_stopUpdate isKthread tunables bursts ctx (k + 1)
  have hburst : (afterBursts isKthread tunables bursts ctx (k + 1)).burstTime = 0 := by
    rw [afterBursts_succ]
    rfl
  have hcurr : (afterBursts isKthread tunables bursts ctx (k + 1)).currPenalty = 0 := by
    rw [afterBursts_succ]
    rfl
  rw [charge]
  cases hrunning : ctx.stopUpdate with
  | true =>
      rw [endOfBurst_stopped (hstop.trans hrunning), hcurr]
      rfl
  | false =>
      have h := @endOfBurst_curr isKthread tunables _ 0 (bursts (k + 1)) (hstop.trans hrunning)
        (by rw [hburst]; rfl) (by rw [hcurr]; exact (penaltyOf_zero _).symm)
      rw [Nat.zero_add, hbursts] at h
      exact h

/-! ## Convergence -/

/-- From index `m` on a sequence of penalties moves monotonically to `n`,
reaches it and stays. -/
structure Converges (prev : Nat → U16) (m : Nat) (n : U16) : Prop where
  reached : ∃ last, ∀ k ≥ last, prev k = n
  rise : prev m ≤ n → ∀ k ≥ m, prev k ≤ prev (k + 1) ∧ prev (k + 1) ≤ n
  fall : n ≤ prev m → ∀ k > m, prev k = n

/-- Bursts that give `n` from the `m`-th on take the previous penalty there. -/
theorem converges_of_charge {m : Nat} {n : U16}
    (hcharge : ∀ k ≥ m, charge isKthread tunables bursts ctx k = n) :
    Converges (fun k => (afterBursts isKthread tunables bursts ctx k).prevPenalty) m n := by
  generalize hprev : (fun k => (afterBursts isKthread tunables bursts ctx k).prevPenalty) = prev
  have hpos : 0 < 2 ^ tunables.val.burstSmoothness.toNat := Nat.two_pow_pos _
  have hstep : ∀ j, (prev (m + (j + 1))).toNat
      = approach (2 ^ tunables.val.burstSmoothness.toNat) n.toNat (prev (m + j)).toNat := by
    intro j
    rw [← hprev, ← hcharge (m + j) (Nat.le_add_right m j)]
    exact afterBursts_prev (m + j)
  have hindex : ∀ k ≥ m, ∃ j, k = m + j := fun k hk => ⟨k - m, by omega⟩
  refine ⟨⟨m + (n.toNat + 1), ?_⟩, ?_, ?_⟩
  · intro k hk
    obtain ⟨j, rfl⟩ := hindex k (by omega)
    exact BitVec.eq_of_toNat_eq
      (FixedPoint.steps_reach (x := fun j => (prev (m + j)).toNat) hpos hstep (by omega))
  · intro hle k hk
    obtain ⟨j, rfl⟩ := hindex k hk
    exact FixedPoint.steps_rise (x := fun j => (prev (m + j)).toNat) hpos hstep hle j
  · intro hle k hk
    obtain ⟨j, rfl⟩ : ∃ j, k = m + (j + 1) := ⟨k - m - 1, by omega⟩
    exact BitVec.eq_of_toNat_eq
      (FixedPoint.steps_fall (x := fun j => (prev (m + j)).toNat) hstep hle j)

/-- `binary_smooth` on penalties, as a step of the way. -/
theorem binarySmooth_step {smoothness : U8} (hs : smoothness.toNat ≤ 3) (new old : U16) :
    let smooth := binarySmooth (new.setWidth 32) (old.setWidth 32) smoothness
    smooth.ok = true
      ∧ smooth.val.toNat = approach (2 ^ smoothness.toNat) new.toNat old.toNat := by
  obtain ⟨params, hp, rfl⟩ :
      ∃ params : BoreParams, params.InRange ∧ params.burstSmoothness = smoothness :=
    ⟨{ BoreParams.default with burstSmoothness := smoothness },
      ⟨hs, Tunables.default.property.offset, Tunables.default.property.scale⟩, rfl⟩
  have hnew : (new.setWidth 32).toNat = new.toNat := BitVec.toNat_setWidth_of_le (by decide)
  have hold : (old.setWidth 32).toNat = old.toNat := BitVec.toNat_setWidth_of_le (by decide)
  have hlt := smoothed_lt params new old
  have heq := @binarySmooth_eq params hp (new.setWidth 32) (old.setWidth 32)
    (by rw [hnew]; exact new.isLt)
  rw [hnew, hold] at heq
  intro smooth
  have hsmooth : smooth = pure (BitVec.ofNat 32 (smoothed params new.toNat old.toNat)) := heq
  rw [hsmooth, Checked.ok_pure, Checked.val_pure, BitVec.toNat_ofNat, Nat.mod_eq_of_lt (by omega)]
  exact ⟨rfl, rfl⟩

/-- What one `binary_smooth` does: a fall is immediate, and a rise moves on,
not past the target, leaving the gap scaled down and rounded down. -/
structure Smooths (smoothness : U8) (new old : U16) (smooth : Checked U32) : Prop where
  exact : smooth.ok = true
  fall : new ≤ old → smooth.val = new.setWidth 32
  rise : old < new → old.toNat < smooth.val.toNat ∧ smooth.val.toNat ≤ new.toNat
    ∧ new.toNat - smooth.val.toNat
      = (new.toNat - old.toNat) * (2 ^ smoothness.toNat - 1) / 2 ^ smoothness.toNat

theorem binarySmooth_smooths {smoothness : U8} (hs : smoothness.toNat ≤ 3) (new old : U16) :
    Smooths smoothness new old
      (binarySmooth (new.setWidth 32) (old.setWidth 32) smoothness) := by
  have hpos := Nat.two_pow_pos smoothness.toNat
  obtain ⟨hok, hval⟩ := binarySmooth_step hs new old
  refine ⟨hok, ?_, ?_⟩
  · intro hle
    refine BitVec.eq_of_toNat_eq ?_
    rw [hval, FixedPoint.approach_of_le hle, BitVec.toNat_setWidth_of_le (by decide)]
  · intro hlt
    rw [hval]
    exact ⟨FixedPoint.lt_approach hpos hlt, FixedPoint.approach_le_target hpos (Nat.le_of_lt hlt),
      FixedPoint.approach_gap hpos hlt⟩

/-- **A steady workload's penalty converges exactly and never overshoots.** From the second
burst on it is charged the penalty of the total. -/
theorem steady_workload {total : Nat} (hbursts : ∀ k, burstTotal (bursts k) = total) :
    (∀ smoothness : U8, smoothness.toNat ≤ 3 → ∀ new old : U16,
        Smooths smoothness new old
          (binarySmooth (new.setWidth 32) (old.setWidth 32) smoothness))
      ∧ (∃ n : U16,
          n.toNat = (if ctx.stopUpdate then 0 else penaltyOf tunables.val (min total (2 ^ 64 - 1)))
            ∧ ∀ k ≥ 1, charge isKthread tunables bursts ctx k = n)
      ∧ ∀ m n, (∀ k ≥ m, charge isKthread tunables bursts ctx k = n) →
          Converges (fun k => (afterBursts isKthread tunables bursts ctx k).prevPenalty) m n := by
  refine ⟨fun _ hs => binarySmooth_smooths hs,
    ⟨charge isKthread tunables bursts ctx 1, charge_from_second hbursts 0, ?_⟩,
    fun _ _ => converges_of_charge⟩
  intro k hk
  obtain ⟨j, rfl⟩ : ∃ j, k = j + 1 := ⟨k - 1, by omega⟩
  exact BitVec.eq_of_toNat_eq
    ((charge_from_second hbursts j).trans (charge_from_second hbursts 0).symm)

/-- Seconds on end, from the empty context. -/
theorem steady_seconds :
    (∀ k ≥ 1, charge false .default (fun _ => [1000000000]) .new k = 2634)
      ∧ Converges (fun k =>
          (afterBursts false .default (fun _ => [1000000000]) .new k).prevPenalty) 1 2634 := by
  have hbursts : ∀ k : Nat, burstTotal ((fun _ => [1000000000]) k) = 1000000000 := fun _ => rfl
  obtain ⟨-, ⟨n, hvalue, hn⟩, hconverges⟩ :=
    @steady_workload false .default (fun _ => [1000000000]) .new 1000000000 hbursts
  obtain rfl : n = 2634 := by
    refine BitVec.eq_of_toNat_eq (hvalue.trans ?_)
    decide +kernel
  exact ⟨hn, hconverges 1 2634 hn⟩

end BoreCtx

end Rustlux
