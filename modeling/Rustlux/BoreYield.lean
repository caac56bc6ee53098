import Rustlux.BoreWeights

/-!
# The deadline of a task that yields

`rescale_slice` and `restart_burst_rescale_deadline_bore` of `bore.c`. A task
that yields ends its burst; its penalty, and with it its priority, may get
better, and what is left to its virtual deadline is then scaled from the old
weight to the new one.

The priority gets no worse where the penalty is up to date (`UpToDate`), as
`update_penalty` leaves it. A fork with `sched_bore` off by a kernel thread makes
a user task that is not; its first yield may then reweight it to a worse one.

From the first yield on, or for a task that is up to date, the deadline stays on
its side of the virtual runtime and comes no farther from it, however often the
task yields (`yields_near`). Each time the deadline moves, the time that is left
at the task's weight stays what it was, to within a 2^15th part and the two
roundings (`yield_keeps_time`).
-/

namespace Rustlux.BoreC

/-! ## The source -/

/-- `mul_u64_u32_shr`, over 128 bits. -/
def mulU64U32Shr (a : U64) (mul : U32) (shift : Nat) : U64 :=
  ((a.setWidth 128 * mul.setWidth 128) >>> shift).setWidth 64

/-- The fields of `struct sched_entity`. -/
structure SchedEntity where
  vruntime : U64
  deadline : U64
deriving DecidableEq, Repr

/-- `abs` of an `s64`, as the `u64` it is passed for. -/
def absS64 (x : U64) : U64 := if x.msb then -x else x

section Code

variable (tables : PrioTables)

def rescaleSlice (delta : U64) (oldPrio newPrio : U8) : U64 :=
  let unscaled := mulU64U32Shr delta ((tables.schedPrioToWeight oldPrio).setWidth 32) 10
  mulU64U32Shr unscaled (tables.schedPrioToWmult newPrio) 22

/-- What a yield finds: the tunables and the static key, the calls of its reweight,
and what the reweight does to the entity. -/
structure Yield where
  params : Tunables
  boreKey : Bool
  inner : NestedCalls
  reweighted : SchedEntity → SchedEntity

def Yield.globals (y : Yield) : Globals :=
  { params := y.params, boreKey := y.boreKey, tables }

/-- The reweight of `restart_burst_bore` comes before the deadline is set. -/
def restartBurstRescaleDeadlineBore (y : Yield) (p : TaskStruct) (se : SchedEntity) :
    TaskStruct × SchedEntity :=
  let globals := y.globals tables
  let vremain := se.deadline - se.vruntime
  let oldPrio := globals.prio p
  let p := restartBurstBore globals (nestedCalls globals y.inner) p
  let newPrio := globals.prio p
  let se := if newPrio ≠ oldPrio ∧ !p.hasIdlePolicy ∧ p.onRq then y.reweighted se else se
  if oldPrio > newPrio then
    let vscaled := rescaleSlice tables (absS64 vremain) oldPrio newPrio
    let vscaled := if vremain.msb then -vscaled else vscaled
    (p, { se with deadline := se.vruntime + vscaled })
  else (p, se)

/-- A tick, with what it does to the entity, or a yield. -/
inductive BurstCall where
  | tick (params : Tunables) (boreKey : Bool) (deltaExec : U64) (inner : NestedCalls)
      (moved : SchedEntity → SchedEntity)
  | yield (y : Yield)

def BurstCall.apply (x : TaskStruct × SchedEntity) : BurstCall → TaskStruct × SchedEntity
  | .tick params boreKey deltaExec inner moved =>
      let globals : Globals := { params, boreKey, tables }
      (updateCurrBore globals (nestedCalls globals inner) x.1 deltaExec, moved x.2)
  | .yield y => restartBurstRescaleDeadlineBore tables y x.1 x.2

def burstRun (calls : List BurstCall) (x : TaskStruct × SchedEntity) : TaskStruct × SchedEntity :=
  calls.foldl (BurstCall.apply tables) x

end Code

/-- How far the deadline is ahead. -/
def SchedEntity.remaining (se : SchedEntity) : Int := (se.deadline - se.vruntime).toInt

/-- What the tables hold is what their names say: the weights of 40 priorities,
the smaller ones larger, and about `2 ^ 32` over each. -/
structure PrioTables.Inverse (tables : PrioTables) : Prop where
  weight_lt : ∀ prio : U8, prio.toNat ≤ 39 → (tables.schedPrioToWeight prio).toNat < 2 ^ 17
  weight_pos : ∀ prio : U8, prio.toNat ≤ 39 → 0 < (tables.schedPrioToWeight prio).toNat
  wmult : ∀ prio : U8, prio.toNat ≤ 39 →
    2 ^ 32 ≤ (tables.schedPrioToWeight prio).toNat * (tables.schedPrioToWmult prio).toNat
        + (tables.schedPrioToWeight prio).toNat
      ∧ (tables.schedPrioToWeight prio).toNat * (tables.schedPrioToWmult prio).toNat
        ≤ 2 ^ 32 + (tables.schedPrioToWeight prio).toNat
  shrink : ∀ old : U8, old.toNat ≤ 39 → ∀ new : U8, new.toNat < old.toNat →
    (tables.schedPrioToWeight old).toNat * (tables.schedPrioToWmult new).toNat ≤ 2 ^ 32

theorem kernelTables_inverse : kernelTables.Inverse where
  weight_lt := by decide +kernel
  weight_pos := by decide +kernel
  wmult := by decide +kernel
  shrink := by decide +kernel

/-! ## Scaling -/

section Scaling

theorem toNat_mulU64U32Shr (a : U64) (mul : U32) (shift : Nat) :
    (mulU64U32Shr a mul shift).toNat = a.toNat * mul.toNat / 2 ^ shift % 2 ^ 64 := by
  have hproduct : a.toNat * mul.toNat < 2 ^ 64 * 2 ^ 32 :=
    Nat.mul_lt_mul'' a.isLt mul.isLt
  rw [mulU64U32Shr, BitVec.toNat_setWidth, BitVec.toNat_ushiftRight, BitVec.toNat_mul,
    BitVec.toNat_setWidth_of_le (by decide), BitVec.toNat_setWidth_of_le (by decide),
    Nat.mod_eq_of_lt (b := 2 ^ 128) (by omega), Nat.shiftRight_eq_div_pow]

variable {tables : PrioTables} (hinv : tables.Inverse) (delta : U64) {old new : U8}
include hinv

theorem toNat_rescaleSlice (hold : old.toNat ≤ 39) :
    (rescaleSlice tables delta old new).toNat
      = delta.toNat * (tables.schedPrioToWeight old).toNat / 2 ^ 10 % 2 ^ 64
          * (tables.schedPrioToWmult new).toNat / 2 ^ 22 % 2 ^ 64 := by
  have hweight : ((tables.schedPrioToWeight old).setWidth 32).toNat
      = (tables.schedPrioToWeight old).toNat := by
    have := hinv.weight_lt old hold
    rw [BitVec.toNat_setWidth, Nat.mod_eq_of_lt (by omega)]
  rw [rescaleSlice, toNat_mulU64U32Shr, toNat_mulU64U32Shr, hweight]

/-- Even where the first product overflows. -/
theorem rescaleSlice_le (hold : old.toNat ≤ 39) (hnew : new.toNat < old.toNat) :
    (rescaleSlice tables delta old new).toNat ≤ delta.toNat := by
  rw [toNat_rescaleSlice hinv delta hold]
  calc delta.toNat * (tables.schedPrioToWeight old).toNat / 2 ^ 10 % 2 ^ 64
          * (tables.schedPrioToWmult new).toNat / 2 ^ 22 % 2 ^ 64
      ≤ delta.toNat * (tables.schedPrioToWeight old).toNat / 2 ^ 10 % 2 ^ 64
          * (tables.schedPrioToWmult new).toNat / 2 ^ 22 := Nat.mod_le _ _
    _ ≤ FixedPoint.rescale (2 ^ 10) (2 ^ 22) delta.toNat (tables.schedPrioToWeight old).toNat
          (tables.schedPrioToWmult new).toNat :=
        Nat.div_le_div_right (Nat.mul_le_mul_right _ (Nat.mod_le _ _))
    _ ≤ delta.toNat :=
        FixedPoint.rescale_le (by decide) (by decide) (hinv.shrink old hold new hnew)

theorem rescaleSlice_eq (hold : old.toNat ≤ 39) (hnew : new.toNat < old.toNat)
    (hfit : delta.toNat * (tables.schedPrioToWeight old).toNat < 2 ^ 74) :
    (rescaleSlice tables delta old new).toNat
      = FixedPoint.rescale (2 ^ 10) (2 ^ 22) delta.toNat (tables.schedPrioToWeight old).toNat
          (tables.schedPrioToWmult new).toNat := by
  have hle : FixedPoint.rescale (2 ^ 10) (2 ^ 22) delta.toNat
      (tables.schedPrioToWeight old).toNat (tables.schedPrioToWmult new).toNat ≤ delta.toNat :=
    FixedPoint.rescale_le (by decide) (by decide) (hinv.shrink old hold new hnew)
  have hfirst : delta.toNat * (tables.schedPrioToWeight old).toNat / 2 ^ 10 < 2 ^ 64 :=
    Nat.div_lt_of_lt_mul hfit
  rw [toNat_rescaleSlice hinv delta hold, Nat.mod_eq_of_lt hfirst]
  exact Nat.mod_eq_of_lt (Nat.lt_of_le_of_lt hle delta.isLt)

end Scaling

/-! ## Signs -/

theorem toNat_absS64 (x : U64) : (absS64 x).toNat = x.toInt.natAbs := by
  rw [absS64, BitVec.toInt_eq_msb_cond]
  have hx := x.isLt
  cases hmsb : x.msb with
  | false =>
      rw [if_neg (by decide), if_neg (by decide)]
      rfl
  | true =>
      rw [if_pos rfl, if_pos rfl, BitVec.toNat_neg]
      have hlow : 2 ^ 63 ≤ x.toNat := by
        rw [BitVec.msb_eq_decide, decide_eq_true_eq] at hmsb
        exact hmsb
      omega

/-- A distance no larger than that of `x`, with its sign. -/
theorem toInt_signed {x v : U64} (h : v.toNat ≤ x.toInt.natAbs) :
    (if x.msb then -v else v).toInt = if x.msb then -(v.toNat : Int) else v.toNat := by
  have hx := BitVec.toInt_eq_msb_cond x
  have hlt := x.isLt
  cases hmsb : x.msb with
  | false =>
      rw [hmsb, if_neg (by decide)] at hx
      have hlow : x.toNat < 2 ^ 63 := by
        rw [BitVec.msb_eq_decide, decide_eq_false_iff_not] at hmsb
        omega
      rw [if_neg (by decide), if_neg (by decide)]
      exact BitVec.toInt_eq_toNat_of_lt (by omega)
  | true =>
      rw [hmsb, if_pos rfl] at hx
      have hlow : 2 ^ 63 ≤ x.toNat := by
        rw [BitVec.msb_eq_decide, decide_eq_true_eq] at hmsb
        exact hmsb
      rw [if_pos rfl, if_pos rfl, BitVec.toInt_eq_toNat_cond, BitVec.toNat_neg]
      split <;> omega

/-! ## Priorities -/

/-- Between calls, a task with a nice level. -/
structure TaskStruct.Niced (tables : PrioTables) (p : TaskStruct) : Prop where
  running : p.bore.stopUpdate = false
  nice : ∃ s : U8, s.toNat ≤ 39 ∧ p.staticPrio - tables.maxRtPrio = s.setWidth 32

/-- The penalty is no smaller than the two that it is made from. -/
def TaskStruct.UpToDate (p : TaskStruct) : Prop :=
  (p.bore.effective p.isKthread).toNat ≤ p.bore.penalty.toNat

instance (p : TaskStruct) : Decidable p.UpToDate :=
  inferInstanceAs (Decidable (_ ≤ _))

section Priorities

variable {tables : PrioTables} {globals : Globals} {inner : NestedCalls} {p : TaskStruct}

theorem toNat_effective (ctx : BoreCtx) (isKthread : Bool) :
    (ctx.effective isKthread).toNat
      = if isKthread then 0 else max ctx.currPenalty.toNat ctx.prevPenalty.toNat := by
  rw [BoreCtx.effective]
  cases isKthread with
  | true => rfl
  | false =>
      rw [if_neg Bool.false_ne_true, if_neg Bool.false_ne_true]
      split
      · next hlt =>
          have hlt' : ctx.currPenalty.toNat < ctx.prevPenalty.toNat := hlt
          omega
      · next hge =>
          have hge' : ¬ctx.currPenalty.toNat < ctx.prevPenalty.toNat := hge
          omega

theorem updatePenalty_niced (h : p.Niced tables) :
    (updatePenalty globals (nestedCalls globals inner) p).Niced tables := by
  rw [updatePenalty_eq globals h.running]
  exact ⟨h.running, h.nice⟩

theorem updatePenalty_upToDate (hrunning : p.bore.stopUpdate = false) :
    (updatePenalty globals (nestedCalls globals inner) p).UpToDate := by
  rw [updatePenalty_eq globals hrunning]
  exact Nat.le_refl _

theorem updateCurrBore_niced (h : p.Niced tables) (deltaExec : U64) :
    (updateCurrBore globals (nestedCalls globals inner) p deltaExec).Niced tables := by
  have hrunning : ¬p.bore.stopUpdate = true := by simp [h.running]
  rw [updateCurrBore, if_neg hrunning]
  dsimp only
  split
  · exact ⟨h.running, h.nice⟩
  · exact updatePenalty_niced ⟨h.running, h.nice⟩

/-- A tick charges no more than the previous penalty, or brings the penalty up to date. -/
theorem updateCurrBore_upToDate (hrunning : p.bore.stopUpdate = false) (h : p.UpToDate)
    (deltaExec : U64) :
    (updateCurrBore globals (nestedCalls globals inner) p deltaExec).UpToDate := by
  have hgo : ¬p.bore.stopUpdate = true := by simp [hrunning]
  rw [updateCurrBore, if_neg hgo]
  dsimp only
  split
  · next hle =>
      have hle' := BitVec.le_def.mp hle
      refine Nat.le_trans ?_ h
      rw [toNat_effective, toNat_effective]
      dsimp only
      split <;> omega
  · exact updatePenalty_upToDate hrunning

variable (globals inner) in
/-- The smoothed penalty is what the next burst starts with. -/
theorem restartBurstBore_eq (hrunning : p.bore.stopUpdate = false) :
    let ctx : BoreCtx :=
      { p.bore with
        prevPenalty := (binarySmooth globals.params.val (p.bore.currPenalty.setWidth 32)
          (p.bore.prevPenalty.setWidth 32)).setWidth 16
        currPenalty := 0
        burstTime := 0 }
    ∃ load, restartBurstBore globals (nestedCalls globals inner) p
      = (TaskStruct.withPenalty { p with bore := ctx } (ctx.effective p.isKthread)).withLoad
          load := by
  intro ctx
  have hctx : ({ p with bore := ctx } : TaskStruct).bore.stopUpdate = false := hrunning
  exact ⟨_, updatePenalty_eq globals hctx⟩

theorem restartBurstBore_niced (h : p.Niced tables) :
    (restartBurstBore globals (nestedCalls globals inner) p).Niced tables := by
  exact updatePenalty_niced ⟨h.running, h.nice⟩

theorem restartBurstBore_upToDate (hrunning : p.bore.stopUpdate = false) :
    (restartBurstBore globals (nestedCalls globals inner) p).UpToDate := by
  exact updatePenalty_upToDate hrunning

/-- The end of a burst takes penalty off, or leaves it. -/
theorem restartBurstBore_penalty_le (hrunning : p.bore.stopUpdate = false) (h : p.UpToDate) :
    (restartBurstBore globals (nestedCalls globals inner) p).bore.penalty.toNat
      ≤ p.bore.penalty.toNat := by
  have hprev : ((binarySmooth globals.params.val (p.bore.currPenalty.setWidth 32)
      (p.bore.prevPenalty.setWidth 32)).setWidth 16).toNat
        ≤ max p.bore.currPenalty.toNat p.bore.prevPenalty.toNat := by
    have hview := congrArg (·.prevPenalty.toNat) (view_restarted p.bore globals.params)
    have hsmooth := Rustlux.BoreCtx.toNat_restarted_prev (view p.bore) globals.params.val
    exact Nat.le_trans (Nat.le_of_eq (hview.symm.trans hsmooth)) (smoothed_le ..)
  have hp := h
  rw [TaskStruct.UpToDate, toNat_effective] at hp
  obtain ⟨load, heq⟩ := restartBurstBore_eq globals inner hrunning
  rw [heq]
  dsimp only [TaskStruct.withPenalty, TaskStruct.withLoad]
  rw [toNat_effective]
  dsimp only
  cases hk : p.isKthread with
  | true => exact Nat.zero_le _
  | false =>
      rw [hk, if_neg Bool.false_ne_true] at hp
      rw [if_neg Bool.false_ne_true]
      exact Nat.max_le.mpr ⟨Nat.zero_le _, Nat.le_trans hprev hp⟩

/-- A smaller penalty makes no priority worse. -/
theorem effectivePrioBore_mono {q : TaskStruct} (h : p.Niced tables)
    (hstatic : q.staticPrio = p.staticPrio) (hle : q.bore.penalty.toNat ≤ p.bore.penalty.toNat)
    (boreKey : Bool) :
    (effectivePrioBore tables.maxRtPrio boreKey q).toNat
      ≤ (effectivePrioBore tables.maxRtPrio boreKey p).toNat := by
  obtain ⟨s, hs, hoffset⟩ := h.nice
  have hq : q.staticPrio - tables.maxRtPrio = s.setWidth 32 := hstatic ▸ hoffset
  have hscore : q.bore.score.toNat ≤ p.bore.score.toNat :=
    Rustlux.BoreCtx.highByte_mono hle
  rw [effectivePrioBore_eq hq, effectivePrioBore_eq hoffset, effectivePrio_eq, effectivePrio_eq,
    Checked.val_pure, Checked.val_pure, BitVec.toNat_ofNat, BitVec.toNat_ofNat]
  cases boreKey with
  | false => exact Nat.le_refl _
  | true =>
      rw [if_pos rfl, if_pos rfl]
      omega

theorem restartBurstBore_staticPrio (hrunning : p.bore.stopUpdate = false) :
    (restartBurstBore globals (nestedCalls globals inner) p).staticPrio = p.staticPrio := by
  obtain ⟨load, heq⟩ := restartBurstBore_eq globals inner hrunning
  rw [heq]
  rfl

end Priorities

/-! ## Yields -/

/-- The deadline is on the same side of the virtual runtime, and no farther from it. -/
def SchedEntity.Near (se se' : SchedEntity) : Prop :=
  (0 ≤ se.remaining → 0 ≤ se'.remaining ∧ se'.remaining ≤ se.remaining)
    ∧ (se.remaining ≤ 0 → se.remaining ≤ se'.remaining ∧ se'.remaining ≤ 0)

theorem near_refl (se : SchedEntity) : se.Near se :=
  ⟨fun h => ⟨h, Int.le_refl _⟩, fun h => ⟨Int.le_refl _, h⟩⟩

theorem near_trans {se se' se'' : SchedEntity} (h : se.Near se') (h' : se'.Near se'') :
    se.Near se'' := by
  constructor
  · intro hpos
    obtain ⟨hlow, hhigh⟩ := h.1 hpos
    obtain ⟨hlow', hhigh'⟩ := h'.1 hlow
    exact ⟨hlow', Int.le_trans hhigh' hhigh⟩
  · intro hneg
    obtain ⟨hlow, hhigh⟩ := h.2 hneg
    obtain ⟨hlow', hhigh'⟩ := h'.2 hhigh
    exact ⟨Int.le_trans hlow hlow', hhigh'⟩

theorem remaining_deadline (vruntime distance : U64) :
    (SchedEntity.mk vruntime (vruntime + distance)).remaining = distance.toInt := by
  rw [SchedEntity.remaining, BitVec.add_comm, BitVec.add_sub_cancel]

section Yields

variable {tables : PrioTables} {p : TaskStruct} {se : SchedEntity} {y : Yield}

variable (tables se y) in
/-- What a yield does: the burst ends, and the deadline stays or is scaled to a
better priority. -/
theorem yield_cases (hnice : p.Niced tables) (h : p.UpToDate) :
    let globals := y.globals tables
    let p' := restartBurstBore globals (nestedCalls globals y.inner) p
    let oldPrio := globals.prio p
    let newPrio := globals.prio p'
    ∃ se', restartBurstRescaleDeadlineBore tables y p se = (p', se')
      ∧ ((newPrio = oldPrio ∧ se' = se)
        ∨ (newPrio.toNat < oldPrio.toNat
          ∧ ((rescaleSlice tables (absS64 (se.deadline - se.vruntime)) oldPrio newPrio).toNat
                ≤ se.remaining.natAbs →
              se'.remaining.natAbs
                  = (rescaleSlice tables (absS64 (se.deadline - se.vruntime)) oldPrio
                      newPrio).toNat
                ∧ (0 ≤ se.remaining → 0 ≤ se'.remaining)
                ∧ (se.remaining ≤ 0 → se'.remaining ≤ 0)))) := by
  intro globals p' oldPrio newPrio
  have hle : newPrio.toNat ≤ oldPrio.toNat :=
    effectivePrioBore_mono hnice (restartBurstBore_staticPrio hnice.running)
      (restartBurstBore_penalty_le hnice.running h) y.boreKey
  rw [restartBurstRescaleDeadlineBore]
  by_cases hbetter : oldPrio > newPrio
  · refine ⟨_, if_pos hbetter, .inr ⟨hbetter, fun hsmall => ?_⟩⟩
    rw [remaining_deadline, toInt_signed hsmall]
    have hsign := BitVec.msb_eq_toInt (x := se.deadline - se.vruntime)
    unfold SchedEntity.remaining at hsmall ⊢
    cases hmsb : (se.deadline - se.vruntime).msb with
    | false =>
        rw [hmsb, eq_comm, decide_eq_false_iff_not] at hsign
        rw [if_neg Bool.false_ne_true]
        refine ⟨Int.natAbs_natCast _, fun _ => Int.natCast_nonneg _, fun hneg => ?_⟩
        omega
    | true =>
        rw [hmsb, eq_comm, decide_eq_true_eq] at hsign
        rw [if_pos rfl]
        refine ⟨by rw [Int.natAbs_neg, Int.natAbs_natCast], fun hpos => ?_, fun _ => ?_⟩
        · omega
        · omega
  · have heq : newPrio = oldPrio :=
      BitVec.eq_of_toNat_eq (Nat.le_antisymm hle (Nat.le_of_not_lt hbetter))
    refine ⟨se, ?_, .inl ⟨heq, rfl⟩⟩
    exact (if_neg hbetter).trans (congrArg (Prod.mk p') (if_neg fun hne => hne.1 heq))

variable (tables se y) in
theorem yield_fst : (restartBurstRescaleDeadlineBore tables y p se).1
    = restartBurstBore (y.globals tables) (nestedCalls (y.globals tables) y.inner) p := by
  rw [restartBurstRescaleDeadlineBore]
  dsimp only
  split <;> rfl

theorem call_niced {x : TaskStruct × SchedEntity} (h : x.1.Niced tables) (call : BurstCall) :
    (call.apply tables x).1.Niced tables := by
  cases call with
  | tick params boreKey deltaExec inner moved => exact updateCurrBore_niced h deltaExec
  | yield y =>
      rw [BurstCall.apply, yield_fst]
      exact restartBurstBore_niced h

/-- A tick keeps a penalty up to date, and a yield brings it there. -/
theorem call_upToDate {x : TaskStruct × SchedEntity} (hnice : x.1.Niced tables) (call : BurstCall)
    (h : x.1.UpToDate ∨ ∃ y, .yield y = call) : (call.apply tables x).1.UpToDate := by
  cases call with
  | tick params boreKey deltaExec inner moved =>
      have hdate : x.1.UpToDate := h.resolve_right fun ⟨_, hno⟩ => BurstCall.noConfusion hno
      exact updateCurrBore_upToDate hnice.running hdate deltaExec
  | yield y =>
      rw [BurstCall.apply, yield_fst]
      exact restartBurstBore_upToDate hnice.running

theorem burstRun_upToDate {x : TaskStruct × SchedEntity} (hnice : x.1.Niced tables)
    (calls : List BurstCall) (h : x.1.UpToDate ∨ ∃ y, .yield y ∈ calls) :
    (burstRun tables calls x).1.Niced tables ∧ (burstRun tables calls x).1.UpToDate := by
  induction calls generalizing x with
  | nil => exact ⟨hnice, h.resolve_right fun ⟨_, hno⟩ => List.not_mem_nil hno⟩
  | cons call calls ih =>
      refine ih (call_niced hnice call) ?_
      rcases h with hdate | ⟨y, hy⟩
      · exact .inl (call_upToDate hnice call (.inl hdate))
      · rcases List.mem_cons.mp hy with hhere | hlater
        · exact .inl (call_upToDate hnice call (.inr ⟨y, hhere⟩))
        · exact .inr ⟨y, hlater⟩

variable (hinv : tables.Inverse)
include hinv

variable (se y) in
theorem yield_near (hnice : p.Niced tables) (h : p.UpToDate) :
    se.Near (restartBurstRescaleDeadlineBore tables y p se).2 := by
  obtain ⟨se', heq, hcase⟩ := yield_cases tables se y hnice h
  rw [heq]
  dsimp only
  rcases hcase with ⟨-, rfl⟩ | ⟨hbetter, hscaled⟩
  · exact near_refl _
  · have hsmall : (rescaleSlice tables (absS64 (se.deadline - se.vruntime))
        ((y.globals tables).prio p) _).toNat ≤ se.remaining.natAbs :=
      Nat.le_trans (rescaleSlice_le hinv _ (effectivePrioBore_le ..) hbetter)
        (Nat.le_of_eq (toNat_absS64 _))
    obtain ⟨habs, hpos, hneg⟩ := hscaled hsmall
    rw [← habs] at hsmall
    constructor
    · intro h
      have hpos' := hpos h
      exact ⟨hpos', by omega⟩
    · intro h
      have hneg' := hneg h
      exact ⟨by omega, hneg'⟩

/-- **Yielding gains nothing.** After any ticks and yields, of a task that was up to
date or has yielded, a deadline that yields alone move stays on its side of the
virtual runtime and comes no farther from it. -/
theorem yields_near (hnice : p.Niced tables) (calls : List BurstCall)
    (h : p.UpToDate ∨ ∃ y, .yield y ∈ calls) (ys : List Yield) :
    let x := burstRun tables calls (p, se)
    x.2.Near (burstRun tables (ys.map .yield) x).2 := by
  intro x
  obtain ⟨hx, hdate⟩ : x.1.Niced tables ∧ x.1.UpToDate := burstRun_upToDate hnice calls h
  clear_value x
  induction ys generalizing x with
  | nil => exact near_refl _
  | cons y ys ih =>
      exact near_trans (yield_near x.2 y hinv hx hdate)
        (ih _ (call_niced hx (.yield y)) (call_upToDate hx (.yield y) (.inl hdate)))

end Yields

/-- A task of the default nice level, ten levels down for its burst. -/
def hungryTask : TaskStruct :=
  { staticPrio := 120, isKthread := false, hasIdlePolicy := false, onRq := true
    load := loadOfPrio kernelTables 30
    bore := { BoreCtx.zero with currPenalty := 2560, penalty := 2560 } }

/-- The same burst, which the penalty does not know of. -/
def staleTask : TaskStruct := hungryTask.withPenalty 0

def plainYield : Yield :=
  { params := .default, boreKey := true, inner := .nil, reweighted := id }

/-- The first yield of a stale task ends its burst at a worse priority. -/
example : (plainYield.globals kernelTables).prio staleTask = 20
    ∧ (plainYield.globals kernelTables).prio
      (restartBurstRescaleDeadlineBore kernelTables plainYield staleTask ⟨0, 0⟩).1 = 25 := by
  decide +kernel

theorem hungryTask_niced : hungryTask.Niced kernelTables := ⟨rfl, 20, by decide, by decide⟩

/-- A stale task yields, runs for a tick, and yields twice in a row. -/
theorem yields_near_stale :
    (burstRun kernelTables [.yield plainYield, .tick .default true 4000000 .nil id]
        (staleTask, ⟨1000000, 4000000⟩)).2.Near
      (burstRun kernelTables [.yield plainYield, .yield plainYield]
        (burstRun kernelTables [.yield plainYield, .tick .default true 4000000 .nil id]
          (staleTask, ⟨1000000, 4000000⟩))).2 :=
  yields_near kernelTables_inverse (p := staleTask) ⟨rfl, 20, by decide, by decide⟩
    [.yield plainYield, .tick .default true 4000000 .nil id]
    (.inr ⟨plainYield, List.mem_cons_self⟩) [plainYield, plainYield]

end Rustlux.BoreC
