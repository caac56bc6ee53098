import Rustlux.BoreRun

/-!
# The C reference of BORE

`kernel/sched/bore.c` of `patches/0002-bore-cachy.patch`, which the Rust code
is a port of. The two sides agree on every run whose bursts stay below 2^64
nanoseconds (`port_refines`): `view` reads a Rust context out of a C one, with
the score as the high byte of the penalty that it shares a union with, and one
step lemma for each call commutes with it.

`reweight_entity` is kernel code that comes back to a context only through
`update_curr_bore` of the queue's current task. Its calls are a tree: each may
reweight the task again. While `stop_update` is set none of them does anything
(`nestedCalls_stopped`).
-/

open FixedPoint (leadingZeros posPart negPart)

namespace Rustlux.BoreC

/-! ## The source -/

/-- `struct bore_ctx`; the caches are the values of their unions. -/
structure BoreCtx where
  burstTime : U64
  prevPenalty : U16
  currPenalty : U16
  penalty : U16
  stopUpdate : Bool
  futexWaiting : Bool
  subtree : U64
  group : U64
deriving DecidableEq, Repr

/-- The byte above `_` in the union with `penalty`. -/
def BoreCtx.score (ctx : BoreCtx) : U8 := (ctx.penalty >>> 8).setWidth 8

/-- `struct load_weight`. -/
structure LoadWeight where
  weight : U64
  invWeight : U32
deriving DecidableEq, Repr

/-- What the calls use of a `struct task_struct`, with the `load` of its entity. -/
structure TaskStruct where
  staticPrio : U32
  isKthread : Bool
  hasIdlePolicy : Bool
  onRq : Bool
  load : LoadWeight
  bore : BoreCtx
deriving DecidableEq, Repr

/-- `MAX_RT_PRIO`, `scale_load`, `sched_prio_to_weight`, `sched_prio_to_wmult`, and the
weights of the idle policy. -/
structure PrioTables where
  maxRtPrio : U32
  scaleLoad : U64 → U64
  schedPrioToWeight : U8 → U64
  schedPrioToWmult : U8 → U32
  weightIdleprio : U64
  wmultIdleprio : U32

def log2p1U64U32fp (v : U64) (fp : U8) : U32 :=
  if v = 0 then 0
  else
    let clz := leadingZeros v
    let exponent : U32 := 64 - BitVec.ofNat 32 clz
    let mantissa : U32 := (v <<< clz <<< 1 >>> (64 - fp.toNat)).setWidth 32
    exponent <<< fp.toNat ||| mantissa

def calcBurstPenalty (params : BoreParams) (burstTime : U64) : U32 :=
  let greed := log2p1U64U32fp burstTime 8
  let tolerance : U32 := params.burstPenaltyOffset.setWidth 32 <<< 8
  let penalty := posPart (greed - tolerance)
  let scaledPenalty := (penalty * params.burstPenaltyScale) >>> 10
  scaledPenalty - posPart (scaledPenalty - MAX_BURST_PENALTY)

def binarySmooth (params : BoreParams) (new old : U32) : U32 :=
  let isGrowing : U32 := if new > old then 1 else 0
  let increment := (new - old) * isGrowing
  let shift := params.burstSmoothness.toNat
  let smoothed := old + ((increment + ((1 : U32) <<< shift) - 1) >>> shift)
  (new &&& ~~~(-isGrowing)) ||| (smoothed &&& -isGrowing)

/-- The key is `sched_bore_key`. -/
def effectivePrioBore (maxRtPrio : U32) (boreKey : Bool) (p : TaskStruct) : U8 :=
  let prio := p.staticPrio - maxRtPrio
  let prio := if boreKey then prio + p.bore.score.setWidth 32 else prio
  let prio := posPart prio
  let diff := prio - 39
  (prio - posPart diff).setWidth 8

/-- `reweight_entity` sets the weight of the entity after the calls that it makes. -/
def reweightTaskByPrio (tables : PrioTables) (reweightEntity : TaskStruct → TaskStruct) (prio : U8)
    (p : TaskStruct) : TaskStruct :=
  if p.hasIdlePolicy then p
  else
    let weight := tables.scaleLoad (tables.schedPrioToWeight prio)
    let p :=
      if p.onRq then
        let p := { p with bore := { p.bore with stopUpdate := true } }
        let p := reweightEntity p
        let p := { p with load := { p.load with weight } }
        { p with bore := { p.bore with stopUpdate := false } }
      else { p with load := { p.load with weight } }
    { p with load := { p.load with invWeight := tables.schedPrioToWmult prio } }

/-- What a call reads besides the task. -/
structure Globals where
  params : Tunables
  boreKey : Bool
  tables : PrioTables

/-- `effective_prio_bore`, in a call. -/
def Globals.prio (globals : Globals) (p : TaskStruct) : U8 :=
  effectivePrioBore globals.tables.maxRtPrio globals.boreKey p

variable (globals : Globals)

def updatePenalty (reweightEntity : TaskStruct → TaskStruct) (p : TaskStruct) : TaskStruct :=
  let prevPrio := globals.prio p
  let diff : U32 := p.bore.currPenalty.setWidth 32 - p.bore.prevPenalty.setWidth 32
  let maxVal : U16 := (p.bore.currPenalty.setWidth 32 - negPart diff).setWidth 16
  let isUser : U32 := if p.isKthread then 0 else 1
  let penalty : U16 := (maxVal.setWidth 32 &&& -isUser).setWidth 16
  let p := { p with bore := { p.bore with penalty } }
  let newPrio := globals.prio p
  if newPrio ≠ prevPrio then reweightTaskByPrio globals.tables reweightEntity newPrio p else p

def updateCurrBore (reweightEntity : TaskStruct → TaskStruct) (p : TaskStruct)
    (deltaExec : U64) : TaskStruct :=
  if p.bore.stopUpdate then p
  else
    let burstTime := p.bore.burstTime + deltaExec
    let currPenalty : U16 := (calcBurstPenalty globals.params.val burstTime).setWidth 16
    let p := { p with bore := { p.bore with burstTime, currPenalty } }
    if currPenalty ≤ p.bore.prevPenalty then p else updatePenalty globals reweightEntity p

def restartBurstBore (reweightEntity : TaskStruct → TaskStruct) (p : TaskStruct) : TaskStruct :=
  let newPenalty := binarySmooth globals.params.val (p.bore.currPenalty.setWidth 32)
    (p.bore.prevPenalty.setWidth 32)
  let p := { p with bore :=
    { p.bore with prevPenalty := newPenalty.setWidth 16, currPenalty := 0, burstTime := 0 } }
  updatePenalty globals reweightEntity p

/-! ## Nested calls -/

/-- Calls of `update_curr_bore` from inside a `reweight_entity`, each with the
ones that its own reweight would make. -/
inductive NestedCalls where
  | nil
  | call (deltaExec : U64) (inner rest : NestedCalls)

def nestedCalls : NestedCalls → TaskStruct → TaskStruct
  | .nil, p => p
  | .call deltaExec inner rest, p =>
      nestedCalls rest (updateCurrBore globals (nestedCalls inner) p deltaExec)

theorem nestedCalls_stopped {calls : NestedCalls} {p : TaskStruct}
    (hstop : p.bore.stopUpdate = true) : nestedCalls globals calls p = p := by
  induction calls with
  | nil => rfl
  | call deltaExec inner rest _ ih =>
      rw [nestedCalls, updateCurrBore, if_pos hstop, ih]

/-- The load of a task of a priority that is not idle. -/
def loadOfPrio (tables : PrioTables) (prio : U8) : LoadWeight :=
  ⟨tables.scaleLoad (tables.schedPrioToWeight prio), tables.schedPrioToWmult prio⟩

def TaskStruct.withLoad (p : TaskStruct) (load : LoadWeight) : TaskStruct := { p with load }

/-- All that a reweight leaves changed is the load. -/
theorem reweightTaskByPrio_eq {calls : NestedCalls} {prio : U8} {p : TaskStruct}
    (hrunning : p.bore.stopUpdate = false) :
    reweightTaskByPrio globals.tables (nestedCalls globals calls) prio p
      = p.withLoad (if p.hasIdlePolicy then p.load else loadOfPrio globals.tables prio) := by
  obtain ⟨staticPrio, isKthread, hasIdlePolicy, onRq, load, bore⟩ := p
  obtain ⟨burstTime, prev, curr, penalty, stopUpdate, futexWaiting, subtree, group⟩ := bore
  obtain rfl : stopUpdate = false := hrunning
  rw [reweightTaskByPrio]
  cases hasIdlePolicy with
  | true => rfl
  | false =>
      rw [if_neg Bool.false_ne_true, if_neg Bool.false_ne_true]
      cases onRq with
      | false => rfl
      | true =>
          dsimp only
          rw [if_pos rfl, nestedCalls_stopped globals rfl]
          rfl

/-! ## Function by function -/

theorem log2p1U64U32fp_eq (v : U64) : log2p1U64U32fp v 8 = (log2p1U64Fp v 8).val := by
  by_cases hv : v = 0
  · rw [log2p1U64U32fp, log2p1U64Fp, if_pos hv, if_pos hv]
    rfl
  · obtain ⟨hclz, hlog⟩ := FixedPoint.leadingZeros_of_ne hv
    have hnat : (BitVec.ofNat 32 (leadingZeros v)).toNat = leadingZeros v := by
      rw [BitVec.toNat_ofNat, Nat.mod_eq_of_lt (by omega)]
    have hmod : leadingZeros v % 64 = leadingZeros v := Nat.mod_eq_of_lt (by omega)
    rw [log2p1U64U32fp, log2p1U64Fp, if_neg hv, if_neg hv]
    simp only [Checked.val_bind, Checked.shl, Checked.shr, Checked.sub, Checked.narrow,
      Checked.val_pure, hnat, hmod]
    rfl

theorem calcBurstPenalty_eq (params : BoreParams) (burstTime : U64) :
    calcBurstPenalty params burstTime = (Rustlux.calcBurstPenalty burstTime params).val := by
  rw [calcBurstPenalty, log2p1U64U32fp_eq]
  rfl

theorem binarySmooth_eq {params : BoreParams} (hp : params.InRange) (new old : U32) :
    binarySmooth params new old = (Rustlux.binarySmooth new old params.burstSmoothness).val := by
  have hs := hp.smoothness
  have hshift : (params.burstSmoothness.setWidth 32).toNat = params.burstSmoothness.toNat :=
    BitVec.toNat_setWidth_of_le (by decide)
  have hmod : params.burstSmoothness.toNat % 32 = params.burstSmoothness.toNat :=
    Nat.mod_eq_of_lt (by omega)
  by_cases hgt : new > old
  · have hall : -(1 : U32) = BitVec.allOnes 32 := rfl
    simp only [binarySmooth, Rustlux.binarySmooth, if_pos hgt, hall, BitVec.not_allOnes,
      BitVec.and_zero, BitVec.zero_or, BitVec.and_allOnes, Checked.val_bind, Checked.sub,
      Checked.shl, Checked.shr, Checked.add, hshift, hmod]
    have hinc : (new - old) * (1 : U32) = new - old := BitVec.mul_one _
    rw [hinc]
  · have hzero : -(0 : U32) = 0#32 := rfl
    simp only [binarySmooth, Rustlux.binarySmooth, if_neg hgt, hzero, BitVec.not_zero,
      BitVec.and_allOnes, BitVec.and_zero, BitVec.or_zero, Checked.val_pure]

theorem effectivePrioBore_eq {maxRtPrio : U32} {boreKey : Bool} {p : TaskStruct} {s : U8}
    (hs : p.staticPrio - maxRtPrio = s.setWidth 32) :
    effectivePrioBore maxRtPrio boreKey p = (effectivePrio s p.bore.score boreKey).val := by
  have hs' : (s.setWidth 32).toNat = s.toNat := BitVec.toNat_setWidth_of_le (by decide)
  have hc' : (p.bore.score.setWidth 32).toNat = p.bore.score.toNat :=
    BitVec.toNat_setWidth_of_le (by decide)
  -- both clamps on an offset plus a score that does not reach the sign bit
  have hclamp : ∀ prio : U32, prio.toNat ≤ 510 →
      (posPart prio - posPart (posPart prio - 39)).setWidth 8
        = BitVec.ofNat 8 (min prio.toNat 39) := by
    intro prio hprio
    have h39 : (39#32).toNat = 39 := rfl
    have hmsb : prio.msb = false := by
      rw [BitVec.msb_eq_decide, decide_eq_false_iff_not]
      omega
    have hpos : posPart prio = prio := by
      rw [FixedPoint.posPart_eq, hmsb]
      rfl
    have hover : (posPart (prio - 39#32)).toNat = prio.toNat - 39 :=
      FixedPoint.toNat_posPart_sub (by omega) (by omega)
    have hle : posPart (prio - 39#32) ≤ prio := by
      rw [BitVec.le_def, hover]
      omega
    refine BitVec.eq_of_toNat_eq ?_
    rw [hpos, BitVec.toNat_setWidth, BitVec.ofNat_eq_ofNat, BitVec.toNat_sub_of_le hle, hover,
      BitVec.toNat_ofNat]
    omega
  rw [effectivePrioBore, effectivePrio_eq, Checked.val_pure, hs]
  cases boreKey with
  | false =>
      refine (hclamp (s.setWidth 32) (by omega)).trans ?_
      rw [hs']
      rfl
  | true =>
      have hadd : (s.setWidth 32 + p.bore.score.setWidth 32).toNat
          = s.toNat + p.bore.score.toNat := by
        rw [BitVec.toNat_add_of_lt (by omega), hs', hc']
      refine (hclamp (s.setWidth 32 + p.bore.score.setWidth 32) (by omega)).trans ?_
      rw [hadd]
      rfl

theorem sub_negPart_eq (curr prev : U16) :
    (curr.setWidth 32 - negPart (curr.setWidth 32 - prev.setWidth 32)).setWidth 16
      = if curr < prev then prev else curr := by
  have hc : (curr.setWidth 32).toNat = curr.toNat := BitVec.toNat_setWidth_of_le (by decide)
  have hq : (prev.setWidth 32).toNat = prev.toNat := BitVec.toNat_setWidth_of_le (by decide)
  have hback : ∀ x : U16, (x.setWidth 32).setWidth 16 = x := fun x => by
    rw [BitVec.setWidth_setWidth_of_le _ (by decide), BitVec.setWidth_eq]
  rw [FixedPoint.negPart_sub (by omega) (by omega), hc, hq]
  by_cases h : curr < prev
  · have h' : curr.toNat < prev.toNat := h
    have hprev : curr.setWidth 32 - (curr.setWidth 32 - prev.setWidth 32)
        = prev.setWidth 32 := by
      refine BitVec.eq_of_toNat_eq ?_
      rw [BitVec.toNat_sub, BitVec.toNat_sub, hc, hq]
      omega
    rw [if_pos h, if_pos h', hprev, hback]
  · have h' : ¬curr.toNat < prev.toNat := h
    rw [if_neg h, if_neg h', BitVec.sub_zero, hback]

/-- The penalty that `update_penalty` masks together. -/
def BoreCtx.effective (ctx : BoreCtx) (isKthread : Bool) : U16 :=
  if isKthread then 0
  else if ctx.currPenalty < ctx.prevPenalty then ctx.prevPenalty else ctx.currPenalty

def TaskStruct.withPenalty (p : TaskStruct) (penalty : U16) : TaskStruct :=
  { p with bore := { p.bore with penalty } }

/-- The load of a task `p` after a call has made it `q`: a changed priority is followed by a
reweight. -/
def Globals.reweighed (globals : Globals) (p q : TaskStruct) : LoadWeight :=
  if globals.prio q ≠ globals.prio p ∧ q.hasIdlePolicy = false then
    loadOfPrio globals.tables (globals.prio q)
  else p.load

theorem reweight_changed {inner : NestedCalls} {p q : TaskStruct}
    (hrunning : q.bore.stopUpdate = false) (hload : q.load = p.load) :
    (if globals.prio q ≠ globals.prio p then
        reweightTaskByPrio globals.tables (nestedCalls globals inner) (globals.prio q) q
      else q) = q.withLoad (globals.reweighed p q) := by
  rw [Globals.reweighed]
  by_cases hprio : globals.prio q ≠ globals.prio p
  · rw [if_pos hprio, reweightTaskByPrio_eq globals hrunning, hload]
    cases hidle : q.hasIdlePolicy with
    | true => rw [if_pos rfl, if_neg fun h => Bool.false_ne_true h.2.symm]
    | false => rw [if_neg Bool.false_ne_true, if_pos ⟨hprio, rfl⟩]
  · rw [if_neg hprio, if_neg fun h => hprio h.1, ← hload]
    rfl

theorem updatePenalty_eq {inner : NestedCalls} {p : TaskStruct}
    (hrunning : p.bore.stopUpdate = false) :
    updatePenalty globals (nestedCalls globals inner) p
      = (p.withPenalty (p.bore.effective p.isKthread)).withLoad
        (globals.reweighed p (p.withPenalty (p.bore.effective p.isKthread))) := by
  have hmask : ∀ (x : U16) (k : Bool),
      (x.setWidth 32 &&& -(if k then (0 : U32) else 1)).setWidth 16 = if k then 0 else x := by
    intro x k
    cases k with
    | true => exact congrArg (BitVec.setWidth 16) BitVec.and_zero
    | false =>
        have hall : -(1 : U32) = BitVec.allOnes 32 := rfl
        simp only [Bool.false_eq_true, if_false]
        rw [hall, BitVec.and_allOnes, BitVec.setWidth_setWidth_of_le _ (by decide),
          BitVec.setWidth_eq]
  rw [updatePenalty, sub_negPart_eq, hmask]
  exact reweight_changed globals hrunning rfl

/-! ## The view of a context -/

/-- A C context as a Rust one. -/
def view (ctx : BoreCtx) : Rustlux.BoreCtx :=
  { burstTime := ctx.burstTime, prevPenalty := ctx.prevPenalty, currPenalty := ctx.currPenalty
    penalty := ctx.penalty, score := ctx.score, stopUpdate := ctx.stopUpdate
    futexWaiting := ctx.futexWaiting, subtree := ⟨ctx.subtree⟩, group := ⟨ctx.group⟩ }

/-- `update_penalty` is `withPenalty` of the larger penalty. -/
theorem view_withPenalty {p : TaskStruct} {q : U16} {load : LoadWeight}
    (hq : q = if p.bore.currPenalty < p.bore.prevPenalty then p.bore.prevPenalty
      else p.bore.currPenalty) :
    view ((p.withPenalty (p.bore.effective p.isKthread)).withLoad load).bore
      = (view p.bore).withPenalty q p.isKthread := by
  subst hq
  rfl

/-- A call on a task that is in no other call: the task is left such, and its
view changes as by the Rust call. -/
structure Ported (op : BoreOp) (p p' : TaskStruct) : Prop where
  isKthread : p'.isKthread = p.isKthread
  running : p'.bore.stopUpdate = false
  view_eq : view p'.bore = (view p.bore).after p.isKthread op

/-- The context with the burst time run on, as `update_curr_bore` computes it. -/
theorem view_charged {ctx : BoreCtx} {deltaExec : U64} (params : Tunables)
    (hfit : ctx.burstTime.toNat + deltaExec.toNat < 2 ^ 64) :
    (view ctx).charged deltaExec params.val
      = view { ctx with
          burstTime := ctx.burstTime + deltaExec
          currPenalty :=
            (calcBurstPenalty params.val (ctx.burstTime + deltaExec)).setWidth 16 } := by
  have hsat : saturatingAdd ctx.burstTime deltaExec = ctx.burstTime + deltaExec := by
    have hno : ¬ctx.burstTime.uaddOverflow deltaExec = true := fun hov =>
      Nat.not_le.mpr hfit (of_decide_eq_true hov)
    rw [saturatingAdd, if_neg hno]
  have hcurr : (calcBurstPenalty params.val (ctx.burstTime + deltaExec)).setWidth 16
      = BitVec.ofNat 16 (penaltyOf params.val (ctx.burstTime + deltaExec).toNat) := by
    rw [calcBurstPenalty_eq, Rustlux.calcBurstPenalty_eq params.property]
    exact congrArg Checked.val (narrow_penalty (penaltyOf_lt _ _))
  rw [hcurr, ← hsat]
  rfl

/-- The context after a burst, as `restart_burst_bore` computes it. -/
theorem view_restarted (ctx : BoreCtx) (params : Tunables) :
    (view ctx).restarted params.val
      = view { ctx with
          prevPenalty := (binarySmooth params.val (ctx.currPenalty.setWidth 32)
            (ctx.prevPenalty.setWidth 32)).setWidth 16
          currPenalty := 0
          burstTime := 0 } := by
  have hc : (ctx.currPenalty.setWidth 32).toNat = ctx.currPenalty.toNat :=
    BitVec.toNat_setWidth_of_le (by decide)
  have hp : (ctx.prevPenalty.setWidth 32).toNat = ctx.prevPenalty.toNat :=
    BitVec.toNat_setWidth_of_le (by decide)
  have hlt := smoothed_lt params.val ctx.currPenalty ctx.prevPenalty
  have hprev : (binarySmooth params.val (ctx.currPenalty.setWidth 32)
        (ctx.prevPenalty.setWidth 32)).setWidth 16
      = BitVec.ofNat 16 (smoothed params.val ctx.currPenalty.toNat ctx.prevPenalty.toNat) := by
    rw [BoreC.binarySmooth_eq params.property,
      Rustlux.binarySmooth_eq params.property (by omega), hc, hp]
    exact congrArg Checked.val (narrow_penalty hlt)
  rw [hprev]
  rfl

variable {globals}

theorem updateCurrBore_ported {inner : NestedCalls} {p : TaskStruct} {deltaExec : U64}
    (hrunning : p.bore.stopUpdate = false)
    (hfit : p.bore.burstTime.toNat + deltaExec.toNat < 2 ^ 64) :
    Ported (.updateCurr deltaExec globals.params) p
      (updateCurrBore globals (nestedCalls globals inner) p deltaExec) := by
  have hne : ¬p.bore.stopUpdate = true := by simp [hrunning]
  -- the task after the charge
  obtain ⟨q, hq⟩ : ∃ q, q = { p with bore := { p.bore with
      burstTime := p.bore.burstTime + deltaExec
      currPenalty := (calcBurstPenalty globals.params.val
        (p.bore.burstTime + deltaExec)).setWidth 16 } } := ⟨_, rfl⟩
  have hview : (view p.bore).charged deltaExec globals.params.val = view q.bore := by
    rw [hq]
    exact view_charged globals.params hfit
  have hqk : q.isKthread = p.isKthread := hq ▸ rfl
  have hqprev : q.bore.prevPenalty = p.bore.prevPenalty := hq ▸ rfl
  have hqrunning : q.bore.stopUpdate = false := hq ▸ hrunning
  have hupdate : updateCurrBore globals (nestedCalls globals inner) p deltaExec
      = if q.bore.currPenalty ≤ q.bore.prevPenalty then q
        else updatePenalty globals (nestedCalls globals inner) q := by
    rw [updateCurrBore, if_neg hne, hq]
  have hafter : (view p.bore).after p.isKthread (.updateCurr deltaExec globals.params)
      = if q.bore.currPenalty ≤ q.bore.prevPenalty then view q.bore
        else (view q.bore).withPenalty q.bore.currPenalty q.isKthread := by
    have hne' : ¬(view p.bore).stopUpdate = true := hne
    rw [BoreCtx.after, if_neg hne', hview, hqprev, hqk]
    rfl
  rw [hupdate]
  by_cases hle : q.bore.currPenalty ≤ q.bore.prevPenalty
  · rw [if_pos hle]
    exact ⟨hqk, hqrunning, (hafter.trans (if_pos hle)).symm⟩
  · have hlt : ¬q.bore.currPenalty < q.bore.prevPenalty := fun h => hle (Nat.le_of_lt h)
    rw [if_neg hle, updatePenalty_eq globals hqrunning]
    refine ⟨hqk, hqrunning, ?_⟩
    rw [view_withPenalty (if_neg hlt).symm]
    exact (hafter.trans (if_neg hle)).symm

theorem restartBurstBore_ported {inner : NestedCalls} {p : TaskStruct}
    (hrunning : p.bore.stopUpdate = false) :
    Ported (.restartBurst globals.params) p
      (restartBurstBore globals (nestedCalls globals inner) p) := by
  -- the task after the burst
  obtain ⟨q, hq⟩ : ∃ q, q = { p with bore := { p.bore with
      prevPenalty := (binarySmooth globals.params.val (p.bore.currPenalty.setWidth 32)
        (p.bore.prevPenalty.setWidth 32)).setWidth 16
      currPenalty := 0
      burstTime := 0 } } := ⟨_, rfl⟩
  have hview : (view p.bore).restarted globals.params.val = view q.bore := by
    rw [hq]
    exact view_restarted p.bore globals.params
  have hqk : q.isKthread = p.isKthread := hq ▸ rfl
  have hqrunning : q.bore.stopUpdate = false := hq ▸ hrunning
  have hqcurr : q.bore.currPenalty = 0 := hq ▸ rfl
  have hupdate : restartBurstBore globals (nestedCalls globals inner) p
      = updatePenalty globals (nestedCalls globals inner) q := by
    rw [restartBurstBore, hq]
  have hmax : q.bore.prevPenalty
      = if q.bore.currPenalty < q.bore.prevPenalty then q.bore.prevPenalty
        else q.bore.currPenalty := by
    rw [hqcurr]
    by_cases h0 : 0 < q.bore.prevPenalty
    · rw [if_pos h0]
    · rw [if_neg h0]
      exact BitVec.eq_of_toNat_eq (Nat.le_zero.mp (Nat.le_of_not_lt h0))
  have hafter : (view p.bore).after p.isKthread (.restartBurst globals.params)
      = (view q.bore).withPenalty q.bore.prevPenalty q.isKthread := by
    rw [BoreCtx.after, hview, hqk]
    rfl
  rw [hupdate, updatePenalty_eq globals hqrunning]
  refine ⟨hqk, hqrunning, ?_⟩
  rw [view_withPenalty hmax, hafter]

/-! ## Runs -/

/-- What a call finds besides the tunables: the static key, the task as the
rest of the kernel has set it, and what its reweight will call. -/
structure Setting where
  boreKey : Bool
  staticPrio : U32
  hasIdlePolicy : Bool
  onRq : Bool
  inner : NestedCalls

def TaskStruct.set (p : TaskStruct) (setting : Setting) : TaskStruct :=
  { p with
    staticPrio := setting.staticPrio
    hasIdlePolicy := setting.hasIdlePolicy
    onRq := setting.onRq }

def step (tables : PrioTables) (p : TaskStruct) (call : BoreOp × Setting) : Option TaskStruct :=
  let (op, setting) := call
  some (match op with
    | .updateCurr deltaExec params =>
        let globals := ⟨params, setting.boreKey, tables⟩
        updateCurrBore globals (nestedCalls globals setting.inner) (p.set setting) deltaExec
    | .restartBurst params =>
        let globals := ⟨params, setting.boreKey, tables⟩
        restartBurstBore globals (nestedCalls globals setting.inner) (p.set setting))

/-- `memset` of the context. -/
def resetTaskBore (p : TaskStruct) : TaskStruct :=
  { p with bore :=
    { burstTime := 0, prevPenalty := 0, currPenalty := 0, penalty := 0, stopUpdate := false
      futexWaiting := false, subtree := 0, group := 0 } }

/-- The total run time of every burst stays below 2^64, in the one that has
run for `total` and in all that follow. -/
def BurstsFit : Nat → List BoreOp → Prop
  | _, [] => True
  | total, .updateCurr deltaExec _ :: ops =>
      total + deltaExec.toNat < 2 ^ 64 ∧ BurstsFit (total + deltaExec.toNat) ops
  | _, .restartBurst _ :: ops => BurstsFit 0 ops

/-- The burst time follows the total. -/
theorem Ported.fits {op : BoreOp} {ops : List BoreOp} {p p' : TaskStruct} (h : Ported op p p')
    (hrunning : p.bore.stopUpdate = false)
    (hfit : BurstsFit p.bore.burstTime.toNat (op :: ops)) :
    BurstsFit p'.bore.burstTime.toNat ops := by
  have hburst : p'.bore.burstTime = ((view p.bore).after p.isKthread op).burstTime :=
    congrArg Rustlux.BoreCtx.burstTime h.view_eq
  cases op with
  | updateCurr deltaExec params =>
      have htick : p'.bore.burstTime = saturatingAdd p.bore.burstTime deltaExec :=
        hburst.trans (BoreCtx.after_tick hrunning ..).1
      have htotal : p'.bore.burstTime.toNat = p.bore.burstTime.toNat + deltaExec.toNat := by
        have hlt := hfit.1
        rw [htick, toNat_saturatingAdd, Nat.min_eq_left (by omega)]
      rw [htotal]
      exact hfit.2
  | restartBurst params =>
      rw [hburst]
      exact hfit

theorem step_ported {tables : PrioTables} {p p' : TaskStruct} {op : BoreOp} {ops : List BoreOp}
    {setting : Setting} (hrunning : p.bore.stopUpdate = false)
    (hfit : BurstsFit p.bore.burstTime.toNat (op :: ops))
    (hstep : step tables p (op, setting) = some p') : Ported op p p' := by
  obtain rfl := Option.some.inj hstep
  cases op with
  | updateCurr deltaExec params =>
      obtain ⟨hk, hr, hview⟩ := @updateCurrBore_ported ⟨params, setting.boreKey, tables⟩
        setting.inner (p.set setting) deltaExec hrunning hfit.1
      exact ⟨hk, hr, hview⟩
  | restartBurst params =>
      obtain ⟨hk, hr, hview⟩ := @restartBurstBore_ported ⟨params, setting.boreKey, tables⟩
        setting.inner (p.set setting) hrunning
      exact ⟨hk, hr, hview⟩

theorem run_ported {tables : PrioTables} {calls : List (BoreOp × Setting)} {p p' : TaskStruct}
    {ctx : Rustlux.BoreCtx} (hrunning : p.bore.stopUpdate = false)
    (hfit : BurstsFit p.bore.burstTime.toNat (calls.map Prod.fst))
    (hrun : Lts.run (BoreCtx.step p.isKthread) (view p.bore) (calls.map Prod.fst) = some ctx)
    (hrunC : Lts.run (step tables) p calls = some p') : view p'.bore = ctx := by
  induction calls generalizing p with
  | nil =>
      cases hrunC
      exact Option.some.inj hrun
  | cons call calls ih =>
      obtain ⟨op, setting⟩ := call
      obtain ⟨q, hstep, hrest⟩ := Lts.run_cons_eq_some.mp hrunC
      have hported := step_ported hrunning hfit hstep
      rw [List.map_cons, Lts.run_cons (BoreCtx.step_eq ..), ← hported.view_eq] at hrun
      rw [← hported.isKthread] at hrun
      exact ih hported.running (hported.fits hrunning hfit) hrun hrest

/-- **The port refines the reference.** -/
theorem port_refines {tables : PrioTables} {calls : List (BoreOp × Setting)} {p₀ p : TaskStruct}
    {ctx : Rustlux.BoreCtx} (hfit : BurstsFit 0 (calls.map Prod.fst))
    (hrun : Lts.run (BoreCtx.step p₀.isKthread) .new (calls.map Prod.fst) = some ctx)
    (hrunC : Lts.run (step tables) (resetTaskBore p₀) calls = some p) :
    (ctx.burstTime = p.bore.burstTime ∧ ctx.prevPenalty = p.bore.prevPenalty
        ∧ ctx.currPenalty = p.bore.currPenalty ∧ ctx.penalty = p.bore.penalty
        ∧ ctx.score = p.bore.score)
      ∧ ∀ (staticPrioOffset : U8) (boreKey : Bool),
          (effectivePrio staticPrioOffset ctx.score boreKey).val
            = effectivePrioBore tables.maxRtPrio boreKey
                { p with staticPrio := tables.maxRtPrio + staticPrioOffset.setWidth 32 } := by
  have hnew : view (resetTaskBore p₀).bore = .new := by
    simp [view, resetTaskBore, BoreCtx.score, BoreCtx.new]
  rw [← hnew] at hrun
  obtain rfl := run_ported (p := resetTaskBore p₀) rfl hfit hrun hrunC
  refine ⟨⟨rfl, rfl, rfl, rfl, rfl⟩, fun staticPrioOffset boreKey => ?_⟩
  have hs : tables.maxRtPrio + staticPrioOffset.setWidth 32 - tables.maxRtPrio
      = staticPrioOffset.setWidth 32 := by
    rw [BitVec.add_comm, BitVec.add_sub_cancel]
  exact (@effectivePrioBore_eq tables.maxRtPrio boreKey
    { p with staticPrio := tables.maxRtPrio + staticPrioOffset.setWidth 32 } staticPrioOffset hs).symm

/-- The tables of a 64-bit kernel. -/
def kernelWeights : List U64 :=
  [88761, 71755, 56483, 46273, 36291, 29154, 23254, 18705, 14949, 11916, 9548, 7620, 6100, 4904,
    3906, 3121, 2501, 1991, 1586, 1277, 1024, 820, 655, 526, 423, 335, 272, 215, 172, 137, 110, 87,
    70, 56, 45, 36, 29, 23, 18, 15]

def kernelWmults : List U32 :=
  [48388, 59856, 76040, 92818, 118348, 147320, 184698, 229616, 287308, 360437, 449829, 563644,
    704093, 875809, 1099582, 1376151, 1717300, 2157191, 2708050, 3363326, 4194304, 5237765, 6557202,
    8165337, 10153587, 12820798, 15790321, 19976592, 24970740, 31350126, 39045157, 49367440,
    61356676, 76695844, 95443717, 119304647, 148102320, 186737708, 238609294, 286331153]

def kernelTables : PrioTables :=
  { maxRtPrio := 100, scaleLoad := (· <<< 10)
    schedPrioToWeight := fun prio => kernelWeights[prio.toNat]?.getD 0
    schedPrioToWmult := fun prio => kernelWmults[prio.toNat]?.getD 0
    weightIdleprio := 3, wmultIdleprio := 1431655765 }

/-- A second of run time, with a reweight that charges the task once more,
and a sleep. -/
def secondCalls : List (BoreOp × Setting) :=
  [(.updateCurr 1000000000 .default, ⟨true, 120, false, true, .call 1000 .nil .nil⟩),
    (.restartBurst .default, ⟨true, 120, false, false, .nil⟩)]

theorem port_refines_second :
    ∃ ctx p, Lts.run (BoreCtx.step false) .new (secondCalls.map Prod.fst) = some ctx
      ∧ Lts.run (step kernelTables)
          (resetTaskBore ⟨120, false, false, true, ⟨9, 9⟩, ⟨9, 9, 9, 9, true, true, 9, 9⟩⟩)
          secondCalls = some p
      ∧ ctx.score = p.bore.score := by
  have hrun : Lts.run (BoreCtx.step false) .new (secondCalls.map Prod.fst)
      = some ⟨0, 1317, 0, 1317, 5, false, false, ⟨0⟩, ⟨0⟩⟩ := by decide +kernel
  have hrunC : Lts.run (step kernelTables)
      (resetTaskBore ⟨120, false, false, true, ⟨9, 9⟩, ⟨9, 9, 9, 9, true, true, 9, 9⟩⟩) secondCalls
        = some ⟨120, false, false, false, ⟨343040, 12820798⟩,
          ⟨0, 1317, 0, 1317, false, false, 0, 0⟩⟩ := by
    decide +kernel
  have hfit : BurstsFit 0 (secondCalls.map Prod.fst) := ⟨by decide, trivial⟩
  have hports := @port_refines kernelTables secondCalls
    ⟨120, false, false, true, ⟨9, 9⟩, ⟨9, 9, 9, 9, true, true, 9, 9⟩⟩ _ _ hfit hrun hrunC
  exact ⟨_, _, hrun, hrunC, hports.1.2.2.2.2⟩

end Rustlux.BoreC
