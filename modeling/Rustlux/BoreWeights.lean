import Rustlux.BoreSystem

/-!
# Load weights

The weight of a task in its queue follows its effective priority:
`reweight_task_by_prio` sets it when the score has changed, and `set_load_weight`
when the kernel has changed the static priority or the policy.

A weight is right when `set_load_weight` would set it now; only those of the fair
class matter. Where the rest of the kernel does what it documents (`KernelWeighs`),
all of them stay right along a run exactly when three things do not happen: that a
task with a score comes back from another class, which clears its context without a
reweight; that `sched_bore` is switched where the readjustment, which goes over the
leaders of thread groups, does not come to a task with a score; and that a task comes
back to the fair class with a weight from before such a switch (`weights_right_iff`).
-/

namespace Rustlux.BoreC

/-- The load that `set_load_weight` sets. Of it the patch has the priority; the rest is
the kernel's. -/
def setLoadWeight (globals : Globals) (p : TaskStruct) : LoadWeight :=
  let prio := globals.prio p
  if p.hasIdlePolicy then
    ⟨globals.tables.scaleLoad globals.tables.weightIdleprio, globals.tables.wmultIdleprio⟩
  else loadOfPrio globals.tables prio

/-- The load is the one that `set_load_weight` would set. -/
def TaskStruct.Right (globals : Globals) (p : TaskStruct) : Prop :=
  p.load = setLoadWeight globals p

/-! ## Call by call -/

section Calls

variable {globals globals' : Globals} {inner : NestedCalls} {p q : TaskStruct}

/-- The weight of an idle task is the same whatever its priority. -/
theorem setLoadWeight_congr (htables : globals.tables = globals'.tables)
    (hidle : p.hasIdlePolicy = q.hasIdlePolicy)
    (hprio : p.hasIdlePolicy = false → globals.prio p = globals'.prio q) :
    setLoadWeight globals p = setLoadWeight globals' q := by
  rw [setLoadWeight, setLoadWeight, ← hidle, ← htables]
  split
  · rfl
  · next h => rw [hprio (Bool.eq_false_iff.mpr h)]

/-- The load and the fields that the right one depends on are the same. -/
structure TaskStruct.SameWeight (p q : TaskStruct) : Prop where
  load : p.load = q.load
  staticPrio : p.staticPrio = q.staticPrio
  hasIdlePolicy : p.hasIdlePolicy = q.hasIdlePolicy
  penalty : p.bore.penalty = q.bore.penalty

theorem prio_congr (hstatic : p.staticPrio = q.staticPrio)
    (hpenalty : p.bore.penalty = q.bore.penalty) : globals.prio p = globals.prio q := by
  rw [Globals.prio, Globals.prio, effectivePrioBore, effectivePrioBore, BoreCtx.score,
    BoreCtx.score, hstatic, hpenalty]

theorem TaskStruct.Right.of_same (h : p.Right globals) (hsame : p.SameWeight q) :
    q.Right globals :=
  hsame.load.symm.trans (h.trans (setLoadWeight_congr rfl hsame.hasIdlePolicy fun _ =>
    prio_congr hsame.staticPrio hsame.penalty))

theorem effectivePrioBore_le (maxRtPrio : U32) (boreKey : Bool) (p : TaskStruct) :
    (effectivePrioBore maxRtPrio boreKey p).toNat ≤ 39 := by
  have hclamp : ∀ prio : U32, ((FixedPoint.posPart prio
      - FixedPoint.posPart (FixedPoint.posPart prio - 39)).setWidth 8).toNat ≤ 39 := by
    intro prio
    have h39 : (39#32).toNat = 39 := rfl
    have hlow : (FixedPoint.posPart prio).toNat < 2 ^ 31 := by
      rw [FixedPoint.posPart_eq]
      split
      · decide
      · next hmsb =>
          rw [BitVec.msb_eq_decide, decide_eq_true_eq] at hmsb
          omega
    have hover : (FixedPoint.posPart (FixedPoint.posPart prio - 39#32)).toNat
        = (FixedPoint.posPart prio).toNat - 39 :=
      FixedPoint.toNat_posPart_sub (by omega) (by omega)
    rw [BitVec.toNat_setWidth, BitVec.ofNat_eq_ofNat, BitVec.toNat_sub_of_le (by
      rw [BitVec.le_def, hover]; omega), hover]
    omega
  rw [effectivePrioBore]
  exact hclamp _

/-- No two of the 40 priorities have the same load. -/
def PrioTables.Distinct (tables : PrioTables) : Prop :=
  ∀ p q : U8, p.toNat ≤ 39 → q.toNat ≤ 39 → loadOfPrio tables p = loadOfPrio tables q → p = q

theorem setLoadWeight_eq_iff (hdistinct : globals.tables.Distinct)
    (htables : globals.tables = globals'.tables) (hidle : p.hasIdlePolicy = q.hasIdlePolicy) :
    setLoadWeight globals p = setLoadWeight globals' q
      ↔ (p.hasIdlePolicy = false → globals.prio p = globals'.prio q) := by
  refine ⟨fun h hno => ?_, setLoadWeight_congr htables hidle⟩
  have hp : ¬p.hasIdlePolicy = true := by rw [hno]; decide
  rw [setLoadWeight, setLoadWeight, ← hidle, if_neg hp, if_neg hp, ← htables] at h
  exact hdistinct _ _ (effectivePrioBore_le _ _ _) (effectivePrioBore_le _ _ _) h

/-- A changed priority is followed by a reweight, and an unchanged one needs none. -/
theorem reweighed_right (h : p.Right globals) (hidle : q.hasIdlePolicy = p.hasIdlePolicy) :
    (q.withLoad (globals.reweighed p q)).Right globals := by
  change globals.reweighed p q = setLoadWeight globals q
  rw [Globals.reweighed]
  split
  · next hchanged => rw [setLoadWeight, hchanged.2, if_neg Bool.false_ne_true]
  · next hsame =>
      refine h.trans (setLoadWeight_congr rfl hidle.symm fun hno => ?_)
      exact (not_not.mp fun hne => hsame ⟨hne, hidle.trans hno⟩).symm

theorem updatePenalty_right (hrunning : p.bore.stopUpdate = false) (h : p.Right globals) :
    (updatePenalty globals (nestedCalls globals inner) p).Right globals := by
  rw [updatePenalty_eq globals hrunning]
  exact reweighed_right h rfl

theorem updateCurrBore_right {deltaExec : U64} (hrunning : p.bore.stopUpdate = false)
    (h : p.Right globals) :
    (updateCurrBore globals (nestedCalls globals inner) p deltaExec).Right globals := by
  rw [updateCurrBore]
  dsimp only
  split
  · exact h
  · split
    · exact h
    · exact updatePenalty_right hrunning h

theorem restartBurstBore_right (hrunning : p.bore.stopUpdate = false) (h : p.Right globals) :
    (restartBurstBore globals (nestedCalls globals inner) p).Right globals :=
  updatePenalty_right hrunning h

end Calls

/-! ## The system -/

/-- The load is right if the task is of the fair class. -/
def Task.FairRight (globals : Globals) (p : Task) : Prop :=
  p.fairClass = true → p.Right globals

/-- The kernel leaves the load of a task alone, and what it depends on. -/
structure Attrs.SameLoad (p : Task) (attrs : Attrs) : Prop where
  load : attrs.load = p.load
  staticPrio : attrs.staticPrio = p.staticPrio
  hasIdlePolicy : attrs.hasIdlePolicy = p.hasIdlePolicy

theorem Attrs.SameLoad.right {globals : Globals} {p : Task} {attrs : Attrs}
    (h : attrs.SameLoad p) (hp : p.Right globals) : (p.withAttrs attrs).Right globals :=
  hp.of_same ⟨h.load.symm, h.staticPrio.symm, h.hasIdlePolicy.symm, rfl⟩

namespace System

variable {ι : Type}

section Spec

variable (tables : PrioTables) (s : System ι)

/-- In the fair class every load is the one that `set_load_weight` would set. -/
def WeightsRight : Prop := ∀ t, (s.tasks t).FairRight (s.globals tables)

/-- What the rest of the kernel does to the loads of the fair class, in an event that is its
own and before a new task comes to the hook. As documented, `set_user_nice`,
`__sched_setscheduler` and `sched_fork` call `set_load_weight` when they leave a task in it
another static priority or policy; a renice of a task of another class sets no load. -/
def KernelWeighs : Event ι → Prop
  | .fork current _ _ _ _ attrs _ =>
      let p := s.tasks current
      attrs.fairClass = true →
        p.fairClass = true ∧ attrs.SameLoad p ∨ (p.withAttrs attrs).Right (s.globals tables)
  | .kernel _ attrs => ∀ t,
      let p := s.tasks t
      (attrs t).fairClass = true →
        (attrs t).SameLoad p ∨ (p.withAttrs (attrs t)).Right (s.globals tables)
  | _ => True

/-- A class switch or a switch of `sched_bore` does not change the priority of a task whose
weight it does not set, and a task that comes to the fair class has the right load. -/
def KeepsWeights : Event ι → Prop
  | .switchedToFair t =>
      let p := s.tasks t
      p.fairClass = true → p.hasIdlePolicy = false →
        effectivePrioBore tables.maxRtPrio s.keys.bore p.toTaskStruct
          = effectivePrioBore tables.maxRtPrio s.keys.bore (p.withBore .zero).toTaskStruct
  | .sysctl .schedBore value processes =>
      value ≤ Sysctl.max .schedBore → ∀ t,
        let p := s.tasks t
        p.fairClass = true → ¬(t ∈ processes.map Prod.fst ∧ taskIsBoreEligible p = true) →
          p.hasIdlePolicy = false →
          effectivePrioBore tables.maxRtPrio s.keys.bore p.toTaskStruct
            = effectivePrioBore tables.maxRtPrio (value != 0) p.toTaskStruct
  | .kernel _ attrs => ∀ t,
      let p := s.tasks t
      p.fairClass = false → (attrs t).fairClass = true →
        (p.withAttrs (attrs t)).Right (s.globals tables)
  | _ => True

end Spec

variable [DecidableEq ι] {tables : PrioTables} {s s' : System ι}

theorem setTask_right_iff (h : s.WeightsRight tables) (t : ι) (p : Task) :
    (s.setTask t p).WeightsRight tables ↔ p.FairRight (s.globals tables) := by
  have hself : (s.setTask t p).tasks t = p := Function.update_self _ _ _
  constructor
  · intro h'
    have ht := h' t
    rw [hself] at ht
    exact ht
  · intro hp t'
    by_cases ht : t' = t
    · rw [ht, hself]
      exact hp
    · rw [show (s.setTask t p).tasks t' = s.tasks t' from Function.update_of_ne ht _ _]
      exact h t'

/-- Looking into a cache changes no weight. -/
theorem atFork_fairRight {tasks : ι → Task} {globals : Globals}
    (h : ∀ t, (tasks t).FairRight globals) (keys : Keys) (tree : ProcessTree ι)
    (params : Tunables) (parent : ι) (cloneFlags : CloneFlags) (now : U64) (t : ι) :
    ((atFork tasks keys tree params parent cloneFlags now).2 t).FairRight globals := by
  rw [atFork]
  split
  · next source _ =>
      dsimp only
      rw [refreshed]
      split
      · by_cases ht : t = source.owner
        · rw [ht, Function.update_self]
          obtain ⟨field, owner, visited, sample⟩ := source
          cases field <;> exact fun hfair => (h owner hfair).of_same ⟨rfl, rfl, rfl, rfl⟩
        · rw [Function.update_of_ne ht]
          exact h t
      · exact h t
  · exact h t

theorem fork_right {current p : ι} {pid : U32} {cloneFlags : CloneFlags} {startTime : U64}
    {attrs : Attrs} {tree : ProcessTree ι} (h : s.WeightsRight tables)
    (hkernel : s.KernelWeighs tables (.fork current p pid cloneFlags startTime attrs tree))
    (hstep : s.step tables (.fork current p pid cloneFlags startTime attrs tree) = some s') :
    s'.WeightsRight tables := by
  have hcopied : ∀ t, (s.copied current p attrs t).FairRight (s.globals tables) := by
    intro t
    rw [copied]
    by_cases ht : t = p
    · rw [ht, Function.update_self]
      intro hfair
      rcases hkernel hfair with ⟨hcurrent, hsame⟩ | hset
      · exact hsame.right (h current hcurrent)
      · exact hset
    · rw [Function.update_of_ne ht]
      exact h t
  obtain ⟨tasks, hcopy, rfl⟩ := Option.map_eq_some_iff.mp hstep
  rw [copyProcess] at hcopy
  by_cases hpid : pid ≠ 0
  · rw [if_pos hpid] at hcopy
    by_cases hacts : s.keys.bore = true ∧ taskIsBoreEligible (s.copied current p attrs p) = true
    · rw [taskForkBore_eq _ _ _ hacts.1 hacts.2] at hcopy
      obtain rfl := Option.some.inj hcopy
      have hat := atFork_fairRight hcopied s.keys s.tree s.params current cloneFlags startTime
      intro t
      dsimp only
      by_cases ht : t = p
      · subst ht
        rw [Function.update_self]
        exact fun hfair => reweighed_right (hat t hfair) rfl
      · rw [Function.update_of_ne ht]
        exact hat t
    · rw [taskForkBore_idle _ _ _ hacts] at hcopy
      obtain rfl := Option.some.inj hcopy
      exact hcopied
  · rw [if_neg hpid] at hcopy
    cases hcopy
    exact hcopied

theorem updateInheritType_bore (inheritType : U8) (keys : Keys) :
    (updateInheritType inheritType keys).bore = keys.bore := by
  unfold updateInheritType
  split
  · rfl
  · split <;> rfl

/-- A switch of `sched_bore` sets the weights of the tasks that the readjustment comes to. -/
theorem switch_right_iff (hdistinct : tables.Distinct) (hrunning : s.Running)
    (h : s.WeightsRight tables) {value : Nat} (hvalue : value ≤ Sysctl.max .schedBore)
    (processes : List (ι × NestedCalls)) :
    (writeSysctl tables s .schedBore value processes).WeightsRight tables
      ↔ s.KeepsWeights tables (.sysctl .schedBore value processes) := by
  have hkey : (BitVec.ofNat 8 value != 0) = (value != 0) := by
    rcases Nat.le_one_iff_eq_zero_or_eq_one.mp hvalue with rfl | rfl <;> rfl
  -- the system after the switch, before the readjustment
  obtain ⟨s₁, hs₁, htasks, hbore⟩ : ∃ s₁ : System ι,
      writeSysctl tables s .schedBore value processes
          = { s₁ with tasks := readjustAllTaskWeights (s₁.globals tables) processes s₁.tasks }
        ∧ s₁.tasks = s.tasks ∧ s₁.keys.bore = (value != 0) := by
    rw [writeSysctl, dif_pos hvalue]
    exact ⟨_, rfl, rfl, hkey⟩
  rw [hs₁, readjustAllTaskWeights_eq _ _ (by rw [htasks]; exact hrunning), KeepsWeights]
  refine Iff.trans ?_ ⟨fun hall _ => hall, fun hall => hall hvalue⟩
  refine forall_congr' fun t => ?_
  dsimp only
  rw [htasks, Task.FairRight]
  have hclass : (if Readjusted s.tasks processes t then (s.tasks t).withLoad (loadOfPrio
      (s₁.globals tables).tables ((s₁.globals tables).prio (s.tasks t).toTaskStruct))
        else s.tasks t).fairClass = (s.tasks t).fairClass := by
    split <;> rfl
  rw [hclass]
  refine forall_congr' fun hfair => ?_
  have hiff : setLoadWeight (s.globals tables) (s.tasks t).toTaskStruct
      = setLoadWeight (s₁.globals tables) (s.tasks t).toTaskStruct
      ↔ ((s.tasks t).hasIdlePolicy = false →
          effectivePrioBore tables.maxRtPrio s.keys.bore (s.tasks t).toTaskStruct
            = effectivePrioBore tables.maxRtPrio s₁.keys.bore (s.tasks t).toTaskStruct) :=
    setLoadWeight_eq_iff hdistinct rfl rfl
  have hload : (s.tasks t).load = setLoadWeight (s.globals tables) (s.tasks t).toTaskStruct :=
    h t hfair
  rw [← hbore]
  by_cases hlist : t ∈ processes.map Prod.fst ∧ taskIsBoreEligible (s.tasks t) = true
  · refine iff_of_true ?_ fun hno => absurd hlist hno
    by_cases hidle : (s.tasks t).hasIdlePolicy = false
    · rw [if_pos ⟨hlist, hidle⟩]
      change loadOfPrio tables _ = setLoadWeight (s₁.globals tables) (s.tasks t).toTaskStruct
      rw [setLoadWeight, hidle, if_neg Bool.false_ne_true]
      rfl
    · rw [if_neg fun hset => hidle hset.2]
      exact hload.trans (hiff.mpr fun hno => absurd hno hidle)
  · rw [if_neg fun hset => hlist hset.1]
    change (s.tasks t).load = setLoadWeight (s₁.globals tables) (s.tasks t).toTaskStruct ↔ _
    rw [hload, hiff]
    exact ⟨fun heq _ => heq, fun heq => heq hlist⟩

/-- The other writes change neither a priority nor a weight. -/
theorem writeSysctl_right (h : s.WeightsRight tables) {entry : Sysctl} {value : Nat}
    (hbore : ¬(entry = .schedBore ∧ value ≤ entry.max)) (processes : List (ι × NestedCalls)) :
    (writeSysctl tables s entry value processes).WeightsRight tables := by
  have hkeep : (writeSysctl tables s entry value processes).tasks = s.tasks
      ∧ (writeSysctl tables s entry value processes).keys.bore = s.keys.bore := by
    rw [writeSysctl]
    split
    · next hvalue =>
        cases entry with
        | schedBore => exact absurd ⟨rfl, hvalue⟩ hbore
        | schedBurstInheritType => exact ⟨rfl, updateInheritType_bore _ _⟩
        | _ => exact ⟨rfl, rfl⟩
    · exact ⟨rfl, rfl⟩
  intro t hfair
  rw [hkeep.1] at hfair ⊢
  refine (h t hfair).trans (setLoadWeight_congr rfl rfl fun _ => ?_)
  rw [Globals.prio, Globals.prio, globals, globals, hkeep.2]

/-- One event keeps all weights right exactly when it is one that does. -/
theorem step_right_iff (hdistinct : tables.Distinct) {event : Event ι} (hrunning : s.Running)
    (h : s.WeightsRight tables) (hkernel : s.KernelWeighs tables event)
    (hstep : s.step tables event = some s') :
    s'.WeightsRight tables ↔ s.KeepsWeights tables event := by
  cases event with
  | updateCurr t deltaExec inner =>
      obtain rfl := Option.some.inj hstep
      exact iff_of_true ((setTask_right_iff h t _).mpr fun hfair =>
        updateCurrBore_right (hrunning t) (h t hfair)) trivial
  | restartBurst t inner =>
      obtain rfl := Option.some.inj hstep
      exact iff_of_true ((setTask_right_iff h t _).mpr fun hfair =>
        restartBurstBore_right (hrunning t) (h t hfair)) trivial
  | futexWait t waiting =>
      obtain rfl := Option.some.inj hstep
      exact iff_of_true ((setTask_right_iff h t _).mpr fun hfair =>
        (h t hfair).of_same ⟨rfl, rfl, rfl, rfl⟩) trivial
  | fork current p pid cloneFlags startTime attrs tree =>
      exact iff_of_true (fork_right h hkernel hstep) trivial
  | switchedToFair t =>
      obtain rfl := Option.some.inj hstep
      rw [setTask_right_iff h t]
      refine forall_congr' fun hfair => ?_
      change (s.tasks t).load = setLoadWeight (s.globals tables) _ ↔ _
      rw [show (s.tasks t).load = _ from h t hfair]
      exact setLoadWeight_eq_iff hdistinct rfl rfl
  | sysctl entry value processes =>
      obtain rfl := Option.some.inj hstep
      by_cases hbore : entry = .schedBore ∧ value ≤ entry.max
      · obtain ⟨rfl, hvalue⟩ := hbore
        exact switch_right_iff hdistinct hrunning h hvalue processes
      · refine iff_of_true (writeSysctl_right h hbore processes) ?_
        cases entry with
        | schedBore => exact fun hvalue => absurd ⟨rfl, hvalue⟩ hbore
        | _ => trivial
  | kernel tree attrs =>
      obtain rfl := Option.some.inj hstep
      refine forall_congr' fun t => ⟨fun hright _ => hright, fun hcomes hfair => ?_⟩
      cases hclass : (s.tasks t).fairClass with
      | true =>
          rcases hkernel t hfair with hsame | hset
          · exact hsame.right (h t hclass)
          · exact hset
      | false => exact hcomes hclass hfair

/-- **Weights follow the scores** along a run exactly when class switches and
switches of `sched_bore` find nothing to change in the tasks that they leave
out: ticks, bursts that end, forks and the other sysctls keep every weight right. -/
theorem weights_right_iff (hdistinct : tables.Distinct) {events : List (Event ι)}
    (hrunning : s.Running) (h : s.WeightsRight tables)
    (hkernel : Lts.Along (System.step tables) (KernelWeighs tables) s events) :
    (∀ pre t, pre <+: events → Lts.run (System.step tables) s pre = some t →
        t.WeightsRight tables)
      ↔ Lts.Along (System.step tables) (KeepsWeights tables) s events := by
  refine Lts.along_iff_of_along (J := Running) (fun s event s' hs hstep => step_running hs hstep)
    (fun s event s' hs hright hkernel hstep => step_right_iff hdistinct hs hright hkernel hstep)
    (fun s event hs => ?_) hrunning h hkernel
  obtain ⟨s', hs', -⟩ := step_total tables hs event
  exact Option.isSome_iff_exists.mpr ⟨s', hs'⟩

theorem kernelTables_distinct : kernelTables.Distinct := by
  have hnodup : kernelWmults.Nodup := by decide
  have hlength : kernelWmults.length = 40 := rfl
  intro p q hp hq heq
  have hwmult : kernelWmults[p.toNat]?.getD 0 = kernelWmults[q.toNat]?.getD 0 :=
    congrArg LoadWeight.invWeight heq
  rw [List.getElem?_eq_getElem (by omega), List.getElem?_eq_getElem (by omega), Option.getD_some,
    Option.getD_some] at hwmult
  exact BitVec.eq_of_toNat_eq ((hnodup.getElem_inj_iff).mp hwmult)

/-- The compiler runs for a second, then the editor forks. -/
theorem weights_right_iff_shell :
    ∃ t, Lts.run (System.step kernelTables) shellSystem
        [.updateCurr .compiler 1000000000 .nil, shellFork 2000000000] = some t
      ∧ t.WeightsRight kernelTables := by
  have huser : (userTask .zero).load
      = setLoadWeight (shellSystem.globals kernelTables) (userTask .zero).toTaskStruct := by
    decide +kernel
  have hstart : shellSystem.WeightsRight kernelTables := fun _ _ => huser
  obtain ⟨t, ht⟩ := Option.isSome_iff_exists.mp (by decide +kernel :
    (Lts.run (System.step kernelTables) shellSystem
      [.updateCurr .compiler 1000000000 .nil, shellFork 2000000000]).isSome = true)
  have hkernel : Lts.Along (System.step kernelTables) (KernelWeighs kernelTables) shellSystem
      [.updateCurr .compiler 1000000000 .nil, shellFork 2000000000] := by
    refine ⟨trivial, fun s hs => ⟨fun _ => .inl ?_, fun _ _ => trivial⟩⟩
    obtain rfl := Option.some.inj hs
    exact ⟨rfl, rfl, rfl, rfl⟩
  refine ⟨t, ht, ?_⟩
  refine (weights_right_iff kernelTables_distinct (fun _ => rfl) hstart hkernel).mpr ?_ _ t
    List.prefix_rfl ht
  exact ⟨trivial, fun _ _ => ⟨trivial, fun _ _ => trivial⟩⟩

end System

end Rustlux.BoreC
