import Rustlux.BoreFork
import Rustlux.Lts

/-!
# All tasks together

The contexts of all tasks, the process tree, the tunables and the static keys,
under everything that `0002-bore-cachy.patch` hooks into: run time that is
charged, sleeps and yields, forks, tasks that come back to the fair class,
sysctl writes. What the kernel does on its own (exits, reparenting, changes of
policy or priority) may change anything but the contexts.

One event is taken after the other. The charges do run one at a time, under the
lock of a run queue; a fork and a write of a sysctl are taken whole here,
although in the source nothing keeps two of them apart. `BoreRace` takes them to
pieces.

Penalties travel: a fork copies a context and takes over an average, averages
are cached, and caches are copied with their task. Still no task ever has more
than some burst earned (`penalties_earned`), every run can be taken to its end
(`run_bounded`), and a family that only forks keeps the penalty it started with
(`clan_keeps_penalty`).
-/

namespace Rustlux.BoreC

/-! ## The source -/

/-- The fields of a task that the kernel sets without the hooks of the patch. -/
structure Attrs where
  staticPrio : U32
  isKthread : Bool
  hasIdlePolicy : Bool
  onRq : Bool
  load : LoadWeight
  fairClass : Bool
  exitState : U32
deriving DecidableEq, Repr

def Task.withAttrs (p : Task) (attrs : Attrs) : Task :=
  { staticPrio := attrs.staticPrio, isKthread := attrs.isKthread
    hasIdlePolicy := attrs.hasIdlePolicy, onRq := attrs.onRq, load := attrs.load, bore := p.bore
    fairClass := attrs.fairClass, exitState := attrs.exitState }

def Task.withStruct (p : Task) (q : TaskStruct) : Task := { p with toTaskStruct := q }

def Task.withLoad (p : Task) (load : LoadWeight) : Task := { p with load }

def Task.withBore (p : Task) (bore : BoreCtx) : Task :=
  p.withStruct { p.toTaskStruct with bore }

/-- The entries of `sched_bore_sysctls`. -/
inductive Sysctl where
  | schedBore
  | schedBurstInheritType
  | schedBurstSmoothness
  | schedBurstPenaltyOffset
  | schedBurstPenaltyScale
  | schedBurstCacheLifetime
deriving DecidableEq, Repr

/-- `extra2`; the lifetime has none and takes every `uint`. -/
def Sysctl.max : Sysctl → Nat
  | .schedBore => 1
  | .schedBurstInheritType => 2
  | .schedBurstSmoothness => 3
  | .schedBurstPenaltyOffset => 63
  | .schedBurstPenaltyScale => 4095
  | .schedBurstCacheLifetime => 2 ^ 32 - 1

/-- The variable that an entry's `data` points to, set. -/
def Sysctl.store (params : BoreParams) (value : Nat) : Sysctl → BoreParams
  | .schedBore => { params with enabled := BitVec.ofNat 8 value }
  | .schedBurstInheritType => { params with burstInheritType := BitVec.ofNat 8 value }
  | .schedBurstSmoothness => { params with burstSmoothness := BitVec.ofNat 8 value }
  | .schedBurstPenaltyOffset => { params with burstPenaltyOffset := BitVec.ofNat 8 value }
  | .schedBurstPenaltyScale => { params with burstPenaltyScale := BitVec.ofNat 32 value }
  | .schedBurstCacheLifetime => { params with burstCacheLifetimeNs := BitVec.ofNat 32 value }

theorem store_inRange {params : BoreParams} {entry : Sysctl} {value : Nat}
    (hp : params.InRange) (hvalue : value ≤ entry.max) : (entry.store params value).InRange := by
  have h8 : (BitVec.ofNat 8 value).toNat ≤ value := by
    rw [BitVec.toNat_ofNat]
    exact Nat.mod_le _ _
  have h32 : (BitVec.ofNat 32 value).toNat ≤ value := by
    rw [BitVec.toNat_ofNat]
    exact Nat.mod_le _ _
  cases entry with
  | schedBore => exact ⟨hp.smoothness, hp.offset, hp.scale⟩
  | schedBurstInheritType => exact ⟨hp.smoothness, hp.offset, hp.scale⟩
  | schedBurstSmoothness => exact ⟨Nat.le_trans h8 hvalue, hp.offset, hp.scale⟩
  | schedBurstPenaltyOffset => exact ⟨hp.smoothness, Nat.le_trans h8 hvalue, hp.scale⟩
  | schedBurstPenaltyScale => exact ⟨hp.smoothness, hp.offset, Nat.le_trans h32 hvalue⟩
  | schedBurstCacheLifetime => exact ⟨hp.smoothness, hp.offset, hp.scale⟩

def Sysctl.stored (entry : Sysctl) (params : Tunables) {value : Nat}
    (h : value ≤ entry.max) : Tunables :=
  ⟨entry.store params.val value, store_inRange params.property h⟩

/-- `update_inherit_type`, on the keys. -/
def updateInheritType (inheritType : U8) (keys : Keys) : Keys :=
  if inheritType = 1 then { keys with inherit := true, ancestor := false }
  else if inheritType = 2 then { keys with inherit := true, ancestor := true }
  else { keys with inherit := false }

/-- `sched_init_bore` and the initial values of the variables and keys. -/
def schedInitBore : Tunables × Keys :=
  (Tunables.default, updateInheritType Tunables.default.val.burstInheritType ⟨true, true, true⟩)

structure System (ι : Type) where
  tree : ProcessTree ι
  tasks : ι → Task
  params : Tunables
  keys : Keys

/-- What happens to the contexts. The nested calls are those from inside the
`reweight_entity` of a call. -/
inductive Event (ι : Type) where
  | updateCurr (t : ι) (deltaExec : U64) (inner : NestedCalls)
  | restartBurst (t : ι) (inner : NestedCalls)
  | futexWait (t : ι) (waiting : Bool)
  /-- `current` forks `p`, which has `attrs` when it comes to the hook in
  `copy_process` and is then linked into the tree. -/
  | fork (current p : ι) (pid : U32) (cloneFlags : CloneFlags) (startTime : U64) (attrs : Attrs)
      (tree : ProcessTree ι)
  | switchedToFair (t : ι)
  | sysctl (entry : Sysctl) (value : Nat) (processes : List (ι × NestedCalls))
  | kernel (tree : ProcessTree ι) (attrs : ι → Attrs)

section Step

variable {ι : Type} [DecidableEq ι] (tables : PrioTables)

def System.globals (s : System ι) : Globals := ⟨s.params, s.keys.bore, tables⟩

def System.setTask (s : System ι) (t : ι) (p : Task) : System ι :=
  { s with tasks := Function.update s.tasks t p }

/-- `readjust_all_task_weights` over `for_each_process`. -/
def readjustAllTaskWeights (globals : Globals) :
    List (ι × NestedCalls) → (ι → Task) → (ι → Task)
  | [], tasks => tasks
  | (t, inner) :: rest, tasks =>
      if !taskIsBoreEligible (tasks t) then readjustAllTaskWeights globals rest tasks
      else
        let p := (tasks t).toTaskStruct
        let p := reweightTaskByPrio globals.tables (nestedCalls globals inner) (globals.prio p) p
        readjustAllTaskWeights globals rest (Function.update tasks t ((tasks t).withStruct p))

/-- A write that the handler of the entry has parsed. One out of range is
refused. -/
def writeSysctl (s : System ι) (entry : Sysctl) (value : Nat)
    (processes : List (ι × NestedCalls)) : System ι :=
  if h : value ≤ entry.max then
    let s := { s with params := entry.stored s.params h }
    match entry with
    | .schedBore =>
        let s := { s with keys := { s.keys with bore := s.params.val.enabled != 0 } }
        { s with tasks := readjustAllTaskWeights (s.globals tables) processes s.tasks }
    | .schedBurstInheritType =>
        { s with keys := updateInheritType s.params.val.burstInheritType s.keys }
    | _ => s
  else s

/-- The tasks with `p` a copy of the current one. -/
def System.copied (s : System ι) (current p : ι) (attrs : Attrs) : ι → Task :=
  Function.update s.tasks p ((s.tasks current).withAttrs attrs)

/-- `copy_process`; idle tasks have the pid 0. -/
def System.copyProcess (s : System ι) (current p : ι) (pid : U32) (cloneFlags : CloneFlags)
    (startTime : U64) (attrs : Attrs) : Option (ι → Task) :=
  let copied := s.copied current p attrs
  if pid ≠ 0 then
    taskForkBore copied s.tree s.keys s.params tables p current cloneFlags startTime
  else some copied

/-- `none` is a read past the end of the table of reciprocals. -/
def System.step (s : System ι) : Event ι → Option (System ι)
  | .updateCurr t deltaExec inner =>
      let p := s.tasks t
      let globals := s.globals tables
      some (s.setTask t (p.withStruct
        (updateCurrBore globals (nestedCalls globals inner) p.toTaskStruct deltaExec)))
  | .restartBurst t inner =>
      let p := s.tasks t
      let globals := s.globals tables
      some (s.setTask t (p.withStruct
        (restartBurstBore globals (nestedCalls globals inner) p.toTaskStruct)))
  | .futexWait t waiting =>
      let p := s.tasks t
      some (s.setTask t (p.withBore { p.bore with futexWaiting := waiting }))
  | .fork current p pid cloneFlags startTime attrs tree =>
      (s.copyProcess tables current p pid cloneFlags startTime attrs).map fun tasks =>
        { s with tasks, tree }
  | .switchedToFair t => some (s.setTask t ((s.tasks t).withBore .zero))
  | .sysctl entry value processes => some (writeSysctl tables s entry value processes)
  | .kernel tree attrs => some { s with tree, tasks := fun t => (s.tasks t).withAttrs (attrs t) }

end Step

/-! ## Between calls -/

/-- No call is under way in a context, and no penalty in it is above `bound`. -/
structure BoreCtx.AtMost (bound : Nat) (ctx : BoreCtx) : Prop where
  running : ctx.stopUpdate = false
  prevPenalty : ctx.prevPenalty.toNat ≤ bound
  currPenalty : ctx.currPenalty.toNat ≤ bound
  penalty : ctx.penalty.toNat ≤ bound
  cache : ∀ field, (ctx.cache field).penalty.toNat ≤ bound

theorem BoreCtx.zero_atMost (bound : Nat) : BoreCtx.zero.AtMost bound :=
  { running := rfl, prevPenalty := Nat.zero_le _, currPenalty := Nat.zero_le _
    penalty := Nat.zero_le _, cache := fun field => by cases field <;> exact Nat.zero_le _ }

section Calls

variable (globals : Globals) {inner : NestedCalls} {p : TaskStruct} {bound : Nat}

theorem toNat_effective_le {ctx : BoreCtx} (h : ctx.AtMost bound) (isKthread : Bool) :
    (ctx.effective isKthread).toNat ≤ bound := by
  have hprev := h.prevPenalty
  have hcurr := h.currPenalty
  rw [BoreCtx.effective]
  split
  · exact Nat.zero_le _
  · split <;> assumption

theorem updatePenalty_atMost (h : p.bore.AtMost bound) :
    (updatePenalty globals (nestedCalls globals inner) p).bore.AtMost bound := by
  rw [updatePenalty_eq globals h.running]
  exact { h with penalty := toNat_effective_le h p.isKthread }

/-- A tick brings no penalty but the one that the burst has earned. -/
theorem updateCurrBore_atMost {deltaExec : U64} (h : p.bore.AtMost bound)
    (hearned : (calcBurstPenalty globals.params.val (p.bore.burstTime + deltaExec)).toNat
      ≤ bound) :
    (updateCurrBore globals (nestedCalls globals inner) p deltaExec).bore.AtMost bound := by
  have hcurr : ((calcBurstPenalty globals.params.val
      (p.bore.burstTime + deltaExec)).setWidth 16).toNat ≤ bound := by
    rw [BitVec.toNat_setWidth]
    exact Nat.le_trans (Nat.mod_le _ _) hearned
  have hrunning : ¬p.bore.stopUpdate = true := by simp [h.running]
  rw [updateCurrBore, if_neg hrunning]
  dsimp only
  split
  · exact { h with currPenalty := hcurr }
  · exact updatePenalty_atMost globals { h with currPenalty := hcurr }

/-- The end of a burst brings a penalty between the two that there were. -/
theorem restartBurstBore_atMost (h : p.bore.AtMost bound) :
    (restartBurstBore globals (nestedCalls globals inner) p).bore.AtMost bound := by
  have hc : (p.bore.currPenalty.setWidth 32).toNat = p.bore.currPenalty.toNat :=
    BitVec.toNat_setWidth_of_le (by decide)
  have hq : (p.bore.prevPenalty.setWidth 32).toNat = p.bore.prevPenalty.toNat :=
    BitVec.toNat_setWidth_of_le (by decide)
  have hsmooth := binarySmooth_eq globals.params.property (p.bore.currPenalty.setWidth 32)
    (p.bore.prevPenalty.setWidth 32)
  rw [Rustlux.binarySmooth_eq globals.params.property (by rw [hc]; exact p.bore.currPenalty.isLt),
    hc, hq] at hsmooth
  have hle := smoothed_le globals.params.val p.bore.currPenalty.toNat p.bore.prevPenalty.toNat
  have hprev : ((binarySmooth globals.params.val (p.bore.currPenalty.setWidth 32)
      (p.bore.prevPenalty.setWidth 32)).setWidth 16).toNat ≤ bound := by
    rw [hsmooth, Checked.val_pure, BitVec.toNat_setWidth, BitVec.toNat_ofNat]
    refine Nat.le_trans (Nat.mod_le _ _) (Nat.le_trans (Nat.mod_le _ _) (Nat.le_trans hle ?_))
    exact Nat.max_le.mpr ⟨h.currPenalty, h.prevPenalty⟩
  rw [restartBurstBore]
  exact updatePenalty_atMost globals
    { h with prevPenalty := hprev, currPenalty := Nat.zero_le _ }

end Calls

section Tasks

variable {ι : Type} {tasks : ι → Task} {bound : Nat}

theorem inheritedPenalty_le (h : ∀ t, (tasks t).bore.AtMost bound) (source : CacheSource ι)
    (lifetime : U32) (now : U64) :
    (inheritedPenalty tasks source lifetime now).toNat ≤ bound := by
  by_cases hexpired : burstCacheExpired ((tasks source.owner).cache source) now lifetime = true
  · rw [toNat_inheritedPenalty tasks hexpired]
    refine Nat.max_le.mpr ⟨(h source.owner).penalty, meanPenalty_le fun penalty hmem => ?_⟩
    obtain ⟨t, -, rfl⟩ := mem_samplesUpTo hmem
    exact (h (source.sample t)).penalty
  · rw [inheritedPenalty, if_neg hexpired]
    exact (h source.owner).cache source.field

variable [DecidableEq ι]

theorem update_atMost (h : ∀ t, (tasks t).bore.AtMost bound) {p : Task}
    (hp : p.bore.AtMost bound) (i : ι) :
    ∀ t, (Function.update tasks i p t).bore.AtMost bound := by
  intro t
  by_cases hti : t = i
  · rw [hti, Function.update_self]
    exact hp
  · rw [Function.update_of_ne hti]
    exact h t

theorem refreshed_atMost (h : ∀ t, (tasks t).bore.AtMost bound) (source : CacheSource ι)
    (lifetime : U32) (now : U64) :
    ∀ t, (refreshed tasks source lifetime now t).bore.AtMost bound := by
  have hpenalty := inheritedPenalty_le h source lifetime now
  rw [refreshed]
  split
  · refine update_atMost h ?_ source.owner
    have howner := h source.owner
    obtain ⟨field, owner, visited, sample⟩ := source
    cases field with
    | subtree =>
        refine { howner with cache := fun field => ?_ }
        cases field with
        | subtree => exact (stored_fields now _).2 ▸ hpenalty
        | group => exact howner.cache .group
    | group =>
        refine { howner with cache := fun field => ?_ }
        cases field with
        | subtree => exact howner.cache .subtree
        | group => exact (stored_fields now _).2 ▸ hpenalty
  · exact h

theorem forked_atMost (globals : Globals) {task : Task} (h : task.bore.AtMost bound)
    {inherited : U16} (hinherited : inherited.toNat ≤ bound) :
    (task.forked globals inherited).bore.AtMost bound := by
  have hprev : (if task.bore.prevPenalty < inherited then inherited
      else task.bore.prevPenalty).toNat ≤ bound := by
    split
    · exact hinherited
    · exact h.prevPenalty
  refine { running := rfl, prevPenalty := hprev, currPenalty := Nat.zero_le _, penalty := ?_
           cache := h.cache }
  simp only [Task.forked, Task.inheriting, TaskStruct.withLoad]
  split
  · exact Nat.zero_le _
  · exact hprev

theorem atFork_atMost (h : ∀ t, (tasks t).bore.AtMost bound) (keys : Keys) (tree : ProcessTree ι)
    (params : Tunables) (parent : ι) (cloneFlags : CloneFlags) (now : U64) :
    (atFork tasks keys tree params parent cloneFlags now).1.toNat ≤ bound
      ∧ ∀ t, ((atFork tasks keys tree params parent cloneFlags now).2 t).bore.AtMost bound := by
  rw [atFork]
  split
  · exact ⟨inheritedPenalty_le h _ _ _, refreshed_atMost h _ _ _⟩
  · exact ⟨Nat.zero_le _, h⟩

/-- A fork always goes through, and creates no penalty. -/
theorem taskForkBore_atMost (h : ∀ t, (tasks t).bore.AtMost bound) (keys : Keys)
    (tree : ProcessTree ι) (params : Tunables) (tables : PrioTables) (p parent : ι)
    (cloneFlags : CloneFlags) (now : U64) :
    ∃ tasks', taskForkBore tasks tree keys params tables p parent cloneFlags now = some tasks'
      ∧ ∀ t, (tasks' t).bore.AtMost bound := by
  by_cases hacts : keys.bore = true ∧ taskIsBoreEligible (tasks p) = true
  · obtain ⟨hpenalty, htasks⟩ := atFork_atMost h keys tree params parent cloneFlags now
    exact ⟨_, taskForkBore_eq tasks keys tree hacts.1 hacts.2,
      update_atMost htasks (forked_atMost _ (htasks p) hpenalty) p⟩
  · exact ⟨tasks, taskForkBore_idle tasks keys tree hacts, h⟩

/-- A task that the readjustment comes to, and whose load it sets. -/
def Readjusted (tasks : ι → Task) (processes : List (ι × NestedCalls)) (t : ι) : Prop :=
  (t ∈ processes.map Prod.fst ∧ taskIsBoreEligible (tasks t) = true)
    ∧ (tasks t).hasIdlePolicy = false

instance (tasks : ι → Task) (processes : List (ι × NestedCalls)) :
    DecidablePred (Readjusted tasks processes) := fun _ => inferInstanceAs (Decidable (_ ∧ _))

/-- The readjustment sets loads, and leaves the rest of the tasks alone. -/
theorem readjustAllTaskWeights_eq (globals : Globals) (processes : List (ι × NestedCalls))
    (hrunning : ∀ t, (tasks t).bore.stopUpdate = false) :
    readjustAllTaskWeights globals processes tasks = fun t =>
      if Readjusted tasks processes t then
        (tasks t).withLoad (loadOfPrio globals.tables (globals.prio (tasks t).toTaskStruct))
      else tasks t := by
  induction processes generalizing tasks with
  | nil => simp [readjustAllTaskWeights, Readjusted]
  | cons process rest ih =>
      obtain ⟨t, inner⟩ := process
      rw [readjustAllTaskWeights]
      by_cases helig : taskIsBoreEligible (tasks t) = true
      · rw [if_neg (by simp [helig])]
        dsimp only
        rw [reweightTaskByPrio_eq globals (hrunning t)]
        obtain ⟨q, hq⟩ : ∃ q, q = (tasks t).withStruct ((tasks t).toTaskStruct.withLoad
            (if (tasks t).hasIdlePolicy then (tasks t).load
              else loadOfPrio globals.tables (globals.prio (tasks t).toTaskStruct))) := ⟨_, rfl⟩
        rw [← hq, ih fun t' => ?_]
        · funext t'
          by_cases ht : t' = t
          · subst ht
            rw [Function.update_self]
            cases hidle : (tasks t').hasIdlePolicy with
            | true =>
                have hno : ∀ tasks' : ι → Task, (tasks' t').hasIdlePolicy = true →
                    ∀ processes, ¬Readjusted tasks' processes t' := by
                  intro tasks' hidle' processes h
                  exact absurd (hidle'.symm.trans h.2) nofun
                have hqt : q = tasks t' := by
                  rw [hq, hidle, if_pos rfl]
                  rfl
                rw [hqt, Function.update_eq_self, if_neg (hno _ hidle _), if_neg (hno _ hidle _)]
            | false =>
                -- set now, and perhaps once more later
                have hfirst : Readjusted tasks ((t', inner) :: rest) t' :=
                  ⟨⟨List.mem_cons_self, helig⟩, hidle⟩
                have hqt : q = (tasks t').withLoad
                    (loadOfPrio globals.tables (globals.prio (tasks t').toTaskStruct)) := by
                  rw [hq, hidle, if_neg Bool.false_ne_true]
                  rfl
                rw [if_pos hfirst, hqt]
                split <;> rfl
          · rw [Function.update_of_ne ht]
            refine if_congr ?_ rfl rfl
            simp [Readjusted, ht]
        · by_cases ht : t' = t
          · rw [ht, Function.update_self, hq]
            exact hrunning t
          · rw [Function.update_of_ne ht]
            exact hrunning t'
      · rw [if_pos (by simp [helig]), ih hrunning]
        funext t'
        refine if_congr ?_ rfl rfl
        by_cases ht : t' = t
        · simp [Readjusted, ht, helig]
        · simp [Readjusted, ht]

end Tasks

/-! ## Penalties are earned -/

def userAttrs : Attrs :=
  { staticPrio := 120, isKthread := false, hasIdlePolicy := false, onRq := false
    load := loadOfPrio kernelTables 20, fairClass := true, exitState := 0 }

/-- The shell, at boot. -/
def shellSystem : System ShellTask :=
  { tree := shellTree, tasks := fun _ => userTask .zero, params := schedInitBore.1
    keys := schedInitBore.2 }

/-- The editor forks at a time. -/
def shellFork (startTime : U64) : Event ShellTask :=
  .fork .editor .spare 42 ⟨false, false⟩ startTime userAttrs shellTree

namespace System

variable {ι : Type}

/-- Between events, with no penalty above `bound` anywhere. -/
def AtMost (bound : Nat) (s : System ι) : Prop := ∀ t, (s.tasks t).bore.AtMost bound

/-- If the event is a tick, its burst has not earned more than `bound`. -/
def EarnsAtMost (bound : Nat) (s : System ι) : Event ι → Prop
  | .updateCurr t deltaExec _ =>
      (calcBurstPenalty s.params.val ((s.tasks t).bore.burstTime + deltaExec)).toNat ≤ bound
  | _ => True

theorem calcBurstPenalty_le (params : Tunables) (burstTime : U64) :
    (calcBurstPenalty params.val burstTime).toNat ≤ MAX_BURST_PENALTY.toNat := by
  rw [BoreC.calcBurstPenalty_eq, Rustlux.calcBurstPenalty_eq params.property, Checked.val_pure,
    BitVec.toNat_ofNat]
  exact Nat.le_trans (Nat.mod_le _ _) (penaltyOf_le _ _)

theorem earnsAtMost_max (s : System ι) (event : Event ι) :
    s.EarnsAtMost MAX_BURST_PENALTY.toNat event := by
  cases event with
  | updateCurr t deltaExec inner => exact calcBurstPenalty_le s.params _
  | _ => trivial

variable [DecidableEq ι] {tables : PrioTables} {bound : Nat}

variable (tables) in
/-- A write of a sysctl changes nothing in the tasks but their loads. -/
theorem writeSysctl_tasks {s : System ι} (hrunning : ∀ t, (s.tasks t).bore.stopUpdate = false)
    (entry : Sysctl) (value : Nat) (processes : List (ι × NestedCalls)) (t : ι) :
    ∃ load, (writeSysctl tables s entry value processes).tasks t = (s.tasks t).withLoad load := by
  rw [writeSysctl]
  split
  · cases entry with
    | schedBore =>
        dsimp only
        rw [readjustAllTaskWeights_eq _ processes hrunning]
        dsimp only
        split
        · exact ⟨_, rfl⟩
        · exact ⟨_, rfl⟩
    | _ => exact ⟨_, rfl⟩
  · exact ⟨_, rfl⟩

variable (tables) in
theorem step_atMost {s : System ι} {event : Event ι} (h : s.AtMost bound)
    (hearned : s.EarnsAtMost bound event) :
    ∃ s', s.step tables event = some s' ∧ s'.AtMost bound := by
  cases event with
  | updateCurr t deltaExec inner =>
      exact ⟨_, rfl, update_atMost h (updateCurrBore_atMost (s.globals tables) (h t) hearned) t⟩
  | restartBurst t inner =>
      exact ⟨_, rfl, update_atMost h (restartBurstBore_atMost (s.globals tables) (h t)) t⟩
  | futexWait t waiting =>
      have ht := h t
      have hwait : ((s.tasks t).withBore
          { (s.tasks t).bore with futexWaiting := waiting }).bore.AtMost bound :=
        ⟨ht.running, ht.prevPenalty, ht.currPenalty, ht.penalty, ht.cache⟩
      exact ⟨_, rfl, update_atMost h hwait t⟩
  | fork current p pid cloneFlags startTime attrs tree =>
      have hcopied : ∀ t, (s.copied current p attrs t).bore.AtMost bound :=
        update_atMost h (p := (s.tasks current).withAttrs attrs) (h current) p
      obtain ⟨tasks', hfork, htasks⟩ := taskForkBore_atMost hcopied s.keys s.tree s.params
        tables p current cloneFlags startTime
      by_cases hpid : pid ≠ 0
      · refine ⟨{ s with tasks := tasks', tree }, ?_, htasks⟩
        rw [step, copyProcess, if_pos hpid, hfork]
        rfl
      · refine ⟨{ s with tasks := s.copied current p attrs, tree }, ?_, hcopied⟩
        rw [step, copyProcess, if_neg hpid]
        rfl
  | switchedToFair t => exact ⟨_, rfl, update_atMost h (BoreCtx.zero_atMost bound) t⟩
  | sysctl entry value processes =>
      refine ⟨_, rfl, fun t => ?_⟩
      obtain ⟨load, hload⟩ := writeSysctl_tasks tables (fun t => (h t).running)
        entry value processes t
      rw [hload]
      exact h t
  | kernel tree attrs => exact ⟨_, rfl, h⟩

/-- **Penalties are earned**: whatever is forked, averaged, cached and smoothed
on the way, no penalty exceeds what was there at the start or what some burst
of the run has earned. -/
theorem penalties_earned {s t : System ι} {events : List (Event ι)} (hstart : s.AtMost bound)
    (hearned : Lts.Along (System.step tables) (EarnsAtMost bound) s events)
    (hrun : Lts.run (System.step tables) s events = some t) : t.AtMost bound := by
  refine Lts.run_invariant_along (EarnsAtMost bound) (fun s event s' hs hgood hstep => ?_)
    hstart hearned hrun
  obtain ⟨s'', hs'', hbound⟩ := step_atMost tables hs hgood
  obtain rfl := Option.some.inj (hstep.symm.trans hs'')
  exact hbound

theorem score_le {ctx : BoreCtx} (h : ctx.AtMost MAX_BURST_PENALTY.toNat) :
    ctx.score.toNat ≤ 39 := by
  have hmax : MAX_BURST_PENALTY.toNat = 10239 := rfl
  have hpenalty := h.penalty
  rw [BoreCtx.score, BitVec.toNat_setWidth, BitVec.toNat_ushiftRight, Nat.shiftRight_eq_div_pow]
  omega

/-- The compiler runs for a second, then the editor forks. -/
theorem penalties_earned_shell :
    ∃ t, Lts.run (System.step kernelTables) shellSystem
        [.updateCurr .compiler 1000000000 .nil, shellFork 2000000000] = some t ∧ t.AtMost 3000 := by
  obtain ⟨t, ht⟩ := Option.isSome_iff_exists.mp (by decide +kernel :
    (Lts.run (System.step kernelTables) shellSystem
      [.updateCurr .compiler 1000000000 .nil, shellFork 2000000000]).isSome = true)
  refine ⟨t, ht, penalties_earned (fun i => BoreCtx.zero_atMost 3000) ?_ ht⟩
  have htick : shellSystem.EarnsAtMost 3000 (.updateCurr .compiler 1000000000 .nil) := by
    change (calcBurstPenalty Tunables.default.val (0 + 1000000000)).toNat ≤ 3000
    decide +kernel
  exact ⟨htick, fun _ _ => ⟨trivial, fun _ _ => trivial⟩⟩

/-- **Every run from boot goes through**: no fork reads past the end of the
table of reciprocals, and no penalty or score leaves its range. -/
theorem run_bounded {s : System ι} (hboot : ∀ t, (s.tasks t).bore = .zero)
    (events : List (Event ι)) :
    ∃ t, Lts.run (System.step tables) s events = some t
      ∧ t.AtMost MAX_BURST_PENALTY.toNat ∧ ∀ i, (t.tasks i).bore.score.toNat ≤ 39 := by
  have hstart : s.AtMost MAX_BURST_PENALTY.toNat := fun t => by
    rw [hboot t]
    exact BoreCtx.zero_atMost _
  clear hboot
  induction events generalizing s with
  | nil => exact ⟨s, rfl, hstart, fun i => score_le (hstart i)⟩
  | cons event events ih =>
      obtain ⟨s', hs', hbound⟩ := step_atMost tables hstart (earnsAtMost_max s event)
      obtain ⟨t, ht, hresult⟩ := ih hbound
      exact ⟨t, by rw [Lts.run_cons hs', ht], hresult⟩

/-- The shell forks at boot. -/
theorem run_bounded_shell :
    ∃ t, Lts.run (System.step kernelTables) shellSystem [shellFork 1000000000] = some t
      ∧ t.AtMost MAX_BURST_PENALTY.toNat ∧ ∀ i, (t.tasks i).bore.score.toNat ≤ 39 :=
  run_bounded (fun _ => rfl) _

/-! ## Forks shed no penalty -/

/-- No call is under way. -/
def Running (s : System ι) : Prop := ∀ t, (s.tasks t).bore.stopUpdate = false

variable (tables) in
/-- Every event goes through, and leaves no call under way. -/
theorem step_total {s : System ι} (h : s.Running) (event : Event ι) :
    ∃ s', s.step tables event = some s' ∧ s'.Running := by
  -- any bound that every 16-bit penalty meets
  have hbound : s.AtMost (2 ^ 16) := fun t =>
    { running := h t, prevPenalty := Nat.le_of_lt (BitVec.isLt _)
      currPenalty := Nat.le_of_lt (BitVec.isLt _), penalty := Nat.le_of_lt (BitVec.isLt _)
      cache := fun _ => Nat.le_of_lt (BitVec.isLt _) }
  have hearned : s.EarnsAtMost (2 ^ 16) event := by
    cases event with
    | updateCurr t deltaExec inner =>
        exact Nat.le_trans (calcBurstPenalty_le s.params _) (by decide)
    | _ => trivial
  obtain ⟨s', hs', h'⟩ := step_atMost tables hbound hearned
  exact ⟨s', hs', fun t => (h' t).running⟩

theorem step_running {s s' : System ι} {event : Event ι} (h : s.Running)
    (hstep : s.step tables event = some s') : s'.Running := by
  obtain ⟨s'', hs'', h'⟩ := step_total tables h event
  obtain rfl := Option.some.inj (hstep.symm.trans hs'')
  exact h'

/-- The members of a clan after an event: what a member forks is one. -/
def clanAfter (clan : ι → Prop) : Event ι → ι → Prop
  | .fork current p _ _ _ _ _ => Function.update clan p (clan current)
  | _ => clan

/-- One event of the system, with a clan. -/
def clanStep (tables : PrioTables) (x : System ι × (ι → Prop)) (event : Event ι) :
    Option (System ι × (ι → Prop)) :=
  (x.1.step tables event).map fun s' => (s', clanAfter x.2 event)

/-- No member sleeps, yields or comes back from another class, and none is a
kernel thread. -/
def Restless (x : System ι × (ι → Prop)) : Event ι → Prop
  | .restartBurst t _ => ¬x.2 t
  | .switchedToFair t => ¬x.2 t
  | .fork current _ _ _ _ attrs _ => x.2 current → attrs.isKthread = false
  | .kernel _ attrs => ∀ t, x.2 t → (attrs t).isKthread = false
  | _ => True

end System

/-- A user task with a penalty from `floor` on, which it also starts its next
burst with. -/
structure TaskStruct.AtLeast (floor : Nat) (p : TaskStruct) : Prop where
  isUser : p.isKthread = false
  prevPenalty : floor ≤ p.bore.prevPenalty.toNat
  penalty : floor ≤ p.bore.penalty.toNat

namespace System

variable {ι : Type} [DecidableEq ι] {tables : PrioTables} {floor : Nat}

theorem updatePenalty_atLeast {globals : Globals} {inner : NestedCalls} {p : TaskStruct}
    (hrunning : p.bore.stopUpdate = false) (hisUser : p.isKthread = false)
    (hprev : floor ≤ p.bore.prevPenalty.toNat) :
    (updatePenalty globals (nestedCalls globals inner) p).AtLeast floor := by
  rw [updatePenalty_eq globals hrunning]
  refine ⟨hisUser, hprev, ?_⟩
  simp only [TaskStruct.withPenalty, BoreCtx.effective, hisUser, Bool.false_eq_true, if_false]
  split
  · exact hprev
  · rename_i hle
    exact Nat.le_trans hprev (Nat.le_of_not_lt hle)

theorem updateCurrBore_atLeast {globals : Globals} {inner : NestedCalls} {p : TaskStruct}
    {deltaExec : U64} (hrunning : p.bore.stopUpdate = false) (h : p.AtLeast floor) :
    (updateCurrBore globals (nestedCalls globals inner) p deltaExec).AtLeast floor := by
  have hne : ¬p.bore.stopUpdate = true := by simp [hrunning]
  rw [updateCurrBore, if_neg hne]
  dsimp only
  split
  · exact ⟨h.isUser, h.prevPenalty, h.penalty⟩
  · exact updatePenalty_atLeast hrunning h.isUser h.prevPenalty

theorem forked_atLeast (globals : Globals) {task : Task} (h : task.AtLeast floor)
    (inherited : U16) : (task.forked globals inherited).AtLeast floor := by
  have hprev : floor ≤ (if task.bore.prevPenalty < inherited then inherited
      else task.bore.prevPenalty).toNat := by
    split
    · rename_i hlt
      exact Nat.le_trans h.prevPenalty (Nat.le_of_lt hlt)
    · exact h.prevPenalty
  refine ⟨h.isUser, hprev, ?_⟩
  simp only [Task.forked, Task.inheriting, TaskStruct.withLoad, h.isUser, Bool.false_eq_true,
    if_false]
  exact hprev

theorem refreshed_atLeast {tasks : ι → Task} {source : CacheSource ι} {lifetime : U32} {now : U64}
    {t : ι} (h : (tasks t).AtLeast floor) :
    (refreshed tasks source lifetime now t).AtLeast floor := by
  rw [refreshed]
  split
  · by_cases ht : t = source.owner
    · subst ht
      rw [Function.update_self]
      obtain ⟨field, owner, visited, sample⟩ := source
      cases field with
      | subtree => exact ⟨h.isUser, h.prevPenalty, h.penalty⟩
      | group => exact ⟨h.isUser, h.prevPenalty, h.penalty⟩
    · rw [Function.update_of_ne ht]
      exact h
  · exact h

theorem taskForkBore_atLeast {tasks tasks' : ι → Task} {keys : Keys} {tree : ProcessTree ι}
    {params : Tunables} {p parent t : ι} {cloneFlags : CloneFlags} {now : U64}
    (hfork : taskForkBore tasks tree keys params tables p parent cloneFlags now = some tasks')
    (h : (tasks t).AtLeast floor) : (tasks' t).AtLeast floor := by
  by_cases hacts : keys.bore = true ∧ taskIsBoreEligible (tasks p) = true
  · rw [taskForkBore_eq tasks keys tree hacts.1 hacts.2] at hfork
    obtain rfl := Option.some.inj hfork
    have hat : ((atFork tasks keys tree params parent cloneFlags now).2 t).AtLeast floor := by
      rw [atFork]
      split
      · exact refreshed_atLeast h
      · exact h
    by_cases ht : t = p
    · subst ht
      rw [Function.update_self]
      exact forked_atLeast _ hat _
    · rw [Function.update_of_ne ht]
      exact hat
  · rw [taskForkBore_idle tasks keys tree hacts] at hfork
    obtain rfl := Option.some.inj hfork
    exact h

/-- What the steps of a restless clan keep. -/
structure ClanKeeps (floor : Nat) (x : System ι × (ι → Prop)) : Prop where
  running : x.1.Running
  atLeast : ∀ t, x.2 t → (x.1.tasks t).AtLeast floor

theorem updated_atLeast {tasks : ι → Task} {clan : ι → Prop} {p : Task} {i : ι}
    (h : ∀ t, clan t → (tasks t).AtLeast floor) (hp : clan i → p.AtLeast floor) :
    ∀ t, clan t → (Function.update tasks i p t).AtLeast floor := by
  intro t ht
  by_cases hti : t = i
  · subst hti
    rw [Function.update_self]
    exact hp ht
  · rw [Function.update_of_ne hti]
    exact h t ht

theorem clanStep_keeps {x y : System ι × (ι → Prop)} {event : Event ι}
    (h : ClanKeeps floor x) (hrestless : Restless x event)
    (hstep : clanStep tables x event = some y) : ClanKeeps floor y := by
  obtain ⟨s, clan⟩ := x
  obtain ⟨s', hs', rfl⟩ := Option.map_eq_some_iff.mp hstep
  have hrunning := h.running
  refine ⟨step_running hrunning hs', ?_⟩
  cases event with
  | updateCurr t deltaExec inner =>
      cases hs'
      exact updated_atLeast h.atLeast fun ht => updateCurrBore_atLeast (hrunning t) (h.atLeast t ht)
  | restartBurst t inner =>
      cases hs'
      exact updated_atLeast h.atLeast fun ht => absurd ht hrestless
  | futexWait t waiting =>
      cases hs'
      refine updated_atLeast h.atLeast fun ht => ?_
      have hkeep := h.atLeast t ht
      exact ⟨hkeep.isUser, hkeep.prevPenalty, hkeep.penalty⟩
  | fork current p pid cloneFlags startTime attrs tree =>
      have hcopied : ∀ t, Function.update clan p (clan current) t →
          (s.copied current p attrs t).AtLeast floor := by
        intro t ht
        rw [copied]
        by_cases htp : t = p
        · subst htp
          rw [Function.update_self] at ht ⊢
          have hkeep := h.atLeast current ht
          exact ⟨hrestless ht, hkeep.prevPenalty, hkeep.penalty⟩
        · rw [Function.update_of_ne htp] at ht ⊢
          exact h.atLeast t ht
      intro t ht
      obtain ⟨tasks', hfork, rfl⟩ := Option.map_eq_some_iff.mp hs'
      rw [copyProcess] at hfork
      by_cases hpid : pid ≠ 0
      · rw [if_pos hpid] at hfork
        exact taskForkBore_atLeast hfork (hcopied t ht)
      · rw [if_neg hpid] at hfork
        cases hfork
        exact hcopied t ht
  | switchedToFair t =>
      cases hs'
      exact updated_atLeast h.atLeast fun ht => absurd ht hrestless
  | sysctl entry value processes =>
      cases hs'
      intro t ht
      obtain ⟨load, hload⟩ := writeSysctl_tasks tables hrunning entry value processes t
      have hkeep := h.atLeast t ht
      rw [hload]
      exact ⟨hkeep.isUser, hkeep.prevPenalty, hkeep.penalty⟩
  | kernel tree attrs =>
      cases hs'
      intro t ht
      have hkeep := h.atLeast t ht
      exact ⟨hrestless t ht, hkeep.prevPenalty, hkeep.penalty⟩

/-- **Forks shed no penalty**: while the tasks that come from one only run and
fork, each of them keeps the penalty that the first had. -/
theorem clan_keeps_penalty {x y : System ι × (ι → Prop)} {events : List (Event ι)}
    (hrunning : x.1.Running) (hstart : ∀ t, x.2 t → (x.1.tasks t).AtLeast floor)
    (hrestless : Lts.Along (clanStep tables) Restless x events)
    (hrun : Lts.run (clanStep tables) x events = some y) :
    ∀ t, y.2 t → (y.1.tasks t).AtLeast floor := by
  have hkeeps : ClanKeeps floor y :=
    Lts.run_invariant_along Restless (fun _ _ _ h hgood hstep => clanStep_keeps h hgood hstep)
      ⟨hrunning, hstart⟩ hrestless hrun
  exact hkeeps.atLeast

/-- The shell, with a penalty of 800 for the editor. -/
def burdenedShell : System ShellTask :=
  shellSystem.setTask .editor (userTask { BoreCtx.zero with prevPenalty := 800, penalty := 800 })

/-- The editor runs and forks. -/
theorem clan_keeps_penalty_shell :
    ∃ y, Lts.run (clanStep kernelTables) (burdenedShell, fun t => t = .editor)
        [.updateCurr .editor 1000000 .nil, shellFork 1000000000] = some y
      ∧ ∀ t, y.2 t → (y.1.tasks t).AtLeast 800 := by
  obtain ⟨y, hy⟩ := Option.isSome_iff_exists.mp (by decide +kernel :
    (Lts.run (clanStep kernelTables) (burdenedShell, fun t => t = .editor)
      [.updateCurr .editor 1000000 .nil, shellFork 1000000000]).isSome = true)
  have hrunning : burdenedShell.Running := by
    intro t
    cases t <;> decide
  refine ⟨y, hy, clan_keeps_penalty hrunning ?_ ?_ hy⟩
  · rintro t rfl
    exact ⟨rfl, Nat.le_refl _, Nat.le_refl _⟩
  · exact ⟨trivial, fun _ _ => ⟨fun _ => rfl, fun _ _ => trivial⟩⟩

end System

end Rustlux.BoreC
