import Mathlib.Logic.Function.Basic
import Rustlux.BoreAverage
import Rustlux.BoreC
import Rustlux.BoreCache
import Rustlux.BoreTree

/-!
# Inheritance at fork

`task_fork_bore` and the three `inherit_from_` functions of
`kernel/sched/bore.c`. Each of them looks into the cache of one task (the
parent, the ancestor hub, the leader of the thread group) and, when the cache
has expired, averages the penalties of the tasks around that one and stores the
larger of the average and the task's own penalty.

The scan stops at 63 samples or 126 tasks, so the table of reciprocals is
never read past its end, no total overflows, and what is stored is the exact
mean of the samples, rounded down (`inherit_exact`).
-/

namespace Rustlux.BoreC

/-! ## The source -/

/-- `struct task_struct`, with what makes a scan skip it. -/
structure Task extends TaskStruct where
  fairClass : Bool
  exitState : U32
deriving DecidableEq, Repr

def taskIsBoreEligible (p : Task) : Bool := p.fairClass && p.exitState == 0

/-- `reset_task_bore`. -/
def BoreCtx.zero : BoreCtx :=
  { burstTime := 0, prevPenalty := 0, currPenalty := 0, penalty := 0, stopUpdate := false
    futexWaiting := false, subtree := 0, group := 0 }

/-- A user task of the default priority. -/
def userTask (bore : BoreCtx) : Task :=
  { staticPrio := 120, isKthread := false, hasIdlePolicy := false, onRq := true
    load := loadOfPrio kernelTables 20, bore, fairClass := true, exitState := 0 }

/-- The caches of a context: over the children, and over the thread group. -/
inductive CacheField where
  | subtree
  | group
deriving DecidableEq, Repr

def BoreCtx.cache (ctx : BoreCtx) : CacheField → BoreBc
  | .subtree => ⟨ctx.subtree⟩
  | .group => ⟨ctx.group⟩

def BoreCtx.setCache (ctx : BoreCtx) (bc : BoreBc) : CacheField → BoreCtx
  | .subtree => { ctx with subtree := bc.value }
  | .group => { ctx with group := bc.value }

def BURST_CACHE_SCAN_LIMIT : Nat := BURST_CACHE_SAMPLE_LIMIT * 2

/-- As `sched_init_bore` fills it; entry 0 stays 0. -/
def boreReciprocalLut : List U32 :=
  (List.range' 1 BURST_CACHE_SAMPLE_LIMIT).foldl (fun lut i => lut.set i (reciprocal i))
    (List.replicate (BURST_CACHE_SAMPLE_LIMIT + 1) 0)

section Inherit

variable {ι : Type} (tasks : ι → Task)

/-- The loop of the `inherit_from_` functions: the number of samples, and the
total of their penalties. -/
def scanSamples (sample : ι → ι) : List ι → Nat → U32 → Nat → Nat × U32
  | [], count, total, _ => (count, total)
  | visited :: rest, count, total, scanCount =>
      if count ≥ BURST_CACHE_SAMPLE_LIMIT then (count, total)
      else if scanCount ≥ BURST_CACHE_SCAN_LIMIT then (count, total)
      else
        let p := tasks (sample visited)
        if !taskIsBoreEligible p then scanSamples sample rest count total (scanCount + 1)
        else
          scanSamples sample rest (count + 1) (total + p.bore.penalty.setWidth 32) (scanCount + 1)

/-- The `average` of `update_burst_cache`; `none` is a read past the end of the
table. -/
def cacheAverage (count : Nat) (total : U32) : Option U32 :=
  if count = 1 then some total
  else
    boreReciprocalLut[count]?.map fun recip =>
      ((total.setWidth 64 * recip.setWidth 64 : U64) >>> 32).setWidth 32

def updateBurstCache (penalty : U16) (count : Nat) (total : U32) (now : U64) : Option BoreBc := do
  let average ← cacheAverage count total
  let larger : U32 := if average > penalty.setWidth 32 then average else penalty.setWidth 32
  some (.ofFields (now >>> BORE_BC_TIMESTAMP_SHIFT) (larger.setWidth 16))

/-- A cache, the list that its scan goes through, and the task sampled for each
entry. -/
structure CacheSource (ι : Type) where
  field : CacheField
  owner : ι
  visited : List ι
  sample : ι → ι

/-- The flags of a clone that the calls test. -/
structure CloneFlags where
  parent : Bool
  thread : Bool
deriving DecidableEq, Repr

def Task.cache (p : Task) (source : CacheSource ι) : BoreBc := p.bore.cache source.field

def Task.setCache (p : Task) (source : CacheSource ι) (bc : BoreBc) : Task :=
  { p with bore := p.bore.setCache bc source.field }

variable (tree : ProcessTree ι)

def parentSource (parent : ι) (cloneFlags : CloneFlags) : CacheSource ι :=
  let parent := if cloneFlags.parent then tree.realParent parent else parent
  ⟨.subtree, parent, tree.children parent, id⟩

def threadGroupSource (p : ι) : CacheSource ι :=
  let leader := tree.groupLeader p
  ⟨.group, leader, tree.threads leader, id⟩

variable [DecidableEq ι]

/-- What the three `inherit_from_` functions do with their cache. -/
def inheritThrough (source : CacheSource ι) (lifetime : U32) (now : U64) :
    Option (U32 × (ι → Task)) := do
  let p := tasks source.owner
  let tasks ←
    if burstCacheExpired (p.cache source) now lifetime then do
      let (count, total) := scanSamples tasks source.sample source.visited 0 0 0
      let newBc ← updateBurstCache p.bore.penalty count total now
      some (Function.update tasks source.owner (p.setCache source newBc))
    else some tasks
  some (((tasks source.owner).cache source).penalty.setWidth 32, tasks)

def ancestorHubSource (parent : ι) (cloneFlags : CloneFlags) : CacheSource ι :=
  let ancestor := tree.ancestorHub parent cloneFlags.parent
  ⟨.subtree, ancestor, tree.children ancestor, tree.sampled⟩

def inheritFromParent (parent : ι) (cloneFlags : CloneFlags) (lifetime : U32) (now : U64) :
    Option (U32 × (ι → Task)) :=
  inheritThrough tasks (parentSource tree parent cloneFlags) lifetime now

def inheritFromAncestorHub (parent : ι) (cloneFlags : CloneFlags) (lifetime : U32) (now : U64) :
    Option (U32 × (ι → Task)) :=
  inheritThrough tasks (ancestorHubSource tree parent cloneFlags) lifetime now

def inheritFromThreadGroup (p : ι) (lifetime : U32) (now : U64) : Option (U32 × (ι → Task)) :=
  inheritThrough tasks (threadGroupSource tree p) lifetime now

/-- The static keys `sched_bore_key`, `sched_burst_inherit_key` and
`sched_burst_ancestor_key`. -/
structure Keys where
  bore : Bool
  inherit : Bool
  ancestor : Bool
deriving DecidableEq, Repr

variable (keys : Keys) (params : Tunables) (tables : PrioTables)

/-- The `inherited_penalty` of `task_fork_bore`. -/
def penaltyAtFork (parent : ι) (cloneFlags : CloneFlags) (now : U64) :
    Option (U32 × (ι → Task)) :=
  let lifetime := params.val.burstCacheLifetimeNs
  if cloneFlags.thread then inheritFromThreadGroup tasks tree parent lifetime now
  else if keys.inherit then
    if keys.ancestor then inheritFromAncestorHub tasks tree parent cloneFlags lifetime now
    else inheritFromParent tasks tree parent cloneFlags lifetime now
  else some (0, tasks)

/-- The rest of `task_fork_bore`. The new task is on no queue yet, so nothing
is reweighted in one. -/
def startContext (task : Task) (inheritedPenalty : U32) : Task :=
  let ctx := task.bore
  let ctx := if ctx.prevPenalty.setWidth 32 < inheritedPenalty then
      { ctx with prevPenalty := inheritedPenalty.setWidth 16 }
    else ctx
  let ctx :=
    { ctx with currPenalty := 0, burstTime := 0, stopUpdate := false, futexWaiting := false }
  let p : TaskStruct := { task.toTaskStruct with bore := ctx }
  { task with toTaskStruct := updatePenalty ⟨params, keys.bore, tables⟩ id p }

/-- `p` is the new task, a copy of the current one. -/
def taskForkBore (p parent : ι) (cloneFlags : CloneFlags) (now : U64) : Option (ι → Task) :=
  if !keys.bore || !taskIsBoreEligible (tasks p) then some tasks
  else do
    let (inheritedPenalty, tasks) ← penaltyAtFork tasks tree keys params parent cloneFlags now
    some (Function.update tasks p (startContext keys params tables (tasks p) inheritedPenalty))

end Inherit

/-! ## The scan -/

section Scan

variable {ι : Type} (tasks : ι → Task) (sample : ι → ι)

/-- The tasks that a scan samples which may take `count` more samples from `scans` more
entries. -/
def sampledUpTo (count scans : Nat) (visited : List ι) : List ι :=
  (((visited.take scans).map sample).filter fun t => taskIsBoreEligible (tasks t)).take count

def samplesUpTo (count scans : Nat) (visited : List ι) : List U16 :=
  (sampledUpTo tasks sample count scans visited).map fun t => (tasks t).bore.penalty

/-- The tasks that a whole scan samples. -/
def sampledTasks (visited : List ι) : List ι :=
  sampledUpTo tasks sample BURST_CACHE_SAMPLE_LIMIT BURST_CACHE_SCAN_LIMIT visited

/-- The penalties that a whole scan adds up. -/
def samples (visited : List ι) : List U16 :=
  samplesUpTo tasks sample BURST_CACHE_SAMPLE_LIMIT BURST_CACHE_SCAN_LIMIT visited

theorem length_samples_le (visited : List ι) :
    (samples tasks sample visited).length ≤ BURST_CACHE_SAMPLE_LIMIT := by
  rw [samples, samplesUpTo, sampledUpTo, List.length_map]
  exact List.length_take_le _ _

variable {tasks sample}

theorem sampledUpTo_cons {t : ι} (helig : taskIsBoreEligible (tasks (sample t)) = true)
    (count scans : Nat) (rest : List ι) :
    sampledUpTo tasks sample (count + 1) (scans + 1) (t :: rest)
      = sample t :: sampledUpTo tasks sample count scans rest := by
  rw [sampledUpTo, List.take_succ_cons, List.map_cons, List.filter_cons, if_pos helig,
    List.take_succ_cons, sampledUpTo]

theorem sampledUpTo_cons_skip {t : ι} (helig : ¬taskIsBoreEligible (tasks (sample t)) = true)
    (count scans : Nat) (rest : List ι) :
    sampledUpTo tasks sample count (scans + 1) (t :: rest)
      = sampledUpTo tasks sample count scans rest := by
  rw [sampledUpTo, List.take_succ_cons, List.map_cons, List.filter_cons, if_neg helig, sampledUpTo]

theorem mem_samplesUpTo {count scans : Nat} {visited : List ι} {penalty : U16}
    (h : penalty ∈ samplesUpTo tasks sample count scans visited) :
    ∃ t ∈ visited, (tasks (sample t)).bore.penalty = penalty := by
  obtain ⟨s, hs, rfl⟩ := List.mem_map.mp h
  obtain ⟨t, ht, rfl⟩ := List.mem_map.mp (List.mem_filter.mp (List.mem_of_mem_take hs)).1
  exact ⟨t, List.mem_of_mem_take ht, rfl⟩

theorem scanSamples_from (visited : List ι) :
    ∀ {count scanCount : Nat} {total : U32},
      scanSamples tasks sample visited count total scanCount
        = (count + (samplesUpTo tasks sample (BURST_CACHE_SAMPLE_LIMIT - count)
              (BURST_CACHE_SCAN_LIMIT - scanCount) visited).length,
            total + penaltyTotal (samplesUpTo tasks sample (BURST_CACHE_SAMPLE_LIMIT - count)
              (BURST_CACHE_SCAN_LIMIT - scanCount) visited)) := by
  have hnil : ∀ total : U32, total + penaltyTotal [] = total := fun total => BitVec.add_zero total
  have hcons : ∀ (penalty : U16) (rest : List U16),
      penaltyTotal (penalty :: rest) = penalty.setWidth 32 + penaltyTotal rest := by
    intro penalty rest
    rw [penaltyTotal, penaltyTotal, List.map_cons, List.sum_cons, BitVec.ofNat_add,
      BitVec.ofNat_toNat]
  induction visited with
  | nil =>
      intro count scanCount total
      simp [scanSamples, samplesUpTo, sampledUpTo, hnil]
  | cons t rest ih =>
      intro count scanCount total
      rw [scanSamples]
      by_cases hcount : count ≥ BURST_CACHE_SAMPLE_LIMIT
      · rw [if_pos hcount, Nat.sub_eq_zero_of_le hcount]
        simp [samplesUpTo, sampledUpTo, hnil]
      by_cases hscan : scanCount ≥ BURST_CACHE_SCAN_LIMIT
      · rw [if_neg hcount, if_pos hscan, Nat.sub_eq_zero_of_le hscan]
        simp [samplesUpTo, sampledUpTo, hnil]
      have hscans : BURST_CACHE_SCAN_LIMIT - scanCount
          = (BURST_CACHE_SCAN_LIMIT - (scanCount + 1)) + 1 := by omega
      rw [if_neg hcount, if_neg hscan, hscans]
      by_cases helig : taskIsBoreEligible (tasks (sample t)) = true
      · have hcounts : BURST_CACHE_SAMPLE_LIMIT - count
            = (BURST_CACHE_SAMPLE_LIMIT - (count + 1)) + 1 := by omega
        have hsamples : ∀ n m, samplesUpTo tasks sample (n + 1) (m + 1) (t :: rest)
            = (tasks (sample t)).bore.penalty :: samplesUpTo tasks sample n m rest := by
          intro n m
          rw [samplesUpTo, sampledUpTo_cons helig, List.map_cons, samplesUpTo]
        rw [hcounts, hsamples, hcons, List.length_cons, if_neg (by simp [helig]), ih,
          ← BitVec.add_assoc]
        exact Prod.ext (by omega) rfl
      · have hsamples : ∀ n m, samplesUpTo tasks sample n (m + 1) (t :: rest)
            = samplesUpTo tasks sample n m rest := by
          intro n m
          rw [samplesUpTo, sampledUpTo_cons_skip helig, samplesUpTo]
        rw [hsamples, if_pos (by simp [helig]), ih]

theorem scanSamples_eq (visited : List ι) :
    scanSamples tasks sample visited 0 0 0
      = ((samples tasks sample visited).length, penaltyTotal (samples tasks sample visited)) := by
  rw [scanSamples_from]
  exact Prod.ext (Nat.zero_add _) (BitVec.zero_add _)

/-- The entries of `t` come before either limit of the scan. -/
def WithinLimits (tasks : ι → Task) (sample : ι → ι) (visited : List ι) (t : ι) : Prop :=
  ∀ pre visit post, visited = pre ++ visit :: post → sample visit = t →
    pre.length < BURST_CACHE_SCAN_LIMIT
      ∧ pre.countP (fun u => taskIsBoreEligible (tasks (sample u))) < BURST_CACHE_SAMPLE_LIMIT

theorem mem_sampledUpTo {visited : List ι} {t : ι} :
    ∀ {count scans : Nat}, t ∈ sampledUpTo tasks sample count scans visited
      ↔ taskIsBoreEligible (tasks t) = true
        ∧ ∃ pre visit post, visited = pre ++ visit :: post ∧ sample visit = t
          ∧ pre.length < scans
          ∧ pre.countP (fun u => taskIsBoreEligible (tasks (sample u))) < count := by
  induction visited with
  | nil =>
      intro count scans
      refine iff_of_false (by simp [sampledUpTo]) ?_
      rintro ⟨-, pre, visit, post, heq, -⟩
      exact absurd heq (by simp)
  | cons u rest ih =>
      intro count scans
      -- the entry is the first one, or lies behind it
      have hsplit : ∀ P : List ι → Prop,
          (∃ pre visit post, u :: rest = pre ++ visit :: post ∧ sample visit = t ∧ P pre)
            ↔ (sample u = t ∧ P [])
              ∨ ∃ pre visit post, rest = pre ++ visit :: post ∧ sample visit = t ∧ P (u :: pre) := by
        intro P
        constructor
        · rintro ⟨pre, visit, post, heq, hvisit, hP⟩
          cases pre with
          | nil =>
              obtain ⟨rfl, rfl⟩ := List.cons.inj heq
              exact .inl ⟨hvisit, hP⟩
          | cons x pre =>
              obtain ⟨rfl, rfl⟩ := List.cons.inj heq
              exact .inr ⟨pre, visit, post, rfl, hvisit, hP⟩
        · rintro (⟨hu, hP⟩ | ⟨pre, visit, post, rfl, hvisit, hP⟩)
          · exact ⟨[], u, rest, rfl, hu, hP⟩
          · exact ⟨u :: pre, visit, post, rfl, hvisit, hP⟩
      rw [hsplit fun pre => pre.length < scans
        ∧ pre.countP (fun u => taskIsBoreEligible (tasks (sample u))) < count]
      cases scans with
      | zero => simp [sampledUpTo]
      | succ scans =>
          by_cases helig : taskIsBoreEligible (tasks (sample u)) = true
          · have hcount : ∀ pre, (u :: pre).countP (fun u => taskIsBoreEligible (tasks (sample u)))
                = pre.countP (fun u => taskIsBoreEligible (tasks (sample u))) + 1 :=
              fun pre => List.countP_cons_of_pos helig
            cases count with
            | zero => simp [sampledUpTo]
            | succ count =>
                rw [sampledUpTo_cons helig, List.mem_cons, ih]
                simp only [List.length_cons, hcount, Nat.add_lt_add_iff_right, List.length_nil,
                  List.countP_nil, Nat.zero_lt_succ, and_true, and_or_left]
                refine or_congr ?_ Iff.rfl
                constructor
                · rintro rfl
                  exact ⟨helig, rfl⟩
                · rintro ⟨-, rfl⟩
                  rfl
          · have hcount : ∀ pre, (u :: pre).countP (fun u => taskIsBoreEligible (tasks (sample u)))
                = pre.countP (fun u => taskIsBoreEligible (tasks (sample u))) :=
              fun pre => List.countP_cons_of_neg helig
            rw [sampledUpTo_cons_skip helig, ih, and_or_left]
            simp only [List.length_cons, hcount, Nat.add_lt_add_iff_right]
            refine (or_iff_right ?_).symm
            rintro ⟨ht, rfl, -⟩
            exact helig ht

end Scan

/-! ## What a hub samples -/

namespace ProcessTree

/-- The shell's tasks, the editor a zombie. -/
def zombieEditor : ShellTask → Task
  | .editor => { userTask .zero with exitState := 32 }
  | _ => userTask .zero

example : sampledTasks zombieEditor shellTree.sampled (shellTree.children .shell) = [.compiler] := by
  decide

end ProcessTree

/-! ## The cache -/

/-- The mean of penalties, rounded down; 0 if there are none. -/
def meanPenalty (penalties : List U16) : Nat :=
  (penalties.map BitVec.toNat).sum / penalties.length

theorem meanPenalty_le {penalties : List U16} {bound : Nat}
    (h : ∀ penalty ∈ penalties, penalty.toNat ≤ bound) : meanPenalty penalties ≤ bound := by
  have hsum := List.sum_le_card_nsmul (penalties.map BitVec.toNat) bound fun n hn => by
    obtain ⟨p, hp, rfl⟩ := List.mem_map.mp hn
    exact h p hp
  rw [List.length_map, Nat.nsmul_eq_mul] at hsum
  exact Nat.div_le_of_le_mul hsum

theorem lut_getElem?_lt {count : Nat} (h : count ≤ BURST_CACHE_SAMPLE_LIMIT) :
    boreReciprocalLut[count]? = some (if count = 0 then 0 else reciprocal count) := by
  by_cases h0 : count = 0
  · subst h0
    rfl
  · rw [if_neg h0]
    exact lut_getElem? count (Nat.lt_succ_of_le h) h0

/-- **The average of a scan is the exact mean.** -/
theorem cacheAverage_eq {penalties : List U16}
    (hlimit : penalties.length ≤ BURST_CACHE_SAMPLE_LIMIT) :
    cacheAverage penalties.length (penaltyTotal penalties)
      = some (BitVec.ofNat 32 (meanPenalty penalties)) := by
  have hsum := sum_penalties_le penalties
  have hle : penalties.length * 65535 ≤ 63 * 65535 := Nat.mul_le_mul_right _ hlimit
  have htotal : (penaltyTotal penalties).toNat = (penalties.map BitVec.toNat).sum := by
    rw [penaltyTotal, BitVec.toNat_ofNat, Nat.mod_eq_of_lt]
    exact Nat.lt_of_le_of_lt (Nat.le_trans hsum hle) (by decide)
  rw [cacheAverage]
  by_cases h1 : penalties.length = 1
  · rw [if_pos h1, meanPenalty, h1, Nat.div_one]
    rfl
  by_cases h0 : penalties.length = 0
  · obtain rfl := List.length_eq_zero_iff.mp h0
    rfl
  have hfit : (penaltyTotal penalties).toNat * (penalties.length - 1) < 2 ^ 32 := by
    rw [htotal]
    exact Nat.lt_of_le_of_lt
      (Nat.mul_le_mul (Nat.le_trans hsum hle) (Nat.sub_le_sub_right hlimit 1)) (by decide)
  have hmin : min penalties.length BURST_CACHE_SAMPLE_LIMIT = penalties.length :=
    Nat.min_eq_left hlimit
  -- the same product as in the crate
  have hexact := congrArg (Option.map Checked.val) (averagePenalty_eq h0 hlimit hfit)
  rw [averagePenalty, if_neg h0, if_neg h1, hmin, lut_getElem? _ (Nat.lt_succ_of_le hlimit) h0,
    htotal] at hexact
  rw [if_neg h1, lut_getElem?_lt hlimit, if_neg h0]
  exact hexact

/-- The cache gets the larger of the mean and the task's own penalty. -/
theorem updateBurstCache_eq {penalties : List U16} (penalty : U16) (now : U64)
    (hlimit : penalties.length ≤ BURST_CACHE_SAMPLE_LIMIT) :
    updateBurstCache penalty penalties.length (penaltyTotal penalties) now
      = some (storedCache now (BitVec.ofNat 16 (max penalty.toNat (meanPenalty penalties)))) := by
  have hmean : meanPenalty penalties < 2 ^ 16 := Nat.lt_of_le_of_lt
    (meanPenalty_le fun p _ => Nat.le_of_lt_succ p.isLt) (by decide)
  have hvalue : (BitVec.ofNat 32 (meanPenalty penalties)).toNat = meanPenalty penalties := by
    rw [BitVec.toNat_ofNat, Nat.mod_eq_of_lt (by omega)]
  have hown : (penalty.setWidth 32).toNat = penalty.toNat := BitVec.toNat_setWidth_of_le (by decide)
  rw [updateBurstCache, cacheAverage_eq hlimit]
  refine congrArg (fun q => some (storedCache now q)) (BitVec.eq_of_toNat_eq ?_)
  rw [BitVec.toNat_setWidth, BitVec.toNat_ofNat]
  refine congrArg (· % 2 ^ 16) ?_
  by_cases hgt : BitVec.ofNat 32 (meanPenalty penalties) > penalty.setWidth 32
  · have hgt' : (penalty.setWidth 32).toNat < (BitVec.ofNat 32 (meanPenalty penalties)).toNat := hgt
    rw [if_pos hgt, hvalue]
    omega
  · have hle : ¬(penalty.setWidth 32).toNat < (BitVec.ofNat 32 (meanPenalty penalties)).toNat := hgt
    rw [if_neg hgt, hown]
    omega

/-! ## What a fork inherits -/

section Inherit

variable {ι : Type}

theorem cache_setCache (p : Task) (source : CacheSource ι) (bc : BoreBc) :
    (p.setCache source bc).cache source = bc := by
  obtain ⟨field, -, -, -⟩ := source
  cases field <;> rfl

variable (tasks : ι → Task)

/-- The penalty that a fork gets from a cache. -/
def inheritedPenalty (source : CacheSource ι) (lifetime : U32) (now : U64) : U16 :=
  if burstCacheExpired ((tasks source.owner).cache source) now lifetime then
    BitVec.ofNat 16 (max (tasks source.owner).bore.penalty.toNat
      (meanPenalty (samples tasks source.sample source.visited)))
  else ((tasks source.owner).cache source).penalty

theorem toNat_inheritedPenalty {source : CacheSource ι} {lifetime : U32} {now : U64}
    (hexpired : burstCacheExpired ((tasks source.owner).cache source) now lifetime = true) :
    (inheritedPenalty tasks source lifetime now).toNat
      = max (tasks source.owner).bore.penalty.toNat
        (meanPenalty (samples tasks source.sample source.visited)) := by
  have hmean : meanPenalty (samples tasks source.sample source.visited) ≤ 65535 :=
    meanPenalty_le fun p _ => Nat.le_of_lt_succ p.isLt
  have hown := (tasks source.owner).bore.penalty.isLt
  rw [inheritedPenalty, if_pos hexpired, BitVec.toNat_ofNat, Nat.mod_eq_of_lt (by omega)]

variable [DecidableEq ι]

/-- The tasks after a fork has looked into a cache. -/
def refreshed (source : CacheSource ι) (lifetime : U32) (now : U64) : ι → Task :=
  if burstCacheExpired ((tasks source.owner).cache source) now lifetime then
    Function.update tasks source.owner ((tasks source.owner).setCache source
      (storedCache now (inheritedPenalty tasks source lifetime now)))
  else tasks

theorem inheritThrough_eq (source : CacheSource ι) (lifetime : U32) (now : U64) :
    inheritThrough tasks source lifetime now
      = some ((inheritedPenalty tasks source lifetime now).setWidth 32,
          refreshed tasks source lifetime now) := by
  rw [inheritThrough, refreshed]
  by_cases hexpired : burstCacheExpired ((tasks source.owner).cache source) now lifetime = true
  · have hupdate := updateBurstCache_eq (tasks source.owner).bore.penalty now
      (length_samples_le tasks source.sample source.visited)
    rw [inheritedPenalty, if_pos hexpired, if_pos hexpired, if_pos hexpired, scanSamples_eq]
    simp only [hupdate, Option.bind_eq_bind, Option.bind_some, Function.update_self,
      cache_setCache, (stored_fields _ _).2]
  · rw [inheritedPenalty, if_neg hexpired, if_neg hexpired, if_neg hexpired]
    rfl

/-- A fork through a cache: what it gets, and which tasks it leaves. While the
cache lives it is read; then it is refilled from the samples. -/
def Inherits (source : CacheSource ι) (lifetime : U32) (now : U64) (penalty : U16)
    (tasks' : ι → Task) : Prop :=
  let owner := tasks source.owner
  if burstCacheExpired (owner.cache source) now lifetime then
    let sampled := samples tasks source.sample source.visited
    penalty.toNat = max owner.bore.penalty.toNat
        ((sampled.map BitVec.toNat).sum / sampled.length)
      ∧ ∃ bc : BoreBc, tasks' = Function.update tasks source.owner (owner.setCache source bc)
        ∧ bc.timestamp = now >>> BORE_BC_TIMESTAMP_SHIFT ∧ bc.penalty = penalty
  else penalty = (owner.cache source).penalty ∧ tasks' = tasks

theorem inheritThrough_inherits (source : CacheSource ι) (lifetime : U32) (now : U64) :
    ∃ penalty tasks',
      inheritThrough tasks source lifetime now = some (penalty.setWidth 32, tasks')
        ∧ Inherits tasks source lifetime now penalty tasks' := by
  refine ⟨_, _, inheritThrough_eq tasks source lifetime now, ?_⟩
  rw [Inherits, refreshed]
  by_cases hexpired : burstCacheExpired ((tasks source.owner).cache source) now lifetime = true
  · have hfields := stored_fields now (inheritedPenalty tasks source lifetime now)
    rw [if_pos hexpired, if_pos hexpired]
    exact ⟨toNat_inheritedPenalty tasks hexpired, _, rfl, hfields.1, hfields.2⟩
  · rw [if_neg hexpired, if_neg hexpired, inheritedPenalty, if_neg hexpired]
    exact ⟨rfl, rfl⟩

/-- **What the three `inherit_from_` functions compute**: none of them reads
past the end of the table, and each inherits through its cache. -/
theorem inherit_exact (tree : ProcessTree ι) (parent : ι) (cloneFlags : CloneFlags)
    (lifetime : U32) (now : U64) :
    (∃ penalty tasks',
        inheritFromParent tasks tree parent cloneFlags lifetime now
            = some (penalty.setWidth 32, tasks')
          ∧ Inherits tasks (parentSource tree parent cloneFlags) lifetime now penalty tasks')
      ∧ (∃ penalty tasks',
        inheritFromAncestorHub tasks tree parent cloneFlags lifetime now
            = some (penalty.setWidth 32, tasks')
          ∧ Inherits tasks (ancestorHubSource tree parent cloneFlags) lifetime now penalty tasks')
      ∧ ∃ penalty tasks',
        inheritFromThreadGroup tasks tree parent lifetime now
            = some (penalty.setWidth 32, tasks')
          ∧ Inherits tasks (threadGroupSource tree parent) lifetime now penalty tasks' :=
  ⟨inheritThrough_inherits tasks _ lifetime now, inheritThrough_inherits tasks _ lifetime now,
    inheritThrough_inherits tasks _ lifetime now⟩

/-! ## The new task -/

variable (keys : Keys) (tree : ProcessTree ι)

/-- The cache that a fork goes through, if any. -/
def forkSource (parent : ι) (cloneFlags : CloneFlags) : Option (CacheSource ι) :=
  if cloneFlags.thread then some (threadGroupSource tree parent)
  else if keys.inherit then
    some (if keys.ancestor then ancestorHubSource tree parent cloneFlags
      else parentSource tree parent cloneFlags)
  else none

/-- The context of a copied task with what it inherits. -/
def Task.inheriting (task : Task) (inherited : U16) : TaskStruct :=
  let prevPenalty :=
    if task.bore.prevPenalty < inherited then inherited else task.bore.prevPenalty
  let penalty := if task.isKthread then 0 else prevPenalty
  { task.toTaskStruct with bore := { task.bore with
      prevPenalty, penalty, currPenalty := 0, burstTime := 0, stopUpdate := false
      futexWaiting := false } }

/-- A copied task with what it inherits, its load included. -/
def Task.forked (globals : Globals) (task : Task) (inherited : U16) : Task :=
  let p := task.inheriting inherited
  { task with toTaskStruct := p.withLoad (globals.reweighed task.toTaskStruct p) }

/-- The tasks as a fork finds them when it comes to the new task, and what it
inherits. -/
def atFork (params : Tunables) (parent : ι) (cloneFlags : CloneFlags) (now : U64) :
    U16 × (ι → Task) :=
  match forkSource keys tree parent cloneFlags with
  | some source =>
      (inheritedPenalty tasks source params.val.burstCacheLifetimeNs now,
        refreshed tasks source params.val.burstCacheLifetimeNs now)
  | none => (0, tasks)

theorem startContext_eq (params : Tunables) (tables : PrioTables) (task : Task) (inherited : U16) :
    startContext keys params tables task (inherited.setWidth 32)
      = task.forked ⟨params, keys.bore, tables⟩ inherited := by
  have hback : (inherited.setWidth 32).setWidth 16 = inherited := by
    rw [BitVec.setWidth_setWidth_of_le _ (by decide), BitVec.setWidth_eq]
  have hlt : task.bore.prevPenalty.setWidth 32 < inherited.setWidth 32
      ↔ task.bore.prevPenalty < inherited := by
    rw [BitVec.lt_def, BitVec.lt_def, BitVec.toNat_setWidth_of_le (by decide),
      BitVec.toNat_setWidth_of_le (by decide)]
  have hmax : ∀ prev : U16, (if 0 < prev then prev else 0) = prev := by
    intro prev
    by_cases h0 : 0 < prev
    · rw [if_pos h0]
    · rw [if_neg h0]
      exact (BitVec.eq_of_toNat_eq (Nat.le_zero.mp (Nat.le_of_not_lt h0))).symm
  have hnil : (id : TaskStruct → TaskStruct)
      = nestedCalls ⟨params, keys.bore, tables⟩ .nil := rfl
  -- a priority depends on the penalty alone, which is set last
  have hsame : ∀ (globals : Globals) (ctx : BoreCtx) (q : TaskStruct),
      ctx.penalty = task.bore.penalty →
      globals.reweighed { task.toTaskStruct with bore := ctx } q
        = globals.reweighed task.toTaskStruct q := by
    intro globals ctx q h
    rw [Globals.reweighed, Globals.reweighed, Globals.prio, Globals.prio, Globals.prio,
      effectivePrioBore, effectivePrioBore, effectivePrioBore, BoreCtx.score, BoreCtx.score,
      BoreCtx.score, h]
  simp only [startContext, hback, hlt, hnil]
  rw [updatePenalty_eq _ rfl, hsame _ _ _ (by split <;> rfl), Task.forked, Task.inheriting]
  by_cases h : task.bore.prevPenalty < inherited
  · rw [if_pos h, if_pos h]
    simp only [TaskStruct.withPenalty, BoreCtx.effective, hmax]
  · rw [if_neg h, if_neg h]
    simp only [TaskStruct.withPenalty, BoreCtx.effective, hmax]

theorem penaltyAtFork_eq (params : Tunables) (parent : ι) (cloneFlags : CloneFlags) (now : U64) :
    penaltyAtFork tasks tree keys params parent cloneFlags now
      = some ((atFork tasks keys tree params parent cloneFlags now).1.setWidth 32,
          (atFork tasks keys tree params parent cloneFlags now).2) := by
  rw [penaltyAtFork, atFork, forkSource, inheritFromThreadGroup, inheritFromAncestorHub,
    inheritFromParent, inheritThrough_eq, inheritThrough_eq, inheritThrough_eq]
  split
  · rfl
  · split
    · split <;> rfl
    · rfl

theorem taskForkBore_eq {params : Tunables} {tables : PrioTables} {p parent : ι}
    {cloneFlags : CloneFlags} {now : U64} (hkey : keys.bore = true)
    (helig : taskIsBoreEligible (tasks p) = true) :
    taskForkBore tasks tree keys params tables p parent cloneFlags now
      = some (Function.update (atFork tasks keys tree params parent cloneFlags now).2 p
          (((atFork tasks keys tree params parent cloneFlags now).2 p).forked
            ⟨params, keys.bore, tables⟩ (atFork tasks keys tree params parent cloneFlags now).1)) := by
  rw [taskForkBore, if_neg (by simp [hkey, helig]), penaltyAtFork_eq]
  exact congrArg (fun task => some (Function.update _ p task))
    (startContext_eq keys params tables _ _)

theorem taskForkBore_idle {params : Tunables} {tables : PrioTables} {p parent : ι}
    {cloneFlags : CloneFlags} {now : U64}
    (h : ¬(keys.bore = true ∧ taskIsBoreEligible (tasks p) = true)) :
    taskForkBore tasks tree keys params tables p parent cloneFlags now = some tasks := by
  rw [taskForkBore, if_pos]
  revert h
  cases keys.bore <;> cases taskIsBoreEligible (tasks p) <;> simp

end Inherit

end Rustlux.BoreC
