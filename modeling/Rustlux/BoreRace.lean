import Rustlux.BoreSystem

/-!
# Forks and sysctl writes on several CPUs

`System.step` takes a fork and a write of a sysctl whole. In the source
`task_fork_bore` holds `rcu_read_lock` only, which keeps no other fork out, and the
handlers store a variable first and then switch static keys, under no lock. Here every
CPU takes them one access to what it shares with the others at a time; charges, class
switches and what the rest of the kernel does come in between.

The walk up to the hub and the scans go along links that others may change under them,
so they may come to any task; its penalty is read with its eligibility, and that of the
cache's task with the store. What a fork or a write does when nobody comes in between
is what `copyProcess` and `writeSysctl` say (`fork_solo`, `write_solo`).
-/

namespace Rustlux.BoreC

/-! ## The source -/

/-- The parameters of `task_fork_bore`. -/
structure ForkCall (ι : Type) where
  p : ι
  parent : ι
  cloneFlags : CloneFlags
  now : U64
deriving DecidableEq

/-- A `struct bore_bc *bc`, and the task that the cache lies in. -/
structure CachePtr (ι : Type) where
  owner : ι
  field : CacheField
deriving DecidableEq

/-- A `static_branch_enable` or `static_branch_disable` of `update_inherit_type`. -/
inductive KeySwitch where
  | inherit (on : Bool)
  | ancestor (on : Bool)
deriving DecidableEq, Repr

def KeySwitch.apply (keys : Keys) : KeySwitch → Keys
  | .inherit on => { keys with inherit := on }
  | .ancestor on => { keys with ancestor := on }

/-- `update_inherit_type`, switch by switch. -/
def inheritSwitches (inheritType : U8) : List KeySwitch :=
  if inheritType = 1 then [.inherit true, .ancestor false]
  else if inheritType = 2 then [.inherit true, .ancestor true]
  else [.inherit false]

/-- Where a CPU stands: before which access of a fork or of a handler. -/
inductive Place (ι : Type) where
  | away
  | hook (f : ForkCall ι)
  | inheritKey (f : ForkCall ι)
  | ancestorKey (f : ForkCall ι)
  | leader (f : ForkCall ι)
  | parent (f : ForkCall ι)
  | hub (f : ForkCall ι)
  | check (f : ForkCall ι) (bc : CachePtr ι)
  | expiry (f : ForkCall ι) (bc : CachePtr ι) (bcVal : BoreBc)
  | scan (f : ForkCall ι) (bc : CachePtr ι) (count : Nat) (total : U32) (scanCount : Nat)
  | read (f : ForkCall ι) (bc : CachePtr ι)
  | inherits (f : ForkCall ι) (inheritedPenalty : U32)
  | boreVar
  | boreKey (on : Bool)
  | readjust
  | typeVar
  | typeKeys (switches : List KeySwitch)
deriving DecidableEq

/-- What a CPU may do next: begin a fork or a write, go on, or come to a task. -/
inductive Access (ι : Type) where
  | copy (current p : ι) (pid : U32) (cloneFlags : CloneFlags) (startTime : U64) (attrs : Attrs)
  | write (entry : Sysctl) (value : Nat)
  | next
  | visit (t : ι) (inner : NestedCalls)

namespace System

variable {ι : Type} (s : System ι)

def cacheAt (bc : CachePtr ι) : BoreBc := (s.tasks bc.owner).bore.cache bc.field

def lifetime : U32 := s.params.val.burstCacheLifetimeNs

variable [DecidableEq ι] (tables : PrioTables)

/-- `copy_process` up to the hook. -/
def copyAccess (current p : ι) (pid : U32) (cloneFlags : CloneFlags) (startTime : U64)
    (attrs : Attrs) : System ι × Place ι :=
  ({ s with tasks := s.copied current p attrs },
    if pid ≠ 0 then .hook ⟨p, current, cloneFlags, startTime⟩ else .away)

/-- The store that `proc_dou8vec_minmax` or one of its like does for a handler. -/
def writeAccess (entry : Sysctl) (value : Nat) : System ι × Place ι :=
  if h : value ≤ entry.max then
    ({ s with params := entry.stored s.params h },
      match entry with
      | .schedBore => .boreVar
      | .schedBurstInheritType => .typeVar
      | _ => .away)
  else (s, .away)

/-- The rest of the fork or of the handler, up to the next access. The new task is not
linked yet, so `inherits` sets its context at once. -/
def nextAccess : Place ι → Option (System ι × Place ι)
  | .away => none
  | .hook f =>
      if !s.keys.bore || !taskIsBoreEligible (s.tasks f.p) then some (s, .away)
      else if f.cloneFlags.thread then some (s, .leader f)
      else some (s, .inheritKey f)
  | .inheritKey f => some (s, if s.keys.inherit then .ancestorKey f else .inherits f 0)
  | .ancestorKey f => some (s, if s.keys.ancestor then .hub f else .parent f)
  | .leader f => some (s, .check f ⟨s.tree.groupLeader f.parent, .group⟩)
  | .parent f =>
      let parent := if f.cloneFlags.parent then s.tree.realParent f.parent else f.parent
      some (s, .check f ⟨parent, .subtree⟩)
  | .hub _ => none
  | .check f bc => some (s, .expiry f bc (s.cacheAt bc))
  | .expiry f bc bcVal =>
      some (s, if burstCacheExpired bcVal f.now s.lifetime then .scan f bc 0 0 0 else .read f bc)
  | .scan f bc count total _ =>
      let p := s.tasks bc.owner
      (updateBurstCache p.bore.penalty count total f.now).map fun newBc =>
        (s.setTask bc.owner (p.withBore (p.bore.setCache newBc bc.field)), .read f bc)
  | .read f bc => some (s, .inherits f ((s.cacheAt bc).penalty.setWidth 32))
  | .inherits f inheritedPenalty =>
      let p := startContext s.keys s.params tables (s.tasks f.p) inheritedPenalty
      some (s.setTask f.p p, .away)
  | .boreVar => some (s, .boreKey (s.params.val.enabled != 0))
  | .boreKey on => some ({ s with keys := { s.keys with bore := on } }, .readjust)
  | .readjust => some (s, .away)
  | .typeVar => some (s, .typeKeys (inheritSwitches s.params.val.burstInheritType))
  | .typeKeys [] => some (s, .away)
  | .typeKeys (switch :: rest) => some ({ s with keys := switch.apply s.keys }, .typeKeys rest)

/-- The walk to the hub ends at a task, or a loop comes to one. -/
def visitAccess (t : ι) (inner : NestedCalls) : Place ι → Option (System ι × Place ι)
  | .hub f => some (s, .check f ⟨t, .subtree⟩)
  | .scan f bc count total scanCount =>
      if count ≥ BURST_CACHE_SAMPLE_LIMIT then none
      else if scanCount ≥ BURST_CACHE_SCAN_LIMIT then none
      else
        let p := s.tasks t
        if !taskIsBoreEligible p then some (s, .scan f bc count total (scanCount + 1))
        else
          some (s, .scan f bc (count + 1) (total + p.bore.penalty.setWidth 32) (scanCount + 1))
  | .readjust =>
      some ({ s with tasks := readjustAllTaskWeights (s.globals tables) [(t, inner)] s.tasks },
        .readjust)
  | _ => none

/-- One access of a CPU that stands at a place. A fork or a write begins where there is
none. -/
def access (place : Place ι) : Access ι → Option (System ι × Place ι)
  | .copy current p pid cloneFlags startTime attrs =>
      match place with
      | .away => some (s.copyAccess current p pid cloneFlags startTime attrs)
      | _ => none
  | .write entry value =>
      match place with
      | .away => some (s.writeAccess entry value)
      | _ => none
  | .next => s.nextAccess tables place
  | .visit t inner => s.visitAccess tables t inner place

end System

/-- The system, and where the CPUs stand. -/
structure Smp (κ ι : Type) where
  sys : System ι
  places : κ → Place ι

inductive Move (κ ι : Type) where
  | event (event : Event ι)
  | access (cpu : κ) (access : Access ι)

section Step

variable {κ ι : Type} [DecidableEq κ] [DecidableEq ι] (tables : PrioTables)

/-- A fork or a write is no event here. -/
def Smp.step (s : Smp κ ι) : Move κ ι → Option (Smp κ ι)
  | .event (.fork ..) => none
  | .event (.sysctl ..) => none
  | .event event => (s.sys.step tables event).map fun sys => { s with sys }
  | .access cpu access =>
      (s.sys.access tables (s.places cpu) access).map fun next =>
        ⟨next.1, Function.update s.places cpu next.2⟩

/-! ## Alone -/

/-- The accesses of one CPU. -/
def accessStep (x : System ι × Place ι) (access : Access ι) : Option (System ι × Place ι) :=
  x.1.access tables x.2 access

variable {tables} {s : System ι} {f : ForkCall ι}

theorem run_access (cpu : κ) {accesses : List (Access ι)} {x x' : System ι × Place ι}
    (h : Lts.run (accessStep tables) x accesses = some x') (places : κ → Place ι) :
    Lts.run (Smp.step tables) ⟨x.1, Function.update places cpu x.2⟩ (accesses.map (.access cpu))
      = some ⟨x'.1, Function.update places cpu x'.2⟩ := by
  induction accesses generalizing x with
  | nil =>
      obtain rfl := Option.some.inj h
      rfl
  | cons a accesses ih =>
      obtain ⟨y, hy, h⟩ := Lts.run_cons_eq_some.mp h
      refine (Lts.run_cons ?_).trans (ih h)
      have hy' : x.1.access tables x.2 a = some y := hy
      rw [Smp.step]
      dsimp only
      rw [Function.update_self, hy', Option.map_some, Function.update_idem]

variable (tables s f) in
/-- A scan along a list comes to what `scanSamples` computes. -/
theorem scan_solo (bc : CachePtr ι) (sample : ι → ι) (visited : List ι) :
    ∀ (count : Nat) (total : U32) (scanCount : Nat), ∃ accesses scanCount',
      Lts.run (accessStep tables) (s, .scan f bc count total scanCount) accesses
        = some (s, .scan f bc (scanSamples s.tasks sample visited count total scanCount).1
            (scanSamples s.tasks sample visited count total scanCount).2 scanCount') := by
  induction visited with
  | nil => exact fun count total scanCount => ⟨[], scanCount, rfl⟩
  | cons t rest ih =>
      intro count total scanCount
      rw [scanSamples]
      by_cases hcount : count ≥ BURST_CACHE_SAMPLE_LIMIT
      · rw [if_pos hcount]
        exact ⟨[], scanCount, rfl⟩
      by_cases hscan : scanCount ≥ BURST_CACHE_SCAN_LIMIT
      · rw [if_neg hcount, if_pos hscan]
        exact ⟨[], scanCount, rfl⟩
      rw [if_neg hcount, if_neg hscan]
      by_cases helig : taskIsBoreEligible (s.tasks (sample t)) = true
      · obtain ⟨accesses, scanCount', hrun⟩ := ih (count + 1)
          (total + (s.tasks (sample t)).bore.penalty.setWidth 32) (scanCount + 1)
        refine ⟨.visit (sample t) .nil :: accesses, scanCount', ?_⟩
        rw [if_neg (by simp [helig])]
        refine (Lts.run_cons ?_).trans hrun
        simp [accessStep, System.access, System.visitAccess, if_neg hcount, if_neg hscan, helig]
      · obtain ⟨accesses, scanCount', hrun⟩ := ih count total (scanCount + 1)
        refine ⟨.visit (sample t) .nil :: accesses, scanCount', ?_⟩
        rw [if_pos (by simp [helig])]
        refine (Lts.run_cons ?_).trans hrun
        simp [accessStep, System.access, System.visitAccess, if_neg hcount, if_neg hscan, helig]

variable (tables s f) in
theorem inherit_solo (source : CacheSource ι) :
    ∃ accesses, Lts.run (accessStep tables) (s, .check f ⟨source.owner, source.field⟩) accesses
      = some ({ s with tasks := refreshed s.tasks source s.lifetime f.now },
          .inherits f ((inheritedPenalty s.tasks source s.lifetime f.now).setWidth 32)) := by
  rw [refreshed, inheritedPenalty]
  by_cases hexpired : burstCacheExpired ((s.tasks source.owner).cache source) f.now s.lifetime
      = true
  · rw [if_pos hexpired, if_pos hexpired]
    obtain ⟨accesses, scanCount', hscan⟩ := scan_solo tables s f ⟨source.owner, source.field⟩
      source.sample source.visited 0 0 0
    rw [scanSamples_eq] at hscan
    have hbc := updateBurstCache_eq (s.tasks source.owner).bore.penalty f.now
      (length_samples_le s.tasks source.sample source.visited)
    generalize BitVec.ofNat 16 (max (s.tasks source.owner).bore.penalty.toNat
      (meanPenalty (samples s.tasks source.sample source.visited))) = penalty at *
    obtain ⟨p, hp⟩ : ∃ p, p = (s.tasks source.owner).setCache source (storedCache f.now penalty) :=
      ⟨_, rfl⟩
    have hstore : accessStep tables (s, .scan f ⟨source.owner, source.field⟩
        (samples s.tasks source.sample source.visited).length
        (penaltyTotal (samples s.tasks source.sample source.visited)) scanCount') .next
          = some (s.setTask source.owner p, .read f ⟨source.owner, source.field⟩) := by
      rw [hp]
      change Option.map _ (updateBurstCache _ _ _ _) = _
      rw [hbc]
      rfl
    have hread : ((s.setTask source.owner p).cacheAt ⟨source.owner, source.field⟩).penalty
        = penalty := by
      have hself : (s.setTask source.owner p).tasks source.owner = p := Function.update_self ..
      rw [System.cacheAt, hself, hp]
      exact (congrArg BoreBc.penalty (cache_setCache ..)).trans (stored_fields f.now penalty).2
    refine ⟨.next :: .next :: (accesses ++ [.next, .next]), (Lts.run_cons rfl).trans
      ((Lts.run_cons ?_).trans (Lts.run_trans hscan ?_))⟩
    · exact congrArg (fun place => some (s, place)) (if_pos hexpired)
    · rw [← hp, Lts.run_cons hstore, ← hread]
      rfl
  · rw [if_neg hexpired, if_neg hexpired]
    have hlive : accessStep tables (s, .expiry f ⟨source.owner, source.field⟩
        (s.cacheAt ⟨source.owner, source.field⟩)) .next
          = some (s, .read f ⟨source.owner, source.field⟩) :=
      congrArg (fun place => some (s, place)) (if_neg hexpired)
    exact ⟨[.next, .next, .next], (Lts.run_cons rfl).trans (Lts.run_cons hlive)⟩

variable (tables s f) in
/-- From the hook to the inherited penalty. -/
theorem penalty_solo (hkey : s.keys.bore = true) (helig : taskIsBoreEligible (s.tasks f.p) = true) :
    let found := atFork s.tasks s.keys s.tree s.params f.parent f.cloneFlags f.now
    ∃ accesses, Lts.run (accessStep tables) (s, .hook f) accesses
      = some ({ s with tasks := found.2 }, .inherits f (found.1.setWidth 32)) := by
  have hhook : accessStep tables (s, .hook f) .next
      = some (s, if f.cloneFlags.thread then .leader f else .inheritKey f) := by
    change (if (!s.keys.bore || !taskIsBoreEligible (s.tasks f.p)) = true then _ else _) = _
    rw [if_neg (by simp [hkey, helig])]
    split <;> rfl
  intro found
  obtain ⟨found', hfound⟩ : ∃ found', found = found' := ⟨_, rfl⟩
  rw [hfound]
  rw [show found = atFork s.tasks s.keys s.tree s.params f.parent f.cloneFlags f.now from rfl,
    atFork, forkSource] at hfound
  by_cases hthread : f.cloneFlags.thread = true
  · rw [if_pos hthread] at hhook hfound
    subst hfound
    obtain ⟨accesses, hrun⟩ := inherit_solo tables s f (threadGroupSource s.tree f.parent)
    exact ⟨.next :: .next :: accesses, (Lts.run_cons hhook).trans ((Lts.run_cons rfl).trans hrun)⟩
  rw [if_neg hthread] at hhook hfound
  have hinherit : accessStep tables (s, .inheritKey f) .next
      = some (s, if s.keys.inherit then .ancestorKey f else .inherits f 0) := rfl
  by_cases hkeyInherit : s.keys.inherit = true
  · rw [if_pos hkeyInherit] at hinherit hfound
    have hancestor : accessStep tables (s, .ancestorKey f) .next
        = some (s, if s.keys.ancestor then .hub f else .parent f) := rfl
    by_cases hkeyAncestor : s.keys.ancestor = true
    · rw [if_pos hkeyAncestor] at hancestor hfound
      subst hfound
      obtain ⟨accesses, hrun⟩ := inherit_solo tables s f
        (ancestorHubSource s.tree f.parent f.cloneFlags)
      exact ⟨.next :: .next :: .next
          :: .visit (s.tree.ancestorHub f.parent f.cloneFlags.parent) .nil :: accesses,
        (Lts.run_cons hhook).trans ((Lts.run_cons hinherit).trans
          ((Lts.run_cons hancestor).trans ((Lts.run_cons rfl).trans hrun)))⟩
    · rw [if_neg hkeyAncestor] at hancestor hfound
      subst hfound
      obtain ⟨accesses, hrun⟩ := inherit_solo tables s f
        (parentSource s.tree f.parent f.cloneFlags)
      exact ⟨.next :: .next :: .next :: .next :: accesses,
        (Lts.run_cons hhook).trans ((Lts.run_cons hinherit).trans
          ((Lts.run_cons hancestor).trans ((Lts.run_cons rfl).trans hrun)))⟩
  · rw [if_neg hkeyInherit] at hinherit hfound
    subst hfound
    exact ⟨[.next, .next], (Lts.run_cons hhook).trans (Lts.run_cons hinherit)⟩

theorem inherits_solo (inherited : U16) :
    accessStep tables (s, .inherits f (inherited.setWidth 32)) .next
      = some (s.setTask f.p ((s.tasks f.p).forked (s.globals tables) inherited), .away) := by
  change some (s.setTask f.p (startContext s.keys s.params tables _ _), Place.away) = _
  rw [startContext_eq]
  rfl

/-- **A fork that is left alone** does what `copy_process` does. -/
theorem fork_solo {x : Smp κ ι} {cpu : κ} (haway : x.places cpu = .away) {current p : ι} {pid : U32}
    {cloneFlags : CloneFlags} {startTime : U64} {attrs : Attrs} {tasks : ι → Task}
    (hcopy : x.sys.copyProcess tables current p pid cloneFlags startTime attrs = some tasks) :
    ∃ accesses, Lts.run (Smp.step tables) x
        ((Access.copy current p pid cloneFlags startTime attrs :: accesses).map (.access cpu))
      = some { x with sys := { x.sys with tasks } } := by
  obtain ⟨s, places⟩ := x
  suffices hsolo : ∃ accesses, Lts.run (accessStep tables) (s, .away)
      (.copy current p pid cloneFlags startTime attrs :: accesses)
        = some ({ s with tasks }, .away) by
    obtain ⟨accesses, hrun⟩ := hsolo
    have hplaces : Function.update places cpu .away = places := by
      rw [← haway]
      exact Function.update_eq_self _ _
    have h := run_access cpu hrun places
    dsimp only at h
    rw [hplaces] at h
    exact ⟨accesses, h⟩
  rw [System.copyProcess] at hcopy
  by_cases hpid : pid ≠ 0
  · rw [if_pos hpid] at hcopy
    obtain ⟨s₁, hs₁⟩ : ∃ s₁, s₁ = { s with tasks := s.copied current p attrs } := ⟨_, rfl⟩
    have hbegin : accessStep tables (s, .away) (.copy current p pid cloneFlags startTime attrs)
        = some (s₁, .hook ⟨p, current, cloneFlags, startTime⟩) := by
      rw [hs₁]
      exact congrArg (fun place => some (_, place)) (if_pos hpid)
    by_cases hacts : s.keys.bore = true ∧ taskIsBoreEligible (s.copied current p attrs p) = true
    · rw [taskForkBore_eq _ _ _ hacts.1 hacts.2] at hcopy
      obtain rfl := Option.some.inj hcopy
      obtain ⟨accesses, hrun⟩ := penalty_solo tables s₁ ⟨p, current, cloneFlags, startTime⟩
        (by rw [hs₁]; exact hacts.1) (by rw [hs₁]; exact hacts.2)
      refine ⟨accesses ++ [.next], (Lts.run_cons hbegin).trans (Lts.run_trans hrun ?_)⟩
      refine (Lts.run_cons (inherits_solo _)).trans ?_
      rw [hs₁]
      rfl
    · rw [taskForkBore_idle _ _ _ hacts] at hcopy
      obtain rfl := Option.some.inj hcopy
      refine ⟨[.next], (Lts.run_cons hbegin).trans (Lts.run_cons ?_)⟩
      rw [hs₁]
      refine if_pos ?_
      revert hacts
      cases s.keys.bore <;> cases taskIsBoreEligible (s.copied current p attrs p) <;> simp
  · rw [if_neg hpid] at hcopy
    obtain rfl := Option.some.inj hcopy
    exact ⟨[], congrArg (fun place => some (_, place)) (if_neg hpid)⟩

theorem readjust_solo (processes : List (ι × NestedCalls)) :
    Lts.run (accessStep tables) (s, .readjust) (processes.map fun (t, inner) => .visit t inner)
      = some ({ s with tasks := readjustAllTaskWeights (s.globals tables) processes s.tasks },
          .readjust) := by
  induction processes generalizing s with
  | nil => rfl
  | cons process rest ih =>
      obtain ⟨t, inner⟩ := process
      have hcons : readjustAllTaskWeights (s.globals tables) ((t, inner) :: rest) s.tasks
          = readjustAllTaskWeights (s.globals tables) rest
            (readjustAllTaskWeights (s.globals tables) [(t, inner)] s.tasks) := by
        rw [readjustAllTaskWeights, readjustAllTaskWeights]
        split <;> rfl
      rw [hcons]
      exact (Lts.run_cons rfl).trans ih

variable (tables) in
/-- **A write that is left alone** does what its handler does. -/
theorem write_solo {x : Smp κ ι} {cpu : κ} (haway : x.places cpu = .away) (entry : Sysctl)
    (value : Nat) (processes : List (ι × NestedCalls)) :
    ∃ accesses, Lts.run (Smp.step tables) x
        ((Access.write entry value :: accesses).map (.access cpu))
      = some { x with sys := writeSysctl tables x.sys entry value processes } := by
  obtain ⟨s, places⟩ := x
  suffices hsolo : ∃ accesses, Lts.run (accessStep tables) (s, .away)
      (.write entry value :: accesses)
        = some (writeSysctl tables s entry value processes, .away) by
    obtain ⟨accesses, hrun⟩ := hsolo
    have hplaces : Function.update places cpu .away = places := by
      rw [← haway]
      exact Function.update_eq_self _ _
    have h := run_access cpu hrun places
    dsimp only at h
    rw [hplaces] at h
    exact ⟨accesses, h⟩
  have hbegin : accessStep tables (s, .away) (.write entry value)
      = some (s.writeAccess entry value) := rfl
  rw [System.writeAccess] at hbegin
  rw [writeSysctl]
  by_cases hvalue : value ≤ entry.max
  · rw [dif_pos hvalue] at hbegin ⊢
    cases entry with
    | schedBore =>
        refine ⟨.next :: .next :: (processes.map (fun (t, inner) => .visit t inner) ++ [.next]),
          (Lts.run_cons hbegin).trans ((Lts.run_cons rfl).trans ((Lts.run_cons rfl).trans
            ((Lts.run_trans (readjust_solo processes) rfl))))⟩
    | schedBurstInheritType =>
        refine ⟨.next :: ((inheritSwitches (BitVec.ofNat 8 value)).map (fun _ => .next) ++ [.next]),
          (Lts.run_cons hbegin).trans ((Lts.run_cons rfl).trans ?_)⟩
        dsimp only [Sysctl.stored, Sysctl.store]
        rw [inheritSwitches, updateInheritType]
        split
        · rfl
        · split <;> rfl
    | _ => exact ⟨[], hbegin⟩
  · rw [dif_neg hvalue] at hbegin ⊢
    exact ⟨[], hbegin⟩

/-- **The CPUs can do all that the whole events do**, one after the other. -/
theorem system_run {s t : System ι} {events : List (Event ι)}
    (hrun : Lts.run (System.step tables) s events = some t) {places : κ → Place ι} {cpu : κ}
    (haway : places cpu = .away) :
    ∃ moves, Lts.run (Smp.step tables) ⟨s, places⟩ moves = some ⟨t, places⟩ := by
  induction events generalizing s with
  | nil =>
      obtain rfl := Option.some.inj hrun
      exact ⟨[], rfl⟩
  | cons event events ih =>
      obtain ⟨s', hstep, hrun⟩ := Lts.run_cons_eq_some.mp hrun
      obtain ⟨moves, hmoves⟩ := ih hrun
      suffices hone : ∃ first, Lts.run (Smp.step tables) ⟨s, places⟩ first = some ⟨s', places⟩ by
        obtain ⟨first, hfirst⟩ := hone
        exact ⟨first ++ moves, Lts.run_trans hfirst hmoves⟩
      have hwhole : ∀ event, Smp.step tables ⟨s, places⟩ (.event event) = some ⟨s', places⟩ →
          ∃ first, Lts.run (Smp.step tables) ⟨s, places⟩ first = some ⟨s', places⟩ :=
        fun event h => ⟨[.event event], Lts.run_cons h⟩
      cases event with
      | fork current p pid cloneFlags startTime attrs tree =>
          obtain ⟨tasks, hcopy, rfl⟩ := Option.map_eq_some_iff.mp hstep
          obtain ⟨accesses, hfork⟩ := fork_solo (x := ⟨s, places⟩) haway hcopy
          -- the new task is linked by an event of the kernel, which changes nothing else
          obtain ⟨attrs', hattrs⟩ : ∃ attrs' : ι → Attrs,
              (fun t => (tasks t).withAttrs (attrs' t)) = tasks :=
            ⟨fun t => ⟨(tasks t).staticPrio, (tasks t).isKthread, (tasks t).hasIdlePolicy,
              (tasks t).onRq, (tasks t).load, (tasks t).fairClass, (tasks t).exitState⟩, rfl⟩
          refine ⟨_ ++ [.event (.kernel tree attrs')], Lts.run_trans hfork (Lts.run_cons ?_)⟩
          exact congrArg (fun tasks' => some (Smp.mk { s with tree, tasks := tasks' } places)) hattrs
      | sysctl entry value processes =>
          obtain rfl := Option.some.inj hstep
          obtain ⟨accesses, hwrite⟩ := write_solo tables (x := ⟨s, places⟩) haway entry
            value processes
          exact ⟨_, hwrite⟩
      | updateCurr t deltaExec inner =>
          exact hwhole (.updateCurr t deltaExec inner) (congrArg (Option.map (Smp.mk · places)) hstep)
      | restartBurst t inner =>
          exact hwhole (.restartBurst t inner) (congrArg (Option.map (Smp.mk · places)) hstep)
      | futexWait t waiting =>
          exact hwhole (.futexWait t waiting) (congrArg (Option.map (Smp.mk · places)) hstep)
      | switchedToFair t =>
          exact hwhole (.switchedToFair t) (congrArg (Option.map (Smp.mk · places)) hstep)
      | kernel tree attrs =>
          exact hwhole (.kernel tree attrs) (congrArg (Option.map (Smp.mk · places)) hstep)

end Step

end Rustlux.BoreC
