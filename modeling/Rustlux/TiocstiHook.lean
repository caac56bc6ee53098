import Rustlux.Capabilities
import Rustlux.DeviceSidechannel
import Rustlux.Lts
import Rustlux.SpliceGuard
import Mathlib.Computability.StateTransition

/-!
# Injections into terminals

The checks of `tiocsti`: those the kernel has, the one of patch 0001 on the
namespace in which the terminal was allocated, and before them the hook of patch
0007, which asks `rustlux_tiocsti_allowed`. The namespace is set when the terminal
comes up; whoever opens it later leaves it.

The hook refuses nothing that would not be refused after it, so it admits the
same calls in every run; all it changes is an errno (`hook_changes_errno`). What
the check of patch 0001 is for holds as long as nobody who may switches it off:
a container does not get at terminals that were allocated outside
(`injections_contained`).
-/

open StateTransition (Reaches)

namespace Rustlux.Tty

open Sidechannel (procDointvecMinmaxSysadmin)

def EIO : Int := 5

/-- The user namespaces and the credentials in them. As documented, `capable` in
the initial namespace are its tasks with the capability, and in any namespace
only tasks of it or of one above. -/
structure Namespaces (κ ν : Type) where
  initUserNs : ν
  parent : ν → Option ν
  capEffective : κ → U64
  userNs : κ → ν
  nsCapable : κ → ν → Nat → Bool
  nsCapable_init : ∀ cred cap, nsCapable cred initUserNs cap = true
    ↔ userNs cred = initUserNs ∧ capRaised (capEffective cred) cap = true
  nsCapable_above : ∀ cred ns cap, nsCapable cred ns cap = true → Reaches parent ns (userNs cred)

/-- The owners of the terminals, and the two sysctls. -/
structure Terminals (ν τ : Type) where
  ownerUserNs : τ → ν
  ttyLegacyTiocsti : Bool
  ttyTiocstiRestrict : Int

inductive TtyEvent (κ τ : Type) where
  | allocTtyStruct (cred : κ) (tty : τ)
  /-- `current` is `current->signal->tty`. -/
  | tiocsti (cred : κ) (current : Option τ) (tty : τ)
  | writeLegacy (value : Bool)
  | writeRestrict (cred : κ) (value : Int)
deriving DecidableEq, Repr

/-- What a call returns; `.ok` are the injections that get past the checks. -/
inductive Answer where
  | tiocsti (result : Except Int Unit)
  | written (ret : Int)
deriving DecidableEq, Repr

section Code

variable {κ ν τ : Type} [DecidableEq τ] (k : Namespaces κ ν)

def Namespaces.capable (cred : κ) (cap : Nat) : Bool := k.nsCapable cred k.initUserNs cap

/-- The checks of `tiocsti` before `get_user`; the first is there under `CONFIG_RUST`. -/
def tiocsti (configRust : Bool) (s : Terminals ν τ) (cred : κ) (current : Option τ) (tty : τ) :
    Except Int Unit :=
  let sameTty : U8 := if current = some tty then 1 else 0
  if configRust ∧ Kernel.rustluxTiocstiAllowed (k.capEffective cred) sameTty = 0 then
    .error (-EPERM)
  else if !s.ttyLegacyTiocsti && !k.capable cred CAP_SYS_ADMIN then .error (- EIO)
  else if s.ttyTiocstiRestrict ≠ 0 ∧ k.nsCapable cred (s.ownerUserNs tty) CAP_SYS_ADMIN = false then
    .error (-EPERM)
  else if current ≠ some tty ∧ k.capable cred CAP_SYS_ADMIN = false then .error (-EPERM)
  else .ok ()

def Terminals.step (configRust : Bool) (s : Terminals ν τ) :
    TtyEvent κ τ → Option Answer × Terminals ν τ
  | .allocTtyStruct cred tty =>
      (none, { s with ownerUserNs := Function.update s.ownerUserNs tty (k.userNs cred) })
  | .tiocsti cred current tty => (some (.tiocsti (tiocsti k configRust s cred current tty)), s)
  | .writeLegacy value => (none, { s with ttyLegacyTiocsti := value })
  | .writeRestrict cred value =>
      let (ret, data) :=
        procDointvecMinmaxSysadmin (k.capable cred CAP_SYS_ADMIN) value s.ttyTiocstiRestrict
      (some (.written ret), { s with ttyTiocstiRestrict := data })

/-- One answer for each event. -/
def Terminals.answers (configRust : Bool) : Terminals ν τ → List (TtyEvent κ τ) →
    List (Option Answer)
  | _, [] => []
  | s, event :: events =>
      (s.step k configRust event).1 :: answers configRust (s.step k configRust event).2 events

/-- The terminals after an event, in either build. -/
def Terminals.after (s : Terminals ν τ) (event : TtyEvent κ τ) : Terminals ν τ :=
  (s.step k false event).2

end Code

section Hook

variable {κ ν τ : Type} [DecidableEq τ] (k : Namespaces κ ν)

/-! ## The hook -/

/-- The calls that the hook does not refuse, or refuses with the errno they get anyway. -/
def Namespaces.HookSilent (s : Terminals ν τ) : TtyEvent κ τ → Prop
  | .tiocsti cred current tty =>
      s.ttyLegacyTiocsti = true ∨ current = some tty
        ∨ capRaised (k.capEffective cred) CAP_SYS_ADMIN = true
  | _ => True

/-- The same answer, or `-EPERM` in the place of `-EIO`. -/
def ErrnoApart (answer answer' : Option Answer) : Prop :=
  answer = answer'
    ∨ (answer = some (.tiocsti (.error (-EPERM))) ∧ answer' = some (.tiocsti (.error (- EIO))))

theorem tiocstiAllowed_eq_zero (capEffective : U64) (current : Option τ) (tty : τ) :
    Kernel.rustluxTiocstiAllowed capEffective (if current = some tty then 1 else 0) = 0
      ↔ current ≠ some tty ∧ capRaised capEffective CAP_SYS_ADMIN = false := by
  unfold Kernel.rustluxTiocstiAllowed
  by_cases hsame : current = some tty <;>
    cases capRaised capEffective CAP_SYS_ADMIN <;> simp [hsame]

/-- `capable` looks at the same bit, and at the namespace besides. -/
theorem capable_of_not_raised {cred : κ}
    (h : capRaised (k.capEffective cred) CAP_SYS_ADMIN = false) :
    k.capable cred CAP_SYS_ADMIN = false :=
  Bool.eq_false_iff.mpr fun hcap =>
    Bool.false_ne_true (h.symm.trans ((k.nsCapable_init cred CAP_SYS_ADMIN).mp hcap).2)

/-- What the hook refuses is refused without it. -/
theorem tiocsti_of_refused (s : Terminals ν τ) {cred : κ} {current : Option τ} {tty : τ}
    (hother : current ≠ some tty)
    (hcap : capRaised (k.capEffective cred) CAP_SYS_ADMIN = false) :
    tiocsti k false s cred current tty
      = .error (if s.ttyLegacyTiocsti then -EPERM else - EIO) := by
  have hcapable := capable_of_not_raised k hcap
  unfold tiocsti
  rw [if_neg (by simp), hcapable]
  cases s.ttyLegacyTiocsti with
  | false => rfl
  | true =>
      rw [if_neg (by decide), if_pos rfl]
      split
      · rfl
      · rw [if_pos ⟨hother, rfl⟩]

theorem tiocsti_rust (s : Terminals ν τ) (cred : κ) (current : Option τ) (tty : τ) :
    tiocsti k true s cred current tty
      = if current ≠ some tty ∧ capRaised (k.capEffective cred) CAP_SYS_ADMIN = false then
          .error (-EPERM)
        else tiocsti k false s cred current tty := by
  unfold tiocsti
  simp only [tiocstiAllowed_eq_zero, true_and, Bool.false_eq_true, false_and, if_false]

theorem tiocsti_alike_iff (s : Terminals ν τ) (cred : κ) (current : Option τ) (tty : τ) :
    tiocsti k true s cred current tty = tiocsti k false s cred current tty
      ↔ k.HookSilent s (.tiocsti cred current tty) := by
  rw [tiocsti_rust, Namespaces.HookSilent]
  split
  case isTrue h =>
    rw [tiocsti_of_refused k s h.1 h.2, h.2]
    cases s.ttyLegacyTiocsti with
    | true => exact iff_of_true rfl (Or.inl rfl)
    | false =>
        refine iff_of_false (fun heq => absurd heq (by decide)) ?_
        rintro (hlegacy | hsame | hcap)
        · cases hlegacy
        · exact h.1 hsame
        · cases hcap
  case isFalse h =>
    refine iff_of_true rfl (Or.inr ?_)
    by_cases hsame : current = some tty
    · exact Or.inl hsame
    · exact Or.inr (Bool.eq_true_of_not_eq_false fun hcap => h ⟨hsame, hcap⟩)

/-- Who injects, in either build. -/
theorem tiocsti_eq_ok_iff {s : Terminals ν τ} {configRust : Bool} {cred : κ} {current : Option τ}
    {tty : τ} :
    tiocsti k configRust s cred current tty = .ok ()
      ↔ (s.ttyLegacyTiocsti = true ∨ k.capable cred CAP_SYS_ADMIN = true)
        ∧ (s.ttyTiocstiRestrict = 0
          ∨ k.nsCapable cred (s.ownerUserNs tty) CAP_SYS_ADMIN = true)
        ∧ (current = some tty ∨ k.capable cred CAP_SYS_ADMIN = true) := by
  have hplain : tiocsti k false s cred current tty = .ok ()
      ↔ (s.ttyLegacyTiocsti = true ∨ k.capable cred CAP_SYS_ADMIN = true)
        ∧ (s.ttyTiocstiRestrict = 0
          ∨ k.nsCapable cred (s.ownerUserNs tty) CAP_SYS_ADMIN = true)
        ∧ (current = some tty ∨ k.capable cred CAP_SYS_ADMIN = true) := by
    unfold tiocsti
    by_cases hrestrict : s.ttyTiocstiRestrict = 0 <;> by_cases hsame : current = some tty <;>
      cases s.ttyLegacyTiocsti <;> cases k.capable cred CAP_SYS_ADMIN <;>
        cases k.nsCapable cred (s.ownerUserNs tty) CAP_SYS_ADMIN <;> simp [hrestrict, hsame]
  cases configRust with
  | false => exact hplain
  | true =>
      rw [← hplain, tiocsti_rust]
      split
      case isFalse => exact Iff.rfl
      case isTrue h =>
        rw [tiocsti_of_refused k s h.1 h.2]
        exact iff_of_false (fun h => by cases h) (fun h => by cases h)

/-- A call leaves the terminals the same in both builds. -/
theorem step_snd (configRust : Bool) (s : Terminals ν τ) (event : TtyEvent κ τ) :
    (s.step k configRust event).2 = s.after k event := by
  cases event <;> rfl

theorem step_errnoApart (s : Terminals ν τ) (event : TtyEvent κ τ) :
    ErrnoApart (s.step k true event).1 (s.step k false event).1 := by
  cases event with
  | tiocsti cred current tty =>
      rw [Terminals.step, Terminals.step, tiocsti_rust]
      split
      case isFalse => exact Or.inl rfl
      case isTrue h =>
        rw [tiocsti_of_refused k s h.1 h.2]
        cases s.ttyLegacyTiocsti with
        | true => exact Or.inl rfl
        | false => exact Or.inr ⟨rfl, rfl⟩
  | allocTtyStruct cred tty => exact Or.inl rfl
  | writeLegacy value => exact Or.inl rfl
  | writeRestrict cred value => exact Or.inl rfl

theorem step_alike_iff (s : Terminals ν τ) (event : TtyEvent κ τ) :
    (s.step k true event).1 = (s.step k false event).1 ↔ k.HookSilent s event := by
  cases event with
  | tiocsti cred current tty =>
      simpa [Terminals.step] using tiocsti_alike_iff k s cred current tty
  | allocTtyStruct cred tty => exact iff_of_true rfl trivial
  | writeLegacy value => exact iff_of_true rfl trivial
  | writeRestrict cred value => exact iff_of_true rfl trivial

/-- **The hook changes nothing but an errno** in every run: each call is answered as
without it, or with `-EPERM` where it would get `-EIO`. All answers are the same
exactly when the hook is silent all along. -/
theorem hook_changes_errno (s : Terminals ν τ) (events : List (TtyEvent κ τ)) :
    List.Forall₂ ErrnoApart (s.answers k true events) (s.answers k false events)
      ∧ (s.answers k true events = s.answers k false events
        ↔ Lts.Along (fun s event => some (s.after k event)) k.HookSilent s events) := by
  induction events generalizing s with
  | nil => exact ⟨.nil, iff_of_true rfl trivial⟩
  | cons event events ih =>
      obtain ⟨hanswers, halike⟩ := ih (s.after k event)
      rw [Terminals.answers, Terminals.answers, step_snd, step_snd]
      constructor
      · exact .cons (step_errnoApart k s event) hanswers
      · rw [List.cons_eq_cons, step_alike_iff, halike, Lts.Along]
        simp only [Option.some.injEq, forall_eq']

end Hook

section Containment

variable {κ ν τ : Type} [DecidableEq τ] {k : Namespaces κ ν} {s : Terminals ν τ}

/-! ## Containment -/

/-- Nobody who may switches the restriction off. -/
def Namespaces.KeepsRestricted (k : Namespaces κ ν) : TtyEvent κ τ → Prop
  | .writeRestrict cred value => k.capable cred CAP_SYS_ADMIN = true → value ≠ 0
  | _ => True

/-- In the namespace, or in one below. -/
def Namespaces.Inside (k : Namespaces κ ν) (root ns : ν) : Prop := Reaches k.parent ns root

/-- The credentials with which the event allocates the terminal. -/
def TtyEvent.allocates (tty : τ) : TtyEvent κ τ → Option κ
  | .allocTtyStruct cred tty' => if tty' = tty then some cred else none
  | _ => none

/-- The namespace of whoever was the last to allocate the terminal. -/
def Terminals.allocatorNs (k : Namespaces κ ν) (s : Terminals ν τ) (events : List (TtyEvent κ τ))
    (tty : τ) : ν :=
  ((events.filterMap (·.allocates tty)).getLast?.map k.userNs).getD (s.ownerUserNs tty)

def Terminals.afterAll (k : Namespaces κ ν) (s : Terminals ν τ) (events : List (TtyEvent κ τ)) :
    Terminals ν τ :=
  events.foldl (fun s event => s.after k event) s

theorem after_ownerUserNs (event : TtyEvent κ τ) (tty : τ) :
    (s.after k event).ownerUserNs tty
      = ((event.allocates tty).map k.userNs).getD (s.ownerUserNs tty) := by
  cases event with
  | allocTtyStruct cred tty' =>
      rw [TtyEvent.allocates]
      by_cases hsame : tty' = tty
      · rw [if_pos hsame, hsame]
        exact Function.update_self ..
      · rw [if_neg hsame]
        exact Function.update_of_ne (Ne.symm hsame) ..
  | tiocsti cred current tty' => rfl
  | writeLegacy value => rfl
  | writeRestrict cred value => rfl

theorem afterAll_ownerUserNs (events : List (TtyEvent κ τ)) (tty : τ) :
    (s.afterAll k events).ownerUserNs tty = s.allocatorNs k events tty := by
  induction events using List.reverseRecOn with
  | nil => rfl
  | append_singleton events event ih =>
      have hlast : (s.afterAll k (events ++ [event])) = (s.afterAll k events).after k event := by
        rw [Terminals.afterAll, List.foldl_append]
        rfl
      rw [hlast, after_ownerUserNs, ih, Terminals.allocatorNs, Terminals.allocatorNs,
        List.filterMap_append]
      cases hallocates : event.allocates tty with
      | none => simp [hallocates]
      | some cred => simp [hallocates]

theorem after_restricted (hon : s.ttyTiocstiRestrict ≠ 0) {event : TtyEvent κ τ}
    (hkeeps : k.KeepsRestricted event) : (s.after k event).ttyTiocstiRestrict ≠ 0 := by
  cases event with
  | allocTtyStruct cred tty => exact hon
  | tiocsti cred current tty => exact hon
  | writeLegacy value => exact hon
  | writeRestrict cred value =>
      rw [Terminals.after, Terminals.step, procDointvecMinmaxSysadmin]
      dsimp only
      cases hcap : k.capable cred CAP_SYS_ADMIN with
      | false => exact hon
      | true =>
          by_cases hrange : 0 ≤ value ∧ value ≤ 1
          · rw [if_neg (by simp), if_pos hrange]
            exact hkeeps hcap
          · rw [if_neg (by simp), if_neg hrange]
            exact hon

theorem afterAll_restricted (hon : s.ttyTiocstiRestrict ≠ 0) {events : List (TtyEvent κ τ)}
    (hkeeps : ∀ event ∈ events, k.KeepsRestricted event) :
    (s.afterAll k events).ttyTiocstiRestrict ≠ 0 := by
  induction events generalizing s with
  | nil => exact hon
  | cons event events ih =>
      obtain ⟨hevent, hevents⟩ := List.forall_mem_cons.mp hkeeps
      exact ih (after_restricted hon hevent) hevents

/-- **A container does not get at the terminals outside it**, as long as nobody who may
switches the restriction off. Whoever injects into a terminal has `CAP_SYS_ADMIN` over
the namespace in which it was allocated last, and a task inside a container injects only
into what was allocated inside, whoever has opened it since. -/
theorem injections_contained (hon : s.ttyTiocstiRestrict ≠ 0) {events : List (TtyEvent κ τ)}
    (hkeeps : ∀ event ∈ events, k.KeepsRestricted event) {configRust : Bool} {cred : κ}
    {current : Option τ} {tty : τ}
    (h : tiocsti k configRust (s.afterAll k events) cred current tty = .ok ()) :
    k.nsCapable cred (s.allocatorNs k events tty) CAP_SYS_ADMIN = true
      ∧ ∀ root, k.Inside root (k.userNs cred) → k.Inside root (s.allocatorNs k events tty) := by
  obtain ⟨-, hrestricted, -⟩ := (tiocsti_eq_ok_iff k).mp h
  have hcap := hrestricted.resolve_left (afterAll_restricted hon hkeeps)
  rw [afterAll_ownerUserNs] at hcap
  exact ⟨hcap, fun root hinside => (k.nsCapable_above cred _ _ hcap).trans hinside⟩

end Containment

/-! ## A container -/

section Container

def parent : UserNs → Option UserNs
  | .initUserNs => none
  | .child ns => some ns

/-- For credentials that own no namespace. -/
def nsCapable (cred : Cred) (cap : Nat) : UserNs → Bool
  | .initUserNs => capable cred cap
  | .child ns => if cred.userNs = .child ns then capRaised cred.capEffective cap
      else nsCapable cred cap ns

theorem reaches_of_nsCapable {cred : Cred} {cap : Nat} {ns : UserNs}
    (h : nsCapable cred cap ns = true) : Reaches parent ns cred.userNs := by
  induction ns with
  | initUserNs =>
      rw [nsCapable, capable, Bool.and_eq_true, decide_eq_true_eq] at h
      rw [h.1]
      exact .refl
  | child ns ih =>
      rw [nsCapable] at h
      by_cases hown : cred.userNs = .child ns
      · rw [hown]
        exact .refl
      · rw [if_neg hown] at h
        exact .head (Option.mem_some_self ns) (ih h)

def namespaces : Namespaces Cred UserNs where
  initUserNs := .initUserNs
  parent := parent
  capEffective := Cred.capEffective
  userNs := Cred.userNs
  nsCapable cred ns cap := nsCapable cred cap ns
  nsCapable_init cred cap := by
    rw [nsCapable, capable, Bool.and_eq_true, decide_eq_true_eq]
  nsCapable_above _ _ _ h := reaches_of_nsCapable h

/-- Two terminals of the host, where injections are switched on but restricted. -/
def hostTerminals : Terminals UserNs Bool :=
  { ownerUserNs := fun _ => .initUserNs, ttyLegacyTiocsti := true, ttyTiocstiRestrict := 1 }

/-- The root of a container, with all capabilities in it. -/
def containerRoot : Cred := ⟨BitVec.allOnes 64, .child .initUserNs⟩

/-- It tries the sysctl, the host's terminal, and one of its own. -/
def containerRun : List (TtyEvent Cred Bool) :=
  [.writeRestrict containerRoot 0, .tiocsti containerRoot (some false) false,
    .allocTtyStruct containerRoot true, .tiocsti containerRoot (some true) true]

example : hostTerminals.answers namespaces true containerRun
    = [some (.written (-EPERM)), some (.tiocsti (.error (-EPERM))), none,
      some (.tiocsti (.ok ()))] := by
  decide

theorem injections_contained_root :
    namespaces.nsCapable containerRoot (hostTerminals.allocatorNs namespaces containerRun true)
        CAP_SYS_ADMIN = true
      ∧ ∀ root, namespaces.Inside root (namespaces.userNs containerRoot) →
        namespaces.Inside root (hostTerminals.allocatorNs namespaces containerRun true) :=
  injections_contained (by decide) (k := namespaces) (s := hostTerminals)
    (by simp [containerRun, Namespaces.KeepsRestricted, Namespaces.capable, namespaces, nsCapable,
      capable, containerRoot])
    (show tiocsti namespaces true (hostTerminals.afterAll namespaces containerRun) containerRoot
      (some true) true = .ok () by decide)

end Container

end Rustlux.Tty
