import Rustlux.Prim

/-!
# The perf hook

`perf_allow_kernel` as patch 0006 rewrites it under `CONFIG_RUST`, beside the
check it returns before. The hook hands `cred->cap_effective.val` to
`rustlux_perf_event_allowed` (patch 0005); the mask alone does not say which
user namespace it is relative to, which `perfmon_capable` does ask.
-/

namespace Rustlux

/-- The initial user namespace or a descendant of it. -/
inductive UserNs where
  | initUserNs
  | child (parent : UserNs)
deriving DecidableEq, Repr

/-- What the two checks read of a `struct cred`. -/
structure Cred where
  capEffective : U64
  userNs : UserNs
deriving DecidableEq, Repr

/-- How `perf_allow_kernel` ends: an errno, or the call of the security hook. -/
inductive PerfOutcome where
  | refused (errno : Int)
  | securityPerfEventOpen
deriving DecidableEq, Repr

def EACCES : Int := 13

def CAP_PERFMON : Nat := 38
def CAP_SYS_ADMIN : Nat := 21

/-- `(cap_effective >> cap) & 1 == 1`. -/
def capRaised (capEffective : U64) (cap : Nat) : Bool := (capEffective >>> cap) &&& 1 == 1

/-! ## The Rust hook -/

def rustluxPerfEventAllowed (capEffective : U64) (paranoid : Int) : U8 :=
  if paranoid ≤ 0 then 1
  else if paranoid = 1 ∨ paranoid = 2 then
    -- requires CAP_PERFMON or CAP_SYS_ADMIN
    if capRaised capEffective CAP_PERFMON then 1
    else if capRaised capEffective CAP_SYS_ADMIN then 1
    else 0
  else
    -- paranoid >= 3: only CAP_SYS_ADMIN
    if capRaised capEffective CAP_SYS_ADMIN then 1
    else 0

def perfAllowKernelRust (cred : Cred) (paranoid : Int) : PerfOutcome :=
  if rustluxPerfEventAllowed cred.capEffective paranoid = 0 then .refused (-EACCES)
  else .securityPerfEventOpen

/-! ## The plain check -/

/-- `capable`, that is `ns_capable(&init_user_ns, cap)`. -/
def capable (cred : Cred) (cap : Nat) : Bool :=
  decide (cred.userNs = .initUserNs) && capRaised cred.capEffective cap

def perfmonCapable (cred : Cred) : Bool := capable cred CAP_PERFMON || capable cred CAP_SYS_ADMIN

def perfAllowKernelPlain (cred : Cred) (paranoid : Int) : PerfOutcome :=
  if paranoid > 1 ∧ perfmonCapable cred = false then .refused (-EACCES)
  else .securityPerfEventOpen

/-! ## What each grants -/

theorem perfAllowKernelRust_grants (cred : Cred) (paranoid : Int) :
    perfAllowKernelRust cred paranoid = .securityPerfEventOpen
      ↔ paranoid ≤ 0
        ∨ (paranoid ≤ 2 ∧ capRaised cred.capEffective CAP_PERFMON = true)
        ∨ capRaised cred.capEffective CAP_SYS_ADMIN = true := by
  unfold perfAllowKernelRust rustluxPerfEventAllowed
  by_cases h0 : paranoid ≤ 0
  · simp [h0]
  · have h12 : (paranoid = 1 ∨ paranoid = 2) ↔ paranoid ≤ 2 := by omega
    simp only [h0, h12, if_false, false_or]
    by_cases h2 : paranoid ≤ 2 <;>
      cases capRaised cred.capEffective CAP_PERFMON <;>
        cases capRaised cred.capEffective CAP_SYS_ADMIN <;> simp [h2]

theorem perfAllowKernelPlain_grants (cred : Cred) (paranoid : Int) :
    perfAllowKernelPlain cred paranoid = .securityPerfEventOpen
      ↔ paranoid ≤ 1
        ∨ (cred.userNs = .initUserNs
          ∧ (capRaised cred.capEffective CAP_PERFMON = true
            ∨ capRaised cred.capEffective CAP_SYS_ADMIN = true)) := by
  unfold perfAllowKernelPlain perfmonCapable capable
  by_cases h1 : paranoid ≤ 1
  · have hgt : ¬paranoid > 1 := by omega
    simp only [h1, hgt, false_and, if_false, true_or]
  · have hgt : paranoid > 1 := by omega
    by_cases hns : cred.userNs = .initUserNs <;>
      cases capRaised cred.capEffective CAP_PERFMON <;>
        cases capRaised cred.capEffective CAP_SYS_ADMIN <;> simp [h1, hgt, hns]

/-- **The hook grants no more than the check it replaces exactly when** the
credential belongs to the initial namespace, or the paranoid level asks for no
capability, or the mask has none of those it asks for. -/
theorem perfHook_refines_iff (cred : Cred) (paranoid : Int) :
    (perfAllowKernelRust cred paranoid = .securityPerfEventOpen →
        perfAllowKernelPlain cred paranoid = .securityPerfEventOpen)
      ↔ cred.userNs = .initUserNs
        ∨ paranoid ≤ 1
        ∨ (paranoid = 2 ∧ capRaised cred.capEffective CAP_PERFMON = false
            ∧ capRaised cred.capEffective CAP_SYS_ADMIN = false)
        ∨ (3 ≤ paranoid ∧ capRaised cred.capEffective CAP_SYS_ADMIN = false) := by
  rw [perfAllowKernelRust_grants, perfAllowKernelPlain_grants]
  constructor
  · intro h
    by_cases hns : cred.userNs = .initUserNs
    · exact Or.inl hns
    -- outside the initial namespace the plain check grants by level only
    have hlevel := fun hrust => (h hrust).resolve_right fun hcap => hns hcap.1
    rcases (by omega : paranoid ≤ 1 ∨ paranoid = 2 ∨ 3 ≤ paranoid) with h1 | rfl | h3
    · exact Or.inr (Or.inl h1)
    · refine Or.inr (Or.inr (Or.inl ⟨rfl, ?_, ?_⟩))
      · refine Bool.eq_false_iff.mpr fun hcap => absurd (hlevel ?_) (by decide)
        exact Or.inr (Or.inl ⟨Int.le_refl 2, hcap⟩)
      · refine Bool.eq_false_iff.mpr fun hcap => absurd (hlevel ?_) (by decide)
        exact Or.inr (Or.inr hcap)
    · refine Or.inr (Or.inr (Or.inr ⟨h3, Bool.eq_false_iff.mpr fun hcap => ?_⟩))
      have := hlevel (Or.inr (Or.inr hcap))
      omega
  · rintro (hns | h1 | ⟨rfl, hp, ha⟩ | ⟨h3, ha⟩) hrust
    · rcases hrust with h0 | ⟨-, hcap⟩ | hcap
      · exact Or.inl (by omega)
      · exact Or.inr ⟨hns, Or.inl hcap⟩
      · exact Or.inr ⟨hns, Or.inr hcap⟩
    · exact Or.inl h1
    · rcases hrust with h0 | ⟨-, hcap⟩ | hcap
      · exact absurd h0 (by decide)
      · rw [hp] at hcap; cases hcap
      · rw [ha] at hcap; cases hcap
    · rcases hrust with h0 | ⟨h2, -⟩ | hcap
      · omega
      · omega
      · rw [ha] at hcap; cases hcap

/-- `CAP_PERFMON` held in a child namespace, at the kernel's default level. -/
theorem perfHook_child_namespace :
    perfAllowKernelRust ⟨1 <<< 38, .child .initUserNs⟩ 2 = .securityPerfEventOpen
      ∧ perfAllowKernelPlain ⟨1 <<< 38, .child .initUserNs⟩ 2 = .refused (-EACCES) := by
  decide

end Rustlux
