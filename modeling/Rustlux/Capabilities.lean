import Rustlux.PerfHook

/-!
# The tested capability guards

`rust/rustlux_security/src/capabilities.rs` and `hardening_ffi.rs` (`Crate`)
beside the functions of the same names in the in-kernel `rustlux.rs`, of which
`PerfHook` has the first and this file the second (`Kernel`).

The crate asks for `CAP_PERFMON` on every paranoid level above zero and, its
static configuration being restrictive, for `CAP_SYS_ADMIN` on every tty. The
kernel also takes `CAP_SYS_ADMIN` on levels one and two, takes nothing else
from level three on, and lets a process inject into its own tty without any
capability (`capability_guards_agree_iff`).
-/

namespace Rustlux

/-! ## Capability sets -/

inductive Cap where
  | sysAdmin
  | perfMon
  | dacOverride
  | dacReadSearch
  | netAdmin
  | sysModule
deriving DecidableEq, Repr

/-- `cap as u64`. -/
def Cap.bit : Cap → Nat
  | .sysAdmin => 21
  | .perfMon => 38
  | .dacOverride => 1
  | .dacReadSearch => 2
  | .netAdmin => 12
  | .sysModule => 16

structure CapSet where
  raw : U64
deriving DecidableEq, Repr

namespace CapSet

def fromRaw (raw : U64) : CapSet := ⟨raw⟩

def has (caps : CapSet) (cap : Cap) : Bool := (caps.raw >>> cap.bit) &&& 1 == 1

/-- A set built from a mask has the capabilities the mask raises. -/
@[simp] theorem has_fromRaw (raw : U64) (cap : Cap) :
    (fromRaw raw).has cap = capRaised raw cap.bit := rfl

end CapSet

def perfAllowed (caps : CapSet) (paranoid : Int) : Bool :=
  if paranoid ≤ 0 then true
  else caps.has .perfMon

def tiocstiAllowed (caps : CapSet) (restrict sameTty : Bool) : Bool :=
  if sameTty && !restrict then true
  else caps.has .sysAdmin

/-! ## The crate's guards -/

structure TtyConfig where
  tiocstiRestrict : Bool
  legacyTiocsti : Bool
deriving DecidableEq, Repr

/-- Of the static configuration, the part the two guards read. -/
structure HardeningConfig where
  tty : TtyConfig
deriving DecidableEq, Repr

def HARDENING : HardeningConfig :=
  { tty := { tiocstiRestrict := true, legacyTiocsti := false } }

namespace Crate

def rustluxPerfEventAllowed (capEffective : U64) (paranoid : Int) : U8 :=
  let caps := CapSet.fromRaw capEffective
  if perfAllowed caps paranoid then 1 else 0

def rustluxTiocstiAllowed (capEffective : U64) (sameTty : U8) : U8 :=
  let caps := CapSet.fromRaw capEffective
  let restrict := HARDENING.tty.tiocstiRestrict
  if tiocstiAllowed caps restrict (sameTty != 0) then 1 else 0

end Crate

/-! ## The kernel's TIOCSTI guard -/

namespace Kernel

def rustluxTiocstiAllowed (capEffective : U64) (sameTty : U8) : U8 :=
  -- same tty: always allowed, no cross-tty injection
  if sameTty ≠ 0 then 1
  else if capRaised capEffective CAP_SYS_ADMIN then 1
  else 0

end Kernel

/-! ## Where the two agree -/

/-- The crate's perf guard, as a case split on the level. -/
theorem Crate.rustluxPerfEventAllowed_eq (capEffective : U64) (paranoid : Int) :
    Crate.rustluxPerfEventAllowed capEffective paranoid
      = if paranoid ≤ 0 then 1 else if capRaised capEffective CAP_PERFMON then 1 else 0 := by
  unfold Crate.rustluxPerfEventAllowed perfAllowed
  by_cases h0 : paranoid ≤ 0
  · simp only [h0, if_true]
  · simp only [h0, if_false, CapSet.has_fromRaw]
    rfl

/-- The restriction is on, so the crate never looks at the tty. -/
theorem Crate.rustluxTiocstiAllowed_eq (capEffective : U64) (sameTty : U8) :
    Crate.rustluxTiocstiAllowed capEffective sameTty
      = if capRaised capEffective CAP_SYS_ADMIN then 1 else 0 := by
  have hrestrict : ((sameTty != 0) && !HARDENING.tty.tiocstiRestrict) = false := Bool.and_false _
  simp only [Crate.rustluxTiocstiAllowed, tiocstiAllowed, hrestrict, CapSet.has_fromRaw]
  rfl

theorem perfEventAllowed_agree (capEffective : U64) (paranoid : Int) :
    Crate.rustluxPerfEventAllowed capEffective paranoid
        = rustluxPerfEventAllowed capEffective paranoid
      ↔ paranoid ≤ 0
        ∨ (paranoid ≤ 2 ∧ (capRaised capEffective CAP_SYS_ADMIN = true →
            capRaised capEffective CAP_PERFMON = true))
        ∨ (3 ≤ paranoid ∧ capRaised capEffective CAP_SYS_ADMIN
            = capRaised capEffective CAP_PERFMON) := by
  rw [Crate.rustluxPerfEventAllowed_eq]
  unfold rustluxPerfEventAllowed
  rcases (by omega : paranoid ≤ 0 ∨ (paranoid = 1 ∨ paranoid = 2) ∨ 3 ≤ paranoid)
    with h0 | h12 | h3
  · simp only [h0, if_true, true_or]
  · have h0 : ¬paranoid ≤ 0 := by omega
    have h2 : paranoid ≤ 2 := by omega
    have h3 : ¬3 ≤ paranoid := by omega
    simp only [h0, h12, h2, h3, if_true, if_false, true_and, false_and, false_or, or_false]
    cases capRaised capEffective CAP_PERFMON <;>
      cases capRaised capEffective CAP_SYS_ADMIN <;> decide
  · have h0 : ¬paranoid ≤ 0 := by omega
    have h12 : ¬(paranoid = 1 ∨ paranoid = 2) := by omega
    have h2 : ¬paranoid ≤ 2 := by omega
    simp only [h0, h12, h2, h3, if_false, true_and, false_and, false_or]
    cases capRaised capEffective CAP_PERFMON <;>
      cases capRaised capEffective CAP_SYS_ADMIN <;> decide

theorem tiocstiAllowed_agree (capEffective : U64) (sameTty : U8) :
    Crate.rustluxTiocstiAllowed capEffective sameTty
        = Kernel.rustluxTiocstiAllowed capEffective sameTty
      ↔ sameTty = 0 ∨ capRaised capEffective CAP_SYS_ADMIN = true := by
  rw [Crate.rustluxTiocstiAllowed_eq]
  unfold Kernel.rustluxTiocstiAllowed
  by_cases htty : sameTty = 0
  · simp only [htty, not_true, ne_eq, if_false, true_or]
  · simp only [htty, not_false_iff, ne_eq, if_true, false_or]
    cases capRaised capEffective CAP_SYS_ADMIN <;> decide

/-- **The tested guards are the ones the kernel runs exactly when** the perf
level asks for no capability, or the mask answers the same to both copies, and
nobody injects into their own tty without `CAP_SYS_ADMIN`. -/
theorem capability_guards_agree_iff (capEffective : U64) (paranoid : Int) (sameTty : U8) :
    (Crate.rustluxPerfEventAllowed capEffective paranoid
          = rustluxPerfEventAllowed capEffective paranoid
        ∧ Crate.rustluxTiocstiAllowed capEffective sameTty
          = Kernel.rustluxTiocstiAllowed capEffective sameTty)
      ↔ (paranoid ≤ 0
          ∨ (paranoid ≤ 2 ∧ (capRaised capEffective CAP_SYS_ADMIN = true →
              capRaised capEffective CAP_PERFMON = true))
          ∨ (3 ≤ paranoid ∧ capRaised capEffective CAP_SYS_ADMIN
              = capRaised capEffective CAP_PERFMON))
        ∧ (sameTty = 0 ∨ capRaised capEffective CAP_SYS_ADMIN = true) :=
  and_congr (perfEventAllowed_agree capEffective paranoid)
    (tiocstiAllowed_agree capEffective sameTty)

/-- The inputs of the crate's tests `perf_allowed_with_cap` and
`tiocsti_denied_without_sysadmin`: the kernel answers the opposite. -/
theorem capability_guards_differ :
    (Crate.rustluxPerfEventAllowed (1 <<< 38) 3 = 1 ∧ rustluxPerfEventAllowed (1 <<< 38) 3 = 0)
      ∧ (Crate.rustluxTiocstiAllowed 0 1 = 0 ∧ Kernel.rustluxTiocstiAllowed 0 1 = 1) := by
  decide

end Rustlux
