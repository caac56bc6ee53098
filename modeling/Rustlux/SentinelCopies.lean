import Rustlux.MemSentinel

/-!
# The memory sentinel, three times

`rustlux_memsentinel_on_error` of the crate, of the in-kernel `rustlux.rs`
(`Kernel`) and of the C fallback (`CFallback`), which keeps the window start
and the count in signed atomics. The three stay in step over every run
(`sentinel_copies_agree`): C's integers are the two's complement of Rust's
words, and its count wraps where theirs does. Short of 2^32 - 1 corrected
errors without a reset the count is the number of these errors, so that the
increment of the Rust copies, which a checked build would stop at, never
overflows.
-/

namespace Rustlux

/-- One call of `rustlux_memsentinel_on_error`. -/
structure SentinelCall where
  nowMs : U64
  uncorrected : U8
  threshold : U32
deriving DecidableEq, Repr

/-! ## The crate -/

/-- `as i32`. -/
def SentinelAction.code : SentinelAction → Int
  | .none => 0
  | .warn => 1
  | .offline => 2

/-- `u32::max`. -/
def maxU32 (x y : U32) : U32 := if x ≤ y then y else x

def rustluxMemsentinelOnError (s : MemSentinel) (call : SentinelCall) : Int × MemSentinel :=
  let (action, s) := s.onError call.nowMs (call.uncorrected != 0) (maxU32 call.threshold 1)
  (action.code, s)

/-! ## The in-kernel Rust copy -/

namespace Kernel

def MS_WINDOW_MS : U64 := 60000

/-- `MS_WINDOW_START` and `MS_WINDOW_COUNT`. -/
structure MsWindow where
  start : U64
  count : U32
deriving DecidableEq, Repr

def ACTION_NONE : Int := 0
def ACTION_WARN : Int := 1
def ACTION_OFFLINE : Int := 2

def rustluxMemsentinelOnError (s : MsWindow) (call : SentinelCall) : Int × MsWindow :=
  if call.uncorrected ≠ 0 then (ACTION_OFFLINE, s)
  else
    let start := s.start
    let s :=
      if call.nowMs - start > MS_WINDOW_MS then
        -- `compare_exchange`: only one CPU wins the reset
        if s.start = start then { start := call.nowMs, count := 0 } else s
      else s
    let old := s.count
    let s := { s with count := old + 1 }
    let count := old + 1
    (if count = maxU32 call.threshold 1 then ACTION_WARN else ACTION_NONE, s)

end Kernel

/-! ## The C fallback -/

namespace CFallback

def RUSTLUX_MS_WINDOW_MS : U64 := 60000

def RUSTLUX_MS_ACTION_NONE : Int := 0
def RUSTLUX_MS_ACTION_WARN : Int := 1
def RUSTLUX_MS_ACTION_OFFLINE : Int := 2

/-- The `atomic64_t` and the `atomic_t`. -/
structure MsWindow where
  windowStartMs : Int
  windowCount : Int
deriving DecidableEq, Repr

/-- The old value; it is exchanged if it is the expected one. -/
def MsWindow.atomic64Cmpxchg (s : MsWindow) (old new : Int) : Int × MsWindow :=
  (s.windowStartMs, if s.windowStartMs = old then { s with windowStartMs := new } else s)

/-- The new value, wrapped to `int`. -/
def MsWindow.atomicIncReturn (s : MsWindow) : Int × MsWindow :=
  let count := (s.windowCount + 1).bmod (2 ^ 32)
  (count, { s with windowCount := count })

/-- Conversions between the signed atomics and `u64` are modulo 2^64. -/
def rustluxMemsentinelOnError (s : MsWindow) (call : SentinelCall) : Int × MsWindow :=
  if call.uncorrected ≠ 0 then (RUSTLUX_MS_ACTION_OFFLINE, s)
  else
    let start : U64 := BitVec.ofInt 64 s.windowStartMs
    let s :=
      if call.nowMs - start > RUSTLUX_MS_WINDOW_MS then
        let (old, s) := s.atomic64Cmpxchg start.toInt call.nowMs.toInt
        if BitVec.ofInt 64 old = start then { s with windowCount := 0 } else s
      else s
    let (count, s) := s.atomicIncReturn
    (if count = call.threshold.toInt then RUSTLUX_MS_ACTION_WARN else RUSTLUX_MS_ACTION_NONE, s)

end CFallback

/-! ## One call -/

theorem maxU32_one {t : U32} (ht : 1 ≤ t.toNat) : maxU32 t 1 = t := by
  rw [maxU32]
  split
  · rename_i h
    exact BitVec.eq_of_toNat_eq (Nat.le_antisymm ht h)
  · rfl

theorem code_ite (p : Prop) [Decidable p] :
    (if p then SentinelAction.warn else .none).code = if p then 1 else 0 := by
  split <;> rfl

theorem crate_uncorrected (s : MemSentinel) {call : SentinelCall} (hu : call.uncorrected ≠ 0) :
    rustluxMemsentinelOnError s call = (2, s) := by
  have hb : (call.uncorrected != 0) = true := bne_iff_ne.mpr hu
  rw [rustluxMemsentinelOnError, hb, MemSentinel.onError_uncorrected]
  rfl

theorem crate_expired {s : MemSentinel} {call : SentinelCall} (hu : call.uncorrected = 0)
    (h : s.Expired call.nowMs) :
    rustluxMemsentinelOnError s call
      = (if 1#32 = maxU32 call.threshold 1 then 1 else 0, ⟨call.nowMs, 1#32⟩) := by
  have hb : (call.uncorrected != 0) = false := by rw [hu]; rfl
  rw [rustluxMemsentinelOnError, hb, MemSentinel.onError_of_expired h]
  exact Prod.ext (code_ite _) rfl

theorem crate_not_expired {s : MemSentinel} {call : SentinelCall} (hu : call.uncorrected = 0)
    (h : ¬s.Expired call.nowMs) :
    rustluxMemsentinelOnError s call
      = (if s.windowCount + 1#32 = maxU32 call.threshold 1 then 1 else 0,
          ⟨s.windowStartMs, s.windowCount + 1#32⟩) := by
  have hb : (call.uncorrected != 0) = false := by rw [hu]; rfl
  rw [rustluxMemsentinelOnError, hb, MemSentinel.onError_of_not_expired h]
  exact Prod.ext (code_ite _) rfl

/-- The kernel's window as a tracker of the crate. -/
def Kernel.MsWindow.tracker (s : Kernel.MsWindow) : MemSentinel := ⟨s.start, s.count⟩

theorem kernel_step (k : Kernel.MsWindow) (call : SentinelCall) :
    (Kernel.rustluxMemsentinelOnError k call).1 = (rustluxMemsentinelOnError k.tracker call).1
      ∧ (Kernel.rustluxMemsentinelOnError k call).2.tracker
        = (rustluxMemsentinelOnError k.tracker call).2 := by
  by_cases hu : call.uncorrected = 0
  · have hne : ¬call.uncorrected ≠ 0 := not_not.mpr hu
    by_cases hexp : k.tracker.Expired call.nowMs
    · have hexp' : call.nowMs - k.start > Kernel.MS_WINDOW_MS := hexp
      rw [crate_expired hu hexp, Kernel.rustluxMemsentinelOnError, if_neg hne]
      simp only [if_pos hexp', if_true]
      exact ⟨rfl, rfl⟩
    · have hexp' : ¬call.nowMs - k.start > Kernel.MS_WINDOW_MS := hexp
      rw [crate_not_expired hu hexp, Kernel.rustluxMemsentinelOnError, if_neg hne]
      simp only [if_neg hexp']
      exact ⟨rfl, rfl⟩
  · rw [crate_uncorrected _ hu, Kernel.rustluxMemsentinelOnError, if_pos hu]
    exact ⟨rfl, rfl⟩

/-- C's window holds the two's complement of the crate's. -/
structure CFallback.MsWindow.Reads (c : CFallback.MsWindow) (s : MemSentinel) : Prop where
  start : c.windowStartMs = s.windowStartMs.toInt
  count : c.windowCount = s.windowCount.toInt

theorem toInt_succ (x : U32) : (x.toInt + 1).bmod (2 ^ 32) = (x + 1#32).toInt := by
  rw [BitVec.toInt_add]
  rfl

theorem cFallback_step {c : CFallback.MsWindow} {s : MemSentinel} (h : c.Reads s)
    {call : SentinelCall} (ht : 1 ≤ call.threshold.toNat) :
    (CFallback.rustluxMemsentinelOnError c call).1 = (rustluxMemsentinelOnError s call).1
      ∧ (CFallback.rustluxMemsentinelOnError c call).2.Reads
          (rustluxMemsentinelOnError s call).2 := by
  obtain ⟨windowStartMs, windowCount⟩ := c
  obtain ⟨rfl, rfl⟩ : windowStartMs = s.windowStartMs.toInt ∧ windowCount = s.windowCount.toInt :=
    ⟨h.start, h.count⟩
  have hstart : BitVec.ofInt 64 s.windowStartMs.toInt = s.windowStartMs := BitVec.ofInt_toInt
  have hequal : ∀ x : U32,
      (if x.toInt = call.threshold.toInt then CFallback.RUSTLUX_MS_ACTION_WARN
        else CFallback.RUSTLUX_MS_ACTION_NONE)
        = if x = call.threshold then 1 else 0 := by
    intro x
    simp only [BitVec.toInt_inj]
    rfl
  by_cases hu : call.uncorrected = 0
  · have hne : ¬call.uncorrected ≠ 0 := not_not.mpr hu
    by_cases hexp : s.Expired call.nowMs
    · have hexp' : call.nowMs - s.windowStartMs > CFallback.RUSTLUX_MS_WINDOW_MS := hexp
      rw [crate_expired hu hexp, maxU32_one ht, CFallback.rustluxMemsentinelOnError, if_neg hne]
      simp only [hstart, if_pos hexp', CFallback.MsWindow.atomic64Cmpxchg, if_true,
        CFallback.MsWindow.atomicIncReturn]
      exact ⟨hequal 1, rfl, rfl⟩
    · have hexp' : ¬call.nowMs - s.windowStartMs > CFallback.RUSTLUX_MS_WINDOW_MS := hexp
      rw [crate_not_expired hu hexp, maxU32_one ht, CFallback.rustluxMemsentinelOnError,
        if_neg hne]
      simp only [hstart, if_neg hexp', CFallback.MsWindow.atomicIncReturn, toInt_succ]
      exact ⟨hequal _, rfl, rfl⟩
  · rw [crate_uncorrected _ hu, CFallback.rustluxMemsentinelOnError, if_pos hu]
    exact ⟨rfl, rfl, rfl⟩

/-! ## Runs -/

/-- The actions of a run of calls and the state after it. -/
def runCalls {σ : Type} (onError : σ → SentinelCall → Int × σ) :
    σ → List SentinelCall → List Int × σ
  | s, [] => ([], s)
  | s, call :: calls =>
      let (action, s) := onError s call
      let (actions, s) := runCalls onError s calls
      (action :: actions, s)

theorem kernel_run (k : Kernel.MsWindow) (calls : List SentinelCall) :
    (runCalls Kernel.rustluxMemsentinelOnError k calls).1
        = (runCalls rustluxMemsentinelOnError k.tracker calls).1
      ∧ (runCalls Kernel.rustluxMemsentinelOnError k calls).2.tracker
        = (runCalls rustluxMemsentinelOnError k.tracker calls).2 := by
  induction calls generalizing k with
  | nil => exact ⟨rfl, rfl⟩
  | cons call calls ih =>
      obtain ⟨haction, hstate⟩ := kernel_step k call
      obtain ⟨hactions, hlast⟩ := ih (Kernel.rustluxMemsentinelOnError k call).2
      rw [hstate] at hactions hlast
      exact ⟨congrArg₂ List.cons haction hactions, hlast⟩

theorem cFallback_run {c : CFallback.MsWindow} {s : MemSentinel} (h : c.Reads s)
    {calls : List SentinelCall} (ht : ∀ call ∈ calls, 1 ≤ call.threshold.toNat) :
    (runCalls CFallback.rustluxMemsentinelOnError c calls).1
        = (runCalls rustluxMemsentinelOnError s calls).1
      ∧ (runCalls CFallback.rustluxMemsentinelOnError c calls).2.Reads
          (runCalls rustluxMemsentinelOnError s calls).2 := by
  induction calls generalizing c s with
  | nil => exact ⟨rfl, h⟩
  | cons call calls ih =>
      obtain ⟨hcall, hcalls⟩ := List.forall_mem_cons.mp ht
      obtain ⟨haction, hstate⟩ := cFallback_step h hcall
      obtain ⟨hactions, hlast⟩ := ih hstate hcalls
      exact ⟨congrArg₂ List.cons haction hactions, hlast⟩

/-- The corrected errors since the last reset, after `n` of them. -/
def sinceReset : MemSentinel → Nat → List SentinelCall → Nat
  | _, n, [] => n
  | s, n, call :: calls =>
      sinceReset (rustluxMemsentinelOnError s call).2
        (if call.uncorrected ≠ 0 then n else if s.Expired call.nowMs then 1 else n + 1) calls

/-- While the errors since a reset fit, the count is their number. -/
theorem count_eq_sinceReset {calls : List SentinelCall} {s : MemSentinel} {n : Nat}
    (hn : s.windowCount.toNat = n)
    (hfew : ∀ pre, pre <+: calls → sinceReset s n pre < 2 ^ 32 - 1) :
    (runCalls rustluxMemsentinelOnError s calls).2.windowCount.toNat = sinceReset s n calls := by
  induction calls generalizing s n with
  | nil => exact hn
  | cons call calls ih =>
      have hfirst := hfew [call] ((List.prefix_cons_inj call).mpr List.nil_prefix)
      rw [sinceReset, sinceReset] at hfirst
      have hstep : (rustluxMemsentinelOnError s call).2.windowCount.toNat
          = if call.uncorrected ≠ 0 then n else if s.Expired call.nowMs then 1 else n + 1 := by
        by_cases hu : call.uncorrected = 0
        · rw [if_neg (not_not.mpr hu)] at hfirst ⊢
          by_cases hexp : s.Expired call.nowMs
          · rw [crate_expired hu hexp, if_pos hexp]
            rfl
          · rw [if_neg hexp] at hfirst ⊢
            rw [crate_not_expired hu hexp, ← hn]
            exact MemSentinel.count_succ_toNat (by omega)
        · rw [crate_uncorrected s hu, if_pos hu]
          exact hn
      exact ih hstep fun pre hpre =>
        hfew (call :: pre) ((List.prefix_cons_inj call).mpr hpre)

theorem sinceReset_le (calls : List SentinelCall) (s : MemSentinel) (n : Nat) :
    sinceReset s n calls ≤ n + calls.length := by
  induction calls generalizing s n with
  | nil => exact Nat.le_refl n
  | cons call calls ih =>
      rw [sinceReset, List.length_cons]
      refine Nat.le_trans (ih _ _) ?_
      split
      · omega
      · split <;> omega

/-- **The three cores are interchangeable.** -/
theorem sentinel_copies_agree {calls : List SentinelCall}
    (ht : ∀ call ∈ calls, 1 ≤ call.threshold.toNat)
    (hfew : ∀ pre, pre <+: calls → sinceReset .new 0 pre < 2 ^ 32 - 1) :
    let crate := runCalls rustluxMemsentinelOnError .new calls
    let kernel := runCalls Kernel.rustluxMemsentinelOnError ⟨0, 0⟩ calls
    let fallback := runCalls CFallback.rustluxMemsentinelOnError ⟨0, 0⟩ calls
    (kernel.1 = crate.1 ∧ fallback.1 = crate.1)
      ∧ (kernel.2.start = crate.2.windowStartMs ∧ kernel.2.count = crate.2.windowCount)
      ∧ (fallback.2.windowStartMs = crate.2.windowStartMs.toInt
        ∧ fallback.2.windowCount = crate.2.windowCount.toInt)
      ∧ crate.2.windowCount.toNat = sinceReset .new 0 calls := by
  intro crate kernel fallback
  obtain ⟨hkernel, hstate⟩ := kernel_run ⟨0, 0⟩ calls
  have hnew : CFallback.MsWindow.Reads ⟨0, 0⟩ .new := ⟨rfl, rfl⟩
  obtain ⟨hfallback, hreads⟩ := cFallback_run hnew ht
  exact ⟨⟨hkernel, hfallback⟩,
    ⟨congrArg MemSentinel.windowStartMs hstate, congrArg MemSentinel.windowCount hstate⟩,
    ⟨hreads.start, hreads.count⟩, count_eq_sinceReset rfl hfew⟩

/-- A threshold above `INT_MAX`, a timestamp before the window start, and an
uncorrected error in between. -/
theorem sentinel_copies_agree_three :
    (runCalls CFallback.rustluxMemsentinelOnError ⟨0, 0⟩
        [⟨70000, 0, 1⟩, ⟨70001, 1, 8⟩, ⟨69999, 0, 0xffffffff⟩]).1
      = (runCalls rustluxMemsentinelOnError .new
        [⟨70000, 0, 1⟩, ⟨70001, 1, 8⟩, ⟨69999, 0, 0xffffffff⟩]).1 := by
  have ht : ∀ call ∈ ([⟨70000, 0, 1⟩, ⟨70001, 1, 8⟩, ⟨69999, 0, 0xffffffff⟩] : List SentinelCall),
      1 ≤ call.threshold.toNat := by decide
  have hfew : ∀ pre, pre <+: ([⟨70000, 0, 1⟩, ⟨70001, 1, 8⟩, ⟨69999, 0, 0xffffffff⟩] :
      List SentinelCall) → sinceReset .new 0 pre < 2 ^ 32 - 1 := by
    intro pre hpre
    have hlength : pre.length ≤ 3 := hpre.length_le
    have := sinceReset_le pre .new 0
    omega
  exact (sentinel_copies_agree ht hfew).1.2

end Rustlux
