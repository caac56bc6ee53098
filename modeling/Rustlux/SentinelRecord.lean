import Rustlux.SentinelCopies
import Rustlux.SentinelTuning

/-!
# From machine checks to the sentinel

`rustlux_memsentinel_record` of `mm/rustlux_memsentinel.c`: `mce_log` feeds it
every logged machine check, it drops what is no valid memory error, asks the
decision core of the build, and warns or queues the page of the error for
`memory_failure`. The two sysctls switch it and set its threshold.

The pages queued are those of the uncorrected memory errors with an address,
whatever the core has counted; and it warns as the core does on the corrected
memory errors alone, so that the results about the core hold of the machine
checks it lets through (`record_effects`). A write to a sysctl is refused when
out of range, so the threshold is never 0 and the two cores a kernel may be
built with do not differ, up to an error that the Rust one cannot count: with
`CONFIG_RUST_OVERFLOW_CHECKS` its `+ 1` panics at the 2^32nd corrected error of a
window and at no other (`neverOverflows_iff`). Records come one after the other.
-/

namespace Rustlux

open CFallback (RUSTLUX_MS_ACTION_WARN RUSTLUX_MS_ACTION_OFFLINE)

/-! ## The source -/

/-- The fields of `struct mce` that the record reads; `memoryError` is what
`mce_is_memory_error` decodes. -/
structure Mce where
  status : U64
  addr : U64
  memoryError : Bool
deriving DecidableEq, Repr

/-- `MCI_STATUS_VAL`, `MCI_STATUS_UC`, `MCI_STATUS_ADDRV` and `PAGE_SHIFT`. -/
structure MceLayout where
  statusVal : U64
  statusUc : U64
  statusAddrv : U64
  pageShift : Nat

/-- `sysctl_memsentinel_enabled` and `sysctl_memsentinel_threshold`. -/
structure SentinelSysctls where
  enabled : Int
  threshold : U32
deriving DecidableEq, Repr

/-- The sentinel of a build whose decision core has the state `σ`. -/
structure Sentinel (σ : Type) where
  core : σ
  sysctls : SentinelSysctls

/-- What a record does besides counting. -/
inductive MceEffect where
  /-- The two `pr_crit` and the taint; the first prints the threshold. -/
  | warn (threshold : U32)
  /-- `memory_failure_queue`. -/
  | memoryFailureQueue (pfn : U64)
deriving DecidableEq, Repr

def NSEC_PER_MSEC : U64 := 1000000

section Code

variable {σ : Type} (layout : MceLayout) (onError : σ → SentinelCall → Int × σ)

/-- At a boot time in nanoseconds. -/
def rustluxMemsentinelRecord (s : Sentinel σ) (boottimeNs : U64) (m : Mce) :
    List MceEffect × Sentinel σ :=
  if s.sysctls.enabled = 0 then ([], s)
  else if m.status &&& layout.statusVal = 0 then ([], s)
  else if !m.memoryError then ([], s)
  else
    let uncorrected : U8 := if m.status &&& layout.statusUc ≠ 0 then 1 else 0
    let nowMs := boottimeNs / NSEC_PER_MSEC
    let (action, core) := onError s.core ⟨nowMs, uncorrected, s.sysctls.threshold⟩
    let s := { s with core }
    if action = RUSTLUX_MS_ACTION_WARN then ([.warn s.sysctls.threshold], s)
    else if action = RUSTLUX_MS_ACTION_OFFLINE then
      if m.status &&& layout.statusAddrv ≠ 0 then
        ([.memoryFailureQueue (m.addr >>> layout.pageShift)], s)
      else ([], s)
    else ([], s)

/-- A logged machine check, or a write to a sysctl with the value it parses. -/
inductive MceEvent where
  | log (boottimeNs : U64) (m : Mce)
  | writeEnabled (value : Int)
  | writeThreshold (value : Nat)

/-- `proc_dointvec_minmax` and `proc_douintvec_minmax` with the bounds of the
table. -/
def SentinelSysctls.after (sysctls : SentinelSysctls) : MceEvent → SentinelSysctls
  | .log _ _ => sysctls
  | .writeEnabled value =>
      if 0 ≤ value ∧ value ≤ 1 then { sysctls with enabled := value } else sysctls
  | .writeThreshold value =>
      if 1 ≤ value ∧ value < 2 ^ 32 then { sysctls with threshold := BitVec.ofNat 32 value }
      else sysctls

def Sentinel.step (s : Sentinel σ) (event : MceEvent) : List MceEffect × Sentinel σ :=
  match event with
  | .log boottimeNs m => rustluxMemsentinelRecord layout onError s boottimeNs m
  | event => ([], { s with sysctls := s.sysctls.after event })

/-- The effects of a run, in order. -/
def Sentinel.effects : Sentinel σ → List MceEvent → List MceEffect
  | _, [] => []
  | s, event :: events =>
      let (effects, s) := s.step layout onError event
      effects ++ Sentinel.effects s events

def SentinelSysctls.boot : SentinelSysctls := { enabled := 1, threshold := 8 }

end Code

/-! ## What it is for -/

section Spec

variable (layout : MceLayout)

/-- A record that the sentinel looks at: switched on, valid, and of the memory. -/
def SentinelSysctls.Heeds (sysctls : SentinelSysctls) (m : Mce) : Prop :=
  sysctls.enabled ≠ 0 ∧ m.status &&& layout.statusVal ≠ 0 ∧ m.memoryError = true

instance (sysctls : SentinelSysctls) (m : Mce) : Decidable (sysctls.Heeds layout m) :=
  inferInstanceAs (Decidable (_ ∧ _))

/-- The pages of the uncorrected errors that have an address. -/
def poisonedPages : SentinelSysctls → List MceEvent → List U64
  | _, [] => []
  | sysctls, .log _ m :: events =>
      let pages := poisonedPages sysctls events
      if sysctls.Heeds layout m ∧ m.status &&& layout.statusUc ≠ 0
          ∧ m.status &&& layout.statusAddrv ≠ 0 then
        m.addr >>> layout.pageShift :: pages
      else pages
  | sysctls, event :: events => poisonedPages (sysctls.after event) events

/-- The corrected errors, each with its threshold. -/
def correctedErrors : SentinelSysctls → List MceEvent → List TunedError
  | _, [] => []
  | sysctls, .log boottimeNs m :: events =>
      let errors := correctedErrors sysctls events
      if sysctls.Heeds layout m ∧ m.status &&& layout.statusUc = 0 then
        ⟨boottimeNs / NSEC_PER_MSEC, sysctls.threshold⟩ :: errors
      else errors
  | sysctls, event :: events => correctedErrors (sysctls.after event) events

/-- The call of the core for a record. -/
def callOf (sysctls : SentinelSysctls) (boottimeNs : U64) (m : Mce) : SentinelCall :=
  ⟨boottimeNs / NSEC_PER_MSEC, if m.status &&& layout.statusUc ≠ 0 then 1 else 0,
    sysctls.threshold⟩

/-- The calls of the core in a run. -/
def coreCalls : SentinelSysctls → List MceEvent → List SentinelCall
  | _, [] => []
  | sysctls, .log boottimeNs m :: events =>
      let calls := coreCalls sysctls events
      if sysctls.Heeds layout m then callOf layout sysctls boottimeNs m :: calls else calls
  | sysctls, event :: events => coreCalls (sysctls.after event) events

/-- The `+ 1` of the kernel's core overflows in this call. -/
def Kernel.MsWindow.Overflows (s : Kernel.MsWindow) (call : SentinelCall) : Prop :=
  call.uncorrected = 0 ∧ ¬call.nowMs - s.start > Kernel.MS_WINDOW_MS ∧ s.count = 0xffffffff

/-- The record overflows the count of the kernel's core. -/
def Sentinel.Overflows (s : Sentinel Kernel.MsWindow) : MceEvent → Prop
  | .log boottimeNs m =>
      s.sysctls.Heeds layout m ∧ s.core.Overflows (callOf layout s.sysctls boottimeNs m)
  | _ => False

def Sentinel.NeverOverflows : Sentinel Kernel.MsWindow → List MceEvent → Prop
  | _, [] => True
  | s, event :: events =>
      ¬s.Overflows layout event
        ∧ Sentinel.NeverOverflows (s.step layout Kernel.rustluxMemsentinelOnError event).2 events

/-- The thresholds that a run of the crate's tracker warns with. -/
def warnings (errors : List TunedError) : List U32 :=
  ((freshTunedTrace errors).filter fun e => e.action = .warn).map (·.threshold)

end Spec

def MceEffect.page? : MceEffect → Option U64
  | .warn _ => none
  | .memoryFailureQueue pfn => some pfn

def MceEffect.threshold? : MceEffect → Option U32
  | .warn threshold => some threshold
  | .memoryFailureQueue _ => none

/-! ## The cores -/

/-- No write makes the threshold 0. -/
theorem after_threshold {sysctls : SentinelSysctls} (h : 1 ≤ sysctls.threshold.toNat)
    (event : MceEvent) : 1 ≤ (sysctls.after event).threshold.toNat := by
  cases event with
  | log boottimeNs m => exact h
  | writeEnabled value =>
      rw [SentinelSysctls.after]
      split <;> exact h
  | writeThreshold value =>
      rw [SentinelSysctls.after]
      split
      · next hvalue =>
          rw [BitVec.toNat_ofNat, Nat.mod_eq_of_lt hvalue.2]
          exact hvalue.1
      · exact h

section Core

variable {σ : Type} {layout : MceLayout} {onError : σ → SentinelCall → Int × σ}

/-- A core that answers as the crate's does, from related states. -/
def CoreFollows (onError : σ → SentinelCall → Int × σ) (R : σ → MemSentinel → Prop) : Prop :=
  ∀ core tracker call, R core tracker → 1 ≤ call.threshold.toNat →
    (onError core call).1 = (rustluxMemsentinelOnError tracker call).1
      ∧ R (onError core call).2 (rustluxMemsentinelOnError tracker call).2

theorem kernel_follows :
    CoreFollows Kernel.rustluxMemsentinelOnError fun core tracker => core.tracker = tracker := by
  rintro core tracker call rfl -
  exact kernel_step core call

theorem cFallback_follows :
    CoreFollows CFallback.rustluxMemsentinelOnError fun core tracker => core.Reads tracker :=
  fun _ _ _ hreads ht => cFallback_step hreads ht

variable (layout) in
/-- The effects of an answer of the core. -/
def effectsOf (sysctls : SentinelSysctls) (m : Mce) (action : Int) : List MceEffect :=
  if action = RUSTLUX_MS_ACTION_WARN then [.warn sysctls.threshold]
  else if action = RUSTLUX_MS_ACTION_OFFLINE ∧ m.status &&& layout.statusAddrv ≠ 0 then
    [.memoryFailureQueue (m.addr >>> layout.pageShift)]
  else []

theorem record_eq (s : Sentinel σ) (boottimeNs : U64) (m : Mce) :
    rustluxMemsentinelRecord layout onError s boottimeNs m
      = if s.sysctls.Heeds layout m then
          let answer := onError s.core (callOf layout s.sysctls boottimeNs m)
          (effectsOf layout s.sysctls m answer.1, { s with core := answer.2 })
        else ([], s) := by
  by_cases hheeds : s.sysctls.Heeds layout m
  · obtain ⟨hon, hval, hmem⟩ := id hheeds
    rw [if_pos hheeds, rustluxMemsentinelRecord, if_neg hon, if_neg hval, if_neg (by simp [hmem])]
    unfold effectsOf callOf
    dsimp only
    generalize onError s.core _ = answer
    obtain ⟨action, core⟩ := answer
    by_cases hwarn : action = RUSTLUX_MS_ACTION_WARN
    · simp only [if_pos hwarn]
    · by_cases hoffline : action = RUSTLUX_MS_ACTION_OFFLINE
      · by_cases haddrv : m.status &&& layout.statusAddrv ≠ 0
        · simp only [if_neg hwarn, if_pos hoffline, if_pos haddrv, if_pos (And.intro hoffline haddrv)]
        · simp only [if_neg hwarn, if_pos hoffline, haddrv, and_false, if_false]
      · simp only [if_neg hwarn, hoffline, false_and, if_false]
  · rw [if_neg hheeds, rustluxMemsentinelRecord]
    by_cases hon : s.sysctls.enabled = 0
    · rw [if_pos hon]
    · by_cases hval : m.status &&& layout.statusVal = 0
      · rw [if_neg hon, if_pos hval]
      · have hmem : (!m.memoryError) = true := by
          rw [Bool.not_eq_true']
          exact Bool.eq_false_iff.mpr fun hmem => hheeds ⟨hon, hval, hmem⟩
        rw [if_neg hon, if_neg hval, if_pos hmem]

/-- Two builds whose cores answer alike do the same, event by event. -/
theorem effects_follow {R : σ → MemSentinel → Prop} (hcore : CoreFollows onError R)
    {core : σ} {tracker : MemSentinel} (hR : R core tracker) {sysctls : SentinelSysctls}
    (ht : 1 ≤ sysctls.threshold.toNat) (events : List MceEvent) :
    Sentinel.effects layout onError ⟨core, sysctls⟩ events
      = Sentinel.effects layout rustluxMemsentinelOnError ⟨tracker, sysctls⟩ events := by
  induction events generalizing core tracker sysctls with
  | nil => rfl
  | cons event events ih =>
      cases event with
      | log boottimeNs m =>
          rw [Sentinel.effects, Sentinel.effects, Sentinel.step, Sentinel.step, record_eq, record_eq]
          by_cases hheeds : sysctls.Heeds layout m
          · obtain ⟨haction, hstate⟩ := hcore core tracker (callOf layout sysctls boottimeNs m) hR ht
            rw [if_pos hheeds, if_pos hheeds]
            dsimp only
            rw [haction, ih hstate ht]
          · rw [if_neg hheeds, if_neg hheeds]
            exact ih hR ht
      | writeEnabled value => exact ih hR (after_threshold ht (.writeEnabled value))
      | writeThreshold value => exact ih hR (after_threshold ht (.writeThreshold value))

end Core

/-! ## The effects of a run -/

section Effects

variable {layout : MceLayout} {s : Sentinel MemSentinel} {boottimeNs : U64} {m : Mce}

theorem record_uncorrected (hheeds : s.sysctls.Heeds layout m)
    (huc : m.status &&& layout.statusUc ≠ 0) :
    rustluxMemsentinelRecord layout rustluxMemsentinelOnError s boottimeNs m
      = (if m.status &&& layout.statusAddrv ≠ 0 then
          [.memoryFailureQueue (m.addr >>> layout.pageShift)] else [], s) := by
  have hanswer : rustluxMemsentinelOnError s.core (callOf layout s.sysctls boottimeNs m)
      = (2, s.core) := by
    rw [callOf, if_pos huc]
    rfl
  rw [record_eq, if_pos hheeds, hanswer]
  dsimp only
  refine Prod.ext ?_ rfl
  unfold effectsOf
  rw [if_neg (by decide)]
  exact if_congr ⟨And.right, fun haddrv => ⟨rfl, haddrv⟩⟩ rfl rfl

theorem record_corrected (ht : 1 ≤ s.sysctls.threshold.toNat) (hheeds : s.sysctls.Heeds layout m)
    (huc : m.status &&& layout.statusUc = 0) :
    rustluxMemsentinelRecord layout rustluxMemsentinelOnError s boottimeNs m
      = let answer := s.core.onError (boottimeNs / NSEC_PER_MSEC) false s.sysctls.threshold
        (if answer.1 = .warn then [.warn s.sysctls.threshold] else [],
          { s with core := answer.2 }) := by
  have hcall : callOf layout s.sysctls boottimeNs m
      = ⟨boottimeNs / NSEC_PER_MSEC, 0, s.sysctls.threshold⟩ := by
    rw [callOf, if_neg (not_not.mpr huc)]
  -- a corrected error is answered with a warning or with nothing
  have heffects : ∀ p : Prop, [Decidable p] →
      effectsOf layout s.sysctls m (if p then SentinelAction.warn else .none).code
        = if (if p then SentinelAction.warn else .none) = .warn then [.warn s.sysctls.threshold]
          else [] := by
    intro p _
    unfold effectsOf
    by_cases hp : p <;> simp [hp, SentinelAction.code, RUSTLUX_MS_ACTION_WARN,
      RUSTLUX_MS_ACTION_OFFLINE]
  rw [record_eq, if_pos hheeds, hcall, rustluxMemsentinelOnError, maxU32_one ht]
  dsimp only
  have hfalse : ((0 : U8) != 0) = false := rfl
  rw [hfalse]
  by_cases hexpired : s.core.Expired (boottimeNs / NSEC_PER_MSEC)
  · rw [MemSentinel.onError_of_expired hexpired, heffects]
  · rw [MemSentinel.onError_of_not_expired hexpired, heffects]

theorem crate_pages (s : Sentinel MemSentinel) (ht : 1 ≤ s.sysctls.threshold.toNat)
    (events : List MceEvent) :
    (Sentinel.effects layout rustluxMemsentinelOnError s events).filterMap MceEffect.page?
      = poisonedPages layout s.sysctls events := by
  induction events generalizing s with
  | nil => rfl
  | cons event events ih =>
      cases event with
      | log boottimeNs m =>
          have hrest := fun core => ih ⟨core, s.sysctls⟩ ht
          rw [Sentinel.effects, poisonedPages, Sentinel.step]
          dsimp only
          rw [List.filterMap_append]
          by_cases hheeds : s.sysctls.Heeds layout m
          · by_cases huc : m.status &&& layout.statusUc = 0
            · rw [record_corrected ht hheeds huc, if_neg fun h => h.2.1 huc]
              dsimp only
              rw [hrest]
              split <;> rfl
            · rw [record_uncorrected hheeds huc, ih s ht]
              by_cases haddrv : m.status &&& layout.statusAddrv ≠ 0
              · rw [if_pos haddrv, if_pos ⟨hheeds, huc, haddrv⟩]
                rfl
              · rw [if_neg haddrv, if_neg fun h => haddrv h.2.2]
                rfl
          · rw [record_eq, if_neg hheeds, if_neg fun h => hheeds h.1, ih s ht]
            rfl
      | writeEnabled value => exact ih _ (after_threshold ht (.writeEnabled value))
      | writeThreshold value => exact ih _ (after_threshold ht (.writeThreshold value))

theorem thresholds_cons (e : TunedEntry) (es : List TunedEntry) :
    ((e :: es).filter fun e => e.action = .warn).map (·.threshold)
      = (if e.action = .warn then [e.threshold] else [])
        ++ (es.filter fun e => e.action = .warn).map (·.threshold) := by
  by_cases h : e.action = .warn <;> simp [h]

theorem crate_warnings (layout : MceLayout) (s : Sentinel MemSentinel)
    (ht : 1 ≤ s.sysctls.threshold.toNat) (w n : Nat) (events : List MceEvent) :
    (Sentinel.effects layout rustluxMemsentinelOnError s events).filterMap MceEffect.threshold?
      = ((tunedTrace s.core w n (correctedErrors layout s.sysctls events)).filter
          fun e => e.action = .warn).map (·.threshold) := by
  induction events generalizing s w n with
  | nil => rfl
  | cons event events ih =>
      cases event with
      | log boottimeNs m =>
          have hrest := fun core => ih ⟨core, s.sysctls⟩ ht
          rw [Sentinel.effects, correctedErrors, Sentinel.step]
          dsimp only
          rw [List.filterMap_append]
          by_cases hheeds : s.sysctls.Heeds layout m
          · by_cases huc : m.status &&& layout.statusUc = 0
            · rw [record_corrected ht hheeds huc, if_pos ⟨hheeds, huc⟩, tunedTrace]
              dsimp only
              rw [hrest, thresholds_cons]
              split <;> rfl
            · have hno : ¬(s.sysctls.Heeds layout m ∧ m.status &&& layout.statusUc = 0) :=
                fun h => huc h.2
              rw [record_uncorrected hheeds huc, if_neg hno, ← ih s ht w n]
              split <;> rfl
          · rw [record_eq, if_neg hheeds, if_neg fun h => hheeds h.1, ← ih s ht w n]
            rfl
      | writeEnabled value => exact ih _ (after_threshold ht (.writeEnabled value)) w n
      | writeThreshold value => exact ih _ (after_threshold ht (.writeThreshold value)) w n

/-- A call counts up, or to 1 in a new window, unless it overflows. -/
theorem kernel_count (k : Kernel.MsWindow) (call : SentinelCall) :
    let next := if call.uncorrected ≠ 0 then k.count.toNat
      else if k.tracker.Expired call.nowMs then 1 else k.count.toNat + 1
    (¬k.Overflows call ↔ next < 2 ^ 32)
      ∧ (next < 2 ^ 32 → (Kernel.rustluxMemsentinelOnError k call).2.count.toNat = next) := by
  have hstate := congrArg (fun s => s.windowCount.toNat) (kernel_step k call).2
  change (Kernel.rustluxMemsentinelOnError k call).2.count.toNat = _ at hstate
  have hlt := k.count.isLt
  by_cases hu : call.uncorrected = 0
  · rw [if_neg (not_not.mpr hu)]
    by_cases hexp : k.tracker.Expired call.nowMs
    · rw [if_pos hexp, hstate, crate_expired hu hexp]
      exact ⟨iff_of_true (fun h => h.2.1 hexp) (by decide), fun _ => rfl⟩
    · rw [if_neg hexp, hstate, crate_not_expired hu hexp]
      constructor
      · have hmax : k.count = 0xffffffff ↔ k.count.toNat = 2 ^ 32 - 1 :=
          ⟨fun h => by rw [h]; rfl, fun h => BitVec.eq_of_toNat_eq h⟩
        constructor
        · intro hno
          have hne : k.count.toNat ≠ 2 ^ 32 - 1 := fun h => hno ⟨hu, hexp, hmax.mpr h⟩
          omega
        · rintro hfits ⟨-, -, hcount⟩
          have := hmax.mp hcount
          omega
      · intro hfits
        exact MemSentinel.count_succ_toNat hfits
  · rw [if_pos hu, hstate, crate_uncorrected _ hu]
    exact ⟨iff_of_true (fun h => hu h.1) hlt, fun _ => rfl⟩

theorem forall_prefix_cons {call : SentinelCall} {calls : List SentinelCall} {s : MemSentinel}
    {n : Nat} (hn : n < 2 ^ 32) :
    (∀ pre, pre <+: call :: calls → sinceReset s n pre < 2 ^ 32)
      ↔ ∀ pre, pre <+: calls → sinceReset s n (call :: pre) < 2 ^ 32 := by
  constructor
  · exact fun h pre hpre => h (call :: pre) ((List.prefix_cons_inj call).mpr hpre)
  · intro h pre hpre
    cases pre with
    | nil => exact hn
    | cons first pre =>
        obtain ⟨rfl, htail⟩ := List.cons_prefix_cons.mp hpre
        exact h pre htail

/-- **The kernel's core overflows** exactly at the 2^32nd corrected error of a window. -/
theorem neverOverflows_iff (s : Sentinel Kernel.MsWindow) (events : List MceEvent) :
    s.NeverOverflows layout events
      ↔ ∀ pre, pre <+: coreCalls layout s.sysctls events →
        sinceReset s.core.tracker s.core.count.toNat pre < 2 ^ 32 := by
  induction events generalizing s with
  | nil =>
      refine iff_of_true trivial fun pre hpre => ?_
      obtain rfl := List.prefix_nil.mp hpre
      exact s.core.count.isLt
  | cons event events ih =>
      rw [Sentinel.NeverOverflows, ih]
      cases event with
      | writeEnabled value => exact and_iff_right id
      | writeThreshold value => exact and_iff_right id
      | log boottimeNs m =>
          rw [Sentinel.Overflows, Sentinel.step, record_eq, coreCalls]
          by_cases hheeds : s.sysctls.Heeds layout m
          · obtain ⟨hno, hcount⟩ := kernel_count s.core (callOf layout s.sysctls boottimeNs m)
            rw [if_pos hheeds, if_pos hheeds, forall_prefix_cons s.core.count.isLt,
              and_iff_right hheeds, hno]
            dsimp only
            rw [(kernel_step s.core _).2]
            constructor
            · rintro ⟨hfits, hrest⟩ pre hpre
              rw [sinceReset, ← hcount hfits]
              exact hrest pre hpre
            · intro hall
              have hfits := hall [] List.nil_prefix
              rw [sinceReset, sinceReset] at hfits
              refine ⟨hfits, fun pre hpre => ?_⟩
              rw [hcount hfits]
              exact hall pre hpre
          · rw [if_neg hheeds, if_neg hheeds]
            exact and_iff_right fun h => hheeds h.1

/-- **What the sentinel does with the machine checks**, from boot and whatever is
written to the sysctls, while no window has 2^32 corrected errors: the Rust build
never overflows, both builds do the same, exactly the pages of the uncorrected
memory errors are queued, and the warnings are those of the tracker on the
corrected ones. -/
theorem record_effects (layout : MceLayout) {events : List MceEvent}
    (hfew : ∀ pre, pre <+: coreCalls layout .boot events → sinceReset .new 0 pre < 2 ^ 32) :
    let start : Sentinel Kernel.MsWindow := ⟨⟨0, 0⟩, .boot⟩
    let rust := start.effects layout Kernel.rustluxMemsentinelOnError events
    start.NeverOverflows layout events
      ∧ Sentinel.effects layout CFallback.rustluxMemsentinelOnError ⟨⟨0, 0⟩, .boot⟩ events = rust
      ∧ rust.filterMap MceEffect.page? = poisonedPages layout .boot events
      ∧ rust.filterMap MceEffect.threshold? = warnings (correctedErrors layout .boot events) := by
  intro start rust
  have ht : 1 ≤ SentinelSysctls.boot.threshold.toNat := by decide
  have hrust : rust
      = Sentinel.effects layout rustluxMemsentinelOnError ⟨.new, .boot⟩ events :=
    effects_follow kernel_follows rfl ht events
  have hreads : CFallback.MsWindow.Reads ⟨0, 0⟩ .new := ⟨rfl, rfl⟩
  refine ⟨(neverOverflows_iff start events).mpr hfew, ?_, ?_, ?_⟩
  · rw [hrust]
    exact effects_follow cFallback_follows hreads ht events
  · rw [hrust]
    exact crate_pages _ ht events
  · rw [hrust]
    exact crate_warnings layout _ ht 0 0 events

/-- As on x86. -/
def x86Layout : MceLayout :=
  { statusVal := 1 <<< 63, statusUc := 1 <<< 61, statusAddrv := 1 <<< 58, pageShift := 12 }

/-- The threshold is set to 1; then come a corrected error, an uncorrected one in the page
`0x1234`, and one that is not of the memory. -/
def badMemory : List MceEvent :=
  [.writeThreshold 1, .log 70000000000 ⟨1 <<< 63, 0, true⟩,
    .log 70001000000 ⟨1 <<< 63 ||| 1 <<< 61 ||| 1 <<< 58, 0x1234567, true⟩,
    .log 70002000000 ⟨1 <<< 63, 0, false⟩]

theorem record_effects_badMemory :
    let start : Sentinel Kernel.MsWindow := ⟨⟨0, 0⟩, .boot⟩
    let rust := start.effects x86Layout Kernel.rustluxMemsentinelOnError badMemory
    start.NeverOverflows x86Layout badMemory
      ∧ Sentinel.effects x86Layout CFallback.rustluxMemsentinelOnError ⟨⟨0, 0⟩, .boot⟩ badMemory
        = rust
      ∧ rust.filterMap MceEffect.page? = [0x1234] ∧ rust.filterMap MceEffect.threshold? = [1] := by
  have hfew : ∀ pre, pre <+: coreCalls x86Layout .boot badMemory →
      sinceReset .new 0 pre < 2 ^ 32 := by
    intro pre hpre
    have hcalls : (coreCalls x86Layout .boot badMemory).length = 2 := by decide
    have hlength := hpre.length_le
    have := sinceReset_le pre .new 0
    omega
  have hpages : poisonedPages x86Layout .boot badMemory = [0x1234] := by decide
  have hwarnings : warnings (correctedErrors x86Layout .boot badMemory) = [1] := by decide
  have h := record_effects x86Layout hfew
  rw [hpages, hwarnings] at h
  exact h

end Effects

end Rustlux
