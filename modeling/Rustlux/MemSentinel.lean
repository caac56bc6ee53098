import Rustlux.Prim
import Rustlux.Threshold

/-!
# The memory sentinel

The decision core of `rust/rustlux_mm/src/mem_sentinel.rs`: a window start
and a count in two atomics, and `on_error`, which opens a new window when the
current one is older than `WINDOW_MS`, counts the error, and warns when the
count reaches the threshold.

Runs are followed entry by entry. An entry is a call with its answer and the
number of its window, which is the number of resets so far. What is known of
a run is known of its windows: how often each one warns
(`warnsIn_trace`) and how far apart the errors of two windows are
(`trace_apart`).
-/

open Threshold (fires)

namespace Rustlux

/-- Sliding window in milliseconds. -/
def WINDOW_MS : U64 := 60000

inductive SentinelAction where
  | none
  | warn
  | offline
deriving DecidableEq, Repr

structure MemSentinel where
  windowStartMs : U64
  windowCount : U32
deriving DecidableEq, Repr

namespace MemSentinel

/-- A tracker with an empty window. -/
def new : MemSentinel := ⟨0, 0⟩

/-! ## The atomic operations -/

/-- `compare_exchange` on the window start, and whether it succeeded. -/
def compareExchangeStart (s : MemSentinel) (expected new : U64) : Bool × MemSentinel :=
  if s.windowStartMs = expected then (true, { s with windowStartMs := new }) else (false, s)

def storeCount (s : MemSentinel) (v : U32) : MemSentinel := { s with windowCount := v }

/-- `fetch_add` on the count: the old value. -/
def fetchAddCount (s : MemSentinel) (n : U32) : U32 × MemSentinel :=
  (s.windowCount, { s with windowCount := s.windowCount + n })

def onError (s : MemSentinel) (nowMs : U64) (uncorrected : Bool) (threshold : U32) :
    SentinelAction × MemSentinel :=
  if uncorrected then (.offline, s)
  else
    let start := s.windowStartMs
    let s :=
      if nowMs - start > WINDOW_MS then
        -- new window; only one CPU wins the reset
        let (won, s) := s.compareExchangeStart start nowMs
        if won then s.storeCount 0 else s
      else s
    let (old, s) := s.fetchAddCount 1
    let count := old + 1
    (if count = threshold then .warn else .none, s)

/-! ## One call -/

/-- The window is over at `nowMs`, by the wrapping age the code computes. -/
def Expired (s : MemSentinel) (nowMs : U64) : Prop := nowMs - s.windowStartMs > WINDOW_MS

instance (s : MemSentinel) (nowMs : U64) : Decidable (s.Expired nowMs) :=
  inferInstanceAs (Decidable (nowMs - s.windowStartMs > WINDOW_MS))

theorem onError_uncorrected (s : MemSentinel) (nowMs : U64) (t : U32) :
    s.onError nowMs true t = (.offline, s) := rfl

theorem onError_of_expired {s : MemSentinel} {nowMs : U64} (h : s.Expired nowMs) (t : U32) :
    s.onError nowMs false t = (if 1#32 = t then .warn else .none, ⟨nowMs, 1#32⟩) := by
  have h' : nowMs - s.windowStartMs > WINDOW_MS := h
  simp only [onError, h', compareExchangeStart, storeCount, fetchAddCount, if_true,
    Bool.false_eq_true, if_false]
  rfl

theorem onError_of_not_expired {s : MemSentinel} {nowMs : U64} (h : ¬s.Expired nowMs) (t : U32) :
    s.onError nowMs false t
      = (if s.windowCount + 1#32 = t then .warn else .none,
          ⟨s.windowStartMs, s.windowCount + 1#32⟩) := by
  have h' : ¬nowMs - s.windowStartMs > WINDOW_MS := h
  simp only [onError, h', fetchAddCount, Bool.false_eq_true, if_false]
  rfl

theorem expired_iff {s : MemSentinel} {nowMs : U64}
    (h : s.windowStartMs.toNat ≤ nowMs.toNat) :
    s.Expired nowMs ↔ s.windowStartMs.toNat + WINDOW_MS.toNat < nowMs.toNat := by
  rw [Expired, gt_iff_lt, BitVec.lt_def, toNat_sub_of_le h]
  omega

/-- A timestamp a little before the window start looks enormously old. -/
theorem expired_of_lt {s : MemSentinel} {nowMs : U64}
    (h : nowMs.toNat < s.windowStartMs.toNat)
    (hnear : s.windowStartMs.toNat ≤ nowMs.toNat + WINDOW_MS.toNat) : s.Expired nowMs := by
  have hw : WINDOW_MS.toNat = 60000 := rfl
  rw [Expired, gt_iff_lt, BitVec.lt_def, toNat_sub_of_lt h]
  omega

theorem onError_start_le {s : MemSentinel} {nowMs : U64}
    (h : s.windowStartMs.toNat ≤ nowMs.toNat) (uncorrected : Bool) (t : U32) :
    (s.onError nowMs uncorrected t).2.windowStartMs.toNat ≤ nowMs.toNat := by
  cases uncorrected with
  | true =>
      rw [onError_uncorrected]
      exact h
  | false =>
      by_cases hexp : s.Expired nowMs
      · simp only [onError_of_expired hexp, Nat.le_refl]
      · simp only [onError_of_not_expired hexp, h]

theorem count_succ_toNat {c : U32} (h : c.toNat + 1 < 2 ^ 32) : (c + 1#32).toNat = c.toNat + 1 := by
  rw [BitVec.toNat_add_of_lt h]
  rfl

theorem count_succ_eq {c t : U32} (h : c.toNat + 1 < 2 ^ 32) :
    c + 1#32 = t ↔ c.toNat + 1 = t.toNat := by
  rw [← BitVec.toNat_inj, count_succ_toNat h]

end MemSentinel

/-! ## Runs -/

/-- One call of `on_error`. -/
structure Call where
  nowMs : U64
  uncorrected : Bool
deriving DecidableEq, Repr

/-- The answers to a run of calls. -/
def answers (t : U32) : MemSentinel → List Call → List SentinelAction
  | _, [] => []
  | s, c :: cs =>
      let p := s.onError c.nowMs c.uncorrected t
      p.1 :: answers t p.2 cs

/-- A call with its answer and the number of its window. -/
structure Entry extends Call where
  action : SentinelAction
  window : Nat
deriving DecidableEq, Repr

/-- The entries of a run from tracker `s` in window `w`. -/
def trace (t : U32) : MemSentinel → Nat → List Call → List Entry
  | _, _, [] => []
  | s, w, c :: cs =>
      let p := s.onError c.nowMs c.uncorrected t
      let w' := if !c.uncorrected && s.Expired c.nowMs then w + 1 else w
      { c with action := p.1, window := w' } :: trace t p.2 w' cs

theorem trace_answers (t : U32) (cs : List Call) (s : MemSentinel) (w : Nat) :
    (trace t s w cs).map (·.action) = answers t s cs := by
  induction cs generalizing s w with
  | nil => rfl
  | cons c cs ih => exact congrArg _ (ih _ _)

def warnsIn (w : Nat) (es : List Entry) : Nat :=
  es.countP fun e => decide (e.window = w ∧ e.action = .warn)

def errorsIn (w : Nat) (es : List Entry) : Nat :=
  es.countP fun e => decide (e.window = w ∧ e.uncorrected = false)

/-- The corrected errors of a run. -/
def correctedCount (cs : List Call) : Nat := cs.countP fun c => !c.uncorrected

theorem trace_uncorrected (t : U32) (s : MemSentinel) (w : Nat) (nowMs : U64) (cs : List Call) :
    trace t s w (⟨nowMs, true⟩ :: cs) = ⟨⟨nowMs, true⟩, .offline, w⟩ :: trace t s w cs := rfl

theorem trace_expired (t : U32) {s : MemSentinel} (w : Nat) {nowMs : U64} (h : s.Expired nowMs)
    (cs : List Call) :
    trace t s w (⟨nowMs, false⟩ :: cs)
      = ⟨⟨nowMs, false⟩, if 1#32 = t then .warn else .none, w + 1⟩
          :: trace t ⟨nowMs, 1#32⟩ (w + 1) cs := by
  simp only [trace, MemSentinel.onError_of_expired h, h, Bool.not_false, Bool.true_and,
    decide_true, if_true]

theorem trace_not_expired (t : U32) {s : MemSentinel} (w : Nat) {nowMs : U64}
    (h : ¬s.Expired nowMs) (cs : List Call) :
    trace t s w (⟨nowMs, false⟩ :: cs)
      = ⟨⟨nowMs, false⟩, if s.windowCount + 1#32 = t then .warn else .none, w⟩
          :: trace t ⟨s.windowStartMs, s.windowCount + 1#32⟩ w cs := by
  simp only [trace, MemSentinel.onError_of_not_expired h, h, Bool.not_false, Bool.true_and,
    decide_false, Bool.false_eq_true, if_false]

theorem trace_uncorrected_entries (t : U32) :
    ∀ (cs : List Call) (s : MemSentinel) (w : Nat),
      ∀ e ∈ trace t s w cs, e.uncorrected = true → e.action = .offline
  | ⟨nowMs, true⟩ :: cs, s, w, e, he, hu => by
      rw [trace_uncorrected] at he
      rcases List.mem_cons.mp he with rfl | he
      · rfl
      · exact trace_uncorrected_entries t cs s w e he hu
  | ⟨nowMs, false⟩ :: cs, s, w, e, he, hu => by
      rcases List.mem_cons.mp he with rfl | he
      · cases hu
      · exact trace_uncorrected_entries t cs _ _ e he hu

/-- Uncorrected errors leave every other entry as it is. -/
theorem trace_filter (t : U32) :
    ∀ (cs : List Call) (s : MemSentinel) (w : Nat),
      trace t s w (cs.filter fun c => !c.uncorrected)
        = (trace t s w cs).filter fun e => !e.uncorrected
  | [], _, _ => rfl
  | ⟨nowMs, true⟩ :: cs, s, w => by
      rw [trace_uncorrected]
      exact trace_filter t cs s w
  | ⟨nowMs, false⟩ :: cs, s, w => by
      have ih := trace_filter t cs
      rw [List.filter_cons_of_pos rfl, trace, trace, List.filter_cons_of_pos rfl, ih]

theorem trace_take (t : U32) (n : Nat) (cs : List Call) (s : MemSentinel) (w : Nat) :
    (trace t s w cs).take n = trace t s w (cs.take n) := by
  induction n generalizing cs s w with
  | zero => rfl
  | succ n ih =>
      cases cs with
      | nil => rfl
      | cons c cs => rw [List.take_succ_cons, trace, trace, List.take_succ_cons, ih]

theorem trace_call_mem {t : U32} {cs : List Call} {s : MemSentinel} {w : Nat} {e : Entry}
    (he : e ∈ trace t s w cs) : e.toCall ∈ cs := by
  induction cs generalizing s w with
  | nil => cases he
  | cons c cs ih =>
      rcases List.mem_cons.mp he with rfl | he
      · exact List.mem_cons_self
      · exact List.mem_cons_of_mem _ (ih he)

theorem trace_window_ge {t : U32} :
    ∀ {cs : List Call} {s : MemSentinel} {w : Nat} {e : Entry},
      e ∈ trace t s w cs → w ≤ e.window
  | c :: cs, s, w, e, he => by
      have hw : w ≤ if !c.uncorrected && s.Expired c.nowMs then w + 1 else w := by
        split <;> omega
      rcases List.mem_cons.mp he with rfl | he
      · exact hw
      · exact Nat.le_trans hw (trace_window_ge he)

/-! ## How often a window warns -/

theorem warnsIn_cons (v : Nat) (e : Entry) (es : List Entry) :
    warnsIn v (e :: es) = (if e.window = v ∧ e.action = .warn then 1 else 0) + warnsIn v es := by
  rw [warnsIn, List.countP_cons, Nat.add_comm]
  simp only [decide_eq_true_eq]
  rfl

theorem errorsIn_cons (v : Nat) (e : Entry) (es : List Entry) :
    errorsIn v (e :: es)
      = errorsIn v es + if e.window = v ∧ e.uncorrected = false then 1 else 0 := by
  rw [errorsIn, List.countP_cons]
  simp only [decide_eq_true_eq]
  rfl

theorem warnsIn_of_lt (t : U32) (cs : List Call) (s : MemSentinel) {v w : Nat} (h : v < w) :
    warnsIn v (trace t s w cs) = 0 ∧ errorsIn v (trace t s w cs) = 0 := by
  refine ⟨List.countP_eq_zero.mpr fun e he => ?_, List.countP_eq_zero.mpr fun e he => ?_⟩ <;>
  · have := trace_window_ge he
    simp only [decide_eq_true_eq, not_and]
    omega

theorem ite_warn_iff (p : Prop) [Decidable p] :
    (if p then SentinelAction.warn else .none) = .warn ↔ p := by
  by_cases h : p <;> simp [h]

theorem correctedCount_cons (nowMs : U64) (cs : List Call) :
    correctedCount (⟨nowMs, false⟩ :: cs) = correctedCount cs + 1 :=
  List.countP_cons_of_pos rfl

/-- **What a window answers is what a counter answers**: the first window
goes on from the tracker's count, every later one from zero. -/
theorem warnsIn_trace {t : U32} (ht : 0 < t.toNat) :
    ∀ (cs : List Call) (s : MemSentinel) (w : Nat),
      s.windowCount.toNat + correctedCount cs < 2 ^ 32 → ∀ v, w ≤ v →
      warnsIn v (trace t s w cs)
        = fires t.toNat (if v = w then s.windowCount.toNat else 0)
            (errorsIn v (trace t s w cs))
  | [], _, _, _, _, _ => (Threshold.fires_zero ..).symm
  | ⟨nowMs, true⟩ :: cs, s, w, hlt, v, hv => by
      simp only [trace_uncorrected, warnsIn_cons, errorsIn_cons, reduceCtorEq, and_false,
        if_false, Nat.zero_add, Nat.add_zero]
      exact warnsIn_trace ht cs s w hlt v hv
  | ⟨nowMs, false⟩ :: cs, s, w, hlt, v, hv => by
      rw [correctedCount_cons] at hlt
      by_cases hexp : s.Expired nowMs
      · -- the error is the first of window `w + 1`
        have hone : (1#32).toNat = 1 := rfl
        have ih := warnsIn_trace ht cs ⟨nowMs, 1#32⟩ (w + 1) (by simp only [hone]; omega)
        have hfirst : 1#32 = t ↔ 0 + 1 = t.toNat := by rw [← BitVec.toNat_inj, hone]
        simp only [trace_expired t w hexp, warnsIn_cons, errorsIn_cons, ite_warn_iff, and_true,
          hfirst]
        rcases (by omega : v = w ∨ v = w + 1 ∨ w + 1 < v) with rfl | rfl | hgt
        · obtain ⟨hwarn, herr⟩ := warnsIn_of_lt t cs ⟨nowMs, 1#32⟩ (Nat.lt_succ_self v)
          simp only [hwarn, herr, Nat.succ_ne_self, if_false, false_and, Nat.add_zero,
            Threshold.fires_zero]
        · simp only [ih (w + 1) (Nat.le_refl _), hone, true_and, if_true, Nat.succ_ne_self,
            if_false, Threshold.fires_succ, Nat.zero_add]
        · have hne : w + 1 ≠ v := by omega
          have hne' : v ≠ w := by omega
          simp only [ih v (by omega), hne, hne.symm, hne', false_and, if_false, Nat.zero_add,
            Nat.add_zero]
      · have hsucc := MemSentinel.count_succ_toNat (c := s.windowCount) (by omega)
        have hlt' : (s.windowCount + 1#32).toNat + correctedCount cs < 2 ^ 32 := by omega
        have ih := warnsIn_trace ht cs ⟨s.windowStartMs, s.windowCount + 1#32⟩ w hlt' v hv
        have hthis := MemSentinel.count_succ_eq (c := s.windowCount) (t := t) (by omega)
        simp only [trace_not_expired t w hexp, warnsIn_cons, errorsIn_cons, ite_warn_iff,
          and_true, hthis, ih, hsucc]
        by_cases hvw : v = w
        · simp only [hvw, true_and, if_true, Threshold.fires_succ]
        · simp only [hvw, Ne.symm hvw, if_false, false_and, Nat.zero_add, Nat.add_zero]

/-! ## How far apart windows are -/

/-- No call comes before an earlier one. -/
def Ordered (cs : List Call) : Prop := cs.Pairwise fun c c' => c.nowMs.toNat ≤ c'.nowMs.toNat

instance (cs : List Call) : Decidable (Ordered cs) :=
  inferInstanceAs (Decidable (cs.Pairwise _))

/-- The errors of the window open at the start stay within `WINDOW_MS` of its
start, those of later windows do not. -/
theorem trace_from_start {t : U32} :
    ∀ {cs : List Call} {s : MemSentinel} {w : Nat}, Ordered cs →
      (∀ c ∈ cs, s.windowStartMs.toNat ≤ c.nowMs.toNat) →
      ∀ e ∈ trace t s w cs, e.uncorrected = false →
        (e.window = w → e.nowMs.toNat ≤ s.windowStartMs.toNat + WINDOW_MS.toNat)
          ∧ (w < e.window → s.windowStartMs.toNat + WINDOW_MS.toNat < e.nowMs.toNat)
  | ⟨nowMs, true⟩ :: cs, s, w, hord, hstart, e, he, hc => by
      obtain ⟨-, hord⟩ := List.pairwise_cons.mp hord
      rw [trace_uncorrected] at he
      rcases List.mem_cons.mp he with rfl | he
      · cases hc
      · exact trace_from_start hord (fun c hc => hstart c (List.mem_cons_of_mem _ hc)) e he hc
  | ⟨nowMs, false⟩ :: cs, s, w, hord, hstart, e, he, hc => by
      obtain ⟨hnow, hord⟩ := List.pairwise_cons.mp hord
      obtain ⟨hhead, hstart⟩ := List.forall_mem_cons.mp hstart
      by_cases hexp : s.Expired nowMs
      · have hold := (MemSentinel.expired_iff hhead).mp hexp
        rw [trace_expired t w hexp] at he
        rcases List.mem_cons.mp he with rfl | he
        · exact ⟨fun h => absurd h (Nat.succ_ne_self w), fun _ => hold⟩
        · have hge := trace_window_ge he
          have hlate := hnow _ (trace_call_mem he)
          exact ⟨fun h => by omega, fun _ => by omega⟩
      · have hfresh := mt (MemSentinel.expired_iff hhead).mpr hexp
        rw [trace_not_expired t w hexp] at he
        rcases List.mem_cons.mp he with rfl | he
        · exact ⟨fun _ => Nat.le_of_not_lt hfresh, fun h => absurd h (Nat.lt_irrefl w)⟩
        · exact trace_from_start (s := ⟨s.windowStartMs, s.windowCount + 1#32⟩) hord hstart e he hc

/-- Two windows on, at least a whole `WINDOW_MS` has passed. -/
theorem trace_two_windows {t : U32} {a : Nat} :
    ∀ {cs : List Call} {s : MemSentinel} {w : Nat}, Ordered cs →
      (∀ c ∈ cs, s.windowStartMs.toNat ≤ c.nowMs.toNat) → (∀ c ∈ cs, a ≤ c.nowMs.toNat) →
      ∀ e ∈ trace t s w cs, e.uncorrected = false → w + 2 ≤ e.window →
        a + WINDOW_MS.toNat < e.nowMs.toNat
  | ⟨nowMs, true⟩ :: cs, s, w, hord, hstart, ha, e, he, hc, hw => by
      obtain ⟨-, hord⟩ := List.pairwise_cons.mp hord
      rw [trace_uncorrected] at he
      rcases List.mem_cons.mp he with rfl | he
      · cases hc
      · exact trace_two_windows hord (fun c hc => hstart c (List.mem_cons_of_mem _ hc))
          (fun c hc => ha c (List.mem_cons_of_mem _ hc)) e he hc hw
  | ⟨nowMs, false⟩ :: cs, s, w, hord, hstart, ha, e, he, hc, hw => by
      obtain ⟨hnow, hord⟩ := List.pairwise_cons.mp hord
      obtain ⟨hanow, ha⟩ := List.forall_mem_cons.mp ha
      by_cases hexp : s.Expired nowMs
      · rw [trace_expired t w hexp] at he
        rcases List.mem_cons.mp he with rfl | he
        · exact absurd hw (by simp)
        · have := (trace_from_start hord hnow e he hc).2 hw
          simp only at this hanow
          omega
      · rw [trace_not_expired t w hexp] at he
        rcases List.mem_cons.mp he with rfl | he
        · exact absurd hw (by simp)
        · exact trace_two_windows (s := ⟨s.windowStartMs, s.windowCount + 1#32⟩) hord
            (List.forall_mem_cons.mp hstart).2 ha e he hc hw

/-- What is known of an entry `y` after an entry `x`. -/
structure Entry.Apart (x y : Entry) : Prop where
  time : x.nowMs.toNat ≤ y.nowMs.toNat
  window : x.window ≤ y.window
  same : y.uncorrected = false → x.window = y.window →
    y.nowMs.toNat ≤ x.nowMs.toNat + WINDOW_MS.toNat
  far : y.uncorrected = false → x.window + 2 ≤ y.window →
    x.nowMs.toNat + WINDOW_MS.toNat < y.nowMs.toNat

theorem trace_apart {t : U32} :
    ∀ {cs : List Call} {s : MemSentinel} {w : Nat}, Ordered cs →
      (∀ c ∈ cs, s.windowStartMs.toNat ≤ c.nowMs.toNat) →
      (trace t s w cs).Pairwise Entry.Apart
  | [], _, _, _, _ => .nil
  | c :: cs, s, w, hord, hstart => by
      obtain ⟨hnow, hord⟩ := List.pairwise_cons.mp hord
      have hstart' := MemSentinel.onError_start_le (hstart c List.mem_cons_self) c.uncorrected t
      have hlater := fun c' hc' => Nat.le_trans hstart' (hnow c' hc')
      refine .cons (fun y hy => ⟨?_, trace_window_ge hy, fun hc hw => ?_, fun hc hw => ?_⟩)
        (trace_apart hord hlater)
      · exact hnow _ (trace_call_mem hy)
      · have := (trace_from_start hord hlater y hy hc).1 hw.symm
        exact Nat.le_trans this (Nat.add_le_add_right hstart' _)
      · exact trace_two_windows hord hlater hnow y hy hc hw

end Rustlux
