import Rustlux.MemSentinel

/-!
# The sentinel under tuning

`vm.rustlux_memsentinel_threshold` changes at runtime, and each corrected
error is recorded with the threshold of its moment. `on_error` warns when the
count is equal to that threshold, so a window is warned of once while the
threshold holds still (`once_per_window_constant`) and, in general, if and
only if it moves steadily (`once_per_window_iff`). A threshold lowered past
the count silences the window; one raised to the count after a warning makes
it warn again.
-/

namespace Rustlux

/-- A corrected error and the threshold it is recorded with. -/
structure TunedError where
  nowMs : U64
  threshold : U32
deriving DecidableEq, Repr

/-- An error with its answer, the number of its window and the window's count
of errors, this one included. -/
structure TunedEntry extends TunedError where
  action : SentinelAction
  window : Nat
  count : Nat
deriving DecidableEq, Repr

/-- The entries of a run from tracker `s` in window `w` with `n` errors. -/
def tunedTrace : MemSentinel → Nat → Nat → List TunedError → List TunedEntry
  | _, _, _, [] => []
  | s, w, n, e :: es =>
      let p := s.onError e.nowMs false e.threshold
      let w' := if s.Expired e.nowMs then w + 1 else w
      let n' := if s.Expired e.nowMs then 1 else n + 1
      { e with action := p.1, window := w', count := n' } :: tunedTrace p.2 w' n' es

/-- The entries of a run from a fresh tracker. -/
def freshTunedTrace (es : List TunedError) : List TunedEntry := tunedTrace .new 0 0 es

/-- Once an error finds the window's count at or above its threshold, the
window has warned, there or earlier; and no window warns twice. -/
abbrev OncePerWindow (es : List TunedEntry) : Prop :=
  Threshold.FiresOnce (·.window) (·.threshold.toNat) (·.count) (·.action = .warn) es

/-- The threshold is not lowered past the count of a window that has not
reached it, and not raised to the count of one that has. -/
abbrev WellTuned (es : List TunedEntry) : Prop :=
  Threshold.Steady (·.window) (·.threshold.toNat) (·.count) es

/-! ## One error -/

theorem tunedTrace_expired {s : MemSentinel} {e : TunedError} (h : s.Expired e.nowMs)
    (w n : Nat) (es : List TunedError) :
    tunedTrace s w n (e :: es)
      = ⟨e, if 1#32 = e.threshold then .warn else .none, w + 1, 1⟩
          :: tunedTrace ⟨e.nowMs, 1#32⟩ (w + 1) 1 es := by
  simp only [tunedTrace, MemSentinel.onError_of_expired h, if_pos h]

theorem tunedTrace_not_expired {s : MemSentinel} {e : TunedError} (h : ¬s.Expired e.nowMs)
    (w n : Nat) (es : List TunedError) :
    tunedTrace s w n (e :: es)
      = ⟨e, if s.windowCount + 1#32 = e.threshold then .warn else .none, w, n + 1⟩
          :: tunedTrace ⟨s.windowStartMs, s.windowCount + 1#32⟩ w (n + 1) es := by
  simp only [tunedTrace, MemSentinel.onError_of_not_expired h, if_neg h]

/-- While the count fits, an error warns when it meets its threshold. -/
theorem warn_iff {s : MemSentinel} {n : Nat} {es : List TunedError} (hn : s.windowCount.toNat = n)
    (hlen : n + es.length < 2 ^ 32) (w : Nat) :
    ∀ e ∈ tunedTrace s w n es, e.action = .warn ↔ e.count = e.threshold.toNat := by
  induction es generalizing s w n with
  | nil => exact fun e he => absurd he List.not_mem_nil
  | cons e es ih =>
      rw [List.length_cons] at hlen
      by_cases hexp : s.Expired e.nowMs
      · have hfirst : 1#32 = e.threshold ↔ 1 = e.threshold.toNat := by
          rw [← BitVec.toNat_inj]
          rfl
        rw [tunedTrace_expired hexp]
        exact List.forall_mem_cons.mpr
          ⟨(ite_warn_iff _).trans hfirst, ih (n := 1) rfl (by omega) (w + 1)⟩
      · have hsucc := MemSentinel.count_succ_toNat (c := s.windowCount) (by omega)
        have hnext : s.windowCount + 1#32 = e.threshold ↔ n + 1 = e.threshold.toNat := by
          rw [← BitVec.toNat_inj, hsucc, hn]
        rw [tunedTrace_not_expired hexp]
        exact List.forall_mem_cons.mpr
          ⟨(ite_warn_iff _).trans hnext, ih (n := n + 1) (by rw [hsucc, hn]) (by omega) w⟩

theorem tunedTrace_error_mem {es : List TunedError} {s : MemSentinel} {w n : Nat} {e : TunedEntry}
    (he : e ∈ tunedTrace s w n es) : e.toTunedError ∈ es := by
  induction es generalizing s w n with
  | nil => cases he
  | cons e es ih =>
      rcases List.mem_cons.mp he with rfl | he
      · exact List.mem_cons_self
      · exact List.mem_cons_of_mem _ (ih he)

theorem tunedTrace_window_ge {es : List TunedError} {s : MemSentinel} {w n : Nat} :
    ∀ e ∈ tunedTrace s w n es, w ≤ e.window := by
  induction es generalizing s w n with
  | nil => exact fun e he => absurd he List.not_mem_nil
  | cons e es ih =>
      by_cases hexp : s.Expired e.nowMs
      · rw [tunedTrace_expired hexp]
        exact List.forall_mem_cons.mpr
          ⟨Nat.le_succ w, fun e he => Nat.le_of_succ_le (ih e he)⟩
      · rw [tunedTrace_not_expired hexp]
        exact List.forall_mem_cons.mpr ⟨Nat.le_refl w, ih⟩

/-- The count is the number of the window's errors so far; the window open at
the start brings `n` of them. -/
theorem tunedTrace_count {es : List TunedError} {s : MemSentinel} {w n i : Nat}
    (hi : i < (tunedTrace s w n es).length) :
    ((tunedTrace s w n es)[i]).count
      = (if (tunedTrace s w n es)[i].window = w then n else 0)
        + ((tunedTrace s w n es).take i).countP
            (fun x => decide (x.window = (tunedTrace s w n es)[i].window)) + 1 := by
  induction es generalizing s w n i with
  | nil => exact absurd hi (Nat.not_lt_zero i)
  | cons e es ih =>
      by_cases hexp : s.Expired e.nowMs
      · simp only [tunedTrace_expired hexp] at hi ⊢
        cases i with
        | zero => simp
        | succ i =>
            have hi' := Nat.lt_of_succ_lt_succ hi
            have hge := tunedTrace_window_ge _ (List.getElem_mem hi')
            simp only [List.getElem_cons_succ, List.take_succ_cons, List.countP_cons,
              decide_eq_true_eq, ih hi']
            rw [if_neg (by omega : ¬((tunedTrace _ _ _ es)[i]).window = w)]
            simp only [eq_comm (a := w + 1)]
            omega
      · simp only [tunedTrace_not_expired hexp] at hi ⊢
        cases i with
        | zero => simp
        | succ i =>
            have hi' := Nat.lt_of_succ_lt_succ hi
            simp only [List.getElem_cons_succ, List.take_succ_cons, List.countP_cons,
              decide_eq_true_eq, ih hi', eq_comm (a := w)]
            split <;> omega

/-! ## Runs -/

section Fresh

variable {es : List TunedError} (hlen : es.length < 2 ^ 32)

include hlen in
theorem fresh_warn_iff :
    ∀ e ∈ freshTunedTrace es, e.action = .warn ↔ e.count = e.threshold.toNat :=
  warn_iff (n := 0) rfl (by omega) 0

include hlen in
/-- **A window under tuning warns once exactly if it is tuned well.** -/
theorem once_per_window_iff :
    OncePerWindow (freshTunedTrace es) ↔ WellTuned (freshTunedTrace es) :=
  Threshold.firesOnce_iff_steady (fresh_warn_iff hlen)

include hlen in
/-- A threshold nobody touches warns once per window. -/
theorem once_per_window_constant {t : U32} (ht : 0 < t.toNat) (hconst : ∀ e ∈ es, e.threshold = t) :
    OncePerWindow (freshTunedTrace es) := by
  refine (Threshold.firesOnce_iff_steady (fresh_warn_iff hlen)).mpr ?_
  refine Threshold.steady_of_constant ht (fun e he => ?_) fun i hi => ?_
  · exact congrArg BitVec.toNat (hconst _ (tunedTrace_error_mem he))
  · have hcount := tunedTrace_count hi
    rw [ite_self, Nat.zero_add] at hcount
    exact hcount

end Fresh

/-- The threshold goes down from eight to four while the count is two. -/
theorem once_per_window_lowered_in_time :
    OncePerWindow (freshTunedTrace [⟨1, 8⟩, ⟨2, 8⟩, ⟨3, 4⟩, ⟨4, 4⟩, ⟨5, 4⟩]) := by
  refine (once_per_window_iff (by decide)).mpr ⟨?_, ?_⟩
  · decide +kernel
  · decide +kernel

/-- The threshold goes down from eight to four while the count is four: the
fifth error is past it, and nobody is warned. -/
theorem lowered_past_the_count :
    ([⟨1, 8⟩, ⟨2, 8⟩, ⟨3, 8⟩, ⟨4, 8⟩, ⟨5, 4⟩] : List TunedError).Pairwise
        (fun e e' => e.nowMs.toNat ≤ e'.nowMs.toNat)
      ∧ (∀ e ∈ ([⟨1, 8⟩, ⟨2, 8⟩, ⟨3, 8⟩, ⟨4, 8⟩, ⟨5, 4⟩] : List TunedError),
          1 ≤ e.threshold.toNat)
      ∧ ¬OncePerWindow (freshTunedTrace [⟨1, 8⟩, ⟨2, 8⟩, ⟨3, 8⟩, ⟨4, 8⟩, ⟨5, 4⟩]) := by
  refine ⟨by decide, by decide, fun h => ?_⟩
  have hnone : ∀ e ∈ freshTunedTrace [⟨1, 8⟩, ⟨2, 8⟩, ⟨3, 8⟩, ⟨4, 8⟩, ⟨5, 4⟩],
      e.action = .none := by decide +kernel
  obtain ⟨e, he, -, hwarn⟩ := h.fired 4 (by decide) (by decide +kernel)
  rw [hnone e (List.mem_of_mem_take he)] at hwarn
  cases hwarn

end Rustlux
