import Rustlux.MemSentinel

/-!
# What the sentinel guarantees

For errors recorded one after the other in time order: every warning stands
for a storm, no window warns twice, and a storm of `2t - 1` errors in any
span of `WINDOW_MS` is never missed, because the span meets two windows at
most and one of them holds `t` of its errors. Fewer than `2t - 1` may be: a
storm split evenly between two windows passes in silence.
-/

open Threshold (fires)

namespace Rustlux

/-- The entries of a run from a fresh tracker. -/
def freshTrace (t : U32) (cs : List Call) : List Entry := trace t .new 0 cs

/-- The entries `es` were recorded within one span of `WINDOW_MS`. -/
def WithinSpan (es : List Entry) : Prop :=
  ∃ lo, ∀ e ∈ es, lo ≤ e.nowMs.toNat ∧ e.nowMs.toNat ≤ lo + WINDOW_MS.toNat

/-- The entries recorded no more than `WINDOW_MS` before `e`. -/
def recentErrors (e : Entry) (es : List Entry) : Nat :=
  es.countP fun x => decide (x.uncorrected = false ∧ x.nowMs.toNat ≤ e.nowMs.toNat
    ∧ e.nowMs.toNat ≤ x.nowMs.toNat + WINDOW_MS.toNat)

section Fresh

variable {t : U32} {cs : List Call} (ht : 0 < t.toNat) (hord : Ordered cs)
  (hlt : correctedCount cs < 2 ^ 32)

include ht hlt in
theorem warnsIn_freshTrace (v : Nat) :
    warnsIn v (freshTrace t cs) = fires t.toNat 0 (errorsIn v (freshTrace t cs)) := by
  have h := warnsIn_trace ht cs .new 0 (by simpa [MemSentinel.new] using hlt) v (Nat.zero_le v)
  have hzero : (if v = 0 then MemSentinel.new.windowCount.toNat else 0) = 0 := by
    split <;> rfl
  rw [hzero] at h
  exact h

include hord in
theorem freshTrace_apart : (freshTrace t cs).Pairwise Entry.Apart :=
  trace_apart hord fun _ _ => Nat.zero_le _

/-! ## A warning is a storm -/

include ht hord hlt in
theorem storm_of_warn {pre post : List Entry} {e : Entry}
    (he : freshTrace t cs = pre ++ e :: post) (hwarn : e.action = .warn) :
    e.uncorrected = false ∧ t.toNat ≤ recentErrors e (pre ++ [e]) := by
  have hc : e.uncorrected = false := Bool.eq_false_iff.mpr fun hu => by
    have hmem : e ∈ freshTrace t cs := he ▸ List.mem_append_right _ List.mem_cons_self
    have := trace_uncorrected_entries t cs _ _ e hmem hu
    rw [hwarn] at this
    cases this
  refine ⟨hc, ?_⟩
  -- the run that ends with `e`
  have hrun : pre ++ [e] = freshTrace t (cs.take (pre.length + 1)) := by
    rw [freshTrace, ← trace_take, ← freshTrace, he, List.take_append,
      List.take_of_length_le (Nat.le_succ _), Nat.add_sub_cancel_left]
    rfl
  have hlt' : correctedCount (cs.take (pre.length + 1)) < 2 ^ 32 :=
    Nat.lt_of_le_of_lt (List.take_sublist _ cs).countP_le hlt
  have hcount := warnsIn_freshTrace ht hlt' e.window
  rw [← hrun] at hcount
  have hpos : 0 < warnsIn e.window (pre ++ [e]) :=
    List.countP_pos_iff.mpr ⟨e, List.mem_append_right _ List.mem_cons_self,
      decide_eq_true ⟨rfl, hwarn⟩⟩
  have hge : t.toNat ≤ errorsIn e.window (pre ++ [e]) := by
    have hne : fires t.toNat 0 (errorsIn e.window (pre ++ [e])) ≠ 0 := by omega
    rw [ne_eq, Threshold.fires_eq_zero] at hne
    omega
  refine Nat.le_trans hge (List.countP_mono_left fun x hx hp => ?_)
  obtain ⟨hxw, hxc⟩ := of_decide_eq_true hp
  have hpair := freshTrace_apart (t := t) hord
  rw [he] at hpair
  rcases List.mem_append.mp hx with hx | hx
  · have hapart := (List.pairwise_append.mp hpair).2.2 x hx e List.mem_cons_self
    exact decide_eq_true ⟨hxc, hapart.time, hapart.same hc hxw⟩
  · obtain rfl := List.mem_singleton.mp hx
    exact decide_eq_true ⟨hxc, Nat.le_refl _, Nat.le_add_right _ _⟩

/-! ## A storm is a warning -/

/-- The entries of a span lie in two consecutive windows. -/
theorem two_windows_of_span {x : Entry} {es : List Entry}
    (hpair : (x :: es).Pairwise Entry.Apart) (hc : ∀ e ∈ x :: es, e.uncorrected = false)
    (hspan : WithinSpan (x :: es)) :
    ∀ e ∈ x :: es, e.window = x.window ∨ e.window = x.window + 1 := by
  obtain ⟨lo, hlo⟩ := hspan
  obtain ⟨hx, -⟩ := List.pairwise_cons.mp hpair
  intro e he
  rcases List.mem_cons.mp he with rfl | hes
  · exact Or.inl rfl
  have hapart := hx e hes
  by_contra hne
  have hfar := hapart.far (hc e he) (by have := hapart.window; omega)
  have h1 := (hlo x List.mem_cons_self).1
  have h2 := (hlo e he).2
  omega

theorem length_le_two_windows {w : Nat} :
    ∀ {es : List Entry}, (∀ e ∈ es, e.uncorrected = false) →
      (∀ e ∈ es, e.window = w ∨ e.window = w + 1) →
      es.length = errorsIn w es + errorsIn (w + 1) es := by
  intro es
  induction es with
  | nil =>
      intro _ _
      rfl
  | cons e es ih =>
      intro hc hw
      obtain ⟨hce, hc⟩ := List.forall_mem_cons.mp hc
      obtain ⟨hwe, hw⟩ := List.forall_mem_cons.mp hw
      rw [List.length_cons, ih hc hw, errorsIn_cons, errorsIn_cons]
      rcases hwe with h | h
      · rw [if_pos ⟨h, hce⟩, if_neg (by omega)]
        omega
      · rw [if_neg (by omega), if_pos ⟨h, hce⟩]
        omega

include ht hlt in
theorem warn_of_errorsIn {v : Nat} (h : t.toNat ≤ errorsIn v (freshTrace t cs)) :
    ∃ e ∈ freshTrace t cs, e.window = v ∧ e.action = .warn := by
  have hcount := warnsIn_freshTrace ht hlt v
  rw [Threshold.fires_eq_one.mpr ⟨ht, by omega⟩] at hcount
  obtain ⟨e, he, hp⟩ := List.countP_pos_iff.mp (Nat.lt_of_lt_of_eq Nat.zero_lt_one hcount.symm)
  exact ⟨e, he, of_decide_eq_true hp⟩

include ht hord hlt in
/-- Pigeonhole: of `2t - 1` errors in two windows, `t` share one. -/
theorem warn_of_storm {storm : List Entry} (hsub : storm.Sublist (freshTrace t cs))
    (hc : ∀ e ∈ storm, e.uncorrected = false) (hlen : storm.length = 2 * t.toNat - 1)
    (hspan : WithinSpan storm) :
    ∃ e ∈ freshTrace t cs, e.action = .warn ∧ ∃ x ∈ storm, x.window = e.window := by
  cases storm with
  | nil => rw [List.length_nil] at hlen; omega
  | cons x es =>
      have htwo := two_windows_of_span ((freshTrace_apart hord).sublist hsub) hc hspan
      have hsum := length_le_two_windows hc htwo
      obtain ⟨v, hv⟩ : ∃ v, t.toNat ≤ errorsIn v (x :: es) := by
        by_cases h : t.toNat ≤ errorsIn x.window (x :: es)
        · exact ⟨_, h⟩
        · exact ⟨x.window + 1, by omega⟩
      obtain ⟨e, he, hev, hwarn⟩ := warn_of_errorsIn ht hlt (Nat.le_trans hv hsub.countP_le)
      obtain ⟨y, hy, hp⟩ := List.countP_pos_iff.mp (Nat.lt_of_lt_of_le ht hv)
      exact ⟨e, he, hwarn, y, hy, (of_decide_eq_true hp).1.trans hev.symm⟩

end Fresh

/-! ## The bound is tight -/

/-- Errors that leave the count below the threshold pass in silence. -/
theorem trace_replicate {t : U32} {w : Nat} {nowMs : U64} {rest : List Call} :
    ∀ (n : Nat) {s : MemSentinel}, ¬s.Expired nowMs → s.windowCount.toNat + n < t.toNat →
      ∀ e ∈ trace t s w (List.replicate n ⟨nowMs, false⟩ ++ rest), e.action = .none
        ∨ e ∈ trace t ⟨s.windowStartMs, s.windowCount + BitVec.ofNat 32 n⟩ w rest
  | 0, s, _, _, e, he => by
      rw [BitVec.add_zero]
      exact Or.inr he
  | n + 1, s, hexp, hlt, e, he => by
      have htlt := t.isLt
      have hsucc := MemSentinel.count_succ_toNat (c := s.windowCount) (by omega)
      have hne : s.windowCount + 1#32 ≠ t := by
        intro h
        rw [MemSentinel.count_succ_eq (by omega)] at h
        omega
      have hcount : s.windowCount + BitVec.ofNat 32 (n + 1)
          = s.windowCount + 1#32 + BitVec.ofNat 32 n := by
        rw [BitVec.add_assoc, ← BitVec.ofNat_add, Nat.add_comm 1]
      rw [List.replicate_succ, List.cons_append, trace_not_expired t w hexp, if_neg hne] at he
      rw [hcount]
      rcases List.mem_cons.mp he with rfl | he
      · exact Or.inl rfl
      · exact trace_replicate n (s := ⟨s.windowStartMs, s.windowCount + 1#32⟩) hexp
          (by rw [hsucc]; omega) e he

/-- `t - 1` errors at the last moment of the first window, as many again a
millisecond later. -/
def splitStorm (t : U32) : List Call :=
  List.replicate (t.toNat - 1) ⟨60000, false⟩ ++ List.replicate (t.toNat - 1) ⟨60001, false⟩

theorem splitStorm_silent {t : U32} (ht : 2 ≤ t.toNat) :
    ∀ e ∈ freshTrace t (splitStorm t), e.action = .none := by
  obtain ⟨n, hn⟩ : ∃ n, t.toNat - 1 = n + 1 := ⟨t.toNat - 2, by omega⟩
  have hone : 1#32 ≠ t := by
    rintro rfl
    exact absurd ht (by decide)
  intro e he
  rw [freshTrace, splitStorm, hn] at he
  rcases trace_replicate (n + 1) (by decide) (by show 0 + (n + 1) < _; omega) e he with h | he
  · exact h
  have hexp : MemSentinel.Expired
      ⟨MemSentinel.new.windowStartMs, MemSentinel.new.windowCount + BitVec.ofNat 32 (n + 1)⟩
      60001 := by
    show (60001 : U64) - 0 > WINDOW_MS
    decide
  rw [List.replicate_succ, trace_expired t 0 hexp, if_neg hone] at he
  rcases List.mem_cons.mp he with rfl | he
  · rfl
  rw [← List.append_nil (List.replicate n _)] at he
  rcases trace_replicate n (by decide) (by show 1 + n < _; omega) e he with h | he
  · exact h
  · cases he

theorem splitStorm_ordered (t : U32) : Ordered (splitStorm t) := by
  refine List.pairwise_append.mpr ⟨?_, ?_, ?_⟩
  · exact List.pairwise_replicate.mpr (Or.inr (Nat.le_refl _))
  · exact List.pairwise_replicate.mpr (Or.inr (Nat.le_refl _))
  · intro c hc c' hc'
    rw [List.eq_of_mem_replicate hc, List.eq_of_mem_replicate hc']
    decide

theorem splitStorm_mem {t : U32} {c : Call} (hc : c ∈ splitStorm t) :
    c.uncorrected = false ∧ 60000 ≤ c.nowMs.toNat ∧ c.nowMs.toNat ≤ 60000 + 1 := by
  rcases List.mem_append.mp hc with hc | hc <;>
  · rw [List.eq_of_mem_replicate hc]
    decide

/-! ## The guarantee -/

/-- **The detection guarantee of the sentinel.** Uncorrected errors are all
answered with `Offline` and change nothing else; a warning stands for `t`
corrected errors of the last `WINDOW_MS`, the one it answers included, and
there is at most one in a window; `2t - 1` corrected errors in any span of
`WINDOW_MS` bring about a warning in a window of one of them; and `2t - 2`
may not, even within a millisecond. -/
theorem sentinel_guarantee {t : U32} (ht : 0 < t.toNat) :
    (∀ (s : MemSentinel) (w : Nat) (cs : List Call),
        (∀ e ∈ trace t s w cs, e.uncorrected = true → e.action = .offline)
          ∧ trace t s w (cs.filter fun c => !c.uncorrected)
              = (trace t s w cs).filter fun e => !e.uncorrected)
      ∧ (∀ cs : List Call, Ordered cs → correctedCount cs < 2 ^ 32 →
          (∀ pre e post, freshTrace t cs = pre ++ e :: post → e.action = .warn →
              e.uncorrected = false ∧ t.toNat ≤ recentErrors e (pre ++ [e]))
            ∧ (∀ v, warnsIn v (freshTrace t cs) ≤ 1)
            ∧ ∀ storm : List Entry, storm.Sublist (freshTrace t cs) →
                (∀ e ∈ storm, e.uncorrected = false) → storm.length = 2 * t.toNat - 1 →
                WithinSpan storm →
                ∃ e ∈ freshTrace t cs, e.action = .warn ∧ ∃ x ∈ storm, x.window = e.window)
      ∧ (2 ≤ t.toNat → ∃ cs : List Call, Ordered cs ∧ cs.length = 2 * t.toNat - 2
          ∧ (∃ lo, ∀ c ∈ cs, c.uncorrected = false
              ∧ lo ≤ c.nowMs.toNat ∧ c.nowMs.toNat ≤ lo + 1)
          ∧ ∀ e ∈ freshTrace t cs, e.action ≠ .warn) := by
  refine ⟨fun s w cs => ⟨trace_uncorrected_entries t cs s w, trace_filter t cs s w⟩,
    fun cs hord hlt => ⟨fun pre e post he hwarn => storm_of_warn ht hord hlt he hwarn,
      fun v => ?_, fun storm hsub hc hlen hspan => warn_of_storm ht hord hlt hsub hc hlen hspan⟩,
    fun ht2 => ⟨splitStorm t, splitStorm_ordered t, ?_, ⟨60000, fun c hc => splitStorm_mem hc⟩,
      fun e he hwarn => ?_⟩⟩
  · rw [warnsIn_freshTrace ht hlt]
    exact Threshold.fires_le_one ..
  · rw [splitStorm, List.length_append, List.length_replicate, List.length_replicate]
    omega
  · rw [splitStorm_silent ht2 e he] at hwarn
    cases hwarn

/-- Threshold two: three errors across a window boundary. -/
theorem sentinel_guarantee_two :
    ∃ e ∈ freshTrace 2 [⟨60000, false⟩, ⟨60001, false⟩, ⟨60001, false⟩],
      e.action = .warn
        ∧ ∃ x ∈ freshTrace 2 [⟨60000, false⟩, ⟨60001, false⟩, ⟨60001, false⟩],
          x.window = e.window := by
  have h := (sentinel_guarantee (t := 2) (by decide)).2.1
    [⟨60000, false⟩, ⟨60001, false⟩, ⟨60001, false⟩] (by decide) (by decide)
  exact h.2.2 _ (List.Sublist.refl _) (by decide) (by decide) ⟨60000, by decide⟩

end Rustlux
