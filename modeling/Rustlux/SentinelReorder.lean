import Mathlib.Logic.ExistsUnique
import Rustlux.MemSentinel

/-!
# Errors recorded out of order

`rustlux_memsentinel_record` samples the clock before it calls `on_error`, so
two CPUs may record in the other order. The age of a window is a wrapping
subtraction: a timestamp smaller than the window start looks enormously old
and opens a new window. Within a storm, a window therefore starts at every
timestamp smaller than all before it, and it warns only if the next `t - 1`
errors are not smaller still.
-/

namespace Rustlux

/-- The warnings when corrected errors are recorded one after the other. -/
def warnCount (t : U32) (s : MemSentinel) (l : List U64) : Nat :=
  (answers t s (l.map fun nowMs => ⟨nowMs, false⟩)).count .warn

/-- Position `i` starts a stretch of `t` errors none of which is before its
first, and that first is before everything recorded earlier. -/
def StormAt (t : Nat) (l : List U64) (i : Nat) : Prop :=
  i + t ≤ l.length ∧ ∀ x, l[i]? = some x →
    (∀ y ∈ l.take i, x.toNat < y.toNat) ∧ ∀ y ∈ (l.drop i).take t, x.toNat ≤ y.toNat

/-! ## Counting windows -/

/-- The first `k` timestamps are there and none is before `m`. -/
def Leads (m k : Nat) (l : List U64) : Prop := k ≤ l.length ∧ ∀ y ∈ l.take k, m ≤ y.toNat

instance (m k : Nat) (l : List U64) : Decidable (Leads m k l) :=
  inferInstanceAs (Decidable (_ ∧ _))

/-- The stretches of `t` errors that start below all before them and below `m`. -/
def storms (t : Nat) : Nat → List U64 → Nat
  | _, [] => 0
  | m, x :: xs =>
      if x.toNat < m then (if Leads x.toNat t (x :: xs) then 1 else 0) + storms t x.toNat xs
      else storms t m xs

theorem leads_zero (m : Nat) (l : List U64) : Leads m 0 l :=
  ⟨Nat.zero_le _, fun _ hy => by cases hy⟩

theorem leads_cons {m k : Nat} {x : U64} {xs : List U64} :
    Leads m (k + 1) (x :: xs) ↔ m ≤ x.toNat ∧ Leads m k xs := by
  simp only [Leads, List.length_cons, Nat.add_le_add_iff_right, List.take_succ_cons,
    List.forall_mem_cons]
  exact and_left_comm

theorem not_fill_nil {m c t : Nat} : ¬(c < t ∧ Leads m (t - c) []) := by
  rintro ⟨hlt, hle, -⟩
  rw [List.length_nil] at hle
  omega

/-- An error before the window start comes in the way. -/
theorem not_fill_cons {m c t : Nat} {x : U64} (hx : x.toNat < m) (xs : List U64) :
    ¬(c < t ∧ Leads m (t - c) (x :: xs)) := by
  rintro ⟨hlt, hleads⟩
  obtain ⟨k, hk⟩ := Nat.exists_eq_succ_of_ne_zero (Nat.sub_ne_zero_of_lt hlt)
  rw [hk, leads_cons] at hleads
  omega

/-- One more error, not before the window start, on the way to the threshold. -/
theorem fill_cons {m c t : Nat} {x : U64} (hx : m ≤ x.toNat) (xs : List U64) :
    (if c < t ∧ Leads m (t - c) (x :: xs) then 1 else 0)
      = (if c + 1 = t then 1 else 0)
        + if c + 1 < t ∧ Leads m (t - (c + 1)) xs then 1 else 0 := by
  rcases (by omega : t ≤ c ∨ c + 1 = t ∨ c + 1 < t) with hle | rfl | hlt
  · rw [if_neg (by omega), if_neg (by omega), if_neg (by omega)]
  · have hone : c + 1 - c = 0 + 1 := by omega
    rw [hone, if_pos ⟨Nat.lt_succ_self c, leads_cons.mpr ⟨hx, leads_zero m xs⟩⟩, if_pos rfl,
      if_neg (by omega)]
  · have hsucc : t - c = t - (c + 1) + 1 := by omega
    have hiff : (c < t ∧ Leads m (t - (c + 1) + 1) (x :: xs))
        ↔ (c + 1 < t ∧ Leads m (t - (c + 1)) xs) := by
      rw [leads_cons]
      exact ⟨fun h => ⟨hlt, h.2.2⟩, fun h => ⟨by omega, hx, h.2⟩⟩
    rw [hsucc, if_neg (by omega : ¬c + 1 = t), Nat.zero_add]
    exact if_congr hiff rfl rfl

theorem warnCount_expired {t : U32} {s : MemSentinel} {x : U64} (h : s.Expired x)
    (xs : List U64) :
    warnCount t s (x :: xs) = (if 1 = t.toNat then 1 else 0) + warnCount t ⟨x, 1#32⟩ xs := by
  have hone : 1#32 = t ↔ 1 = t.toNat := by rw [← BitVec.toNat_inj]; rfl
  simp only [warnCount, List.map_cons, answers, MemSentinel.onError_of_expired h, List.count_cons,
    beq_iff_eq, ite_warn_iff, hone, Nat.add_comm]

theorem warnCount_not_expired {t : U32} {s : MemSentinel} {x : U64} (h : ¬s.Expired x)
    (hlt : s.windowCount.toNat + 1 < 2 ^ 32) (xs : List U64) :
    warnCount t s (x :: xs)
      = (if s.windowCount.toNat + 1 = t.toNat then 1 else 0)
        + warnCount t ⟨s.windowStartMs, s.windowCount + 1#32⟩ xs := by
  simp only [warnCount, List.map_cons, answers, MemSentinel.onError_of_not_expired h,
    List.count_cons, beq_iff_eq, ite_warn_iff, MemSentinel.count_succ_eq hlt, Nat.add_comm]

/-- The warnings from a tracker whose window is still open for everything not
before its start `m`: one if the errors that fill the window up come before
the next smaller timestamp, and one for every later stretch of `t`. -/
theorem warnCount_open {t : U32} (ht : 0 < t.toNat) :
    ∀ (l : List U64) (s : MemSentinel), s.windowCount.toNat + l.length < 2 ^ 32 →
      (∀ x ∈ s.windowStartMs :: l, ∀ y ∈ s.windowStartMs :: l,
        x.toNat ≤ y.toNat + WINDOW_MS.toNat) →
      warnCount t s l
        = (if s.windowCount.toNat < t.toNat
              ∧ Leads s.windowStartMs.toNat (t.toNat - s.windowCount.toNat) l then 1 else 0)
          + storms t.toNat s.windowStartMs.toNat l
  | [], s, _, _ => by
      rw [if_neg not_fill_nil]
      rfl
  | x :: xs, s, hlt, hspan => by
      rw [List.length_cons] at hlt
      obtain ⟨hstart, hspan'⟩ := List.forall_mem_cons.mp hspan
      have hx := (hspan' x List.mem_cons_self)
      have hspan'' : ∀ a ∈ x :: xs, ∀ b ∈ x :: xs, a.toNat ≤ b.toNat + WINDOW_MS.toNat :=
        fun a ha b hb => hspan' a ha b (List.mem_cons_of_mem _ hb)
      by_cases hlow : x.toNat < s.windowStartMs.toNat
      · -- a smaller timestamp opens a window of its own
        have hexp := MemSentinel.expired_of_lt hlow (hstart x (by simp))
        have hone : (1#32).toNat = 1 := rfl
        have ih := warnCount_open ht xs ⟨x, 1#32⟩ (by simp only [hone]; omega) hspan''
        have hfill := fill_cons (c := 0) (t := t.toNat) (Nat.le_refl x.toNat) xs
        simp only [Nat.sub_zero, ht, true_and, Nat.zero_add] at hfill
        simp only [hone] at ih
        rw [warnCount_expired hexp, ih, storms, if_pos hlow, if_neg (not_fill_cons hlow xs), hfill]
        omega
      · have hfresh : ¬s.Expired x := by
          rw [MemSentinel.expired_iff (by omega)]
          have := hx s.windowStartMs List.mem_cons_self
          omega
        have hsucc := MemSentinel.count_succ_toNat (c := s.windowCount) (by omega)
        have ih := warnCount_open ht xs ⟨s.windowStartMs, s.windowCount + 1#32⟩
          (by simp only [hsucc]; omega) fun a ha b hb => ?_
        · simp only [hsucc] at ih
          rw [warnCount_not_expired hfresh (by omega), ih, storms, if_neg hlow,
            fill_cons (by omega) xs]
          omega
        · refine hspan a ?_ b ?_
          · rcases List.mem_cons.mp ha with rfl | ha <;> simp [*]
          · rcases List.mem_cons.mp hb with rfl | hb <;> simp [*]

/-! ## Counting positions -/

/-- `StormAt`, for stretches that also start below `m`. -/
def StormBelow (m t : Nat) (l : List U64) (i : Nat) : Prop :=
  StormAt t l i ∧ ∀ x, l[i]? = some x → x.toNat < m

theorem stormBelow_zero {m t : Nat} {x : U64} {xs : List U64} :
    StormBelow m t (x :: xs) 0 ↔ x.toNat < m ∧ Leads x.toNat t (x :: xs) := by
  simp only [StormBelow, StormAt, List.getElem?_cons_zero, Option.some.injEq, forall_eq',
    List.take_zero, List.drop_zero, Nat.zero_add, Leads, List.not_mem_nil, false_imp_iff,
    implies_true, true_and]
  exact and_comm

theorem stormBelow_succ {m t : Nat} {x : U64} {xs : List U64} {i : Nat} :
    StormBelow m t (x :: xs) (i + 1) ↔ StormBelow (min m x.toNat) t xs i := by
  have hlen : i + 1 + t ≤ xs.length + 1 ↔ i + t ≤ xs.length := by omega
  simp only [StormBelow, StormAt, List.getElem?_cons_succ, List.length_cons, hlen,
    List.take_succ_cons, List.drop_succ_cons, List.forall_mem_cons, Nat.lt_min]
  constructor
  · rintro ⟨⟨hle, hpos⟩, hm⟩
    exact ⟨⟨hle, fun y hy => ⟨(hpos y hy).1.2, (hpos y hy).2⟩⟩,
      fun y hy => ⟨hm y hy, (hpos y hy).1.1⟩⟩
  · rintro ⟨⟨hle, hpos⟩, hm⟩
    exact ⟨⟨hle, fun y hy => ⟨⟨(hm y hy).2, (hpos y hy).1⟩, (hpos y hy).2⟩⟩,
      fun y hy => (hm y hy).1⟩

theorem exists_nat_iff {P : Nat → Prop} : (∃ i, P i) ↔ P 0 ∨ ∃ i, P (i + 1) := by
  constructor
  · rintro ⟨i, hi⟩
    cases i with
    | zero => exact Or.inl hi
    | succ i => exact Or.inr ⟨i, hi⟩
  · rintro (h | ⟨i, hi⟩)
    · exact ⟨0, h⟩
    · exact ⟨i + 1, hi⟩

theorem existsUnique_nat_iff {P : Nat → Prop} :
    (∃! i, P i) ↔ (P 0 ∧ ¬∃ i, P (i + 1)) ∨ (¬P 0 ∧ ∃! i, P (i + 1)) := by
  constructor
  · rintro ⟨i, hi, huniq⟩
    cases i with
    | zero =>
        refine Or.inl ⟨hi, ?_⟩
        rintro ⟨j, hj⟩
        exact absurd (huniq _ hj) (Nat.succ_ne_zero j)
    | succ i =>
        refine Or.inr ⟨fun h0 => absurd (huniq 0 h0).symm (Nat.succ_ne_zero i), i, hi, ?_⟩
        intro j hj
        exact Nat.succ.inj (huniq _ hj)
  · rintro (⟨h0, hno⟩ | ⟨h0, i, hi, huniq⟩)
    · refine ⟨0, h0, fun j hj => ?_⟩
      cases j with
      | zero => rfl
      | succ j => exact absurd ⟨j, hj⟩ hno
    · refine ⟨i + 1, hi, fun j hj => ?_⟩
      cases j with
      | zero => exact absurd hj h0
      | succ j => exact congrArg _ (huniq j hj)

theorem storms_eq (t : Nat) :
    ∀ (l : List U64) (m : Nat), 0 < t →
      (storms t m l = 0 ↔ ¬∃ i, StormBelow m t l i)
        ∧ (storms t m l = 1 ↔ ∃! i, StormBelow m t l i)
  | [], m, ht => by
      have hno : ∀ i, ¬StormBelow m t [] i := by
        rintro i ⟨⟨hle, -⟩, -⟩
        rw [List.length_nil] at hle
        omega
      refine ⟨⟨fun _ ⟨i, hi⟩ => hno i hi, fun _ => rfl⟩, fun h => ?_, fun ⟨i, hi, _⟩ => ?_⟩
      · cases h
      · exact absurd hi (hno i)
  | x :: xs, m, ht => by
      rw [exists_nat_iff, existsUnique_nat_iff]
      simp only [stormBelow_zero, stormBelow_succ, storms]
      by_cases hx : x.toNat < m
      · obtain ⟨ih0, ih1⟩ := storms_eq t xs x.toNat ht
        rw [Nat.min_eq_right (Nat.le_of_lt hx), if_pos hx, and_iff_right hx, not_or, ← ih0, ← ih1]
        by_cases hl : Leads x.toNat t (x :: xs)
        · simp only [hl, if_true, not_true, false_and, true_and, or_false]
          exact ⟨iff_of_false (by omega) id, by omega⟩
        · simp only [hl, if_false, not_false_iff, false_and, true_and, false_or, Nat.zero_add]
      · obtain ⟨ih0, ih1⟩ := storms_eq t xs m ht
        rw [Nat.min_eq_left (Nat.le_of_not_lt hx), if_neg hx, not_or, ← ih0, ← ih1]
        simp only [hx, false_and, not_false_iff, true_and, false_or]

/-! ## Any order -/

theorem stormBelow_iff_stormAt {t : Nat} {l : List U64} {i : Nat} :
    StormBelow (2 ^ 64) t l i ↔ StormAt t l i :=
  ⟨fun h => h.1, fun h => ⟨h, fun x _ => x.isLt⟩⟩

/-- **A storm recorded in any order warns exactly once if and only if** exactly
one stretch of `t` errors starts below everything recorded before it and meets
nothing smaller. -/
theorem reordered_storm_iff {t : U32} {s : MemSentinel} {l : List U64} (ht : 0 < t.toNat)
    (hlen : t.toNat ≤ l.length) (hlt : l.length < 2 ^ 32)
    (hlate : ∀ x ∈ l, s.windowStartMs.toNat + WINDOW_MS.toNat < x.toNat)
    (hspan : ∀ x ∈ l, ∀ y ∈ l, x.toNat ≤ y.toNat + WINDOW_MS.toNat) :
    warnCount t s l = 1 ↔ ∃! i, StormAt t.toNat l i := by
  cases l with
  | nil => rw [List.length_nil] at hlen; omega
  | cons x xs =>
      rw [List.length_cons] at hlt
      have hx := hlate x List.mem_cons_self
      have hexp : s.Expired x := (MemSentinel.expired_iff (by omega)).mpr hx
      have hone : (1#32).toNat = 1 := rfl
      have hopen := warnCount_open ht xs ⟨x, 1#32⟩ (by simp only [hone]; omega) hspan
      have hfill := fill_cons (c := 0) (t := t.toNat) (Nat.le_refl x.toNat) xs
      simp only [Nat.sub_zero, ht, true_and, Nat.zero_add] at hfill
      simp only [hone] at hopen
      -- the first error opens a window, as if the bound below it were infinite
      have hcount : warnCount t s (x :: xs) = storms t.toNat (2 ^ 64) (x :: xs) := by
        rw [warnCount_expired hexp, hopen, storms, if_pos x.isLt, hfill]
        omega
      rw [hcount, (storms_eq t.toNat (x :: xs) (2 ^ 64) ht).2]
      simp only [stormBelow_iff_stormAt]

theorem reordered_storm_in_order :
    warnCount 2 .new [60001, 60002] = 1 ∧ ∃! i, StormAt 2 [60001, 60002] i := by
  have hcount : warnCount 2 .new [60001, 60002] = 1 := by decide
  refine ⟨hcount, (reordered_storm_iff (t := 2) (by decide) (by decide) (by decide)
    (fun x hx => ?_) (fun x hx y hy => ?_)).mp hcount⟩
  · simp only [List.mem_cons, List.not_mem_nil, or_false] at hx
    rcases hx with rfl | rfl <;> decide
  · simp only [List.mem_cons, List.not_mem_nil, or_false] at hx hy
    rcases hx with rfl | rfl <;> rcases hy with rfl | rfl <;> decide

/-- Two errors after the window, a millisecond apart, recorded the wrong way
round: threshold two, and no warning. -/
theorem reordered_storm_silent :
    ((60002 : U64).toNat - 60001 ≤ WINDOW_MS.toNat
        ∧ MemSentinel.new.windowStartMs.toNat + WINDOW_MS.toNat < (60001 : U64).toNat)
      ∧ warnCount 2 .new [60002, 60001] = 0
      ∧ warnCount 2 .new [60001, 60002] = 1 := by
  decide

end Rustlux
