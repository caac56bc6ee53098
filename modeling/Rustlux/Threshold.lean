import Mathlib.Tactic.Common

/-!
# Counters that fire at a threshold

A counter goes up by one at a time and fires on reaching its threshold `t`.
`fires t c n` is how often it fires while `n` increments take it from `c` to
`c + n`: once if the threshold lies in between, never otherwise. The two
recursion equations follow a run from its first and from its last increment.

The second half is about counters, one for each key, whose threshold moves
between increments. A counter that fires on meeting the threshold of the
moment fires exactly once (`FiresOnce`) if and only if its threshold is
`Steady`: not lowered past the count before the counter has fired, and not
raised to meet the count again after.
-/

namespace Threshold

variable (t c n : Nat)

def fires : Nat := if c < t ∧ t ≤ c + n then 1 else 0

@[simp] theorem fires_zero : fires t c 0 = 0 := by
  rw [fires, if_neg]
  omega

theorem fires_succ : fires t c (n + 1) = (if c + 1 = t then 1 else 0) + fires t (c + 1) n := by
  unfold fires
  split <;> split <;> split <;> omega

theorem fires_snoc : fires t c (n + 1) = fires t c n + if c + n + 1 = t then 1 else 0 := by
  unfold fires
  split <;> split <;> split <;> omega

theorem fires_le_one : fires t c n ≤ 1 := by
  unfold fires
  split <;> omega

variable {t c n}

theorem fires_eq_one : fires t c n = 1 ↔ c < t ∧ t ≤ c + n := by
  unfold fires
  split <;> simp_all

theorem fires_eq_zero : fires t c n = 0 ↔ t ≤ c ∨ c + n < t := by
  unfold fires
  split <;> omega

/-! ## A threshold that moves -/

section Moving

variable {α κ : Type*} (key : α → κ) (t c : α → Nat) (fire : α → Prop) (l : List α)

/-- An increment that finds its counter at or above the threshold fires, or an
earlier one of the same counter has; and no counter fires twice. -/
structure FiresOnce : Prop where
  fired : ∀ (i : Nat) (h : i < l.length), t l[i] ≤ c l[i] →
    ∃ x ∈ l.take (i + 1), key x = key l[i] ∧ fire x
  once : l.Pairwise fun x y => key x = key y → fire x → ¬fire y

/-- How the threshold may move. -/
structure Steady : Prop where
  notLowered : ∀ (i : Nat) (h : i < l.length),
    (∀ x ∈ l.take i, key x = key l[i] → c x < t x) → c l[i] ≤ t l[i]
  notRaised : l.Pairwise fun x y => key x = key y → t x ≤ c x → c y ≠ t y

variable {key t c fire l}

section Fire

variable (hfire : ∀ x ∈ l, fire x ↔ c x = t x)

include hfire in
theorem FiresOnce.steady (h : FiresOnce key t c fire l) : Steady key t c l where
  notLowered i hi hbelow := by
    by_contra hpast
    obtain ⟨x, hx, hkey, hx'⟩ := h.fired i hi (by omega)
    have hmeet := (hfire x (List.mem_of_mem_take hx)).mp hx'
    rw [List.take_succ_eq_append_getElem hi] at hx
    rcases List.mem_append.mp hx with hx | hx
    · have := hbelow x hx hkey
      omega
    · obtain rfl := List.mem_singleton.mp hx
      omega
  notRaised := by
    refine List.pairwise_iff_getElem.mpr fun i j hi hj hij hkey hreach hmeet => ?_
    -- the counter has fired at `i` or before
    obtain ⟨x, hx, hkx, hx'⟩ := h.fired i hi hreach
    obtain ⟨k, hk, rfl⟩ := List.mem_take_iff_getElem.mp hx
    have hnot := List.pairwise_iff_getElem.mp h.once k j (by omega) hj (by omega)
    exact hnot (hkx.trans hkey) hx' ((hfire _ (List.getElem_mem hj)).mpr hmeet)

include hfire in
theorem Steady.fired (h : Steady key t c l) (i : Nat) (hi : i < l.length)
    (hreach : t l[i] ≤ c l[i]) : ∃ x ∈ l.take (i + 1), key x = key l[i] ∧ fire x := by
  induction i using Nat.strongRecOn with
  | ind i ih =>
      by_cases hbelow : ∀ x ∈ l.take i, key x = key l[i] → c x < t x
      · have hmeet := Nat.le_antisymm (h.notLowered i hi hbelow) hreach
        rw [List.take_succ_eq_append_getElem hi]
        exact ⟨l[i], List.mem_append_right _ List.mem_cons_self, rfl,
          (hfire _ (List.getElem_mem hi)).mpr hmeet⟩
      · -- an earlier one has reached its threshold
        simp only [not_forall, Nat.not_lt] at hbelow
        obtain ⟨y, hy, hky, hreach⟩ := hbelow
        obtain ⟨j, hj, rfl⟩ := List.mem_take_iff_getElem.mp hy
        obtain ⟨x, hx, hkx, hx'⟩ := ih j (by omega) (by omega) hreach
        exact ⟨x, List.take_subset_take_left l (by omega) hx, hkx.trans hky, hx'⟩

include hfire in
theorem firesOnce_iff_steady : FiresOnce key t c fire l ↔ Steady key t c l := by
  refine ⟨FiresOnce.steady hfire, fun h => ⟨h.fired hfire, h.notRaised.imp_of_mem ?_⟩⟩
  intro x y hx hy hxy hkey hx' hy'
  exact hxy hkey (Nat.le_of_eq ((hfire x hx).mp hx').symm) ((hfire y hy).mp hy')

end Fire

/-- The last element that a prefix counts. -/
theorem exists_last_of_countP {p : α → Bool} {m : Nat} :
    ∀ {i : Nat}, i ≤ l.length → (l.take i).countP p = m + 1 →
      ∃ (j : Nat) (hj : j < l.length), j < i ∧ p l[j] = true ∧ (l.take j).countP p = m
  | 0, _, h => by simp at h
  | i + 1, hi, h => by
      rw [List.take_succ_eq_append_getElem hi, List.countP_append, List.countP_singleton] at h
      by_cases hp : p l[i] = true
      · rw [if_pos hp] at h
        exact ⟨i, hi, Nat.lt_succ_self i, hp, Nat.succ.inj h⟩
      · rw [if_neg hp] at h
        obtain ⟨j, hj, hji, hpj, hm⟩ := exists_last_of_countP (Nat.le_of_succ_le hi) h
        exact ⟨j, hj, Nat.lt_succ_of_lt hji, hpj, hm⟩

/-- A threshold that never moves is steady for counters that go up by one. -/
theorem steady_of_constant [DecidableEq κ] {T : Nat} (hT : 0 < T) (ht : ∀ x ∈ l, t x = T)
    (hc : ∀ (i : Nat) (h : i < l.length),
      c l[i] = (l.take i).countP (fun x => decide (key x = key l[i])) + 1) : Steady key t c l where
  notLowered i hi hbelow := by
    rw [ht _ (List.getElem_mem hi)]
    by_contra hpast
    have hci := hc i hi
    obtain ⟨m, hm⟩ : ∃ m, (l.take i).countP (fun x => decide (key x = key l[i])) = m + 1 :=
      ⟨(l.take i).countP (fun x => decide (key x = key l[i])) - 1, by omega⟩
    obtain ⟨j, hj, hji, hkey, hmj⟩ := exists_last_of_countP (Nat.le_of_lt hi) hm
    have hkey' : key l[j] = key l[i] := of_decide_eq_true hkey
    have hlow := hbelow l[j] (List.mem_take_iff_getElem.mpr ⟨j, by omega, rfl⟩) hkey'
    rw [ht _ (List.getElem_mem hj), hc j hj, hkey', hmj] at hlow
    omega
  notRaised := by
    refine List.pairwise_iff_getElem.mpr fun i j hi hj hij hkey hreach => ?_
    rw [ht _ (List.getElem_mem hi)] at hreach
    rw [ht _ (List.getElem_mem hj)]
    have hmore : (l.take (i + 1)).countP (fun x => decide (key x = key l[i]))
        ≤ (l.take j).countP (fun x => decide (key x = key l[i])) :=
      (List.take_sublist_take_left hij).countP_le
    rw [List.take_succ_eq_append_getElem hi, List.countP_append, List.countP_singleton,
      if_pos (decide_eq_true rfl)] at hmore
    have hci := hc i hi
    have hcj := hc j hj
    rw [← hkey] at hcj
    omega

end Moving

end Threshold
