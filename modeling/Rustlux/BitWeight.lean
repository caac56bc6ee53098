import Mathlib.Tactic.Common

/-!
# Weight and parity of bit vectors

The number of one bits of a bit vector (`weight`), whether it is odd
(`odd`), and the two facts coding arguments need about them:

- exclusive or adds weights up to twice the overlap (`weight_xor`), so
  `odd` turns exclusive or into exclusive or of Booleans (`odd_xor`);
- the vectors of weight 0, 1 and 2 are the zero vector, the single bits
  and the sums of two distinct single bits.

Everything is stated for an arbitrary width.
-/

namespace BitWeight

variable {w : Nat}

/-- The number of one bits. -/
def weight (x : BitVec w) : Nat := x.cpopNatRec w 0

/-- Whether the number of one bits is odd. -/
def odd (x : BitVec w) : Bool := weight x % 2 == 1

/-- The vector whose only one bit is bit `i`. -/
abbrev single (w i : Nat) : BitVec w := BitVec.twoPow w i

/-! ## Exclusive or -/

theorem cpopNatRec_step (x : BitVec w) (n : Nat) :
    x.cpopNatRec (n + 1) 0 = x.cpopNatRec n 0 + (x.getLsbD n).toNat := by
  rw [BitVec.cpopNatRec_succ, BitVec.cpopNatRec_eq, Nat.zero_add]

theorem cpopNatRec_xor (x y : BitVec w) (n : Nat) :
    (x ^^^ y).cpopNatRec n 0 + 2 * (x &&& y).cpopNatRec n 0
      = x.cpopNatRec n 0 + y.cpopNatRec n 0 := by
  induction n with
  | zero => simp
  | succ n ih =>
      simp only [cpopNatRec_step, BitVec.getLsbD_xor, BitVec.getLsbD_and]
      cases x.getLsbD n <;> cases y.getLsbD n <;> simp <;> omega

theorem weight_xor (x y : BitVec w) :
    weight (x ^^^ y) + 2 * weight (x &&& y) = weight x + weight y :=
  cpopNatRec_xor x y w

theorem odd_xor (x y : BitVec w) : odd (x ^^^ y) = (odd x ^^ odd y) := by
  have h := weight_xor x y
  have hsum : weight (x ^^^ y) % 2 = (weight x % 2 + weight y % 2) % 2 := by omega
  simp only [odd, hsum]
  rcases Nat.mod_two_eq_zero_or_one (weight x) with hx | hx <;>
    rcases Nat.mod_two_eq_zero_or_one (weight y) with hy | hy <;> simp [hx, hy]

theorem weight_xor_le (x y : BitVec w) : weight (x ^^^ y) ≤ weight x + weight y := by
  have h := weight_xor x y
  omega

/-! ## Small weights -/

@[simp] theorem weight_zero : weight (0#w) = 0 := BitVec.cpopNatRec_zero

@[simp] theorem odd_zero : odd (0#w) = false := by simp [odd]

theorem cpopNatRec_eq_zero {x : BitVec w} {n : Nat} (h : x.cpopNatRec n 0 = 0) :
    ∀ i < n, x.getLsbD i = false := by
  induction n with
  | zero => intro i hi; omega
  | succ n ih =>
      rw [cpopNatRec_step] at h
      intro i hi
      rcases Nat.lt_succ_iff_lt_or_eq.mp hi with hlt | rfl
      · exact ih (by omega) i hlt
      · cases hb : x.getLsbD i with
        | false => rfl
        | true => simp [hb] at h

theorem weight_eq_zero {x : BitVec w} : weight x = 0 ↔ x = 0#w := by
  refine ⟨fun h => ?_, fun h => by rw [h, weight_zero]⟩
  refine BitVec.eq_of_getLsbD_eq fun i hi => ?_
  rw [cpopNatRec_eq_zero h i hi, BitVec.getLsbD_zero]

theorem cpopNatRec_single {i : Nat} (hi : i < w) (n : Nat) :
    (single w i).cpopNatRec n 0 = if i < n then 1 else 0 := by
  induction n with
  | zero => simp
  | succ n ih =>
      rw [cpopNatRec_step, ih, BitVec.getLsbD_twoPow]
      by_cases h : i = n
      · simp [h, h ▸ hi]
      · have : i < n + 1 ↔ i < n := by omega
        simp [h, this]

theorem weight_single {i : Nat} (hi : i < w) : weight (single w i) = 1 := by
  rw [weight, cpopNatRec_single hi, if_pos hi]

theorem odd_single {i : Nat} (hi : i < w) : odd (single w i) = true := by
  rw [odd, weight_single hi]; rfl

theorem single_ne_zero {i : Nat} (hi : i < w) : single w i ≠ 0#w := fun h => by
  have h1 := weight_single hi
  rw [h, weight_zero] at h1
  omega

theorem single_inj {i j : Nat} (hi : i < w) (h : single w i = single w j) : i = j := by
  have hbit : (single w j).getLsbD i = true := by
    rw [← h, BitVec.getLsbD_twoPow]; simp [hi]
  rw [BitVec.getLsbD_twoPow] at hbit
  simp only [Bool.and_eq_true, decide_eq_true_eq] at hbit
  exact hbit.2.symm

/-- Clearing a set bit lowers the weight by one. -/
theorem weight_xor_single {x : BitVec w} {i : Nat} (hi : i < w)
    (hbit : x.getLsbD i = true) : weight (x ^^^ single w i) + 1 = weight x := by
  have h := weight_xor x (single w i)
  rw [BitVec.and_twoPow, hbit, if_pos rfl, weight_single hi] at h
  omega

/-- A vector of positive weight is a single bit added to a vector of
weight one less. -/
theorem exists_single_of_weight {x : BitVec w} (h : weight x ≠ 0) :
    ∃ i < w, ∃ y, weight y + 1 = weight x ∧ x = y ^^^ single w i := by
  by_cases hex : ∃ i < w, x.getLsbD i = true
  · obtain ⟨i, hi, hbit⟩ := hex
    refine ⟨i, hi, x ^^^ single w i, weight_xor_single hi hbit, ?_⟩
    rw [BitVec.xor_assoc, BitVec.xor_self, BitVec.xor_zero]
  · refine absurd (weight_eq_zero.mpr (BitVec.eq_of_getLsbD_eq fun i hi => ?_)) h
    rw [BitVec.getLsbD_zero]
    exact Bool.eq_false_iff.mpr fun hb => hex ⟨i, hi, hb⟩

theorem weight_eq_one {x : BitVec w} : weight x = 1 ↔ ∃ i < w, x = single w i := by
  refine ⟨fun h => ?_, fun ⟨i, hi, hx⟩ => by rw [hx, weight_single hi]⟩
  obtain ⟨i, hi, y, hy, rfl⟩ := exists_single_of_weight (by omega : weight x ≠ 0)
  obtain rfl := weight_eq_zero.mp (by omega : weight y = 0)
  exact ⟨i, hi, BitVec.zero_xor⟩

theorem weight_eq_two {x : BitVec w} (h : weight x = 2) :
    ∃ i < w, ∃ j < w, i ≠ j ∧ x = single w i ^^^ single w j := by
  obtain ⟨j, hj, y, hy, rfl⟩ := exists_single_of_weight (by omega : weight x ≠ 0)
  obtain ⟨i, hi, rfl⟩ := weight_eq_one.mp (by omega : weight y = 1)
  refine ⟨i, hi, j, hj, fun hij => ?_, rfl⟩
  rw [hij, BitVec.xor_self, weight_zero] at h
  omega

end BitWeight
