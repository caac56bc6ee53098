import Mathlib.Algebra.Ring.Nat
import Mathlib.Tactic.Common

/-!
# Fixed-point idioms

Five things that integer code does without a branch or a division, and what
they compute over the natural numbers:

- a logarithm with fraction bits, from a leading-zero count and the bits
  after the leading one (`log2p1`, `toNat_mantissa`);
- the positive part of a difference, from a sign mask (`toNat_posPart_sub`);
- a step towards a target, with the increment rounded up (`approach`), so that
  the target is reached (`steps_reach`);
- a quotient, from a product with a reciprocal rounded up
  (`mul_ceilRecip_div`);
- a number scaled by the quotient of two weights, from a product with the one
  and a product with the reciprocal of the other (`rescale_le`).

The first three are monotone in what they depend on.
-/

namespace FixedPoint

/-! ## Logarithm -/

/-- `log2 v + 1` in units of `1 / one`, linear between powers of two, and 0
at 0. -/
def log2p1 (one v : Nat) : Nat :=
  if v = 0 then 0 else one * (Nat.log2 v + 1) + (v - 2 ^ Nat.log2 v) * one / 2 ^ Nat.log2 v

theorem fraction_lt {one v : Nat} (hone : 0 < one) :
    (v - 2 ^ Nat.log2 v) * one / 2 ^ Nat.log2 v < one := by
  have hlt : v - 2 ^ Nat.log2 v < 2 ^ Nat.log2 v := by
    have h : v < 2 ^ (Nat.log2 v + 1) := Nat.lt_log2_self
    rw [Nat.pow_succ] at h
    omega
  rw [Nat.div_lt_iff_lt_mul (Nat.two_pow_pos _), Nat.mul_comm one]
  exact Nat.mul_lt_mul_of_pos_right hlt hone

theorem log2p1_lt {one v w : Nat} (hone : 0 < one) (hv : v < 2 ^ w) :
    log2p1 one v < one * (w + 1) := by
  by_cases h0 : v = 0
  · rw [log2p1, if_pos h0]
    exact Nat.mul_pos hone (Nat.succ_pos w)
  · have hlog : Nat.log2 v < w := (Nat.log2_lt h0).mpr hv
    have hfrac := fraction_lt (v := v) hone
    have hmul : one * (Nat.log2 v + 1 + 1) ≤ one * (w + 1) := Nat.mul_le_mul_left _ (by omega)
    rw [Nat.mul_succ] at hmul
    rw [log2p1, if_neg h0]
    omega

theorem log2p1_mono {one v v' : Nat} (hone : 0 < one) (h : v ≤ v') :
    log2p1 one v ≤ log2p1 one v' := by
  by_cases h0 : v = 0
  · rw [log2p1, if_pos h0]
    exact Nat.zero_le _
  have h0' : v' ≠ 0 := fun h' => h0 (Nat.le_zero.mp (h' ▸ h))
  rw [log2p1, log2p1, if_neg h0, if_neg h0']
  have hlog : Nat.log2 v ≤ Nat.log2 v' :=
    (Nat.le_log2 h0').mpr (Nat.le_trans (Nat.log2_self_le h0) h)
  rcases Nat.eq_or_lt_of_le hlog with heq | hlt
  · -- the same power of two: the fraction grows
    rw [heq]
    exact Nat.add_le_add_left (Nat.div_le_div_right
      (Nat.mul_le_mul_right _ (Nat.sub_le_sub_right h _))) _
  · -- a larger one: the fraction is less than its step
    have hfrac := fraction_lt (v := v) hone
    have hmul : one * (Nat.log2 v + 1 + 1) ≤ one * (Nat.log2 v' + 1) :=
      Nat.mul_le_mul_left _ (by omega)
    rw [Nat.mul_succ] at hmul
    refine Nat.le_trans ?_ (Nat.le_add_right _ _)
    omega

/-- Number of zero bits above the highest one. -/
def leadingZeros {w : Nat} (v : BitVec w) : Nat :=
  if v = 0 then w else w - 1 - Nat.log2 v.toNat

theorem leadingZeros_of_ne {w : Nat} {v : BitVec w} (hv : v ≠ 0) :
    leadingZeros v = w - 1 - Nat.log2 v.toNat ∧ Nat.log2 v.toNat < w := by
  have hne : v.toNat ≠ 0 := fun h => hv (BitVec.eq_of_toNat_eq (h.trans BitVec.toNat_zero.symm))
  exact ⟨if_neg hv, (Nat.log2_lt hne).mpr v.isLt⟩

/-- Shifting the leading one out at the top and the rest down to `fp` bits
leaves the fraction of the logarithm. -/
theorem toNat_mantissa {w fp : Nat} {v : BitVec w} (hv : v ≠ 0) (hfp : fp ≤ w) :
    (v <<< leadingZeros v <<< 1 >>> (w - fp)).toNat
      = (v.toNat - 2 ^ Nat.log2 v.toNat) * 2 ^ fp / 2 ^ Nat.log2 v.toNat := by
  obtain ⟨hclz, hlog⟩ := leadingZeros_of_ne hv
  have hne : v.toNat ≠ 0 := fun h => hv (BitVec.eq_of_toNat_eq (h.trans BitVec.toNat_zero.symm))
  generalize hk : Nat.log2 v.toNat = k at *
  have hlow : 2 ^ k ≤ v.toNat := hk ▸ Nat.log2_self_le hne
  have hhigh : v.toNat < 2 ^ (k + 1) := hk ▸ Nat.lt_log2_self
  obtain ⟨m, hm⟩ : ∃ m, v.toNat = 2 ^ k + m := ⟨v.toNat - 2 ^ k, by omega⟩
  have hmk : m < 2 ^ k := by
    rw [Nat.pow_succ] at hhigh
    omega
  -- the leading one is the bit that the second shift drops
  have hpow : 2 ^ k * 2 ^ (w - k) = 2 ^ w := by
    rw [← Nat.pow_add]
    congr 1
    omega
  have hdrop : (v <<< leadingZeros v <<< 1).toNat = m * 2 ^ (w - k) := by
    rw [← BitVec.shiftLeft_add, BitVec.toNat_shiftLeft, Nat.shiftLeft_eq, hclz,
      show w - 1 - k + 1 = w - k by omega, hm, Nat.add_mul, hpow, Nat.add_mod_left,
      Nat.mod_eq_of_lt]
    rw [← hpow]
    exact Nat.mul_lt_mul_of_pos_right hmk (Nat.two_pow_pos _)
  rw [BitVec.toNat_ushiftRight, hdrop, Nat.shiftRight_eq_div_pow, hm, Nat.add_sub_cancel_left]
  have hfp' : 2 ^ (w - fp) * 2 ^ fp = 2 ^ (w - k) * 2 ^ k := by
    rw [← Nat.pow_add, ← Nat.pow_add]
    congr 1
    omega
  calc m * 2 ^ (w - k) / 2 ^ (w - fp)
      = m * 2 ^ (w - k) * 2 ^ fp / (2 ^ (w - fp) * 2 ^ fp) :=
        (Nat.mul_div_mul_right _ _ (Nat.two_pow_pos _)).symm
    _ = 2 ^ (w - k) * (m * 2 ^ fp) / (2 ^ (w - k) * 2 ^ k) := by
        rw [hfp', Nat.mul_comm m, Nat.mul_assoc]
    _ = m * 2 ^ fp / 2 ^ k := Nat.mul_div_mul_left _ _ (Nat.two_pow_pos _)

/-! ## Positive part -/

/-- `x & !(x >> (w - 1))` with an arithmetic shift: `x` if its sign bit is
clear, and 0 otherwise. -/
def posPart {w : Nat} (x : BitVec w) : BitVec w := x &&& ~~~x.sshiftRight (w - 1)

/-- `x & (x >> (w - 1))`: `x` if its sign bit is set, and 0 otherwise. -/
def negPart {w : Nat} (x : BitVec w) : BitVec w := x &&& x.sshiftRight (w - 1)

theorem sshiftRight_sign {w : Nat} (x : BitVec w) :
    x.sshiftRight (w - 1) = if x.msb then BitVec.allOnes w else 0#w := by
  refine BitVec.eq_of_getLsbD_eq fun i hi => ?_
  rw [BitVec.getLsbD_sshiftRight]
  by_cases hi0 : i = 0
  · subst hi0
    have hmsb : x.getLsbD (w - 1) = x.msb := (BitVec.msb_eq_getLsbD_last x).symm
    have hlast : ¬w ≤ 0 := Nat.not_le.mpr hi
    simp only [Nat.add_zero, hmsb, ite_self, hlast, decide_false, Bool.not_false, Bool.true_and]
    cases x.msb <;> simp [hi]
  · have hover : ¬w - 1 + i < w := by omega
    cases x.msb <;> simp [hover, hi]

theorem posPart_eq {w : Nat} (x : BitVec w) : posPart x = if x.msb then 0#w else x := by
  rw [posPart, sshiftRight_sign]
  cases x.msb <;> simp

theorem negPart_eq {w : Nat} (x : BitVec w) : negPart x = if x.msb then x else 0#w := by
  rw [negPart, sshiftRight_sign]
  cases x.msb <;> simp

/-- The sign of a difference of operands below half the range. -/
theorem msb_sub {w : Nat} {x y : BitVec w} (hx : 2 * x.toNat < 2 ^ w) (hy : 2 * y.toNat < 2 ^ w) :
    (x - y).msb = decide (x.toNat < y.toNat) := by
  rw [BitVec.msb_eq_decide, BitVec.toNat_sub]
  congr 1
  rw [eq_iff_iff]
  cases w with
  | zero =>
      simp only [Nat.pow_zero] at hx hy
      omega
  | succ w =>
      rw [Nat.pow_succ] at hx hy ⊢
      rw [Nat.add_sub_cancel]
      by_cases h : x.toNat < y.toNat
      · rw [Nat.mod_eq_of_lt (by omega)]
        omega
      · have hmod : (2 ^ w * 2 - y.toNat + x.toNat) % (2 ^ w * 2) = x.toNat - y.toNat := by
          rw [show 2 ^ w * 2 - y.toNat + x.toNat = 2 ^ w * 2 + (x.toNat - y.toNat) by omega,
            Nat.add_mod_left, Nat.mod_eq_of_lt (by omega)]
        rw [hmod]
        omega

theorem toNat_posPart_sub {w : Nat} {x y : BitVec w} (hx : 2 * x.toNat < 2 ^ w)
    (hy : 2 * y.toNat < 2 ^ w) : (posPart (x - y)).toNat = x.toNat - y.toNat := by
  rw [posPart_eq, msb_sub hx hy]
  by_cases h : x.toNat < y.toNat
  · simp only [h, decide_true, if_true, BitVec.toNat_zero]
    omega
  · simp only [h, decide_false, Bool.false_eq_true, if_false]
    exact BitVec.toNat_sub_of_le (Nat.le_of_not_lt h)

theorem negPart_sub {w : Nat} {x y : BitVec w} (hx : 2 * x.toNat < 2 ^ w)
    (hy : 2 * y.toNat < 2 ^ w) :
    negPart (x - y) = if x.toNat < y.toNat then x - y else 0#w := by
  rw [negPart_eq, msb_sub hx hy]
  by_cases h : x.toNat < y.toNat <;> simp [h]

/-! ## A shift that rounds up -/

theorem toNat_one_shl {w s : Nat} (hs : s < w) : (1#w <<< s).toNat = 2 ^ s := by
  have hlt : 2 ^ s < 2 ^ w := Nat.pow_lt_pow_right (by decide) hs
  have hone : 1 < 2 ^ w := Nat.one_lt_two_pow (Nat.ne_of_gt (Nat.zero_lt_of_lt hs))
  rw [BitVec.toNat_shiftLeft, Nat.shiftLeft_eq, BitVec.toNat_ofNat, Nat.mod_eq_of_lt hone,
    Nat.one_mul, Nat.mod_eq_of_lt hlt]

theorem toNat_add_one_shl {w s : Nat} {x : BitVec w} (hs : s < w)
    (hx : x.toNat + 2 ^ s < 2 ^ w) : (x + 1#w <<< s).toNat = x.toNat + 2 ^ s := by
  have hone := toNat_one_shl hs
  rw [BitVec.toNat_add_of_lt (by rw [hone]; exact hx), hone]

/-- `(x + (1 << s) - 1) >> s` is division by `2 ^ s`, rounded up. -/
theorem toNat_shr_ceil {w s : Nat} {x : BitVec w} (hs : s < w) (hx : x.toNat + 2 ^ s < 2 ^ w) :
    ((x + 1#w <<< s - 1#w) >>> s).toNat = (x.toNat + (2 ^ s - 1)) / 2 ^ s := by
  have hpos := Nat.two_pow_pos s
  have hsum := toNat_add_one_shl hs hx
  have hone : (1#w).toNat = 1 := by
    rw [BitVec.toNat_ofNat, Nat.mod_eq_of_lt (by omega)]
  have hle : 1#w ≤ x + 1#w <<< s := by
    rw [BitVec.le_def, hsum, hone]
    omega
  rw [BitVec.toNat_ushiftRight, BitVec.toNat_sub_of_le hle, hsum, hone, Nat.shiftRight_eq_div_pow,
    Nat.add_sub_assoc hpos]

/-! ## A step towards a target -/

/-- From `old` towards `new`: a fall is immediate, a rise goes one `n`-th of
the way, rounded up. -/
def approach (n new old : Nat) : Nat :=
  if old < new then old + (new - old + (n - 1)) / n else new

theorem approach_le {n new old : Nat} (hn : 0 < n) : approach n new old ≤ max new old := by
  unfold approach
  split
  · rename_i h
    have hstep : (new - old + (n - 1)) / n ≤ new - old := by
      rw [Nat.div_le_iff_le_mul_add_pred hn]
      have := Nat.le_mul_of_pos_left (new - old) hn
      omega
    omega
  · exact Nat.le_max_left _ _

theorem approach_of_le {n new old : Nat} (h : new ≤ old) : approach n new old = new :=
  if_neg (Nat.not_lt.mpr h)

/-- A rise leaves less than all of its way, and that rounded down. -/
theorem approach_gap {n new old : Nat} (hn : 0 < n) (h : old < new) :
    new - approach n new old = (new - old) * (n - 1) / n := by
  have hle := @approach_le n new old hn
  rw [approach, if_pos h] at hle ⊢
  obtain ⟨m, rfl⟩ : ∃ m, n = m + 1 := ⟨n - 1, by omega⟩
  have hlow := Nat.lt_mul_div_succ (new - old + m) hn
  have hhigh := Nat.mul_div_le (new - old + m) (m + 1)
  rw [Nat.add_sub_cancel] at hle ⊢
  generalize (new - old + m) / (m + 1) = step at hle hlow hhigh ⊢
  obtain ⟨rest, hrest⟩ : ∃ rest, new - old = step + rest := ⟨new - old - step, by omega⟩
  have hgap : new - (old + step) = rest := by omega
  rw [hrest, Nat.mul_succ, Nat.succ_mul] at hlow
  rw [hrest, Nat.succ_mul] at hhigh
  rw [hgap, hrest, Nat.add_mul]
  refine (Nat.div_eq_of_lt_le ?_ ?_).symm
  · rw [Nat.mul_succ, Nat.mul_comm step]
    omega
  · rw [Nat.succ_mul, Nat.mul_succ, Nat.mul_comm step]
    omega

theorem lt_approach {n new old : Nat} (hn : 0 < n) (h : old < new) :
    old < approach n new old := by
  have hgap := approach_gap hn h
  have hless : (new - old) * (n - 1) / n < new - old := by
    rw [Nat.div_lt_iff_lt_mul hn]
    exact Nat.mul_lt_mul_of_pos_left (by omega) (by omega)
  omega

theorem approach_le_target {n new old : Nat} (hn : 0 < n) (h : old ≤ new) :
    approach n new old ≤ new := by
  have := @approach_le n new old hn
  omega

/-- Both the target and the start push the result up. -/
theorem approach_mono {n new new' old old' : Nat} (hn : 0 < n) (hnew : new ≤ new')
    (hold : old ≤ old') : approach n new old ≤ approach n new' old' := by
  -- in the start, from `old` to `old'`; then in the target
  have hstart : approach n new old ≤ approach n new old' := by
    unfold approach
    split
    · rename_i h
      split
      · rename_i h'
        have hdiv : (new - old + (n - 1)) / n ≤ (new - old' + (n - 1)) / n + (old' - old) := by
          rw [Nat.div_le_iff_le_mul_add_pred hn, Nat.mul_add]
          have hfloor := Nat.lt_mul_div_succ (new - old' + (n - 1)) hn
          have := Nat.le_mul_of_pos_left (old' - old) hn
          rw [Nat.mul_add, Nat.mul_one] at hfloor
          omega
        omega
      · have := @approach_le n new old hn
        rw [approach, if_pos h] at this
        omega
    · split <;> omega
  have htarget : approach n new old' ≤ approach n new' old' := by
    unfold approach
    split
    · rw [if_pos (by omega)]
      exact Nat.add_le_add_left (Nat.div_le_div_right (by omega)) _
    · split
      · exact Nat.le_trans (by omega) (Nat.le_add_right _ _)
      · omega
  exact Nat.le_trans hstart htarget

/-! ### Step after step -/

section Steps

variable {n target : Nat} {x : Nat → Nat}

theorem steps_le (hn : 0 < n) (hstep : ∀ k, x (k + 1) = approach n target (x k)) (k : Nat) :
    x (k + 1) ≤ target := by
  rw [hstep]
  rcases Nat.le_total (x k) target with h | h
  · exact approach_le_target hn h
  · exact Nat.le_of_eq (approach_of_le h)

/-- Each step gains at least one, up to the target. -/
theorem min_le_steps (hn : 0 < n) (hstep : ∀ k, x (k + 1) = approach n target (x k)) (k : Nat) :
    min target k ≤ x k := by
  induction k with
  | zero => exact Nat.le_trans (Nat.min_le_right _ _) (Nat.zero_le _)
  | succ k ih =>
      rw [hstep]
      rcases Nat.lt_or_ge (x k) target with h | h
      · have := lt_approach hn h
        omega
      · rw [approach_of_le h]
        exact Nat.min_le_left _ _

/-- **The target is reached**, whatever the start. -/
theorem steps_reach (hn : 0 < n) (hstep : ∀ k, x (k + 1) = approach n target (x k)) {k : Nat}
    (hk : target < k) : x k = target := by
  obtain ⟨j, rfl⟩ : ∃ j, k = j + 1 := ⟨k - 1, by omega⟩
  have hhigh := steps_le hn hstep j
  have hlow := min_le_steps hn hstep (j + 1)
  omega

/-- From below the steps rise, and never past the target. -/
theorem steps_rise (hn : 0 < n) (hstep : ∀ k, x (k + 1) = approach n target (x k))
    (hstart : x 0 ≤ target) (k : Nat) : x k ≤ x (k + 1) ∧ x (k + 1) ≤ target := by
  refine ⟨?_, steps_le hn hstep k⟩
  have hle : x k ≤ target := by
    cases k with
    | zero => exact hstart
    | succ k => exact steps_le hn hstep k
  rw [hstep]
  rcases Nat.lt_or_eq_of_le hle with h | h
  · exact Nat.le_of_lt (lt_approach hn h)
  · exact Nat.le_of_eq (by rw [h, approach_of_le (Nat.le_refl _)])

/-- From above the first step falls to the target. -/
theorem steps_fall (hstep : ∀ k, x (k + 1) = approach n target (x k)) (hstart : target ≤ x 0)
    (k : Nat) : x (k + 1) = target := by
  induction k with
  | zero => rw [hstep, approach_of_le hstart]
  | succ k ih => rw [hstep, ih, approach_of_le (Nat.le_refl _)]

end Steps

/-! ## Division by a reciprocal -/

/-- `n`-ths of `one`, rounded up. -/
def ceilRecip (one n : Nat) : Nat := (one - 1 + n) / n

theorem le_mul_ceilRecip {one n : Nat} (hn : 0 < n) : one ≤ n * ceilRecip one n := by
  have h := Nat.lt_mul_div_succ (one - 1 + n) hn
  rw [Nat.mul_succ] at h
  unfold ceilRecip
  omega

theorem mul_ceilRecip_lt {one n : Nat} (hone : 0 < one) : n * ceilRecip one n < one + n := by
  have h := Nat.mul_div_le (one - 1 + n) n
  unfold ceilRecip
  omega

/-- Multiplying by the reciprocal is division, while the error it collects
stays below `one`. -/
theorem mul_ceilRecip_div {one n x : Nat} (hone : 0 < one) (hn : 0 < n)
    (hx : x * (n - 1) < one) : x * ceilRecip one n / one = x / n := by
  have hlow := @le_mul_ceilRecip one n hn
  have hhigh := mul_ceilRecip_lt (n := n) hone
  generalize ceilRecip one n = r at hlow hhigh
  have hx' : x < n * (x / n + 1) := Nat.lt_mul_div_succ x hn
  refine Nat.div_eq_of_lt_le ?_ (Nat.lt_of_mul_lt_mul_left (a := n) ?_)
  · calc x / n * one
        ≤ x / n * (n * r) := Nat.mul_le_mul_left _ hlow
      _ = x / n * n * r := (Nat.mul_assoc ..).symm
      _ ≤ x * r := Nat.mul_le_mul_right _ (Nat.div_mul_le_self x n)
  · calc n * (x * r)
        = x * (n * r) := Nat.mul_left_comm ..
      _ ≤ x * (one + (n - 1)) := Nat.mul_le_mul_left _ (by omega)
      _ = x * one + x * (n - 1) := Nat.mul_add ..
      _ < (x + 1) * one := by rw [Nat.succ_mul]; omega
      _ ≤ n * (x / n + 1) * one := Nat.mul_le_mul_right _ hx'
      _ = n * ((x / n + 1) * one) := Nat.mul_assoc ..

/-! ## Scaling by a quotient -/

/-- `r` times `w`, in `a`-ths, and then by a reciprocal `m` in `b`-ths: `r` scaled by
`w / w'` when `m` is about `a * b / w'`. -/
def rescale (a b r w m : Nat) : Nat := r * w / a * m / b

section Rescale

variable {a b r w w' m : Nat}

theorem mul_rescale_le : a * b * rescale a b r w m ≤ r * w * m := by
  have hfirst : a * (r * w / a) ≤ r * w := Nat.mul_div_le _ _
  have hsecond : b * rescale a b r w m ≤ r * w / a * m := Nat.mul_div_le _ _
  calc a * b * rescale a b r w m
      = a * (b * rescale a b r w m) := Nat.mul_assoc ..
    _ ≤ a * (r * w / a * m) := Nat.mul_le_mul_left _ hsecond
    _ = a * (r * w / a) * m := (Nat.mul_assoc ..).symm
    _ ≤ r * w * m := Nat.mul_le_mul_right _ hfirst

theorem lt_mul_rescale (ha : 0 < a) (hb : 0 < b) :
    r * w * m < a * b * (rescale a b r w m + 1) + a * m := by
  have hfirst : r * w ≤ a * (r * w / a + 1) := Nat.le_of_lt (Nat.lt_mul_div_succ _ ha)
  have hsecond : r * w / a * m < b * (rescale a b r w m + 1) := Nat.lt_mul_div_succ _ hb
  calc r * w * m
      ≤ a * (r * w / a + 1) * m := Nat.mul_le_mul_right _ hfirst
    _ = a * (r * w / a * m) + a * m := by rw [Nat.mul_assoc, Nat.succ_mul, Nat.mul_add]
    _ < a * (b * (rescale a b r w m + 1)) + a * m :=
        Nat.add_lt_add_right (Nat.mul_lt_mul_of_pos_left hsecond ha) _
    _ = a * b * (rescale a b r w m + 1) + a * m := by rw [Nat.mul_assoc]

/-- Scaling by at most one makes nothing larger. -/
theorem rescale_le (ha : 0 < a) (hb : 0 < b) (h : w * m ≤ a * b) : rescale a b r w m ≤ r := by
  refine Nat.le_of_mul_le_mul_left (c := a * b) ?_ (Nat.mul_pos ha hb)
  calc a * b * rescale a b r w m
      ≤ r * w * m := mul_rescale_le
    _ = r * (w * m) := Nat.mul_assoc ..
    _ ≤ r * (a * b) := Nat.mul_le_mul_left _ h
    _ = a * b * r := Nat.mul_comm ..

/-- What is scaled, times its own weight, grows by no more than the reciprocal is
too large. -/
theorem rescale_mul_le (h : w' * m ≤ a * b + w') :
    a * b * (rescale a b r w m * w') ≤ r * w * (a * b + w') :=
  calc a * b * (rescale a b r w m * w')
      = a * b * rescale a b r w m * w' := (Nat.mul_assoc ..).symm
    _ ≤ r * w * m * w' := Nat.mul_le_mul_right _ mul_rescale_le
    _ = r * w * (w' * m) := by rw [Nat.mul_assoc, Nat.mul_comm m]
    _ ≤ r * w * (a * b + w') := Nat.mul_le_mul_left _ h

/-- It shrinks by no more than the reciprocal is too small, and two roundings. -/
theorem lt_rescale_mul (ha : 0 < a) (hb : 0 < b) (hw : 0 < w') (hlow : a * b ≤ w' * m + w')
    (hhigh : w' * m ≤ a * b + w') :
    r * w * (a * b) < a * b * (rescale a b r w m * w' + w') + a * (a * b + w') + r * w * w' := by
  calc r * w * (a * b)
      ≤ r * w * (w' * m + w') := Nat.mul_le_mul_left _ hlow
    _ = r * w * m * w' + r * w * w' := by rw [Nat.mul_add, Nat.mul_comm w' m, Nat.mul_assoc (r * w)]
    _ < (a * b * (rescale a b r w m + 1) + a * m) * w' + r * w * w' :=
        Nat.add_lt_add_right (Nat.mul_lt_mul_of_pos_right (lt_mul_rescale ha hb) hw) _
    _ = a * b * (rescale a b r w m * w' + w') + a * (w' * m) + r * w * w' := by
        rw [Nat.add_mul, Nat.mul_assoc (a * b), Nat.succ_mul, Nat.mul_assoc a m, Nat.mul_comm m]
    _ ≤ a * b * (rescale a b r w m * w' + w') + a * (a * b + w') + r * w * w' :=
        Nat.add_le_add_right (Nat.add_le_add_left (Nat.mul_le_mul_left _ hhigh) _) _

end Rescale

end FixedPoint
