import Mathlib.Algebra.Ring.Nat
import Mathlib.Tactic.Common

/-!
# Machine arithmetic that remembers whether it was exact

`Checked α` is a value together with a flag: no operation on the way to the
value has overflowed, shifted by the width or more, or cut off a bit in a
cast. The value is the wrapped one, which is what a build without overflow
checks computes; where the flag is set, a build with them computes the same.

The rules turn one operation into `pure` of its value when its operands are
small enough, so that a computation all of whose operations are exact is
rewritten to `pure` of its result, one line after another.
-/

/-- A value, and whether every operation on the way to it was exact. -/
structure Checked (α : Type) where
  val : α
  ok : Bool
deriving DecidableEq, Repr

namespace Checked

instance : Monad Checked where
  pure a := ⟨a, true⟩
  bind x f := ⟨(f x.val).val, x.ok && (f x.val).ok⟩

variable {α β : Type}

@[simp] theorem val_pure (a : α) : (pure a : Checked α).val = a := rfl

@[simp] theorem ok_pure (a : α) : (pure a : Checked α).ok = true := rfl

@[simp] theorem val_bind (x : Checked α) (f : α → Checked β) :
    (x >>= f).val = (f x.val).val := rfl

@[simp] theorem ok_bind (x : Checked α) (f : α → Checked β) :
    (x >>= f).ok = (x.ok && (f x.val).ok) := rfl

theorem pure_bind_eq (a : α) (f : α → Checked β) : (pure a >>= f) = f a := by
  show (⟨(f a).val, true && (f a).ok⟩ : Checked β) = f a
  rw [Bool.true_and]

/-! ## Operations -/

variable {w : Nat}

def add (x y : BitVec w) : Checked (BitVec w) := ⟨x + y, !x.uaddOverflow y⟩

def sub (x y : BitVec w) : Checked (BitVec w) := ⟨x - y, !x.usubOverflow y⟩

def mul (x y : BitVec w) : Checked (BitVec w) := ⟨x * y, !x.umulOverflow y⟩

/-- Subtraction of signed integers. -/
def ssub (x y : BitVec w) : Checked (BitVec w) := ⟨x - y, !x.ssubOverflow y⟩

/-- A shift is exact when it is by less than the width; the bits shifted out
are not missed. Without a check the amount wraps at the width. -/
def shl (x : BitVec w) (s : Nat) : Checked (BitVec w) := ⟨x <<< (s % w), decide (s < w)⟩

def shr (x : BitVec w) (s : Nat) : Checked (BitVec w) := ⟨x >>> (s % w), decide (s < w)⟩

/-- A cast to an unsigned type of `v` bits. -/
def narrow (v : Nat) (x : BitVec w) : Checked (BitVec v) :=
  ⟨x.setWidth v, decide (x.toNat < 2 ^ v)⟩

/-! ## Exact operations -/

theorem add_eq {x y : BitVec w} (h : x.toNat + y.toNat < 2 ^ w) : add x y = pure (x + y) := by
  have hno : x.uaddOverflow y = false := by
    rw [BitVec.uaddOverflow, decide_eq_false_iff_not]
    exact Nat.not_le.mpr h
  rw [add, hno]
  rfl

theorem sub_eq {x y : BitVec w} (h : y.toNat ≤ x.toNat) : sub x y = pure (x - y) := by
  have hno : x.usubOverflow y = false := by
    rw [BitVec.usubOverflow, decide_eq_false_iff_not]
    exact Nat.not_lt.mpr h
  rw [sub, hno]
  rfl

theorem mul_eq {x y : BitVec w} (h : x.toNat * y.toNat < 2 ^ w) : mul x y = pure (x * y) := by
  have hno : x.umulOverflow y = false := by
    rw [BitVec.umulOverflow, decide_eq_false_iff_not]
    exact Nat.not_le.mpr h
  rw [mul, hno]
  rfl

theorem shl_eq {x : BitVec w} {s : Nat} (h : s < w) : shl x s = pure (x <<< s) := by
  rw [shl, Nat.mod_eq_of_lt h, decide_eq_true h]
  rfl

theorem shr_eq {x : BitVec w} {s : Nat} (h : s < w) : shr x s = pure (x >>> s) := by
  rw [shr, Nat.mod_eq_of_lt h, decide_eq_true h]
  rfl

theorem narrow_eq {v : Nat} {x : BitVec w} (h : x.toNat < 2 ^ v) :
    narrow v x = pure (x.setWidth v) := by
  rw [narrow, decide_eq_true h]
  rfl

/-- A signed difference of operands below half the range. -/
theorem ssub_eq {x y : BitVec w} (hx : 2 * x.toNat < 2 ^ w) (hy : 2 * y.toNat < 2 ^ w) :
    ssub x y = pure (x - y) := by
  have hxi : x.toInt = x.toNat := BitVec.toInt_eq_toNat_of_lt hx
  have hyi : y.toInt = y.toNat := BitVec.toInt_eq_toNat_of_lt hy
  have hno : x.ssubOverflow y = false := by
    rw [BitVec.ssubOverflow, hxi, hyi]
    cases w with
    | zero =>
        have := x.isLt
        have := y.isLt
        simp at *
        omega
    | succ w =>
        rw [Nat.pow_succ] at hx hy
        simp only [Nat.add_sub_cancel, Bool.or_eq_false_iff, decide_eq_false_iff_not]
        have hpow : ((2 ^ w : Nat) : Int) = (2 : Int) ^ w := by push_cast; rfl
        omega
  rw [ssub, hno]
  rfl

end Checked
