import Mathlib.Algebra.Ring.Nat
import Mathlib.Tactic.Common

/-!
# Machine words

The fixed-width unsigned integers of the two sources, as bit vectors, the
wrapping subtraction both use to compute the age of a timestamp, and two
bitwise identities that hold at every width.
-/

namespace Rustlux

abbrev U8 := BitVec 8
abbrev U16 := BitVec 16
abbrev U32 := BitVec 32
abbrev U64 := BitVec 64

/-! ## Wrapping subtraction -/

theorem toNat_sub_of_le {a b : U64} (h : b.toNat ≤ a.toNat) :
    (a - b).toNat = a.toNat - b.toNat :=
  BitVec.toNat_sub_of_le h

theorem toNat_sub_of_lt {a b : U64} (h : a.toNat < b.toNat) :
    (a - b).toNat = 2 ^ 64 + a.toNat - b.toNat := by
  rw [BitVec.toNat_sub]
  omega

/-! ## Bitwise identities -/

theorem xor_and_distrib {w : Nat} (a b c : BitVec w) :
    (a ^^^ b) &&& c = (a &&& c) ^^^ (b &&& c) := by
  refine BitVec.eq_of_getLsbD_eq fun i _ => ?_
  simp only [BitVec.getLsbD_and, BitVec.getLsbD_xor]
  cases a.getLsbD i <;> cases b.getLsbD i <;> simp

/-- Setting bits that are clear is adding them. -/
theorem or_eq_xor {w : Nat} {a b : BitVec w} (h : a &&& b = 0#w) : a ||| b = a ^^^ b := by
  refine BitVec.eq_of_getLsbD_eq fun i _ => ?_
  have hi := congrArg (·.getLsbD i) h
  simp only [BitVec.getLsbD_and, BitVec.getLsbD_zero] at hi
  simp only [BitVec.getLsbD_or, BitVec.getLsbD_xor]
  cases ha : a.getLsbD i <;> cases hb : b.getLsbD i <;> simp [ha, hb] at hi ⊢

end Rustlux
