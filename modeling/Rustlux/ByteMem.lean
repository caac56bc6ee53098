import Mathlib.Tactic.Common

/-!
# Byte memory

A byte-addressed memory with little-endian loads and stores of any whole
number of bytes: a load sees the last store to its range, and a store
leaves every load of a disjoint range unchanged. Addresses are natural
numbers, so ranges never wrap.
-/

/-- A byte for every address. -/
abbrev ByteMem := Nat → BitVec 8

namespace ByteMem

/-- The `w`-bit value at address `a`, least significant byte first. -/
def load (m : ByteMem) (a : Nat) : (w : Nat) → BitVec w
  | 0 => 0#0
  | w + 1 => BitVec.cons ((m (a + w / 8)).getLsbD (w % 8)) (m.load a w)

/-- Store the `w`-bit value `v` at address `a`. -/
def store (m : ByteMem) (a : Nat) {w : Nat} (v : BitVec w) : ByteMem :=
  fun x => if a ≤ x ∧ x < a + w / 8 then v.extractLsb' (8 * (x - a)) 8 else m x

theorem getLsbD_load (m : ByteMem) {a w i : Nat} (hi : i < w) :
    (m.load a w).getLsbD i = (m (a + i / 8)).getLsbD (i % 8) := by
  induction w with
  | zero => omega
  | succ w ih =>
      rw [load, BitVec.getLsbD_cons]
      by_cases h : i = w
      · rw [if_pos h, h]
      · rw [if_neg h, ih (by omega)]

/-- The bytes of a range are those of a load of it. -/
theorem byte_eq_load (m : ByteMem) {a w x : Nat} (hx : a ≤ x) (hx' : 8 * (x - a) + 8 ≤ w) :
    m x = (m.load a w).extractLsb' (8 * (x - a)) 8 := by
  refine BitVec.eq_of_getLsbD_eq fun i hi => ?_
  have hbyte : a + (8 * (x - a) + i) / 8 = x := by omega
  have hbit : (8 * (x - a) + i) % 8 = i := by omega
  rw [BitVec.getLsbD_extractLsb', decide_eq_true hi, Bool.true_and,
    getLsbD_load m (by omega), hbyte, hbit]

@[simp] theorem load_byte (m : ByteMem) (a : Nat) : m.load a 8 = m a := by
  rw [byte_eq_load m (Nat.le_refl a) (by omega : 8 * (a - a) + 8 ≤ 8), Nat.sub_self]
  exact (BitVec.extractLsb'_eq_self).symm

/-- A load depends on the bytes of its range only. -/
theorem load_congr {m m' : ByteMem} {a w : Nat}
    (h : ∀ x, a ≤ x → x < a + (w + 7) / 8 → m x = m' x) : m.load a w = m'.load a w := by
  refine BitVec.eq_of_getLsbD_eq fun i hi => ?_
  rw [getLsbD_load m hi, getLsbD_load m' hi, h (a + i / 8) (by omega) (by omega)]

/-- A load of the range just stored returns the value stored. -/
theorem load_store (m : ByteMem) {a w : Nat} (v : BitVec w) (hw : w % 8 = 0) :
    (m.store a v).load a w = v := by
  refine BitVec.eq_of_getLsbD_eq fun i hi => ?_
  have hin : a ≤ a + i / 8 ∧ a + i / 8 < a + w / 8 := by omega
  rw [getLsbD_load _ hi, store, if_pos hin, BitVec.getLsbD_extractLsb']
  have hidx : 8 * (a + i / 8 - a) + i % 8 = i := by omega
  rw [hidx, decide_eq_true (by omega : i % 8 < 8), Bool.true_and]

theorem store_of_disjoint (m : ByteMem) {a w x : Nat} (v : BitVec w)
    (h : x < a ∨ a + w / 8 ≤ x) : m.store a v x = m x := by
  rw [store, if_neg]
  omega

/-- A store leaves the loads of a disjoint range unchanged. -/
theorem load_store_of_disjoint (m : ByteMem) {a b w u : Nat} (v : BitVec w)
    (h : b + (u + 7) / 8 ≤ a ∨ a + w / 8 ≤ b) : (m.store a v).load b u = m.load b u :=
  load_congr fun _ hx hx' => store_of_disjoint m v (by omega)

/-- Storing what is already there changes nothing. -/
theorem store_load (m : ByteMem) (a : Nat) {w : Nat} (hw : w % 8 = 0) :
    m.store a (m.load a w) = m := by
  funext x
  unfold store
  split
  · rename_i hx
    refine BitVec.eq_of_getLsbD_eq fun j hj => ?_
    have hlt : 8 * (x - a) + j < w := by omega
    have hbyte : a + (8 * (x - a) + j) / 8 = x := by omega
    have hbit : (8 * (x - a) + j) % 8 = j := by omega
    rw [BitVec.getLsbD_extractLsb', decide_eq_true hj, Bool.true_and, getLsbD_load m hlt,
      hbyte, hbit]
  · rfl

end ByteMem
