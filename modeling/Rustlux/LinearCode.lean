import Rustlux.BitWeight

/-!
# Systematic linear codes over bit vectors

A systematic code sends `k` data bits to the word made of the data and
`r` check bits. This file fixes the words, their Hamming distance and
the single-bit error patterns, and proves what a decoder may rely on:

- the **syndrome** of a word (received check xor recomputed check)
  decides its distance to every codeword (`Code.dist_word`), so being
  within one flip of the code is a condition on the syndrome alone
  (`Code.dist_eq_one`);
- a code of even codewords whose columns are distinct and never of
  weight one has distance at least four (`Code.minDist_four`);
- a decoder that answers by syndrome class is exactly the radius-one
  decoder (`Code.isRadiusOne_of_syndrome`), and a radius-one decoder of
  a distance-four code flags every double error
  (`IsRadiusOne.double_error`).
-/

open BitWeight (weight odd single)

namespace LinearCode

variable {k r : Nat}

/-! ## Words and their distance -/

/-- A word of `k` data bits and `r` check bits. -/
@[ext] structure Word (k r : Nat) where
  data : BitVec k
  check : BitVec r
deriving DecidableEq

namespace Word

instance : XorOp (Word k r) := ⟨fun x y => ⟨x.data ^^^ y.data, x.check ^^^ y.check⟩⟩

@[simp] theorem xor_data (x y : Word k r) : (x ^^^ y).data = x.data ^^^ y.data := rfl

@[simp] theorem xor_check (x y : Word k r) : (x ^^^ y).check = x.check ^^^ y.check := rfl

/-- The number of one bits among all `k + r`. -/
def weight (x : Word k r) : Nat := BitWeight.weight x.data + BitWeight.weight x.check

/-- Whether the number of one bits is odd. -/
def odd (x : Word k r) : Bool := BitWeight.odd x.data ^^ BitWeight.odd x.check

/-- Hamming distance: the number of positions in which two words differ. -/
def dist (x y : Word k r) : Nat := (x ^^^ y).weight

/-- The error pattern with the single bit `p`, data positions first. -/
def unit (p : Fin (k + r)) : Word k r :=
  if p.val < k then ⟨single k p.val, 0#r⟩ else ⟨0#k, single r (p.val - k)⟩

theorem xor_comm (x y : Word k r) : x ^^^ y = y ^^^ x :=
  Word.ext (BitVec.xor_comm ..) (BitVec.xor_comm ..)

theorem xor_assoc (x y z : Word k r) : (x ^^^ y) ^^^ z = x ^^^ (y ^^^ z) :=
  Word.ext (BitVec.xor_assoc ..) (BitVec.xor_assoc ..)

/-- Adding the same error pattern twice restores the word. -/
theorem xor_xor_cancel (x e : Word k r) : (x ^^^ e) ^^^ x = e := by
  rw [xor_comm x e, xor_assoc]
  ext1 <;> simp

theorem odd_eq_weight (x : Word k r) : x.odd = (x.weight % 2 == 1) := by
  simp only [odd, weight, BitWeight.odd, Nat.add_mod (BitWeight.weight x.data)]
  rcases Nat.mod_two_eq_zero_or_one (BitWeight.weight x.data) with hx | hx <;>
    rcases Nat.mod_two_eq_zero_or_one (BitWeight.weight x.check) with hy | hy <;>
      simp [hx, hy]

theorem odd_xor (x y : Word k r) : (x ^^^ y).odd = (x.odd ^^ y.odd) := by
  simp only [odd, xor_data, xor_check, BitWeight.odd_xor]
  cases BitWeight.odd x.data <;> cases BitWeight.odd y.data <;> simp

theorem weight_xor_le (x y : Word k r) : (x ^^^ y).weight ≤ x.weight + y.weight := by
  have hd := BitWeight.weight_xor_le x.data y.data
  have hc := BitWeight.weight_xor_le x.check y.check
  simp only [weight, xor_data, xor_check]
  omega

theorem dist_comm (x y : Word k r) : dist x y = dist y x := by
  rw [dist, xor_comm, ← dist]

@[simp] theorem dist_self (x : Word k r) : dist x x = 0 := by
  simp [dist, weight]

theorem dist_eq_zero {x y : Word k r} : dist x y = 0 ↔ x = y := by
  refine ⟨fun h => ?_, fun h => by rw [h, dist_self]⟩
  simp only [dist, weight, xor_data, xor_check, Nat.add_eq_zero_iff,
    BitWeight.weight_eq_zero, BitVec.xor_eq_zero_iff] at h
  exact Word.ext h.1 h.2

theorem dist_triangle (x y z : Word k r) : dist x z ≤ dist x y + dist y z := by
  have hxz : x ^^^ z = (x ^^^ y) ^^^ (y ^^^ z) := by
    rw [xor_assoc, ← xor_assoc y y z]
    ext1 <;> simp
  rw [dist, hxz]
  exact weight_xor_le _ _

/-- Distance does not see an error pattern added to both words. -/
theorem dist_xor_xor (e x y : Word k r) : dist (e ^^^ x) (e ^^^ y) = dist x y := by
  have h : (e ^^^ x) ^^^ (e ^^^ y) = x ^^^ y := by rw [← xor_assoc, xor_xor_cancel]
  rw [dist, h, ← dist]

/-! ### Single-bit error patterns -/

theorem weight_unit (p : Fin (k + r)) : (unit p : Word k r).weight = 1 := by
  unfold unit
  split
  · rename_i h; simp [weight, BitWeight.weight_single h]
  · rename_i h
    have hp : p.val - k < r := by omega
    simp [weight, BitWeight.weight_single hp]

theorem unit_inj {p q : Fin (k + r)} (h : (unit p : Word k r) = unit q) : p = q := by
  apply Fin.ext
  unfold unit at h
  split at h <;> split at h <;> rename_i hp hq
  · exact BitWeight.single_inj hp (congrArg Word.data h)
  · exact absurd (congrArg Word.data h) (BitWeight.single_ne_zero hp)
  · exact absurd (congrArg Word.data h).symm (BitWeight.single_ne_zero hq)
  · have hpr : p.val - k < r := by omega
    have := BitWeight.single_inj hpr (congrArg Word.check h)
    omega

/-- Two distinct flips move a word by distance two. -/
theorem weight_unit_xor_unit {p q : Fin (k + r)} (h : p ≠ q) :
    (unit p ^^^ unit q : Word k r).weight = 2 := by
  have hle := weight_xor_le (unit p : Word k r) (unit q)
  have heven := odd_xor (unit p : Word k r) (unit q)
  have hne : (unit p ^^^ unit q : Word k r).weight ≠ 0 := fun h0 =>
    h (unit_inj (dist_eq_zero.mp h0))
  simp only [odd_eq_weight, weight_unit] at heven hle
  have : (unit p ^^^ unit q : Word k r).weight ≠ 1 := fun h1 => by simp [h1] at heven
  omega

end Word

/-! ## Codes -/

/-- A systematic linear code: the check bits are additive in the data. -/
structure Code (k r : Nat) where
  enc : BitVec k → BitVec r
  enc_xor : ∀ a b, enc (a ^^^ b) = enc a ^^^ enc b

namespace Code

variable (C : Code k r)

/-- The codeword of `d`. -/
def word (d : BitVec k) : Word k r := ⟨d, C.enc d⟩

/-- Received check bits xor recomputed check bits. -/
def syndrome (x : Word k r) : BitVec r := x.check ^^^ C.enc x.data

/-- Every codeword has an even number of ones. -/
def Even : Prop := ∀ d, odd (C.enc d) = odd d

/-- Every nonzero codeword has weight at least `m`. -/
def MinDist (m : Nat) : Prop := ∀ d, d ≠ 0#k → m ≤ (C.word d).weight

@[simp] theorem enc_zero : C.enc 0#k = 0#r := by
  have h := C.enc_xor 0#k 0#k
  rw [BitVec.xor_self] at h
  rw [h, BitVec.xor_self]

theorem word_xor (a b : BitVec k) : C.word (a ^^^ b) = C.word a ^^^ C.word b :=
  Word.ext rfl (C.enc_xor a b)

/-- The distance to a codeword, in terms of the syndrome. -/
theorem dist_word (x : Word k r) (d : BitVec k) :
    Word.dist x (C.word d)
      = weight (x.data ^^^ d) + weight (C.syndrome x ^^^ C.enc (x.data ^^^ d)) := by
  have hs : C.syndrome x ^^^ C.enc (x.data ^^^ d) = x.check ^^^ C.enc d := by
    rw [syndrome, C.enc_xor, BitVec.xor_assoc, ← BitVec.xor_assoc (C.enc x.data),
      BitVec.xor_self, BitVec.zero_xor]
  rw [hs]
  rfl

theorem syndrome_eq_zero {x : Word k r} : C.syndrome x = 0#r ↔ x.check = C.enc x.data := by
  rw [syndrome, BitVec.xor_eq_zero_iff]

/-- A word at distance one from a codeword either has a check bit
flipped (the syndrome is a single bit) or a data bit (the syndrome is
that bit's column). -/
theorem dist_eq_one {x : Word k r} {d : BitVec k} :
    Word.dist x (C.word d) = 1 ↔
      (d = x.data ∧ weight (C.syndrome x) = 1)
        ∨ ∃ i < k, d = x.data ^^^ single k i ∧ C.syndrome x = C.enc (single k i) := by
  rw [C.dist_word]
  constructor
  · intro h
    by_cases h0 : weight (x.data ^^^ d) = 0
    · left
      have hd : x.data ^^^ d = 0#k := BitWeight.weight_eq_zero.mp h0
      rw [hd, C.enc_zero, BitVec.xor_zero] at h
      exact ⟨(BitVec.xor_eq_zero_iff.mp hd).symm, by simpa using h⟩
    · right
      obtain ⟨i, hi, hd⟩ := BitWeight.weight_eq_one.mp (by omega : weight (x.data ^^^ d) = 1)
      have hs : weight (C.syndrome x ^^^ C.enc (x.data ^^^ d)) = 0 := by omega
      rw [BitWeight.weight_eq_zero, BitVec.xor_eq_zero_iff, hd] at hs
      refine ⟨i, hi, ?_, hs⟩
      rw [← hd, ← BitVec.xor_assoc, BitVec.xor_self, BitVec.zero_xor]
  · rintro (⟨rfl, hs⟩ | ⟨i, hi, rfl, hs⟩)
    · simpa using hs
    · have hd : x.data ^^^ (x.data ^^^ single k i) = single k i := by
        rw [← BitVec.xor_assoc, BitVec.xor_self, BitVec.zero_xor]
      rw [hd, hs, BitVec.xor_self, BitWeight.weight_zero, BitWeight.weight_single hi]

/-! ### Even codes -/

variable {C}

theorem Even.odd_word (h : C.Even) (d : BitVec k) : (C.word d).odd = false := by
  simp [Word.odd, word, h d]

/-- A nonzero codeword of an even code weighs two at least, and exactly
two only if some column has weight one or two columns agree. -/
theorem Even.minDist_four (h : C.Even)
    (hcol : ∀ i < k, weight (C.enc (single k i)) ≠ 1)
    (hinj : ∀ i < k, ∀ j < k, C.enc (single k i) = C.enc (single k j) → i = j) :
    C.MinDist 4 := by
  intro d hd
  have heven := h.odd_word d
  have hpos : weight d ≠ 0 := fun h0 => hd (BitWeight.weight_eq_zero.mp h0)
  rw [Word.odd_eq_weight] at heven
  have hw : (C.word d).weight = weight d + weight (C.enc d) := rfl
  have hne : (C.word d).weight ≠ 2 := by
    intro h2
    by_cases h1 : weight d = 1
    · obtain ⟨i, hi, rfl⟩ := BitWeight.weight_eq_one.mp h1
      exact hcol i hi (by omega)
    · obtain ⟨i, hi, j, hj, hij, rfl⟩ :=
        BitWeight.weight_eq_two (by omega : weight d = 2)
      have henc : weight (C.enc (single k i ^^^ single k j)) = 0 := by omega
      rw [BitWeight.weight_eq_zero, C.enc_xor, BitVec.xor_eq_zero_iff] at henc
      exact hij (hinj i hi j hj henc)
  have hodd : (C.word d).weight % 2 ≠ 1 := by simpa using heven
  omega

/-- Codewords of distinct data are at least the minimum distance apart. -/
theorem MinDist.dist_word_word {m : Nat} (h : C.MinDist m) {a b : BitVec k} (hab : a ≠ b) :
    m ≤ Word.dist (C.word a) (C.word b) := by
  rw [Word.dist, ← C.word_xor]
  exact h _ fun h0 => hab (BitVec.xor_eq_zero_iff.mp h0)

end Code

/-! ## Radius-one decoders -/

/-- What a decoder says about a received word. -/
inductive Verdict (k : Nat) where
  | clean
  | corrected (d : BitVec k)
  | uncorrectable
deriving DecidableEq, Repr

/-- The decoder accepts codewords, corrects every word one flip away
from a codeword to that codeword's data, and gives up on all others. -/
structure IsRadiusOne (C : Code k r) (f : Word k r → Verdict k) : Prop where
  clean_iff : ∀ x, f x = .clean ↔ x.check = C.enc x.data
  corrected_iff : ∀ x d, f x = .corrected d ↔ Word.dist x (C.word d) = 1
  uncorrectable_iff : ∀ x, f x = .uncorrectable ↔ ∀ d, 2 ≤ Word.dist x (C.word d)

/-- Every word is a codeword, one flip away from one, or further from all. -/
theorem Code.word_cases (C : Code k r) (x : Word k r) :
    (∃ d, x = C.word d) ∨ (∃ d, Word.dist x (C.word d) = 1)
      ∨ ∀ d, 2 ≤ Word.dist x (C.word d) := by
  by_cases hzero : ∃ d, x = C.word d
  · exact Or.inl hzero
  by_cases hone : ∃ d, Word.dist x (C.word d) = 1
  · exact Or.inr (Or.inl hone)
  refine Or.inr (Or.inr fun d => ?_)
  have h0 : Word.dist x (C.word d) ≠ 0 := fun h => hzero ⟨d, Word.dist_eq_zero.mp h⟩
  have h1 : Word.dist x (C.word d) ≠ 1 := fun h => hone ⟨d, h⟩
  omega

/-- A decoder that answers these three cases right is the radius-one decoder:
no answer fits two of them. -/
theorem isRadiusOne_of_dist {C : Code k r} {f : Word k r → Verdict k}
    (hclean : ∀ d, f (C.word d) = .clean)
    (hone : ∀ x d, Word.dist x (C.word d) = 1 → f x = .corrected d)
    (hfar : ∀ x, (∀ d, 2 ≤ Word.dist x (C.word d)) → f x = .uncorrectable) :
    IsRadiusOne C f := by
  refine ⟨fun x => ⟨fun h => ?_, fun h => ?_⟩, fun x d => ⟨fun h => ?_, hone x d⟩,
    fun x => ⟨fun h d => ?_, hfar x⟩⟩
  · rcases C.word_cases x with ⟨d, rfl⟩ | ⟨d, hd⟩ | hd
    · rfl
    · rw [hone x d hd] at h; cases h
    · rw [hfar x hd] at h; cases h
  · have hx : x = C.word x.data := Word.ext rfl h
    rw [hx]
    exact hclean x.data
  · rcases C.word_cases x with ⟨d', rfl⟩ | ⟨d', hd⟩ | hd
    · rw [hclean d'] at h; cases h
    · rw [hone x d' hd] at h; cases h; exact hd
    · rw [hfar x hd] at h; cases h
  · rcases C.word_cases x with ⟨d', rfl⟩ | ⟨d', hd⟩ | hd
    · rw [hclean d'] at h; cases h
    · rw [hone x d' hd] at h; cases h
    · exact hd d

/-- A decoder that answers by the class of the syndrome is the
radius-one decoder. -/
theorem Code.isRadiusOne_of_syndrome {C : Code k r} {f : Word k r → Verdict k}
    (hzero : ∀ x, C.syndrome x = 0#r → f x = .clean)
    (hcheck : ∀ x, weight (C.syndrome x) = 1 → f x = .corrected x.data)
    (hdata : ∀ x, ∀ i < k, C.syndrome x = C.enc (single k i) →
      f x = .corrected (x.data ^^^ single k i))
    (helse : ∀ x, C.syndrome x ≠ 0#r → weight (C.syndrome x) ≠ 1 →
      (∀ i < k, C.syndrome x ≠ C.enc (single k i)) → f x = .uncorrectable) :
    IsRadiusOne C f := by
  refine isRadiusOne_of_dist (fun d => hzero _ (C.syndrome_eq_zero.mpr rfl))
    (fun x d h => ?_) fun x hfar => ?_
  · rcases C.dist_eq_one.mp h with ⟨rfl, hs⟩ | ⟨i, hi, rfl, hs⟩
    · exact hcheck x hs
    · exact hdata x i hi hs
  · -- in any other class of syndromes a codeword would be closer
    have hnot : ∀ d, Word.dist x (C.word d) ≠ 1 := fun d h => by
      have := hfar d
      omega
    refine helse x (fun h0 => ?_) (fun h1 => ?_) fun i hi hs => ?_
    · have hx : x = C.word x.data := Word.ext rfl (C.syndrome_eq_zero.mp h0)
      have := hfar x.data
      rw [← hx, Word.dist_self] at this
      omega
    · exact hnot _ (C.dist_eq_one.mpr (Or.inl ⟨rfl, h1⟩))
    · exact hnot _ (C.dist_eq_one.mpr (Or.inr ⟨i, hi, rfl, hs⟩))

namespace IsRadiusOne

variable {C : Code k r} {f : Word k r → Verdict k}

/-! ### Adding a codeword

Linearity makes the verdict on `C.word d ^^^ e` that on the error pattern `e`,
carried over to `d`. -/

theorem clean_word_xor (hf : IsRadiusOne C f) (d : BitVec k) (e : Word k r) :
    f (C.word d ^^^ e) = .clean ↔ f e = .clean := by
  rw [hf.clean_iff, hf.clean_iff]
  show C.enc d ^^^ e.check = C.enc (d ^^^ e.data) ↔ _
  rw [C.enc_xor, BitVec.xor_right_inj]

theorem corrected_word_xor (hf : IsRadiusOne C f) (d x : BitVec k) (e : Word k r) :
    f (C.word d ^^^ e) = .corrected (d ^^^ x) ↔ f e = .corrected x := by
  rw [hf.corrected_iff, hf.corrected_iff, C.word_xor, Word.dist_xor_xor]

theorem uncorrectable_word_xor (hf : IsRadiusOne C f) (d : BitVec k) (e : Word k r) :
    f (C.word d ^^^ e) = .uncorrectable ↔ f e = .uncorrectable := by
  have hdist : ∀ x, Word.dist (C.word d ^^^ e) (C.word (d ^^^ x)) = Word.dist e (C.word x) :=
    fun x => by rw [C.word_xor, Word.dist_xor_xor]
  rw [hf.uncorrectable_iff, hf.uncorrectable_iff]
  refine ⟨fun h x => hdist x ▸ h (d ^^^ x), fun h x => ?_⟩
  have hx : d ^^^ (d ^^^ x) = x := by rw [← BitVec.xor_assoc, BitVec.xor_self, BitVec.zero_xor]
  rw [← hx, hdist]
  exact h (d ^^^ x)

/-! ### Error patterns -/

/-- Two flips of a codeword of a distance-four code are detected. -/
theorem double_error (hf : IsRadiusOne C f) (h4 : C.MinDist 4) (d : BitVec k)
    {p q : Fin (k + r)} (hpq : p ≠ q) :
    f (C.word d ^^^ Word.unit p ^^^ Word.unit q) = .uncorrectable := by
  rw [hf.uncorrectable_iff]
  intro d'
  have hdist : Word.dist (C.word d ^^^ Word.unit p ^^^ Word.unit q) (C.word d) = 2 := by
    rw [Word.dist, Word.xor_assoc (C.word d), Word.xor_xor_cancel,
      Word.weight_unit_xor_unit hpq]
  by_cases hd : d' = d
  · subst hd; exact Nat.le_of_eq hdist.symm
  · have h := h4.dist_word_word (Ne.symm hd)
    have htri := Word.dist_triangle (C.word d)
      (C.word d ^^^ Word.unit p ^^^ Word.unit q) (C.word d')
    rw [Word.dist_comm (C.word d) (_ ^^^ _), hdist] at htri
    omega

/-- An error pattern of even weight is never "corrected". -/
theorem even_error (hf : IsRadiusOne C f) (he : C.Even) (d d' : BitVec k)
    {e : Word k r} (h : e.odd = false) : f (C.word d ^^^ e) ≠ .corrected d' := by
  intro hc
  have h1 := (hf.corrected_iff _ _).mp hc
  have hodd : (C.word d ^^^ e ^^^ C.word d').odd = false := by
    rw [Word.odd_xor, Word.odd_xor, he.odd_word, he.odd_word, h]; rfl
  rw [Word.odd_eq_weight, ← Word.dist, h1] at hodd
  cases hodd

/-- An error pattern of odd weight is never "clean". -/
theorem odd_error (hf : IsRadiusOne C f) (he : C.Even) (d : BitVec k)
    {e : Word k r} (h : e.odd = true) : f (C.word d ^^^ e) ≠ .clean := by
  intro hc
  have hx : C.word d ^^^ e = C.word (C.word d ^^^ e).data :=
    Word.ext rfl ((hf.clean_iff _).mp hc)
  have hodd : (C.word d ^^^ e).odd = true := by rw [Word.odd_xor, he.odd_word, h]; rfl
  rw [hx, he.odd_word] at hodd
  cases hodd

/-- A word within one flip of a codeword is accepted as it stands or
corrected to that codeword. -/
theorem within_one (hf : IsRadiusOne C f) {x : Word k r} {d : BitVec k}
    (h : Word.dist x (C.word d) ≤ 1) :
    (x = C.word d ∧ f x = .clean) ∨ (x ≠ C.word d ∧ f x = .corrected d) := by
  rcases (by omega : Word.dist x (C.word d) = 0 ∨ Word.dist x (C.word d) = 1) with h0 | h1
  · obtain rfl := Word.dist_eq_zero.mp h0
    exact Or.inl ⟨rfl, (hf.clean_iff _).mpr rfl⟩
  · refine Or.inr ⟨fun hx => ?_, (hf.corrected_iff x d).mpr h1⟩
    rw [hx, Word.dist_self] at h1
    omega

end IsRadiusOne

end LinearCode
