import Rustlux.Scrub

/-!
# One pass normalises a region

Whatever the damage, in any number of bits of data and codes, a pass over a
region leaves a sealed region behind: `repair` ends in a codeword from every
72-bit word, changes the data in one bit at most, and changes it only where
`verify` answered `corrected`. Each word is counted once if its code did not
fit, by one of the two counters. A second pass finds nothing to do.
-/

open BitWeight (weight)
open LinearCode (Word)

namespace Rustlux

/-! ## One word, arbitrary damage -/

/-- Each of the three outcomes leaves a codeword. -/
theorem repair_check (x : Word 64 8) : (repair x).check = encode (repair x).data := by
  rw [repair]
  cases hv : verify x.data x.check with
  | clean => exact verify_clean_iff.mp hv
  | corrected d => rfl
  | uncorrectable => rfl

/-- Only `corrected` touches the data, and it stores what `verify` answered. -/
theorem verify_of_repair_ne {x : Word 64 8} (h : (repair x).data ≠ x.data) :
    verify x.data x.check = .corrected (repair x).data := by
  rw [repair] at h ⊢
  cases hv : verify x.data x.check with
  | clean =>
      rw [hv] at h
      exact absurd rfl h
  | corrected d => rfl
  | uncorrectable =>
      rw [hv] at h
      exact absurd rfl h

theorem weight_repair_le (x : Word 64 8) : weight (x.data ^^^ (repair x).data) ≤ 1 := by
  by_cases h : (repair x).data = x.data
  · rw [h, BitVec.xor_self, BitWeight.weight_zero]
    exact Nat.zero_le 1
  · have hdist : Word.dist x (softEccCode.word (repair x).data) = 1 :=
      verify_corrected_iff.mp (verify_of_repair_ne h)
    have hsplit : Word.dist x (softEccCode.word (repair x).data)
        = weight (x.data ^^^ (repair x).data) + weight (x.check ^^^ encode (repair x).data) := rfl
    omega

/-- A word whose code does not fit is counted once, as one or as the other. -/
theorem counted_once (x : Word 64 8) :
    (isCorrected x).toNat + (isUncorrectable x).toNat
      = (decide (x.check ≠ encode x.data)).toNat := by
  have hfits : x.check ≠ encode x.data ↔ verify x.data x.check ≠ .clean :=
    not_congr verify_clean_iff.symm
  rw [isCorrected, isUncorrectable]
  simp only [hfits]
  cases verify x.data x.check with
  | clean => rfl
  | corrected d => rfl
  | uncorrectable => rfl

/-- Two ways of being counted that exclude each other add up. -/
theorem countP_add_of_exclusive {α : Type} {p q r : α → Bool}
    (h : ∀ a, (p a).toNat + (q a).toNat = (r a).toNat) (l : List α) :
    l.countP p + l.countP q = l.countP r := by
  induction l with
  | nil => rfl
  | cons a l ih =>
      have ha := h a
      simp only [List.countP_cons, ← ih]
      cases hp : p a <;> cases hq : q a <;> cases hr : r a <;>
        simp only [hp, hq, hr, Bool.toNat_true, Bool.toNat_false] at ha <;> simp <;> omega

/-! ## The region -/

/-- How many words of the region have a code that does not fit. -/
def mismatches (r : SoftEccRegion) (m : ByteMem) : Nat :=
  (List.range r.words).countP fun i => r.code i ≠ encode (m.load (r.wordAddr i) 64)

/-- Word `i` of a scrubbed region, in terms of `repair`. -/
theorem ScrubbedTo.data {s : Machine} {r : SoftEccRegion} {p : Machine × SoftEccRegion}
    (h : ScrubbedTo s r r.words p) {i : Nat} (hi : i < r.words) :
    p.1.mem.load (r.wordAddr i) 64 = (repair (r.cell s.mem i)).data := by
  rw [← h.shape.wordAddr, ← h.done i hi, SoftEccRegion.cell]

theorem ScrubbedTo.code {s : Machine} {r : SoftEccRegion} {p : Machine × SoftEccRegion}
    (h : ScrubbedTo s r r.words p) {i : Nat} (hi : i < r.words) :
    p.2.code i = (repair (r.cell s.mem i)).check := by
  rw [← h.done i hi, SoftEccRegion.cell]

theorem ScrubbedTo.sealed {s : Machine} {r : SoftEccRegion} {p : Machine × SoftEccRegion}
    (h : ScrubbedTo s r r.words p) : p.2.Sealed p.1.mem := by
  intro i hi
  rw [h.shape.words] at hi
  rw [h.shape.wordAddr, h.data hi, h.code hi, repair_check]

/-- **One pass normalises any region**, whatever its words and codes were. -/
theorem scrub_normalises (b : Build) (s : Machine) (r : SoftEccRegion) :
    let p := softeccScrubRegion b s r
    (∀ i < r.words,
        p.2.code i = encode (p.1.mem.load (r.wordAddr i) 64)
          ∧ weight (s.mem.load (r.wordAddr i) 64 ^^^ p.1.mem.load (r.wordAddr i) 64) ≤ 1
          ∧ (p.1.mem.load (r.wordAddr i) 64 ≠ s.mem.load (r.wordAddr i) 64 →
              verify (s.mem.load (r.wordAddr i) 64) (r.code i)
                = .corrected (p.1.mem.load (r.wordAddr i) 64)))
      ∧ (∃ corrected uncorrectable : Nat,
          p.1.corrected = s.corrected + BitVec.ofNat 64 corrected
            ∧ p.1.uncorrectable = s.uncorrectable + BitVec.ofNat 64 uncorrectable
            ∧ corrected + uncorrectable = mismatches r s.mem)
      ∧ softeccScrubRegion b p.1 p.2 = p := by
  have hspec := scrubRegion_spec b s r
  generalize softeccScrubRegion b s r = p at hspec
  refine ⟨fun i hi => ?_, ⟨_, _, hspec.corrected, hspec.uncorrectable, ?_⟩,
    scrubRegion_of_sealed b hspec.sealed⟩
  · rw [hspec.data hi, hspec.code hi]
    exact ⟨repair_check _, weight_repair_le (r.cell s.mem i), verify_of_repair_ne⟩
  · exact countP_add_of_exclusive (fun i => counted_once (r.cell s.mem i)) _

end Rustlux
