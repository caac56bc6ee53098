import Rustlux.ScrubNormal
import Rustlux.ScrubRace

/-!
# A reseal over damage

`rustlux_softecc_reseal` recomputes the codes of a whole region from the words
as they stand, verified or not. A word with a flipped bit in it, in a region
of which some other word is legitimately written, is thereby sealed with the
flip: the pass after the reseal does not restore it (`reseal_seals_damage`),
and neither does any later one.
-/

open BitWeight (weight)
open LinearCode (Word)

namespace Rustlux

/-! ## One word

The check bits of two words one bit apart differ in three bits at least, so
from the code of the one no pass arrives at the other. -/

theorem weight_encode_of_one_bit {d d' : U64} (h : weight (d ^^^ d') = 1) :
    3 ≤ weight (encode d ^^^ encode d') := by
  have hne : d ≠ d' := by
    rintro rfl
    rw [BitVec.xor_self, BitWeight.weight_zero] at h
    cases h
  have hdist := softEccCode_minDist.dist_word_word hne
  have hsplit : Word.dist (softEccCode.word d) (softEccCode.word d')
      = weight (d ^^^ d') + weight (encode d ^^^ encode d') := rfl
  omega

theorem repair_encode_ne {d d' : U64} (h : weight (d ^^^ d') = 1) (word : U64) :
    (repair ⟨word, encode d'⟩).data ≠ d := by
  have hcheck := weight_encode_of_one_bit h
  intro hd
  by_cases hw : word = d
  · -- one flip away from `d'`, and taken back to it
    have hdist : Word.dist ⟨word, encode d'⟩ (softEccCode.word d') = 1 := by
      show weight (word ^^^ d') + weight (encode d' ^^^ encode d') = 1
      rw [hw, h, BitVec.xor_self, BitWeight.weight_zero]
    have hverify : verify word (encode d') = .corrected d' := verify_corrected_iff.mpr hdist
    simp only [repair, hverify] at hd
    rw [hd, BitVec.xor_self, BitWeight.weight_zero] at h
    cases h
  · have hchanged : (repair ⟨word, encode d'⟩).data ≠ word := by
      rw [hd]
      exact Ne.symm hw
    have hverify := verify_of_repair_ne hchanged
    rw [hd] at hverify
    have hdist : Word.dist ⟨word, encode d'⟩ (softEccCode.word d) = 1 :=
      verify_corrected_iff.mp hverify
    have hsplit : Word.dist ⟨word, encode d'⟩ (softEccCode.word d)
        = weight (word ^^^ d) + weight (encode d' ^^^ encode d) := rfl
    rw [BitVec.xor_comm (encode d')] at hsplit
    omega

/-! ## The lists of regions -/

/-- A pass over two lists is a pass over the one and then over the other. -/
theorem scrubRegions_append (b : Build) :
    ∀ (front back : List SoftEccRegion) (s : Machine),
      (scrubRegions b s (front ++ back)).1
        = (scrubRegions b (scrubRegions b s front).1 back).1
  | [], _, _ => rfl
  | r :: front, back, s => scrubRegions_append b front back (softeccScrubRegion b s r).1

/-- A pass touches no byte outside the regions, which may overlap. -/
theorem scrubRegions_frame (b : Build) {x : Nat} :
    ∀ (rs : List SoftEccRegion) (s : Machine), (∀ r ∈ rs, ¬r.Covers x) →
      (scrubRegions b s rs).1.mem x = s.mem x
  | [], _, _ => rfl
  | r :: rs, s, h => by
      obtain ⟨hr, hrs⟩ := List.forall_mem_cons.mp h
      rw [scrubRegions, scrubRegions_frame b rs _ hrs]
      refine (scrubRegion_spec b s r).frame x ?_
      simp only [SoftEccRegion.Covers] at hr
      omega

/-- The region the reseal finds is the first at its address. -/
theorem resealRegions_append (b : Build) (m : ByteMem) {r : SoftEccRegion}
    {front back : List SoftEccRegion} (hfirst : ∀ q ∈ front, q.addr ≠ r.addr) :
    resealRegions b m r.addr (front ++ r :: back) = front ++ r.sealCodes b m :: back := by
  induction front with
  | nil =>
      rw [List.nil_append, List.nil_append, resealRegions]
      exact if_neg (not_not.mpr rfl)
  | cons q front ih =>
      obtain ⟨hq, hfront⟩ := List.forall_mem_cons.mp hfirst
      rw [List.cons_append, List.cons_append, resealRegions, if_pos hq, ih hfront]

/-! ## Damage, writes, reseal, pass -/

/-- Since the region was sealed over memory `m₀`, one bit of word `j` has
flipped. -/
structure SoftEccRegion.DamagedAt (r : SoftEccRegion) (m₀ m : ByteMem) (j : Nat) : Prop where
  sealed : r.Sealed m₀
  lt : j < r.words
  flip : weight (m₀.load (r.wordAddr j) 64 ^^^ m.load (r.wordAddr j) 64) = 1

namespace SoftEcc

/-- The writer's stores to words of `r`, its reseal, and the pass after it. -/
def updated (b : Build) (S : SoftEcc) (r : SoftEccRegion) (stores : List (Nat × U64)) : SoftEcc :=
  let written := { S with mem := ScrubRace.writeAll r.addr S.mem stores }
  scrubPass b (rustluxSofteccReseal b written r.addr)

/-- The pass has restored word `j` and kept the stores. -/
def Recovered (S T : SoftEcc) (r : SoftEccRegion) (m₀ : ByteMem) (j : Nat)
    (stores : List (Nat × U64)) : Prop :=
  T.mem.load (r.wordAddr j) 64 = m₀.load (r.wordAddr j) 64
    ∧ ∀ w ∈ stores, T.mem.load (r.wordAddr w.1) 64
        = ScrubRace.lastStored w.1 (S.mem.load (r.wordAddr w.1) 64) stores

end SoftEcc

/-- In the pass after the reseal the loop over `r` starts from codes of the
words as they stand, in whatever memory the regions before it leave. -/
theorem SoftEcc.updated_mem (b : Build) {S : SoftEcc} {r : SoftEccRegion}
    {front back : List SoftEccRegion} (hregions : S.regions = front ++ r :: back)
    (hfirst : ∀ q ∈ front, q.addr ≠ r.addr) (stores : List (Nat × U64)) :
    ∃ s : Machine, (S.updated b r stores).mem
      = (scrubRegions b (softeccScrubRegion b s
          (r.sealCodes b (ScrubRace.writeAll r.addr S.mem stores))).1 back).1.mem := by
  let written := { S.toMachine with mem := ScrubRace.writeAll r.addr S.mem stores }
  refine ⟨(scrubRegions b written front).1, ?_⟩
  show (scrubRegions b _ (resealRegions b _ r.addr S.regions)).1.mem = _
  rw [hregions, resealRegions_append b _ hfirst, scrubRegions_append]
  rfl

/-- **A reseal makes damage elsewhere in its region permanent**: the pass after
it never restores the damaged word, however many words were written. -/
theorem reseal_seals_damage (b : Build) {S : SoftEcc} {r : SoftEccRegion}
    {front back : List SoftEccRegion} {m₀ : ByteMem} {j : Nat} {stores : List (Nat × U64)}
    (hregions : S.regions = front ++ r :: back) (hfirst : ∀ q ∈ front, q.addr ≠ r.addr)
    (hback : ∀ q ∈ back, ∀ x, q.Covers x → x < r.wordAddr j ∨ r.wordAddr j + 8 ≤ x)
    (hdamaged : r.DamagedAt m₀ S.mem j) (hstores : ∀ w ∈ stores, w.1 < r.words ∧ w.1 ≠ j) :
    ¬S.Recovered (S.updated b r stores) r m₀ j stores := by
  rintro ⟨hrestored, -⟩
  obtain ⟨s, hmem⟩ := SoftEcc.updated_mem b hregions hfirst stores
  have hword : (ScrubRace.writeAll r.addr S.mem stores).load (r.wordAddr j) 64
      = S.mem.load (r.wordAddr j) 64 := by
    refine ByteMem.load_congr fun x hx hx' => ScrubRace.writeAll_frame fun w hw => ?_
    have := (hstores w hw).2
    simp only [SoftEccRegion.wordAddr] at hx hx'
    omega
  generalize ScrubRace.writeAll r.addr S.mem stores = m at hmem hword
  have hcode : (r.sealCodes b m).code j = encode (S.mem.load (r.wordAddr j) 64) := by
    rw [← hword]
    exact r.sealCodes_sealed b m j hdamaged.lt
  have hload : (S.updated b r stores).mem.load (r.wordAddr j) 64
      = (repair ((r.sealCodes b m).cell s.mem j)).data := by
    rw [hmem, ← (scrubRegion_spec b s (r.sealCodes b m)).data (i := j) hdamaged.lt]
    refine ByteMem.load_congr fun x hx hx' => scrubRegions_frame b back _ fun q hq hcov => ?_
    have := hback q hq x hcov
    omega
  rw [hload, SoftEccRegion.cell, hcode] at hrestored
  exact repair_encode_ne hdamaged.flip _ hrestored

/-! ### A flip in word 0, a store to word 1 -/

/-- Two protected words at address 0, sealed as zero. -/
def twoWordRegion : SoftEccRegion := ⟨"idt", 0, 2, [0, 0], true, rfl⟩

/-- Bit 0 of word 0 has flipped. -/
def flippedState : SoftEcc :=
  { mem := ByteMem.store (fun _ => 0) 0 (1 : U64), pageRo := fun _ => true, corrected := 0
    uncorrectable := 0, tainted := false, log := [], regions := [twoWordRegion] }

theorem flippedState_damaged : twoWordRegion.DamagedAt (fun _ => 0) flippedState.mem 0 where
  sealed := by
    have hcodes : ∀ i < 2, twoWordRegion.code i
        = encode (ByteMem.load (fun _ => 0) (twoWordRegion.wordAddr i) 64) := by decide +kernel
    exact hcodes
  lt := by decide
  flip := by decide +kernel

/-- The flip is still there after the pass, and no counter has moved. -/
theorem reseal_seals_bit_0 :
    twoWordRegion.DamagedAt (fun _ => 0) flippedState.mem 0
      ∧ let T := flippedState.updated .rust twoWordRegion [(1, 5)]
        T.mem.load 0 64 = 1 ∧ T.mem.load 8 64 = 5 ∧ T.corrected = 0 ∧ T.uncorrectable = 0 :=
  ⟨flippedState_damaged, by decide +kernel⟩

theorem reseal_seals_damage_bit_0 :
    ¬flippedState.Recovered (flippedState.updated .rust twoWordRegion [(1, 5)]) twoWordRegion
        (fun _ => 0) 0 [(1, 5)] :=
  have hregions : flippedState.regions = [] ++ twoWordRegion :: [] := rfl
  reseal_seals_damage .rust hregions (fun _ hq => absurd hq List.not_mem_nil)
    (fun _ hq => absurd hq List.not_mem_nil) flippedState_damaged (by decide)

end Rustlux
