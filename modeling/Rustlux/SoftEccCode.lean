import Rustlux.LinearCode
import Rustlux.SoftEcc

/-!
# The codec is an extended Hamming code

`encode` is additive over xor, its codewords have even weight and
distance at least four, and `verify` is the radius-one decoder of the
code `{(d, encode d)}`: the bridge from the loops of the source to
`LinearCode`.

Additivity is an induction over the position loop (the running bit
counter does not depend on the data); the rest of the bridge is a finite
check, over the 64 columns and over the 256 syndromes, of the table the
loops compute.
-/

open BitWeight (weight odd single)
open LinearCode (Word Code Verdict IsRadiusOne)

namespace Rustlux

/-! ## The position loop is additive -/

theorem testBit_shift_and_one (x : U64) (bit : Nat) :
    ((x >>> bit) &&& 1 == 1) = x.getLsbD bit := by
  have h : (x >>> bit) &&& 1#64 = (BitVec.ofBool (x.getLsbD bit)).setWidth 64 := by
    rw [BitVec.and_one_eq_setWidth_ofBool_getLsbD, BitVec.getLsbD_ushiftRight, Nat.add_zero]
  show (x >>> bit &&& 1#64 == 1#64) = _
  rw [h]
  cases x.getLsbD bit <;> rfl

theorem dataSyndromeStep_xor (a b : U64) {x y : U32 × Nat} (hxy : x.2 = y.2) (pos : U32) :
    dataSyndromeStep (a ^^^ b) (x.1 ^^^ y.1, x.2) pos
      = ((dataSyndromeStep a x pos).1 ^^^ (dataSyndromeStep b y pos).1,
          (dataSyndromeStep a x pos).2)
      ∧ (dataSyndromeStep a x pos).2 = (dataSyndromeStep b y pos).2 := by
  obtain ⟨s, bit⟩ := x
  obtain ⟨t, _⟩ := y
  obtain rfl : bit = _ := hxy
  simp only [dataSyndromeStep, testBit_shift_and_one, BitVec.getLsbD_xor]
  split
  · exact ⟨rfl, rfl⟩
  · refine ⟨?_, rfl⟩
    have hcancel : s ^^^ pos ^^^ (t ^^^ pos) = s ^^^ t := by
      rw [BitVec.xor_comm t, BitVec.xor_assoc, ← BitVec.xor_assoc pos, BitVec.xor_self,
        BitVec.zero_xor]
    cases a.getLsbD bit <;> cases b.getLsbD bit <;>
      simp [hcancel, BitVec.xor_assoc, BitVec.xor_comm pos t]

/-- The running bit counter does not depend on the data, so two runs of
the loop stay in step and their syndromes add up. -/
theorem foldl_dataSyndromeStep_xor (a b : U64) : ∀ (ps : List U32) {x y : U32 × Nat},
    x.2 = y.2 →
      (ps.foldl (dataSyndromeStep (a ^^^ b)) (x.1 ^^^ y.1, x.2)).1
        = (ps.foldl (dataSyndromeStep a) x).1 ^^^ (ps.foldl (dataSyndromeStep b) y).1 := by
  intro ps
  induction ps with
  | nil =>
      intro x y _
      rfl
  | cons pos ps ih =>
      intro x y hxy
      obtain ⟨hstep, hbit⟩ := dataSyndromeStep_xor a b hxy pos
      rw [List.foldl_cons, List.foldl_cons, List.foldl_cons, hstep]
      exact ih hbit

theorem dataSyndrome_xor (a b : U64) :
    dataSyndrome (a ^^^ b) = dataSyndrome a ^^^ dataSyndrome b :=
  foldl_dataSyndromeStep_xor a b (positionsBelow (POSITIONS + 1)) (x := (0, 0)) (y := (0, 0)) rfl

/-- Positions in seven bits keep the syndrome in seven bits. -/
theorem foldl_dataSyndromeStep_and_mask (data : U64) : ∀ {ps : List U32},
    (∀ p ∈ ps, p &&& 0x7f = p) → ∀ {acc : U32 × Nat}, acc.1 &&& 0x7f = acc.1 →
      (ps.foldl (dataSyndromeStep data) acc).1 &&& 0x7f
        = (ps.foldl (dataSyndromeStep data) acc).1 := by
  intro ps
  induction ps with
  | nil =>
      intro _ acc hacc
      exact hacc
  | cons p ps ih =>
      intro hps acc hacc
      refine ih (fun q hq => hps q (List.mem_cons_of_mem _ hq)) ?_
      unfold dataSyndromeStep
      split
      · exact hacc
      · split
        · show (acc.1 ^^^ p) &&& 0x7f = acc.1 ^^^ p
          rw [xor_and_distrib, hacc, hps p (List.mem_cons_self ..)]
        · exact hacc

/-- The mask of `encode` loses nothing. -/
theorem dataSyndrome_and_mask (data : U64) :
    dataSyndrome data &&& 0x7f = dataSyndrome data := by
  refine foldl_dataSyndromeStep_and_mask data (fun p hp => ?_) rfl
  simp only [positionsBelow, List.mem_map, List.mem_range'_1] at hp
  obtain ⟨n, hn, rfl⟩ := hp
  have hmask : ∀ n < 72, BitVec.ofNat 32 n &&& 0x7f = BitVec.ofNat 32 n := by decide
  exact hmask n (by simp only [POSITIONS] at hn; omega)

/-! ## The code byte -/

/-- The seven syndrome bits of the code byte. -/
def codeLow (data : U64) : U8 := (dataSyndrome data).setWidth 8

theorem codeLow_xor (a b : U64) : codeLow (a ^^^ b) = codeLow a ^^^ codeLow b := by
  rw [codeLow, dataSyndrome_xor, BitVec.setWidth_xor]
  rfl

/-- The overall-parity bit of a word with syndrome bits `low`. -/
def parityBit (b : Bool) : U8 := if b then 0x80 else 0

theorem parityBit_xor (a b : Bool) : parityBit (a ^^ b) = parityBit a ^^^ parityBit b := by
  cases a <;> cases b <;> rfl

theorem and_one_eq_odd {w v : Nat} (x : BitVec w) (y : BitVec v) :
    ((countOnes x + countOnes y) &&& 1 == 1) = (odd x ^^ odd y) := by
  rw [Nat.and_one_is_mod]
  simp only [countOnes, odd, Nat.add_mod (weight x)]
  rcases Nat.mod_two_eq_zero_or_one (weight x) with hx | hx <;>
    rcases Nat.mod_two_eq_zero_or_one (weight y) with hy | hy <;> simp [hx, hy]

theorem codeLow_and_parityBit (data : U64) : codeLow data &&& 0x80 = 0#8 := by
  rw [codeLow, ← dataSyndrome_and_mask, BitVec.setWidth_and, BitVec.and_assoc]
  exact BitVec.and_zero

/-- `encode` as a sum: syndrome bits and the parity bit of everything. -/
theorem encode_eq (data : U64) :
    encode data = codeLow data ^^^ parityBit (odd data ^^ odd (codeLow data)) := by
  simp only [encode, dataSyndrome_and_mask, and_one_eq_odd, ← codeLow.eq_1]
  cases odd data ^^ odd (codeLow data)
  · exact BitVec.xor_zero.symm
  · exact or_eq_xor (codeLow_and_parityBit data)

theorem encode_xor (a b : U64) : encode (a ^^^ b) = encode a ^^^ encode b := by
  simp only [encode_eq, codeLow_xor, BitWeight.odd_xor, parityBit_xor]
  ac_rfl

/-- Data and code of a sealed word have the same parity. -/
theorem odd_encode (data : U64) : odd (encode data) = odd data := by
  rw [encode_eq, BitWeight.odd_xor]
  cases odd data <;> cases odd (codeLow data) <;> rfl

/-- The code `{(d, encode d)}` of 72-bit words. -/
def softEccCode : Code 64 8 := ⟨encode, encode_xor⟩

theorem softEccCode_even : softEccCode.Even := odd_encode

/-! ## The position table

What the loops compute, entry by entry: data bit `i` sits at a position
that is not a power of two and maps back to `i`, and every such position
up to 71 carries a data bit. -/

theorem column_position : ∀ i < 64, dataBitIndex (dataSyndrome (single 64 i)) = i
    ∧ dataSyndrome (single 64 i) ≠ 0#32
    ∧ (dataSyndrome (single 64 i)).toNat ≤ POSITIONS
    ∧ isParityPos (dataSyndrome (single 64 i)) = false := by
  decide +kernel

theorem position_column : ∀ n < 72, n ≠ 0 → isParityPos (BitVec.ofNat 32 n) = false →
    dataBitIndex (BitVec.ofNat 32 n) < 64
      ∧ dataSyndrome (single 64 (dataBitIndex (BitVec.ofNat 32 n))) = BitVec.ofNat 32 n := by
  decide +kernel

/-- A single shadow bit gives syndrome zero or a parity position. -/
theorem parity_position : ∀ s : U8, weight s = 1 →
    (s &&& 0x7f).setWidth 32 = 0#32
      ∨ ((s &&& 0x7f).setWidth 32 : U32).toNat ≤ POSITIONS
        ∧ isParityPos ((s &&& 0x7f).setWidth 32) = true := by
  decide +kernel

/-- Conversely, an odd syndrome at position zero or at a parity position
is a single shadow bit. -/
theorem weight_of_parity_position : ∀ s : U8, odd s = true →
    (s &&& 0x7f).setWidth 32 = 0#32 ∨ isParityPos ((s &&& 0x7f).setWidth 32) = true →
    weight s = 1 := by
  decide +kernel

theorem low_eq_zero : ∀ s : U8, (s &&& 0x7f).setWidth 32 = 0#32 → odd s = false → s = 0#8 := by
  decide +kernel

theorem dataBitIndex_spec {pos : U32} (h0 : pos ≠ 0#32) (hle : pos.toNat ≤ POSITIONS)
    (hpar : isParityPos pos = false) :
    dataBitIndex pos < 64 ∧ dataSyndrome (single 64 (dataBitIndex pos)) = pos := by
  have hpos : pos = BitVec.ofNat 32 pos.toNat := by rw [BitVec.ofNat_toNat, BitVec.setWidth_eq]
  have hne : pos.toNat ≠ 0 := fun h => h0 (by rw [hpos, h])
  simp only [POSITIONS] at hle
  rw [hpos] at hpar ⊢
  exact position_column _ (by omega) hne (by simpa using hpar)

/-! ## Decoding by syndrome -/

theorem encode_and_mask (data : U64) : encode data &&& 0x7f = codeLow data := by
  have hlow : codeLow data &&& 0x7f = codeLow data := by
    rw [codeLow, ← dataSyndrome_and_mask, BitVec.setWidth_and, BitVec.and_assoc]
    rfl
  rw [encode_eq, xor_and_distrib, hlow]
  cases odd data ^^ odd (codeLow data) <;> simp [parityBit]

theorem dataSyndrome_lt (data : U64) : (dataSyndrome data).toNat < 128 := by
  have hle : (dataSyndrome data &&& 0x7f).toNat ≤ 127 := by
    rw [BitVec.toNat_and]
    exact Nat.and_le_right
  rw [dataSyndrome_and_mask] at hle
  omega

theorem codeLow_setWidth (data : U64) : (codeLow data).setWidth 32 = dataSyndrome data := by
  have hlt := dataSyndrome_lt data
  refine BitVec.eq_of_toNat_eq ?_
  rw [codeLow, BitVec.toNat_setWidth, BitVec.toNat_setWidth]
  omega

/-- The syndrome `verify` computes is that of the code. -/
theorem verify_syndrome (data : U64) (code : U8) :
    dataSyndrome data ^^^ (code &&& 0x7f).setWidth 32
      = ((code ^^^ encode data) &&& 0x7f).setWidth 32 := by
  rw [xor_and_distrib, encode_and_mask, BitVec.setWidth_xor, codeLow_setWidth, BitVec.xor_comm]

theorem verify_parity (data : U64) (code : U8) :
    ((countOnes data + countOnes code) &&& 1 == 0) = !odd (code ^^^ encode data) := by
  rw [BitWeight.odd_xor, odd_encode, Bool.xor_comm, ← and_one_eq_odd, Nat.and_one_is_mod]
  rcases Nat.mod_two_eq_zero_or_one (countOnes data + countOnes code) with h | h <;> simp [h]

/-- `verify` as a function of the data and the code's syndrome. -/
theorem verify_eq_syndrome (data : U64) (code : U8) :
    verify data code =
      let s := code ^^^ encode data
      let pos : U32 := (s &&& 0x7f).setWidth 32
      if pos = 0#32 then if odd s then .corrected data else .clean
      else if !odd s then .uncorrectable
      else if pos.toNat > POSITIONS then .uncorrectable
      else if isParityPos pos then .corrected data
      else .corrected (data ^^^ single 64 (dataBitIndex pos)) := by
  simp only [verify_eq, verify_syndrome, verify_parity, ← BitVec.twoPow_eq]
  cases odd (code ^^^ encode data) <;> rfl

/-- The crate's outcome as a decoder's verdict. -/
def ScrubOutcome.verdict : ScrubOutcome → Verdict 64
  | .clean => .clean
  | .corrected d => .corrected d
  | .uncorrectable => .uncorrectable

/-- `verify` as a decoder of 72-bit words. -/
def verifyWord (x : Word 64 8) : Verdict 64 := (verify x.data x.check).verdict

/-- A syndrome agreeing with a column in its low bits and in parity is
that column. -/
theorem syndrome_eq_encode {s : U8} {d : U64} (hodd : odd s = odd d)
    (hpos : (s &&& 0x7f).setWidth 32 = dataSyndrome d) : s = encode d := by
  refine BitVec.xor_eq_zero_iff.mp (low_eq_zero _ ?_ ?_)
  · rw [xor_and_distrib, encode_and_mask, BitVec.setWidth_xor, codeLow_setWidth, hpos,
      BitVec.xor_self]
  · rw [BitWeight.odd_xor, odd_encode, hodd, Bool.xor_self]

/-- On a syndrome of odd weight `verify` corrects or gives up. -/
theorem verify_odd {data : U64} {code s : U8} (hs : code ^^^ encode data = s)
    (hodd : odd s = true) :
    verify data code =
      let pos : U32 := (s &&& 0x7f).setWidth 32
      if pos = 0#32 then .corrected data
      else if pos.toNat > POSITIONS then .uncorrectable
      else if isParityPos pos then .corrected data
      else .corrected (data ^^^ single 64 (dataBitIndex pos)) := by
  simp only [verify_eq_syndrome, hs, hodd, Bool.not_true, Bool.false_eq_true, if_true, if_false]

/-- A single shadow bit flipped: the data is left alone. -/
theorem verify_check_flip {data : U64} {code s : U8} (hs : code ^^^ encode data = s)
    (hw : weight s = 1) : verify data code = .corrected data := by
  have hodd : odd s = true := by rw [odd, hw]; rfl
  rw [verify_odd hs hodd]
  rcases parity_position s hw with h0 | ⟨hle, hpar⟩
  · rw [if_pos h0]
  · simp only [Nat.not_lt.mpr hle, hpar, if_true, if_false, ite_self]

/-- A single data bit flipped: the syndrome is its column, and the
column's position maps back to the bit. -/
theorem verify_data_flip {data : U64} {code : U8} {i : Nat} (hi : i < 64)
    (hs : code ^^^ encode data = encode (single 64 i)) :
    verify data code = .corrected (data ^^^ single 64 i) := by
  obtain ⟨hidx, hne, hle, hpar⟩ := column_position i hi
  have hodd : odd (encode (single 64 i)) = true := by
    rw [odd_encode, BitWeight.odd_single hi]
  have hpos : (encode (single 64 i) &&& 0x7f).setWidth 32 = dataSyndrome (single 64 i) := by
    rw [encode_and_mask, codeLow_setWidth]
  rw [verify_odd hs hodd]
  simp only [hpos, hidx, hne, Nat.not_lt.mpr hle, hpar, Bool.false_eq_true, if_false]

/-- Neither clean, nor a shadow bit, nor a column: given up. -/
theorem verify_other {data : U64} {code s : U8} (hs : code ^^^ encode data = s)
    (h0 : s ≠ 0#8) (hw : weight s ≠ 1) (hcol : ∀ i < 64, s ≠ encode (single 64 i)) :
    verify data code = .uncorrectable := by
  cases hodd : odd s with
  | false =>
      simp only [verify_eq_syndrome, hs, hodd, Bool.not_false, if_true]
      exact if_neg fun hpos => h0 (low_eq_zero s hpos hodd)
  | true =>
      have hparity := fun h => hw (weight_of_parity_position s hodd h)
      rw [verify_odd hs hodd]
      simp only [if_neg fun h => hparity (Or.inl h), if_neg fun h => hparity (Or.inr h)]
      refine if_pos (Nat.lt_of_not_le fun hle => ?_)
      obtain ⟨hlt, hsyn⟩ := dataBitIndex_spec (fun h => hparity (Or.inl h)) hle
        (Bool.eq_false_iff.mpr fun h => hparity (Or.inr h))
      exact hcol _ hlt (syndrome_eq_encode (by rw [hodd, BitWeight.odd_single hlt]) hsyn.symm)

/-- **The codec is a radius-one decoder.** -/
theorem verifyWord_isRadiusOne : IsRadiusOne softEccCode verifyWord := by
  refine Code.isRadiusOne_of_syndrome (fun x hs => ?_) (fun x hw => ?_)
    (fun x i hi hs => ?_) (fun x h0 hw hcol => ?_)
  · have hs' : x.check ^^^ encode x.data = 0#8 := hs
    simp only [verifyWord, verify_eq_syndrome, hs']
    rfl
  · rw [verifyWord, verify_check_flip rfl hw]; rfl
  · rw [verifyWord, verify_data_flip hi hs]; rfl
  · rw [verifyWord, verify_other rfl h0 hw hcol]; rfl

/-! ## Distance four -/

/-- No data bit has a parity position, where the single shadow bits are. -/
theorem weight_column : ∀ i < 64, weight (encode (single 64 i)) ≠ 1 := by
  intro i hi hone
  obtain ⟨-, hne, -, hpos⟩ := column_position i hi
  have hlow : (encode (single 64 i) &&& 0x7f).setWidth 32 = dataSyndrome (single 64 i) := by
    rw [encode_and_mask, codeLow_setWidth]
  rcases parity_position _ hone with h0 | ⟨-, hparity⟩
  · exact hne (hlow.symm.trans h0)
  · rw [hlow, hpos] at hparity
    cases hparity

theorem column_inj {i j : Nat} (hi : i < 64) (hj : j < 64)
    (h : encode (single 64 i) = encode (single 64 j)) : i = j := by
  have hsyn : dataSyndrome (single 64 i) = dataSyndrome (single 64 j) := by
    rw [← codeLow_setWidth, ← codeLow_setWidth, ← encode_and_mask, ← encode_and_mask, h]
  rw [← (column_position i hi).1, ← (column_position j hj).1, hsyn]

theorem softEccCode_minDist : softEccCode.MinDist 4 :=
  softEccCode_even.minDist_four weight_column fun _ hi _ hj h => column_inj hi hj h

/-! ## What verify decides -/

theorem verdict_inj {a b : ScrubOutcome} (h : a.verdict = b.verdict) : a = b := by
  cases a <;> cases b <;> cases h <;> rfl

theorem verify_eq_iff {data : U64} {code : U8} {o : ScrubOutcome} :
    verify data code = o ↔ verifyWord ⟨data, code⟩ = o.verdict :=
  ⟨fun h => congrArg ScrubOutcome.verdict h, verdict_inj⟩

theorem verify_clean_iff {data : U64} {code : U8} :
    verify data code = .clean ↔ code = encode data :=
  verify_eq_iff.trans (verifyWord_isRadiusOne.clean_iff ⟨data, code⟩)

theorem verify_corrected_iff {data : U64} {code : U8} {d : U64} :
    verify data code = .corrected d ↔ Word.dist ⟨data, code⟩ (softEccCode.word d) = 1 :=
  verify_eq_iff.trans (verifyWord_isRadiusOne.corrected_iff ⟨data, code⟩ d)

theorem verify_encode (data : U64) : verify data (encode data) = .clean :=
  verify_clean_iff.mpr rfl

/-- **`verify` is exactly the radius-one decoder** of `{(d, encode d)}`,
and the shift of its last branch never leaves the word. -/
theorem verify_radiusOne (data : U64) (code : U8) :
    (verify data code = .clean ↔ code = encode data)
      ∧ (∀ d, verify data code = .corrected d
          ↔ Word.dist ⟨data, code⟩ ⟨d, encode d⟩ = 1)
      ∧ (∀ d d', Word.dist ⟨data, code⟩ ⟨d, encode d⟩ = 1 →
          Word.dist ⟨data, code⟩ ⟨d', encode d'⟩ = 1 → d = d')
      ∧ (verify data code = .uncorrectable
          ↔ ∀ d, 2 ≤ Word.dist ⟨data, code⟩ ⟨d, encode d⟩)
      ∧ (∀ pos, pos = dataSyndrome data ^^^ (code &&& 0x7f).setWidth 32 →
          pos ≠ 0#32 → pos.toNat ≤ POSITIONS → isParityPos pos = false →
          dataBitIndex pos < 64) := by
  refine ⟨verify_clean_iff, fun _ => verify_corrected_iff, fun d d' h h' => ?_,
    verify_eq_iff.trans (verifyWord_isRadiusOne.uncorrectable_iff ⟨data, code⟩),
    fun pos _ h0 hle hpar => (dataBitIndex_spec h0 hle hpar).1⟩
  have hd : verify data code = .corrected d := verify_corrected_iff.mpr h
  have hd' : verify data code = .corrected d' := verify_corrected_iff.mpr h'
  exact ScrubOutcome.corrected.inj (hd.symm.trans hd')

/-- **Double errors are detected**, distinct codewords differ in four bits
or more, and the parity of the error pattern rules out one answer. -/
theorem verify_double_error (d : U64) :
    (∀ p q : Fin 72, p ≠ q →
        let x : Word 64 8 := ⟨d, encode d⟩ ^^^ Word.unit p ^^^ Word.unit q
        verify x.data x.check = .uncorrectable)
      ∧ (∀ d', d ≠ d' → 4 ≤ Word.dist ⟨d, encode d⟩ ⟨d', encode d'⟩)
      ∧ ∀ e : Word 64 8, let x := ⟨d, encode d⟩ ^^^ e
          (e.weight % 2 = 0 → ∀ d', verify x.data x.check ≠ .corrected d')
            ∧ (e.weight % 2 = 1 → verify x.data x.check ≠ .clean) := by
  have hdec := verifyWord_isRadiusOne
  refine ⟨fun p q hpq => ?_, fun d' hd => softEccCode_minDist.dist_word_word hd,
    fun e => ⟨fun he d' hc => ?_, fun he hc => ?_⟩⟩
  · exact verify_eq_iff.mpr (hdec.double_error softEccCode_minDist d hpq)
  · refine hdec.even_error softEccCode_even d d' ?_ (verify_eq_iff.mp hc)
    rw [Word.odd_eq_weight, he]; rfl
  · refine hdec.odd_error softEccCode_even d ?_ (verify_eq_iff.mp hc)
    rw [Word.odd_eq_weight, he]; rfl

/-- **What `verify` decides depends on the error pattern only**: the verdict
on a sealed word with errors `e` and `f` in it is that on `e` and `f`
themselves, undetected patterns included. -/
theorem verify_error_pattern :
    (∀ a b : U64, encode (a ^^^ b) = encode a ^^^ encode b)
      ∧ ∀ (d e : U64) (f : U8),
        (verify (d ^^^ e) (encode d ^^^ f) = .clean ↔ verify e f = .clean)
          ∧ (verify (d ^^^ e) (encode d ^^^ f) = .uncorrectable ↔ verify e f = .uncorrectable)
          ∧ ∀ x, verify (d ^^^ e) (encode d ^^^ f) = .corrected (d ^^^ x)
              ↔ verify e f = .corrected x := by
  have hdec := verifyWord_isRadiusOne
  refine ⟨encode_xor, fun d e f => ⟨?_, ?_, fun x => ?_⟩⟩
  · rw [verify_eq_iff, verify_eq_iff]
    exact hdec.clean_word_xor d ⟨e, f⟩
  · rw [verify_eq_iff, verify_eq_iff]
    exact hdec.uncorrectable_word_xor d ⟨e, f⟩
  · rw [verify_eq_iff, verify_eq_iff]
    exact hdec.corrected_word_xor d x ⟨e, f⟩

end Rustlux
