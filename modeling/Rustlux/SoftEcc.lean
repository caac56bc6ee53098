import Rustlux.BitWeight
import Rustlux.Prim

/-!
# The SECDED codec, three times

Hamming(72,64) as the repository writes it: 71 codeword positions, the
parity bits at the powers of two, the 64 data bits at the remaining
positions in order, and one overall-parity bit (bit 7 of the code byte).

The codec exists in three hand-mirrored copies, each translated here
under its own name:

- the tested crate `rust/rustlux_mm/src/soft_ecc.rs` (`encode`, `verify`
  and the FFI wrappers);
- the in-kernel `rust/kernel/rustlux.rs` of patch 0005 (`Kernel`), with
  the position-to-bit loop inlined and no enum in between;
- the C fallback of patch 0009 (`CFallback`), with early returns.
-/

open BitWeight (weight)

namespace Rustlux

/-! ## The crate -/

/-- Number of positional codeword bits (64 data + 7 parity). -/
def POSITIONS : Nat := 71

/-- Outcome of verifying one protected word. -/
inductive ScrubOutcome where
  | clean
  | corrected (data : U64)
  | uncorrectable
deriving DecidableEq, Repr

/-- FFI mirror of `ScrubOutcome`: status 0 is clean, 1 corrected, -1
uncorrectable. -/
structure SoftEccResult where
  status : Int
  data : U64
deriving DecidableEq, Repr

/-- `u64::count_ones`, `hweight64` and their 8-bit siblings. -/
def countOnes {w : Nat} (x : BitVec w) : Nat := weight x

def isParityPos (pos : U32) : Bool := pos &&& (pos - 1) == 0

/-- One turn of the loop of `dataSyndrome`, on `(syn, bit)`. -/
def dataSyndromeStep (data : U64) (acc : U32 × Nat) (pos : U32) : U32 × Nat :=
  if isParityPos pos then acc
  else (if (data >>> acc.2) &&& 1 == 1 then acc.1 ^^^ pos else acc.1, acc.2 + 1)

/-- The `u32` values of the half-open range `1..n`. -/
def positionsBelow (n : Nat) : List U32 := (List.range' 1 (n - 1)).map (BitVec.ofNat 32)

/-- Xor of the codeword positions of every set data bit. -/
def dataSyndrome (data : U64) : U32 :=
  ((positionsBelow (POSITIONS + 1)).foldl (dataSyndromeStep data) (0, 0)).1

/-- Maps a codeword position back to its data bit index. -/
def dataBitIndex (errPos : U32) : Nat :=
  (positionsBelow errPos.toNat).foldl
    (fun idx pos => if !isParityPos pos then idx + 1 else idx) 0

/-- The 8-bit SECDED code of a 64-bit word. -/
def encode (data : U64) : U8 :=
  let code : U8 := (dataSyndrome data &&& 0x7f).setWidth 8
  if (countOnes data + countOnes code) &&& 1 == 1 then code ||| 0x80 else code

/-- Verifies a word against its code, correcting single-bit flips. -/
def verify (data : U64) (code : U8) : ScrubOutcome :=
  let syn := dataSyndrome data ^^^ (code &&& 0x7f).setWidth 32
  let parityOk := (countOnes data + countOnes code) &&& 1 == 0
  match syn, parityOk with
  | 0#32, true => .clean
  | 0#32, false => .corrected data
  | _, true => .uncorrectable
  | pos, false =>
      if pos.toNat > POSITIONS then .uncorrectable
      else if isParityPos pos then .corrected data
      else .corrected (data ^^^ (1#64 <<< dataBitIndex pos))

def rustluxSofteccEncode (data : U64) : U8 := encode data

def rustluxSofteccVerify (data : U64) (code : U8) : SoftEccResult :=
  match verify data code with
  | .clean => { status := 0, data }
  | .corrected fixed => { status := 1, data := fixed }
  | .uncorrectable => { status := -1, data }

/-! ## The in-kernel Rust copy -/

namespace Kernel

def SECC_POSITIONS : Nat := 71

def seccIsParityPos (pos : U32) : Bool := isParityPos pos

def seccDataSyndrome (data : U64) : U32 :=
  ((positionsBelow (SECC_POSITIONS + 1)).foldl (dataSyndromeStep data) (0, 0)).1

def rustluxSofteccEncode (data : U64) : U8 :=
  let code : U8 := (seccDataSyndrome data &&& 0x7f).setWidth 8
  if (countOnes data + countOnes code) &&& 1 == 1 then code ||| 0x80 else code

def rustluxSofteccVerify (data : U64) (code : U8) : SoftEccResult :=
  let syn := seccDataSyndrome data ^^^ (code &&& 0x7f).setWidth 32
  let parityOk := (countOnes data + countOnes code) &&& 1 == 0
  match syn, parityOk with
  | 0#32, true => { status := 0, data }
  | 0#32, false => { status := 1, data }
  | _, true => { status := -1, data }
  | pos, false =>
      if pos.toNat > SECC_POSITIONS then { status := -1, data }
      else if seccIsParityPos pos then { status := 1, data }
      else
        let bit := (positionsBelow pos.toNat).foldl
          (fun bit p => if !seccIsParityPos p then bit + 1 else bit) 0
        { status := 1, data := data ^^^ (1#64 <<< bit) }

end Kernel

/-! ## The C fallback -/

def RUSTLUX_SECC_CLEAN : Int := 0
def RUSTLUX_SECC_CORRECTED : Int := 1
def RUSTLUX_SECC_UNCORRECTABLE : Int := -1

namespace CFallback

def SECC_POSITIONS : Nat := 71

def seccIsParityPos (pos : U32) : Bool := isParityPos pos

def seccDataSyndrome (data : U64) : U32 :=
  ((positionsBelow (SECC_POSITIONS + 1)).foldl (dataSyndromeStep data) (0, 0)).1

/-- The `u8` declaration of `code` narrows the masked syndrome. -/
def rustluxSofteccEncode (data : U64) : U8 :=
  let code : U8 := (seccDataSyndrome data &&& 0x7f).setWidth 8
  if (countOnes data + countOnes code) &&& 1 != 0 then code ||| 0x80 else code

def rustluxSofteccVerify (data : U64) (code : U8) : SoftEccResult :=
  let r : SoftEccResult := { status := RUSTLUX_SECC_CLEAN, data }
  let syn := seccDataSyndrome data ^^^ (code &&& 0x7f).setWidth 32
  let parityOk := !((countOnes data + countOnes code) &&& 1 != 0)
  if syn == 0#32 && parityOk then r
  else if syn == 0#32 && !parityOk then { r with status := RUSTLUX_SECC_CORRECTED }
  else if syn != 0#32 && parityOk then { r with status := RUSTLUX_SECC_UNCORRECTABLE }
  else if syn.toNat > SECC_POSITIONS then { r with status := RUSTLUX_SECC_UNCORRECTABLE }
  else if seccIsParityPos syn then { r with status := RUSTLUX_SECC_CORRECTED }
  else
    let bit := (positionsBelow syn.toNat).foldl
      (fun bit pos => if !seccIsParityPos pos then bit + 1 else bit) 0
    { status := RUSTLUX_SECC_CORRECTED, data := data ^^^ (1#64 <<< bit) }

end CFallback

/-! ## The copies agree

The two copies that run in a kernel are brought back to the crate's
functions once, so that everything about the codec is proved of the
crate's `encode` and `verify` only. -/

/-- `verify` with its match read as a chain of tests. -/
theorem verify_eq (data : U64) (code : U8) :
    verify data code =
      let syn := dataSyndrome data ^^^ (code &&& 0x7f).setWidth 32
      let parityOk := (countOnes data + countOnes code) &&& 1 == 0
      if syn = 0#32 then if parityOk then .clean else .corrected data
      else if parityOk then .uncorrectable
      else if syn.toNat > POSITIONS then .uncorrectable
      else if isParityPos syn then .corrected data
      else .corrected (data ^^^ (1#64 <<< dataBitIndex syn)) := by
  simp only [verify]
  split <;> simp_all

theorem kernel_encode_eq (data : U64) : Kernel.rustluxSofteccEncode data = encode data := rfl

theorem kernel_verify_eq (data : U64) (code : U8) :
    Kernel.rustluxSofteccVerify data code = rustluxSofteccVerify data code := by
  have hsyn : Kernel.seccDataSyndrome data = dataSyndrome data := rfl
  simp only [Kernel.rustluxSofteccVerify, rustluxSofteccVerify, verify_eq, hsyn]
  generalize dataSyndrome data ^^^ (code &&& 0x7f).setWidth 32 = syn
  generalize ((countOnes data + countOnes code) &&& 1 == 0) = parityOk
  split
  · rfl
  · rfl
  · rename_i h
    rw [if_neg h]
    rfl
  · rename_i h
    rw [if_neg h]
    show (if syn.toNat > POSITIONS then _ else if isParityPos syn then _ else _) = _
    simp only [Bool.false_eq_true, if_false]
    split
    · rfl
    · split <;> rfl

theorem cFallback_encode_eq (data : U64) :
    CFallback.rustluxSofteccEncode data = encode data := by
  have hodd : ∀ n : Nat, (n &&& 1 != 0) = (n &&& 1 == 1) := fun n => by
    rw [Nat.and_one_is_mod]
    rcases Nat.mod_two_eq_zero_or_one n with h | h <;> simp [h]
  simp only [CFallback.rustluxSofteccEncode, hodd]
  rfl

theorem cFallback_verify_eq (data : U64) (code : U8) :
    CFallback.rustluxSofteccVerify data code = rustluxSofteccVerify data code := by
  have hsyn : CFallback.seccDataSyndrome data = dataSyndrome data := rfl
  simp only [CFallback.rustluxSofteccVerify, rustluxSofteccVerify, verify_eq, hsyn,
    bne, Bool.not_not]
  generalize dataSyndrome data ^^^ (code &&& 0x7f).setWidth 32 = syn
  generalize ((countOnes data + countOnes code) &&& 1 == 0) = parityOk
  by_cases h0 : syn = 0#32
  · cases parityOk <;> simp [h0] <;> rfl
  · cases parityOk
    · show _ = _
      simp only [h0, beq_iff_eq, if_false, Bool.and_false, Bool.not_false, Bool.and_true,
        Bool.false_eq_true]
      show (if syn.toNat > POSITIONS then _ else if isParityPos syn then _ else _) = _
      split
      · rfl
      · split <;> rfl
    · simp [h0]; rfl

/-- **The three copies are interchangeable.** -/
theorem softecc_copies_agree (data : U64) :
    (rustluxSofteccEncode data = Kernel.rustluxSofteccEncode data
        ∧ rustluxSofteccEncode data = CFallback.rustluxSofteccEncode data)
      ∧ ∀ code,
          rustluxSofteccVerify data code = Kernel.rustluxSofteccVerify data code
            ∧ rustluxSofteccVerify data code = CFallback.rustluxSofteccVerify data code :=
  ⟨⟨(kernel_encode_eq data).symm, (cFallback_encode_eq data).symm⟩,
    fun code => ⟨(kernel_verify_eq data code).symm, (cFallback_verify_eq data code).symm⟩⟩

end Rustlux
