import Rustlux.SpliceGuard

/-!
# The tested splice guard

`rust/rustlux_mm/src/page_cache.rs` and `splice_guard.rs`: the crate's
`rustlux_check_splice_write` translates mode and flags of an inode into
`InodeFlags` and asks for a `PageWritePermit`, a token that is only handed out
when four checks have passed.

The function of this name that runs in a kernel makes three checks in another
order. The two return the same errno except on append-only files, which the
kernel lets through, and on immutable files of a read-only filesystem, which
it refuses with the other errno (`checkSpliceWrite_agree_iff`).
-/

namespace Rustlux

/-! ## The permit -/

structure InodeFlags where
  raw : U32
deriving DecidableEq, Repr

namespace InodeFlags

def SUID : InodeFlags := ⟨0o4000⟩
def SGID : InodeFlags := ⟨0o2000⟩
def IMMUTABLE : InodeFlags := ⟨1 <<< 3⟩
def APPEND_ONLY : InodeFlags := ⟨1 <<< 4⟩

def fromRaw (raw : U32) : InodeFlags := ⟨raw⟩

def contains (flags other : InodeFlags) : Bool := flags.raw &&& other.raw != 0

end InodeFlags

inductive PageWriteError where
  | suidOrSgid
  | readOnlyFilesystem
  | immutable
  | appendOnly
  | permissionDenied
deriving DecidableEq, Repr

/-- The token; it stands for the checks that `new` has made. -/
structure PageWritePermit (inodeFlags : InodeFlags) (sbReadonly : Bool) : Type where
  notSetId : ¬(inodeFlags.contains .SUID || inodeFlags.contains .SGID) = true
  writable : ¬sbReadonly = true
  notImmutable : ¬inodeFlags.contains .IMMUTABLE = true
  notAppendOnly : ¬inodeFlags.contains .APPEND_ONLY = true

def PageWritePermit.new (inodeFlags : InodeFlags) (sbReadonly : Bool) :
    Except PageWriteError (PageWritePermit inodeFlags sbReadonly) :=
  if hset : inodeFlags.contains .SUID || inodeFlags.contains .SGID then .error .suidOrSgid
  else if hro : sbReadonly then .error .readOnlyFilesystem
  else if himm : inodeFlags.contains .IMMUTABLE then .error .immutable
  else if happ : inodeFlags.contains .APPEND_ONLY then .error .appendOnly
  else .ok ⟨hset, hro, himm, happ⟩

/-! ## The guard -/

namespace Crate

def EPERM : Int := -1
def EROFS : Int := -30
def EACCES : Int := -13

end Crate

/-- The errno of a request for a permit. -/
def permitErrno {inodeFlags : InodeFlags} {sbReadonly : Bool} :
    Except PageWriteError (PageWritePermit inodeFlags sbReadonly) → Int
  | .ok _ => 0
  | .error .suidOrSgid => Crate.EPERM
  | .error .readOnlyFilesystem => Crate.EROFS
  | .error .immutable => Crate.EPERM
  | .error .appendOnly => Crate.EPERM
  | .error .permissionDenied => Crate.EACCES

/-- `rustlux_check_splice_write` of the crate. -/
def rustluxCheckSpliceWrite (iMode iFlags : U32) (sbReadonly : U8) : Int :=
  let flagsRaw : U32 := 0
  let flagsRaw := if iMode &&& S_ISUID != 0 then flagsRaw ||| InodeFlags.SUID.raw else flagsRaw
  let flagsRaw := if iMode &&& S_ISGID != 0 then flagsRaw ||| InodeFlags.SGID.raw else flagsRaw
  let flagsRaw := if iFlags &&& 0x10 != 0 then flagsRaw ||| InodeFlags.IMMUTABLE.raw else flagsRaw
  let flagsRaw :=
    if iFlags &&& 0x20 != 0 then flagsRaw ||| InodeFlags.APPEND_ONLY.raw else flagsRaw
  let inodeFlags := InodeFlags.fromRaw flagsRaw
  permitErrno (PageWritePermit.new inodeFlags (sbReadonly != 0))

/-! ## Against the kernel -/

/-- The flag translation loses nothing: the verdict is a cascade over the five
facts that mode, flags and superblock hold. -/
theorem checkSpliceWrite_eq (iMode iFlags : U32) (sbReadonly : U8) :
    rustluxCheckSpliceWrite iMode iFlags sbReadonly
      = if (iMode &&& S_ISUID != 0) || (iMode &&& S_ISGID != 0) then -EPERM
        else if sbReadonly != 0 then -EROFS
        else if iFlags &&& 0x10 != 0 then -EPERM
        else if iFlags &&& 0x20 != 0 then -EPERM
        else 0 := by
  rw [rustluxCheckSpliceWrite]
  generalize (iMode &&& S_ISUID != 0) = suid
  generalize (iMode &&& S_ISGID != 0) = sgid
  generalize (iFlags &&& 0x10 != 0) = immutable
  generalize (iFlags &&& 0x20 != 0) = appendOnly
  generalize (sbReadonly != 0) = rdonly
  cases suid <;> cases sgid <;> cases immutable <;> cases appendOnly <;> cases rdonly <;> rfl

theorem setId_ne_zero (iMode : U32) :
    (iMode &&& (S_ISUID ||| S_ISGID) != 0)
      = ((iMode &&& S_ISUID != 0) || (iMode &&& S_ISGID != 0)) := by
  rw [BitVec.and_or_distrib_left, Bool.eq_iff_iff, Bool.or_eq_true, bne_iff_ne, bne_iff_ne,
    bne_iff_ne, ne_eq, BitVec.ofNat_eq_ofNat, BitVec.or_eq_zero_iff, not_and_or]

/-- The cascades of the two guards. -/
theorem cascades_eq_iff (setId rdonly immutable appendOnly : Bool) :
    (if setId then -EPERM
        else if rdonly then -EROFS
        else if immutable then -EPERM
        else if appendOnly then -EPERM
        else 0)
      = (if setId then -EPERM
        else if immutable then -EPERM
        else if rdonly then -EROFS
        else 0)
      ↔ setId = true ∨ rdonly = true ∧ immutable = false
        ∨ rdonly = false ∧ (immutable = true ∨ appendOnly = false) := by
  cases setId <;> cases rdonly <;> cases immutable <;> cases appendOnly <;> decide

/-- **The two guards agree exactly** on files with a set-id bit, on a read-only
filesystem on files that are not immutable, and on a writable one on files that
are immutable or not append-only. -/
theorem checkSpliceWrite_agree_iff (iMode iFlags : U32) (sbReadonly : U8) :
    rustluxCheckSpliceWrite iMode iFlags sbReadonly
        = Kernel.rustluxCheckSpliceWrite iMode iFlags sbReadonly
      ↔ iMode &&& (S_ISUID ||| S_ISGID) ≠ 0
        ∨ sbReadonly ≠ 0 ∧ iFlags &&& 0x10 = 0
        ∨ sbReadonly = 0 ∧ (iFlags &&& 0x10 ≠ 0 ∨ iFlags &&& 0x20 = 0) := by
  have hkernel : Kernel.rustluxCheckSpliceWrite iMode iFlags sbReadonly
      = if iMode &&& (S_ISUID ||| S_ISGID) != 0 then -EPERM
        else if iFlags &&& 0x10 != 0 then -EPERM
        else if sbReadonly != 0 then -EROFS
        else 0 := rfl
  rw [checkSpliceWrite_eq, hkernel, ← setId_ne_zero, cascades_eq_iff]
  simp only [bne_iff_ne, bne_eq_false_iff_eq]

/-- An append-only file. -/
theorem append_only_file_let_through :
    rustluxCheckSpliceWrite 0o644 0x20 0 = -EPERM
      ∧ Kernel.rustluxCheckSpliceWrite 0o644 0x20 0 = 0 := by
  decide

end Rustlux
