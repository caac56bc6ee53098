import Rustlux.Prim

/-!
# The splice guard

`rustlux_check_splice_perm` of patch 0004, which `do_splice_from` consults
before it touches a page. There are two builds of it: under `CONFIG_RUST` it
hands the raw inode flags to `rust/kernel/rustlux.rs` (patch 0005), and
otherwise it is the inline C fallback, "same logic, no Rust dependency".

The two read the immutable bit from different flag words: the Rust side tests
`FS_IMMUTABLE_FL`, a bit of the on-disk and ioctl namespace, while
`inode->i_flags` holds the in-memory `S_*` bits that `IS_IMMUTABLE` tests.
-/

namespace Rustlux

/-- What the guard reads of a `struct inode`: its mode, its in-memory flags,
and whether its superblock is read-only. -/
structure Inode where
  iMode : U32
  iFlags : U32
  sbRdonly : Bool
deriving DecidableEq, Repr

def S_ISUID : U32 := 0o4000
def S_ISGID : U32 := 0o2000

/-- `S_IMMUTABLE` of `include/linux/fs.h`. -/
def S_IMMUTABLE : U32 := 1 <<< 3

def EPERM : Int := 1
def EROFS : Int := 30

def IS_IMMUTABLE (inode : Inode) : Bool := inode.iFlags &&& S_IMMUTABLE != 0
def IS_RDONLY (inode : Inode) : Bool := inode.sbRdonly

/-! ## The two builds -/

namespace Kernel

def FS_IMMUTABLE_FL : U32 := 0x10

/-- `rustlux_check_splice_write` of `rust/kernel/rustlux.rs`. -/
def rustluxCheckSpliceWrite (iMode iFlags : U32) (sbReadonly : U8) : Int :=
  if iMode &&& (S_ISUID ||| S_ISGID) != 0 then -EPERM
  else if iFlags &&& FS_IMMUTABLE_FL != 0 then -EPERM
  else if sbReadonly != 0 then -EROFS
  else 0

/-- `rustlux_check_splice_perm` under `CONFIG_RUST`. -/
def rustluxCheckSplicePerm (inode : Inode) : Int :=
  rustluxCheckSpliceWrite inode.iMode inode.iFlags (if IS_RDONLY inode then 1 else 0)

end Kernel

namespace CFallback

/-- `rustlux_check_splice_perm` without `CONFIG_RUST`. -/
def rustluxCheckSplicePerm (inode : Inode) : Int :=
  if inode.iMode &&& (S_ISUID ||| S_ISGID) != 0 then -EPERM
  else if IS_IMMUTABLE inode then -EPERM
  else if IS_RDONLY inode then -EROFS
  else 0

end CFallback

/-! ## Where they part -/

/-- The cascade both builds share, over the three facts it looks at. -/
def spliceVerdict (suidOrSgid immutable rdonly : Bool) : Int :=
  if suidOrSgid then -EPERM
  else if immutable then -EPERM
  else if rdonly then -EROFS
  else 0

theorem kernel_splicePerm_eq (inode : Inode) :
    Kernel.rustluxCheckSplicePerm inode
      = spliceVerdict (inode.iMode &&& (S_ISUID ||| S_ISGID) != 0)
          (inode.iFlags &&& Kernel.FS_IMMUTABLE_FL != 0) inode.sbRdonly := by
  obtain ⟨iMode, iFlags, sbRdonly⟩ := inode
  cases sbRdonly <;> rfl

theorem cFallback_splicePerm_eq (inode : Inode) :
    CFallback.rustluxCheckSplicePerm inode
      = spliceVerdict (inode.iMode &&& (S_ISUID ||| S_ISGID) != 0)
          (inode.iFlags &&& S_IMMUTABLE != 0) inode.sbRdonly :=
  rfl

theorem spliceVerdict_eq_iff (mode imm imm' rdonly : Bool) :
    spliceVerdict mode imm rdonly = spliceVerdict mode imm' rdonly
      ↔ mode = true ∨ imm = imm' := by
  cases mode <;> cases imm <;> cases imm' <;> cases rdonly <;> decide

/-- **The builds agree exactly when the two immutable bits do**, or when a
set-id bit has already settled the matter. -/
theorem splicePerm_agree_iff (inode : Inode) :
    Kernel.rustluxCheckSplicePerm inode = CFallback.rustluxCheckSplicePerm inode
      ↔ inode.iMode &&& (S_ISUID ||| S_ISGID) ≠ 0
        ∨ (inode.iFlags &&& Kernel.FS_IMMUTABLE_FL ≠ 0 ↔ inode.iFlags &&& S_IMMUTABLE ≠ 0) := by
  rw [kernel_splicePerm_eq, cFallback_splicePerm_eq, spliceVerdict_eq_iff, bne_iff_ne,
    Bool.eq_iff_iff, bne_iff_ne, bne_iff_ne]

/-- An ordinary file under `chattr +i`: `S_IMMUTABLE` set, nothing else. -/
theorem splicePerm_immutable_file :
    Kernel.rustluxCheckSplicePerm ⟨0o644, 1 <<< 3, false⟩ = 0
      ∧ CFallback.rustluxCheckSplicePerm ⟨0o644, 1 <<< 3, false⟩ = -EPERM := by
  decide

end Rustlux
