import Mathlib.Data.List.Forall2
import Rustlux.ByteMem
import Rustlux.SoftEccCode

/-!
# The scrubber

`mm/rustlux_softecc.c` of patch 0009: protected regions with their shadow
codes, the pass that verifies, corrects and re-encodes every word, and the
counters and messages it leaves behind.

The pass is a loop over regions around a loop over words, all over one
shared memory. The lemmas here flatten it: on disjoint regions a pass acts
on every 72-bit word (data plus code) on its own, by `repair`, and counts
the words `verify` corrected and those it gave up on (`scrubPass_spec`).

`set_memory_rw` and `set_memory_ro` only flip a page's permission, so they
appear as the page table bit they set.
-/

open LinearCode (Word)

namespace Rustlux

/-! ## Data -/

/-- The two builds of the codec the scrubber can be linked with. -/
inductive Build where
  | rust
  | cFallback
deriving DecidableEq, Repr

def Build.encode : Build → U64 → U8
  | .rust => Kernel.rustluxSofteccEncode
  | .cFallback => CFallback.rustluxSofteccEncode

def Build.verify : Build → U64 → U8 → SoftEccResult
  | .rust => Kernel.rustluxSofteccVerify
  | .cFallback => CFallback.rustluxSofteccVerify

/-- `struct softecc_region`; the code array has one byte per word. -/
@[ext] structure SoftEccRegion where
  name : String
  addr : Nat
  words : Nat
  codes : List U8
  readonly : Bool
  codes_length : codes.length = words

/-- The messages of a pass: `pr_warn` and `pr_alert`, with the region's
name and the word's address. -/
inductive Report where
  | corrected (name : String) (addr : Nat)
  | uncorrectable (name : String) (addr : Nat)
deriving DecidableEq, Repr

/-- What a pass reads and writes besides the regions. -/
structure Machine where
  mem : ByteMem
  pageRo : Nat → Bool
  corrected : U64
  uncorrectable : U64
  tainted : Bool
  log : List Report

/-- The whole state: the machine and the list `softecc_regions`. -/
structure SoftEcc extends Machine where
  regions : List SoftEccRegion

namespace SoftEccRegion

/-- The address of `r->addr[i]`. -/
def wordAddr (r : SoftEccRegion) (i : Nat) : Nat := r.addr + 8 * i

def code (r : SoftEccRegion) (i : Nat) : U8 := r.codes.getD i 0

def setCode (r : SoftEccRegion) (i : Nat) (c : U8) : SoftEccRegion :=
  { r with codes := r.codes.set i c, codes_length := by rw [List.length_set, r.codes_length] }

/-- The loop that encodes every word of the region as it stands. -/
def sealCodes (r : SoftEccRegion) (b : Build) (m : ByteMem) : SoftEccRegion :=
  { r with
    codes := (List.range r.words).map fun i => b.encode (m.load (r.wordAddr i) 64)
    codes_length := by rw [List.length_map, List.length_range] }

/-- The 72 bits protecting word `i`: the word in memory and its code. -/
def cell (r : SoftEccRegion) (m : ByteMem) (i : Nat) : Word 64 8 :=
  ⟨m.load (r.wordAddr i) 64, r.code i⟩

/-- Address `x` lies in one of the region's words. -/
def Covers (r : SoftEccRegion) (x : Nat) : Prop := r.addr ≤ x ∧ x < r.addr + 8 * r.words

/-- Where the region lies: its first address and its length in words. -/
def place (r : SoftEccRegion) : Nat × Nat := (r.addr, r.words)

/-- No address belongs to both regions. -/
def Disjoint (r r' : SoftEccRegion) : Prop := ∀ x, r.Covers x → ¬r'.Covers x

/-- Same region, up to the contents of the code array. -/
structure SameShape (r r' : SoftEccRegion) : Prop where
  name : r'.name = r.name
  addr : r'.addr = r.addr
  words : r'.words = r.words
  readonly : r'.readonly = r.readonly

theorem SameShape.wordAddr {r r' : SoftEccRegion} (h : r.SameShape r') (i : Nat) :
    r'.wordAddr i = r.wordAddr i := by
  rw [SoftEccRegion.wordAddr, h.addr, SoftEccRegion.wordAddr]

/-- Every code is the code of the word it stands beside. -/
def Sealed (r : SoftEccRegion) (m : ByteMem) : Prop :=
  ∀ i < r.words, r.code i = encode (m.load (r.wordAddr i) 64)

end SoftEccRegion

def SoftEcc.Sealed (S : SoftEcc) : Prop := ∀ r ∈ S.regions, r.Sealed S.mem

/-! ## The pass -/

/-- `(unsigned long)&r->addr[i] & PAGE_MASK`, with 4 KiB pages. -/
def pageOf (addr : Nat) : Nat := addr / 4096 * 4096

def setMemory (s : Machine) (page : Nat) (ro : Bool) : Machine :=
  { s with pageRo := fun p => if p = page then ro else s.pageRo p }

def softeccFixWord (s : Machine) (r : SoftEccRegion) (i : Nat) (good : U64) : Machine :=
  let page := pageOf (r.wordAddr i)
  let s := if r.readonly then setMemory s page false else s
  let s := { s with mem := s.mem.store (r.wordAddr i) good }
  if r.readonly then setMemory s page true else s

/-- The body of the loop of `softecc_scrub_region`. -/
def scrubWord (b : Build) (s : Machine) (r : SoftEccRegion) (i : Nat) :
    Machine × SoftEccRegion :=
  let word := s.mem.load (r.wordAddr i) 64
  let res := b.verify word (r.code i)
  if res.status = RUSTLUX_SECC_CORRECTED then
    let s := softeccFixWord s r i res.data
    ({ s with
        corrected := s.corrected + 1
        log := s.log ++ [.corrected r.name (r.wordAddr i)] },
      r.setCode i (b.encode res.data))
  else if res.status = RUSTLUX_SECC_UNCORRECTABLE then
    -- reseal so that each event is reported once
    ({ s with
        uncorrectable := s.uncorrectable + 1
        log := s.log ++ [.uncorrectable r.name (r.wordAddr i)]
        tainted := true },
      r.setCode i (b.encode word))
  else (s, r)

def softeccScrubRegion (b : Build) (s : Machine) (r : SoftEccRegion) :
    Machine × SoftEccRegion :=
  (List.range r.words).foldl (fun p i => scrubWord b p.1 p.2 i) (s, r)

/-- `list_for_each_entry` over the regions, each scrubbed in place. -/
def scrubRegions (b : Build) : Machine → List SoftEccRegion → Machine × List SoftEccRegion
  | s, [] => (s, [])
  | s, r :: rs =>
      let p := softeccScrubRegion b s r
      let q := scrubRegions b p.1 rs
      (q.1, p.2 :: q.2)

/-- One scrub pass over every registered region. -/
def scrubPass (b : Build) (S : SoftEcc) : SoftEcc :=
  let p := scrubRegions b S.toMachine S.regions
  { toMachine := p.1, regions := p.2 }

/-! ## One word

`repair` is what a pass does to a 72-bit word; every field of the state
after `scrubWord` is read off it. -/

@[simp] theorem build_encode_eq (b : Build) (data : U64) : b.encode data = encode data := by
  cases b
  · exact kernel_encode_eq data
  · exact cFallback_encode_eq data

@[simp] theorem build_verify_eq (b : Build) (data : U64) (code : U8) :
    b.verify data code = rustluxSofteccVerify data code := by
  cases b
  · exact kernel_verify_eq data code
  · exact cFallback_verify_eq data code

/-- The 72-bit word a pass leaves behind. -/
def repair (x : Word 64 8) : Word 64 8 :=
  match verify x.data x.check with
  | .clean => x
  | .corrected d => ⟨d, encode d⟩
  | .uncorrectable => ⟨x.data, encode x.data⟩

/-- Whether a pass counts the word as corrected. -/
def isCorrected (x : Word 64 8) : Bool :=
  match verify x.data x.check with
  | .corrected _ => true
  | _ => false

/-- Whether a pass counts the word as uncorrectable. -/
def isUncorrectable (x : Word 64 8) : Bool :=
  match verify x.data x.check with
  | .uncorrectable => true
  | _ => false

@[simp] theorem softeccFixWord_mem (s : Machine) (r : SoftEccRegion) (i : Nat) (good : U64) :
    (softeccFixWord s r i good).mem = s.mem.store (r.wordAddr i) good := by
  unfold softeccFixWord
  cases r.readonly <;> rfl

@[simp] theorem softeccFixWord_corrected (s : Machine) (r : SoftEccRegion) (i : Nat)
    (good : U64) : (softeccFixWord s r i good).corrected = s.corrected := by
  unfold softeccFixWord
  cases r.readonly <;> rfl

@[simp] theorem softeccFixWord_uncorrectable (s : Machine) (r : SoftEccRegion) (i : Nat)
    (good : U64) : (softeccFixWord s r i good).uncorrectable = s.uncorrectable := by
  unfold softeccFixWord
  cases r.readonly <;> rfl

namespace SoftEccRegion

theorem code_setCode (r : SoftEccRegion) {i : Nat} (hi : i < r.words) (c : U8) (j : Nat) :
    (r.setCode i c).code j = if j = i then c else r.code j := by
  have hlen : i < r.codes.length := by rw [r.codes_length]; exact hi
  simp only [code, setCode, List.getD_eq_getElem?_getD, List.getElem?_set, hlen]
  by_cases h : i = j
  · simp [h]
  · simp [h, Ne.symm h]

theorem setCode_code (r : SoftEccRegion) {i : Nat} (hi : i < r.words) :
    r.setCode i (r.code i) = r := by
  have hlen : i < r.codes.length := by rw [r.codes_length]; exact hi
  have hset : r.codes.set i (r.codes.getD i 0) = r.codes := by
    rw [List.getD_eq_getElem?_getD, List.getElem?_eq_getElem hlen, Option.getD_some,
      List.set_getElem_self]
  exact SoftEccRegion.ext rfl rfl rfl hset rfl

end SoftEccRegion

/-- What the loop body does, by the crate's verdict. -/
theorem scrubWord_eq (b : Build) (s : Machine) (r : SoftEccRegion) (i : Nat) :
    scrubWord b s r i =
      match verify (r.cell s.mem i).data (r.cell s.mem i).check with
      | .clean => (s, r)
      | .corrected d =>
          ({ softeccFixWord s r i d with
              corrected := s.corrected + 1
              log := (softeccFixWord s r i d).log ++ [.corrected r.name (r.wordAddr i)] },
            r.setCode i (encode d))
      | .uncorrectable =>
          ({ s with
              uncorrectable := s.uncorrectable + 1
              log := s.log ++ [.uncorrectable r.name (r.wordAddr i)]
              tainted := true },
            r.setCode i (encode (r.cell s.mem i).data)) := by
  simp only [scrubWord, build_verify_eq, build_encode_eq, rustluxSofteccVerify,
    SoftEccRegion.cell]
  cases verify (s.mem.load (r.wordAddr i) 64) (r.code i) <;>
    simp [RUSTLUX_SECC_CORRECTED, RUSTLUX_SECC_UNCORRECTABLE]

theorem scrubWord_mem (b : Build) (s : Machine) (r : SoftEccRegion) (i : Nat) :
    (scrubWord b s r i).1.mem = s.mem.store (r.wordAddr i) (repair (r.cell s.mem i)).data := by
  have hself : s.mem.store (r.wordAddr i) (s.mem.load (r.wordAddr i) 64) = s.mem :=
    ByteMem.store_load _ _ rfl
  rw [scrubWord_eq, repair]
  split
  · exact hself.symm
  · exact softeccFixWord_mem ..
  · exact hself.symm

theorem scrubWord_region (b : Build) (s : Machine) (r : SoftEccRegion) {i : Nat}
    (hi : i < r.words) :
    (scrubWord b s r i).2 = r.setCode i (repair (r.cell s.mem i)).check := by
  rw [scrubWord_eq, repair]
  split
  · exact (r.setCode_code hi).symm
  · rfl
  · rfl

theorem scrubWord_corrected (b : Build) (s : Machine) (r : SoftEccRegion) (i : Nat) :
    (scrubWord b s r i).1.corrected
      = s.corrected + BitVec.ofNat 64 (isCorrected (r.cell s.mem i)).toNat := by
  rw [scrubWord_eq, isCorrected]
  cases verify (r.cell s.mem i).data (r.cell s.mem i).check <;> simp

theorem scrubWord_uncorrectable (b : Build) (s : Machine) (r : SoftEccRegion) (i : Nat) :
    (scrubWord b s r i).1.uncorrectable
      = s.uncorrectable + BitVec.ofNat 64 (isUncorrectable (r.cell s.mem i)).toNat := by
  rw [scrubWord_eq, isUncorrectable]
  cases verify (r.cell s.mem i).data (r.cell s.mem i).check <;> simp

/-- A store outside word `j` leaves its 72 bits alone. -/
theorem SoftEccRegion.cell_congr {r r' : SoftEccRegion} {m m' : ByteMem} {j : Nat}
    (haddr : r'.addr = r.addr) (hcode : r'.code j = r.code j)
    (hmem : ∀ x, r.wordAddr j ≤ x → x < r.wordAddr j + 8 → m' x = m x) :
    r'.cell m' j = r.cell m j := by
  have hw : r'.wordAddr j = r.wordAddr j := by rw [wordAddr, haddr, wordAddr]
  rw [cell, cell, hw, hcode, ByteMem.load_congr hmem]

theorem scrubWord_cell (b : Build) (s : Machine) (r : SoftEccRegion) {i : Nat}
    (hi : i < r.words) (j : Nat) :
    (scrubWord b s r i).2.cell (scrubWord b s r i).1.mem j
      = if j = i then repair (r.cell s.mem i) else r.cell s.mem j := by
  rw [scrubWord_region b s r hi, scrubWord_mem]
  split
  · rename_i h
    subst h
    refine Word.ext (ByteMem.load_store _ _ rfl) ?_
    show (r.setCode j _).code j = _
    rw [r.code_setCode hi, if_pos rfl]
  · rename_i h
    refine SoftEccRegion.cell_congr rfl ?_ fun x hx hx' => ?_
    · rw [r.code_setCode hi, if_neg h]
    · refine ByteMem.store_of_disjoint _ _ ?_
      simp only [SoftEccRegion.wordAddr] at hx hx' ⊢
      omega

/-! ## One region -/

/-- State `p` is `(s, r)` with the first `n` words of `r` scrubbed. -/
structure ScrubbedTo (s : Machine) (r : SoftEccRegion) (n : Nat)
    (p : Machine × SoftEccRegion) : Prop where
  shape : r.SameShape p.2
  done : ∀ i < n, p.2.cell p.1.mem i = repair (r.cell s.mem i)
  todo : ∀ i, n ≤ i → p.2.cell p.1.mem i = r.cell s.mem i
  frame : ∀ x, x < r.addr ∨ r.addr + 8 * n ≤ x → p.1.mem x = s.mem x
  corrected : p.1.corrected = s.corrected
    + BitVec.ofNat 64 ((List.range n).countP fun i => isCorrected (r.cell s.mem i))
  uncorrectable : p.1.uncorrectable = s.uncorrectable
    + BitVec.ofNat 64 ((List.range n).countP fun i => isUncorrectable (r.cell s.mem i))

theorem ScrubbedTo.zero (s : Machine) (r : SoftEccRegion) : ScrubbedTo s r 0 (s, r) where
  shape := ⟨rfl, rfl, rfl, rfl⟩
  done := fun _ hi => absurd hi (Nat.not_lt_zero _)
  todo := fun _ _ => rfl
  frame := fun _ _ => rfl
  corrected := BitVec.add_zero _ |>.symm
  uncorrectable := BitVec.add_zero _ |>.symm

/-- Adding one turn's count to the running count. -/
theorem count_succ (c : U64) (n : Nat) (p : Nat → Bool) :
    c + BitVec.ofNat 64 ((List.range n).countP p) + BitVec.ofNat 64 (p n).toNat
      = c + BitVec.ofNat 64 ((List.range (n + 1)).countP p) := by
  rw [BitVec.add_assoc, ← BitVec.ofNat_add, List.range_succ, List.countP_append]
  cases h : p n <;> simp [h]

/-- One turn of the loop of `softecc_scrub_region`. -/
theorem ScrubbedTo.step {s : Machine} {r : SoftEccRegion} {n : Nat}
    {p : Machine × SoftEccRegion} (b : Build) (h : ScrubbedTo s r n p) (hn : n < r.words) :
    ScrubbedTo s r (n + 1) (scrubWord b p.1 p.2 n) := by
  have hn' : n < p.2.words := by rw [h.shape.words]; exact hn
  have hcell := scrubWord_cell b p.1 p.2 hn'
  have hcur : p.2.cell p.1.mem n = r.cell s.mem n := h.todo n (Nat.le_refl n)
  have haddr : p.2.wordAddr n = r.addr + 8 * n := h.shape.wordAddr n
  constructor
  · rw [scrubWord_region b p.1 p.2 hn']
    exact ⟨h.shape.name, h.shape.addr, h.shape.words, h.shape.readonly⟩
  · intro i hi
    rw [hcell]
    split
    · rename_i hin; rw [hcur, hin]
    · exact h.done i (by omega)
  · intro i hi
    rw [hcell, if_neg (by omega)]
    exact h.todo i (by omega)
  · intro x hx
    rw [scrubWord_mem, ByteMem.store_of_disjoint _ _ (by omega)]
    exact h.frame x (by omega)
  · rw [scrubWord_corrected, h.corrected, hcur, count_succ _ _ fun i => isCorrected _]
  · rw [scrubWord_uncorrectable, h.uncorrectable, hcur,
      count_succ _ _ fun i => isUncorrectable _]

theorem scrubRegion_upTo (b : Build) (s : Machine) (r : SoftEccRegion) {n : Nat}
    (hn : n ≤ r.words) :
    ScrubbedTo s r n ((List.range n).foldl (fun p i => scrubWord b p.1 p.2 i) (s, r)) := by
  induction n with
  | zero => exact ScrubbedTo.zero s r
  | succ n ih =>
      rw [List.range_succ, List.foldl_append]
      exact (ih (by omega)).step b hn

/-- **The loop over a region repairs every word of it** and touches no
byte outside. -/
theorem scrubRegion_spec (b : Build) (s : Machine) (r : SoftEccRegion) :
    ScrubbedTo s r r.words (softeccScrubRegion b s r) :=
  scrubRegion_upTo b s r (Nat.le_refl _)

/-! ## Every region

On disjoint regions the list of regions behaves like one region: what a
pass finds in a word is what was there before the pass. -/

/-- `r'` in memory `m'` is `r` in memory `m` with `f` done to each word. -/
structure SoftEccRegion.Mapped (f : Word 64 8 → Word 64 8) (m m' : ByteMem)
    (r r' : SoftEccRegion) : Prop where
  shape : r.SameShape r'
  cells : ∀ i < r.words, r'.cell m' i = f (r.cell m i)

/-- How many words of the regions satisfy `q`. -/
def countCells (q : Word 64 8 → Bool) (m : ByteMem) (rs : List SoftEccRegion) : Nat :=
  (rs.map fun r => (List.range r.words).countP fun i => q (r.cell m i)).sum

theorem SoftEccRegion.cell_frame {r : SoftEccRegion} {m m' : ByteMem}
    (hmem : ∀ x, r.Covers x → m' x = m x) {i : Nat} (hi : i < r.words) :
    r.cell m' i = r.cell m i := by
  refine SoftEccRegion.cell_congr rfl rfl fun x hx hx' => hmem x ?_
  simp only [wordAddr] at hx hx'
  exact ⟨by omega, by omega⟩

theorem SoftEccRegion.Sealed.frame {r : SoftEccRegion} {m m' : ByteMem} (h : r.Sealed m)
    (hmem : ∀ x, r.Covers x → m' x = m x) : r.Sealed m' := by
  intro i hi
  have hload := congrArg Word.data (SoftEccRegion.cell_frame hmem hi)
  rw [h i hi]
  exact congrArg encode hload.symm

theorem countCells_frame (q : Word 64 8 → Bool) {m m' : ByteMem} {rs : List SoftEccRegion}
    (hmem : ∀ r ∈ rs, ∀ x, r.Covers x → m' x = m x) :
    countCells q m' rs = countCells q m rs := by
  have hcount : ∀ r ∈ rs,
      ((List.range r.words).countP fun i => q (r.cell m' i))
        = (List.range r.words).countP fun i => q (r.cell m i) := by
    intro r hr
    refine List.countP_congr fun i hi => ?_
    rw [SoftEccRegion.cell_frame (hmem r hr) (List.mem_range.mp hi)]
  rw [countCells, countCells, List.map_congr_left hcount]

/-- State `p` is `s` with the words of `rs` scrubbed. -/
structure Scrubbed (s : Machine) (rs : List SoftEccRegion)
    (p : Machine × List SoftEccRegion) : Prop where
  regions : List.Forall₂ (SoftEccRegion.Mapped repair s.mem p.1.mem) rs p.2
  frame : ∀ x, (∀ r ∈ rs, ¬r.Covers x) → p.1.mem x = s.mem x
  corrected : p.1.corrected = s.corrected + BitVec.ofNat 64 (countCells isCorrected s.mem rs)
  uncorrectable : p.1.uncorrectable
    = s.uncorrectable + BitVec.ofNat 64 (countCells isUncorrectable s.mem rs)

theorem scrubRegions_spec (b : Build) :
    ∀ (rs : List SoftEccRegion) (s : Machine), rs.Pairwise SoftEccRegion.Disjoint →
      Scrubbed s rs (scrubRegions b s rs)
  | [], s, _ => ⟨.nil, fun _ _ => rfl, (BitVec.add_zero _).symm, (BitVec.add_zero _).symm⟩
  | r :: rs, s, hdisj => by
      obtain ⟨hr, hrs⟩ := List.pairwise_cons.mp hdisj
      have head := scrubRegion_spec b s r
      have tail := scrubRegions_spec b rs (softeccScrubRegion b s r).1 hrs
      -- the head's loop does not reach the words of the other regions
      have hfree : ∀ r' ∈ rs, ∀ x, r'.Covers x →
          (softeccScrubRegion b s r).1.mem x = s.mem x := by
        intro r' hr' x hx
        refine head.frame x ?_
        have := hr r' hr' x
        simp only [SoftEccRegion.Covers] at this hx ⊢
        omega
      refine ⟨.cons ⟨head.shape, fun i hi => ?_⟩ ?_, fun x hx => ?_, ?_, ?_⟩
      · rw [← head.done i hi]
        refine SoftEccRegion.cell_frame (fun x hx => tail.frame x fun r' hr' hx' => ?_)
          (by rw [head.shape.words]; exact hi)
        refine hr r' hr' x ?_ hx'
        rwa [SoftEccRegion.Covers, head.shape.addr, head.shape.words] at hx
      · refine ((List.forall₂_and_left _ _).mpr ⟨hfree, tail.regions⟩).imp ?_
        rintro r' r'' ⟨hmem, hshape, hcells⟩
        refine ⟨hshape, fun i hi => ?_⟩
        exact (hcells i hi).trans (congrArg repair (SoftEccRegion.cell_frame hmem hi))
      · obtain ⟨hx0, hx1⟩ := List.forall_mem_cons.mp hx
        rw [scrubRegions, tail.frame x hx1]
        refine head.frame x ?_
        simp only [SoftEccRegion.Covers] at hx0
        omega
      · rw [scrubRegions, tail.corrected, head.corrected, countCells_frame _ hfree,
          BitVec.add_assoc, ← BitVec.ofNat_add]
        rfl
      · rw [scrubRegions, tail.uncorrectable, head.uncorrectable, countCells_frame _ hfree,
          BitVec.add_assoc, ← BitVec.ofNat_add]
        rfl

/-! ## Sealed regions

A sealed region gives a pass nothing to do. Regions may overlap here. -/

theorem SoftEccRegion.sealCodes_sealed (r : SoftEccRegion) (b : Build) (m : ByteMem) :
    (r.sealCodes b m).Sealed m := by
  intro i hi
  have hi' : i < r.words := hi
  simp only [code, sealCodes, List.getD_eq_getElem?_getD, List.getElem?_map,
    List.getElem?_range hi', Option.map_some, Option.getD_some, build_encode_eq]
  rfl

theorem scrubWord_of_sealed (b : Build) {s : Machine} {r : SoftEccRegion} (h : r.Sealed s.mem)
    {i : Nat} (hi : i < r.words) : scrubWord b s r i = (s, r) := by
  have hclean : verify (r.cell s.mem i).data (r.cell s.mem i).check = .clean := by
    show verify (s.mem.load (r.wordAddr i) 64) (r.code i) = .clean
    rw [h i hi, verify_encode]
  rw [scrubWord_eq, hclean]

theorem scrubRegion_of_sealed (b : Build) {s : Machine} {r : SoftEccRegion}
    (h : r.Sealed s.mem) : softeccScrubRegion b s r = (s, r) := by
  have hfold : ∀ is : List Nat, (∀ i ∈ is, i < r.words) →
      is.foldl (fun p i => scrubWord b p.1 p.2 i) (s, r) = (s, r) := by
    intro is his
    induction is with
    | nil => rfl
    | cons i is ih =>
        obtain ⟨hi, his⟩ := List.forall_mem_cons.mp his
        rw [List.foldl_cons, scrubWord_of_sealed b h hi, ih his]
  exact hfold _ fun i hi => List.mem_range.mp hi

theorem scrubRegions_of_sealed (b : Build) (s : Machine) {rs : List SoftEccRegion}
    (h : ∀ r ∈ rs, r.Sealed s.mem) : scrubRegions b s rs = (s, rs) := by
  induction rs with
  | nil => rfl
  | cons r rs ih =>
      obtain ⟨hr, hrs⟩ := List.forall_mem_cons.mp h
      rw [scrubRegions, scrubRegion_of_sealed b hr, ih hrs]

/-- **A pass over sealed regions changes nothing**, not even a counter. -/
theorem scrubPass_of_sealed (b : Build) {S : SoftEcc} (h : S.Sealed) : scrubPass b S = S := by
  rw [scrubPass, scrubRegions_of_sealed b S.toMachine h]

/-- One protected word at address 0, over memory `m`, sealed when zero. -/
def oneWordState (m : ByteMem) : SoftEcc :=
  { mem := m, pageRo := fun _ => true, corrected := 0, uncorrectable := 0, tainted := false
    log := [], regions := [⟨"idt", 0, 1, [0], true, rfl⟩] }

theorem oneWordState_sealed : (oneWordState fun _ => 0).Sealed := by
  intro r hr i hi
  obtain rfl := List.mem_singleton.mp hr
  obtain rfl : i = 0 := Nat.lt_one_iff.mp hi
  decide +kernel

end Rustlux
