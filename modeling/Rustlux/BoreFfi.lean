import Rustlux.Bore
import Rustlux.ByteMem

/-!
# The context across the language border

`rust/rustlux_sched/src/bore_ffi.rs`: the scheduler hands Rust a pointer to its
`struct bore_ctx`, and Rust works on it through `BoreCtxFfi`, a struct of its
own that is to have the same layout. Both layouts are computed from the field
lists. They part after the penalty: C keeps the score inside the penalty's
union, Rust puts it after it, so every later field of Rust lies at another
offset and the last one behind the end of the C struct.

For each of the three calls, the exact memory for which this does not show
(`update_faithful_iff`, `restart_faithful_iff`, `reset_faithful_iff`).
-/

namespace Rustlux

/-! ## Layouts -/

/-- Fields in order of declaration, with size and alignment in bytes. -/
abbrev Layout (ν : Type) := List (ν × Nat × Nat)

/-- The next multiple of the alignment. -/
def alignUp (n align : Nat) : Nat := (n + (align - 1)) / align * align

/-- `repr(C)`: each field at the next multiple of its alignment. -/
def Layout.offsets {ν : Type} : Nat → Layout ν → List (ν × Nat)
  | _, [] => []
  | n, (name, size, align) :: rest =>
      (name, alignUp n align) :: Layout.offsets (alignUp n align + size) rest

def Layout.offsetOf {ν : Type} [BEq ν] (layout : Layout ν) (name : ν) : Nat :=
  ((layout.offsets 0).lookup name).getD 0

inductive BoreField where
  | burstTime | prevPenalty | currPenalty | penalty | score | pad | stopUpdate | futexWaiting
  | pad2 | subtree | group
deriving DecidableEq, Repr

/-- `struct bore_ctx` of C; its third field is the union of `penalty` with a
byte and the score. -/
def boreCtx : Layout BoreField :=
  [(.burstTime, 8, 8), (.prevPenalty, 2, 2), (.currPenalty, 2, 2), (.penalty, 2, 2),
    (.stopUpdate, 1, 1), (.futexWaiting, 1, 1), (.subtree, 8, 8), (.group, 8, 8)]

def boreCtxFfi : Layout BoreField :=
  [(.burstTime, 8, 8), (.prevPenalty, 2, 2), (.currPenalty, 2, 2), (.penalty, 2, 2),
    (.score, 1, 1), (.pad, 1, 1), (.stopUpdate, 1, 1), (.futexWaiting, 1, 1), (.pad2, 6, 1),
    (.subtree, 8, 8), (.group, 8, 8)]

inductive ParamField where
  | enabled | burstInheritType | burstSmoothness | burstPenaltyOffset | burstPenaltyScale
  | burstCacheLifetime
deriving DecidableEq, Repr

def boreParamsFfi : Layout ParamField :=
  [(.enabled, 1, 1), (.burstInheritType, 1, 1), (.burstSmoothness, 1, 1),
    (.burstPenaltyOffset, 1, 1), (.burstPenaltyScale, 4, 4), (.burstCacheLifetime, 4, 4)]

example : boreCtx.offsets 0
    = [(.burstTime, 0), (.prevPenalty, 8), (.currPenalty, 10), (.penalty, 12), (.stopUpdate, 14),
        (.futexWaiting, 15), (.subtree, 16), (.group, 24)] := rfl

example : boreCtxFfi.offsets 0
    = [(.burstTime, 0), (.prevPenalty, 8), (.currPenalty, 10), (.penalty, 12), (.score, 14),
        (.pad, 15), (.stopUpdate, 16), (.futexWaiting, 17), (.pad2, 18), (.subtree, 24),
        (.group, 32)] := rfl

/-! ## Memory -/

/-- The context that C has at an address. -/
def cCtx (m : ByteMem) (ctxPtr : Nat) : BoreCtx :=
  { burstTime := m.load (ctxPtr + boreCtx.offsetOf .burstTime) 64
    prevPenalty := m.load (ctxPtr + boreCtx.offsetOf .prevPenalty) 16
    currPenalty := m.load (ctxPtr + boreCtx.offsetOf .currPenalty) 16
    penalty := m.load (ctxPtr + boreCtx.offsetOf .penalty) 16
    score := m.load (ctxPtr + boreCtx.offsetOf .penalty + 1) 8
    stopUpdate := m.load (ctxPtr + boreCtx.offsetOf .stopUpdate) 8 != 0
    futexWaiting := m.load (ctxPtr + boreCtx.offsetOf .futexWaiting) 8 != 0
    subtree := ⟨m.load (ctxPtr + boreCtx.offsetOf .subtree) 64⟩
    group := ⟨m.load (ctxPtr + boreCtx.offsetOf .group) 64⟩ }

/-- `ffi_to_ctx` of the `BoreCtxFfi` at an address. -/
def ffiToCtx (m : ByteMem) (ffi : Nat) : BoreCtx :=
  { burstTime := m.load (ffi + boreCtxFfi.offsetOf .burstTime) 64
    prevPenalty := m.load (ffi + boreCtxFfi.offsetOf .prevPenalty) 16
    currPenalty := m.load (ffi + boreCtxFfi.offsetOf .currPenalty) 16
    penalty := m.load (ffi + boreCtxFfi.offsetOf .penalty) 16
    score := m.load (ffi + boreCtxFfi.offsetOf .score) 8
    stopUpdate := m.load (ffi + boreCtxFfi.offsetOf .stopUpdate) 8 != 0
    futexWaiting := m.load (ffi + boreCtxFfi.offsetOf .futexWaiting) 8 != 0
    subtree := ⟨m.load (ffi + boreCtxFfi.offsetOf .subtree) 64⟩
    group := ⟨m.load (ffi + boreCtxFfi.offsetOf .group) 64⟩ }

/-- `bool as u8`. -/
def boolByte (b : Bool) : U8 := if b then 1 else 0

def ctxToFfi (ctx : BoreCtx) (m : ByteMem) (ffi : Nat) : ByteMem :=
  let m := m.store (ffi + boreCtxFfi.offsetOf .burstTime) ctx.burstTime
  let m := m.store (ffi + boreCtxFfi.offsetOf .prevPenalty) ctx.prevPenalty
  let m := m.store (ffi + boreCtxFfi.offsetOf .currPenalty) ctx.currPenalty
  let m := m.store (ffi + boreCtxFfi.offsetOf .penalty) ctx.penalty
  let m := m.store (ffi + boreCtxFfi.offsetOf .score) ctx.score
  let m := m.store (ffi + boreCtxFfi.offsetOf .stopUpdate) (boolByte ctx.stopUpdate)
  let m := m.store (ffi + boreCtxFfi.offsetOf .futexWaiting) (boolByte ctx.futexWaiting)
  let m := m.store (ffi + boreCtxFfi.offsetOf .subtree) ctx.subtree.value
  m.store (ffi + boreCtxFfi.offsetOf .group) ctx.group.value

/-- `BoreParams::from` of the `BoreParamsFfi` at an address. -/
def ffiToParams (m : ByteMem) (ffi : Nat) : BoreParams :=
  { enabled := m.load (ffi + boreParamsFfi.offsetOf .enabled) 8
    burstInheritType := m.load (ffi + boreParamsFfi.offsetOf .burstInheritType) 8
    burstSmoothness := m.load (ffi + boreParamsFfi.offsetOf .burstSmoothness) 8
    burstPenaltyOffset := m.load (ffi + boreParamsFfi.offsetOf .burstPenaltyOffset) 8
    burstPenaltyScale := m.load (ffi + boreParamsFfi.offsetOf .burstPenaltyScale) 32
    burstCacheLifetimeNs := m.load (ffi + boreParamsFfi.offsetOf .burstCacheLifetime) 32 }

def rustluxBoreUpdateCurr (m : ByteMem) (ctxPtr paramsPtr : Nat) (deltaNs : U64)
    (isKthread : U8) : U8 × ByteMem :=
  let (changed, ctx) :=
    (updateCurr (ffiToCtx m ctxPtr) deltaNs (ffiToParams m paramsPtr) (isKthread != 0)).val
  (boolByte changed, ctxToFfi ctx m ctxPtr)

def rustluxBoreRestartBurst (m : ByteMem) (ctxPtr paramsPtr : Nat) (isKthread : U8) : ByteMem :=
  let ctx := (restartBurst (ffiToCtx m ctxPtr) (ffiToParams m paramsPtr) (isKthread != 0)).val
  ctxToFfi ctx m ctxPtr

def rustluxBoreReset (m : ByteMem) (ctxPtr : Nat) : ByteMem := ctxToFfi .new m ctxPtr

/-! ## What a call stores -/

/-- The bytes of a `BoreCtxFfi` that has been written; its padding is not. -/
structure Stored (m m' : ByteMem) (p : Nat) (ctx : BoreCtx) : Prop where
  burstTime : m'.load p 64 = ctx.burstTime
  prevPenalty : m'.load (p + 8) 16 = ctx.prevPenalty
  currPenalty : m'.load (p + 10) 16 = ctx.currPenalty
  penalty : m'.load (p + 12) 16 = ctx.penalty
  score : m'.load (p + 14) 8 = ctx.score
  stopUpdate : m'.load (p + 16) 8 = boolByte ctx.stopUpdate
  futexWaiting : m'.load (p + 17) 8 = boolByte ctx.futexWaiting
  subtree : m'.load (p + 24) 64 = ctx.subtree.value
  group : m'.load (p + 32) 64 = ctx.group.value
  frame : ∀ x, x < p ∨ x = p + 15 ∨ p + 18 ≤ x ∧ x < p + 24 ∨ p + 40 ≤ x → m' x = m x

theorem ctxToFfi_eq (ctx : BoreCtx) (m : ByteMem) (p : Nat) :
    ctxToFfi ctx m p
      = ((((((((m.store p ctx.burstTime).store (p + 8) ctx.prevPenalty).store (p + 10)
          ctx.currPenalty).store (p + 12) ctx.penalty).store (p + 14) ctx.score).store (p + 16)
          (boolByte ctx.stopUpdate)).store (p + 17) (boolByte ctx.futexWaiting)).store (p + 24)
          ctx.subtree.value).store (p + 32) ctx.group.value := rfl

theorem ctxToFfi_stored (ctx : BoreCtx) (m : ByteMem) (p : Nat) :
    Stored m (ctxToFfi ctx m p) p ctx := by
  rw [ctxToFfi_eq]
  constructor
  case frame =>
    intro x hx
    rw [ByteMem.store_of_disjoint, ByteMem.store_of_disjoint, ByteMem.store_of_disjoint,
      ByteMem.store_of_disjoint, ByteMem.store_of_disjoint, ByteMem.store_of_disjoint,
      ByteMem.store_of_disjoint, ByteMem.store_of_disjoint, ByteMem.store_of_disjoint]
    all_goals omega
  all_goals simp (disch := omega) only [ByteMem.load_store_of_disjoint, ByteMem.load_store]

/-! ## What has to hold of the memory -/

/-- The two views of a struct at `p` agree: where Rust looks for a field that
C has elsewhere, it finds the same value. -/
structure SameView (m : ByteMem) (p : Nat) : Prop where
  score : m (p + 13) = m (p + 14)
  stopUpdate : m (p + 14) = 0 ↔ m (p + 16) = 0
  futexWaiting : m (p + 15) = 0 ↔ m (p + 17) = 0
  subtree : m.load (p + 16) 64 = m.load (p + 24) 64
  group : m.load (p + 24) 64 = m.load (p + 32) 64

theorem cCtx_eq (m : ByteMem) (p : Nat) :
    cCtx m p = ⟨m.load p 64, m.load (p + 8) 16, m.load (p + 10) 16, m.load (p + 12) 16,
      m.load (p + 13) 8, m.load (p + 14) 8 != 0, m.load (p + 15) 8 != 0, ⟨m.load (p + 16) 64⟩,
      ⟨m.load (p + 24) 64⟩⟩ := rfl

theorem ffiToCtx_eq (m : ByteMem) (p : Nat) :
    ffiToCtx m p = ⟨m.load p 64, m.load (p + 8) 16, m.load (p + 10) 16, m.load (p + 12) 16,
      m.load (p + 14) 8, m.load (p + 16) 8 != 0, m.load (p + 17) 8 != 0, ⟨m.load (p + 24) 64⟩,
      ⟨m.load (p + 32) 64⟩⟩ := rfl

theorem bne_eq_bne_iff {x y : U8} : ((x != 0) = (y != 0)) ↔ (x = 0 ↔ y = 0) := by
  rw [Bool.eq_iff_iff, bne_iff_ne, bne_iff_ne]
  exact not_iff_not

theorem ffiToCtx_eq_iff (m : ByteMem) (p : Nat) : ffiToCtx m p = cCtx m p ↔ SameView m p := by
  rw [ffiToCtx_eq, cCtx_eq]
  simp only [BoreCtx.mk.injEq, BoreBc.mk.injEq, ByteMem.load_byte, bne_eq_bne_iff, true_and]
  constructor
  · rintro ⟨hscore, hstop, hfutex, hsubtree, hgroup⟩
    exact ⟨hscore.symm, hstop.symm, hfutex.symm, hsubtree.symm, hgroup.symm⟩
  · intro h
    exact ⟨h.score.symm, h.stopUpdate.symm, h.futexWaiting.symm, h.subtree.symm, h.group.symm⟩

/-! ## What a call writes back -/

/-- C finds the fields of `ctx` up to the score, and no byte after it, in the
struct or behind it, has changed. -/
structure WritesBack (m m' : ByteMem) (p : Nat) (ctx : BoreCtx) : Prop where
  burstTime : (cCtx m' p).burstTime = ctx.burstTime
  prevPenalty : (cCtx m' p).prevPenalty = ctx.prevPenalty
  currPenalty : (cCtx m' p).currPenalty = ctx.currPenalty
  penalty : (cCtx m' p).penalty = ctx.penalty
  score : (cCtx m' p).score = ctx.score
  frame : ∀ x, x < p ∨ p + 14 ≤ x → m' x = m x

/-- The bytes that Rust takes for `stop_update` and `futex_waiting`, which are
the first two of `subtree`, are 0 or 1. -/
def BoolBytes (m : ByteMem) (p : Nat) : Prop := m (p + 16) ≤ 1 ∧ m (p + 17) ≤ 1

theorem boolByte_bne_eq_iff (x : U8) : boolByte (x != 0) = x ↔ x ≤ 1 := by
  by_cases h0 : x = 0
  · subst h0
    decide
  · have hne : (x != 0) = true := bne_iff_ne.mpr h0
    have h0' : x.toNat ≠ 0 := fun h => h0 (BitVec.eq_of_toNat_eq h)
    rw [hne, boolByte, if_pos rfl]
    constructor
    · intro h
      exact Nat.le_of_eq (congrArg BitVec.toNat h.symm)
    · intro h
      have h1 : x.toNat ≤ 1 := h
      exact BitVec.eq_of_toNat_eq (Nat.le_antisymm (Nat.pos_of_ne_zero h0') h1)

/-- The score that C reads is the high byte of its penalty. -/
theorem score_eq_highByte (m : ByteMem) (p : Nat) :
    m.load (p + 13) 8 = BoreCtx.highByte (m.load (p + 12) 16) := by
  rw [ByteMem.load_byte, ByteMem.byte_eq_load m (Nat.le_succ (p + 12))
    (by omega : 8 * (p + 13 - (p + 12)) + 8 ≤ 16)]
  refine BitVec.eq_of_getLsbD_eq fun i hi => ?_
  have hoffset : 8 * (p + 13 - (p + 12)) = 8 := by omega
  rw [hoffset, BitVec.getLsbD_extractLsb', BoreCtx.highByte, BitVec.getLsbD_setWidth,
    BitVec.getLsbD_ushiftRight]

/-- What neither `update_curr` nor `restart_burst` changes. -/
structure Untouched (ctx ctx' : BoreCtx) : Prop where
  stopUpdate : ctx'.stopUpdate = ctx.stopUpdate
  futexWaiting : ctx'.futexWaiting = ctx.futexWaiting
  subtree : ctx'.subtree = ctx.subtree
  group : ctx'.group = ctx.group

theorem writesBack_iff {m : ByteMem} {p : Nat} {ctx : BoreCtx}
    (huntouched : Untouched (ffiToCtx m p) ctx) :
    WritesBack m (ctxToFfi ctx m p) p ctx
      ↔ BoolBytes m p ∧ ctx.score = m (p + 14) ∧ BoreCtx.highByte ctx.penalty = ctx.score := by
  have hstored := ctxToFfi_stored ctx m p
  obtain ⟨hstop, hfutex, hsubtree, hgroup⟩ := huntouched
  simp only [ffiToCtx_eq, ByteMem.load_byte] at hstop hfutex hsubtree hgroup
  generalize ctxToFfi ctx m p = m' at *
  have hscore : m' (p + 14) = ctx.score := m'.load_byte (p + 14) ▸ hstored.score
  have hstop' : m' (p + 16) = boolByte (m (p + 16) != 0) := by
    rw [← m'.load_byte, hstored.stopUpdate, hstop]
  have hfutex' : m' (p + 17) = boolByte (m (p + 17) != 0) := by
    rw [← m'.load_byte, hstored.futexWaiting, hfutex]
  have hhigh : (cCtx m' p).score = BoreCtx.highByte ctx.penalty := by
    rw [cCtx_eq]
    exact (score_eq_highByte m' p).trans (congrArg _ hstored.penalty)
  constructor
  · intro h
    refine ⟨⟨?_, ?_⟩, ?_, ?_⟩
    · exact (boolByte_bne_eq_iff _).mp (hstop'.symm.trans (h.frame _ (by omega)))
    · exact (boolByte_bne_eq_iff _).mp (hfutex'.symm.trans (h.frame _ (by omega)))
    · exact hscore.symm.trans (h.frame _ (by omega))
    · exact hhigh.symm.trans h.score
  · rintro ⟨⟨hb, hb'⟩, h14, hpen⟩
    refine ⟨hstored.burstTime, hstored.prevPenalty, hstored.currPenalty, hstored.penalty,
      hhigh.trans hpen, fun x hx => ?_⟩
    -- the fields of Rust in the order of their offsets
    by_cases h1 : x = p + 14
    · rw [h1, hscore, h14]
    by_cases h2 : x = p + 16
    · rw [h2, hstop', (boolByte_bne_eq_iff _).mpr hb]
    by_cases h3 : x = p + 17
    · rw [h3, hfutex', (boolByte_bne_eq_iff _).mpr hb']
    by_cases h4 : p + 24 ≤ x ∧ x < p + 32
    · rw [ByteMem.byte_eq_load m' h4.1 (by omega : _ ≤ 64), hstored.subtree, hsubtree,
        ← ByteMem.byte_eq_load m h4.1 (by omega)]
    by_cases h5 : p + 32 ≤ x ∧ x < p + 40
    · rw [ByteMem.byte_eq_load m' h5.1 (by omega : _ ≤ 64), hstored.group, hgroup,
        ← ByteMem.byte_eq_load m h5.1 (by omega)]
    exact hstored.frame x (by omega)

/-! ## The three calls -/

/-- `rustlux_bore_update_curr` is `update_curr` of the C context. -/
def UpdateFaithful (m : ByteMem) (ctxPtr paramsPtr : Nat) (deltaNs : U64) (isKthread : U8) : Prop :=
  ffiToCtx m ctxPtr = cCtx m ctxPtr
    ∧ WritesBack m (rustluxBoreUpdateCurr m ctxPtr paramsPtr deltaNs isKthread).2 ctxPtr
        (updateCurr (cCtx m ctxPtr) deltaNs (ffiToParams m paramsPtr) (isKthread != 0)).val.2

/-- `rustlux_bore_restart_burst` is `restart_burst` of the C context. -/
def RestartFaithful (m : ByteMem) (ctxPtr paramsPtr : Nat) (isKthread : U8) : Prop :=
  ffiToCtx m ctxPtr = cCtx m ctxPtr
    ∧ WritesBack m (rustluxBoreRestartBurst m ctxPtr paramsPtr isKthread) ctxPtr
        (restartBurst (cCtx m ctxPtr) (ffiToParams m paramsPtr) (isKthread != 0)).val

/-- `rustlux_bore_reset` clears the 32 bytes of the C struct and no other. -/
def ResetFaithful (m : ByteMem) (ctxPtr : Nat) : Prop :=
  ∀ x, rustluxBoreReset m ctxPtr x = if ctxPtr ≤ x ∧ x < ctxPtr + 32 then 0 else m x

/-- The penalty of the burst that `update_curr` charges. -/
def burstPenalty (m : ByteMem) (ctxPtr paramsPtr : Nat) (deltaNs : U64) : U16 :=
  (calcBurstPenalty (saturatingAdd (cCtx m ctxPtr).burstTime deltaNs)
    (ffiToParams m paramsPtr)).val.setWidth 16

/-- The penalty that `restart_burst` carries over. -/
def carriedPenalty (m : ByteMem) (ctxPtr paramsPtr : Nat) : U16 :=
  (binarySmooth ((cCtx m ctxPtr).currPenalty.setWidth 32) ((cCtx m ctxPtr).prevPenalty.setWidth 32)
    (ffiToParams m paramsPtr).burstSmoothness).val.setWidth 16

theorem updateCurr_val (ctx : BoreCtx) (deltaNs : U64) (params : BoreParams) (isKthread : Bool) :
    let curr := (calcBurstPenalty (saturatingAdd ctx.burstTime deltaNs) params).val.setWidth 16
    (updateCurr ctx deltaNs params isKthread).val.2
      = if ctx.stopUpdate then ctx
        else if curr ≤ ctx.prevPenalty then ctx.chargedTo deltaNs curr
        else (ctx.chargedTo deltaNs curr).withPenalty curr isKthread := by
  intro curr
  rw [updateCurr_bind]
  split
  · rfl
  · by_cases hle : curr ≤ ctx.prevPenalty
    · rw [if_pos hle]
      exact congrArg Prod.snd (if_pos hle)
    · rw [if_neg hle]
      exact congrArg Prod.snd (if_neg hle)

theorem updateCurr_untouched (ctx : BoreCtx) (deltaNs : U64) (params : BoreParams)
    (isKthread : Bool) : Untouched ctx (updateCurr ctx deltaNs params isKthread).val.2 := by
  rw [updateCurr_val]
  split
  · exact ⟨rfl, rfl, rfl, rfl⟩
  · split <;> exact ⟨rfl, rfl, rfl, rfl⟩

theorem highByte_eq_zero {q : U16} : BoreCtx.highByte q = 0 ↔ q.toNat ≤ 255 := by
  have hbyte := BoreCtx.toNat_highByte q
  constructor
  · intro h
    rw [h] at hbyte
    exact Nat.le_of_lt_succ ((Nat.div_eq_zero_iff_lt (by decide)).mp hbyte.symm)
  · intro h
    refine BitVec.eq_of_toNat_eq ?_
    rw [hbyte]
    exact Nat.div_eq_of_lt (Nat.lt_succ_of_le h)

theorem withPenalty_score_iff (ctx : BoreCtx) (q : U16) (isKthread : Bool) (b : U8) :
    (ctx.withPenalty q isKthread).score = b
        ∧ BoreCtx.highByte (ctx.withPenalty q isKthread).penalty
          = (ctx.withPenalty q isKthread).score
      ↔ BoreCtx.highByte (if isKthread then 0 else q) = b :=
  and_iff_left rfl

/-- Where C has `stop_update` in the byte that Rust takes for the score, an
update leaves that byte alone unless it writes a new score over the 0 of a
task that is charged. -/
theorem updateCurr_score_iff {ctx ctx' : BoreCtx} {b : U8} {curr : U16} {deltaNs : U64}
    {params : BoreParams} {isKthread : Bool} (hstop : ctx.stopUpdate = (b != 0))
    (hscore : ctx.score = b) (hhigh : BoreCtx.highByte ctx.penalty = ctx.score)
    (hcurr : (calcBurstPenalty (saturatingAdd ctx.burstTime deltaNs) params).val.setWidth 16
      = curr)
    (hctx' : (updateCurr ctx deltaNs params isKthread).val.2 = ctx') :
    (ctx'.score = b ∧ BoreCtx.highByte ctx'.penalty = ctx'.score)
      ↔ b ≠ 0 ∨ isKthread = true ∨ curr.toNat ≤ max ctx.prevPenalty.toNat 255 := by
  rw [updateCurr_val, hcurr] at hctx'
  subst hctx'
  by_cases hb : b = 0
  · have hne : ¬ctx.stopUpdate = true := by
      rw [hstop, hb]
      decide
    rw [if_neg hne]
    by_cases hle : curr ≤ ctx.prevPenalty
    · rw [if_pos hle]
      exact iff_of_true ⟨hscore, hhigh⟩ (.inr (.inr (Nat.le_trans hle (Nat.le_max_left ..))))
    · have hlt : ctx.prevPenalty.toNat < curr.toNat := Nat.lt_of_not_le hle
      rw [if_neg hle, withPenalty_score_iff, hb]
      cases isKthread with
      | true =>
          rw [if_pos rfl]
          exact iff_of_true rfl (.inr (.inl rfl))
      | false =>
          rw [if_neg Bool.false_ne_true, highByte_eq_zero]
          constructor
          · exact fun h => .inr (.inr (Nat.le_trans h (Nat.le_max_right ..)))
          · rintro (h | h | h)
            · exact absurd rfl h
            · exact absurd h Bool.false_ne_true
            · omega
  · have hstop' : ctx.stopUpdate = true := by
      rw [hstop]
      exact bne_iff_ne.mpr hb
    rw [if_pos hstop']
    exact iff_of_true ⟨hscore, hhigh⟩ (.inl hb)

theorem update_faithful_iff (m : ByteMem) (ctxPtr paramsPtr : Nat) (deltaNs : U64)
    (isKthread : U8) :
    UpdateFaithful m ctxPtr paramsPtr deltaNs isKthread
      ↔ SameView m ctxPtr ∧ BoolBytes m ctxPtr
        ∧ (m (ctxPtr + 14) ≠ 0 ∨ isKthread ≠ 0
          ∨ (burstPenalty m ctxPtr paramsPtr deltaNs).toNat
              ≤ max (cCtx m ctxPtr).prevPenalty.toNat 255) := by
  rw [UpdateFaithful, ffiToCtx_eq_iff]
  refine and_congr_right fun hview => ?_
  have hctx := (ffiToCtx_eq_iff m ctxPtr).mpr hview
  have hstop : (cCtx m ctxPtr).stopUpdate = (m (ctxPtr + 14) != 0) :=
    congrArg (· != 0) (m.load_byte _)
  have hscore : (cCtx m ctxPtr).score = m (ctxPtr + 14) := (m.load_byte _).trans hview.score
  have hhigh : BoreCtx.highByte (cCtx m ctxPtr).penalty = (cCtx m ctxPtr).score :=
    (score_eq_highByte m ctxPtr).symm
  have hcall : (rustluxBoreUpdateCurr m ctxPtr paramsPtr deltaNs isKthread).2
      = ctxToFfi (updateCurr (cCtx m ctxPtr) deltaNs (ffiToParams m paramsPtr)
          (isKthread != 0)).val.2 m ctxPtr := by
    rw [rustluxBoreUpdateCurr, hctx]
  rw [hcall, writesBack_iff (hctx ▸ updateCurr_untouched ..)]
  refine and_congr_right fun _ => (updateCurr_score_iff hstop hscore hhigh rfl rfl).trans ?_
  rw [bne_iff_ne]
  exact Iff.rfl

theorem restart_faithful_iff (m : ByteMem) (ctxPtr paramsPtr : Nat) (isKthread : U8) :
    RestartFaithful m ctxPtr paramsPtr isKthread
      ↔ SameView m ctxPtr ∧ BoolBytes m ctxPtr
        ∧ BoreCtx.highByte (if isKthread ≠ 0 then 0 else carriedPenalty m ctxPtr paramsPtr)
            = m (ctxPtr + 14) := by
  rw [RestartFaithful, ffiToCtx_eq_iff]
  refine and_congr_right fun hview => ?_
  have hctx := (ffiToCtx_eq_iff m ctxPtr).mpr hview
  have hval : (restartBurst (cCtx m ctxPtr) (ffiToParams m paramsPtr) (isKthread != 0)).val
      = ((cCtx m ctxPtr).restartedTo (carriedPenalty m ctxPtr paramsPtr)).withPenalty
          (carriedPenalty m ctxPtr paramsPtr) (isKthread != 0) := by
    rw [restartBurst_bind]
    rfl
  have hcall : rustluxBoreRestartBurst m ctxPtr paramsPtr isKthread
      = ctxToFfi (restartBurst (cCtx m ctxPtr) (ffiToParams m paramsPtr) (isKthread != 0)).val
          m ctxPtr := by
    rw [rustluxBoreRestartBurst, hctx]
  rw [hcall, hval]
  generalize carriedPenalty m ctxPtr paramsPtr = c at *
  generalize cCtx m ctxPtr = ctx at *
  rw [writesBack_iff (hctx ▸ ⟨rfl, rfl, rfl, rfl⟩), withPenalty_score_iff]
  simp only [bne_iff_ne]

theorem byte_eq_zero {m : ByteMem} {a w x : Nat} (h : m.load a w = 0#w) (hx : a ≤ x)
    (hx' : 8 * (x - a) + 8 ≤ w) : m x = 0 := by
  rw [ByteMem.byte_eq_load m hx hx', h]
  exact BitVec.extractLsb'_zero

/-- Every byte of an empty context is 0, except for the padding. -/
theorem Stored.new_eq_zero {m m' : ByteMem} {p x : Nat} (h : Stored m m' p .new) (hx : p ≤ x)
    (hx' : x < p + 40) (hpad : ¬(x = p + 15 ∨ p + 18 ≤ x ∧ x < p + 24)) : m' x = 0 := by
  by_cases h1 : x < p + 8
  · exact byte_eq_zero h.burstTime (by omega) (by omega)
  by_cases h2 : x < p + 10
  · exact byte_eq_zero h.prevPenalty (by omega) (by omega)
  by_cases h3 : x < p + 12
  · exact byte_eq_zero h.currPenalty (by omega) (by omega)
  by_cases h4 : x < p + 14
  · exact byte_eq_zero h.penalty (by omega) (by omega)
  by_cases h5 : x < p + 15
  · exact byte_eq_zero h.score (by omega) (by omega)
  by_cases h6 : x < p + 17
  · exact byte_eq_zero h.stopUpdate (by omega) (by omega)
  by_cases h7 : x < p + 18
  · exact byte_eq_zero h.futexWaiting (by omega) (by omega)
  by_cases h8 : x < p + 32
  · exact byte_eq_zero h.subtree (by omega) (by omega)
  · exact byte_eq_zero h.group (by omega) (by omega)

theorem reset_faithful_iff (m : ByteMem) (ctxPtr : Nat) :
    ResetFaithful m ctxPtr
      ↔ ∀ x, x = ctxPtr + 15 ∨ ctxPtr + 18 ≤ x ∧ x < ctxPtr + 24
          ∨ ctxPtr + 32 ≤ x ∧ x < ctxPtr + 40 → m x = 0 := by
  have hstored := ctxToFfi_stored .new m ctxPtr
  rw [ResetFaithful, rustluxBoreReset]
  generalize ctxToFfi .new m ctxPtr = m' at *
  constructor
  · intro h x hx
    by_cases hgroup : ctxPtr + 32 ≤ x
    · have hout : ¬(ctxPtr ≤ x ∧ x < ctxPtr + 32) := by omega
      rw [← (h x).trans (if_neg hout)]
      exact hstored.new_eq_zero (by omega) (by omega) (by omega)
    · have hin : ctxPtr ≤ x ∧ x < ctxPtr + 32 := by omega
      rw [← hstored.frame x (by omega)]
      exact (h x).trans (if_pos hin)
  · intro h x
    by_cases hframe : x < ctxPtr ∨ ctxPtr + 40 ≤ x
    · rw [if_neg (by omega)]
      exact hstored.frame x (by omega)
    by_cases hpad : x = ctxPtr + 15 ∨ ctxPtr + 18 ≤ x ∧ x < ctxPtr + 24
    · rw [if_pos (by omega), hstored.frame x (by omega)]
      exact h x (by omega)
    have hzero := hstored.new_eq_zero (x := x) (by omega) (by omega) hpad
    by_cases hgroup : ctxPtr + 32 ≤ x
    · rw [if_neg (by omega), hzero, h x (by omega)]
    · rw [if_pos (by omega), hzero]

/-- **Exactly when the view of Rust does not show.** -/
theorem ffi_faithful_iff (m : ByteMem) (ctxPtr paramsPtr : Nat) :
    (∀ deltaNs isKthread, UpdateFaithful m ctxPtr paramsPtr deltaNs isKthread
        ↔ SameView m ctxPtr ∧ BoolBytes m ctxPtr
          ∧ (m (ctxPtr + 14) ≠ 0 ∨ isKthread ≠ 0
            ∨ (burstPenalty m ctxPtr paramsPtr deltaNs).toNat
                ≤ max (cCtx m ctxPtr).prevPenalty.toNat 255))
      ∧ (∀ isKthread, RestartFaithful m ctxPtr paramsPtr isKthread
        ↔ SameView m ctxPtr ∧ BoolBytes m ctxPtr
          ∧ BoreCtx.highByte (if isKthread ≠ 0 then 0 else carriedPenalty m ctxPtr paramsPtr)
              = m (ctxPtr + 14))
      ∧ (ResetFaithful m ctxPtr
        ↔ ∀ x, x = ctxPtr + 15 ∨ ctxPtr + 18 ≤ x ∧ x < ctxPtr + 24
            ∨ ctxPtr + 32 ≤ x ∧ x < ctxPtr + 40 → m x = 0) :=
  ⟨update_faithful_iff m ctxPtr paramsPtr, restart_faithful_iff m ctxPtr paramsPtr,
    reset_faithful_iff m ctxPtr⟩

/-- A cleared context at 0 and a scale of 1024 at 64: after a burst of 256 ns
the score 9 is in `stop_update`. -/
theorem stop_update_overwritten :
    ¬∀ m ctxPtr paramsPtr deltaNs isKthread,
      UpdateFaithful m ctxPtr paramsPtr deltaNs isKthread := by
  intro h
  have hframe := (h (fun x => if x = 69 then 4 else 0) 0 64 256 0).2.frame 14 (by omega)
  exact absurd hframe (by decide +kernel)

end Rustlux
