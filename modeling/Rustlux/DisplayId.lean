import Mathlib.Data.List.Induction
import Mathlib.Tactic.Common
import Rustlux.Prim

/-!
# VESA blocks of a display

`drm_parse_vesa_specific_block` and `drm_update_vesa_specific_block` of
`drm_edid.c`: the multi-stream settings and the target of the display stream
compression, from the vendor blocks of a DisplayID section, whose bytes come
from the display.

A block is read as far as it reaches and no further, and what the blocks of a
section leave behind is told without running through them (`vesa_update_eq`): the
stream count of the last one for an embedded display, the pixel overlap of the
last one altogether, be it for an embedded display or not, and the target of
the last one that has the two bytes for it.
-/

namespace Rustlux

/-! ## The source -/

/-- `struct displayid_block`, with the `num_bytes` bytes behind its header. -/
structure DisplayidBlock where
  tag : U8
  payload : List U8
deriving DecidableEq, Repr

/-- The fields of `struct drm_display_info`. -/
structure DrmDisplayInfo where
  msoStreamCount : U8
  msoPixelOverlap : U8
  dpDscBppX16 : U16
deriving DecidableEq, Repr

/-- `VESA_IEEE_OUI`, and `DATA_BLOCK_2_VENDOR_SPECIFIC`. -/
structure VesaNumbers where
  ieeeOui : BitVec 24
  vendorSpecific : U8

/-- `GENMASK(h, l)` of a byte. -/
def genmask (h l : Nat) : U8 := (BitVec.allOnes 8 <<< l) &&& (BitVec.allOnes 8 >>> (7 - h))

/-- `FIELD_GET(GENMASK(h, l), value)`. -/
def fieldGet (h l : Nat) (value : U8) : U8 := (value &&& genmask h l) >>> l

def displayidVesaDpType : U8 → U8 := fieldGet 2 0
def displayidVesaMsoOverlap : U8 → U8 := fieldGet 3 0
def displayidVesaMsoMode : U8 → U8 := fieldGet 6 5
def displayidVesaDscBppInt : U8 → U8 := fieldGet 5 0
def displayidVesaDscBppFract : U8 → U8 := fieldGet 3 0

def displayidVesaDpTypeEdp : U8 := 0

def oui (first second third : U8) : BitVec 24 := first ++ second ++ third

namespace DisplayidBlock

def numBytes (block : DisplayidBlock) : Nat := block.payload.length

/-- A byte of the block; there is none past its end. -/
def byte (block : DisplayidBlock) (i : Nat) : Option U8 := block.payload[i]?

end DisplayidBlock

/-- The switch over the mode of an embedded display. -/
def msoStreams (mode : U8) : U8 :=
  if mode = 1 then 2
  else if mode = 2 then 4
  else 0

/-- The middle of `drm_parse_vesa_specific_block`, about the streams. -/
def parseMso (info : DrmDisplayInfo) (dataStructureType mso : U8) : DrmDisplayInfo :=
  let dpType := displayidVesaDpType dataStructureType
  let info :=
    if dpType = displayidVesaDpTypeEdp then
      { info with msoStreamCount := msoStreams (displayidVesaMsoMode mso) }
    else info
  if info.msoStreamCount ≠ 0 then
    let info := { info with msoPixelOverlap := displayidVesaMsoOverlap mso }
    if 8 < info.msoPixelOverlap then { info with msoPixelOverlap := 8 } else info
  else { info with msoPixelOverlap := 0 }

/-- `none` is a read past the block. -/
def drmParseVesaSpecificBlock (numbers : VesaNumbers) (info : DrmDisplayInfo)
    (block : DisplayidBlock) : Option DrmDisplayInfo :=
  if block.numBytes < 3 then some info
  else do
    let oui0 ← block.byte 0
    let oui1 ← block.byte 1
    let oui2 ← block.byte 2
    if oui oui0 oui1 oui2 ≠ numbers.ieeeOui then some info
    else if block.numBytes < 5 then some info
    else do
      let dataStructureType ← block.byte 3
      let mso ← block.byte 4
      let info := parseMso info dataStructureType mso
      if block.numBytes < 7 then some info
      else do
        let dscBppInt ← block.byte 5
        let dscBppFract ← block.byte 6
        some { info with
          dpDscBppX16 := (displayidVesaDscBppInt dscBppInt).zeroExtend 16 <<< 4
            ||| (displayidVesaDscBppFract dscBppFract).zeroExtend 16 }

/-- The loop of `drm_update_vesa_specific_block`. -/
def drmUpdateVesaSpecificBlock (numbers : VesaNumbers) :
    DrmDisplayInfo → List DisplayidBlock → Option DrmDisplayInfo
  | info, [] => some info
  | info, block :: blocks =>
      if block.tag = numbers.vendorSpecific then
        (drmParseVesaSpecificBlock numbers info block).bind fun info =>
          drmUpdateVesaSpecificBlock numbers info blocks
      else drmUpdateVesaSpecificBlock numbers info blocks

/-- The fields as `drm_reset_display_info` leaves them. -/
def drmResetDisplayInfo : DrmDisplayInfo := ⟨0, 0, 0⟩

/-! ## The format -/

/-- What a VESA block says. -/
structure VesaData where
  edp : Bool
  msoMode : U8
  msoOverlap : U8
  dscBppX16 : Option U16
deriving DecidableEq, Repr

/-- A block as a VESA block: at least five bytes, the first three of them the
number of VESA. -/
def DisplayidBlock.vesaData? (numbers : VesaNumbers) (block : DisplayidBlock) :
    Option VesaData :=
  match block.payload with
  | oui0 :: oui1 :: oui2 :: dataStructureType :: mso :: rest =>
      if block.tag = numbers.vendorSpecific ∧ oui oui0 oui1 oui2 = numbers.ieeeOui then
        some {
          edp := dataStructureType.toNat % 8 = 0
          msoMode := mso >>> 5 &&& 3
          msoOverlap := mso &&& 15
          dscBppX16 := match rest with
            | bppInt :: bppFract :: _ =>
                some (BitVec.ofNat 16 (bppInt.toNat % 64 * 16 + bppFract.toNat % 16))
            | _ => none }
      else none
  | _ => none

/-- What the blocks of a section leave behind. -/
def vesaInfo (data : List VesaData) : DrmDisplayInfo :=
  let msoStreamCount := ((data.filter (·.edp)).getLast?.map fun d => msoStreams d.msoMode).getD 0
  { msoStreamCount
    msoPixelOverlap :=
      if msoStreamCount = 0 then 0
      else (data.getLast?.map fun d => if 8 < d.msoOverlap then 8 else d.msoOverlap).getD 0
    dpDscBppX16 := (data.filterMap (·.dscBppX16)).getLast?.getD 0 }

/-! ## The fields of a byte -/

theorem fieldGet_zero (h : Nat) (value : U8) : fieldGet h 0 value = value &&& genmask h 0 :=
  BitVec.ushiftRight_zero _

theorem dpType_eq_edp_iff (value : U8) :
    displayidVesaDpType value = displayidVesaDpTypeEdp ↔ value.toNat % 8 = 0 := by
  have hmask : (genmask 2 0).toNat = 2 ^ 3 - 1 := rfl
  rw [displayidVesaDpType, fieldGet_zero, ← BitVec.toNat_inj, BitVec.toNat_and, hmask,
    Nat.and_two_pow_sub_one_eq_mod]
  rfl

theorem msoMode_eq (value : U8) : displayidVesaMsoMode value = value >>> 5 &&& 3 := by
  rw [displayidVesaMsoMode, fieldGet, BitVec.ushiftRight_and_distrib]
  rfl

theorem msoOverlap_eq (value : U8) : displayidVesaMsoOverlap value = value &&& 15 :=
  fieldGet_zero 3 value

theorem dscBpp_eq (bppInt bppFract : U8) :
    (displayidVesaDscBppInt bppInt).zeroExtend 16 <<< 4
        ||| (displayidVesaDscBppFract bppFract).zeroExtend 16
      = BitVec.ofNat 16 (bppInt.toNat % 64 * 16 + bppFract.toNat % 16) := by
  have hint : (displayidVesaDscBppInt bppInt).toNat = bppInt.toNat % 2 ^ 6 := by
    rw [displayidVesaDscBppInt, fieldGet_zero, BitVec.toNat_and]
    exact Nat.and_two_pow_sub_one_eq_mod bppInt.toNat 6
  have hfract : (displayidVesaDscBppFract bppFract).toNat = bppFract.toNat % 2 ^ 4 := by
    rw [displayidVesaDscBppFract, fieldGet_zero, BitVec.toNat_and]
    exact Nat.and_two_pow_sub_one_eq_mod bppFract.toNat 4
  have hlt : bppFract.toNat % 2 ^ 4 < 2 ^ 4 := Nat.mod_lt _ (by decide)
  -- the fraction fits below the four bits that the integer part is moved by
  have hor : bppInt.toNat % 2 ^ 6 * 2 ^ 4 ||| bppFract.toNat % 2 ^ 4
      = bppInt.toNat % 2 ^ 6 * 2 ^ 4 + bppFract.toNat % 2 ^ 4 := by
    rw [← Nat.shiftLeft_eq, Nat.shiftLeft_add_eq_or_of_lt hlt]
  refine BitVec.eq_of_toNat_eq ?_
  rw [BitVec.toNat_or, BitVec.toNat_shiftLeft, BitVec.toNat_setWidth, BitVec.toNat_setWidth, hint,
    hfract, BitVec.toNat_ofNat, Nat.shiftLeft_eq]
  have h16 : ∀ n, n < 2 ^ 6 * 2 ^ 4 → n % 2 ^ 16 = n := fun n hn => Nat.mod_eq_of_lt (by omega)
  rw [h16 (bppInt.toNat % 2 ^ 6) (by omega), h16 _ (by omega), h16 _ (by omega), h16 _ (by omega),
    hor]
  rfl

/-! ## One block -/

/-- What a VESA block changes. -/
def VesaData.applyTo (d : VesaData) (info : DrmDisplayInfo) : DrmDisplayInfo :=
  let msoStreamCount := if d.edp then msoStreams d.msoMode else info.msoStreamCount
  { msoStreamCount
    msoPixelOverlap :=
      if msoStreamCount = 0 then 0 else if 8 < d.msoOverlap then 8 else d.msoOverlap
    dpDscBppX16 := d.dscBppX16.getD info.dpDscBppX16 }

section Update

variable {numbers : VesaNumbers} {info : DrmDisplayInfo} {block : DisplayidBlock}

theorem parseMso_eq (info : DrmDisplayInfo) (dataStructureType mso : U8) :
    parseMso info dataStructureType mso
      = VesaData.applyTo ⟨dataStructureType.toNat % 8 = 0, mso >>> 5 &&& 3, mso &&& 15, none⟩
          info := by
  unfold parseMso VesaData.applyTo
  simp only [dpType_eq_edp_iff, msoMode_eq, msoOverlap_eq, decide_eq_true_eq]
  -- the count that the overlap is looked at under is the new one
  have hcap : ∀ info : DrmDisplayInfo,
      (if info.msoStreamCount ≠ 0 then
        if 8 < mso &&& 15 then { info with msoPixelOverlap := 8 }
        else { info with msoPixelOverlap := mso &&& 15 }
      else { info with msoPixelOverlap := 0 })
        = { info with
            msoPixelOverlap :=
              if info.msoStreamCount = 0 then 0
              else if 8 < mso &&& 15 then 8 else mso &&& 15 } := by
    intro info
    by_cases hcount : info.msoStreamCount = 0
    · rw [if_neg (not_not.mpr hcount), if_pos hcount]
    · rw [if_pos hcount, if_neg hcount]
      split <;> rfl
  rw [hcap]
  by_cases hedp : dataStructureType.toNat % 8 = 0
  · simp only [if_pos hedp, Option.getD_none]
  · simp only [if_neg hedp, Option.getD_none]

/-- The parser, with the bytes of the block at hand. -/
theorem parse_eq (htag : block.tag = numbers.vendorSpecific) :
    drmParseVesaSpecificBlock numbers info block
      = some ((block.vesaData? numbers).elim info fun d => d.applyTo info) := by
  obtain ⟨tag, payload⟩ := block
  dsimp only at htag
  unfold DisplayidBlock.vesaData?
  match payload with
  | [] => rfl
  | [_] => rfl
  | [_, _] => rfl
  | [_, _, _] => exact ite_self _
  | [_, _, _, _] => exact ite_self _
  | oui0 :: oui1 :: oui2 :: dataStructureType :: mso :: rest =>
      by_cases houi : oui oui0 oui1 oui2 = numbers.ieeeOui
      · dsimp only
        rw [if_pos ⟨htag, houi⟩, Option.elim_some]
        refine (if_neg (not_not.mpr houi)).trans ?_
        match rest with
        | [] => exact congrArg some (parseMso_eq info dataStructureType mso)
        | [_] => exact congrArg some (parseMso_eq info dataStructureType mso)
        | bppInt :: bppFract :: rest =>
            have hparsed : ∀ dscBppX16 : U16,
                { parseMso info dataStructureType mso with dpDscBppX16 := dscBppX16 }
                  = VesaData.applyTo ⟨dataStructureType.toNat % 8 = 0, mso >>> 5 &&& 3, mso &&& 15,
                      some dscBppX16⟩ info := by
              intro dscBppX16
              rw [parseMso_eq]
              rfl
            dsimp only
            rw [← dscBpp_eq, ← hparsed]
            rfl
      · dsimp only
        rw [if_neg fun h => houi h.2, Option.elim_none]
        exact if_pos houi

/-- The section as the list of what its VESA blocks say. -/
theorem update_foldl (blocks : List DisplayidBlock) (info : DrmDisplayInfo) :
    drmUpdateVesaSpecificBlock numbers info blocks
      = some ((blocks.filterMap (·.vesaData? numbers)).foldl (fun info d => d.applyTo info)
          info) := by
  induction blocks generalizing info with
  | nil => rfl
  | cons block blocks ih =>
      rw [drmUpdateVesaSpecificBlock]
      by_cases htag : block.tag = numbers.vendorSpecific
      · rw [if_pos htag, parse_eq htag, Option.bind_some, ih]
        cases hdata : block.vesaData? numbers with
        | none => rw [List.filterMap_cons_none hdata, Option.elim_none]
        | some d => rw [List.filterMap_cons_some hdata, Option.elim_some, List.foldl_cons]
      · have hdata : block.vesaData? numbers = none := by
          unfold DisplayidBlock.vesaData?
          split
          · rw [if_neg fun h => htag h.1]
          · rfl
        rw [if_neg htag, ih, List.filterMap_cons_none hdata]

/-! ## A section -/

/-- One more VESA block. -/
theorem vesaInfo_concat (data : List VesaData) (d : VesaData) :
    vesaInfo (data ++ [d]) = d.applyTo (vesaInfo data) := by
  have hcount : ((data ++ [d]).filter (·.edp)).getLast?.map (fun d => msoStreams d.msoMode)
      = if d.edp then some (msoStreams d.msoMode)
        else (data.filter (·.edp)).getLast?.map fun d => msoStreams d.msoMode := by
    rw [List.filter_append]
    cases hedp : d.edp with
    | false => simp [List.filter_cons_of_neg, hedp]
    | true => simp [List.filter_cons_of_pos, hedp]
  have hbpp : ((data ++ [d]).filterMap (·.dscBppX16)).getLast?
      = d.dscBppX16.or ((data.filterMap (·.dscBppX16)).getLast?) := by
    rw [List.filterMap_append]
    cases hd : d.dscBppX16 with
    | none => simp [hd]
    | some bpp => simp [hd]
  unfold vesaInfo VesaData.applyTo
  rw [hcount, hbpp, List.getLast?_concat]
  cases d.edp <;> cases d.dscBppX16 <;> rfl

theorem foldl_applyTo (data : List VesaData) :
    data.foldl (fun info d => d.applyTo info) drmResetDisplayInfo = vesaInfo data := by
  induction data using List.reverseRecOn with
  | nil => rfl
  | append_singleton data d ih =>
      rw [List.foldl_append, ih, vesaInfo_concat]
      rfl

/-- The infos that a section can leave behind. -/
structure DrmDisplayInfo.Valid (info : DrmDisplayInfo) : Prop where
  streams : info.msoStreamCount = 0 ∨ info.msoStreamCount = 2 ∨ info.msoStreamCount = 4
  overlap : info.msoPixelOverlap ≤ 8
  single : info.msoStreamCount = 0 → info.msoPixelOverlap = 0
  bpp : info.dpDscBppX16.toNat < 1024

theorem msoStreams_cases (mode : U8) :
    msoStreams mode = 0 ∨ msoStreams mode = 2 ∨ msoStreams mode = 4 := by
  unfold msoStreams
  by_cases h1 : mode = 1
  · exact .inr (.inl (if_pos h1))
  · rw [if_neg h1]
    by_cases h2 : mode = 2
    · exact .inr (.inr (if_pos h2))
    · exact .inl (if_neg h2)

theorem applyTo_valid {d : VesaData} (hinfo : info.Valid)
    (hd : ∀ bpp ∈ d.dscBppX16, bpp.toNat < 1024) : (d.applyTo info).Valid where
  streams := by
    unfold VesaData.applyTo
    cases d.edp with
    | false => exact hinfo.streams
    | true => exact msoStreams_cases d.msoMode
  overlap := by
    unfold VesaData.applyTo
    dsimp only
    by_cases hcount : (if d.edp then msoStreams d.msoMode else info.msoStreamCount) = 0
    · rw [if_pos hcount]
      decide
    · rw [if_neg hcount]
      by_cases hoverlap : 8 < d.msoOverlap
      · rw [if_pos hoverlap]
        exact BitVec.le_refl _
      · rw [if_neg hoverlap]
        exact BitVec.not_lt.mp hoverlap
  single h := if_pos h
  bpp := by
    unfold VesaData.applyTo
    cases hbpp : d.dscBppX16 with
    | none => exact hinfo.bpp
    | some bpp => exact hd bpp hbpp

theorem vesaData_bpp {d : VesaData} (h : block.vesaData? numbers = some d) :
    ∀ bpp ∈ d.dscBppX16, bpp.toNat < 1024 := by
  intro bpp hbpp
  unfold DisplayidBlock.vesaData? at h
  split at h
  · next rest _ =>
      rw [Option.ite_none_right_eq_some] at h
      rw [← Option.some.inj h.2] at hbpp
      match rest with
      | [] => cases hbpp
      | [_] => cases hbpp
      | bppInt :: bppFract :: rest =>
          cases hbpp
          rw [BitVec.toNat_ofNat]
          omega
  · cases h

theorem foldl_valid (blocks : List DisplayidBlock) (hinfo : info.Valid) :
    ((blocks.filterMap (·.vesaData? numbers)).foldl (fun info d => d.applyTo info)
      info).Valid := by
  induction blocks generalizing info with
  | nil => exact hinfo
  | cons block blocks ih =>
      cases hdata : block.vesaData? numbers with
      | none =>
          rw [List.filterMap_cons_none hdata]
          exact ih hinfo
      | some d =>
          rw [List.filterMap_cons_some hdata]
          exact ih (applyTo_valid hinfo (vesaData_bpp hdata))

theorem reset_valid : drmResetDisplayInfo.Valid :=
  ⟨.inl rfl, by decide, fun _ => rfl, by decide⟩

/-- A block that says what a valid info tells. -/
def vesaBlock (numbers : VesaNumbers) (info : DrmDisplayInfo) : DisplayidBlock :=
  let msoMode : U8 :=
    if info.msoStreamCount = 4 then 2 else if info.msoStreamCount = 2 then 1 else 0
  { tag := numbers.vendorSpecific
    payload :=
      [numbers.ieeeOui.extractLsb' 16 8, numbers.ieeeOui.extractLsb' 8 8,
        numbers.ieeeOui.extractLsb' 0 8, displayidVesaDpTypeEdp,
        msoMode <<< 5 ||| info.msoPixelOverlap, BitVec.ofNat 8 (info.dpDscBppX16.toNat / 16),
        BitVec.ofNat 8 (info.dpDscBppX16.toNat % 16)] }

theorem oui_extract (number : BitVec 24) :
    oui (number.extractLsb' 16 8) (number.extractLsb' 8 8) (number.extractLsb' 0 8) = number := by
  have hhigh : number.extractLsb' 16 8 ++ number.extractLsb' 8 8 = number.extractLsb' 8 16 :=
    BitVec.extractLsb'_append_extractLsb'_eq_extractLsb' rfl
  have hall : number.extractLsb' 8 16 ++ number.extractLsb' 0 8 = number.extractLsb' 0 24 :=
    BitVec.extractLsb'_append_extractLsb'_eq_extractLsb' rfl
  rw [oui, hhigh, hall, BitVec.extractLsb'_eq_self]

theorem mso_byte : ∀ mode ∈ [(0 : U8), 1, 2], ∀ overlap : U8, overlap ≤ 8 →
    (mode <<< 5 ||| overlap) >>> 5 &&& 3 = mode ∧ (mode <<< 5 ||| overlap) &&& 15 = overlap := by
  decide +kernel

theorem bpp_bytes {bpp : U16} (h : bpp.toNat < 1024) :
    BitVec.ofNat 16 ((BitVec.ofNat 8 (bpp.toNat / 16)).toNat % 64 * 16
      + (BitVec.ofNat 8 (bpp.toNat % 16)).toNat % 16) = bpp := by
  refine BitVec.eq_of_toNat_eq ?_
  rw [BitVec.toNat_ofNat, BitVec.toNat_ofNat, BitVec.toNat_ofNat]
  omega

theorem vesaBlock_data (numbers : VesaNumbers) (hinfo : info.Valid) :
    ∃ d, (vesaBlock numbers info).vesaData? numbers = some d
      ∧ d.applyTo drmResetDisplayInfo = info := by
  obtain ⟨count, overlap, bpp⟩ := info
  obtain ⟨hcount, hoverlap, hsingle, hbpp⟩ := hinfo
  dsimp only at hcount hoverlap hsingle hbpp
  have hcap : ¬8 < overlap := BitVec.not_lt.mpr hoverlap
  refine ⟨_, if_pos ⟨rfl, oui_extract numbers.ieeeOui⟩, ?_⟩
  unfold VesaData.applyTo
  dsimp only
  rw [bpp_bytes hbpp]
  rcases hcount with rfl | rfl | rfl
  · obtain ⟨hmode, hlow⟩ := mso_byte 0 (by decide) overlap hoverlap
    rw [hsingle rfl] at hmode hlow ⊢
    simp only [if_neg (by decide : ¬(0 : U8) = 4), if_neg (by decide : ¬(0 : U8) = 2), hmode]
    rfl
  · obtain ⟨hmode, hlow⟩ := mso_byte 1 (by decide) overlap hoverlap
    simp only [if_neg (by decide : ¬(2 : U8) = 4), if_pos, hmode, hlow, hcap, if_false]
    rfl
  · obtain ⟨hmode, hlow⟩ := mso_byte 2 (by decide) overlap hoverlap
    simp only [if_pos, hmode, hlow, hcap, if_false]
    rfl

/-- **The infos that a display can bring about** are the valid ones: nothing else
comes from the blocks of a section, and each of them from some section. -/
theorem vesa_update_range (numbers : VesaNumbers) (info : DrmDisplayInfo) :
    (∃ blocks, drmUpdateVesaSpecificBlock numbers drmResetDisplayInfo blocks = some info)
      ↔ info.Valid := by
  constructor
  · rintro ⟨blocks, h⟩
    rw [update_foldl] at h
    rw [← Option.some.inj h]
    exact foldl_valid blocks reset_valid
  · intro hinfo
    obtain ⟨d, hdata, hd⟩ := vesaBlock_data numbers hinfo
    refine ⟨[vesaBlock numbers info], ?_⟩
    rw [update_foldl, List.filterMap_cons_some hdata]
    exact congrArg some hd

/-- **What a section says.** No byte past a block is read, and the fields are told
by the last of the VESA blocks that speak of them. -/
theorem vesa_update_eq (numbers : VesaNumbers) (blocks : List DisplayidBlock) :
    drmUpdateVesaSpecificBlock numbers drmResetDisplayInfo blocks
      = some (vesaInfo (blocks.filterMap (·.vesaData? numbers))) := by
  rw [update_foldl, foldl_applyTo]

end Update

end Rustlux
