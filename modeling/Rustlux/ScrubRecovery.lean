import Mathlib.Logic.Relation
import Rustlux.Scrub

/-!
# Recovery of the scrubber

Runs that alternate memory faults and scrub passes. A fault step may hit
every 72-bit word once; the next pass undoes it, whether it hit the data or
the shadow code, and counts it. The invariant of a run is that after each
pass every word is the one that was sealed (`SoftEcc.SameWords`).
-/

open LinearCode (Word)
open Relation (ReflTransGen)

namespace Rustlux

/-! ## One word near a codeword -/

/-- What a pass makes of a word at most one flip away from a codeword. -/
theorem verify_of_near {x : Word 64 8} {d : U64}
    (h : Word.dist x (softEccCode.word d) ≤ 1) :
    (x = softEccCode.word d ∧ verify x.data x.check = .clean)
      ∨ (x ≠ softEccCode.word d ∧ verify x.data x.check = .corrected d) := by
  rcases verifyWord_isRadiusOne.within_one h with ⟨hx, hv⟩ | ⟨hx, hv⟩
  · exact Or.inl ⟨hx, verify_eq_iff.mpr hv⟩
  · exact Or.inr ⟨hx, verify_eq_iff.mpr hv⟩

theorem repair_of_near {x : Word 64 8} {d : U64}
    (h : Word.dist x (softEccCode.word d) ≤ 1) : repair x = softEccCode.word d := by
  rcases verify_of_near h with ⟨hx, hv⟩ | ⟨-, hv⟩
  · rw [repair, hv]
    exact hx
  · rw [repair, hv]
    rfl

theorem isCorrected_of_near {x : Word 64 8} {d : U64}
    (h : Word.dist x (softEccCode.word d) ≤ 1) :
    isCorrected x = decide (x ≠ softEccCode.word d) := by
  rcases verify_of_near h with ⟨hx, hv⟩ | ⟨hx, hv⟩
  · rw [isCorrected, hv]
    simp only [hx, ne_eq, not_true, decide_false]
  · rw [isCorrected, hv]
    simp only [hx, ne_eq, not_false_iff, decide_true]

theorem isUncorrectable_of_near {x : Word 64 8} {d : U64}
    (h : Word.dist x (softEccCode.word d) ≤ 1) : isUncorrectable x = false := by
  rcases verify_of_near h with ⟨-, hv⟩ | ⟨-, hv⟩ <;> rw [isUncorrectable, hv]

/-! ## Runs -/

/-- `r'` in memory `m'` is `r` in memory `m`, at most one of the 72 bits
of each word flipped. -/
structure SoftEccRegion.Near (m m' : ByteMem) (r r' : SoftEccRegion) : Prop where
  shape : r.SameShape r'
  cells : ∀ i < r.words, Word.dist (r'.cell m' i) (r.cell m i) ≤ 1

namespace SoftEcc

/-- A fault step: memory inside and outside the regions changes, but at
most one bit in each protected word, and no counter. -/
structure Faults (S T : SoftEcc) : Prop where
  regions : List.Forall₂ (SoftEccRegion.Near S.mem T.mem) S.regions T.regions
  corrected : T.corrected = S.corrected
  uncorrectable : T.uncorrectable = S.uncorrectable

/-- The words a fault step hit. -/
def hits (S T : SoftEcc) : Nat :=
  ((S.regions.zip T.regions).map fun p =>
    (List.range p.1.words).countP fun i => decide (p.2.cell T.mem i ≠ p.1.cell S.mem i)).sum

/-- The same regions, word by word: data and code. -/
def SameWords (S T : SoftEcc) : Prop :=
  List.Forall₂ (SoftEccRegion.Mapped id S.mem T.mem) S.regions T.regions

/-- A fault step and the scrub pass after it. -/
def Cycle (b : Build) (S S' : SoftEcc) : Prop := ∃ T, Faults S T ∧ S' = scrubPass b T

end SoftEcc

/-! ### Regions related word by word -/

theorem SoftEccRegion.SameShape.disjoint {r r' q q' : SoftEccRegion} (h : r.SameShape r')
    (hq : q.SameShape q') (hd : r.Disjoint q) : r'.Disjoint q' := by
  intro x hx hx'
  rw [Covers, h.addr, h.words] at hx
  rw [Covers, hq.addr, hq.words] at hx'
  exact hd x hx hx'

theorem exists_of_mem_right {α β : Type} {R : α → β → Prop} :
    ∀ {as : List α} {bs : List β} {b : β},
      List.Forall₂ R as bs → b ∈ bs → ∃ a ∈ as, R a b
  | _, _, _, .cons h hs, hb => by
      rcases List.mem_cons.mp hb with rfl | hb
      · exact ⟨_, List.mem_cons_self, h⟩
      · obtain ⟨a, ha, hR⟩ := exists_of_mem_right hs hb
        exact ⟨a, List.mem_cons_of_mem _ ha, hR⟩

theorem forall₂_comp {α β γ : Type} {R : α → β → Prop} {S : β → γ → Prop} {T : α → γ → Prop}
    (h : ∀ a b c, R a b → S b c → T a c) :
    ∀ {as : List α} {bs : List β} {cs : List γ},
      List.Forall₂ R as bs → List.Forall₂ S bs cs → List.Forall₂ T as cs
  | _, _, _, .nil, .nil => .nil
  | _, _, _, .cons hr hrs, .cons hs hss => .cons (h _ _ _ hr hs) (forall₂_comp h hrs hss)

theorem pairwise_disjoint_of_sameShape :
    ∀ {rs rs' : List SoftEccRegion}, List.Forall₂ SoftEccRegion.SameShape rs rs' →
      rs.Pairwise SoftEccRegion.Disjoint → rs'.Pairwise SoftEccRegion.Disjoint
  | _, _, .nil, _ => .nil
  | r :: rs, r' :: rs', .cons h hs, hd => by
      obtain ⟨hr, hrs⟩ := List.pairwise_cons.mp hd
      refine List.pairwise_cons.mpr ⟨fun q' hq' => ?_, pairwise_disjoint_of_sameShape hs hrs⟩
      obtain ⟨q, hq, hqq'⟩ := exists_of_mem_right hs hq'
      exact h.disjoint hqq' (hr q hq)

theorem SoftEccRegion.Sealed.cell {r : SoftEccRegion} {m : ByteMem} (h : r.Sealed m) {i : Nat}
    (hi : i < r.words) : r.cell m i = softEccCode.word (r.cell m i).data :=
  Word.ext rfl (h i hi)

namespace SoftEcc

theorem SameWords.refl (S : SoftEcc) : SameWords S S :=
  List.forall₂_same.mpr fun _ _ => ⟨⟨rfl, rfl, rfl, rfl⟩, fun _ _ => rfl⟩

theorem SameWords.trans {S T U : SoftEcc} (h : SameWords S T) (h' : SameWords T U) :
    SameWords S U := by
  refine forall₂_comp (fun r r' r'' hr hr' => ⟨?_, fun i hi => ?_⟩) h h'
  · exact ⟨hr'.shape.name.trans hr.shape.name, hr'.shape.addr.trans hr.shape.addr,
      hr'.shape.words.trans hr.shape.words, hr'.shape.readonly.trans hr.shape.readonly⟩
  · exact (hr'.cells i (hr.shape.words ▸ hi)).trans (hr.cells i hi)

theorem SameWords.disjoint {S T : SoftEcc} (h : SameWords S T)
    (hd : S.regions.Pairwise SoftEccRegion.Disjoint) :
    T.regions.Pairwise SoftEccRegion.Disjoint :=
  pairwise_disjoint_of_sameShape (h.imp fun _ _ hr => hr.shape) hd

theorem SameWords.sealed {S T : SoftEcc} (h : SameWords S T) (hs : S.Sealed) : T.Sealed := by
  intro r' hr' i hi
  obtain ⟨r, hr, hmap⟩ := exists_of_mem_right h hr'
  have hi' : i < r.words := by rw [← hmap.shape.words]; exact hi
  have hcell := (hmap.cells i hi').trans ((hs r hr).cell hi')
  have hdata := congrArg Word.data hcell
  have hcheck := congrArg Word.check hcell
  exact hcheck.trans (congrArg encode hdata.symm)

end SoftEcc

/-! ### One pass after one fault step -/

theorem SoftEccRegion.Near.repair {m m' m'' : ByteMem} {r r' r'' : SoftEccRegion}
    (hn : r.Near m m' r') (hs : r.Sealed m)
    (hp : SoftEccRegion.Mapped repair m' m'' r' r'') : SoftEccRegion.Mapped id m m'' r r'' := by
  refine ⟨?_, fun i hi => ?_⟩
  · exact ⟨hp.shape.name.trans hn.shape.name, hp.shape.addr.trans hn.shape.addr,
      hp.shape.words.trans hn.shape.words, hp.shape.readonly.trans hn.shape.readonly⟩
  · have hnear := hn.cells i hi
    rw [hs.cell hi] at hnear
    rw [hp.cells i (by rw [hn.shape.words]; exact hi), repair_of_near hnear, id, ← hs.cell hi]

/-- The pass counts a word as corrected if it was hit, and none as
uncorrectable. -/
theorem countCells_of_near {m m' : ByteMem} {rs rs' : List SoftEccRegion}
    (h : List.Forall₂ (fun r r' => r.Sealed m ∧ r.Near m m' r') rs rs') :
    countCells isCorrected m' rs' = ((rs.zip rs').map fun p => (List.range p.1.words).countP
        fun i => decide (p.2.cell m' i ≠ p.1.cell m i)).sum
      ∧ countCells isUncorrectable m' rs' = 0 := by
  induction h with
  | nil => exact ⟨rfl, rfl⟩
  | @cons r r' rs rs' hhead _ ih =>
      obtain ⟨hs, hn⟩ := hhead
      obtain ⟨hcorr, hunc⟩ := ih
      have hnear : ∀ i ∈ List.range r.words,
          Word.dist (r'.cell m' i) (softEccCode.word (r.cell m i).data) ≤ 1 := by
        intro i hi
        rw [← hs.cell (List.mem_range.mp hi)]
        exact hn.cells i (List.mem_range.mp hi)
      simp only [countCells, List.map_cons, List.sum_cons, List.zip_cons_cons] at hcorr hunc ⊢
      rw [hcorr, hunc, hn.shape.words]
      refine ⟨congrArg (· + _) (List.countP_congr fun i hi => ?_),
        List.countP_eq_zero.mpr fun i hi => ?_⟩
      · rw [isCorrected_of_near (hnear i hi), ← hs.cell (List.mem_range.mp hi)]
      · rw [isUncorrectable_of_near (hnear i hi)]
        exact Bool.false_ne_true

namespace SoftEcc

theorem cycle_step (b : Build) {S T : SoftEcc}
    (hd : S.regions.Pairwise SoftEccRegion.Disjoint) (hs : S.Sealed) (hf : Faults S T) :
    SameWords S (scrubPass b T)
      ∧ (scrubPass b T).uncorrectable = S.uncorrectable
      ∧ (scrubPass b T).corrected = S.corrected + BitVec.ofNat 64 (hits S T) := by
  have hdT := pairwise_disjoint_of_sameShape (hf.regions.imp fun _ _ h => h.shape) hd
  have pass := scrubRegions_spec b T.regions T.toMachine hdT
  have hnear := (List.forall₂_and_left _ _).mpr ⟨hs, hf.regions⟩
  obtain ⟨hcorr, hunc⟩ := countCells_of_near hnear
  refine ⟨forall₂_comp (fun r r' r'' h h' => h.2.repair h.1 h') hnear pass.regions, ?_, ?_⟩
  · show (scrubRegions b T.toMachine T.regions).1.uncorrectable = _
    rw [pass.uncorrectable, hunc, hf.uncorrectable]
    exact BitVec.add_zero _
  · show (scrubRegions b T.toMachine T.regions).1.corrected = _
    rw [pass.corrected, hcorr, hf.corrected]
    rfl

/-- The invariant of a run of cycles: nothing but the counter of
corrected words has moved. -/
theorem run_invariant {b : Build} {S P : SoftEcc}
    (hd : S.regions.Pairwise SoftEccRegion.Disjoint) (hs : S.Sealed)
    (hrun : ReflTransGen (Cycle b) S P) :
    SameWords S P ∧ P.uncorrectable = S.uncorrectable := by
  induction hrun with
  | refl => exact ⟨SameWords.refl S, rfl⟩
  | tail _ hcycle ih =>
      obtain ⟨hsame, hunc⟩ := ih
      obtain ⟨T, hf, rfl⟩ := hcycle
      obtain ⟨hsame', hunc', -⟩ := cycle_step b (hsame.disjoint hd) (hsame.sealed hs) hf
      exact ⟨hsame.trans hsame', hunc'.trans hunc⟩

end SoftEcc

/-- **Every pass restores what was sealed.** After any run of fault steps
and passes, one more fault step and its pass: each word is the sealed one
and carries its own code, nothing was given up on, and the words hit since
the previous pass are exactly those counted. -/
theorem scrub_recovers (b : Build) {S P T : SoftEcc}
    (hd : S.regions.Pairwise SoftEccRegion.Disjoint) (hs : S.Sealed)
    (hrun : ReflTransGen (SoftEcc.Cycle b) S P) (hf : SoftEcc.Faults P T) :
    S.SameWords (scrubPass b T)
      ∧ (scrubPass b T).Sealed
      ∧ (scrubPass b T).uncorrectable = S.uncorrectable
      ∧ (scrubPass b T).corrected = P.corrected + BitVec.ofNat 64 (SoftEcc.hits P T) := by
  obtain ⟨hsame, hunc⟩ := SoftEcc.run_invariant hd hs hrun
  obtain ⟨hsame', hunc', hcorr⟩ :=
    SoftEcc.cycle_step b (hsame.disjoint hd) (hsame.sealed hs) hf
  have hall := hsame.trans hsame'
  exact ⟨hall, hall.sealed hs, hunc'.trans hunc, hcorr⟩

/-- Two regions, sealed when zero, of which the second has the code `c`. -/
def twoRegions (m : ByteMem) (c : U8) : SoftEcc :=
  { mem := m, pageRo := fun _ => true, corrected := 0, uncorrectable := 0, tainted := false
    log := []
    regions := [⟨"idt", 0, 3, [0, 0, 0], true, rfl⟩, ⟨"syscall table", 64, 1, [c], true, rfl⟩] }

/-- Bit 28 flips, and a bit of a code. -/
def hitOnce : SoftEcc := twoRegions (fun x => if x = 3 then 0x10 else 0) 4

def oncePassed : SoftEcc := scrubPass .rust hitOnce

/-- Bit 28 once more, and one of the second region. -/
def hitAgain : SoftEcc :=
  { oncePassed with mem := fun x => if x = 3 then 0x10 else if x = 66 then 1 else oncePassed.mem x }

theorem hitOnce_faults : SoftEcc.Faults (twoRegions (fun _ => 0) 0) hitOnce := by
  refine ⟨.cons ⟨⟨rfl, rfl, rfl, rfl⟩, ?_⟩ (.cons ⟨⟨rfl, rfl, rfl, rfl⟩, ?_⟩ .nil), rfl, rfl⟩
  · decide +kernel
  · decide +kernel

theorem hitAgain_faults : SoftEcc.Faults oncePassed hitAgain := by
  have hcells : ∀ r ∈ oncePassed.regions, ∀ i < r.words,
      Word.dist (r.cell hitAgain.mem i) (r.cell oncePassed.mem i) ≤ 1 := by
    decide +kernel
  unfold hitAgain at hcells ⊢
  generalize oncePassed = P at *
  exact ⟨List.forall₂_same.mpr fun r hr => ⟨⟨rfl, rfl, rfl, rfl⟩, hcells r hr⟩, rfl, rfl⟩

theorem scrub_recovers_bit_28 :
    (twoRegions (fun _ => 0) 0).SameWords (scrubPass .rust hitAgain)
      ∧ (scrubPass .rust hitAgain).Sealed ∧ (scrubPass .rust hitAgain).uncorrectable = 0
      ∧ oncePassed.corrected = 2 ∧ (scrubPass .rust hitAgain).corrected = 4 := by
  have hdisjoint : (twoRegions (fun _ => 0) 0).regions.Pairwise SoftEccRegion.Disjoint := by
    refine .cons (fun r hr => ?_) (List.pairwise_singleton _ _)
    obtain rfl := List.mem_singleton.mp hr
    intro x hx hx'
    have hfirst : x < 0 + 8 * 3 := hx.2
    have hsecond : 64 ≤ x := hx'.1
    omega
  have hsealed : (twoRegions (fun _ => 0) 0).Sealed := by
    unfold SoftEcc.Sealed SoftEccRegion.Sealed
    decide +kernel
  have hcycle : SoftEcc.Cycle .rust (twoRegions (fun _ => 0) 0) oncePassed :=
    ⟨hitOnce, hitOnce_faults, rfl⟩
  obtain ⟨hsame, hsealed', hunc, hcorr⟩ :=
    scrub_recovers .rust hdisjoint hsealed (.single hcycle) hitAgain_faults
  have honce : oncePassed.corrected = 2 := by decide +kernel
  have hhits : SoftEcc.hits oncePassed hitAgain = 2 := by decide +kernel
  rw [honce, hhits] at hcorr
  exact ⟨hsame, hsealed', hunc, honce, hcorr⟩

end Rustlux
