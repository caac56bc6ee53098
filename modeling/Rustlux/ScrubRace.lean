import Rustlux.Lts
import Rustlux.Scrub

/-!
# A writer against the scrubber

A writer that updates words of a protected region and then calls
`rustlux_softecc_reseal`, interleaved with scrub passes. The pass holds
`softecc_lock` from its first word to its last and the reseal takes it, but
the writer's stores are outside the lock: a pass may judge a half-finished
update, and a store may land between a pass's read and its write-back.

Uninterrupted, the steps of a pass make up `scrubPass` (`run_pass`). Under
interference an update survives every run in which the scrubber never judges
a word of a region out of date to be something else than it is, and no store
comes between such a judgement and its write-back (`reseal_keeps_updates`).
-/

open LinearCode (Word)

namespace Rustlux

/-! ## Steps -/

/-- Where a scrub pass stands: at the head of the loop for word `i` of region
`ri`, with the word in hand, about to write a corrected word back, or about
to re-encode and report. -/
inductive PassPc where
  | idle
  | word (ri i : Nat)
  | verify (ri i : Nat) (word : U64)
  | fix (ri i : Nat) (good : U64)
  | fixed (ri i : Nat) (good : U64)
  | giveUp (ri i : Nat) (word : U64)
deriving DecidableEq, Repr

/-- One step of a pass; from `idle` it takes the lock. -/
def scrubStep (b : Build) (S : SoftEcc) : PassPc → SoftEcc × PassPc
  | .idle => (S, .word 0 0)
  | .word ri i =>
      match S.regions[ri]? with
      | none => (S, .idle)
      | some r =>
          if i < r.words then (S, .verify ri i (S.mem.load (r.wordAddr i) 64))
          else (S, .word (ri + 1) 0)
  | .verify ri i word =>
      match S.regions[ri]? with
      | none => (S, .idle)
      | some r =>
          let res := b.verify word (r.code i)
          if res.status = RUSTLUX_SECC_CORRECTED then (S, .fix ri i res.data)
          else if res.status = RUSTLUX_SECC_UNCORRECTABLE then (S, .giveUp ri i word)
          else (S, .word ri (i + 1))
  | .fix ri i good =>
      match S.regions[ri]? with
      | none => (S, .idle)
      | some r => ({ S with toMachine := softeccFixWord S.toMachine r i good }, .fixed ri i good)
  | .fixed ri i good =>
      match S.regions[ri]? with
      | none => (S, .idle)
      | some r =>
          ({ S with
              corrected := S.corrected + 1
              log := S.log ++ [.corrected r.name (r.wordAddr i)]
              regions := S.regions.set ri (r.setCode i (b.encode good)) },
            .word ri (i + 1))
  | .giveUp ri i word =>
      match S.regions[ri]? with
      | none => (S, .idle)
      | some r =>
          ({ S with
              uncorrectable := S.uncorrectable + 1
              log := S.log ++ [.uncorrectable r.name (r.wordAddr i)]
              tainted := true
              regions := S.regions.set ri (r.setCode i (b.encode word)) },
            .word ri (i + 1))

/-- The loop of `rustlux_softecc_reseal`: the first region at `addr`. -/
def resealRegions (b : Build) (m : ByteMem) (addr : Nat) : List SoftEccRegion → List SoftEccRegion
  | [] => []
  | r :: rs => if r.addr ≠ addr then r :: resealRegions b m addr rs else r.sealCodes b m :: rs

def rustluxSofteccReseal (b : Build) (S : SoftEcc) (addr : Nat) : SoftEcc :=
  { S with regions := resealRegions b S.mem addr S.regions }

/-- The kernel, the pass, and the writer: its stores to come, as word index
and value, and whether it has resealed. -/
structure ScrubRace where
  sys : SoftEcc
  pass : PassPc
  writes : List (Nat × U64)
  resealed : Bool

inductive Actor where
  | writer
  | scrubber
deriving DecidableEq, Repr

namespace ScrubRace

/-- The writer's region starts at `addr`. Its reseal waits for the lock. -/
def step (b : Build) (addr : Nat) (P : ScrubRace) : Actor → Option ScrubRace
  | .scrubber =>
      let p := scrubStep b P.sys P.pass
      some { P with sys := p.1, pass := p.2 }
  | .writer =>
      match P.writes with
      | (i, v) :: ws =>
          some { P with
            sys := { P.sys with mem := P.sys.mem.store (addr + 8 * i) v }
            writes := ws }
      | [] =>
          if P.resealed = false ∧ P.pass = .idle then
            some { P with sys := rustluxSofteccReseal b P.sys addr, resealed := true }
          else none

/-- A writer about to start, no pass in progress. -/
def start (S : SoftEcc) (writes : List (Nat × U64)) : ScrubRace :=
  { sys := S, pass := .idle, writes, resealed := false }

/-- The writer has resealed and no pass is in progress. -/
def Finished (P : ScrubRace) : Prop := P.writes = [] ∧ P.resealed = true ∧ P.pass = .idle

/-! ## An uninterrupted pass -/

/-- `Q` is `P` after some steps of the scrubber alone. -/
def Scrubs (b : Build) (addr : Nat) (P Q : ScrubRace) : Prop :=
  ∃ n, Lts.run (step b addr) P (List.replicate n .scrubber) = some Q

section Solo

variable {b : Build} {addr : Nat} {P Q R : ScrubRace}

theorem Scrubs.refl (P : ScrubRace) : Scrubs b addr P P := ⟨0, rfl⟩

theorem Scrubs.trans (h : Scrubs b addr P Q) (h' : Scrubs b addr Q R) : Scrubs b addr P R := by
  obtain ⟨n, hn⟩ := h
  obtain ⟨m, hm⟩ := h'
  refine ⟨n + m, ?_⟩
  rw [← List.replicate_append_replicate]
  exact Lts.run_trans hn hm

theorem Scrubs.head (h : Scrubs b addr
    { P with sys := (scrubStep b P.sys P.pass).1, pass := (scrubStep b P.sys P.pass).2 } Q) :
    Scrubs b addr P Q := by
  obtain ⟨n, hn⟩ := h
  exact ⟨n + 1, Lts.run_cons_eq_some.mpr ⟨_, rfl, hn⟩⟩

variable {ws : List (Nat × U64)} {d : Bool} {s : Machine} {front back : List SoftEccRegion}
  {r : SoftEccRegion}

theorem getElem?_length_append : (front ++ r :: back)[front.length]? = some r := by
  rw [List.getElem?_append_right (Nat.le_refl _), Nat.sub_self]
  rfl

theorem set_length_append (r' : SoftEccRegion) :
    (front ++ r :: back).set front.length r' = front ++ r' :: back := by
  rw [List.set_append_right _ _ (Nat.le_refl _), Nat.sub_self]
  rfl

theorem scrubs_word {i : Nat} (hi : i < r.words) :
    Scrubs b addr ⟨⟨s, front ++ r :: back⟩, .word front.length i, ws, d⟩
      ⟨⟨(scrubWord b s r i).1, front ++ (scrubWord b s r i).2 :: back⟩,
        .word front.length (i + 1), ws, d⟩ := by
  refine Scrubs.head ?_
  simp only [scrubStep, getElem?_length_append, hi, if_true]
  refine Scrubs.head ?_
  simp only [scrubStep, getElem?_length_append]
  by_cases hc : (b.verify (s.mem.load (r.wordAddr i) 64) (r.code i)).status
      = RUSTLUX_SECC_CORRECTED
  · refine Scrubs.head (Scrubs.head ?_)
    simp only [scrubStep, scrubWord, hc, if_true, getElem?_length_append, set_length_append]
    exact Scrubs.refl _
  · by_cases hu : (b.verify (s.mem.load (r.wordAddr i) 64) (r.code i)).status
        = RUSTLUX_SECC_UNCORRECTABLE
    · have hne : RUSTLUX_SECC_UNCORRECTABLE ≠ RUSTLUX_SECC_CORRECTED := by decide
      refine Scrubs.head ?_
      simp only [scrubStep, scrubWord, hu, hne, if_true, if_false, getElem?_length_append,
        set_length_append]
      exact Scrubs.refl _
    · simp only [scrubWord, hc, hu, if_false]
      exact Scrubs.refl _

theorem scrubs_region {n : Nat} (hn : n ≤ r.words) :
    Scrubs b addr ⟨⟨s, front ++ r :: back⟩, .word front.length 0, ws, d⟩
      (let p := (List.range n).foldl (fun p i => scrubWord b p.1 p.2 i) (s, r)
       ⟨⟨p.1, front ++ p.2 :: back⟩, .word front.length n, ws, d⟩) := by
  induction n with
  | zero => exact Scrubs.refl _
  | succ n ih =>
      have hwords := (scrubRegion_upTo b s r (Nat.le_of_succ_le hn)).shape.words
      rw [List.range_succ, List.foldl_append]
      exact (ih (by omega)).trans (scrubs_word (by omega))

theorem scrubs_next_region {i : Nat} (hi : r.words ≤ i) :
    Scrubs b addr ⟨⟨s, front ++ r :: back⟩, .word front.length i, ws, d⟩
      ⟨⟨s, front ++ r :: back⟩, .word (front.length + 1) 0, ws, d⟩ := by
  refine Scrubs.head ?_
  simp only [scrubStep, getElem?_length_append, Nat.not_lt.mpr hi, if_false]
  exact Scrubs.refl _

theorem scrubs_regions :
    ∀ (rest front : List SoftEccRegion) (s : Machine),
      Scrubs b addr ⟨⟨s, front ++ rest⟩, .word front.length 0, ws, d⟩
        ⟨⟨(scrubRegions b s rest).1, front ++ (scrubRegions b s rest).2⟩, .idle, ws, d⟩
  | [], front, s => by
      have hend : (front ++ [])[front.length]? = none := by simp
      refine Scrubs.head ?_
      simp only [scrubStep, hend]
      exact Scrubs.refl _
  | r :: rest, front, s => by
      have hwords := (scrubRegion_spec b s r).shape.words
      have htail := scrubs_regions rest (front ++ [(softeccScrubRegion b s r).2])
        (softeccScrubRegion b s r).1
      rw [List.append_assoc, List.append_assoc, List.length_append] at htail
      have hloop : Scrubs b addr ⟨⟨s, front ++ r :: rest⟩, .word front.length 0, ws, d⟩
          ⟨⟨(softeccScrubRegion b s r).1, front ++ (softeccScrubRegion b s r).2 :: rest⟩,
            .word front.length r.words, ws, d⟩ := scrubs_region (Nat.le_refl _)
      exact hloop.trans ((scrubs_next_region (Nat.le_of_eq hwords)).trans htail)

/-- **The steps of a pass nobody interrupts are `scrubPass`.** -/
theorem run_pass (S : SoftEcc) :
    Scrubs b addr ⟨S, .idle, ws, d⟩ ⟨scrubPass b S, .idle, ws, d⟩ :=
  Scrubs.head (scrubs_regions S.regions [] S.toMachine)

end Solo

/-! ## The writer's stores -/

/-- The memory after the stores `ws` to words of the region at `addr`. -/
def writeAll (addr : Nat) (m : ByteMem) (ws : List (Nat × U64)) : ByteMem :=
  ws.foldl (fun m w => m.store (addr + 8 * w.1) w.2) m

/-- The last value the writer stored in word `i`, or the old one. -/
def lastStored (i : Nat) (old : U64) (ws : List (Nat × U64)) : U64 :=
  ws.foldl (fun v w => if w.1 = i then w.2 else v) old

theorem writeAll_frame {addr x : Nat} :
    ∀ {ws : List (Nat × U64)} {m : ByteMem},
      (∀ w ∈ ws, x < addr + 8 * w.1 ∨ addr + 8 * w.1 + 8 ≤ x) → writeAll addr m ws x = m x := by
  intro ws
  induction ws with
  | nil =>
      intro m _
      rfl
  | cons w ws ih =>
      intro m h
      obtain ⟨hw, hws⟩ := List.forall_mem_cons.mp h
      rw [writeAll, List.foldl_cons, ← writeAll, ih hws]
      exact ByteMem.store_of_disjoint m w.2 hw

theorem writeAll_uncovered {r : SoftEccRegion} {ws : List (Nat × U64)} {m : ByteMem} {x : Nat}
    (hws : ∀ w ∈ ws, w.1 < r.words) (hx : ¬r.Covers x) : writeAll r.addr m ws x = m x := by
  refine writeAll_frame fun w hw => ?_
  have := hws w hw
  simp only [SoftEccRegion.Covers] at hx
  omega

theorem load_writeAll {addr i : Nat} :
    ∀ (ws : List (Nat × U64)) (m : ByteMem),
      (writeAll addr m ws).load (addr + 8 * i) 64
        = lastStored i (m.load (addr + 8 * i) 64) ws := by
  intro ws
  induction ws with
  | nil =>
      intro m
      rfl
  | cons w ws ih =>
      intro m
      have hload : (m.store (addr + 8 * w.1) w.2).load (addr + 8 * i) 64
          = if w.1 = i then w.2 else m.load (addr + 8 * i) 64 := by
        by_cases h : w.1 = i
        · rw [if_pos h, h]
          exact ByteMem.load_store m w.2 rfl
        · rw [if_neg h]
          exact ByteMem.load_store_of_disjoint m w.2 (by omega)
      rw [writeAll, List.foldl_cons, ← writeAll, ih, hload]
      rfl

/-! ## Runs without a lost update

Regions may overlap, and several may start at one address, of which the
reseal recomputes the first. -/

/-- Whether region `ri` may be out of date when the writer of `r` has or has
not resealed: it shares a byte with `r`, and is not the one recomputed. -/
def Stale (S : SoftEcc) (r : SoftEccRegion) (resealed : Bool) (ri : Nat) : Prop :=
  (resealed = true → ri ≠ S.regions.findIdx fun q => q.addr == r.addr)
    ∧ ∃ q, S.regions[ri]? = some q ∧ ∃ x, q.Covers x ∧ r.Covers x

/-- A step that cannot lose an update: the scrubber does not judge a word of
a region out of date to be something else than it now is, and no store hits a
word the scrubber is about to write back. -/
def Harmless (S : SoftEcc) (r : SoftEccRegion) (P : ScrubRace) : Actor → Prop
  | .scrubber => ∀ ri i word q d, P.pass = .verify ri i word → Stale S r P.resealed ri →
      P.sys.regions[ri]? = some q → verify word (q.code i) = .corrected d →
      d = P.sys.mem.load (q.wordAddr i) 64
  | .writer => ∀ i v ws ri j good q, P.writes = (i, v) :: ws → P.pass = .fix ri j good →
      P.sys.regions[ri]? = some q →
      r.wordAddr i + 8 ≤ q.wordAddr j ∨ q.wordAddr j + 8 ≤ r.wordAddr i

section Invariant

variable (S : SoftEcc) (r : SoftEccRegion) (stores : List (Nat × U64))

/-- What a pass in progress may hold in hand. A word it has read from a region
up to date is still there, and so is the word it is about to write back. -/
def PassOk (P : ScrubRace) : Prop :=
  match P.pass with
  | .idle => True
  | .word _ _ => True
  | .verify ri i word => ¬Stale S r P.resealed ri →
      ∃ q, P.sys.regions[ri]? = some q ∧ i < q.words ∧ word = P.sys.mem.load (q.wordAddr i) 64
  | .fix ri i good => Stale S r P.resealed ri ∧
      ∃ q, P.sys.regions[ri]? = some q ∧ P.sys.mem.load (q.wordAddr i) 64 = good
  | .fixed ri _ _ => Stale S r P.resealed ri
  | .giveUp ri _ _ => Stale S r P.resealed ri

/-- The stores so far and nothing else have changed memory, no region has
moved, and the regions up to date are sealed. -/
structure Kept (P : ScrubRace) : Prop where
  mem : ∃ past, stores = past ++ P.writes ∧ P.sys.mem = writeAll r.addr S.mem past
  places : P.sys.regions.map SoftEccRegion.place = S.regions.map SoftEccRegion.place
  sealed : ∀ ri q, P.sys.regions[ri]? = some q → ¬Stale S r P.resealed ri → q.Sealed P.sys.mem
  done : P.resealed = true → P.writes = []
  pass : PassOk S r P

end Invariant

/-- The verify step, by the crate's verdict. -/
theorem scrubStep_verify (b : Build) {S : SoftEcc} {ri : Nat} {q : SoftEccRegion}
    (hq : S.regions[ri]? = some q) (i : Nat) (word : U64) :
    scrubStep b S (.verify ri i word) = (S, match verify word (q.code i) with
      | .clean => .word ri (i + 1)
      | .corrected d => .fix ri i d
      | .uncorrectable => .giveUp ri i word) := by
  simp only [scrubStep, hq, build_verify_eq, rustluxSofteccVerify]
  cases verify word (q.code i) <;> simp [RUSTLUX_SECC_CORRECTED, RUSTLUX_SECC_UNCORRECTABLE]

theorem resealRegions_places (b : Build) (m : ByteMem) (addr : Nat) (rs : List SoftEccRegion) :
    (resealRegions b m addr rs).map SoftEccRegion.place = rs.map SoftEccRegion.place := by
  induction rs with
  | nil => rfl
  | cons q rs ih =>
      rw [resealRegions]
      split
      · rw [List.map_cons, List.map_cons, ih]
      · rfl

/-- Besides the first region at `addr`, the reseal leaves the regions as they
are. -/
theorem resealRegions_getElem? (b : Build) (m : ByteMem) (addr : Nat) :
    ∀ (rs : List SoftEccRegion) (ri : Nat),
      (resealRegions b m addr rs)[ri]? =
        if ri = rs.findIdx (fun q => q.addr == addr) then rs[ri]?.map fun q => q.sealCodes b m
        else rs[ri]? := by
  intro rs
  induction rs with
  | nil =>
      intro ri
      simp [resealRegions]
  | cons q rs ih =>
      intro ri
      by_cases hq : q.addr = addr
      · have hfirst : (q :: rs).findIdx (fun q => q.addr == addr) = 0 := by
          simp [List.findIdx_cons, hq]
        rw [resealRegions, if_neg (not_not.mpr hq), hfirst]
        cases ri with
        | zero => rfl
        | succ ri => rfl
      · have hlater : (q :: rs).findIdx (fun q => q.addr == addr)
            = rs.findIdx (fun q => q.addr == addr) + 1 := by
          rw [List.findIdx_cons, beq_false_of_ne hq, cond_false]
        rw [resealRegions, if_pos hq, hlater]
        cases ri with
        | zero => rfl
        | succ ri =>
            simp only [List.getElem?_cons_succ, ih ri, Nat.add_right_cancel_iff]

section Preservation

variable {b : Build} {S : SoftEcc} {r : SoftEccRegion} {stores : List (Nat × U64)}
  {P P' : ScrubRace}

/-- A region keeps its place in the list, its address and its length. -/
theorem Kept.place (h : Kept S r stores P) {ri : Nat} {q : SoftEccRegion}
    (hq : P.sys.regions[ri]? = some q) :
    ∃ q₀, S.regions[ri]? = some q₀ ∧ q₀.addr = q.addr ∧ q₀.words = q.words := by
  have hplace := congrArg (fun l => l[ri]?) h.places
  simp only [List.getElem?_map, hq, Option.map_some] at hplace
  obtain ⟨q₀, hq₀, heq⟩ := Option.map_eq_some_iff.mp hplace.symm
  exact ⟨q₀, hq₀, congrArg Prod.fst heq, congrArg Prod.snd heq⟩

theorem Kept.own (h : Kept S r stores P) :
    P.sys.regions.findIdx (fun q => q.addr == r.addr)
      = S.regions.findIdx fun q => q.addr == r.addr := by
  have hmap : ∀ rs : List SoftEccRegion, rs.findIdx (fun q => q.addr == r.addr)
      = (rs.map SoftEccRegion.place).findIdx fun p => p.1 == r.addr := by
    intro rs
    rw [List.findIdx_map]
    rfl
  rw [hmap, h.places, ← hmap]

/-- Before the reseal, a region up to date has no byte in common with the
writer's. -/
theorem Kept.apart (h : Kept S r stores P) {ri : Nat} {q : SoftEccRegion} {resealed : Bool}
    (hq : P.sys.regions[ri]? = some q) (hfresh : ¬Stale S r resealed ri)
    (hother : resealed = true → ri ≠ S.regions.findIdx fun q => q.addr == r.addr) :
    ∀ x, q.Covers x → ¬r.Covers x := by
  intro x hx hrx
  obtain ⟨q₀, hq₀, haddr, hwords⟩ := h.place hq
  refine hfresh ⟨hother, q₀, hq₀, x, ?_, hrx⟩
  rwa [SoftEccRegion.Covers, haddr, hwords]

/-- Re-encoding one word of a region out of date. -/
theorem Kept.setCode (h : Kept S r stores P) {ri : Nat} {q : SoftEccRegion}
    (hstale : Stale S r P.resealed ri) (hq : P.sys.regions[ri]? = some q) (i : Nat) (c : U8)
    {s : Machine} (hs : s.mem = P.sys.mem) :
    Kept S r stores { P with
      sys := { s with regions := P.sys.regions.set ri (q.setCode i c) }
      pass := .word ri (i + 1) } := by
  refine ⟨?_, ?_, ?_, h.done, trivial⟩
  · obtain ⟨past, hpast, hmem⟩ := h.mem
    exact ⟨past, hpast, hs.trans hmem⟩
  · have hsame : (P.sys.regions.map SoftEccRegion.place)[ri]? = some q.place := by
      rw [List.getElem?_map, hq, Option.map_some]
    obtain ⟨hlt, hget⟩ := List.getElem?_eq_some_iff.mp hsame
    have hset : (P.sys.regions.map SoftEccRegion.place).set ri q.place
        = P.sys.regions.map SoftEccRegion.place := by rw [← hget, List.set_getElem_self]
    rw [List.map_set]
    exact hset.trans h.places
  · intro rj q' hq' hfresh
    have hne : ri ≠ rj := by
      rintro rfl
      exact hfresh hstale
    rw [List.getElem?_set_ne hne] at hq'
    show q'.Sealed s.mem
    rw [hs]
    exact h.sealed rj q' hq' hfresh

theorem Kept.move (h : Kept S r stores P) {pc : PassPc}
    (hpc : PassOk S r { P with pass := pc }) : Kept S r stores { P with pass := pc } :=
  ⟨h.mem, h.places, h.sealed, h.done, hpc⟩

/-- The verdict on a word of a region up to date is that it is clean, and on
any other word the run is harmless. -/
theorem Kept.verify (h : Kept S r stores P) {ri i : Nat} {word : U64}
    (hp : P.pass = .verify ri i word) (hgood : Harmless S r P .scrubber) {q : SoftEccRegion}
    (hq : P.sys.regions[ri]? = some q) :
    Kept S r stores { P with pass := (scrubStep b P.sys (.verify ri i word)).2 } := by
  have hpass := h.pass
  simp only [PassOk, hp] at hpass
  rw [scrubStep_verify b hq]
  by_cases hstale : Stale S r P.resealed ri
  · cases hv : Rustlux.verify word (q.code i) with
    | clean => exact h.move trivial
    | corrected d => exact h.move ⟨hstale, q, hq, (hgood ri i word q d hp hstale hq hv).symm⟩
    | uncorrectable => exact h.move hstale
  · obtain ⟨q', hq', hi, hword⟩ := hpass hstale
    obtain rfl : q = q' := Option.some.inj (hq.symm.trans hq')
    rw [h.sealed ri q hq hstale i hi, ← hword, verify_encode]
    exact h.move trivial

/-- The write-back stores the word that is there. -/
theorem Kept.fix (h : Kept S r stores P) {ri i : Nat} {good : U64} {q : SoftEccRegion}
    (hstale : Stale S r P.resealed ri) (hload : P.sys.mem.load (q.wordAddr i) 64 = good) :
    Kept S r stores { P with
      sys := { P.sys with toMachine := softeccFixWord P.sys.toMachine q i good }
      pass := .fixed ri i good } := by
  have hmem : (softeccFixWord P.sys.toMachine q i good).mem = P.sys.mem := by
    rw [softeccFixWord_mem, ← hload]
    exact ByteMem.store_load _ _ rfl
  refine ⟨?_, h.places, ?_, h.done, hstale⟩
  · obtain ⟨past, hpast, hpmem⟩ := h.mem
    exact ⟨past, hpast, hmem.trans hpmem⟩
  · intro rj q' hq' hfresh
    show q'.Sealed (softeccFixWord P.sys.toMachine q i good).mem
    rw [hmem]
    exact h.sealed rj q' hq' hfresh

/-- A pass changes no word. -/
theorem Kept.scrub (h : Kept S r stores P) (hgood : Harmless S r P .scrubber) :
    Kept S r stores
      { P with sys := (scrubStep b P.sys P.pass).1, pass := (scrubStep b P.sys P.pass).2 } := by
  have hpass := h.pass
  cases hp : P.pass with
  | idle => exact h.move trivial
  | word ri i =>
      cases hq : P.sys.regions[ri]? with
      | none =>
          simp only [scrubStep, hq]
          exact h.move trivial
      | some q =>
          by_cases hi : i < q.words
          · simp only [scrubStep, hq, hi, if_true]
            exact h.move fun _ => ⟨q, hq, hi, rfl⟩
          · simp only [scrubStep, hq, hi, if_false]
            exact h.move trivial
  | verify ri i word =>
      cases hq : P.sys.regions[ri]? with
      | none =>
          simp only [scrubStep, hq]
          exact h.move trivial
      | some q =>
          have hkept := h.verify (b := b) hp hgood hq
          rw [scrubStep_verify b hq] at hkept ⊢
          exact hkept
  | fix ri i good =>
      simp only [PassOk, hp] at hpass
      obtain ⟨hstale, q, hq, hload⟩ := hpass
      simp only [scrubStep, hq]
      exact h.fix hstale hload
  | fixed ri i good =>
      simp only [PassOk, hp] at hpass
      cases hq : P.sys.regions[ri]? with
      | none =>
          simp only [scrubStep, hq]
          exact h.move trivial
      | some q =>
          simp only [scrubStep, hq]
          exact h.setCode hpass hq i _ rfl
  | giveUp ri i word =>
      simp only [PassOk, hp] at hpass
      cases hq : P.sys.regions[ri]? with
      | none =>
          simp only [scrubStep, hq]
          exact h.move trivial
      | some q =>
          simp only [scrubStep, hq]
          exact h.setCode hpass hq i _ rfl

/-- Before the reseal a store is outside the words of every region up to
date. -/
theorem Kept.store_frame (h : Kept S r stores P) (hopen : ¬P.resealed = true) {i : Nat} (v : U64)
    (hi : i < r.words) {ri : Nat} {q : SoftEccRegion} (hq : P.sys.regions[ri]? = some q)
    (hfresh : ¬Stale S r P.resealed ri) :
    ∀ x, q.Covers x → P.sys.mem.store (r.addr + 8 * i) v x = P.sys.mem x := by
  intro x hx
  have hnot := h.apart hq hfresh (fun hdone => absurd hdone hopen) x hx
  simp only [SoftEccRegion.Covers] at hnot
  exact ByteMem.store_of_disjoint _ _ (by omega)

theorem Kept.store (hstores : ∀ w ∈ stores, w.1 < r.words) (h : Kept S r stores P) {i : Nat}
    {v : U64} {ws : List (Nat × U64)} (hw : P.writes = (i, v) :: ws)
    (hgood : Harmless S r P .writer) :
    Kept S r stores
      { P with sys := { P.sys with mem := P.sys.mem.store (r.addr + 8 * i) v }, writes := ws } := by
  obtain ⟨past, hpast, hmem⟩ := h.mem
  have hpass := h.pass
  have hopen : ¬P.resealed = true := by
    intro hdone
    rw [h.done hdone] at hw
    cases hw
  rw [hw] at hpast
  have hi : i < r.words :=
    hstores (i, v) (hpast ▸ List.mem_append_right _ List.mem_cons_self)
  refine ⟨⟨past ++ [(i, v)], by rw [List.append_assoc]; exact hpast, ?_⟩, h.places, ?_,
    fun hdone => absurd hdone hopen, ?_⟩
  · rw [hmem, writeAll, writeAll, List.foldl_append]
    rfl
  · intro ri q hq hfresh
    exact (h.sealed ri q hq hfresh).frame (h.store_frame hopen v hi hq hfresh)
  cases hp : P.pass with
  | idle => simp only [PassOk]
  | word ri j => simp only [PassOk]
  | verify ri j word =>
      simp only [PassOk, hp] at hpass ⊢
      intro hfresh
      obtain ⟨q, hq, hj, hword⟩ := hpass hfresh
      have hcell := SoftEccRegion.cell_frame (h.store_frame hopen v hi hq hfresh) hj
      exact ⟨q, hq, hj, hword.trans (congrArg Word.data hcell).symm⟩
  | fix ri j good =>
      simp only [PassOk, hp] at hpass ⊢
      obtain ⟨hstale, q, hq, hload⟩ := hpass
      have hfar := hgood i v ws ri j good q hw hp hq
      refine ⟨hstale, q, hq, Eq.trans ?_ hload⟩
      simp only [SoftEccRegion.wordAddr] at hfar ⊢
      exact ByteMem.load_store_of_disjoint _ _ (by omega)
  | fixed ri j good => simpa only [PassOk, hp] using hpass
  | giveUp ri j word => simpa only [PassOk, hp] using hpass

/-- The reseal brings the region it finds up to date. -/
theorem Kept.reseal (h : Kept S r stores P) (hw : P.writes = []) (hidle : P.pass = .idle) :
    Kept S r stores
      { P with sys := rustluxSofteccReseal b P.sys r.addr, resealed := true } := by
  refine ⟨h.mem, (resealRegions_places ..).trans h.places, ?_, fun _ => hw, ?_⟩
  · intro ri q hq hfresh
    show q.Sealed P.sys.mem
    replace hq : (resealRegions b P.sys.mem r.addr P.sys.regions)[ri]? = some q := hq
    rw [resealRegions_getElem?, h.own] at hq
    split at hq
    · obtain ⟨q', -, rfl⟩ := Option.map_eq_some_iff.mp hq
      exact q'.sealCodes_sealed b P.sys.mem
    · rename_i hne
      refine h.sealed ri q hq fun hstale => hfresh ⟨fun _ => hne, hstale.2⟩
  · simp only [PassOk, hidle]

theorem step_cases {addr : Nat} {a : Actor} (h : step b addr P a = some P') :
    (a = .scrubber ∧ P' = { P with
        sys := (scrubStep b P.sys P.pass).1, pass := (scrubStep b P.sys P.pass).2 })
      ∨ (∃ i v ws, a = .writer ∧ P.writes = (i, v) :: ws ∧ P' = { P with
          sys := { P.sys with mem := P.sys.mem.store (addr + 8 * i) v }, writes := ws })
      ∨ (a = .writer ∧ P.writes = [] ∧ P.resealed = false ∧ P.pass = .idle
          ∧ P' = { P with sys := rustluxSofteccReseal b P.sys addr, resealed := true }) := by
  cases a with
  | scrubber => exact Or.inl ⟨rfl, (Option.some.inj h).symm⟩
  | writer =>
      cases hw : P.writes with
      | nil =>
          rw [step, hw] at h
          by_cases hfree : P.resealed = false ∧ P.pass = .idle
          · rw [if_pos hfree] at h
            exact Or.inr (Or.inr ⟨rfl, rfl, hfree.1, hfree.2, (Option.some.inj h).symm⟩)
          · rw [if_neg hfree] at h
            cases h
      | cons w ws =>
          rw [step, hw] at h
          exact Or.inr (Or.inl ⟨w.1, w.2, ws, rfl, rfl, (Option.some.inj h).symm⟩)

/-- The writer is done for good. -/
theorem done_step {addr : Nat} {a : Actor} (h : P.resealed = true ∧ P.writes = [])
    (hstep : ScrubRace.step b addr P a = some P') : P'.resealed = true ∧ P'.writes = [] := by
  obtain ⟨hdone, hw⟩ := h
  rcases step_cases hstep with ⟨-, rfl⟩ | ⟨i, v, ws, -, hw', -⟩ | ⟨-, -, hopen, -, -⟩
  · exact ⟨hdone, hw⟩
  · rw [hw] at hw'
    cases hw'
  · rw [hdone] at hopen
    cases hopen

/-- Where no other region shares a byte with the writer's, every step after
the reseal is harmless. -/
theorem harmless_of_done (hfresh : ∀ ri, ¬Stale S r true ri)
    (h : P.resealed = true ∧ P.writes = []) (a : Actor) : Harmless S r P a := by
  obtain ⟨hdone, hw⟩ := h
  cases a with
  | scrubber =>
      intro ri i word q d _ hstale
      rw [hdone] at hstale
      exact (hfresh ri hstale).elim
  | writer =>
      intro i v ws ri j good q hw'
      rw [hw] at hw'
      cases hw'

theorem Kept.step (hstores : ∀ w ∈ stores, w.1 < r.words) {a : Actor} (h : Kept S r stores P)
    (hgood : Harmless S r P a) (hstep : ScrubRace.step b r.addr P a = some P') :
    Kept S r stores P' := by
  rcases step_cases hstep with ⟨rfl, rfl⟩ | ⟨i, v, ws, rfl, hw, rfl⟩
    | ⟨rfl, hw, -, hidle, rfl⟩
  · exact h.scrub hgood
  · exact h.store hstores hw hgood
  · exact h.reseal hw hidle

theorem Kept.mem_of_done (h : Kept S r stores P) (hw : P.writes = []) :
    P.sys.mem = writeAll r.addr S.mem stores := by
  obtain ⟨past, hpast, hmem⟩ := h.mem
  rw [hw, List.append_nil] at hpast
  rw [hmem, hpast]

theorem Kept.run (hstores : ∀ w ∈ stores, w.1 < r.words) {sched : List Actor}
    (h : Kept S r stores P)
    (hgood : Lts.Along (ScrubRace.step b r.addr) (Harmless S r) P sched)
    (hrun : Lts.run (ScrubRace.step b r.addr) P sched = some P') : Kept S r stores P' :=
  Lts.run_invariant_along (Harmless S r) (fun _ _ _ h hgood hstep => h.step hstores hgood hstep)
    h hgood hrun

end Preservation

/-- **No update is lost in a run of harmless steps.** When the writer has
resealed and no pass is in progress, every word of its region holds the last
value stored in it and the rest of memory is as it was. So it stays, whatever
passes follow, if no other region shares a byte with the writer's, and as
long as the steps are harmless if one does. -/
theorem reseal_keeps_updates {b : Build} {S : SoftEcc} {r : SoftEccRegion}
    {stores : List (Nat × U64)} {sched : List Actor} {P : ScrubRace} (hsealed : S.Sealed)
    (hstores : ∀ w ∈ stores, w.1 < r.words)
    (hrun : Lts.run (step b r.addr) (start S stores) sched = some P)
    (hgood : Lts.Along (step b r.addr) (Harmless S r) (start S stores) sched)
    (hfin : P.Finished) :
    (∀ i < r.words, P.sys.mem.load (r.wordAddr i) 64
        = lastStored i (S.mem.load (r.wordAddr i) 64) stores)
      ∧ (∀ x, ¬r.Covers x → P.sys.mem x = S.mem x)
      ∧ ∀ sched' Q, Lts.run (step b r.addr) P sched' = some Q →
          (∀ ri, ¬Stale S r true ri) ∨ Lts.Along (step b r.addr) (Harmless S r) P sched' →
          Q.sys.mem = P.sys.mem := by
  have hinit : Kept S r stores (start S stores) :=
    ⟨⟨[], rfl, rfl⟩, rfl, fun ri q hq _ => hsealed q (List.mem_of_getElem? hq), nofun, trivial⟩
  have hP := hinit.run hstores hgood hrun
  have hmem := hP.mem_of_done hfin.1
  have hdone : P.resealed = true ∧ P.writes = [] := ⟨hfin.2.1, hfin.1⟩
  refine ⟨fun i _ => ?_, fun x hx => ?_, fun sched' Q hrun' hlater => ?_⟩
  · rw [hmem]
    exact load_writeAll stores S.mem
  · rw [hmem]
    exact writeAll_uncovered hstores hx
  · have hgood' : Lts.Along (step b r.addr) (Harmless S r) P sched' := by
      rcases hlater with hfresh | hgood'
      · exact Lts.along_of_invariant (fun _ a h => harmless_of_done hfresh h a)
          (fun _ _ _ h hstep => done_step h hstep) sched' P hdone
      · exact hgood'
    have hQ := hP.run hstores hgood' hrun'
    have hQdone := Lts.run_invariant (fun _ _ _ h hstep => done_step h hstep) hdone hrun'
    rw [hmem, hQ.mem_of_done hQdone.2]

/-- With no pass between the store and the reseal, the word in the region at
address 0 keeps its new value. -/
theorem reseal_keeps_bit_0 :
    ∃ P, Lts.run (step .rust 0) (start (oneWordState fun _ => 0) [(0, 1)]) [.writer, .writer]
        = some P
      ∧ P.sys.mem.load 0 64 = 1
      ∧ ∀ sched' Q, Lts.run (step .rust 0) P sched' = some Q → Q.sys.mem = P.sys.mem := by
  let r : SoftEccRegion := ⟨"idt", 0, 1, [0], true, rfl⟩
  have hstores : ∀ w ∈ [((0 : Nat), (1 : U64))], w.1 < r.words := by
    intro w hw
    obtain rfl := List.mem_singleton.mp hw
    exact Nat.one_pos
  have hgood : Lts.Along (step .rust 0) (Harmless (oneWordState fun _ => 0) r)
      (start (oneWordState fun _ => 0) [(0, 1)]) [.writer, .writer] := by
    refine ⟨?_, fun P hP => ⟨?_, fun _ _ => trivial⟩⟩
    · intro i v ws ri j good q _ hp
      cases hp
    · obtain rfl := Option.some.inj hP
      intro i v ws ri j good q hw
      cases hw
  have hfresh : ∀ ri, ¬Stale (oneWordState fun _ => 0) r true ri := by
    rintro ri ⟨hne, q, hq, -⟩
    cases ri with
    | zero => exact hne rfl rfl
    | succ ri => cases hq
  obtain ⟨P, hrun⟩ : ∃ P, Lts.run (step .rust 0) (start (oneWordState fun _ => 0) [(0, 1)])
      [.writer, .writer] = some P := ⟨_, rfl⟩
  have hfin : P.Finished := by
    obtain rfl := Option.some.inj hrun
    exact ⟨rfl, rfl, rfl⟩
  obtain ⟨hload, -, hlater⟩ :=
    reseal_keeps_updates (r := r) oneWordState_sealed hstores hrun hgood hfin
  exact ⟨P, hrun, hload 0 Nat.one_pos, fun sched' Q h => hlater sched' Q h (Or.inl hfresh)⟩

/-- The run that patch 0012 describes: the pass judges a one-bit update to be
a flipped bit, undoes it, and the reseal seals the old value. -/
theorem reseal_loses_update :
    (oneWordState fun _ => 0).Sealed ∧ ∃ P,
      Lts.run (step .rust 0) (start (oneWordState fun _ => 0) [(0, 1)])
          (.writer :: List.replicate 7 .scrubber ++ [.writer]) = some P
        ∧ P.Finished ∧ P.sys.mem.load 0 64 ≠ lastStored 0 0 [(0, 1)] := by
  have hfacts : (Lts.run (step .rust 0) (start (oneWordState fun _ => 0) [(0, 1)])
      (.writer :: List.replicate 7 .scrubber ++ [.writer])).map
        (fun P => (P.sys.mem.load 0 64, P.writes, P.resealed, P.pass))
      = some (0, [], true, .idle) := by decide +kernel
  obtain ⟨P, hrun, hP⟩ := Option.map_eq_some_iff.mp hfacts
  obtain ⟨hload, hwrites, hresealed, hpass⟩ : P.sys.mem.load 0 64 = 0 ∧ P.writes = []
      ∧ P.resealed = true ∧ P.pass = .idle := by simpa using hP
  refine ⟨oneWordState_sealed, P, hrun, ⟨hwrites, hresealed, hpass⟩, ?_⟩
  rw [hload]
  decide

end ScrubRace

end Rustlux
