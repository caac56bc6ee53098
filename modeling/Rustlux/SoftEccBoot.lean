import Rustlux.Lts
import Rustlux.Scrub

/-!
# Boot

Registration, sealing and the scrub timer, as of patch 0012: regions register
while init code still writes to them, `rustlux_softecc_seal_all` re-encodes
all of them once memory is read-only, and only then starts the timer.

A boot is a run over events in any order. From the sealing on every region is
sealed, those registered later included, so a pass has nothing to do
(`no_false_positives`). Regions may overlap; the code arrays are memory of
the scrubber's own, which no region covers.
-/

namespace Rustlux

def ENOMEM : Int := 12

/-- The list grows only if both allocations succeed; `kzalloc` and `kvmalloc`
tell whether they do. -/
def rustluxSofteccProtect (b : Build) (S : SoftEcc) (name : String) (addr size : Nat)
    (readonly kzalloc kvmalloc : Bool) : Int × SoftEcc :=
  if kzalloc = false then (-ENOMEM, S)
  else if kvmalloc = false then (-ENOMEM, S)
  else
    let words := size / 8
    let r : SoftEccRegion :=
      { name, addr, words, codes := List.replicate words 0, readonly
        codes_length := List.length_replicate }
    (0, { S with regions := S.regions ++ [r.sealCodes b S.mem] })

/-- The loops of `rustlux_softecc_seal_all`. -/
def rustluxSofteccSealAll (b : Build) (S : SoftEcc) : SoftEcc :=
  { S with regions := S.regions.map fun r => r.sealCodes b S.mem }

/-- The scrubber at boot. `pending` tells whether `softecc_work` is queued,
`sealed` whether `rustlux_softecc_seal_all` has been called. -/
structure Boot where
  sys : SoftEcc
  enabled : Bool
  pending : Bool
  sealed : Bool

inductive BootEvent where
  | protect (name : String) (addr size : Nat) (readonly kzalloc kvmalloc : Bool)
  | write (addr : Nat) (value : U8)
  | sealAll
  | setEnabled (on : Bool)
  | workFires
deriving DecidableEq, Repr

namespace Boot

/-- `softecc_scrub_fn`: it queues itself again whether enabled or not. -/
def softeccScrubFn (b : Build) (P : Boot) : Boot :=
  { P with sys := if P.enabled then scrubPass b P.sys else P.sys, pending := true }

/-- One event. After the sealing no one writes but the scrubber, and the work
fires only when queued. -/
def step (b : Build) (P : Boot) : BootEvent → Option Boot
  | .protect name addr size readonly kzalloc kvmalloc =>
      let p := rustluxSofteccProtect b P.sys name addr size readonly kzalloc kvmalloc
      some { P with sys := p.2 }
  | .write addr value =>
      if P.sealed then none
      else some { P with sys := { P.sys with mem := P.sys.mem.store addr value } }
  | .sealAll =>
      some { P with sys := rustluxSofteccSealAll b P.sys, pending := true, sealed := true }
  | .setEnabled on => some { P with enabled := on }
  | .workFires => if P.pending then some (softeccScrubFn b P) else none

/-- No region yet, and the work not queued. -/
def start (s : Machine) (enabled : Bool) : Boot :=
  { sys := { s with regions := [] }, enabled, pending := false, sealed := false }

/-! ## One event -/

/-- Either nothing but the error is returned, or one sealed region is added. -/
theorem protect_cases (b : Build) (S : SoftEcc) (name : String) (addr size : Nat)
    (readonly kzalloc kvmalloc : Bool) :
    rustluxSofteccProtect b S name addr size readonly kzalloc kvmalloc = (-ENOMEM, S)
      ∨ ∃ r : SoftEccRegion, r.Sealed S.mem
        ∧ rustluxSofteccProtect b S name addr size readonly kzalloc kvmalloc
          = (0, { S with regions := S.regions ++ [r] }) := by
  cases kzalloc with
  | false => exact Or.inl rfl
  | true =>
      cases kvmalloc with
      | false => exact Or.inl rfl
      | true => exact Or.inr ⟨_, SoftEccRegion.sealCodes_sealed _ b S.mem, rfl⟩

theorem protect_sealed {b : Build} {S : SoftEcc} (h : S.Sealed) (name : String) (addr size : Nat)
    (readonly kzalloc kvmalloc : Bool) :
    (rustluxSofteccProtect b S name addr size readonly kzalloc kvmalloc).2.Sealed := by
  rcases protect_cases b S name addr size readonly kzalloc kvmalloc with heq | ⟨r, hr, heq⟩
  · rw [heq]
    exact h
  · rw [heq]
    intro q hq
    rcases List.mem_append.mp hq with hq | hq
    · exact h q hq
    · obtain rfl := List.mem_singleton.mp hq
      exact hr

theorem sealAll_sealed (b : Build) (S : SoftEcc) : (rustluxSofteccSealAll b S).Sealed := by
  intro q hq
  obtain ⟨r, -, rfl⟩ := List.mem_map.mp hq
  exact r.sealCodes_sealed b S.mem

/-- The work is queued only after the sealing, from when on every region is
sealed. -/
structure Calm (P : Boot) : Prop where
  queued : P.pending = true → P.sealed = true
  sealed : P.sealed = true → P.sys.Sealed

theorem Calm.start (s : Machine) (enabled : Bool) : Calm (Boot.start s enabled) :=
  ⟨nofun, nofun⟩

/-- The work finds nothing to do. -/
theorem Calm.workFires {b : Build} {P P' : Boot} (h : Calm P)
    (hstep : step b P .workFires = some P') : P.sealed = true ∧ P' = P := by
  rw [step] at hstep
  split at hstep
  · rename_i hpending
    have hsealed := h.queued hpending
    have hpass : (if P.enabled then scrubPass b P.sys else P.sys) = P.sys := by
      rw [scrubPass_of_sealed b (h.sealed hsealed), ite_self]
    refine ⟨hsealed, ?_⟩
    rw [← Option.some.inj hstep, softeccScrubFn, hpass, ← hpending]
  · cases hstep

theorem Calm.step {b : Build} {P P' : Boot} {e : BootEvent} (h : Calm P)
    (hstep : Boot.step b P e = some P') : Calm P' := by
  cases e with
  | protect name addr size readonly kzalloc kvmalloc =>
      obtain rfl := Option.some.inj hstep
      exact ⟨h.queued, fun hsealed => protect_sealed (h.sealed hsealed) _ _ _ _ _ _⟩
  | write addr value =>
      rw [Boot.step] at hstep
      split at hstep
      · cases hstep
      · rename_i hopen
        obtain rfl := Option.some.inj hstep
        exact ⟨h.queued, fun hsealed => absurd hsealed hopen⟩
  | sealAll =>
      obtain rfl := Option.some.inj hstep
      exact ⟨fun _ => rfl, fun _ => sealAll_sealed b P.sys⟩
  | setEnabled on =>
      obtain rfl := Option.some.inj hstep
      exact ⟨h.queued, h.sealed⟩
  | workFires =>
      obtain ⟨-, rfl⟩ := h.workFires hstep
      exact h

/-- Only `rustlux_softecc_seal_all` seals. -/
theorem sealed_step {b : Build} {P P' : Boot} {e : BootEvent} (hopen : ¬P.sealed = true)
    (hstep : step b P e = some P') (hsealed : P'.sealed = true) : e = .sealAll := by
  cases e with
  | protect name addr size readonly kzalloc kvmalloc =>
      obtain rfl := Option.some.inj hstep
      exact absurd hsealed hopen
  | write addr value =>
      rw [step, if_neg hopen] at hstep
      obtain rfl := Option.some.inj hstep
      exact absurd hsealed hopen
  | sealAll => rfl
  | setEnabled on =>
      obtain rfl := Option.some.inj hstep
      exact absurd hsealed hopen
  | workFires =>
      rw [step] at hstep
      split at hstep
      · obtain rfl := Option.some.inj hstep
        exact absurd hsealed hopen
      · cases hstep

/-! ## A boot -/

/-- **No false positives at boot.** Whatever events came before, the work
fires only after the sealing, and a pass leaves memory, codes, counters and
messages as they are; and a registration that fails leaves the region list
as it was. -/
theorem no_false_positives {b : Build} {s : Machine} {enabled : Bool} {es : List BootEvent}
    {P : Boot} (hrun : Lts.run (step b) (start s enabled) es = some P) :
    (∀ P', step b P .workFires = some P' → .sealAll ∈ es ∧ P'.sys = P.sys)
      ∧ ∀ name addr size readonly kzalloc kvmalloc,
        let p := rustluxSofteccProtect b P.sys name addr size readonly kzalloc kvmalloc
        p.1 ≠ 0 → p.1 = -ENOMEM ∧ p.2 = P.sys := by
  have hcalm : Calm P :=
    Lts.run_invariant (fun _ _ _ h hstep => h.step hstep) (Calm.start s enabled) hrun
  refine ⟨fun P' hstep => ?_, fun name addr size readonly kzalloc kvmalloc => ?_⟩
  · obtain ⟨hsealed, rfl⟩ := hcalm.workFires hstep
    obtain ⟨e, he, Q, Q', hopen, hQ, hQ'⟩ :=
      Lts.exists_change (I := fun P : Boot => P.sealed = true) Bool.false_ne_true hrun hsealed
    obtain rfl := sealed_step hopen hQ hQ'
    exact ⟨he, rfl⟩
  · intro p hp
    rcases protect_cases b P.sys name addr size readonly kzalloc kvmalloc with heq | ⟨r, -, heq⟩
    · exact ⟨congrArg Prod.fst heq, congrArg Prod.snd heq⟩
    · exact absurd (congrArg Prod.fst heq) hp

theorem no_false_positives_idt :
    ∃ P, Lts.run (step .rust) (start (oneWordState fun _ => 0).toMachine true)
        [.protect "idt" 0 16 true true true, .write 3 0x10, .sealAll] = some P
      ∧ P.sys.mem 3 = 0x10 ∧ P.sys.regions.length = 1
      ∧ ∃ P', step .rust P .workFires = some P' ∧ P'.sys = P.sys := by
  obtain ⟨P, hrun⟩ : ∃ P, Lts.run (step .rust) (start (oneWordState fun _ => 0).toMachine true)
      [.protect "idt" 0 16 true true true, .write 3 0x10, .sealAll] = some P := ⟨_, rfl⟩
  have hfires : ∃ P', step .rust P .workFires = some P' := by
    obtain rfl := Option.some.inj hrun
    exact ⟨_, rfl⟩
  obtain ⟨P', hstep⟩ := hfires
  refine ⟨P, hrun, ?_, ?_, P', hstep, ((no_false_positives hrun).1 P' hstep).2⟩
  · obtain rfl := Option.some.inj hrun
    decide +kernel
  · obtain rfl := Option.some.inj hrun
    rfl

end Boot

end Rustlux
