import Rustlux.Lts
import Rustlux.MemSentinel

/-!
# The sentinel on several CPUs

Concurrent calls of `on_error` for corrected errors, one atomic operation at
a time. The reset of a window takes two of them: the compare-exchange on the
start and, later, the store of zero to the count. In between, other calls see
the new start and count against the old total, and the store erases them.

A race of `N` calls that all find the window expired goes through three
phases: nobody has won the exchange (`Fresh`), the winner has yet to store
(`Taken k`, after `k` calls have counted), the count restarted (`Reset k`).
What the calls answer depends on `k` alone, and every `k < N` can happen.
-/

open Threshold (fires)

namespace Rustlux

/-! ## The race -/

/-- Where a call of `on_error` for a corrected error stands. -/
inductive Pc where
  | load
  | exchange (start : U64)
  | store
  | add
  | done (action : SentinelAction)
deriving DecidableEq, Repr

/-- The tracker and the calls. -/
structure Race where
  sentinel : MemSentinel
  pcs : List Pc
deriving DecidableEq, Repr

namespace Race

/-- One atomic operation of a call, and where it stands after it. -/
def stepCall (nowMs : U64) (t : U32) (s : MemSentinel) : Pc → Option (MemSentinel × Pc)
  | .load =>
      let start := s.windowStartMs
      some (s, if nowMs - start > WINDOW_MS then .exchange start else .add)
  | .exchange start =>
      let (won, s) := s.compareExchangeStart start nowMs
      some (s, if won then .store else .add)
  | .store => some (s.storeCount 0, .add)
  | .add =>
      let (old, s) := s.fetchAddCount 1
      let count := old + 1
      some (s, .done (if count = t then .warn else .none))
  | .done _ => none

/-- Call `i` takes its next step. -/
def step (nowMs : U64) (t : U32) (r : Race) (i : Nat) : Option Race :=
  match r.pcs[i]? with
  | none => none
  | some pc => (stepCall nowMs t r.sentinel pc).map fun p => ⟨p.1, r.pcs.set i p.2⟩

def isDone : Pc → Bool
  | .done _ => true
  | _ => false

/-- Every call has returned. -/
def AllDone (r : Race) : Prop := ∀ pc ∈ r.pcs, isDone pc = true

instance (r : Race) : Decidable r.AllDone := inferInstanceAs (Decidable (∀ _ ∈ _, _))

/-- How many calls returned `Warn`. -/
def warns (r : Race) : Nat := r.pcs.count (.done .warn)

/-- `N` calls about to start. -/
def start (s : MemSentinel) (N : Nat) : Race := ⟨s, List.replicate N .load⟩

/-- A call nobody interrupts does what `on_error` does. -/
theorem solo_run (s : MemSentinel) (nowMs : U64) (t : U32) :
    ∃ sched, Lts.run (step nowMs t) (start s 1) sched
      = some ⟨(s.onError nowMs false t).2, [.done (s.onError nowMs false t).1]⟩ := by
  by_cases hexp : s.Expired nowMs
  · refine ⟨[0, 0, 0, 0], ?_⟩
    have h : nowMs - s.windowStartMs > WINDOW_MS := hexp
    rw [MemSentinel.onError_of_expired hexp]
    simp [Lts.run, step, stepCall, start, h, MemSentinel.compareExchangeStart,
      MemSentinel.storeCount, MemSentinel.fetchAddCount]
  · refine ⟨[0, 0], ?_⟩
    have h : ¬nowMs - s.windowStartMs > WINDOW_MS := hexp
    rw [MemSentinel.onError_of_not_expired hexp]
    simp [Lts.run, step, stepCall, start, h, MemSentinel.fetchAddCount]
    rfl

/-! ## One step -/

theorem step_cases {nowMs : U64} {t : U32} {r r' : Race} {i : Nat}
    (h : step nowMs t r i = some r') :
    (r.pcs[i]? = some .load
        ∧ r' = ⟨r.sentinel, r.pcs.set i
            (if r.sentinel.Expired nowMs then .exchange r.sentinel.windowStartMs else .add)⟩)
      ∨ (∃ old, r.pcs[i]? = some (.exchange old) ∧ r.sentinel.windowStartMs = old
          ∧ r' = ⟨⟨nowMs, r.sentinel.windowCount⟩, r.pcs.set i .store⟩)
      ∨ (∃ old, r.pcs[i]? = some (.exchange old) ∧ r.sentinel.windowStartMs ≠ old
          ∧ r' = ⟨r.sentinel, r.pcs.set i .add⟩)
      ∨ (r.pcs[i]? = some .store
          ∧ r' = ⟨⟨r.sentinel.windowStartMs, 0#32⟩, r.pcs.set i .add⟩)
      ∨ (r.pcs[i]? = some .add
          ∧ r' = ⟨⟨r.sentinel.windowStartMs, r.sentinel.windowCount + 1#32⟩, r.pcs.set i
              (.done (if r.sentinel.windowCount + 1#32 = t then .warn else .none))⟩) := by
  unfold step at h
  cases hpc : r.pcs[i]? with
  | none => rw [hpc] at h; cases h
  | some pc =>
      rw [hpc] at h
      cases pc with
      | load => exact Or.inl ⟨rfl, (Option.some.inj h).symm⟩
      | exchange old =>
          by_cases hold : r.sentinel.windowStartMs = old
          · refine Or.inr (Or.inl ⟨old, rfl, hold, ?_⟩)
            simpa [stepCall, MemSentinel.compareExchangeStart, hold] using h.symm
          · refine Or.inr (Or.inr (Or.inl ⟨old, rfl, hold, ?_⟩))
            simpa [stepCall, MemSentinel.compareExchangeStart, hold] using h.symm
      | store => exact Or.inr (Or.inr (Or.inr (Or.inl ⟨rfl, (Option.some.inj h).symm⟩)))
      | add => exact Or.inr (Or.inr (Or.inr (Or.inr ⟨rfl, (Option.some.inj h).symm⟩)))
      | done a => cases h

theorem step_length {nowMs : U64} {t : U32} {r r' : Race} {i : Nat}
    (h : step nowMs t r i = some r') : r'.pcs.length = r.pcs.length := by
  rcases step_cases h with ⟨-, rfl⟩ | ⟨-, -, -, rfl⟩ | ⟨-, -, -, rfl⟩ | ⟨-, rfl⟩ | ⟨-, rfl⟩ <;>
    exact List.length_set

/-! ## Counting calls -/

theorem countP_set_toNat {α : Type} (q : α → Bool) {a b : α} :
    ∀ {l : List α} {i : Nat}, l[i]? = some a →
      (l.set i b).countP q + (q a).toNat = l.countP q + (q b).toNat
  | x :: l, 0, h => by
      obtain rfl := Option.some.inj h
      rw [List.set_cons_zero, List.countP_cons, List.countP_cons]
      cases q x <;> cases q b <;> simp
  | x :: l, i + 1, h => by
      have ih := countP_set_toNat q (b := b) (l := l) (i := i) h
      rw [List.set_cons_succ, List.countP_cons, List.countP_cons]
      omega

theorem counts_set {pcs : List Pc} {i : Nat} {a b : Pc} (h : pcs[i]? = some a) :
    (pcs.set i b).count .store + (a == .store).toNat = pcs.count .store + (b == .store).toNat
      ∧ (pcs.set i b).countP isDone + (isDone a).toNat = pcs.countP isDone + (isDone b).toNat
      ∧ (pcs.set i b).count (.done .warn) + (a == .done .warn).toNat
          = pcs.count (.done .warn) + (b == .done .warn).toNat :=
  ⟨countP_set_toNat _ h, countP_set_toNat _ h, countP_set_toNat _ h⟩

/-- A call on its way to the count is nothing the phases look at. -/
theorem counts_quiet {pcs : List Pc} {i : Nat} {a : Pc} (h : pcs[i]? = some a)
    (ha : a = .load ∨ ∃ old, a = .exchange old) :
    (pcs.set i .add).count .store = pcs.count .store
      ∧ (pcs.set i .add).countP isDone = pcs.countP isDone
      ∧ (pcs.set i .add).count (.done .warn) = pcs.count (.done .warn) := by
  obtain ⟨hs, hd, hw⟩ := counts_set (b := .add) h
  rcases ha with rfl | ⟨old, rfl⟩ <;> exact ⟨hs, hd, hw⟩

/-- A call that counts returns. -/
theorem counts_add {pcs : List Pc} {i : Nat} (p : Prop) [Decidable p] (h : pcs[i]? = some .add) :
    (pcs.set i (.done (if p then .warn else .none))).count .store = pcs.count .store
      ∧ (pcs.set i (.done (if p then .warn else .none))).countP isDone = pcs.countP isDone + 1
      ∧ (pcs.set i (.done (if p then .warn else .none))).count (.done .warn)
          = pcs.count (.done .warn) + if p then 1 else 0 := by
  obtain ⟨hs, hd, hw⟩ := counts_set (b := .done (if p then .warn else .none)) h
  refine ⟨hs, hd, hw.trans ?_⟩
  by_cases hp : p
  · simp only [hp, if_true]
    rfl
  · simp only [hp, if_false]
    rfl

/-- Calls at the store and calls that returned are different calls. -/
theorem count_store_add_done (pcs : List Pc) :
    pcs.count .store + pcs.countP isDone ≤ pcs.length := by
  induction pcs with
  | nil => exact Nat.le_refl _
  | cons pc pcs ih =>
      rw [List.count_cons, List.countP_cons, List.length_cons]
      cases pc <;> simp [isDone] <;> omega

/-! ## The phases -/

section Phases

variable (s₀ : MemSentinel) (nowMs : U64) (t : U32)

/-- Nobody has won the exchange. -/
structure Fresh (r : Race) : Prop where
  sentinel : r.sentinel = s₀
  pcs : ∀ pc ∈ r.pcs, pc = .load ∨ pc = .exchange s₀.windowStartMs

/-- Every exchange still to come expects the old start. -/
def Tame (r : Race) : Prop :=
  r.sentinel.windowStartMs = nowMs
    ∧ ∀ old, .exchange old ∈ r.pcs → old = s₀.windowStartMs

/-- The winner is at its store, and `k` calls have counted. -/
structure Taken (k : Nat) (r : Race) : Prop where
  tame : Tame s₀ nowMs r
  count : r.sentinel.windowCount.toNat = s₀.windowCount.toNat + k
  store : r.pcs.count .store = 1
  done : r.pcs.countP isDone = k
  warns : r.warns = fires t.toNat s₀.windowCount.toNat k

/-- The count restarted after `k` calls had counted. -/
structure Reset (k : Nat) (r : Race) : Prop where
  tame : Tame s₀ nowMs r
  room : k < r.pcs.length
  store : r.pcs.count .store = 0
  done : r.pcs.countP isDone = k + r.sentinel.windowCount.toNat
  warns : r.warns = fires t.toNat s₀.windowCount.toNat k
    + fires t.toNat 0 r.sentinel.windowCount.toNat

end Phases

section Steps

variable {s₀ : MemSentinel} {nowMs : U64} {t : U32} {r r' : Race} {i : Nat}
  (hlate : s₀.windowStartMs.toNat + WINDOW_MS.toNat < nowMs.toNat)

theorem exchange_mem_set {pcs : List Pc} {pc : Pc} {old : U64}
    (h : Pc.exchange old ∈ pcs.set i pc) (hpc : ∀ o, pc ≠ .exchange o) :
    Pc.exchange old ∈ pcs := by
  rcases List.mem_or_eq_of_mem_set h with h | h
  · exact h
  · exact absurd h.symm (hpc old)

theorem Tame.not_expired (h : Tame s₀ nowMs r) : ¬r.sentinel.Expired nowMs := by
  rw [MemSentinel.expired_iff (Nat.le_of_eq (by rw [h.1])), h.1]
  omega

include hlate in
theorem Tame.exchange_fails (h : Tame s₀ nowMs r) {old : U64}
    (hi : r.pcs[i]? = some (.exchange old)) : r.sentinel.windowStartMs ≠ old := by
  rw [h.1, h.2 old (List.mem_of_getElem? hi)]
  rintro rfl
  omega

theorem Tame.set (h : Tame s₀ nowMs r) {s : MemSentinel} {pc : Pc}
    (hs : s.windowStartMs = nowMs) (hpc : ∀ old, pc ≠ .exchange old) :
    Tame s₀ nowMs ⟨s, r.pcs.set i pc⟩ :=
  ⟨hs, fun old hold => h.2 old (exchange_mem_set hold hpc)⟩

include hlate in
theorem Fresh.step (h : Fresh s₀ r) (hstep : Race.step nowMs t r i = some r') :
    Fresh s₀ r' ∨ Taken s₀ nowMs t 0 r' := by
  have hexp : r.sentinel.Expired nowMs := by
    rw [h.sentinel, MemSentinel.expired_iff (by omega)]
    exact hlate
  have hnot : ∀ pc, r.pcs[i]? = some pc → pc = .load ∨ pc = .exchange s₀.windowStartMs :=
    fun pc hi => h.pcs pc (List.mem_of_getElem? hi)
  rcases step_cases hstep with ⟨hi, rfl⟩ | ⟨old, hi, hold, rfl⟩ | ⟨old, hi, hne, rfl⟩ |
    ⟨hi, rfl⟩ | ⟨hi, rfl⟩
  · refine Or.inl ⟨h.sentinel, fun pc hpc => ?_⟩
    rw [if_pos hexp, h.sentinel] at hpc
    rcases List.mem_or_eq_of_mem_set hpc with hpc | rfl
    · exact h.pcs pc hpc
    · exact Or.inr rfl
  · -- the first exchange wins
    have hzero : ∀ q : Pc → Bool, q .load = false → (∀ o, q (.exchange o) = false) →
        r.pcs.countP q = 0 := by
      intro q hl he
      refine List.countP_eq_zero.mpr fun pc hpc => ?_
      rcases h.pcs pc hpc with rfl | rfl
      · rw [hl]; exact Bool.false_ne_true
      · rw [he]; exact Bool.false_ne_true
    obtain ⟨hs, hd, hw⟩ := counts_set (b := .store) hi
    refine Or.inr ⟨⟨rfl, fun o ho => ?_⟩, by rw [h.sentinel]; rfl, ?_, ?_, ?_⟩
    · rcases h.pcs _ (exchange_mem_set ho fun _ => nofun) with h' | h'
      · cases h'
      · exact Pc.exchange.inj h'
    · exact hs.trans (congrArg (· + 1) (hzero _ rfl fun _ => rfl))
    · exact hd.trans (hzero _ rfl fun _ => rfl)
    · rw [Threshold.fires_zero]
      exact hw.trans (hzero _ rfl fun _ => rfl)
  · rcases hnot _ hi with h' | h'
    · cases h'
    · exact absurd (Pc.exchange.inj h').symm (h.sentinel ▸ hne)
  · rcases hnot _ hi with h' | h' <;> cases h'
  · rcases hnot _ hi with h' | h' <;> cases h'

/-- A call moving on to its count changes nothing else. -/
theorem Taken.quiet {k : Nat} {a : Pc} (h : Taken s₀ nowMs t k r) (hi : r.pcs[i]? = some a)
    (ha : a = .load ∨ ∃ old, a = .exchange old) :
    Taken s₀ nowMs t k ⟨r.sentinel, r.pcs.set i .add⟩ := by
  obtain ⟨hs, hd, hw⟩ := counts_quiet hi ha
  exact ⟨h.tame.set h.tame.1 nofun, h.count, hs.trans h.store, hd.trans h.done,
    hw.trans h.warns⟩

theorem Reset.quiet {k : Nat} {a : Pc} (h : Reset s₀ nowMs t k r) (hi : r.pcs[i]? = some a)
    (ha : a = .load ∨ ∃ old, a = .exchange old) :
    Reset s₀ nowMs t k ⟨r.sentinel, r.pcs.set i .add⟩ := by
  obtain ⟨hs, hd, hw⟩ := counts_quiet hi ha
  exact ⟨h.tame.set h.tame.1 nofun, by rw [List.length_set]; exact h.room, hs.trans h.store,
    hd.trans h.done, hw.trans h.warns⟩

/-- The winner's store ends the phase. -/
theorem Taken.reset {k : Nat} (h : Taken s₀ nowMs t k r) (hi : r.pcs[i]? = some .store) :
    Reset s₀ nowMs t k ⟨⟨r.sentinel.windowStartMs, 0#32⟩, r.pcs.set i .add⟩ := by
  have hroom := count_store_add_done r.pcs
  rw [h.store, h.done] at hroom
  obtain ⟨hs, hd, hw⟩ := counts_set (b := .add) hi
  refine ⟨h.tame.set h.tame.1 nofun, ?_, ?_, ?_, ?_⟩
  · rw [List.length_set]
    omega
  · exact Nat.succ.inj (hs.trans h.store)
  · exact hd.trans h.done
  · show _ = _ + fires _ 0 0
    rw [Threshold.fires_zero]
    exact hw.trans h.warns

include hlate in
theorem Taken.step {k : Nat} (h : Taken s₀ nowMs t k r)
    (hlt : r.pcs.length + s₀.windowCount.toNat < 2 ^ 32)
    (hstep : Race.step nowMs t r i = some r') :
    Taken s₀ nowMs t k r' ∨ Taken s₀ nowMs t (k + 1) r' ∨ Reset s₀ nowMs t k r' := by
  have hroom := count_store_add_done r.pcs
  rw [h.store, h.done] at hroom
  rcases step_cases hstep with ⟨hi, rfl⟩ | ⟨old, hi, hold, rfl⟩ | ⟨old, hi, hne, rfl⟩ |
    ⟨hi, rfl⟩ | ⟨hi, rfl⟩
  · rw [if_neg h.tame.not_expired]
    exact Or.inl (h.quiet hi (Or.inl rfl))
  · exact absurd hold (h.tame.exchange_fails hlate hi)
  · exact Or.inl (h.quiet hi (Or.inr ⟨old, rfl⟩))
  · exact Or.inr (Or.inr (h.reset hi))
  · have hcount := h.count
    have hsucc := MemSentinel.count_succ_toNat (c := r.sentinel.windowCount) (by omega)
    have heq := MemSentinel.count_succ_eq (c := r.sentinel.windowCount) (t := t) (by omega)
    obtain ⟨hs, hd, hw⟩ := counts_add (r.sentinel.windowCount + 1#32 = t) hi
    refine Or.inr (Or.inl ⟨h.tame.set h.tame.1 nofun, ?_, ?_, ?_, ?_⟩)
    · rw [hsucc, hcount, Nat.add_assoc]
    · exact hs.trans h.store
    · exact hd.trans (congrArg (· + 1) h.done)
    · rw [Threshold.fires_snoc, ← hcount, ← h.warns]
      exact hw.trans (congrArg (_ + ·) (if_congr heq rfl rfl))

include hlate in
theorem Reset.step {k : Nat} (h : Reset s₀ nowMs t k r) (hlt : r.pcs.length < 2 ^ 32)
    (hstep : Race.step nowMs t r i = some r') : Reset s₀ nowMs t k r' := by
  rcases step_cases hstep with ⟨hi, rfl⟩ | ⟨old, hi, hold, rfl⟩ | ⟨old, hi, hne, rfl⟩ |
    ⟨hi, rfl⟩ | ⟨hi, rfl⟩
  · rw [if_neg h.tame.not_expired]
    exact h.quiet hi (Or.inl rfl)
  · exact absurd hold (h.tame.exchange_fails hlate hi)
  · exact h.quiet hi (Or.inr ⟨old, rfl⟩)
  · -- the winner has stored already
    exact absurd (List.mem_of_getElem? hi) (List.count_eq_zero.mp h.store)
  · have hdone := h.done
    obtain ⟨hs, hd, hw⟩ := counts_add (r.sentinel.windowCount + 1#32 = t) hi
    have hroom := count_store_add_done
      (r.pcs.set i (.done (if r.sentinel.windowCount + 1#32 = t then .warn else .none)))
    rw [hd, List.length_set] at hroom
    have hsucc := MemSentinel.count_succ_toNat (c := r.sentinel.windowCount) (by omega)
    have heq := MemSentinel.count_succ_eq (c := r.sentinel.windowCount) (t := t) (by omega)
    refine ⟨h.tame.set h.tame.1 nofun, by rw [List.length_set]; exact h.room,
      hs.trans h.store, ?_, ?_⟩
    · rw [hsucc]
      exact hd.trans (congrArg (· + 1) hdone)
    · rw [hsucc, Threshold.fires_snoc, ← Nat.add_assoc, ← h.warns, Nat.zero_add]
      exact hw.trans (congrArg (_ + ·) (if_congr heq rfl rfl))

end Steps

/-! ## What a race answers -/

/-- Where a race of `N` calls can be. -/
def Phase (s₀ : MemSentinel) (nowMs : U64) (t : U32) (N : Nat) (r : Race) : Prop :=
  r.pcs.length = N ∧ (Fresh s₀ r ∨ ∃ k, Taken s₀ nowMs t k r ∨ Reset s₀ nowMs t k r)

section Outcome

variable {s₀ : MemSentinel} {nowMs : U64} {t : U32} {N : Nat}
  (hlate : s₀.windowStartMs.toNat + WINDOW_MS.toNat < nowMs.toNat)
  (hlt : N + s₀.windowCount.toNat < 2 ^ 32)

theorem start_fresh : Fresh s₀ (start s₀ N) :=
  ⟨rfl, fun _ hpc => Or.inl (List.eq_of_mem_replicate hpc)⟩

include hlate hlt in
theorem phase_step {r r' : Race} {i : Nat} (h : Phase s₀ nowMs t N r)
    (hstep : step nowMs t r i = some r') : Phase s₀ nowMs t N r' := by
  obtain ⟨rfl, hphase⟩ := h
  refine ⟨step_length hstep, ?_⟩
  rcases hphase with hf | ⟨k, hk | hk⟩
  · rcases hf.step hlate hstep with h | h
    · exact Or.inl h
    · exact Or.inr ⟨0, Or.inl h⟩
  · rcases hk.step hlate hlt hstep with h | h | h
    · exact Or.inr ⟨k, Or.inl h⟩
    · exact Or.inr ⟨k + 1, Or.inl h⟩
    · exact Or.inr ⟨k, Or.inr h⟩
  · exact Or.inr ⟨k, Or.inr (hk.step hlate (by omega) hstep)⟩

include hlate hlt in
theorem run_phase {sched : List Nat} {r : Race}
    (hrun : Lts.run (step nowMs t) (start s₀ N) sched = some r) : Phase s₀ nowMs t N r :=
  Lts.run_invariant (fun _ _ _ h hs => phase_step hlate hlt h hs)
    ⟨List.length_replicate, Or.inl start_fresh⟩ hrun

theorem Reset.warns_of_allDone {k : Nat} {r : Race} (h : Reset s₀ nowMs t k r)
    (hdone : r.AllDone) :
    r.warns = fires t.toNat s₀.windowCount.toNat k + fires t.toNat 0 (r.pcs.length - k) := by
  have hall := List.countP_eq_length.mpr hdone
  have hcount : r.sentinel.windowCount.toNat = r.pcs.length - k := by
    have := h.done
    omega
  rw [h.warns, hcount]

include hlate hlt in
/-- **A race answers as if `k` calls came before the reset** and the other
`N - k` after it. -/
theorem race_warns {sched : List Nat} {r : Race} (hN : 0 < N)
    (hrun : Lts.run (step nowMs t) (start s₀ N) sched = some r) (hdone : r.AllDone) :
    ∃ k < N, r.warns
      = fires t.toNat s₀.windowCount.toNat k + fires t.toNat 0 (N - k) := by
  obtain ⟨rfl, hphase⟩ := run_phase hlate hlt hrun
  rcases hphase with hf | ⟨k, hk | hk⟩
  · -- somebody is still before the exchange
    obtain ⟨pc, hpc⟩ := List.exists_mem_of_length_pos hN
    have := hdone pc hpc
    rcases hf.pcs pc hpc with rfl | rfl <;> cases this
  · -- the winner is still at its store
    have hmem : Pc.store ∈ r.pcs :=
      List.count_pos_iff.mp (by rw [hk.store]; exact Nat.zero_lt_one)
    cases hdone _ hmem
  · exact ⟨k, hk.room, hk.warns_of_allDone hdone⟩

/-! ## Every split happens -/

theorem step_at (s : MemSentinel) (pc : Pc) (front back : List Pc) :
    step nowMs t ⟨s, front ++ pc :: back⟩ front.length
      = (stepCall nowMs t s pc).map fun p => ⟨p.1, front ++ p.2 :: back⟩ := by
  simp [step]

/-- A call that finds the window open counts in two steps. -/
theorem run_open_call {s : MemSentinel} (hopen : ¬s.Expired nowMs) (front back : List Pc) :
    ∃ a, Lts.run (step nowMs t) ⟨s, front ++ .load :: back⟩ [front.length, front.length]
      = some ⟨⟨s.windowStartMs, s.windowCount + 1#32⟩, front ++ .done a :: back⟩ := by
  have hopen' : ¬nowMs - s.windowStartMs > WINDOW_MS := hopen
  refine ⟨if s.windowCount + 1#32 = t then .warn else .none, ?_⟩
  have hload : step nowMs t ⟨s, front ++ .load :: back⟩ front.length
      = some ⟨s, front ++ .add :: back⟩ := by
    simp only [step_at, stepCall, hopen', if_false, Option.map_some]
  rw [Lts.run_cons hload, Lts.run_cons (step_at s .add front back)]
  rfl

/-- Call 0 wins the exchange and waits; the next `k` calls come and go. -/
theorem run_to_taken (hexp : s₀.Expired nowMs) (hopen : ∀ c, ¬MemSentinel.Expired ⟨nowMs, c⟩ nowMs)
    {n : Nat} : ∀ k ≤ n, ∃ sched front, front.length = k ∧
      Lts.run (step nowMs t) (start s₀ (n + 1)) sched
        = some ⟨⟨nowMs, s₀.windowCount + BitVec.ofNat 32 k⟩,
            .store :: (front ++ List.replicate (n - k) .load)⟩
  | 0, _ => by
      refine ⟨[0, 0], [], rfl, ?_⟩
      have hexp' : nowMs - s₀.windowStartMs > WINDOW_MS := hexp
      have hload : step nowMs t (start s₀ (n + 1)) 0
          = some ⟨s₀, .exchange s₀.windowStartMs :: List.replicate n .load⟩ := by
        simp [step, start, stepCall, hexp', List.replicate_succ]
      have hwin : step nowMs t ⟨s₀, .exchange s₀.windowStartMs :: List.replicate n .load⟩ 0
          = some ⟨⟨nowMs, s₀.windowCount⟩, .store :: List.replicate n .load⟩ := by
        simp [step, stepCall, MemSentinel.compareExchangeStart]
      rw [Lts.run_cons hload, Lts.run_cons hwin, BitVec.add_zero]
      rfl
  | k + 1, hk => by
      obtain ⟨sched, front, hlen, hrun⟩ := run_to_taken hexp hopen k (Nat.le_of_succ_le hk)
      have hback :
          List.replicate (n - k) Pc.load = .load :: List.replicate (n - (k + 1)) .load := by
        rw [← List.replicate_succ]
        congr 1
        omega
      obtain ⟨a, hcall⟩ := run_open_call (t := t)
        (hopen (s₀.windowCount + BitVec.ofNat 32 k)) (.store :: front)
        (List.replicate (n - (k + 1)) .load)
      refine ⟨_, front ++ [.done a], by rw [List.length_append, hlen]; rfl,
        Lts.run_trans hrun (hback ▸ hcall.trans ?_)⟩
      rw [BitVec.add_assoc, ← BitVec.ofNat_add, List.append_assoc]
      rfl

/-- The steps a call has left. -/
def work : Pc → Nat
  | .load => 4
  | .exchange _ => 3
  | .store => 2
  | .add => 1
  | .done _ => 0

variable (nowMs t) in
theorem stepCall_work (s : MemSentinel) {pc : Pc} (h : isDone pc ≠ true) :
    ∃ p, stepCall nowMs t s pc = some p ∧ work p.2 < work pc := by
  cases pc with
  | load =>
      refine ⟨_, rfl, ?_⟩
      dsimp only
      split <;> simp [work]
  | exchange old =>
      refine ⟨_, rfl, ?_⟩
      dsimp only
      split <;> simp [work]
  | store => exact ⟨_, rfl, by simp [work]⟩
  | add => exact ⟨_, rfl, by simp [work]⟩
  | done a => exact absurd rfl h

theorem sum_map_work (pc : Pc) (front back : List Pc) :
    ((front ++ pc :: back).map work).sum
      = work pc + (front.map work).sum + (back.map work).sum := by
  rw [List.map_append, List.map_cons, List.sum_append, List.sum_cons]
  omega

variable (nowMs t) in
theorem exists_step_closer {r : Race} (h : ¬r.AllDone) :
    ∃ i r', step nowMs t r i = some r' ∧ (r'.pcs.map work).sum < (r.pcs.map work).sum := by
  simp only [AllDone, not_forall] at h
  obtain ⟨pc, hpc, hdone⟩ := h
  obtain ⟨s, pcs⟩ := r
  obtain ⟨front, back, rfl⟩ := List.append_of_mem hpc
  obtain ⟨p, hp, hlt⟩ := stepCall_work nowMs t s hdone
  refine ⟨front.length, ⟨p.1, front ++ p.2 :: back⟩, by rw [step_at, hp]; rfl, ?_⟩
  rw [sum_map_work, sum_map_work]
  omega

include hlate hlt in
/-- The state of `run_to_taken` is one where `k` calls have counted. -/
theorem taken_of_run {k n : Nat} (hn : n + 1 = N) (hk : k ≤ n) {sched : List Nat}
    {front : List Pc} (hlen : front.length = k)
    (hrun : Lts.run (step nowMs t) (start s₀ N) sched
      = some ⟨⟨nowMs, s₀.windowCount + BitVec.ofNat 32 k⟩,
          .store :: (front ++ List.replicate (n - k) .load)⟩) :
    Taken s₀ nowMs t k ⟨⟨nowMs, s₀.windowCount + BitVec.ofNat 32 k⟩,
      .store :: (front ++ List.replicate (n - k) .load)⟩ := by
  obtain ⟨hlength, hphase⟩ := run_phase hlate hlt hrun
  rcases hphase with hf | ⟨k', hk' | hk'⟩
  · rcases hf.pcs .store List.mem_cons_self with h | h <;> cases h
  · have hcount := hk'.count
    rw [BitVec.toNat_add, BitVec.toNat_ofNat] at hcount
    have hdone := hk'.done
    have hle := List.countP_le_length (p := isDone)
      (l := .store :: (front ++ List.replicate (n - k) .load))
    simp only at hlength hdone
    have hkk : k' = k := by omega
    exact hkk ▸ hk'
  · exact absurd List.mem_cons_self (List.count_eq_zero.mp hk'.store)

include hlate hlt in
theorem exists_race {k : Nat} (hk : k < N) :
    ∃ sched r, Lts.run (step nowMs t) (start s₀ N) sched = some r ∧ r.AllDone
      ∧ r.warns = fires t.toNat s₀.windowCount.toNat k + fires t.toNat 0 (N - k) := by
  obtain ⟨n, rfl⟩ : ∃ n, N = n + 1 := ⟨N - 1, by omega⟩
  have hexp : s₀.Expired nowMs := (MemSentinel.expired_iff (by omega)).mpr hlate
  have hopen : ∀ c, ¬MemSentinel.Expired ⟨nowMs, c⟩ nowMs := fun c => by
    rw [MemSentinel.expired_iff (Nat.le_refl _)]
    exact Nat.not_lt.mpr (Nat.le_add_right _ _)
  obtain ⟨sched, front, hlen, hrun⟩ :=
    run_to_taken (t := t) hexp hopen k (Nat.le_of_lt_succ hk)
  obtain ⟨hlength, -⟩ := run_phase hlate hlt hrun
  have htaken := taken_of_run hlate hlt rfl (Nat.le_of_lt_succ hk) hlen hrun
  have hreset := htaken.reset (i := 0) rfl
  have hcloser : ∀ r, Reset s₀ nowMs t k r ∧ r.pcs.length = n + 1 → ¬r.AllDone →
      ∃ i r', step nowMs t r i = some r' ∧ (Reset s₀ nowMs t k r' ∧ r'.pcs.length = n + 1)
        ∧ (r'.pcs.map work).sum < (r.pcs.map work).sum := by
    rintro r ⟨hr, hlen⟩ hdone
    obtain ⟨i, r', hstep, hless⟩ := exists_step_closer nowMs t hdone
    exact ⟨i, r', hstep, ⟨hr.step hlate (by omega) hstep, (step_length hstep).trans hlen⟩, hless⟩
  obtain ⟨sched', r, hrun', ⟨hr, hrlen⟩, hdone⟩ :=
    Lts.exists_run_to _ AllDone _ hcloser ⟨hreset, hlength⟩
  refine ⟨sched ++ 0 :: sched', r,
    Lts.run_trans hrun (Lts.run_cons_eq_some.mpr ⟨_, rfl, hrun'⟩), hdone, ?_⟩
  rw [hr.warns_of_allDone hdone, hrlen]

end Outcome

/-! ## When the race is harmless -/

theorem splits_agree_iff {c t N : Nat} (ht : 0 < t) :
    (∀ k < N, fires t c k + fires t 0 (N - k) = if t ≤ N then 1 else 0)
      ↔ N ≤ 1 ∨ (t = 1 ∧ 1 ≤ c) ∨ (2 ≤ t ∧ t ≤ N ∧ c + N + 1 = 2 * t)
        ∨ (N < t ∧ (t ≤ c ∨ c + N ≤ t)) := by
  constructor
  · intro h
    by_cases hN : N ≤ 1
    · exact Or.inl hN
    rcases (by omega : N < t ∨ t = 1 ∨ (2 ≤ t ∧ t ≤ N)) with hlt | rfl | ⟨h2, hle⟩
    · -- all but the winner before the reset
      have h1 := h (N - 1) (by omega)
      rw [if_neg (by omega), Nat.add_eq_zero_iff, Threshold.fires_eq_zero] at h1
      omega
    · have h1 := h 1 (by omega)
      rw [if_pos (by omega), Threshold.fires_eq_one.mpr (by omega : 0 < 1 ∧ 1 ≤ 0 + (N - 1)),
        Nat.add_eq_right, Threshold.fires_eq_zero] at h1
      omega
    · -- the last split that still warns after the reset, and the next one
      have h1 := h (N - t) (by omega)
      have h2 := h (N - t + 1) (by omega)
      rw [if_pos hle, Threshold.fires_eq_one.mpr (by omega : 0 < t ∧ t ≤ 0 + (N - (N - t))),
        Nat.add_eq_right, Threshold.fires_eq_zero] at h1
      rw [if_pos hle, Threshold.fires_eq_zero.mpr
        (by omega : t ≤ 0 ∨ 0 + (N - (N - t + 1)) < t), Nat.add_zero, Threshold.fires_eq_one] at h2
      omega
  · intro h k hk
    unfold fires
    split <;> split <;> split <;> omega

/-- **The window rolls over safely on several CPUs exactly when** there is no
second call, or the old count has just the value that hides the race. -/
theorem rollover_race_iff {s₀ : MemSentinel} {nowMs : U64} {t : U32} {N : Nat} (ht : 0 < t.toNat)
    (hlate : s₀.windowStartMs.toNat + WINDOW_MS.toNat < nowMs.toNat)
    (hlt : N + s₀.windowCount.toNat < 2 ^ 32) :
    (∀ sched r, Lts.run (step nowMs t) (start s₀ N) sched = some r → r.AllDone →
        r.warns = if t.toNat ≤ N then 1 else 0)
      ↔ N ≤ 1
        ∨ (t.toNat = 1 ∧ 1 ≤ s₀.windowCount.toNat)
        ∨ (2 ≤ t.toNat ∧ t.toNat ≤ N ∧ s₀.windowCount.toNat + N + 1 = 2 * t.toNat)
        ∨ (N < t.toNat ∧ (t.toNat ≤ s₀.windowCount.toNat
            ∨ s₀.windowCount.toNat + N ≤ t.toNat)) := by
  rw [← splits_agree_iff ht]
  constructor
  · intro h k hk
    obtain ⟨sched, r, hrun, hdone, hwarns⟩ := exists_race (t := t) hlate hlt hk
    rw [← hwarns]
    exact h sched r hrun hdone
  · intro h sched r hrun hdone
    by_cases hN : 0 < N
    · obtain ⟨k, hk, hwarns⟩ := race_warns hlate hlt hN hrun hdone
      rw [hwarns]
      exact h k hk
    · obtain ⟨hlen, -⟩ := run_phase hlate hlt hrun
      have hnil : r.pcs = [] := List.eq_nil_of_length_eq_zero (by omega)
      rw [warns, hnil, if_neg (by omega)]
      rfl

/-- Two errors in a window with threshold two: the second counts against the
old total and the reset erases it. -/
theorem rollover_race_lost :
    Lts.run (step 60001 2) (start .new 2) [0, 0, 1, 1, 0, 0]
      = some ⟨⟨60001, 1⟩, [.done .none, .done .none]⟩ := by
  decide

/-- With one error left over from the old window, the call in between warns
for the one that is erased. -/
theorem rollover_race_hidden :
    Lts.run (step 60001 2) (start ⟨0, 1⟩ 2) [0, 0, 1, 1, 0, 0]
        = some ⟨⟨60001, 1⟩, [.done .none, .done .warn]⟩
      ∧ warns ⟨⟨60001, 1⟩, [.done .none, .done .warn]⟩ = 1 := by
  have hrun : Lts.run (step 60001 2) (start ⟨0, 1⟩ 2) [0, 0, 1, 1, 0, 0]
      = some ⟨⟨60001, 1⟩, [.done .none, .done .warn]⟩ := by decide
  have hsafe :=
    (@rollover_race_iff ⟨0, 1⟩ 60001 2 2 (by decide) (by decide) (by decide)).mpr (by decide)
  exact ⟨hrun, hsafe _ _ hrun (by decide)⟩

end Race

end Rustlux
