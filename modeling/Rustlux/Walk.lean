import Mathlib.Computability.StateTransition

/-!
# Walks along pointers

A loop that replaces its state by `next` of it until there is none: a climb
through parents, a descent through children. `StateTransition.eval` is what
such a loop computes if it ends; `follow` computes it with fuel, and has
enough of it when a measure falls with every step (`follow_eq_iff`). So the end
of a walk can be told by reachability alone.
-/

open StateTransition (Reaches eval mem_eval)

namespace Walk

variable {α : Type} (next : α → Option α)

/-- The state in which the walk from `a` ends, `fuel` steps from `a` at most. -/
def follow : Nat → α → α
  | 0, a => a
  | fuel + 1, a =>
      match next a with
      | none => a
      | some b => follow fuel b

/-- The measure falls with every step. -/
def Falls (μ : α → Nat) : Prop := ∀ a b, next a = some b → μ b < μ a

variable {next}

theorem follow_of_none {a : α} (h : next a = none) (fuel : Nat) : follow next fuel a = a := by
  cases fuel with
  | zero => rfl
  | succ fuel => rw [follow, h]

theorem follow_of_some {a b : α} (h : next a = some b) (fuel : Nat) :
    follow next (fuel + 1) a = follow next fuel b := by
  rw [follow, h]

/-- With fuel for the measure the walk is run to its end. -/
theorem follow_mem_eval {μ : α → Nat} (hμ : Falls next μ) :
    ∀ {fuel : Nat} {a : α}, μ a ≤ fuel → follow next fuel a ∈ eval next a := by
  intro fuel
  induction fuel with
  | zero =>
      intro a ha
      cases h : next a with
      | none =>
          rw [follow_of_none h]
          exact mem_eval.mpr ⟨.refl, h⟩
      | some b =>
          have := hμ a b h
          omega
  | succ fuel ih =>
      intro a ha
      cases h : next a with
      | none =>
          rw [follow_of_none h]
          exact mem_eval.mpr ⟨.refl, h⟩
      | some b =>
          have := hμ a b h
          obtain ⟨hreach, hend⟩ := mem_eval.mp (ih (a := b) (by omega))
          rw [follow_of_some h]
          exact mem_eval.mpr ⟨.head h hreach, hend⟩

/-- **Where a walk ends**: in the one state without a next that it reaches. -/
theorem follow_eq_iff {μ : α → Nat} (hμ : Falls next μ) {fuel : Nat} {a b : α}
    (hfuel : μ a ≤ fuel) : follow next fuel a = b ↔ Reaches next a b ∧ next b = none := by
  have hmem := follow_mem_eval hμ hfuel
  constructor
  · rintro rfl
    exact mem_eval.mp hmem
  · intro hb
    exact Part.mem_unique hmem (mem_eval.mpr hb)

/-- The end of the walk is the same from every state on it. -/
theorem follow_eq_of_reaches {μ : α → Nat} (hμ : Falls next μ) {n m : Nat} {a b : α}
    (ha : μ a ≤ n) (hb : μ b ≤ m) (hreach : Reaches next a b) :
    follow next n a = follow next m b := by
  obtain ⟨hrest, hend⟩ := (follow_eq_iff hμ hb).mp rfl
  exact (follow_eq_iff hμ ha).mpr ⟨hreach.trans hrest, hend⟩

/-- The measure does not rise along a walk. -/
theorem Falls.le {μ : α → Nat} (hμ : Falls next μ) {a b : α} (h : Reaches next a b) :
    μ b ≤ μ a := by
  induction h with
  | refl => exact Nat.le_refl _
  | tail _ hstep ih => exact Nat.le_trans (Nat.le_of_lt (hμ _ _ hstep)) ih

end Walk
