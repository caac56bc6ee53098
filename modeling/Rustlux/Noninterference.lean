import Mathlib.Tactic.Common

/-!
# Noninterference by unwinding

A machine answers every event with outputs. Some events are hidden: whoever
reads the outputs is not to learn of them. That follows from a relation on
states, kept by a hidden event on one side alone and by a visible one on both
sides, with like outputs (`Unwinds`): a run then shows what it shows without
its hidden events (`Unwinds.outputs_purge`), and two runs that differ in their
hidden events alone show the same (`Unwinds.outputs_eq`).
-/

namespace Noninterference

variable {σ α ω : Type}

/-- What a run shows, in order. -/
def outputs (step : σ → α → List ω × σ) : σ → List α → List ω
  | _, [] => []
  | s, a :: as => (step s a).1 ++ outputs step (step s a).2 as

/-- The unwinding conditions, for the events that are `Good`. -/
structure Unwinds (step : σ → α → List ω × σ) (hidden : α → Bool) (Good : α → Prop)
    (R : σ → σ → Prop) : Prop where
  quiet : ∀ s t a, R s t → Good a → hidden a = true → (step s a).1 = [] ∧ R (step s a).2 t
  alike : ∀ s t a, R s t → Good a → hidden a = false →
    (step s a).1 = (step t a).1 ∧ R (step s a).2 (step t a).2

namespace Unwinds

variable {step : σ → α → List ω × σ} {hidden : α → Bool} {Good : α → Prop} {R : σ → σ → Prop}

theorem outputs_purge (h : Unwinds step hidden Good R) {s t : σ} (hR : R s t) {as : List α}
    (hgood : ∀ a ∈ as, Good a) :
    outputs step s as = outputs step t (as.filter fun a => !hidden a) := by
  induction as generalizing s t with
  | nil => rfl
  | cons a as ih =>
      obtain ⟨ha, has⟩ := List.forall_mem_cons.mp hgood
      rw [outputs]
      cases hhidden : hidden a with
      | true =>
          obtain ⟨hnone, hR'⟩ := h.quiet s t a hR ha hhidden
          rw [List.filter_cons_of_neg (by simp [hhidden]), hnone, ih hR' has, List.nil_append]
      | false =>
          obtain ⟨hsame, hR'⟩ := h.alike s t a hR ha hhidden
          rw [List.filter_cons_of_pos (by simp [hhidden]), outputs, hsame, ih hR' has]

theorem outputs_eq (h : Unwinds step hidden Good R) {s t : σ} (hs : R s s) (ht : R t s)
    {as bs : List α} (has : ∀ a ∈ as, Good a) (hbs : ∀ b ∈ bs, Good b)
    (hsame : (as.filter fun a => !hidden a) = bs.filter fun b => !hidden b) :
    outputs step s as = outputs step t bs := by
  rw [h.outputs_purge hs has, h.outputs_purge ht hbs, hsame]

end Unwinds

end Noninterference
