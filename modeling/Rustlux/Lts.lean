import Mathlib.Tactic.Common

/-!
# Runs of a labelled transition function

A system is a partial step function `σ → α → Option σ`: a label says who
acts, and `none` that it cannot act now. A run is a list of labels. The rules
here carry what one step preserves to whole runs: for every run
(`run_invariant`), for the runs whose steps all meet a side condition
(`run_invariant_along`; for exactly these, `along_iff`), back to the step that
brought a change about (`exists_change`), and, when every unfinished state has
a step that brings it closer, to the existence of a run that finishes
(`exists_run_to`).
-/

namespace Lts

variable {σ α : Type} (step : σ → α → Option σ)

/-- The state after the steps `as`, if each of them can be taken. -/
def run : σ → List α → Option σ
  | s, [] => some s
  | s, a :: as => (step s a).bind fun s' => run s' as

/-- Every step of the run meets `good`, in the state it is taken from. -/
def Along (good : σ → α → Prop) : σ → List α → Prop
  | _, [] => True
  | s, a :: as => good s a ∧ ∀ s', step s a = some s' → Along good s' as

variable {step}

@[simp] theorem run_nil (s : σ) : run step s [] = some s := rfl

theorem run_cons {s : σ} {a : α} {as : List α} {s' : σ} (h : step s a = some s') :
    run step s (a :: as) = run step s' as := by
  rw [run, h, Option.bind_some]

theorem run_cons_eq_some {s t : σ} {a : α} {as : List α} :
    run step s (a :: as) = some t ↔ ∃ s', step s a = some s' ∧ run step s' as = some t := by
  rw [run, Option.bind_eq_some_iff]

theorem run_append (s : σ) (as bs : List α) :
    run step s (as ++ bs) = (run step s as).bind fun s' => run step s' bs := by
  induction as generalizing s with
  | nil => rfl
  | cons a as ih =>
      rw [List.cons_append, run, run, Option.bind_assoc]
      exact congrArg _ (funext ih)

theorem run_trans {s t u : σ} {as bs : List α} (h : run step s as = some t)
    (h' : run step t bs = some u) : run step s (as ++ bs) = some u := by
  rw [run_append, h, Option.bind_some, h']

/-- Two systems in which a label does the same, seen through `π`, run the same. -/
theorem run_map {τ : Type} {step' : τ → α → Option τ} (π : σ → τ) {as : List α}
    (h : ∀ a ∈ as, ∀ s, (step s a).map π = step' (π s) a) (s : σ) :
    (run step s as).map π = run step' (π s) as := by
  induction as generalizing s with
  | nil => rfl
  | cons a as ih =>
      obtain ⟨hhead, htail⟩ := List.forall_mem_cons.mp h
      rw [run, run, ← hhead s]
      cases step s a with
      | none => rfl
      | some s' => exact ih htail s'

/-- What every step under a side condition preserves, a run whose steps all
meet it preserves. -/
theorem run_invariant_along {I : σ → Prop} (good : σ → α → Prop)
    (hstep : ∀ s a s', I s → good s a → step s a = some s' → I s') :
    ∀ {as : List α} {s t : σ}, I s → Along step good s as → run step s as = some t → I t := by
  intro as
  induction as with
  | nil =>
      intro s t hs _ h
      cases h
      exact hs
  | cons a as ih =>
      intro s t hs hgood h
      obtain ⟨s', hs', h⟩ := run_cons_eq_some.mp h
      exact ih (hstep s a s' hs hgood.1 hs') (hgood.2 s' hs') h

theorem along_of_invariant {I : σ → Prop} {good : σ → α → Prop}
    (hgood : ∀ s a, I s → good s a) (hstep : ∀ s a s', I s → step s a = some s' → I s') :
    ∀ (as : List α) (s : σ), I s → Along step good s as := by
  intro as
  induction as with
  | nil =>
      intro s _
      trivial
  | cons a as ih =>
      intro s hs
      exact ⟨hgood s a hs, fun s' hs' => ih s' (hstep s a s' hs hs')⟩

/-- What every step preserves, every run preserves. -/
theorem run_invariant {I : σ → Prop} (hstep : ∀ s a s', I s → step s a = some s' → I s')
    {as : List α} {s t : σ} (hs : I s) (h : run step s as = some t) : I t :=
  run_invariant_along (fun _ _ => True) (fun s a s' hs _ => hstep s a s' hs) hs
    (along_of_invariant (I := I) (fun _ _ _ => trivial) hstep as s hs) h

/-- A property that a step keeps exactly when it is `good` holds all along a run whose steps
are `ok` exactly when all of them are good. -/
theorem along_iff_of_along {J I : σ → Prop} {ok good : σ → α → Prop}
    (hJ : ∀ s a s', J s → step s a = some s' → J s')
    (hstep : ∀ s a s', J s → I s → ok s a → step s a = some s' → (I s' ↔ good s a))
    (htotal : ∀ s a, J s → (step s a).isSome) :
    ∀ {as : List α} {s : σ}, J s → I s → Along step ok s as →
      ((∀ pre t, pre <+: as → run step s pre = some t → I t) ↔ Along step good s as) := by
  intro as
  induction as with
  | nil =>
      intro s _ hs _
      refine iff_of_true (fun pre t hpre h => ?_) trivial
      obtain rfl := List.prefix_nil.mp hpre
      cases h
      exact hs
  | cons a as ih =>
      intro s hJs hs hok
      obtain ⟨s', hs'⟩ := Option.isSome_iff_exists.mp (htotal s a hJs)
      have hiff := hstep s a s' hJs hs hok.1 hs'
      have hJs' := hJ s a s' hJs hs'
      have hok' := hok.2 s' hs'
      constructor
      · intro h
        have hI : I s' := h [a] s' (List.prefix_cons_inj a |>.mpr (List.nil_prefix)) (run_cons hs')
        refine ⟨hiff.mp hI, fun t ht => ?_⟩
        obtain rfl := Option.some.inj (hs'.symm.trans ht)
        exact (ih hJs' hI hok').mp fun pre t hpre hrun =>
          h (a :: pre) t (List.prefix_cons_inj a |>.mpr hpre) (by rw [run_cons hs', hrun])
      · intro h pre t hpre hrun
        have hI : I s' := hiff.mpr h.1
        cases pre with
        | nil =>
            cases hrun
            exact hs
        | cons b pre =>
            obtain ⟨rfl, htail⟩ := List.cons_prefix_cons.mp hpre
            rw [run_cons hs'] at hrun
            exact (ih hJs' hI hok').mpr (h.2 s' hs') pre t htail hrun

/-- A property that every step keeps exactly when it meets the side condition holds all along
a run exactly when all steps meet it. -/
theorem along_iff {J I : σ → Prop} {good : σ → α → Prop}
    (hJ : ∀ s a s', J s → step s a = some s' → J s')
    (hstep : ∀ s a s', J s → I s → step s a = some s' → (I s' ↔ good s a))
    (htotal : ∀ s a, (step s a).isSome) {as : List α} {s : σ} (hs : J s) (hI : I s) :
    (∀ pre t, pre <+: as → run step s pre = some t → I t) ↔ Along step good s as :=
  along_iff_of_along hJ
    (fun s a s' hJs hs _ => hstep s a s' hJs hs) (fun s a _ => htotal s a) hs hI
    (along_of_invariant (I := J) (fun _ _ _ => trivial) hJ as s hs)

/-- What does not hold at the start of a run and holds at its end, some step
brought about. -/
theorem exists_change {I : σ → Prop} :
    ∀ {as : List α} {s t : σ}, ¬I s → run step s as = some t → I t →
      ∃ a ∈ as, ∃ u v, ¬I u ∧ step u a = some v ∧ I v := by
  intro as
  induction as with
  | nil =>
      intro s t hs h ht
      cases h
      exact absurd ht hs
  | cons a as ih =>
      intro s t hs h ht
      obtain ⟨s', hs', h⟩ := run_cons_eq_some.mp h
      by_cases hI : I s'
      · exact ⟨a, List.mem_cons_self, s, s', hs, hs', hI⟩
      · obtain ⟨a', ha', hchange⟩ := ih hI h ht
        exact ⟨a', List.mem_cons_of_mem _ ha', hchange⟩

/-- A run that finishes exists if unfinished states have a step that brings
them closer, under an invariant of the steps. -/
theorem exists_run_to (I Done : σ → Prop) (μ : σ → Nat)
    (hstep : ∀ s, I s → ¬Done s → ∃ a s', step s a = some s' ∧ I s' ∧ μ s' < μ s) {s : σ}
    (hs : I s) : ∃ as t, run step s as = some t ∧ I t ∧ Done t := by
  by_cases hdone : Done s
  · exact ⟨[], s, rfl, hs, hdone⟩
  obtain ⟨a, s', hs', hI, hlt⟩ := hstep s hs hdone
  obtain ⟨as, t, hrun, ht⟩ := exists_run_to I Done μ hstep hI
  exact ⟨a :: as, t, by rw [run_cons hs', hrun], ht⟩
termination_by μ s

end Lts
