import Mathlib.Data.List.Nodup
import Mathlib.Logic.Function.Basic
import Rustlux.Lts

/-!
# Typestates kept as tags

Objects that are each in one of several places, and a program that keeps, for
each object, a tag of its place in a slot of memory and checks the tag before
it moves the object. `Act.step` is what the program means: an act on an object
that is not where the act needs it fails. `Tags.Follows` says that a function
on the memory does, through the tags, what a list of acts does to the places;
its rules build such functions up. `run_cases`, `run_needs` and `run_between`
tell from a list of acts that went through where an object was and is.
-/

namespace Typestate

variable {α σ κ ω : Type}

/-- An act of the program on one object. -/
inductive Act (α σ : Type) where
  | check (a : α) (s : σ)
  | move (a : α) (s t : σ)
  | put (a : α) (t : σ)

/-- The object has to be in the place `s`. -/
def Act.Needs (a : α) (s : σ) : Act α σ → Prop
  | .check b s' => b = a ∧ s' = s
  | .move b s' _ => b = a ∧ s' = s
  | .put _ _ => False

/-- The object is in the place `t` afterwards. -/
def Act.Sets (a : α) (t : σ) : Act α σ → Prop
  | .check _ _ => False
  | .move b _ t' => b = a ∧ t' = t
  | .put b t' => b = a ∧ t' = t

/-- The act is about the object. -/
def Act.On (a : α) : Act α σ → Prop
  | .check b _ => b = a
  | .move b _ _ => b = a
  | .put b _ => b = a

/-- The act moves an object from the places `P` to the places `Q`. -/
def Act.MovesBetween (P Q : σ → Prop) : Act α σ → Prop
  | .check _ _ => False
  | .move _ s t => P s ∧ Q t
  | .put _ _ => False

section Step

variable [DecidableEq α] [DecidableEq σ]

/-- One act, on the known places of the objects. -/
def Act.step (places : α → Option σ) : Act α σ → Option (α → Option σ)
  | .check a s => if places a = some s then some places else none
  | .move a s t =>
      if places a = some s then some (Function.update places a (some t)) else none
  | .put a t => some (Function.update places a (some t))

variable {places places' : α → Option σ} {act : Act α σ} {a : α} {s : σ}

theorem step_needs (h : act.step places = some places') (hneeds : act.Needs a s) :
    places a = some s := by
  cases act with
  | check b s' =>
      obtain ⟨rfl, rfl⟩ := hneeds
      rw [Act.step, Option.ite_none_right_eq_some] at h
      exact h.1
  | move b s' t =>
      obtain ⟨rfl, rfl⟩ := hneeds
      rw [Act.step, Option.ite_none_right_eq_some] at h
      exact h.1
  | put b t => exact hneeds.elim

theorem step_sets (h : act.step places = some places') {t : σ} (hsets : act.Sets a t) :
    places' a = some t := by
  cases act with
  | check b s' => exact hsets.elim
  | move b s' t' =>
      obtain ⟨rfl, rfl⟩ := hsets
      rw [Act.step, Option.ite_none_right_eq_some] at h
      rw [← Option.some.inj h.2, Function.update_self]
  | put b t' =>
      obtain ⟨rfl, rfl⟩ := hsets
      rw [← Option.some.inj h, Function.update_self]

theorem step_frame (h : act.step places = some places') (hsets : ∀ t, ¬act.Sets a t) :
    places' a = places a := by
  cases act with
  | check b s' =>
      rw [Act.step, Option.ite_none_right_eq_some] at h
      rw [Option.some.inj h.2]
  | move b s' t =>
      rw [Act.step, Option.ite_none_right_eq_some] at h
      rw [← Option.some.inj h.2, Function.update_of_ne fun hab => hsets t ⟨hab.symm, rfl⟩]
  | put b t =>
      rw [← Option.some.inj h, Function.update_of_ne fun hab => hsets t ⟨hab.symm, rfl⟩]

/-! ## Lists of acts -/

/-- After a list of acts an object is where the last act that sets it puts it,
or where it was. -/
theorem run_cases {acts : List (Act α σ)} (h : Lts.run Act.step places acts = some places')
    (a : α) :
    (∃ act ∈ acts, ∃ t, act.Sets a t ∧ places' a = some t)
      ∨ (∀ act ∈ acts, ∀ t, ¬act.Sets a t) ∧ places' a = places a := by
  induction acts generalizing places with
  | nil =>
      cases h
      exact .inr ⟨fun act hact => absurd hact List.not_mem_nil, rfl⟩
  | cons act acts ih =>
      obtain ⟨places₁, h₁, h₂⟩ := Lts.run_cons_eq_some.mp h
      rcases ih h₂ with ⟨later, hmem, hlater⟩ | ⟨hfree, hsame⟩
      · exact .inl ⟨later, List.mem_cons_of_mem _ hmem, hlater⟩
      by_cases hsets : ∃ t, act.Sets a t
      · obtain ⟨t, ht⟩ := hsets
        exact .inl ⟨act, List.mem_cons_self, t, ht, by rw [hsame, step_sets h₁ ht]⟩
      · have hact : ∀ t, ¬act.Sets a t := fun t ht => hsets ⟨t, ht⟩
        refine .inr ⟨List.forall_mem_cons.mpr ⟨hact, hfree⟩, ?_⟩
        rw [hsame, step_frame h₁ hact]

/-- If no act puts objects where some act needs one, that one is there from the
start. -/
theorem run_needs {Q : σ → Prop} {acts : List (Act α σ)}
    (h : Lts.run Act.step places acts = some places')
    (hsets : ∀ act ∈ acts, ∀ t, act.Sets a t → Q t) {act : Act α σ} (hact : act ∈ acts)
    (hneeds : act.Needs a s) (hs : ¬Q s) : places a = some s := by
  induction acts generalizing places with
  | nil => exact absurd hact List.not_mem_nil
  | cons first acts ih =>
      obtain ⟨places₁, h₁, h₂⟩ := Lts.run_cons_eq_some.mp h
      obtain ⟨hfirst, hacts⟩ := List.forall_mem_cons.mp hsets
      rcases List.mem_cons.mp hact with rfl | hact
      · exact step_needs h₁ hneeds
      have hlater : places₁ a = some s := ih h₂ hacts hact
      by_cases hset : ∃ t, first.Sets a t
      · obtain ⟨t, ht⟩ := hset
        have hst : t = s := Option.some.inj ((step_sets h₁ ht).symm.trans hlater)
        exact absurd (hst ▸ hfirst t ht) hs
      · rw [← step_frame h₁ fun t ht => hset ⟨t, ht⟩]
        exact hlater

/-- Acts that all move objects out of `P`, to places outside of it: an object
they are about is moved once. -/
theorem run_between {P Q : σ → Prop} (hPQ : ∀ s, P s → ¬Q s) {acts : List (Act α σ)}
    (hacts : ∀ act ∈ acts, act.MovesBetween P Q)
    (h : Lts.run Act.step places acts = some places') (a : α) :
    (∃ s t, P s ∧ Q t ∧ places a = some s ∧ places' a = some t ∧ Act.move a s t ∈ acts)
      ∨ (∀ act ∈ acts, ¬act.On a) ∧ places' a = places a := by
  have hsets : ∀ act ∈ acts, ∀ t, act.Sets a t → Q t := by
    intro act hact t ht
    have hmoves := hacts act hact
    cases act with
    | check b s => exact hmoves.elim
    | move b s t' => exact ht.2 ▸ hmoves.2
    | put b t' => exact hmoves.elim
  rcases run_cases h a with ⟨act, hact, t, ht, hafter⟩ | ⟨hfree, hsame⟩
  · have hmoves := hacts act hact
    cases act with
    | check b s => exact hmoves.elim
    | move b s t' =>
        obtain ⟨rfl, rfl⟩ := ht
        have hbefore : places b = some s :=
          run_needs h hsets hact ⟨rfl, rfl⟩ (hPQ s hmoves.1)
        exact .inl ⟨s, t', hmoves.1, hmoves.2, hbefore, hafter, hact⟩
    | put b t' => exact hmoves.elim
  · refine .inr ⟨fun act hact hon => ?_, hsame⟩
    have hmoves := hacts act hact
    cases act with
    | check b s => exact hmoves.elim
    | move b s t' => exact hfree _ hact t' ⟨hon, rfl⟩
    | put b t' => exact hmoves.elim

/-! ## Moving many objects -/

omit [DecidableEq α] [DecidableEq σ] in
def moves (objects : List α) (s t : σ) : List (Act α σ) := objects.map fun a => .move a s t

omit [DecidableEq α] [DecidableEq σ] in
@[simp] theorem moves_append (xs ys : List α) (s t : σ) :
    moves (xs ++ ys) s t = moves xs s t ++ moves ys s t := List.map_append

omit [DecidableEq α] [DecidableEq σ] in
theorem moves_between {P Q : σ → Prop} {s t : σ} (hs : P s) (ht : Q t) (objects : List α) :
    ∀ act ∈ moves objects s t, act.MovesBetween P Q :=
  List.forall_mem_map.mpr fun _ _ => ⟨hs, ht⟩

/-- Moves go through exactly when the objects are different and all where they
are moved from. -/
theorem run_moves {s t : σ} (hst : s ≠ t) (objects : List α) (places : α → Option σ) :
    Lts.run Act.step places (moves objects s t)
      = if objects.Nodup ∧ ∀ a ∈ objects, places a = some s then
          some fun a => if a ∈ objects then some t else places a
        else none := by
  induction objects generalizing places with
  | nil => simp [moves]
  | cons a objects ih =>
      by_cases ha : places a = some s
      · have hstep : Act.step places (.move a s t) = some (Function.update places a (some t)) := by
          rw [Act.step, if_pos ha]
        have hiff : (objects.Nodup
            ∧ ∀ b ∈ objects, Function.update places a (some t) b = some s)
            ↔ (a :: objects).Nodup ∧ ∀ b ∈ a :: objects, places b = some s := by
          rw [List.nodup_cons, List.forall_mem_cons]
          constructor
          · rintro ⟨hnodup, hall⟩
            have hmem : a ∉ objects := fun hmem => by
              have := hall a hmem
              rw [Function.update_self] at this
              exact hst (Option.some.inj this).symm
            refine ⟨⟨hmem, hnodup⟩, ha, fun b hb => ?_⟩
            rw [← hall b hb, Function.update_of_ne (ne_of_mem_of_not_mem hb hmem)]
          · rintro ⟨⟨hmem, hnodup⟩, -, hall⟩
            refine ⟨hnodup, fun b hb => ?_⟩
            rw [Function.update_of_ne (ne_of_mem_of_not_mem hb hmem), hall b hb]
        have hend : (fun b => if b ∈ objects then some t
            else Function.update places a (some t) b)
            = fun b => if b ∈ a :: objects then some t else places b := by
          funext b
          by_cases hb : b = a <;> simp [hb]
        rw [show moves (a :: objects) s t = .move a s t :: moves objects s t from rfl,
          Lts.run_cons hstep, ih, hend]
        exact if_congr hiff rfl rfl
      · have hstep : Act.step places (.move a s t) = none := by rw [Act.step, if_neg ha]
        have hno : ¬((a :: objects).Nodup ∧ ∀ b ∈ a :: objects, places b = some s) :=
          fun h => ha (h.2 a List.mem_cons_self)
        rw [show moves (a :: objects) s t = .move a s t :: moves objects s t from rfl, Lts.run,
          hstep, if_neg hno, Option.bind_none]

/-- Through a place in between, or directly. -/
theorem run_moves_moves {s t u : σ} (hst : s ≠ t) (htu : t ≠ u) (hsu : s ≠ u)
    (objects : List α) (places : α → Option σ) :
    Lts.run Act.step places (moves objects s t ++ moves objects t u)
      = Lts.run Act.step places (moves objects s u) := by
  rw [Lts.run_append, run_moves hst, run_moves hsu]
  by_cases h : objects.Nodup ∧ ∀ a ∈ objects, places a = some s
  · rw [if_pos h, if_pos h, Option.bind_some, run_moves htu, if_pos ⟨h.1, fun a ha => if_pos ha⟩]
    refine congrArg some (funext fun a => ?_)
    by_cases ha : a ∈ objects
    · rw [if_pos ha, if_pos ha]
    · rw [if_neg ha, if_neg ha, if_neg ha]
  · rw [if_neg h, if_neg h, Option.bind_none]

end Step

/-! ## Tags -/

/-- Where the tag of an object is kept, and the tags of the places. `read` gets
a place back from its tag. -/
structure Tags (α σ κ ω : Type) where
  slot : α → κ
  tag : α → σ → ω
  read : α → ω → Option σ
  slot_injective : Function.Injective slot
  read_eq_some : ∀ {a w s}, read a w = some s ↔ w = tag a s

namespace Tags

variable (tags : Tags α σ κ ω)

/-- The places that the memory tells. -/
def places (mem : κ → ω) : α → Option σ := fun a => tags.read a (mem (tags.slot a))

variable {tags}

theorem places_eq_some {mem : κ → ω} {a : α} {s : σ} :
    tags.places mem a = some s ↔ mem (tags.slot a) = tags.tag a s :=
  tags.read_eq_some

variable (tags) in
theorem places_update [DecidableEq α] [DecidableEq κ] (mem : κ → ω) (a : α) (w : ω) :
    tags.places (Function.update mem (tags.slot a) w)
      = Function.update (tags.places mem) a (tags.read a w) := by
  funext b
  rw [places]
  by_cases hb : b = a
  · rw [hb, Function.update_self, Function.update_self]
  · rw [Function.update_of_ne (tags.slot_injective.ne hb), Function.update_of_ne hb, places]

theorem read_tag (a : α) (s : σ) : tags.read a (tags.tag a s) = some s :=
  tags.read_eq_some.mpr rfl

variable [DecidableEq α] [DecidableEq σ]

variable (tags) in
/-- The function does with the tags what the acts do with the objects. -/
def Follows (f : (κ → ω) → Option (κ → ω)) (acts : List (Act α σ)) : Prop :=
  ∀ mem, (f mem).map tags.places = Lts.run Act.step (tags.places mem) acts

namespace Follows

variable {f g : (κ → ω) → Option (κ → ω)} {as bs : List (Act α σ)}

theorem nil : tags.Follows some [] := fun _ => rfl

theorem append (hf : tags.Follows f as) (hg : tags.Follows g bs) :
    tags.Follows (fun mem => (f mem).bind g) (as ++ bs) := by
  intro mem
  dsimp only
  rw [Lts.run_append, ← hf mem]
  cases f mem with
  | none => rfl
  | some mem' => exact hg mem'

theorem of_eq (hf : tags.Follows f as) (h : ∀ mem, g mem = f mem) : tags.Follows g as :=
  fun mem => (congrArg (Option.map tags.places) (h mem)).trans (hf mem)

theorem congr (hf : tags.Follows f as)
    (h : ∀ places, Lts.run Act.step places as = Lts.run Act.step places bs) :
    tags.Follows f bs :=
  fun mem => (hf mem).trans (h _)

variable (tags) in
theorem check [DecidableEq ω] (a : α) (s : σ) :
    tags.Follows (fun mem => if mem (tags.slot a) = tags.tag a s then some mem else none)
      [.check a s] := by
  intro mem
  dsimp only
  rw [Lts.run, Act.step]
  by_cases h : mem (tags.slot a) = tags.tag a s
  · rw [if_pos h, if_pos (places_eq_some.mpr h)]
    rfl
  · rw [if_neg h, if_neg fun h' => h (places_eq_some.mp h')]
    rfl

variable (tags) in
theorem move [DecidableEq κ] [DecidableEq ω] (a : α) (s t : σ) :
    tags.Follows (fun mem => if mem (tags.slot a) = tags.tag a s then
        some (Function.update mem (tags.slot a) (tags.tag a t)) else none)
      [.move a s t] := by
  intro mem
  dsimp only
  rw [Lts.run, Act.step]
  by_cases h : mem (tags.slot a) = tags.tag a s
  · rw [if_pos h, if_pos (places_eq_some.mpr h), Option.map_some, places_update, read_tag]
    rfl
  · rw [if_neg h, if_neg fun h' => h (places_eq_some.mp h')]
    rfl

variable (tags) in
theorem put [DecidableEq κ] (a : α) (t : σ) :
    tags.Follows (fun mem => some (Function.update mem (tags.slot a) (tags.tag a t)))
      [.put a t] := by
  intro mem
  rw [Lts.run, Act.step, Option.map_some, places_update, read_tag]
  rfl

/-- One object after the other. -/
theorem foldlM {β : Type} {f : β → (κ → ω) → Option (κ → ω)} {acts : β → List (Act α σ)}
    (h : ∀ x, tags.Follows (f x) (acts x)) (xs : List β) :
    tags.Follows (fun mem => xs.foldlM (fun mem x => f x mem) mem) (xs.flatMap acts) := by
  induction xs with
  | nil => exact nil
  | cons x xs ih =>
      rw [List.flatMap_cons]
      exact (h x).append ih

end Follows

end Tags

end Typestate
