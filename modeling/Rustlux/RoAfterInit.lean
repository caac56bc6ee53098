import Mathlib.Data.List.Induction
import Rustlux.Prim

/-!
# Values written during init

`rust/rustlux_mm/src/ro_after_init.rs`: a cell is created empty or with a
value, `init` stores into it, `seal` ends that, and `read` hands the value
out. `init` is unsafe and must come before any `seal`; `seal` and `read` are
safe and may come at any time. Calls take effect one after another.

As long as `init` keeps to its contract, the value is the one stored last, and
a seal freezes it. But what `read` asserts is that the cell is sealed, not
that anything has been stored: a cell sealed while empty passes, and without
debug assertions a cell that is merely empty does (`reads_stored_iff`).
-/

namespace Rustlux

/-- `value` is `none` as long as the `MaybeUninit` is uninitialised. -/
structure RoAfterInit (T : Type) where
  value : Option T
  sealed : Bool
deriving DecidableEq, Repr

/-- A failed assertion, and `assume_init` of an uninitialised value. -/
inductive RoAfterInit.Fault where
  | panic
  | undefinedBehavior
deriving DecidableEq, Repr

/-! ## The cell -/

variable {T : Type}

def RoAfterInit.uninit : RoAfterInit T := { value := none, sealed := false }

def RoAfterInit.new (value : T) : RoAfterInit T := { value := some value, sealed := false }

/-- Only a build with debug assertions evaluates the condition. -/
def debugAssert (debugAssertions cond : Bool) : Except RoAfterInit.Fault Unit :=
  if debugAssertions && !cond then .error .panic else .ok ()

def assumeInitRef : Option T → Except RoAfterInit.Fault T
  | some value => .ok value
  | none => .error .undefinedBehavior

def RoAfterInit.init (debugAssertions : Bool) (cell : RoAfterInit T) (value : T) :
    Except Fault (RoAfterInit T) := do
  debugAssert debugAssertions !cell.sealed
  return { cell with value := some value }

def RoAfterInit.seal (cell : RoAfterInit T) : RoAfterInit T := { cell with sealed := true }

def RoAfterInit.read (debugAssertions : Bool) (cell : RoAfterInit T) : Except Fault T := do
  debugAssert debugAssertions cell.sealed
  assumeInitRef cell.value

namespace RoAfterInit

/-! ## Sequences of calls -/

inductive Call (T : Type) where
  | init (value : T)
  | seal
  | read
deriving DecidableEq, Repr

/-- The constructor called, `new` with its value or `uninit`. -/
def create : Option T → RoAfterInit T
  | none => uninit
  | some value => new value

/-- A call that panics leaves the cell as it is. -/
def after (debugAssertions : Bool) (cell : RoAfterInit T) : Call T → RoAfterInit T
  | .init value =>
      match cell.init debugAssertions value with
      | .ok cell' => cell'
      | .error _ => cell
  | .seal => cell.seal
  | .read => cell

def run (debugAssertions : Bool) (cell : RoAfterInit T) (calls : List (Call T)) : RoAfterInit T :=
  calls.foldl (after debugAssertions) cell

/-- What `read` answers as call number `i`. -/
def answer (debugAssertions : Bool) (created : Option T) (calls : List (Call T)) (i : Nat) :
    Except Fault T :=
  (run debugAssertions (create created) (calls.take i)).read debugAssertions

/-- The contract of `init`: it comes before any `seal`. -/
def InitFirst (calls : List (Call T)) : Prop :=
  calls.Pairwise fun call later => call = .seal → ∀ value, later ≠ .init value

/-- What a call stores. -/
def store (stored : Option T) : Call T → Option T
  | .init value => some value
  | _ => stored

/-- The value stored last, by the constructor or by `init`. -/
def lastStored (created : Option T) (calls : List (Call T)) : Option T :=
  calls.foldl store created

/-- Every read that gets past its assertion returns the value stored last, and
all reads after the first seal return the same. -/
structure ReadsStored (debugAssertions : Bool) (created : Option T) (calls : List (Call T)) :
    Prop where
  stored : ∀ i, calls[i]? = some .read →
    answer debugAssertions created calls i ≠ .error .panic →
      ∃ value, lastStored created (calls.take i) = some value
        ∧ answer debugAssertions created calls i = .ok value
  same : ∀ i j, calls[i]? = some .read → calls[j]? = some .read →
    .seal ∈ calls.take i → .seal ∈ calls.take j →
      answer debugAssertions created calls i = answer debugAssertions created calls j

/-- The cell is created with a value, or `init` comes before every read; with
debug assertions, before every read after a seal. -/
def StoredFirst (debugAssertions : Bool) (created : Option T) (calls : List (Call T)) : Prop :=
  created.isSome ∨ ∀ i, calls[i]? = some .read →
    (debugAssertions = true → .seal ∈ calls.take i) → ∃ value, .init value ∈ calls.take i

/-! ## One call -/

section Cell

variable {debugAssertions : Bool} {cell : RoAfterInit T}

theorem init_eq (value : T) :
    cell.init debugAssertions value
      = if debugAssertions && cell.sealed then .error .panic
        else .ok { cell with value := some value } := by
  rw [init, debugAssert, Bool.not_not]
  split <;> rfl

theorem read_eq :
    cell.read debugAssertions
      = if debugAssertions && !cell.sealed then .error .panic else assumeInitRef cell.value := by
  rw [read, debugAssert]
  split <;> rfl

theorem read_panic_iff :
    cell.read debugAssertions = .error .panic
      ↔ debugAssertions = true ∧ cell.sealed = false := by
  rw [read_eq]
  split
  · rename_i h
    simpa using h
  · rename_i h
    refine iff_of_false (fun hpanic => ?_) (by simpa using h)
    cases hvalue : cell.value <;> rw [hvalue] at hpanic <;> cases hpanic

/-- A read that gets past its assertion returns what the cell holds. -/
theorem read_of_value {value : T} (hpast : cell.read debugAssertions ≠ .error .panic)
    (hvalue : cell.value = some value) : cell.read debugAssertions = .ok value := by
  rw [ne_eq, read_panic_iff] at hpast
  rw [read_eq, if_neg (by simpa using hpast), hvalue, assumeInitRef]

/-- Only `seal` seals. -/
theorem after_sealed (call : Call T) :
    (cell.after debugAssertions call).sealed = true ↔ cell.sealed = true ∨ call = .seal := by
  cases call with
  | init value =>
      rw [after, init_eq]
      cases debugAssertions && cell.sealed <;> simp
  | _ => simp [after, RoAfterInit.seal]

/-- An `init` that comes in time stores its value; no other call stores any. -/
theorem after_value {call : Call T} (hinit : ∀ value, call = .init value → cell.sealed = false) :
    (cell.after debugAssertions call).value = store cell.value call := by
  cases call with
  | init value =>
      have hopen : ¬(debugAssertions && cell.sealed) = true := by
        rw [hinit value rfl, Bool.and_false]
        exact Bool.false_ne_true
      rw [after, init_eq, if_neg hopen, store]
  | _ => rfl

end Cell

/-! ## A sequence of calls -/

theorem create_value (created : Option T) : (create created).value = created := by
  cases created <;> rfl

theorem create_sealed (created : Option T) : (create created).sealed = false := by
  cases created <;> rfl

section Run

variable (debugAssertions : Bool) (created : Option T)

theorem run_snoc (cell : RoAfterInit T) (calls : List (Call T)) (call : Call T) :
    run debugAssertions cell (calls ++ [call])
      = (run debugAssertions cell calls).after debugAssertions call := by
  rw [run, List.foldl_append, run, List.foldl_cons, List.foldl_nil]

theorem lastStored_append (calls later : List (Call T)) :
    lastStored created (calls ++ later) = lastStored (lastStored created calls) later :=
  List.foldl_append

theorem lastStored_snoc (calls : List (Call T)) (call : Call T) :
    lastStored created (calls ++ [call]) = store (lastStored created calls) call :=
  lastStored_append created calls [call]

/-- A cell is sealed once `seal` has been called. -/
theorem run_sealed (calls : List (Call T)) :
    (run debugAssertions (create created) calls).sealed = true ↔ .seal ∈ calls := by
  induction calls using List.reverseRecOn with
  | nil => simp [run, create_sealed]
  | append_singleton calls call ih =>
      rw [run_snoc, after_sealed, ih, List.mem_append, List.mem_singleton, eq_comm (a := call)]

/-- The cell holds the value stored last: an `init` in time finds it unsealed. -/
theorem run_value {calls : List (Call T)} (hinit : InitFirst calls) :
    (run debugAssertions (create created) calls).value = lastStored created calls := by
  induction calls using List.reverseRecOn with
  | nil => exact create_value created
  | append_singleton calls call ih =>
      obtain ⟨hcalls, -, hlast⟩ := List.pairwise_append.mp hinit
      have hopen : ∀ value, call = .init value →
          (run debugAssertions (create created) calls).sealed = false := by
        intro value hcall
        refine Bool.eq_false_iff.mpr fun hsealed => ?_
        have hseal := (run_sealed debugAssertions created calls).mp hsealed
        exact hlast .seal hseal call List.mem_cons_self rfl value hcall
      rw [run_snoc, after_value hopen, ih hcalls, lastStored_snoc]

theorem lastStored_isSome (calls : List (Call T)) :
    (lastStored created calls).isSome ↔ created.isSome ∨ ∃ value, .init value ∈ calls := by
  induction calls using List.reverseRecOn with
  | nil => simp [lastStored]
  | append_singleton calls call ih =>
      rw [lastStored_snoc]
      cases call with
      | init value => simp [store]
      | _ => simp [store, ih]

/-- Calls without an `init` store nothing. -/
theorem lastStored_of_forall_not_mem {calls : List (Call T)}
    (hnone : ∀ value, .init value ∉ calls) : lastStored created calls = created := by
  induction calls with
  | nil => rfl
  | cons call calls ih =>
      have hrest := ih fun value hmem => hnone value (List.mem_cons_of_mem _ hmem)
      cases call with
      | init value => exact absurd List.mem_cons_self (hnone value)
      | _ => exact hrest

end Run

/-! ## The contract -/

theorem InitFirst.take {calls : List (Call T)} (h : InitFirst calls) (i : Nat) :
    InitFirst (calls.take i) :=
  h.sublist (List.take_sublist i calls)

theorem InitFirst.not_mem_drop {calls : List (Call T)} (h : InitFirst calls) {i : Nat}
    (hseal : .seal ∈ calls.take i) (value : T) : .init value ∉ calls.drop i := by
  intro hmem
  rw [← List.take_append_drop i calls] at h
  exact (List.pairwise_append.mp h).2.2 .seal hseal _ hmem rfl value rfl

section Answers

variable {debugAssertions : Bool} {created : Option T} {calls : List (Call T)} {i : Nat}

/-- From the first seal on, the cell is the same. -/
theorem run_frozen (hinit : InitFirst calls) (hseal : .seal ∈ calls.take i) :
    run debugAssertions (create created) (calls.take i)
      = { value := lastStored created calls, sealed := true } := by
  have hsealed := (run_sealed debugAssertions created _).mpr hseal
  have hvalue := run_value debugAssertions created (hinit.take i)
  have hlast : lastStored created calls = lastStored created (calls.take i) := by
    conv_lhs => rw [← List.take_append_drop i calls, lastStored_append]
    exact lastStored_of_forall_not_mem _ (hinit.not_mem_drop hseal)
  rw [hlast, ← hvalue, ← hsealed]

theorem answer_panic_iff :
    answer debugAssertions created calls i = .error .panic
      ↔ debugAssertions = true ∧ .seal ∉ calls.take i := by
  rw [answer, read_panic_iff, ← Bool.not_eq_true, run_sealed]

theorem answer_of_stored (hinit : InitFirst calls) {value : T}
    (hpast : answer debugAssertions created calls i ≠ .error .panic)
    (hstored : lastStored created (calls.take i) = some value) :
    answer debugAssertions created calls i = .ok value :=
  read_of_value hpast ((run_value debugAssertions created (hinit.take i)).trans hstored)

/-- A read that comes after a store finds it. -/
theorem StoredFirst.reads (h : StoredFirst debugAssertions created calls)
    (hinit : InitFirst calls) : ReadsStored debugAssertions created calls := by
  refine ⟨fun i hread hpast => ?_, fun i j _ _ hi hj => ?_⟩
  · have hsome : (lastStored created (calls.take i)).isSome := by
      refine (lastStored_isSome created _).mpr (h.imp_right fun hinits => hinits i hread ?_)
      intro hdebug
      by_contra hseal
      exact hpast (answer_panic_iff.mpr ⟨hdebug, hseal⟩)
    obtain ⟨value, hstored⟩ := Option.isSome_iff_exists.mp hsome
    exact ⟨value, hstored, answer_of_stored hinit hpast hstored⟩
  · rw [answer, answer, run_frozen hinit hi, run_frozen hinit hj]

/-- With debug assertions it is enough that `init` is called at all, or that
nobody reads after a seal. -/
theorem storedFirst_debug (hinit : InitFirst calls) :
    StoredFirst true created calls
      ↔ created.isSome ∨ (∃ value, .init value ∈ calls)
        ∨ ∀ i, calls[i]? = some .read → .seal ∉ calls.take i := by
  refine or_congr_right ⟨fun h => ?_, fun h i hread hseal => ?_⟩
  · refine or_iff_not_imp_left.mpr fun hnone i hread hseal => ?_
    obtain ⟨value, hmem⟩ := h i hread fun _ => hseal
    exact hnone ⟨value, List.mem_of_mem_take hmem⟩
  · rcases h with ⟨value, hmem⟩ | hnever
    · rw [← List.take_append_drop i calls, List.mem_append] at hmem
      exact ⟨value, hmem.resolve_right (hinit.not_mem_drop (hseal rfl) value)⟩
    · exact absurd (hseal rfl) (hnever i hread)

end Answers

/-- **Every read that gets past its assertion returns the value stored last,
exactly when** the cell is created with a value or every read that gets past
it (with debug assertions, every read after a seal) comes after an `init`. -/
theorem reads_stored_iff (debugAssertions : Bool) (created : Option T) {calls : List (Call T)}
    (hinit : InitFirst calls) :
    ReadsStored debugAssertions created calls ↔ StoredFirst debugAssertions created calls := by
  refine ⟨fun h => ?_, fun h => h.reads hinit⟩
  refine or_iff_not_imp_left.mpr fun hempty i hread hassert => ?_
  have hpast : answer debugAssertions created calls i ≠ .error .panic := fun hpanic =>
    (answer_panic_iff.mp hpanic).2 (hassert (answer_panic_iff.mp hpanic).1)
  obtain ⟨value, hstored, -⟩ := h.stored i hread hpast
  have hsome : (lastStored created (calls.take i)).isSome := Option.isSome_of_eq_some hstored
  exact ((lastStored_isSome created _).mp hsome).resolve_left hempty

/-- The order of the documented example. -/
theorem reads_stored_example :
    ReadsStored true none [Call.init (0xFFFFFFFFFFFFFFFF : U64), .seal, .read] := by
  refine (reads_stored_iff true none (by simp [InitFirst])).mpr (.inr fun i hread _ => ?_)
  match i with
  | 0 => cases hread
  | 1 => cases hread
  | 2 => exact ⟨_, List.mem_cons_self⟩
  | i + 3 => cases hread

/-- Sealed before anything is stored: the assertion of `read` holds, and it
reads the uninitialised value. -/
theorem sealed_while_empty :
    InitFirst [Call.seal, (.read : Call U64)]
      ∧ answer true none [Call.seal, (.read : Call U64)] 1 = .error .undefinedBehavior
      ∧ ¬ReadsStored true none [Call.seal, (.read : Call U64)] := by
  refine ⟨by simp [InitFirst], rfl, fun h => ?_⟩
  obtain ⟨value, hstored, -⟩ := h.stored 1 rfl nofun
  cases hstored

end RoAfterInit

end Rustlux
