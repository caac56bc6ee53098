import Rustlux.Walk

/-!
# The process tree

What `inherit_from_ancestor_hub` of `kernel/sched/bore.c` walks through. It
climbs from the forking task over ancestors that have nothing but the child it
came from, to a hub, and below each direct child of the hub it comes to the end
of the chain of only children. The two walks are inverse to each other: the
tasks at the ends are, without repetition, the childless tasks whose forks climb
to the hub (`hub_descendants`).
-/

open StateTransition (Reaches)

namespace Rustlux.BoreC

/-- The links between tasks, as one reader sees them: `children` in list order,
`threads` the ones of a leader's group. A parent is less deep than its child,
and a root is its own parent. -/
structure ProcessTree (ι : Type) where
  realParent : ι → ι
  children : ι → List ι
  groupLeader : ι → ι
  threads : ι → List ι
  depth : ι → Nat
  height : Nat
  depth_lt : ∀ t, realParent t ≠ t → depth (realParent t) < depth t
  depth_le : ∀ t, depth t ≤ height
  parent_of_mem : ∀ p c, c ∈ children p → realParent c = p ∧ c ≠ p
  children_nodup : ∀ p, (children p).Nodup

/-- After the last entry of a list comes its head, which `none` stands for. -/
def countChildrenUpto2 {ι : Type} (children : List ι) : Nat :=
  let first := children.head?
  let second := if first.isSome then children.tail.head? else children.head?
  first.isSome.toNat + second.isSome.toNat

theorem countChildrenUpto2_eq {ι : Type} (children : List ι) :
    countChildrenUpto2 children = min 2 children.length := by
  match children with
  | [] => rfl
  | [_] => rfl
  | _ :: _ :: _ =>
      rw [List.length_cons, List.length_cons, Nat.min_eq_left (by omega)]
      rfl

namespace ProcessTree

variable {ι : Type} (tree : ProcessTree ι)

/-! ## The descent -/

/-- One turn of the descent to an only child. -/
def descend (descendant : ι) : Option ι :=
  if countChildrenUpto2 (tree.children descendant) = 1 then (tree.children descendant).head?
  else none

/-- The `descendant` that is looked at for a direct child. -/
def sampled (directChild : ι) : ι :=
  Walk.follow tree.descend (tree.height - tree.depth directChild) directChild

variable {tree}

theorem descend_eq_some {d c : ι} : tree.descend d = some c ↔ tree.children d = [c] := by
  rw [descend, countChildrenUpto2_eq]
  match tree.children d with
  | [] => simp
  | [x] => simp
  | x :: y :: rest =>
      have hlen : ¬min 2 (x :: y :: rest).length = 1 := by
        simp only [List.length_cons]
        omega
      rw [if_neg hlen]
      simp

theorem descend_parent {d c : ι} (h : tree.descend d = some c) :
    tree.realParent c = d ∧ c ≠ d :=
  tree.parent_of_mem d c (by rw [descend_eq_some.mp h]; exact List.mem_singleton_self c)

theorem descend_falls : Walk.Falls tree.descend fun d => tree.height - tree.depth d := by
  intro d c h
  obtain ⟨hparent, hne⟩ := descend_parent h
  have hlt := tree.depth_lt c (by rw [hparent]; exact hne.symm)
  have hle := tree.depth_le c
  rw [hparent] at hlt
  exact Nat.sub_lt_sub_left (Nat.lt_of_lt_of_le hlt hle) hlt

/-- A descent does not get less deep. -/
theorem depth_le_of_reaches {d t : ι} (h : Reaches tree.descend d t) :
    tree.depth d ≤ tree.depth t := by
  have hfall : tree.height - tree.depth t ≤ tree.height - tree.depth d := descend_falls.le h
  have hle := tree.depth_le d
  omega

theorem sampled_eq_iff {d t : ι} :
    tree.sampled d = t ↔ Reaches tree.descend d t ∧ tree.descend t = none :=
  Walk.follow_eq_iff descend_falls (Nat.le_refl _)

/-- Two descents from children of one task do not meet. -/
theorem descend_disjoint {h d₁ d₂ t : ι} (h₁ : d₁ ∈ tree.children h) (h₂ : d₂ ∈ tree.children h)
    (hr₁ : Reaches tree.descend d₁ t) (hr₂ : Reaches tree.descend d₂ t) : d₁ = d₂ := by
  -- a descent from a child of `h` does not lead back to `h`
  have hback : ∀ d ∈ tree.children h, ¬Reaches tree.descend d h := by
    intro d hd hreach
    obtain ⟨hparent, hne⟩ := tree.parent_of_mem h d hd
    have hlt := tree.depth_lt d (by rw [hparent]; exact hne.symm)
    have hle := depth_le_of_reaches hreach
    rw [hparent] at hlt
    omega
  induction hr₁ with
  | refl =>
      rcases hr₂.cases_tail with heq | ⟨y, hy, hstep⟩
      · exact heq
      · have hparent := (descend_parent hstep).1
        rw [(tree.parent_of_mem h d₁ h₁).1] at hparent
        exact absurd (hparent ▸ hy) (hback d₂ h₂)
  | @tail x y hx hstep ih =>
      have hparent := (descend_parent hstep).1
      rcases hr₂.cases_tail with rfl | ⟨z, hz, hzstep⟩
      · rw [(tree.parent_of_mem h y h₂).1] at hparent
        exact absurd (hparent ▸ hx) (hback d₁ h₁)
      · have hz' := (descend_parent hzstep).1
        exact ih ((hparent.symm.trans hz') ▸ hz)

/-! ## The climb -/

variable (tree)

/-- Where a climb that has come from a child ends. -/
def IsHub (h : ι) : Prop := tree.realParent h = h ∨ 2 ≤ (tree.children h).length

/-- In its parent's list, as every leader is. -/
def Linked (t : ι) : Prop := tree.realParent t = t ∨ t ∈ tree.children (tree.realParent t)

variable [DecidableEq ι]

/-- One turn of the climb, with `sole_child_count`. -/
def climb : ι × Nat → Option (ι × Nat)
  | (ancestor, soleChildCount) =>
      let next := tree.realParent ancestor
      if next ≠ ancestor ∧ countChildrenUpto2 (tree.children ancestor) ≤ soleChildCount then
        some (next, 1)
      else none

/-- The ancestor whose cache `inherit_from_ancestor_hub` uses. -/
def ancestorHub (parent : ι) (cloneParent : Bool) : ι :=
  let start := if cloneParent then (tree.realParent parent, 1) else (parent, 0)
  (Walk.follow tree.climb (tree.depth start.1) start).1

variable {tree}

theorem climb_eq_some {a : ι} {sole : Nat} {next : ι × Nat} :
    tree.climb (a, sole) = some next
      ↔ (tree.realParent a ≠ a ∧ min 2 (tree.children a).length ≤ sole)
        ∧ next = (tree.realParent a, 1) := by
  rw [climb, countChildrenUpto2_eq]
  by_cases h : tree.realParent a ≠ a ∧ min 2 (tree.children a).length ≤ sole
  · rw [if_pos h, Option.some_inj, and_iff_right h, eq_comm]
  · rw [if_neg h]
    exact iff_of_false (by simp) fun h' => h h'.1

theorem climb_falls : Walk.Falls tree.climb fun x => tree.depth x.1 := by
  rintro ⟨a, sole⟩ b h
  obtain ⟨⟨hne, -⟩, rfl⟩ := climb_eq_some.mp h
  exact tree.depth_lt a hne

theorem climb_hub {h : ι} (hhub : tree.IsHub h) : tree.climb (h, 1) = none := by
  rw [climb, countChildrenUpto2_eq, if_neg]
  rintro ⟨hne, hfew⟩
  rcases hhub with hroot | hmany
  · exact hne hroot
  · omega

theorem ancestorHub_true {t h : ι} (hreach : Reaches tree.climb (tree.realParent t, 1) (h, 1))
    (hhub : tree.IsHub h) : tree.ancestorHub t true = h :=
  congrArg Prod.fst ((Walk.follow_eq_iff climb_falls (Nat.le_refl _)).mpr
    ⟨hreach, climb_hub hhub⟩)

theorem reaches_ancestorHub (t : ι) :
    Reaches tree.climb (tree.realParent t, 1) (tree.ancestorHub t true, 1) := by
  -- every turn leaves the count of the child climbed from
  have hone : ∀ {x y : ι × Nat}, Reaches tree.climb x y → x.2 = 1 → y.2 = 1 := by
    intro x y hxy hx
    induction hxy with
    | refl => exact hx
    | tail _ hstep _ =>
        obtain ⟨-, rfl⟩ := climb_eq_some.mp hstep
        rfl
  have hfalls : Walk.Falls tree.climb _ := climb_falls
  obtain ⟨hreach, -⟩ := (Walk.follow_eq_iff hfalls
    (Nat.le_refl (tree.depth (tree.realParent t))) (a := (tree.realParent t, 1))).mp rfl
  have hend : Walk.follow tree.climb (tree.depth (tree.realParent t)) (tree.realParent t, 1)
      = (tree.ancestorHub t true, 1) := Prod.ext rfl (hone hreach rfl)
  exact hend ▸ hreach

/-- A fork by a childless task climbs like one that gives the child to its
parent. -/
theorem ancestorHub_false {t : ι} (hleaf : tree.children t = [])
    (hne : tree.realParent t ≠ t) : tree.ancestorHub t false = tree.ancestorHub t true := by
  have hstep : tree.climb (t, 0) = some (tree.realParent t, 1) :=
    climb_eq_some.mpr ⟨⟨hne, by rw [hleaf]; exact Nat.min_le_right _ _⟩, rfl⟩
  exact congrArg Prod.fst
    (Walk.follow_eq_of_reaches climb_falls (Nat.le_refl _) (Nat.le_refl _) (.single hstep))

/-- Climbing back up a descent from a hub's child. -/
theorem climb_of_descend {h d t : ι} (hd : d ∈ tree.children h)
    (hreach : Reaches tree.descend d t) :
    tree.realParent t ≠ t ∧ Reaches tree.climb (tree.realParent t, 1) (h, 1) := by
  induction hreach with
  | refl =>
      obtain ⟨hparent, hne⟩ := tree.parent_of_mem h d hd
      rw [hparent]
      exact ⟨hne.symm, .refl⟩
  | @tail x y _ hstep ih =>
      obtain ⟨hparent, hne⟩ := descend_parent hstep
      have hone : min 2 (tree.children x).length ≤ 1 := by
        rw [descend_eq_some.mp hstep]
        exact Nat.min_le_right _ _
      rw [hparent]
      exact ⟨hne.symm, .head (climb_eq_some.mpr ⟨⟨ih.1, hone⟩, rfl⟩) ih.2⟩

/-- Descending along a climb, for tasks that are in their parents' lists. -/
theorem descend_of_climb {a h : ι} (hreach : Reaches tree.climb (a, 1) (h, 1)) :
    (∀ k, tree.Linked (tree.realParent^[k] a)) →
      ∀ c ∈ tree.children a, ∃ d ∈ tree.children h, Reaches tree.descend d c := by
  generalize hx : (a, 1) = x at hreach
  induction hreach using Relation.ReflTransGen.head_induction_on generalizing a with
  | refl =>
      cases hx
      exact fun _ c hc => ⟨c, hc, .refl⟩
  | @head x y hstep _ ih =>
      subst hx
      intro hlinked c hc
      obtain ⟨⟨hne, hfew⟩, rfl⟩ := climb_eq_some.mp hstep
      -- the child climbed from is the only one
      have honly : tree.children a = [c] := by
        match hchildren : tree.children a with
        | [] => rw [hchildren] at hc; cases hc
        | [x] => rw [hchildren] at hc; rw [List.mem_singleton.mp hc]
        | x :: y :: rest =>
            rw [hchildren, List.length_cons, List.length_cons] at hfew
            omega
      have hmem : a ∈ tree.children (tree.realParent a) := (hlinked 0).resolve_left hne
      obtain ⟨d, hd, hdown⟩ := ih rfl (fun k => hlinked (k + 1)) a hmem
      exact ⟨d, hd, hdown.tail (descend_eq_some.mpr honly)⟩

/-- The tasks that the descents from a hub's children come to are different, and the
childless ones among them are those whose forks climb to this hub. -/
theorem hub_descendants {h : ι} (hhub : tree.IsHub h) :
    ((tree.children h).map tree.sampled).Nodup
      ∧ (∀ t ∈ (tree.children h).map tree.sampled, tree.ancestorHub t true = h)
      ∧ ∀ t, tree.children t = [] → tree.realParent t ≠ t →
          (∀ k, tree.Linked (tree.realParent^[k] t)) →
          (t ∈ (tree.children h).map tree.sampled ↔ tree.ancestorHub t false = h) := by
  have hback : ∀ t ∈ (tree.children h).map tree.sampled, tree.ancestorHub t true = h := by
    intro t ht
    obtain ⟨d, hd, hsampled⟩ := List.mem_map.mp ht
    exact ancestorHub_true (climb_of_descend hd (sampled_eq_iff.mp hsampled).1).2 hhub
  refine ⟨?_, hback, ?_⟩
  · refine (List.nodup_map_iff_inj_on (tree.children_nodup h)).mpr fun d₁ h₁ d₂ h₂ heq => ?_
    have hr₁ := (sampled_eq_iff.mp (rfl : tree.sampled d₁ = tree.sampled d₁)).1
    have hr₂ := (sampled_eq_iff.mp heq.symm).1
    exact descend_disjoint h₁ h₂ hr₁ hr₂
  · intro t hleaf hne hlinked
    rw [ancestorHub_false hleaf hne]
    refine ⟨hback t, fun hclimb => ?_⟩
    have hmem : t ∈ tree.children (tree.realParent t) := (hlinked 0).resolve_left hne
    have hreach : Reaches tree.climb _ (tree.ancestorHub t true, 1) := reaches_ancestorHub t
    rw [hclimb] at hreach
    obtain ⟨d, hd, hdown⟩ := descend_of_climb hreach (fun k => hlinked (k + 1)) t hmem
    have hend : tree.descend t = none := by
      rw [descend, hleaf]
      rfl
    exact List.mem_map.mpr ⟨d, hd, sampled_eq_iff.mpr ⟨hdown, hend⟩⟩

end ProcessTree

/-- A shell runs make, which waits for a compiler, and an editor. The spare
task is in no list yet. -/
inductive ShellTask where
  | init
  | shell
  | make
  | compiler
  | editor
  | spare
deriving DecidableEq, Repr

def shellTree : ProcessTree ShellTask where
  realParent
    | .init => .init
    | .shell => .init
    | .make => .shell
    | .compiler => .make
    | .editor => .shell
    | .spare => .spare
  children
    | .init => [.shell]
    | .shell => [.make, .editor]
    | .make => [.compiler]
    | _ => []
  groupLeader := id
  threads t := [t]
  depth
    | .init => 0
    | .shell => 1
    | .make => 2
    | .compiler => 3
    | .editor => 2
    | .spare => 0
  height := 3
  depth_lt t := by cases t <;> decide
  depth_le t := by cases t <;> decide
  parent_of_mem p c := by cases p <;> cases c <;> decide
  children_nodup p := by cases p <;> decide

example : (shellTree.children .shell).map shellTree.sampled = [.compiler, .editor] := by decide

end Rustlux.BoreC
