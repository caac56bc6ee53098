import Rustlux.Prim
import Rustlux.Typestate

/-!
# The slab canaries

A word behind every slab object that says, encrypted under a secret of the
cache and the address, where the object is: on a freelist of the slab, in a
sheaf of a cpu, or handed out. Each way of an object through the allocator
checks the canary for the place it comes from and sets it for the place it
goes to; a wrong canary is a `BUG`.

A function here does with the canary words what the source does at its call
sites, on whatever objects the rest of the allocator, or a caller who frees
what is not theirs, hands it. `Op.acts` says what the operation means
for the places of objects, and `canaries_follow` that the two agree: as long
as the secrets differ under the mask, an operation runs into a `BUG` exactly
when an object is not where the operation takes it from. So no object is freed
twice or handed out twice (`frees_alternate`), and an object whose canary is
overwritten does not come back into use (`overwritten_stays`).
-/

open Typestate (Act Tags moves)

namespace Rustlux.Slub

/-- The words at the canary addresses. -/
abbrev Canaries := U64 → U64

/-- What the canaries use of the rest of the kernel. -/
structure Kernel where
  /-- `CANARY_MASK`. -/
  canaryMask : U64
  isKfenceAddress : U64 → Bool

/-- The fields of `struct kmem_cache` that the canaries use, and
`cache_has_sheaves`. -/
structure KmemCache where
  /-- `get_info_end`, an offset from the object. -/
  infoEnd : U64
  randomActive : U64
  randomInactive : U64
  sheafRandomInactive : U64
  hasSheaves : Bool

section Code

variable (k : Kernel) (s : KmemCache)

/-! ## Canaries -/

def getCanary (object : U64) : U64 := object + s.infoEnd

def getCanaryValue (canary value : U64) : U64 := (value ^^^ canary) &&& k.canaryMask

def setCanary (object value : U64) (mem : Canaries) : Canaries :=
  Function.update mem (getCanary s object) (getCanaryValue k (getCanary s object) value)

/-- `none` is the `BUG_ON`. -/
def checkCanary (object value : U64) (mem : Canaries) : Option Canaries :=
  if mem (getCanary s object) ≠ getCanaryValue k (getCanary s object) value then none
  else some mem

def checkSetCanary (object checkValue setValue : U64) (mem : Canaries) : Option Canaries :=
  if object ≠ 0 ∧ k.isKfenceAddress object = false then
    (checkCanary k s object checkValue mem).map (setCanary k s object setValue)
  else some mem

def checkSetCanaryBulk (objects : List U64) (checkValue setValue : U64) (mem : Canaries) :
    Option Canaries :=
  objects.foldlM (fun mem object => checkSetCanary k s object checkValue setValue mem) mem

/-! ## Allocation -/

def setupObject (object : U64) (mem : Canaries) : Option Canaries :=
  some (setCanary k s object s.randomInactive mem)

def earlyKmemCacheNodeAlloc (n : U64) (mem : Canaries) : Option Canaries :=
  some (setCanary k s n s.randomActive mem)

/-- `alloc_from_pcs` and `kmem_cache_alloc_from_sheaf_noprof`, from the object on
that they take out of the sheaf. -/
def allocFromPcs (object : U64) (mem : Canaries) : Option Canaries :=
  checkSetCanary k s object s.sheafRandomInactive s.randomActive mem

/-- `slab_alloc_node` and `kmalloc_nolock_noprof`. What the sheaf does not give
(`fromPcs` is 0), the slab does. -/
def slabAllocNode (fromPcs fromSlab : U64) (mem : Canaries) : Option Canaries :=
  (allocFromPcs k s fromPcs mem).bind fun mem =>
    if fromPcs = 0 then checkSetCanary k s fromSlab s.randomInactive s.randomActive mem
    else some mem

/-- `alloc_from_pcs_bulk`, which takes one batch out of each main sheaf. -/
def allocFromPcsBulk (batches : List (List U64)) (mem : Canaries) : Option Canaries :=
  batches.foldlM (fun mem batch =>
    checkSetCanaryBulk k s batch s.sheafRandomInactive s.randomActive mem) mem

/-- `__kmem_cache_alloc_bulk`, when it finds all the objects. -/
def kmemCacheAllocBulkSlow (objects : List U64) (mem : Canaries) : Option Canaries :=
  checkSetCanaryBulk k s objects s.randomInactive s.randomActive mem

/-- `kmem_cache_alloc_bulk_noprof`. If the slab does not have the rest, what the
sheaves gave goes to the slab. -/
def kmemCacheAllocBulk (batches : List (List U64)) (fromSlab : Option (List U64))
    (mem : Canaries) : Option Canaries :=
  (allocFromPcsBulk k s batches mem).bind fun mem =>
    match fromSlab with
    | some objects => kmemCacheAllocBulkSlow k s objects mem
    | none => checkSetCanaryBulk k s batches.flatten s.randomActive s.randomInactive mem

/-! ## Sheaves -/

/-- `refill_sheaf`, with what `refill_objects` has filled in. -/
def refillSheaf (filled : List U64) (mem : Canaries) : Option Canaries :=
  checkSetCanaryBulk k s filled s.randomInactive s.sheafRandomInactive mem

/-- `kmem_cache_prefill_sheaf` and `kmem_cache_refill_sheaf`, for a sheaf that the
barn does not have. -/
def kmemCachePrefillSheaf (objects : List U64) (mem : Canaries) : Option Canaries :=
  (kmemCacheAllocBulkSlow k s objects mem).bind
    (checkSetCanaryBulk k s objects s.randomActive s.sheafRandomInactive)

/-- `sheaf_flush_unused`, and with `canary` a batch of `__sheaf_flush_main_batch`. -/
def sheafFlushUnused (objects : List U64) (canary : Bool) (mem : Canaries) : Option Canaries :=
  if objects.isEmpty then some mem
  else if canary then
    checkSetCanaryBulk k s objects s.sheafRandomInactive s.randomInactive mem
  else some mem

/-! ## Frees -/

/-- `slab_free_hook`, where it does not hand the object to KASAN or KFENCE. -/
def slabFreeHook (x : U64) (canary : Bool) (mem : Canaries) : Option Canaries :=
  if canary then
    (checkCanary k s x s.randomActive mem).map (setCanary k s x s.randomInactive)
  else some mem

/-- `rcu_free_sheaf` and `rcu_free_sheaf_nobarn`. The hooks of the objects have no
canary to check; `flush` says that no barn takes the sheaf. -/
def rcuFreeSheaf (objects : List U64) (flush : Bool) (mem : Canaries) : Option Canaries :=
  (objects.foldlM (fun mem object => slabFreeHook k s object false mem) mem).bind fun mem =>
    if flush then sheafFlushUnused k s objects true mem else some mem

/-- `free_to_pcs` and `__kfree_rcu_sheaf`, once there is room in the sheaf. -/
def freeToPcs (object : U64) (mem : Canaries) : Option Canaries :=
  checkSetCanary k s object s.randomActive s.sheafRandomInactive mem

/-- `slab_free`. `toPcs` says that a sheaf takes the object. -/
def slabFree (object : U64) (toPcs : Bool) (mem : Canaries) : Option Canaries :=
  let canary := !(k.isKfenceAddress object || s.hasSheaves)
  (slabFreeHook k s object canary mem).bind fun mem =>
    if toPcs then freeToPcs k s object mem
    else if !canary then checkSetCanary k s object s.randomActive s.randomInactive mem
    else some mem

/-- `slab_free_freelist_hook`, on the objects of a detached freelist. -/
def slabFreeFreelistHook (objects : List U64) (mem : Canaries) : Option Canaries :=
  match objects with
  | [] => some mem
  | next :: _ =>
      if k.isKfenceAddress next then slabFreeHook k s next false mem
      else objects.foldlM (fun mem object => slabFreeHook k s object true mem) mem

def memcgAllocAbortSingle (object : U64) (mem : Canaries) : Option Canaries :=
  slabFreeHook k s object (!k.isKfenceAddress object) mem

/-- The local objects of `free_to_pcs_bulk`: a round for each sheaf with room,
and the fallback once there is none. -/
def freeToPcsBulkLocal : List Nat → List U64 → Canaries → Option Canaries
  | [], p, mem => checkSetCanaryBulk k s p s.randomActive s.randomInactive mem
  | room :: rooms, p, mem =>
      let batch := min p.length room
      (checkSetCanaryBulk k s (p.take batch) s.randomActive s.sheafRandomInactive mem).bind
        fun mem => if batch < p.length then freeToPcsBulkLocal rooms (p.drop batch) mem else some mem

/-- The objects of other nodes, a batch at a time. -/
def freeToPcsBulkRemote (batches : List (List U64)) (mem : Canaries) : Option Canaries :=
  batches.foldlM (fun mem batch =>
    checkSetCanaryBulk k s batch s.randomActive s.randomInactive mem) mem

/-- `free_to_pcs_bulk`, which flushes full batches of remote objects while it
looks for local ones, and the last one after these. -/
def freeToPcsBulk (remote : List (List U64)) (rooms : List Nat) (p : List U64)
    (lastRemote : List U64) (mem : Canaries) : Option Canaries :=
  (freeToPcsBulkRemote k s remote mem).bind fun mem =>
    (freeToPcsBulkLocal k s rooms p mem).bind
      (checkSetCanaryBulk k s lastRemote s.randomActive s.randomInactive)

/-- `free_deferred_objects`. -/
def freeDeferredObjects (objects : List U64) (mem : Canaries) : Option Canaries :=
  objects.foldlM (fun mem x => checkSetCanary k s x s.randomActive s.randomInactive mem) mem

/-- `__check_heap_object`, on the object that the pointer points into. -/
def checkHeapObject (object : U64) (mem : Canaries) : Option Canaries :=
  if k.isKfenceAddress object = false then checkCanary k s object s.randomActive mem
  else some mem

end Code

/-! ## Places -/

inductive Place where
  | slab
  | sheaf
  | active
deriving DecidableEq, Repr

def KmemCache.secret (s : KmemCache) : Place → U64
  | .slab => s.randomInactive
  | .sheaf => s.sheafRandomInactive
  | .active => s.randomActive

/-- The secrets differ in the bits that the mask keeps. -/
def KmemCache.Apart (k : Kernel) (s : KmemCache) : Prop :=
  ∀ p q, s.secret p &&& k.canaryMask = s.secret q &&& k.canaryMask → p = q

theorem KmemCache.Apart.value_inj {k : Kernel} {s : KmemCache} (h : s.Apart k) {canary : U64}
    {p q : Place} :
    getCanaryValue k canary (s.secret p) = getCanaryValue k canary (s.secret q) ↔ p = q := by
  rw [getCanaryValue, getCanaryValue, xor_and_distrib, xor_and_distrib, BitVec.xor_left_inj]
  exact ⟨h p q, fun hpq => by rw [hpq]⟩

/-- The place whose canary the word is. -/
def KmemCache.placeOf (k : Kernel) (s : KmemCache) (object word : U64) : Option Place :=
  [Place.slab, .sheaf, .active].find? fun p =>
    word = getCanaryValue k (getCanary s object) (s.secret p)

/-- The canaries as tags of the places. -/
def KmemCache.Apart.tags {k : Kernel} {s : KmemCache} (h : s.Apart k) :
    Tags U64 Place U64 U64 where
  slot := getCanary s
  tag object p := getCanaryValue k (getCanary s object) (s.secret p)
  read := s.placeOf k
  slot_injective _ _ hab := (BitVec.add_left_inj _).mp hab
  read_eq_some {object word p} := by
    constructor
    · intro hfind
      simpa using List.find?_some hfind
    · rintro rfl
      cases p <;> simp [KmemCache.placeOf, h.value_inj]

/-! ## What the operations mean -/

/-- The objects that have a canary. -/
def tracked (k : Kernel) (objects : List U64) : List U64 :=
  objects.filter fun object => object ≠ 0 ∧ k.isKfenceAddress object = false

theorem moves_tracked (k : Kernel) (p q : Place) (objects : List U64) :
    (objects.flatMap fun object => moves (tracked k [object]) p q)
      = moves (tracked k objects) p q := by
  induction objects with
  | nil => rfl
  | cons object objects ih =>
      rw [List.flatMap_cons, ih, ← Typestate.moves_append, tracked, tracked, tracked,
        ← List.filter_append, List.singleton_append]

theorem moves_tracked_flatten (k : Kernel) (p q : Place) (batches : List (List U64)) :
    (batches.flatMap fun batch => moves (tracked k batch) p q)
      = moves (tracked k batches.flatten) p q := by
  rw [← moves_tracked, List.flatten_eq_flatMap, List.flatMap_assoc]
  simp only [moves_tracked, id]

section Follows

variable {k : Kernel} {s : KmemCache} (h : s.Apart k)

theorem check_follows (object : U64) (p : Place) :
    h.tags.Follows (checkCanary k s object (s.secret p)) [.check object p] := by
  refine (Tags.Follows.check h.tags object p).of_eq fun mem => ?_
  rw [checkCanary, ite_not]
  rfl

theorem put_follows (object : U64) (p : Place) :
    h.tags.Follows (fun mem => some (setCanary k s object (s.secret p) mem)) [.put object p] :=
  Tags.Follows.put h.tags object p

theorem hook_follows (object : U64) (p q : Place) :
    h.tags.Follows
      (fun mem => (checkCanary k s object (s.secret p) mem).map
        (setCanary k s object (s.secret q)))
      [.move object p q] := by
  refine (Tags.Follows.move h.tags object p q).of_eq fun mem => ?_
  rw [checkCanary, ite_not, apply_ite (Option.map _)]
  rfl

theorem checkSet_follows (object : U64) (p q : Place) :
    h.tags.Follows (checkSetCanary k s object (s.secret p) (s.secret q))
      (moves (tracked k [object]) p q) := by
  by_cases ht : object ≠ 0 ∧ k.isKfenceAddress object = false
  · have hacts : moves (tracked k [object]) p q = [.move object p q] := by
      rw [tracked, List.filter_singleton, decide_eq_true ht]
      rfl
    rw [hacts]
    refine (hook_follows h object p q).of_eq fun mem => ?_
    rw [checkSetCanary, if_pos ht]
  · have hacts : moves (tracked k [object]) p q = [] := by
      rw [tracked, List.filter_singleton, decide_eq_false ht]
      rfl
    rw [hacts]
    refine Tags.Follows.nil.of_eq fun mem => ?_
    rw [checkSetCanary, if_neg ht]

theorem bulk_follows (objects : List U64) (p q : Place) :
    h.tags.Follows (checkSetCanaryBulk k s objects (s.secret p) (s.secret q))
      (moves (tracked k objects) p q) := by
  rw [← moves_tracked]
  exact Tags.Follows.foldlM (fun object => checkSet_follows h object p q) objects

theorem batches_follow (batches : List (List U64)) (p q : Place) :
    h.tags.Follows
      (fun mem => batches.foldlM
        (fun mem batch => checkSetCanaryBulk k s batch (s.secret p) (s.secret q) mem) mem)
      (moves (tracked k batches.flatten) p q) := by
  rw [← moves_tracked_flatten]
  exact Tags.Follows.foldlM (fun batch => bulk_follows h batch p q) batches

/-- Rounds fill the room there is; what is left goes to the slab. -/
theorem local_follows (rooms : List Nat) (p : List U64) :
    h.tags.Follows (freeToPcsBulkLocal k s rooms p)
      (moves (tracked k (p.take rooms.sum)) .active .sheaf
        ++ moves (tracked k (p.drop rooms.sum)) .active .slab) := by
  induction rooms generalizing p with
  | nil => exact bulk_follows h p .active .slab
  | cons room rooms ih =>
      have hround := bulk_follows h (p.take (min p.length room)) .active .sheaf
      by_cases hmore : min p.length room < p.length
      · have hmin : min p.length room = room := by omega
        have htake : p.take (room :: rooms).sum
            = p.take room ++ (p.drop room).take rooms.sum := by
          rw [List.sum_cons, List.take_add]
        have hdrop : p.drop (room :: rooms).sum = (p.drop room).drop rooms.sum := by
          rw [List.sum_cons, List.drop_drop]
        rw [hmin] at hround
        rw [htake, hdrop, tracked, List.filter_append, Typestate.moves_append, List.append_assoc]
        refine (hround.append (ih (p.drop room))).of_eq fun mem => ?_
        simp only [freeToPcsBulkLocal, if_pos hmore]
        rw [hmin]
        rfl
      · have hmin : min p.length room = p.length := by omega
        have hroom : p.length ≤ (room :: rooms).sum := by
          rw [List.sum_cons]
          omega
        rw [hmin, List.take_length] at hround
        rw [List.take_of_length_le hroom, List.drop_of_length_le hroom]
        refine (hround.append Tags.Follows.nil).of_eq fun mem => ?_
        simp only [freeToPcsBulkLocal, if_neg hmore]
        rw [hmin, List.take_length]
        rfl

/-- A cache with sheaves checks the canary where the object goes, one without
in the hook. -/
theorem slabFree_follows {object : U64} {toPcs : Bool} (hobject : object ≠ 0)
    (hpcs : toPcs = true → s.hasSheaves = true) :
    h.tags.Follows (slabFree k s object toPcs)
      (moves (tracked k [object]) .active (if toPcs then .sheaf else .slab)) := by
  by_cases hdefer : (k.isKfenceAddress object || s.hasSheaves) = true
  · have hcanary : (!(k.isKfenceAddress object || s.hasSheaves)) = false := by rw [hdefer]; rfl
    cases toPcs with
    | true =>
        refine (checkSet_follows h object .active .sheaf).of_eq fun mem => ?_
        rw [slabFree, hcanary]
        rfl
    | false =>
        refine (checkSet_follows h object .active .slab).of_eq fun mem => ?_
        rw [slabFree, hcanary]
        rfl
  · obtain ⟨hkfence, hsheaves⟩ := Bool.or_eq_false_iff.mp (Bool.eq_false_iff.mpr hdefer)
    have hslow : toPcs = false :=
      Bool.eq_false_iff.mpr fun htrue => Bool.eq_false_iff.mp hsheaves (hpcs htrue)
    have hcanary : (!(k.isKfenceAddress object || s.hasSheaves)) = true := by
      rw [Bool.eq_false_iff.mpr hdefer]; rfl
    have hacts : moves (tracked k [object]) Place.active Place.slab
        = [.move object .active .slab] := by
      rw [tracked, List.filter_singleton, decide_eq_true ⟨hobject, hkfence⟩]
      rfl
    rw [hslow]
    refine Eq.mpr (congrArg _ hacts) ((hook_follows h object .active .slab).of_eq fun mem => ?_)
    rw [slabFree, hcanary]
    exact Option.bind_fun_some _

/-- Hooks without a canary to check leave the canaries alone. -/
theorem hooks_idle (objects : List U64) (mem : Canaries) :
    objects.foldlM (fun mem object => slabFreeHook k s object false mem) mem = some mem := by
  induction objects with
  | nil => rfl
  | cons object objects ih => exact ih

end Follows

/-! ## Operations -/

/-- The ways of objects through the allocator. -/
inductive Op where
  | setupObject (object : U64)
  | earlyKmemCacheNodeAlloc (n : U64)
  | slabAllocNode (fromPcs fromSlab : U64)
  | kmemCacheAllocFromSheaf (object : U64)
  | kmemCacheAllocBulk (batches : List (List U64)) (fromSlab : Option (List U64))
  | refillSheaf (filled : List U64)
  | kmemCachePrefillSheaf (objects : List U64)
  | sheafFlushUnused (objects : List U64)
  | rcuFreeSheaf (objects : List U64) (flush : Bool)
  | slabFree (object : U64) (toPcs : Bool)
  | kfreeRcuSheaf (obj : U64)
  | slabFreeFreelistHook (next : U64) (objects : List U64)
  | memcgAllocAbortSingle (object : U64)
  | freeToPcsBulk (remote : List (List U64)) (rooms : List Nat) (p lastRemote : List U64)
  | freeDeferredObjects (objects : List U64)
  | checkHeapObject (object : U64)

def Op.exec (k : Kernel) (s : KmemCache) : Op → Canaries → Option Canaries
  | .setupObject object => Slub.setupObject k s object
  | .earlyKmemCacheNodeAlloc n => Slub.earlyKmemCacheNodeAlloc k s n
  | .slabAllocNode fromPcs fromSlab => Slub.slabAllocNode k s fromPcs fromSlab
  | .kmemCacheAllocFromSheaf object => allocFromPcs k s object
  | .kmemCacheAllocBulk batches fromSlab => Slub.kmemCacheAllocBulk k s batches fromSlab
  | .refillSheaf filled => Slub.refillSheaf k s filled
  | .kmemCachePrefillSheaf objects => Slub.kmemCachePrefillSheaf k s objects
  | .sheafFlushUnused objects => Slub.sheafFlushUnused k s objects true
  | .rcuFreeSheaf objects flush => Slub.rcuFreeSheaf k s objects flush
  | .slabFree object toPcs => Slub.slabFree k s object toPcs
  | .kfreeRcuSheaf obj => freeToPcs k s obj
  | .slabFreeFreelistHook next objects => Slub.slabFreeFreelistHook k s (next :: objects)
  | .memcgAllocAbortSingle object => Slub.memcgAllocAbortSingle k s object
  | .freeToPcsBulk remote rooms p lastRemote => Slub.freeToPcsBulk k s remote rooms p lastRemote
  | .freeDeferredObjects objects => Slub.freeDeferredObjects k s objects
  | .checkHeapObject object => Slub.checkHeapObject k s object

/-- What the operation is for. -/
def Op.acts (k : Kernel) : Op → List (Act U64 Place)
  | .setupObject object => [.put object .slab]
  | .earlyKmemCacheNodeAlloc n => [.put n .active]
  | .slabAllocNode fromPcs fromSlab =>
      if fromPcs = 0 then moves (tracked k [fromSlab]) .slab .active
      else moves (tracked k [fromPcs]) .sheaf .active
  | .kmemCacheAllocFromSheaf object => moves (tracked k [object]) .sheaf .active
  | .kmemCacheAllocBulk batches (some objects) =>
      moves (tracked k batches.flatten) .sheaf .active ++ moves (tracked k objects) .slab .active
  | .kmemCacheAllocBulk batches none => moves (tracked k batches.flatten) .sheaf .slab
  | .refillSheaf filled => moves (tracked k filled) .slab .sheaf
  | .kmemCachePrefillSheaf objects => moves (tracked k objects) .slab .sheaf
  | .sheafFlushUnused objects => moves (tracked k objects) .sheaf .slab
  | .rcuFreeSheaf objects flush => if flush then moves (tracked k objects) .sheaf .slab else []
  | .slabFree object toPcs => moves (tracked k [object]) .active (if toPcs then .sheaf else .slab)
  | .kfreeRcuSheaf obj => moves (tracked k [obj]) .active .sheaf
  | .slabFreeFreelistHook next objects =>
      if k.isKfenceAddress next then [] else moves (next :: objects) .active .slab
  | .memcgAllocAbortSingle object =>
      if k.isKfenceAddress object then [] else [.move object .active .slab]
  | .freeToPcsBulk remote rooms p lastRemote =>
      moves (tracked k remote.flatten) .active .slab
        ++ (moves (tracked k (p.take rooms.sum)) .active .sheaf
          ++ moves (tracked k (p.drop rooms.sum)) .active .slab)
        ++ moves (tracked k lastRemote) .active .slab
  | .freeDeferredObjects objects => moves (tracked k objects) .active .slab
  | .checkHeapObject object => if k.isKfenceAddress object then [] else [.check object .active]

/-- `slab_free` is not called for the null pointer, and a cache without sheaves
has none that takes the object. -/
def Op.Possible (s : KmemCache) : Op → Prop
  | .slabFree object toPcs => object ≠ 0 ∧ (toPcs = true → s.hasSheaves = true)
  | _ => True

theorem op_follows {k : Kernel} {s : KmemCache} (h : s.Apart k) {op : Op}
    (hpossible : op.Possible s) : h.tags.Follows (op.exec k s) (op.acts k) := by
  cases op with
  | setupObject object => exact put_follows h object .slab
  | earlyKmemCacheNodeAlloc n => exact put_follows h n .active
  | slabAllocNode fromPcs fromSlab =>
      rw [Op.acts]
      by_cases hnull : fromPcs = 0
      · rw [if_pos hnull, hnull]
        exact checkSet_follows h fromSlab .slab .active
      · rw [if_neg hnull]
        refine (checkSet_follows h fromPcs .sheaf .active).of_eq fun mem => ?_
        simp only [Op.exec, slabAllocNode, if_neg hnull]
        exact Option.bind_fun_some _
  | kmemCacheAllocFromSheaf object => exact checkSet_follows h object .sheaf .active
  | kmemCacheAllocBulk batches fromSlab =>
      have hpcs := batches_follow h batches .sheaf .active
      cases fromSlab with
      | some objects => exact hpcs.append (bulk_follows h objects .slab .active)
      | none =>
          -- what the sheaves gave is handed out and taken back
          refine (hpcs.append (bulk_follows h batches.flatten .active .slab)).congr ?_
          exact Typestate.run_moves_moves (by decide) (by decide) (by decide) _
  | refillSheaf filled => exact bulk_follows h filled .slab .sheaf
  | kmemCachePrefillSheaf objects =>
      refine ((bulk_follows h objects .slab .active).append
        (bulk_follows h objects .active .sheaf)).congr ?_
      exact Typestate.run_moves_moves (by decide) (by decide) (by decide) _
  | sheafFlushUnused objects =>
      refine (bulk_follows h objects .sheaf .slab).of_eq fun mem => ?_
      cases objects <;> rfl
  | rcuFreeSheaf objects flush =>
      cases flush with
      | true =>
          refine (bulk_follows h objects .sheaf .slab).of_eq fun mem => ?_
          rw [Op.exec, rcuFreeSheaf, hooks_idle]
          cases objects <;> rfl
      | false =>
          refine Tags.Follows.nil.of_eq fun mem => ?_
          rw [Op.exec, rcuFreeSheaf, hooks_idle]
          rfl
  | slabFree object toPcs => exact slabFree_follows h hpossible.1 hpossible.2
  | kfreeRcuSheaf obj => exact checkSet_follows h obj .active .sheaf
  | slabFreeFreelistHook next objects =>
      rw [Op.acts]
      split
      · next hkfence =>
          refine Tags.Follows.nil.of_eq fun mem => ?_
          rw [Op.exec, slabFreeFreelistHook, if_pos hkfence]
          rfl
      · next hkfence =>
          rw [moves, List.map_eq_flatMap]
          refine (Tags.Follows.foldlM (fun object => hook_follows h object .active .slab)
            (next :: objects)).of_eq fun mem => ?_
          rw [Op.exec, slabFreeFreelistHook, if_neg hkfence]
          rfl
  | memcgAllocAbortSingle object =>
      rw [Op.acts]
      split
      · next hkfence =>
          refine Tags.Follows.nil.of_eq fun mem => ?_
          rw [Op.exec, memcgAllocAbortSingle, hkfence]
          rfl
      · next hkfence =>
          refine (hook_follows h object .active .slab).of_eq fun mem => ?_
          rw [Op.exec, memcgAllocAbortSingle, Bool.eq_false_iff.mpr hkfence]
          rfl
  | freeToPcsBulk remote rooms p lastRemote =>
      rw [Op.acts, List.append_assoc]
      exact (batches_follow h remote .active .slab).append
        ((local_follows h rooms p).append (bulk_follows h lastRemote .active .slab))
  | freeDeferredObjects objects => exact bulk_follows h objects .active .slab
  | checkHeapObject object =>
      rw [Op.acts]
      split
      · next hkfence =>
          refine Tags.Follows.nil.of_eq fun mem => ?_
          rw [Op.exec, checkHeapObject, hkfence]
          rfl
      · next hkfence =>
          refine (check_follows h object .active).of_eq fun mem => ?_
          rw [Op.exec, checkHeapObject, if_pos (Bool.eq_false_iff.mpr hkfence)]
          rfl

/-- What an operation does with the objects it is about is one of five things. -/
theorem acts_cases (k : Kernel) (op : Op) :
    (∀ act ∈ op.acts k, act.MovesBetween (· = .active) (· ≠ .active))
      ∨ (∀ act ∈ op.acts k, act.MovesBetween (· ≠ .active) (· = .active))
      ∨ (∃ p q, p ≠ q ∧ p ≠ .active ∧ q ≠ .active
          ∧ ∀ act ∈ op.acts k, act.MovesBetween (· = p) (· = q))
      ∨ (∃ object p, op.acts k = [.put object p])
      ∨ ∃ object, op.acts k = [.check object .active] := by
  have hout : ∀ p : Place, p ≠ .active → ∀ objects : List U64,
      ∀ act ∈ moves objects p .active, act.MovesBetween (· ≠ .active) (· = .active) :=
    fun p hp => Typestate.moves_between (P := (· ≠ Place.active)) (Q := (· = Place.active)) hp rfl
  have hback : ∀ q : Place, q ≠ .active → ∀ objects : List U64,
      ∀ act ∈ moves objects .active q, act.MovesBetween (· = .active) (· ≠ .active) :=
    fun q hq => Typestate.moves_between (P := (· = Place.active)) (Q := (· ≠ Place.active)) rfl hq
  have hinner : ∀ p q : Place, p ≠ q → p ≠ .active → q ≠ .active → ∀ objects : List U64,
      ∃ p' q', p' ≠ q' ∧ p' ≠ .active ∧ q' ≠ .active
        ∧ ∀ act ∈ moves objects p q, act.MovesBetween (· = p') (· = q') :=
    fun p q hpq hp hq objects => ⟨p, q, hpq, hp, hq,
      Typestate.moves_between (P := (· = p)) (Q := (· = q)) rfl rfl objects⟩
  have hnone : ∀ {P : Act U64 Place → Prop}, ∀ act ∈ ([] : List (Act U64 Place)), P act :=
    fun act hact => absurd hact List.not_mem_nil
  cases op with
  | setupObject object => exact .inr (.inr (.inr (.inl ⟨object, .slab, rfl⟩)))
  | earlyKmemCacheNodeAlloc n => exact .inr (.inr (.inr (.inl ⟨n, .active, rfl⟩)))
  | slabAllocNode fromPcs fromSlab =>
      refine .inr (.inl ?_)
      rw [Op.acts]
      split
      · exact hout .slab (by decide) _
      · exact hout .sheaf (by decide) _
  | kmemCacheAllocFromSheaf object => exact .inr (.inl (hout .sheaf (by decide) _))
  | kmemCacheAllocBulk batches fromSlab =>
      cases fromSlab with
      | some objects =>
          refine .inr (.inl (List.forall_mem_append.mpr ⟨?_, ?_⟩))
          · exact hout .sheaf (by decide) _
          · exact hout .slab (by decide) _
      | none =>
          exact .inr (.inr (.inl (hinner .sheaf .slab (by decide) (by decide) (by decide) _)))
  | refillSheaf filled =>
      exact .inr (.inr (.inl (hinner .slab .sheaf (by decide) (by decide) (by decide) _)))
  | kmemCachePrefillSheaf objects =>
      exact .inr (.inr (.inl (hinner .slab .sheaf (by decide) (by decide) (by decide) _)))
  | sheafFlushUnused objects =>
      exact .inr (.inr (.inl (hinner .sheaf .slab (by decide) (by decide) (by decide) _)))
  | rcuFreeSheaf objects flush =>
      cases flush with
      | true =>
          exact .inr (.inr (.inl (hinner .sheaf .slab (by decide) (by decide) (by decide) _)))
      | false => exact .inl hnone
  | slabFree object toPcs =>
      refine .inl (hback _ ?_ _)
      cases toPcs <;> decide
  | kfreeRcuSheaf obj => exact .inl (hback .sheaf (by decide) _)
  | slabFreeFreelistHook next objects =>
      refine .inl ?_
      rw [Op.acts]
      split
      · exact hnone
      · exact hback .slab (by decide) _
  | memcgAllocAbortSingle object =>
      refine .inl ?_
      rw [Op.acts]
      split
      · exact hnone
      · exact hback .slab (by decide) [object]
  | freeToPcsBulk remote rooms p lastRemote =>
      refine .inl (List.forall_mem_append.mpr ⟨List.forall_mem_append.mpr ⟨?_,
        List.forall_mem_append.mpr ⟨?_, ?_⟩⟩, ?_⟩)
      · exact hback .slab (by decide) _
      · exact hback .sheaf (by decide) _
      · exact hback .slab (by decide) _
      · exact hback .slab (by decide) _
  | freeDeferredObjects objects => exact .inl (hback .slab (by decide) _)
  | checkHeapObject object =>
      rw [Op.acts]
      split
      · exact .inl hnone
      · exact .inr (.inr (.inr (.inr ⟨object, rfl⟩)))

/-! ## Runs -/

/-- An operation, or a stray write to the canary of an object. -/
inductive Event where
  | call (op : Op)
  | overwrite (object word : U64)

namespace Event

def Possible (s : KmemCache) : Event → Prop
  | .call op => op.Possible s
  | .overwrite _ _ => True

/-- The object is allocated. -/
def HandsOut (k : Kernel) (object : U64) : Event → Prop
  | .call op => ∃ p, p ≠ .active ∧ .move object p .active ∈ op.acts k
  | .overwrite _ _ => False

/-- The object is freed. -/
def TakesBack (k : Kernel) (object : U64) : Event → Prop
  | .call op => ∃ p, p ≠ .active ∧ .move object .active p ∈ op.acts k
  | .overwrite _ _ => False

/-- The canary is written without a check: the object is set up, or overflowed
into. -/
def Forces (k : Kernel) (object : U64) : Event → Prop
  | .call op => ∃ p, .put object p ∈ op.acts k
  | .overwrite object' _ => object' = object

/-- The event is about the object. -/
def Touches (k : Kernel) (object : U64) : Event → Prop
  | .call op => ∃ act ∈ op.acts k, act.On object
  | .overwrite object' _ => object' = object

end Event

namespace KmemCache

/-- One event, on the canaries. -/
def step (k : Kernel) (s : KmemCache) (mem : Canaries) : Event → Option Canaries
  | .call op => op.exec k s mem
  | .overwrite object word => some (Function.update mem (getCanary s object) word)

/-- One event, on the places of the objects. -/
def meaning (k : Kernel) (s : KmemCache) (places : U64 → Option Place) :
    Event → Option (U64 → Option Place)
  | .call op => Lts.run Act.step places (op.acts k)
  | .overwrite object word => some (Function.update places object (s.placeOf k object word))

/-- The places that the canaries tell. -/
def places (k : Kernel) (s : KmemCache) (mem : Canaries) : U64 → Option Place :=
  fun object => s.placeOf k object (mem (getCanary s object))

variable {k : Kernel} {s : KmemCache}

theorem step_places (h : s.Apart k) {event : Event} (hpossible : event.Possible s)
    (mem : Canaries) :
    (s.step k mem event).map (s.places k) = s.meaning k (s.places k mem) event := by
  cases event with
  | call op => exact op_follows h hpossible mem
  | overwrite object word =>
      exact congrArg some (h.tags.places_update mem object word)

theorem run_places (h : s.Apart k) {events : List Event}
    (hpossible : ∀ event ∈ events, event.Possible s) (mem : Canaries) :
    (Lts.run (s.step k) mem events).map (s.places k)
      = Lts.run (s.meaning k) (s.places k mem) events :=
  Lts.run_map (s.places k) (fun event hevent => step_places h (hpossible event hevent)) mem

/-- A mask that clears the lowest byte. -/
def kernel64 : Kernel := { canaryMask := 0xffffffffffffff00, isKfenceAddress := fun _ => false }

def dentryCache : KmemCache :=
  { infoEnd := 192, randomActive := 0x9d3b5c7714a2e600, randomInactive := 0x51fe08c3d96b7a21
    sheafRandomInactive := 0xe6427f90ab05c38d, hasSheaves := true }

theorem dentryCache_apart : dentryCache.Apart kernel64 := by
  intro p q
  cases p <;> cases q <;> decide

/-- **The canaries keep the books**: a run of the allocator comes through without
a `BUG` exactly when every object is, each time, where it is taken from, and
the canaries then tell where each object has got to. -/
theorem canaries_follow (h : s.Apart k) {events : List Event}
    (hpossible : ∀ event ∈ events, event.Possible s) (mem : Canaries) :
    ((∃ mem', Lts.run (s.step k) mem events = some mem')
        ↔ ∃ places, Lts.run (s.meaning k) (s.places k mem) events = some places)
      ∧ ∀ mem', Lts.run (s.step k) mem events = some mem' →
          Lts.run (s.meaning k) (s.places k mem) events = some (s.places k mem') := by
  rw [← run_places h hpossible mem]
  cases Lts.run (s.step k) mem events with
  | none => exact ⟨Iff.rfl.trans ⟨nofun, nofun⟩, nofun⟩
  | some mem' =>
      exact ⟨⟨fun _ => ⟨_, rfl⟩, fun _ => ⟨mem', rfl⟩⟩, fun mem'' hmem => by rw [hmem]; rfl⟩

/-- An object is set up, allocated, freed into a sheaf, and flushed from it. -/
theorem canaries_follow_dentry :
    ∃ mem', Lts.run (dentryCache.step kernel64) (fun _ => 0)
        [.call (.setupObject 0x1000), .call (.slabAllocNode 0 0x1000),
          .call (.slabFree 0x1000 true), .call (.sheafFlushUnused [0x1000])] = some mem' := by
  refine (canaries_follow dentryCache_apart ?_ _).1.mpr ⟨_, rfl⟩
  simp [Event.Possible, Op.Possible, dentryCache]

/-- What an event that comes through does to an object. -/
theorem step_object {places places' : U64 → Option Place} {event : Event}
    (hstep : s.meaning k places event = some places') (object : U64) :
    ((event.TakesBack k object ∧ ¬event.HandsOut k object) ∧ places object = some .active
        ∧ ∃ p, p ≠ .active ∧ places' object = some p)
      ∨ ((event.HandsOut k object ∧ ¬event.TakesBack k object)
        ∧ (∃ p, p ≠ .active ∧ places object = some p) ∧ places' object = some .active)
      ∨ (event.Forces k object ∧ ¬event.TakesBack k object ∧ ¬event.HandsOut k object)
      ∨ ¬event.TakesBack k object ∧ ¬event.HandsOut k object
        ∧ (event.Touches k object → places object ≠ none)
        ∧ (places' object = places object
          ∨ (∃ p, p ≠ .active ∧ places object = some p)
            ∧ ∃ q, q ≠ .active ∧ places' object = some q) := by
  cases event with
  | overwrite object' word =>
      by_cases hobject : object' = object
      · exact .inr (.inr (.inl ⟨hobject, id, id⟩))
      · refine .inr (.inr (.inr ⟨id, id, fun htouch => absurd htouch hobject, .inl ?_⟩))
        rw [← Option.some.inj hstep, Function.update_of_ne (Ne.symm hobject)]
  | call op =>
      -- an operation that is not about the object leaves it alone
      have hidle : (∀ act ∈ op.acts k, ¬act.On object) → places' object = places object →
          ¬(Event.call op).TakesBack k object ∧ ¬(Event.call op).HandsOut k object
            ∧ ((Event.call op).Touches k object → places object ≠ none)
            ∧ (places' object = places object
              ∨ (∃ p, p ≠ .active ∧ places object = some p)
                ∧ ∃ q, q ≠ .active ∧ places' object = some q) := by
        intro hoff hsame
        refine ⟨?_, ?_, ?_, .inl hsame⟩
        · rintro ⟨p, -, hmem⟩
          exact hoff _ hmem rfl
        · rintro ⟨p, -, hmem⟩
          exact hoff _ hmem rfl
        · rintro ⟨act, hmem, hon⟩
          exact absurd hon (hoff act hmem)
      rcases acts_cases k op with hback | hout | ⟨p, q, hpq, hp, hq, hinner⟩ | ⟨object', p, hput⟩
        | ⟨object', hcheck⟩
      · have hne : ∀ p : Place, p = .active → ¬p ≠ .active := fun p hp hne => hne hp
        rcases Typestate.run_between hne hback hstep object with
          ⟨p, q, rfl, hq, hbefore, hafter, hmem⟩ | ⟨hoff, hsame⟩
        · refine .inl ⟨⟨⟨q, hq, hmem⟩, ?_⟩, hbefore, q, hq, hafter⟩
          rintro ⟨p, hp, hmem⟩
          exact hp (hback _ hmem).1
        · exact .inr (.inr (.inr (hidle hoff hsame)))
      · rcases Typestate.run_between (fun p hp => hp) hout hstep object with
          ⟨p, q, hp, rfl, hbefore, hafter, hmem⟩ | ⟨hoff, hsame⟩
        · refine .inr (.inl ⟨⟨⟨p, hp, hmem⟩, ?_⟩, ⟨p, hp, hbefore⟩, hafter⟩)
          rintro ⟨q, hq, hmem⟩
          exact hq (hout _ hmem).2
        · exact .inr (.inr (.inr (hidle hoff hsame)))
      · have hne : ∀ p' : Place, p' = p → ¬p' = q := fun p' hp' hq' => hpq (hp'.symm.trans hq')
        rcases Typestate.run_between hne hinner hstep object with
          ⟨p, q, rfl, rfl, hbefore, hafter, -⟩ | ⟨hoff, hsame⟩
        · refine .inr (.inr (.inr ⟨?_, ?_, ?_, .inr ⟨⟨p, hp, hbefore⟩, q, hq, hafter⟩⟩))
          · rintro ⟨q', -, hmem⟩
            exact hp (hinner _ hmem).1.symm
          · rintro ⟨p', -, hmem⟩
            exact hq (hinner _ hmem).2.symm
          · rw [hbefore]
            exact fun _ h => Option.some_ne_none p h
        · exact .inr (.inr (.inr (hidle hoff hsame)))
      · by_cases hobject : object' = object
        · refine .inr (.inr (.inl ⟨⟨p, ?_⟩, ?_, ?_⟩))
          · rw [hput, hobject]
            exact List.mem_singleton.mpr rfl
          · rintro ⟨q, -, hmem⟩
            rw [hput] at hmem
            cases List.mem_singleton.mp hmem
          · rintro ⟨q, -, hmem⟩
            rw [hput] at hmem
            cases List.mem_singleton.mp hmem
        · refine .inr (.inr (.inr (hidle ?_ ?_)))
          · rw [hput]
            exact List.forall_mem_singleton.mpr hobject
          · rw [meaning, hput] at hstep
            rw [← Option.some.inj hstep, Function.update_of_ne (Ne.symm hobject)]
      · rw [meaning, hcheck, Lts.run, Act.step] at hstep
        split at hstep
        · next hactive =>
            have hsame : places' = places := (Option.some.inj hstep).symm
            refine .inr (.inr (.inr ⟨?_, ?_, ?_, .inl (by rw [hsame])⟩))
            · rintro ⟨q, -, hmem⟩
              rw [hcheck] at hmem
              cases List.mem_singleton.mp hmem
            · rintro ⟨q, -, hmem⟩
              rw [hcheck] at hmem
              cases List.mem_singleton.mp hmem
            · rintro ⟨act, hmem, hon⟩
              rw [hcheck] at hmem
              obtain rfl := List.mem_singleton.mp hmem
              obtain rfl : object' = object := hon
              rw [hactive]
              exact Option.some_ne_none _
        · cases hstep

theorem step_takesBack {places places' : U64 → Option Place} {event : Event}
    (hstep : s.meaning k places event = some places') {object : U64}
    (hback : event.TakesBack k object) :
    places object = some .active ∧ places' object ≠ some .active := by
  rcases step_object hstep object with ⟨-, hbefore, p, hp, hafter⟩ | ⟨⟨-, h⟩, -⟩ | ⟨-, h, -⟩ | ⟨h, -⟩
  · rw [hafter]
    exact ⟨hbefore, fun h => hp (Option.some.inj h)⟩
  all_goals exact absurd hback h

theorem step_handsOut {places places' : U64 → Option Place} {event : Event}
    (hstep : s.meaning k places event = some places') {object : U64}
    (hout : event.HandsOut k object) :
    places object ≠ some .active ∧ places' object = some .active := by
  rcases step_object hstep object with ⟨⟨-, h⟩, -⟩ | ⟨-, ⟨p, hp, hbefore⟩, hafter⟩ | ⟨-, -, h⟩
    | ⟨-, h, -⟩
  · exact absurd hout h
  · rw [hbefore]
    exact ⟨fun h => hp (Option.some.inj h), hafter⟩
  all_goals exact absurd hout h

theorem lost_stays {events : List Event} {places places' : U64 → Option Place}
    (hrun : Lts.run (s.meaning k) places events = some places') {object : U64}
    (hlost : places object = none) (hforces : ∀ event ∈ events, ¬event.Forces k object) :
    (∀ event ∈ events, ¬event.Touches k object) ∧ places' object = none := by
  induction events generalizing places with
  | nil =>
      cases hrun
      exact ⟨fun event hevent => absurd hevent List.not_mem_nil, hlost⟩
  | cons event events ih =>
      obtain ⟨places₁, hstep, hrest⟩ := Lts.run_cons_eq_some.mp hrun
      obtain ⟨hfree, hfrees⟩ := List.forall_mem_cons.mp hforces
      rcases step_object hstep object with ⟨-, hbefore, -⟩ | ⟨-, ⟨p, -, hbefore⟩, -⟩ | ⟨h, -⟩
        | ⟨-, -, htouch, hsame | ⟨⟨p, -, hbefore⟩, -⟩⟩
      · cases hlost.symm.trans hbefore
      · cases hlost.symm.trans hbefore
      · exact absurd h hfree
      · obtain ⟨htouches, hend⟩ := ih hrest (hsame.trans hlost) hfrees
        exact ⟨List.forall_mem_cons.mpr ⟨fun h => htouch h hlost, htouches⟩, hend⟩
      · cases hlost.symm.trans hbefore

/-- **An overflow takes the object out of use**: an object whose canary is none of
the three is not allocated, moved, freed or copied any more, until its canary
is written without a check. -/
theorem overwritten_stays (h : s.Apart k) {events : List Event}
    (hpossible : ∀ event ∈ events, event.Possible s) {mem mem' : Canaries}
    (hrun : Lts.run (s.step k) mem events = some mem') {object : U64}
    (hlost : s.places k mem object = none)
    (hforces : ∀ event ∈ events, ¬event.Forces k object) :
    (∀ event ∈ events, ¬event.Touches k object) ∧ s.places k mem' object = none := by
  have hplaces := run_places h hpossible mem
  rw [hrun, Option.map_some] at hplaces
  exact lost_stays hplaces.symm hlost hforces

/-- A dentry with a canary that a string ran into, and one beside it. -/
theorem overwritten_stays_dentry :
    ∃ mem', Lts.run (dentryCache.step kernel64) (fun _ => 0x41414141)
        [.call (.setupObject 0x2000), .call (.slabAllocNode 0 0x2000)] = some mem'
      ∧ dentryCache.places kernel64 mem' 0x1000 = none := by
  obtain ⟨mem', hrun⟩ := Option.isSome_iff_exists.mp (by decide +kernel :
    (Lts.run (dentryCache.step kernel64) (fun _ => 0x41414141)
      [.call (.setupObject 0x2000), .call (.slabAllocNode 0 0x2000)]).isSome = true)
  refine ⟨mem', hrun, (overwritten_stays dentryCache_apart ?_ hrun (by decide) ?_).2⟩
  · simp [Event.Possible, Op.Possible]
  · refine List.forall_mem_cons.mpr ⟨?_, List.forall_mem_singleton.mpr ?_⟩
    · rintro ⟨p, hmem⟩
      exact absurd (List.mem_singleton.mp hmem) (by simp)
    · rintro ⟨p, hmem⟩
      cases List.mem_singleton.mp hmem

end KmemCache

end Rustlux.Slub
