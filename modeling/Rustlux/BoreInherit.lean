import Rustlux.BoreRace

/-!
# Inheritance over time

What a fork goes through depends on three static keys. Their handlers store a variable
first and switch keys later; when no two of them write the same entry at once, the keys
are those of the variables whenever no handler is in between (`keys_follow`). Two that
overlap can leave a key on the wrong side for good.

What a fork gets depends on when the cache was stored last. Two CPUs that find it expired
at the same time both scan. But no fork that reads the cache after a store finds it expired
before its lifetime is over, less what the timestamp rounds away (`rescans_apart`), and if
nobody else is on the way to a store then, everyone who comes meanwhile gets the same
(`cache_serves`).
-/

namespace Rustlux.BoreC

variable {κ ι : Type}

/-! ## Keys -/

/-- The cache that a value of `sched_burst_inherit_type` stands for. -/
def sourceOfType [DecidableEq ι] (inheritType : U8) (tree : ProcessTree ι) (parent : ι)
    (cloneFlags : CloneFlags) : Option (CacheSource ι) :=
  if cloneFlags.thread then some (threadGroupSource tree parent)
  else if inheritType = 1 then some (parentSource tree parent cloneFlags)
  else if inheritType = 2 then some (ancestorHubSource tree parent cloneFlags)
  else none

/-- The keys are those that the handler of an entry sets for its variable. -/
def KeysAgree (params : BoreParams) (keys : Keys) : Sysctl → Prop
  | .schedBore => keys.bore = (params.enabled != 0)
  | .schedBurstInheritType =>
      (keys.inherit = true ↔ params.burstInheritType = 1 ∨ params.burstInheritType = 2)
        ∧ (keys.inherit = true → (keys.ancestor = true ↔ params.burstInheritType = 2))
  | _ => True

theorem KeysAgree.forkSource_eq [DecidableEq ι] {params : BoreParams} {keys : Keys}
    (h : KeysAgree params keys .schedBurstInheritType) (tree : ProcessTree ι) (parent : ι)
    (cloneFlags : CloneFlags) :
    forkSource keys tree parent cloneFlags
      = sourceOfType params.burstInheritType tree parent cloneFlags := by
  obtain ⟨hinherit, hancestor⟩ := h
  rw [forkSource, sourceOfType]
  by_cases hthread : cloneFlags.thread = true
  · rw [if_pos hthread, if_pos hthread]
  rw [if_neg hthread, if_neg hthread]
  by_cases h1 : params.burstInheritType = 1
  · have hon := hinherit.mpr (.inl h1)
    have hne : ¬params.burstInheritType = 2 := by rw [h1]; decide
    have hoff : ¬keys.ancestor = true := fun h' => hne ((hancestor hon).mp h')
    rw [if_pos hon, if_neg hoff, if_pos h1]
  by_cases h2 : params.burstInheritType = 2
  · have hon := hinherit.mpr (.inr h2)
    rw [if_pos hon, if_pos ((hancestor hon).mpr h2), if_neg h1, if_pos h2]
  · have hoff : ¬keys.inherit = true := fun h' => (hinherit.mp h').elim h1 h2
    rw [if_neg hoff, if_neg h1, if_neg h2]

/-- The entry whose handler has still to switch a key. -/
def Place.switching : Place ι → Option Sysctl
  | .boreVar => some .schedBore
  | .boreKey _ => some .schedBore
  | .typeVar => some .schedBurstInheritType
  | .typeKeys (_ :: _) => some .schedBurstInheritType
  | _ => none

/-- The keys when the handler is done, if nobody else touches them. -/
def Place.settled (params : BoreParams) (keys : Keys) : Place ι → Keys
  | .boreVar => { keys with bore := params.enabled != 0 }
  | .boreKey on => { keys with bore := on }
  | .typeVar => (inheritSwitches params.burstInheritType).foldl KeySwitch.apply keys
  | .typeKeys switches => switches.foldl KeySwitch.apply keys
  | _ => keys

theorem inheritSwitches_agree (params : BoreParams) (keys : Keys) :
    KeysAgree params ((inheritSwitches params.burstInheritType).foldl KeySwitch.apply keys)
      .schedBurstInheritType := by
  rw [inheritSwitches]
  by_cases h1 : params.burstInheritType = 1
  · rw [if_pos h1]
    have hne : ¬params.burstInheritType = 2 := by rw [h1]; decide
    exact ⟨iff_of_true rfl (.inl h1), fun _ => iff_of_false Bool.false_ne_true hne⟩
  by_cases h2 : params.burstInheritType = 2
  · rw [if_neg h1, if_pos h2]
    exact ⟨iff_of_true rfl (.inr h2), fun _ => iff_of_true rfl h2⟩
  · rw [if_neg h1, if_neg h2]
    exact ⟨iff_of_false Bool.false_ne_true fun h => h.elim h1 h2, fun h => absurd h Bool.false_ne_true⟩

/-- What an entry is about is the same: its variable, and the keys that its handler sets. -/
def SamePart (params : BoreParams) (keys : Keys) (params' : BoreParams) (keys' : Keys) :
    Sysctl → Prop
  | .schedBore => params'.enabled = params.enabled ∧ keys'.bore = keys.bore
  | .schedBurstInheritType =>
      params'.burstInheritType = params.burstInheritType ∧ keys'.inherit = keys.inherit
        ∧ keys'.ancestor = keys.ancestor
  | _ => True

section Parts

variable {params params' : BoreParams} {keys keys' : Keys} {entry : Sysctl}

theorem SamePart.agree (h : SamePart params keys params' keys' entry)
    (hagree : KeysAgree params keys entry) : KeysAgree params' keys' entry := by
  cases entry with
  | schedBore =>
      obtain ⟨henabled, hbore⟩ := h
      change keys'.bore = (params'.enabled != 0)
      rw [hbore, henabled]
      exact hagree
  | schedBurstInheritType =>
      obtain ⟨htype, hinherit, hancestor⟩ := h
      rw [KeysAgree, htype, hinherit, hancestor]
      exact hagree
  | _ => trivial

theorem samePart_refl (params : BoreParams) (keys : Keys) (entry : Sysctl) :
    SamePart params keys params keys entry := by
  cases entry <;> simp [SamePart]

/-- A store concerns no other entry. -/
theorem store_part (params : BoreParams) (keys : Keys) (value : Nat) {other : Sysctl}
    (hne : other ≠ entry) : SamePart params keys (entry.store params value) keys other := by
  cases entry <;> cases other <;> first | exact absurd rfl hne | simp [SamePart, Sysctl.store]

theorem foldl_switches_part (switches : List KeySwitch)
    (h : SamePart params keys params' keys' .schedBurstInheritType) :
    SamePart params (switches.foldl KeySwitch.apply keys) params'
      (switches.foldl KeySwitch.apply keys') .schedBurstInheritType := by
  induction switches generalizing keys keys' with
  | nil => exact h
  | cons switch rest ih =>
      refine ih ?_
      cases switch with
      | inherit on => exact ⟨h.1, rfl, h.2.2⟩
      | ancestor on => exact ⟨h.1, h.2.1, rfl⟩

/-- A handler that is still switching sees nothing of what concerns the other entries. -/
theorem SamePart.settled {place : Place ι} (h : SamePart params keys params' keys' entry)
    (hplace : place.switching = some entry) :
    SamePart params (place.settled params keys) params' (place.settled params' keys') entry := by
  cases place with
  | boreVar =>
      cases hplace
      exact ⟨h.1, congrArg (· != 0) h.1⟩
  | boreKey on =>
      cases hplace
      exact ⟨h.1, rfl⟩
  | typeVar =>
      cases hplace
      rw [Place.settled, Place.settled, h.1]
      exact foldl_switches_part _ h
  | typeKeys switches =>
      cases switches with
      | nil => cases hplace
      | cons switch rest =>
          cases hplace
          exact foldl_switches_part (switch :: rest) h
  | _ => cases hplace

end Parts

section Accesses

variable [DecidableEq ι] {tables : PrioTables} {s s' : System ι} {place place' : Place ι}
  {access : Access ι}

theorem visit_scan {t : ι} {inner : NestedCalls} {f : ForkCall ι} {bc : CachePtr ι} {count : Nat}
    {total : U32} {scanCount : Nat}
    (h : s.access tables (.scan f bc count total scanCount) (.visit t inner) = some (s', place')) :
    s' = s ∧ ∃ count total scanCount, place' = .scan f bc count total scanCount := by
  rw [System.access, System.visitAccess] at h
  split at h
  · cases h
  · split at h
    · cases h
    · dsimp only at h
      split at h <;>
        · obtain ⟨rfl, rfl⟩ := Prod.mk.inj (Option.some.inj h)
          exact ⟨rfl, _, _, _, rfl⟩

theorem next_hook {f : ForkCall ι}
    (h : s.access tables (.hook f) .next = some (s', place')) :
    s' = s ∧ (place' = .away ∨ place' = .leader f ∨ place' = .inheritKey f) := by
  rw [System.access, System.nextAccess] at h
  split at h
  · obtain ⟨rfl, rfl⟩ := Prod.mk.inj (Option.some.inj h)
    exact ⟨rfl, .inl rfl⟩
  · split at h
    · obtain ⟨rfl, rfl⟩ := Prod.mk.inj (Option.some.inj h)
      exact ⟨rfl, .inr (.inl rfl)⟩
    · obtain ⟨rfl, rfl⟩ := Prod.mk.inj (Option.some.inj h)
      exact ⟨rfl, .inr (.inr rfl)⟩

/-- What an access does to the variables and keys: nothing, a store, or a step of a handler. -/
theorem access_keys (h : s.access tables place access = some (s', place')) :
    (place.switching = none ∧ place'.switching = none ∧ s'.params = s.params ∧ s'.keys = s.keys)
      ∨ (∃ entry value, access = .write entry value ∧ value ≤ entry.max ∧ place.switching = none
        ∧ (place'.switching = some entry
          ∨ place'.switching = none ∧ place'.settled s'.params.val s'.keys = s'.keys)
        ∧ s'.params.val = entry.store s.params.val value ∧ s'.keys = s.keys
        ∧ KeysAgree s'.params.val (place'.settled s'.params.val s'.keys) entry)
      ∨ ∃ entry, place.switching = some entry
        ∧ (place'.switching = some entry
          ∨ place'.switching = none ∧ place'.settled s'.params.val s'.keys = s'.keys)
        ∧ s'.params = s.params
        ∧ place'.settled s'.params.val s'.keys = place.settled s.params.val s.keys
        ∧ ∀ other ≠ entry, SamePart s.params.val s.keys s'.params.val s'.keys other := by
  cases access with
  | copy current p pid cloneFlags startTime attrs =>
      cases place with
      | away =>
          obtain ⟨rfl, rfl⟩ := Prod.mk.inj (Option.some.inj h)
          refine .inl ⟨rfl, ?_, rfl, rfl⟩
          split <;> rfl
      | _ => cases h
  | write entry value =>
      cases place with
      | away =>
          have h' : s.writeAccess entry value = (s', place') := Option.some.inj h
          rw [System.writeAccess] at h'
          by_cases hvalue : value ≤ entry.max
          · rw [dif_pos hvalue] at h'
            obtain ⟨rfl, rfl⟩ := Prod.mk.inj h'
            refine .inr (.inl ⟨entry, value, rfl, hvalue, rfl, ?_, rfl, rfl, ?_⟩)
            · cases entry with
              | schedBore => exact .inl rfl
              | schedBurstInheritType => exact .inl rfl
              | _ => exact .inr ⟨rfl, rfl⟩
            · cases entry with
              | schedBore => rfl
              | schedBurstInheritType => exact inheritSwitches_agree _ _
              | _ => trivial
          · rw [dif_neg hvalue] at h'
            obtain ⟨rfl, rfl⟩ := Prod.mk.inj h'
            exact .inl ⟨rfl, rfl, rfl, rfl⟩
      | _ => cases h
  | visit t inner =>
      left
      cases place with
      | hub f =>
          obtain ⟨rfl, rfl⟩ := Prod.mk.inj (Option.some.inj h)
          exact ⟨rfl, rfl, rfl, rfl⟩
      | scan f bc count total scanCount =>
          obtain ⟨rfl, _, _, _, rfl⟩ := visit_scan h
          exact ⟨rfl, rfl, rfl, rfl⟩
      | readjust =>
          obtain ⟨rfl, rfl⟩ := Prod.mk.inj (Option.some.inj h)
          exact ⟨rfl, rfl, rfl, rfl⟩
      | _ => cases h
  | next =>
      cases place with
      | boreVar =>
          obtain ⟨rfl, rfl⟩ := Prod.mk.inj (Option.some.inj h)
          refine .inr (.inr ⟨.schedBore, rfl, .inl rfl, rfl, rfl,
            fun other _ => samePart_refl _ _ other⟩)
      | boreKey on =>
          obtain ⟨rfl, rfl⟩ := Prod.mk.inj (Option.some.inj h)
          refine .inr (.inr ⟨.schedBore, rfl, .inr ⟨rfl, rfl⟩, rfl, rfl, fun other hne => ?_⟩)
          cases other with
          | schedBore => exact absurd rfl hne
          | schedBurstInheritType => exact ⟨rfl, rfl, rfl⟩
          | _ => trivial
      | typeVar =>
          obtain ⟨rfl, rfl⟩ := Prod.mk.inj (Option.some.inj h)
          refine .inr (.inr ⟨.schedBurstInheritType, rfl, .inl ?_, rfl, rfl,
            fun other _ => samePart_refl _ _ other⟩)
          rw [inheritSwitches]
          split
          · rfl
          · split <;> rfl
      | typeKeys switches =>
          cases switches with
          | nil =>
              obtain ⟨rfl, rfl⟩ := Prod.mk.inj (Option.some.inj h)
              exact .inl ⟨rfl, rfl, rfl, rfl⟩
          | cons switch rest =>
              obtain ⟨rfl, rfl⟩ := Prod.mk.inj (Option.some.inj h)
              refine .inr (.inr ⟨.schedBurstInheritType, rfl, ?_, rfl, rfl, fun other hne => ?_⟩)
              · cases rest with
                | nil => exact .inr ⟨rfl, rfl⟩
                | cons _ _ => exact .inl rfl
              · cases other with
                | schedBore =>
                    cases switch <;> exact ⟨rfl, rfl⟩
                | schedBurstInheritType => exact absurd rfl hne
                | _ => trivial
      | away => cases h
      | hub f => cases h
      | hook f =>
          obtain ⟨rfl, rfl | rfl | rfl⟩ := next_hook h <;> exact .inl ⟨rfl, rfl, rfl, rfl⟩
      | scan f bc count total scanCount =>
          obtain ⟨newBc, -, hnext⟩ := Option.map_eq_some_iff.mp h
          obtain ⟨rfl, rfl⟩ := Prod.mk.inj hnext
          exact .inl ⟨rfl, rfl, rfl, rfl⟩
      | _ =>
          obtain ⟨rfl, rfl⟩ := Prod.mk.inj (Option.some.inj h)
          refine .inl ⟨rfl, ?_, rfl, rfl⟩
          first | rfl | (split <;> rfl)

end Accesses

namespace Smp

/-- For each entry at most one handler has still to switch a key, and leaves the keys of the
variable; while there is none, they are those of the variable. -/
structure KeysFollow (s : Smp κ ι) : Prop where
  enabled : s.sys.params.val.enabled.toNat ≤ 1
  inheritType : s.sys.params.val.burstInheritType.toNat ≤ 2
  alone : ∀ entry cpu cpu', (s.places cpu).switching = some entry →
    (s.places cpu').switching = some entry → cpu = cpu'
  pending : ∀ entry cpu, (s.places cpu).switching = some entry →
    KeysAgree s.sys.params.val ((s.places cpu).settled s.sys.params.val s.sys.keys) entry
  agree : ∀ entry, (∀ cpu, (s.places cpu).switching ≠ some entry) →
    KeysAgree s.sys.params.val s.sys.keys entry

/-- No write begins while another one of the same entry has still to switch a key. -/
def OneWriter (s : Smp κ ι) : Move κ ι → Prop
  | .access _ (.write entry value) =>
      value ≤ entry.max → ∀ cpu, (s.places cpu).switching ≠ some entry
  | _ => True

variable [DecidableEq κ] {tables : PrioTables} {s s' : Smp κ ι}

theorem event_step [DecidableEq ι] {event : Event ι}
    (hstep : s.step tables (.event event) = some s') :
    ∃ sys, s.sys.step tables event = some sys ∧ s' = { s with sys } := by
  cases event with
  | fork current p pid cloneFlags startTime attrs tree => cases hstep
  | sysctl entry value processes => cases hstep
  | _ => exact ⟨_, rfl, (Option.some.inj hstep).symm⟩

theorem event_keys [DecidableEq ι] {event : Event ι} (hstep : s.step tables (.event event) = some s') :
    s'.places = s.places ∧ s'.sys.params = s.sys.params ∧ s'.sys.keys = s.sys.keys := by
  cases event with
  | fork current p pid cloneFlags startTime attrs tree => cases hstep
  | sysctl entry value processes => cases hstep
  | _ =>
      obtain rfl := Option.some.inj hstep
      exact ⟨rfl, rfl, rfl⟩

/-- A CPU moves, and of the variables and keys only what concerns one entry changes, of which
no other CPU is the handler. -/
theorem KeysFollow.move (h : s.KeysFollow) {entry : Sysctl} {cpu : κ} {sys : System ι}
    {place : Place ι} (henabled : sys.params.val.enabled.toNat ≤ 1)
    (htype : sys.params.val.burstInheritType.toNat ≤ 2)
    (hothers : ∀ other ≠ entry, SamePart s.sys.params.val s.sys.keys sys.params.val sys.keys other)
    (halone : ∀ cpu' ≠ cpu, (s.places cpu').switching ≠ some entry)
    (hbefore : (s.places cpu).switching = none ∨ (s.places cpu).switching = some entry)
    (hafter : place.switching = some entry
      ∨ place.switching = none ∧ place.settled sys.params.val sys.keys = sys.keys)
    (hsettled : KeysAgree sys.params.val (place.settled sys.params.val sys.keys) entry) :
    KeysFollow ⟨sys, Function.update s.places cpu place⟩ := by
  have hself : Function.update s.places cpu place cpu = place := Function.update_self ..
  have hrest : ∀ cpu' ≠ cpu, Function.update s.places cpu place cpu' = s.places cpu' :=
    fun cpu' hne => Function.update_of_ne hne _ _
  -- the handler of another entry is another CPU, and has not moved
  have hother : ∀ other ≠ entry, ∀ cpu',
      (Function.update s.places cpu place cpu').switching = some other → cpu' ≠ cpu := by
    rintro other hne cpu' hswitching rfl
    rw [hself] at hswitching
    rcases hafter with h | ⟨h, -⟩
    · exact hne (Option.some.inj (hswitching.symm.trans h))
    · cases hswitching.symm.trans h
  refine ⟨henabled, htype, fun other cpu₁ cpu₂ h₁ h₂ => ?_, fun other cpu' hswitching => ?_,
    fun other hnone => ?_⟩
  · by_cases hentry : other = entry
    · have honly : ∀ cpu', (Function.update s.places cpu place cpu').switching = some other →
          cpu' = cpu := fun cpu' hswitching => by
        by_contra hne
        rw [hrest cpu' hne, hentry] at hswitching
        exact halone cpu' hne hswitching
      rw [honly cpu₁ h₁, honly cpu₂ h₂]
    · have hne₁ := hother other hentry cpu₁ h₁
      have hne₂ := hother other hentry cpu₂ h₂
      dsimp only at h₁ h₂
      rw [hrest cpu₁ hne₁] at h₁
      rw [hrest cpu₂ hne₂] at h₂
      exact h.alone other cpu₁ cpu₂ h₁ h₂
  · dsimp only at hswitching ⊢
    by_cases hentry : other = entry
    · have hcpu : cpu' = cpu := by
        by_contra hne
        rw [hrest cpu' hne, hentry] at hswitching
        exact halone cpu' hne hswitching
      rw [hcpu, hself, hentry]
      exact hsettled
    · have hne := hother other hentry cpu' hswitching
      rw [hrest cpu' hne] at hswitching ⊢
      exact ((hothers other hentry).settled hswitching).agree (h.pending other cpu' hswitching)
  · dsimp only at hnone ⊢
    by_cases hentry : other = entry
    · have hcpu := hnone cpu
      rw [hself, hentry] at hcpu
      rcases hafter with h | ⟨-, h⟩
      · exact absurd h hcpu
      · rw [h] at hsettled
        rw [hentry]
        exact hsettled
    · refine (hothers other hentry).agree (h.agree other fun cpu' => ?_)
      by_cases hne : cpu' = cpu
      · rw [hne]
        rcases hbefore with h | h
        · rw [h]
          nofun
        · rw [h]
          exact fun heq => hentry (Option.some.inj heq).symm
      · have := hnone cpu'
        rwa [hrest cpu' hne] at this

omit [DecidableEq κ] in
/-- Nothing of it changes, and no CPU has to do with a handler that switches. -/
theorem KeysFollow.quiet (h : s.KeysFollow) (hparams : s'.sys.params = s.sys.params)
    (hkeys : s'.sys.keys = s.sys.keys)
    (hplaces : ∀ cpu, s'.places cpu = s.places cpu
      ∨ (s.places cpu).switching = none ∧ (s'.places cpu).switching = none) : s'.KeysFollow := by
  have hback : ∀ {cpu entry}, (s'.places cpu).switching = some entry →
      s'.places cpu = s.places cpu := by
    intro cpu entry hswitching
    exact (hplaces cpu).resolve_right fun hnone => by cases hswitching.symm.trans hnone.2
  refine ⟨hparams ▸ h.enabled, hparams ▸ h.inheritType, fun entry cpu cpu' h₁ h₂ => ?_,
    fun entry cpu hswitching => ?_, fun entry hnone => ?_⟩
  · rw [hback h₁] at h₁
    rw [hback h₂] at h₂
    exact h.alone entry cpu cpu' h₁ h₂
  · have heq := hback hswitching
    rw [heq] at hswitching ⊢
    rw [hparams, hkeys]
    exact h.pending entry cpu hswitching
  · rw [hparams, hkeys]
    refine h.agree entry fun cpu => ?_
    rcases hplaces cpu with heq | ⟨hquiet, -⟩
    · rw [← heq]
      exact hnone cpu
    · rw [hquiet]
      nofun

/-- A byte that holds a value in range holds it exactly. -/
theorem toNat_store8 {value bound : Nat} (hvalue : value ≤ bound) :
    (BitVec.ofNat 8 value).toNat ≤ bound := by
  rw [BitVec.toNat_ofNat]
  exact Nat.le_trans (Nat.mod_le _ _) hvalue

variable [DecidableEq ι]

theorem step_keysFollow {move : Move κ ι} (h : s.KeysFollow) (hone : s.OneWriter move)
    (hstep : s.step tables move = some s') : s'.KeysFollow := by
  cases move with
  | event event =>
      obtain ⟨hplaces, hparams, hkeys⟩ := event_keys hstep
      exact h.quiet hparams hkeys fun cpu => .inl (congrFun hplaces cpu)
  | access cpu access =>
      obtain ⟨⟨sys, place⟩, haccess, rfl⟩ := Option.map_eq_some_iff.mp hstep
      rcases access_keys haccess with ⟨hquiet, hquiet', hparams, hkeys⟩
        | ⟨entry, value, rfl, hvalue, hquiet, hafter, hparams, hkeys, hsettled⟩
        | ⟨entry, hswitching, hafter, hparams, hsettled, hothers⟩
      · refine h.quiet hparams hkeys fun cpu' => ?_
        by_cases hcpu : cpu' = cpu
        · subst hcpu
          exact .inr ⟨hquiet,
            (congrArg Place.switching (Function.update_self cpu' place s.places)).trans hquiet'⟩
        · exact .inl (Function.update_of_ne hcpu _ _)
      · refine h.move ?_ ?_ (fun other hne => ?_) (fun cpu' _ => hone hvalue cpu') (.inl hquiet)
          hafter hsettled
        · rw [hparams]
          cases entry with
          | schedBore => exact toNat_store8 hvalue
          | _ => exact h.enabled
        · rw [hparams]
          cases entry with
          | schedBurstInheritType => exact toNat_store8 hvalue
          | _ => exact h.inheritType
        · rw [hparams, hkeys]
          exact store_part _ _ value hne
      · refine h.move (hparams ▸ h.enabled) (hparams ▸ h.inheritType) hothers (fun cpu' hne => ?_)
          (.inr hswitching) hafter ?_
        · exact fun hswitching' => hne (h.alone entry cpu' cpu hswitching' hswitching)
        · rw [hsettled, hparams]
          exact h.pending entry cpu hswitching

/-- **The keys follow the variables** in every run from boot in which no two handlers of one
entry overlap: whenever no handler of an entry is between its store and its last switch, the
keys are those that the variable stands for. -/
theorem keys_follow {t : Smp κ ι} {moves : List (Move κ ι)}
    (hboot : (s.sys.params, s.sys.keys) = schedInitBore) (haway : ∀ cpu, s.places cpu = .away)
    (hone : Lts.Along (Smp.step tables) OneWriter s moves)
    (hrun : Lts.run (Smp.step tables) s moves = some t) :
    (t.sys.params.val.enabled.toNat ≤ 1 ∧ t.sys.params.val.burstInheritType.toNat ≤ 2)
      ∧ ((∀ cpu, (t.places cpu).switching ≠ some .schedBore) →
          (t.sys.keys.bore = true ↔ t.sys.params.val.enabled = 1))
      ∧ ((∀ cpu, (t.places cpu).switching ≠ some .schedBurstInheritType) →
          ∀ (tree : ProcessTree ι) (parent : ι) (cloneFlags : CloneFlags),
            forkSource t.sys.keys tree parent cloneFlags
              = sourceOfType t.sys.params.val.burstInheritType tree parent cloneFlags) := by
  have hstart : s.KeysFollow := by
    obtain ⟨hparams, hkeys⟩ := Prod.mk.inj hboot
    have hnone : ∀ entry cpu, (s.places cpu).switching ≠ some entry := by
      intro entry cpu
      rw [haway cpu]
      nofun
    refine ⟨by rw [hparams]; decide, by rw [hparams]; decide,
      fun entry cpu _ h _ => absurd h (hnone entry cpu),
      fun entry cpu h => absurd h (hnone entry cpu), fun entry _ => ?_⟩
    rw [hparams, hkeys]
    cases entry with
    | schedBore => rfl
    | schedBurstInheritType => exact inheritSwitches_agree Tunables.default.val ⟨true, true, true⟩
    | _ => trivial
  have ht : t.KeysFollow := Lts.run_invariant_along OneWriter
    (fun s move s' h hone hstep => step_keysFollow h hone hstep) hstart hone hrun
  refine ⟨⟨ht.enabled, ht.inheritType⟩, fun hnone => ?_, fun hnone =>
    KeysAgree.forkSource_eq (ht.agree _ hnone)⟩
  have henabled := ht.enabled
  rw [show t.sys.keys.bore = _ from ht.agree _ hnone, bne_iff_ne]
  constructor
  · intro hne
    have hne' : t.sys.params.val.enabled.toNat ≠ 0 := fun h => hne (BitVec.eq_of_toNat_eq h)
    exact BitVec.eq_of_toNat_eq (Nat.le_antisymm henabled (Nat.pos_of_ne_zero hne'))
  · intro h1
    rw [h1]
    decide

/-- The shell at boot, on two CPUs. -/
def shellSmp : Smp Bool ShellTask := ⟨shellSystem, fun _ => .away⟩

/-- One CPU sets the type to 1, a fork through the parent's cache. -/
def typeWrite : List (Move Bool ShellTask) :=
  [.access true (.write .schedBurstInheritType 1), .access true .next, .access true .next,
    .access true .next]

theorem keys_follow_shell :
    ∃ t, Lts.run (Smp.step kernelTables) shellSmp typeWrite = some t
      ∧ (t.sys.params.val.enabled.toNat ≤ 1 ∧ t.sys.params.val.burstInheritType.toNat ≤ 2)
      ∧ ((∀ cpu, (t.places cpu).switching ≠ some .schedBore) →
          (t.sys.keys.bore = true ↔ t.sys.params.val.enabled = 1))
      ∧ ((∀ cpu, (t.places cpu).switching ≠ some .schedBurstInheritType) →
          ∀ (tree : ProcessTree ShellTask) (parent : ShellTask) (cloneFlags : CloneFlags),
            forkSource t.sys.keys tree parent cloneFlags
              = sourceOfType t.sys.params.val.burstInheritType tree parent cloneFlags) := by
  obtain ⟨t, ht⟩ : ∃ t, Lts.run (Smp.step kernelTables) shellSmp typeWrite = some t := ⟨_, rfl⟩
  refine ⟨t, ht, keys_follow rfl (fun _ => rfl) ?_ ht⟩
  exact ⟨fun _ _ => nofun, fun _ _ => ⟨trivial, fun _ _ => ⟨trivial, fun _ _ =>
    ⟨trivial, fun _ _ => trivial⟩⟩⟩⟩

/-- One CPU writes 0 to `sched_bore` and the other 1, which is switched first. -/
example : (Lts.run (Smp.step kernelTables) shellSmp
    [.access true (.write .schedBore 0), .access true .next,
      .access false (.write .schedBore 1), .access false .next, .access false .next,
      .access true .next, .access true .next, .access false .next]).map
        (fun t => (t.sys.params.val.enabled, t.sys.keys.bore, (t.places true).switching,
          (t.places false).switching)) = some (1, false, none, none) := by
  decide

end Smp

/-! ## Caches -/

/-- The context of a task is cleared. -/
def Event.Resets (t : ι) : Event ι → Prop
  | .switchedToFair t' => t' = t
  | _ => False

/-- The context of a task is cleared, or replaced by a copy. -/
def Move.Resets (t : ι) : Move κ ι → Prop
  | .event e => e.Resets t
  | .access _ (.copy _ p _ _ _ _) => p = t
  | _ => False

theorem updatePenalty_cache {globals : Globals} {inner : NestedCalls} {p : TaskStruct}
    (hrunning : p.bore.stopUpdate = false) (field : CacheField) :
    (updatePenalty globals (nestedCalls globals inner) p).bore.cache field
      = p.bore.cache field := by
  rw [updatePenalty_eq globals hrunning]
  cases field <;> rfl

theorem updateCurrBore_cache {globals : Globals} {inner : NestedCalls} {p : TaskStruct}
    {deltaExec : U64} (hrunning : p.bore.stopUpdate = false) (field : CacheField) :
    (updateCurrBore globals (nestedCalls globals inner) p deltaExec).bore.cache field
      = p.bore.cache field := by
  have hne : ¬p.bore.stopUpdate = true := by simp [hrunning]
  rw [updateCurrBore, if_neg hne]
  dsimp only
  split
  · cases field <;> rfl
  · refine (updatePenalty_cache ?_ field).trans ?_
    · exact hrunning
    · cases field <;> rfl

theorem restartBurstBore_cache {globals : Globals} {inner : NestedCalls} {p : TaskStruct}
    (hrunning : p.bore.stopUpdate = false) (field : CacheField) :
    (restartBurstBore globals (nestedCalls globals inner) p).bore.cache field
      = p.bore.cache field := by
  refine (updatePenalty_cache ?_ field).trans ?_
  · exact hrunning
  · cases field <;> rfl

/-- A context starts between calls, with the caches that were copied. -/
theorem startContext_cache (keys : Keys) (params : Tunables) (tables : PrioTables) (task : Task)
    (inheritedPenalty : U32) :
    (startContext keys params tables task inheritedPenalty).bore.stopUpdate = false
      ∧ ∀ field, (startContext keys params tables task inheritedPenalty).bore.cache field
        = task.bore.cache field := by
  have hnil : (id : TaskStruct → TaskStruct)
      = nestedCalls ⟨params, keys.bore, tables⟩ .nil := rfl
  rw [startContext, hnil]
  dsimp only
  rw [updatePenalty_eq _ rfl]
  refine ⟨rfl, fun field => ?_⟩
  split <;> cases field <;> rfl

namespace System

variable [DecidableEq ι] {s : System ι}

/-- An update of one task that keeps its caches keeps all. -/
theorem cacheAt_setTask {t : ι} {p : Task}
    (hp : ∀ field, p.bore.cache field = (s.tasks t).bore.cache field) (bc : CachePtr ι) :
    (s.setTask t p).cacheAt bc = s.cacheAt bc := by
  change (Function.update s.tasks t p bc.owner).bore.cache bc.field = _
  by_cases ht : bc.owner = t
  · rw [ht, Function.update_self, hp, ← ht]
    rfl
  · rw [Function.update_of_ne ht]
    rfl

theorem cacheAt_store (bc : CachePtr ι) (newBc : BoreBc) :
    (s.setTask bc.owner ((s.tasks bc.owner).withBore
      ((s.tasks bc.owner).bore.setCache newBc bc.field))).cacheAt bc = newBc := by
  change (Function.update s.tasks bc.owner _ bc.owner).bore.cache bc.field = newBc
  rw [Function.update_self]
  cases bc.field <;> rfl

/-- Other caches stay, those of the same task included. -/
theorem cacheAt_store_other {bc other : CachePtr ι} (hne : bc ≠ other) (newBc : BoreBc) :
    (s.setTask bc.owner ((s.tasks bc.owner).withBore
      ((s.tasks bc.owner).bore.setCache newBc bc.field))).cacheAt other = s.cacheAt other := by
  change (Function.update s.tasks bc.owner _ other.owner).bore.cache other.field = _
  obtain ⟨owner, field⟩ := bc
  obtain ⟨owner', field'⟩ := other
  by_cases howner : owner' = owner
  · subst howner
    have hfield : field ≠ field' := fun h => hne (by rw [h])
    dsimp only
    rw [Function.update_self]
    cases field <;> cases field' <;> first | rfl | exact absurd rfl hfield
  · dsimp only
    rw [Function.update_of_ne howner]
    rfl

theorem running_setTask {t : ι} {p : Task} (h : s.Running) (hp : p.bore.stopUpdate = false) :
    (s.setTask t p).Running := by
  intro t'
  change (Function.update s.tasks t p t').bore.stopUpdate = false
  by_cases ht : t' = t
  · rw [ht, Function.update_self]
    exact hp
  · rw [Function.update_of_ne ht]
    exact h t'

end System

/-- The place is in a scan for a cache. -/
def Place.Scans (bc : CachePtr ι) : Place ι → Prop
  | .scan _ bc' _ _ _ => bc' = bc
  | _ => False

/-- The place is between the first read of a cache and a store into it. -/
def Place.Fills (bc : CachePtr ι) : Place ι → Prop
  | .expiry _ bc' _ => bc' = bc
  | .scan _ bc' _ _ _ => bc' = bc
  | _ => False

theorem Place.Scans.fills {bc : CachePtr ι} {place : Place ι} (h : place.Scans bc) :
    place.Fills bc := by
  cases place with
  | scan f bc' count total scanCount => exact h
  | _ => cases h

section Accesses

variable [DecidableEq ι] {tables : PrioTables} {s s' : System ι} {place place' : Place ι}
  {access : Access ι} {bc : CachePtr ι}

/-- What an access does to the tasks: a copy, a store into a cache, the start of a context, or a
reweight. -/
theorem access_tasks (h : s.access tables place access = some (s', place')) :
    s'.tasks = s.tasks
      ∨ (∃ current p pid cloneFlags startTime attrs,
        access = .copy current p pid cloneFlags startTime attrs
          ∧ s' = s.setTask p ((s.tasks current).withAttrs attrs))
      ∨ (∃ f bc count total scanCount newBc, place = .scan f bc count total scanCount
        ∧ place' = .read f bc ∧ access = .next
        ∧ updateBurstCache (s.tasks bc.owner).bore.penalty count total f.now = some newBc
        ∧ s' = s.setTask bc.owner ((s.tasks bc.owner).withBore
          ((s.tasks bc.owner).bore.setCache newBc bc.field)))
      ∨ (∃ p inheritedPenalty,
        s' = s.setTask p (startContext s.keys s.params tables (s.tasks p) inheritedPenalty))
      ∨ ∃ process, s'.tasks = readjustAllTaskWeights (s.globals tables) [process] s.tasks := by
  cases access with
  | copy current p pid cloneFlags startTime attrs =>
      cases place with
      | away =>
          obtain ⟨rfl, rfl⟩ := Prod.mk.inj (Option.some.inj h)
          exact .inr (.inl ⟨current, p, pid, cloneFlags, startTime, attrs, rfl, rfl⟩)
      | _ => cases h
  | write entry value =>
      cases place with
      | away =>
          have h' : s.writeAccess entry value = (s', place') := Option.some.inj h
          rw [System.writeAccess] at h'
          split at h' <;>
            · obtain ⟨rfl, rfl⟩ := Prod.mk.inj h'
              exact .inl rfl
      | _ => cases h
  | visit t inner =>
      cases place with
      | hub f =>
          obtain ⟨rfl, rfl⟩ := Prod.mk.inj (Option.some.inj h)
          exact .inl rfl
      | scan f bc count total scanCount =>
          obtain ⟨rfl, -⟩ := visit_scan h
          exact .inl rfl
      | readjust =>
          obtain ⟨rfl, rfl⟩ := Prod.mk.inj (Option.some.inj h)
          exact .inr (.inr (.inr (.inr ⟨(t, inner), rfl⟩)))
      | _ => cases h
  | next =>
      cases place with
      | away => cases h
      | hub f => cases h
      | hook f =>
          obtain ⟨rfl, -⟩ := next_hook h
          exact .inl rfl
      | scan f bc count total scanCount =>
          obtain ⟨newBc, hbc, hnext⟩ := Option.map_eq_some_iff.mp h
          obtain ⟨rfl, rfl⟩ := Prod.mk.inj hnext
          exact .inr (.inr (.inl ⟨f, bc, count, total, scanCount, newBc, rfl, rfl, rfl, hbc, rfl⟩))
      | inherits f inheritedPenalty =>
          obtain ⟨rfl, rfl⟩ := Prod.mk.inj (Option.some.inj h)
          exact .inr (.inr (.inr (.inl ⟨f.p, inheritedPenalty, rfl⟩)))
      | typeKeys switches =>
          cases switches <;>
            · obtain ⟨rfl, rfl⟩ := Prod.mk.inj (Option.some.inj h)
              exact .inl rfl
      | _ =>
          obtain ⟨rfl, rfl⟩ := Prod.mk.inj (Option.some.inj h)
          exact .inl rfl

theorem readjust_bore (hrunning : s.Running) (process : ι × NestedCalls) (t : ι) :
    (readjustAllTaskWeights (s.globals tables) [process] s.tasks t).bore = (s.tasks t).bore := by
  rw [readjustAllTaskWeights_eq _ _ hrunning]
  dsimp only
  split <;> rfl

theorem access_running (hrunning : s.Running)
    (h : s.access tables place access = some (s', place')) : s'.Running := by
  rcases access_tasks h with htasks | ⟨current, p, pid, cloneFlags, startTime, attrs, rfl, rfl⟩
    | ⟨f, bc, count, total, scanCount, newBc, rfl, rfl, rfl, -, rfl⟩ | ⟨p, inheritedPenalty, rfl⟩
    | ⟨process, htasks⟩
  · intro t
    rw [htasks]
    exact hrunning t
  · exact System.running_setTask hrunning (hrunning current)
  · refine System.running_setTask hrunning ?_
    cases bc.field <;> exact hrunning bc.owner
  · exact System.running_setTask hrunning (startContext_cache _ _ _ _ _).1
  · intro t
    rw [htasks, readjust_bore hrunning process t]
    exact hrunning t

/-- A cache of a task that is not copied over changes when a scan for it stores. -/
theorem access_cacheAt (hrunning : s.Running)
    (h : s.access tables place access = some (s', place'))
    (hkeep : ∀ current pid cloneFlags startTime attrs,
      access ≠ .copy current bc.owner pid cloneFlags startTime attrs) :
    (∃ f count total scanCount penalty, place = .scan f bc count total scanCount ∧ access = .next
        ∧ place' = .read f bc ∧ s'.cacheAt bc = storedCache f.now penalty)
      ∨ s'.cacheAt bc = s.cacheAt bc := by
  rcases access_tasks h with htasks | ⟨current, p, pid, cloneFlags, startTime, attrs, rfl, rfl⟩
    | ⟨f, bc', count, total, scanCount, newBc, rfl, rfl, rfl, hbc, rfl⟩
    | ⟨p, inheritedPenalty, rfl⟩ | ⟨process, htasks⟩
  · right
    rw [System.cacheAt, System.cacheAt, htasks]
  · right
    have hne : bc.owner ≠ p := by
      rintro rfl
      exact hkeep current pid cloneFlags startTime attrs rfl
    exact congrArg (fun q : Task => q.bore.cache bc.field) (Function.update_of_ne hne _ _)
  · by_cases hsame : bc' = bc
    · subst hsame
      obtain ⟨average, -, hnew⟩ := Option.bind_eq_some_iff.mp hbc
      obtain rfl := Option.some.inj hnew
      exact .inl ⟨f, count, total, scanCount, _, rfl, rfl, rfl, System.cacheAt_store bc' _⟩
    · exact .inr (System.cacheAt_store_other hsame newBc)
  · exact .inr (System.cacheAt_setTask (startContext_cache _ _ _ _ _).2 bc)
  · right
    rw [System.cacheAt, System.cacheAt, htasks, readjust_bore hrunning process bc.owner]

/-- A fork that has found a cache expired has read it before. -/
theorem access_fills (h : s.access tables place access = some (s', place'))
    (hfills : place'.Fills bc) :
    (place.Scans bc ∧ place'.Scans bc)
      ∨ (∃ f, place' = .expiry f bc (s.cacheAt bc))
      ∨ ∃ f bcVal, place = .expiry f bc bcVal ∧ access = .next ∧ place'.Scans bc
        ∧ burstCacheExpired bcVal f.now s.lifetime = true := by
  cases access with
  | copy current p pid cloneFlags startTime attrs =>
      cases place with
      | away =>
          obtain ⟨-, rfl⟩ := Prod.mk.inj (Option.some.inj h)
          split at hfills <;> cases hfills
      | _ => cases h
  | write entry value =>
      cases place with
      | away =>
          have h' : s.writeAccess entry value = _ := Option.some.inj h
          rw [System.writeAccess] at h'
          split at h'
          · obtain ⟨-, rfl⟩ := Prod.mk.inj h'
            cases entry <;> cases hfills
          · obtain ⟨-, rfl⟩ := Prod.mk.inj h'
            cases hfills
      | _ => cases h
  | visit t inner =>
      cases place with
      | scan f bc' count total scanCount =>
          obtain ⟨-, _, _, _, rfl⟩ := visit_scan h
          exact .inl ⟨hfills, hfills⟩
      | hub f =>
          obtain ⟨-, rfl⟩ := Prod.mk.inj (Option.some.inj h)
          cases hfills
      | readjust =>
          obtain ⟨-, rfl⟩ := Prod.mk.inj (Option.some.inj h)
          cases hfills
      | _ => cases h
  | next =>
      cases place with
      | check f bc' =>
          obtain ⟨-, rfl⟩ := Prod.mk.inj (Option.some.inj h)
          obtain rfl : bc' = bc := hfills
          exact .inr (.inl ⟨f, rfl⟩)
      | expiry f bc' bcVal =>
          obtain ⟨-, rfl⟩ := Prod.mk.inj (Option.some.inj h)
          split at hfills
          · next hexpired =>
              obtain rfl : bc' = bc := hfills
              rw [if_pos hexpired]
              exact .inr (.inr ⟨f, bcVal, rfl, rfl, rfl, hexpired⟩)
          · cases hfills
      | away => cases h
      | hub f => cases h
      | hook f =>
          obtain ⟨-, rfl | rfl | rfl⟩ := next_hook h <;> cases hfills
      | scan f bc' count total scanCount =>
          obtain ⟨newBc, -, hnext⟩ := Option.map_eq_some_iff.mp h
          obtain ⟨-, rfl⟩ := Prod.mk.inj hnext
          cases hfills
      | typeKeys switches =>
          cases switches <;>
            · obtain ⟨-, rfl⟩ := Prod.mk.inj (Option.some.inj h)
              cases hfills
      | _ =>
          obtain ⟨-, rfl⟩ := Prod.mk.inj (Option.some.inj h)
          first | cases hfills | (split at hfills <;> cases hfills)

end Accesses

theorem toNat_storedTimestamp (now : U64) (penalty : U16) :
    (storedCache now penalty).timestamp.toNat = now.toNat / 2 ^ 16 := by
  rw [(stored_fields now penalty).1, BitVec.toNat_ushiftRight, Nat.shiftRight_eq_div_pow]
  rfl

/-- A timestamp that is not in the future: the age does not wrap. -/
theorem burstCacheExpired_iff {bc : BoreBc} {now : U64}
    (hpast : bc.timestamp.toNat ≤ now.toNat / 2 ^ 16) (lifetime : U32) :
    burstCacheExpired bc now lifetime = true
      ↔ lifetime.toNat < now.toNat - bc.timestamp.toNat * 2 ^ 16 := by
  have hnow := now.isLt
  have hshift : (bc.timestamp <<< BORE_BC_TIMESTAMP_SHIFT).toNat
      = bc.timestamp.toNat * 2 ^ 16 := by
    rw [BitVec.toNat_shiftLeft, Nat.shiftLeft_eq, BORE_BC_TIMESTAMP_SHIFT]
    exact Nat.mod_eq_of_lt (by omega)
  have hle : bc.timestamp <<< BORE_BC_TIMESTAMP_SHIFT ≤ now := by
    rw [BitVec.le_def, hshift]
    omega
  have hlife : (lifetime.setWidth 64).toNat = lifetime.toNat :=
    BitVec.toNat_setWidth_of_le (by decide)
  rw [burstCacheExpired, decide_eq_true_iff, gt_iff_lt, BitVec.lt_def,
    BitVec.toNat_sub_of_le hle, hshift, hlife]

namespace Smp

/-- The fork of this time stores into the cache. -/
def Stores (s : Smp κ ι) (move : Move κ ι) (bc : CachePtr ι) (now : U64) : Prop :=
  ∃ cpu f count total scanCount, move = .access cpu .next
    ∧ s.places cpu = .scan f bc count total scanCount ∧ f.now = now

/-- The fork of this time compares what it has read of the cache with the lifetime. -/
def Checks (s : Smp κ ι) (move : Move κ ι) (bc : CachePtr ι) (now : U64) : Prop :=
  ∃ cpu f bcVal, move = .access cpu .next ∧ s.places cpu = .expiry f bc bcVal ∧ f.now = now

section Window

variable [DecidableEq κ] [DecidableEq ι] {tables : PrioTables} {s s' : Smp κ ι}
  {move : Move κ ι} {bc : CachePtr ι}

theorem event_cacheAt {event : Event ι} (hrunning : s.sys.Running)
    (hstep : s.step tables (.event event) = some s') (hkeep : ¬event.Resets bc.owner) :
    s'.sys.cacheAt bc = s.sys.cacheAt bc := by
  obtain ⟨sys, hsys, rfl⟩ := event_step hstep
  cases event with
  | fork current p pid cloneFlags startTime attrs tree => cases hstep
  | sysctl entry value processes => cases hstep
  | updateCurr t deltaExec inner =>
      obtain rfl := Option.some.inj hsys
      exact System.cacheAt_setTask (fun field => updateCurrBore_cache (hrunning t) field) bc
  | restartBurst t inner =>
      obtain rfl := Option.some.inj hsys
      exact System.cacheAt_setTask (fun field => restartBurstBore_cache (hrunning t) field) bc
  | futexWait t waiting =>
      obtain rfl := Option.some.inj hsys
      exact System.cacheAt_setTask (fun field => by cases field <;> rfl) bc
  | switchedToFair t =>
      obtain rfl := Option.some.inj hsys
      have hne : bc.owner ≠ t := fun h => hkeep h.symm
      exact congrArg (fun p : Task => p.bore.cache bc.field) (Function.update_of_ne hne _ _)
  | kernel tree attrs =>
      obtain rfl := Option.some.inj hsys
      rfl

theorem step_running (hrunning : s.sys.Running) (hstep : s.step tables move = some s') :
    s'.sys.Running := by
  cases move with
  | event event =>
      obtain ⟨sys, hsys, rfl⟩ := event_step hstep
      exact System.step_running hrunning hsys
  | access cpu access =>
      obtain ⟨⟨sys, place⟩, haccess, rfl⟩ := Option.map_eq_some_iff.mp hstep
      exact access_running hrunning haccess

/-- A step leaves a cache alone unless it resets the task or stores. -/
theorem step_cacheAt (hrunning : s.sys.Running) (hstep : s.step tables move = some s')
    (hkeep : ¬move.Resets bc.owner) :
    (∃ now penalty, s.Stores move bc now ∧ s'.sys.cacheAt bc = storedCache now penalty)
      ∨ s'.sys.cacheAt bc = s.sys.cacheAt bc := by
  cases move with
  | event event => exact .inr (event_cacheAt hrunning hstep hkeep)
  | access cpu access =>
      obtain ⟨⟨sys, place⟩, haccess, rfl⟩ := Option.map_eq_some_iff.mp hstep
      have hcopy : ∀ current pid cloneFlags startTime attrs,
          access ≠ .copy current bc.owner pid cloneFlags startTime attrs := by
        rintro current pid cloneFlags startTime attrs rfl
        exact hkeep rfl
      rcases access_cacheAt hrunning haccess hcopy with
        ⟨f, count, total, scanCount, penalty, hplace, rfl, -, hcache⟩ | hcache
      · exact .inl ⟨f.now, penalty, ⟨cpu, f, count, total, scanCount, rfl, hplace, rfl⟩, hcache⟩
      · exact .inr hcache

/-- What a step makes of a place that is about to store into a cache, or may be. -/
theorem step_fills (hstep : s.step tables move = some s') {cpu : κ}
    (hfills : (s'.places cpu).Fills bc) :
    s'.places cpu = s.places cpu
      ∨ ((s.places cpu).Scans bc ∧ (s'.places cpu).Scans bc)
      ∨ (∃ f, s'.places cpu = .expiry f bc (s.sys.cacheAt bc))
      ∨ ∃ f bcVal, s.places cpu = .expiry f bc bcVal ∧ s.Checks move bc f.now
        ∧ (s'.places cpu).Scans bc ∧ burstCacheExpired bcVal f.now s.sys.lifetime = true := by
  cases move with
  | event event => exact .inl (congrFun (event_keys hstep).1 cpu)
  | access cpu' access =>
      obtain ⟨⟨sys, place⟩, haccess, rfl⟩ := Option.map_eq_some_iff.mp hstep
      by_cases hcpu : cpu = cpu'
      · subst hcpu
        dsimp only at hfills ⊢
        rw [Function.update_self] at hfills ⊢
        rcases access_fills haccess hfills with hboth | ⟨f, hread⟩
          | ⟨f, bcVal, hexpiry, rfl, hscans, hexpired⟩
        · exact .inr (.inl hboth)
        · exact .inr (.inr (.inl ⟨f, hread⟩))
        · exact .inr (.inr (.inr ⟨f, bcVal, hexpiry, ⟨cpu, f, bcVal, rfl, hexpiry, rfl⟩, hscans,
            hexpired⟩))
      · exact .inl (Function.update_of_ne hcpu _ _)

end Window

/-! ### After a store -/

section Store

variable [DecidableEq κ] [DecidableEq ι] {tables : PrioTables} {s₀ s t : Smp κ ι} {cpu cpu' : κ}
  {f f' : ForkCall ι} {bc : CachePtr ι} {count scanCount : Nat} {total : U32}
  {moves : List (Move κ ι)}

/-- The fork that stores goes on to read. -/
theorem store_step (hscan : s₀.places cpu = .scan f bc count total scanCount)
    (hstep : s₀.step tables (.access cpu .next) = some s) :
    (∃ penalty, s.sys.cacheAt bc = storedCache f.now penalty)
      ∧ s.places = Function.update s₀.places cpu (.read f bc) := by
  obtain ⟨⟨sys, place⟩, haccess, rfl⟩ := Option.map_eq_some_iff.mp hstep
  rw [hscan] at haccess
  obtain ⟨newBc, hbc, hnext⟩ := Option.map_eq_some_iff.mp haccess
  obtain ⟨rfl, rfl⟩ := Prod.mk.inj hnext
  obtain ⟨average, -, hnew⟩ := Option.bind_eq_some_iff.mp hbc
  obtain rfl := Option.some.inj hnew
  exact ⟨⟨_, System.cacheAt_store bc _⟩, rfl⟩

theorem check_step (hcheck : s.places cpu = .check f bc)
    (hstep : s.step tables (.access cpu .next) = some t) :
    t.places cpu = .expiry f bc (s.sys.cacheAt bc) := by
  obtain ⟨next, hnext, rfl⟩ := Option.map_eq_some_iff.mp hstep
  rw [hcheck] at hnext
  obtain rfl := Option.some.inj hnext
  exact Function.update_self ..

/-- The task of a cache is not reset, and forks that store into the cache have times from `t₁`
to `t₂`. -/
structure Between (bc : CachePtr ι) (t₁ t₂ : U64) (s : Smp κ ι) (move : Move κ ι) : Prop where
  keep : ¬move.Resets bc.owner
  clock : ∀ now, s.Stores move bc now → t₁ ≤ now ∧ now ≤ t₂

/-- The timestamp is from between `t₁` and `t₂`. -/
def StampBetween (t₁ t₂ : U64) (bc : BoreBc) : Prop :=
  t₁.toNat / 2 ^ 16 ≤ bc.timestamp.toNat ∧ bc.timestamp.toNat ≤ t₂.toNat / 2 ^ 16

theorem stampBetween_stored {t₁ t₂ now : U64} (hlow : t₁ ≤ now) (hhigh : now ≤ t₂)
    (penalty : U16) : StampBetween t₁ t₂ (storedCache now penalty) := by
  rw [StampBetween, toNat_storedTimestamp]
  exact ⟨Nat.div_le_div_right hlow, Nat.div_le_div_right hhigh⟩

/-- **After a store the cache lasts its lifetime**, less the 65535 ns that its timestamp rounds
away: a fork that comes later, reads the cache after the store and finds it expired comes after
that. -/
theorem rescans_apart {bcVal : BoreBc} (hrunning : s₀.sys.Running)
    (hscan : s₀.places cpu = .scan f bc count total scanCount)
    (hstore : s₀.step tables (.access cpu .next) = some s)
    (hunread : ∀ bcVal, s.places cpu' ≠ .expiry f' bc bcVal)
    (hbetween : Lts.Along (Smp.step tables) (Between bc f.now f'.now) s moves)
    (hrun : Lts.run (Smp.step tables) s moves = some t) (hle : f.now ≤ f'.now)
    (hread : t.places cpu' = .expiry f' bc bcVal)
    (hrescan : ∃ t', t.step tables (.access cpu' .next) = some t' ∧ (t'.places cpu').Scans bc) :
    t.sys.lifetime.toNat < f'.now.toNat - f.now.toNat / 2 ^ 16 * 2 ^ 16 := by
  obtain ⟨penalty, hstored⟩ := (store_step hscan hstore).1
  -- the timestamp stays between the two times, also the one that the fork has read
  have hstamp : t.sys.Running ∧ StampBetween f.now f'.now (t.sys.cacheAt bc)
      ∧ ∀ bcVal, t.places cpu' = .expiry f' bc bcVal → StampBetween f.now f'.now bcVal := by
    refine Lts.run_invariant_along (I := fun u : Smp κ ι => u.sys.Running
        ∧ StampBetween f.now f'.now (u.sys.cacheAt bc)
        ∧ ∀ bcVal, u.places cpu' = .expiry f' bc bcVal → StampBetween f.now f'.now bcVal)
      (Between bc f.now f'.now) (fun u move u' h hgood hu' => ?_) ?_ hbetween hrun
    · obtain ⟨hurunning, hcache, hexpiry⟩ := h
      refine ⟨step_running hurunning hu', ?_, fun bcVal hplace => ?_⟩
      · rcases step_cacheAt hurunning hu' hgood.keep with ⟨now, penalty, hstores, hnew⟩ | hsame
        · obtain ⟨hlow, hhigh⟩ := hgood.clock now hstores
          rw [hnew]
          exact stampBetween_stored hlow hhigh penalty
        · rw [hsame]
          exact hcache
      · have hfills : (u'.places cpu').Fills bc := by
          rw [hplace]
          rfl
        rcases step_fills hu' hfills with hsame | ⟨-, hscans⟩ | ⟨f'', hnow⟩
          | ⟨_, _, _, _, hscans, _⟩
        · exact hexpiry bcVal (hsame.symm.trans hplace)
        · rw [hplace] at hscans
          cases hscans
        · rw [hplace] at hnow
          cases hnow
          exact hcache
        · rw [hplace] at hscans
          cases hscans
    · rw [hstored]
      exact ⟨step_running hrunning hstore, stampBetween_stored (Nat.le_refl _) hle penalty,
        fun bcVal hplace => absurd hplace (hunread bcVal)⟩
  obtain ⟨hlow, hhigh⟩ := hstamp.2.2 bcVal hread
  obtain ⟨t', ht', hscans⟩ := hrescan
  have hexpired : burstCacheExpired bcVal f'.now t.sys.lifetime = true := by
    rcases step_fills ht' hscans.fills with hsame | ⟨hscans', -⟩ | ⟨_, hnow⟩
      | ⟨f'', bcVal', hplace, -, -, hexpired⟩
    · rw [hsame, hread] at hscans
      cases hscans
    · rw [hread] at hscans'
      cases hscans'
    · rw [hnow] at hscans
      cases hscans
    · cases hread.symm.trans hplace
      exact hexpired
  rw [burstCacheExpired_iff hhigh] at hexpired
  exact Nat.lt_of_lt_of_le hexpired (Nat.sub_le_sub_left (Nat.mul_le_mul_right _ hlow) _)

/-- The task of a cache is not reset, and forks that check the cache come while what was stored
at `t₁` lives. -/
structure WhileAlive (bc : CachePtr ι) (t₁ : U64) (s : Smp κ ι) (move : Move κ ι) : Prop where
  keep : ¬move.Resets bc.owner
  alive : ∀ now, s.Checks move bc now →
    t₁ ≤ now ∧ now.toNat - t₁.toNat / 2 ^ 16 * 2 ^ 16 ≤ s.sys.lifetime.toNat

/-- **A cache serves everyone the same penalty** while it lives: after a store with no other
fork on its way to one, every fork that reads the cache gets what was stored. -/
theorem cache_serves (hrunning : s₀.sys.Running)
    (hscan : s₀.places cpu = .scan f bc count total scanCount)
    (hothers : ∀ c ≠ cpu, ¬(s₀.places c).Fills bc)
    (hstore : s₀.step tables (.access cpu .next) = some s)
    (halive : Lts.Along (Smp.step tables) (WhileAlive bc f.now) s moves)
    (hrun : Lts.run (Smp.step tables) s moves = some t) (hread : t.places cpu' = .read f' bc) :
    ∃ t', t.step tables (.access cpu' .next) = some t'
      ∧ t'.places cpu' = .inherits f' ((s.sys.cacheAt bc).penalty.setWidth 32) := by
  obtain ⟨⟨penalty, hstored⟩, hplaces⟩ := store_step hscan hstore
  have hnone : ∀ c, ¬(s.places c).Fills bc := by
    intro c
    rw [hplaces]
    by_cases hc : c = cpu
    · rw [hc, Function.update_self]
      exact id
    · rw [Function.update_of_ne hc]
      exact hothers c hc
  -- the cache stays as it is, and whoever might store has read it so
  have hcache : t.sys.Running ∧ t.sys.cacheAt bc = s.sys.cacheAt bc
      ∧ ∀ c, (t.places c).Fills bc → ∃ f, t.places c = .expiry f bc (s.sys.cacheAt bc) := by
    refine Lts.run_invariant_along (I := fun u : Smp κ ι => u.sys.Running
        ∧ u.sys.cacheAt bc = s.sys.cacheAt bc
        ∧ ∀ c, (u.places c).Fills bc → ∃ f, u.places c = .expiry f bc (s.sys.cacheAt bc))
      (WhileAlive bc f.now) (fun u move u' h hgood hu' => ?_)
      ⟨step_running hrunning hstore, rfl, fun c hfills => absurd hfills (hnone c)⟩ halive hrun
    obtain ⟨hurunning, hucache, hufills⟩ := h
    have hnoScan : ∀ c, ¬(u.places c).Scans bc := by
      intro c hscans
      obtain ⟨f, hplace⟩ := hufills c hscans.fills
      rw [hplace] at hscans
      cases hscans
    refine ⟨step_running hurunning hu', ?_, fun c hfills => ?_⟩
    · rcases step_cacheAt hurunning hu' hgood.keep with
        ⟨now, _, ⟨c, f, count, total, scanCount, -, hplace, -⟩, -⟩ | hsame
      · refine absurd ?_ (hnoScan c)
        rw [hplace]
        rfl
      · exact hsame.trans hucache
    · rcases step_fills hu' hfills with hsame | ⟨hscans, -⟩ | ⟨f', hnow⟩
        | ⟨f', bcVal, hplace, hchecks, -, hexpired⟩
      · rw [hsame] at hfills ⊢
        exact hufills c hfills
      · exact absurd hscans (hnoScan c)
      · rw [hucache] at hnow
        exact ⟨f', hnow⟩
      · have hfills' : (u.places c).Fills bc := by
          rw [hplace]
          rfl
        obtain ⟨_, hplace'⟩ := hufills c hfills'
        cases hplace.symm.trans hplace'
        obtain ⟨hlow, hlife⟩ := hgood.alive f'.now hchecks
        rw [hstored, burstCacheExpired_iff (stampBetween_stored (Nat.le_refl _) hlow penalty).2,
          toNat_storedTimestamp] at hexpired
        omega
  refine ⟨⟨t.sys, Function.update t.places cpu' (.inherits f'
    ((t.sys.cacheAt bc).penalty.setWidth 32))⟩, ?_, ?_⟩
  · rw [step, hread]
    rfl
  · rw [hcache.2.1]
    exact Function.update_self ..

end Store

end Smp

/-- Two tasks below a shell, and the ones that they are about to fork. -/
inductive PairTask where
  | shell
  | left
  | right
  | leftChild
  | rightChild
deriving DecidableEq, Repr

def pairTree : ProcessTree PairTask where
  realParent
    | .left => .shell
    | .right => .shell
    | t => t
  children
    | .shell => [.left, .right]
    | _ => []
  groupLeader := id
  threads t := [t]
  depth
    | .left => 1
    | .right => 1
    | _ => 0
  height := 1
  depth_lt t := by cases t <;> decide
  depth_le t := by cases t <;> decide
  parent_of_mem p c := by cases p <;> cases c <;> decide
  children_nodup p := by cases p <;> decide

def leftFork : ForkCall PairTask := ⟨.leftChild, .left, ⟨false, false⟩, 1000000000⟩

def rightFork (later : U64) : ForkCall PairTask := ⟨.rightChild, .right, ⟨false, false⟩, later⟩

def shellCache : CachePtr PairTask := ⟨.shell, .subtree⟩

/-- The left task has scanned the shell's children, and the right one is about to check the
shell's cache. -/
def pairFork (later : U64) : Smp Bool PairTask where
  sys :=
    { tree := pairTree, tasks := fun _ => userTask .zero, params := schedInitBore.1
      keys := schedInitBore.2 }
  places cpu :=
    if cpu then .check (rightFork later) shellCache else .scan leftFork shellCache 2 0 2

namespace Smp

theorem pairFork_running (later : U64) : (pairFork later).sys.Running := fun _ => rfl

theorem pairFork_scans (later : U64) :
    (pairFork later).places false = .scan leftFork shellCache 2 0 2 := rfl

theorem pairFork_stored {later : U64} {s : Smp Bool PairTask}
    (hstore : (pairFork later).step kernelTables (.access false .next) = some s) :
    s.places true = .check (rightFork later) shellCache := by
  rw [(store_step (pairFork_scans later) hstore).2]
  rfl

/-- The right task comes a second later and scans again. -/
theorem rescans_apart_pair :
    ∃ s t, (pairFork 2000000000).step kernelTables (.access false .next) = some s
      ∧ Lts.run (Smp.step kernelTables) s [.event (.futexWait .left true), .access true .next]
        = some t
      ∧ t.sys.lifetime.toNat
        < (rightFork 2000000000).now.toNat - leftFork.now.toNat / 2 ^ 16 * 2 ^ 16 := by
  have hrescan : (Lts.run (Smp.step kernelTables) (pairFork 2000000000) [.access false .next,
      .event (.futexWait .left true), .access true .next, .access true .next]).map (·.places true)
        = some (.scan (rightFork 2000000000) shellCache 0 0 0) := by
    decide +kernel
  obtain ⟨t', hrun, hplace⟩ := Option.map_eq_some_iff.mp hrescan
  obtain ⟨s, hstore, hrun⟩ := Lts.run_cons_eq_some.mp hrun
  obtain ⟨u, hwait, hrun⟩ := Lts.run_cons_eq_some.mp hrun
  obtain ⟨t, hread, hrun⟩ := Lts.run_cons_eq_some.mp hrun
  obtain ⟨t'', hcheck, hrun⟩ := Lts.run_cons_eq_some.mp hrun
  obtain rfl := Option.some.inj hrun
  have hs : s.places true = .check (rightFork 2000000000) shellCache := pairFork_stored hstore
  have hu : u.places true = .check (rightFork 2000000000) shellCache :=
    (congrFun (event_keys hwait).1 true).trans hs
  have hruns : Lts.run (Smp.step kernelTables) s
      [.event (.futexWait .left true), .access true .next] = some t :=
    (Lts.run_cons hwait).trans (Lts.run_cons hread)
  have hbetween : Lts.Along (Smp.step kernelTables)
      (Between shellCache leftFork.now (rightFork 2000000000).now) s
      [.event (.futexWait .left true), .access true .next] := by
    refine ⟨⟨id, fun _ ⟨_, _, _, _, _, hmove, _⟩ => by cases hmove⟩, fun v hv =>
      ⟨⟨id, ?_⟩, fun _ _ => trivial⟩⟩
    rintro now ⟨cpu, f, count, total, scanCount, hmove, hscan, -⟩
    cases hmove
    obtain rfl := Option.some.inj (hwait.symm.trans hv)
    cases hu.symm.trans hscan
  have hunread : ∀ bcVal, s.places true ≠ .expiry (rightFork 2000000000) shellCache bcVal :=
    fun bcVal h => by cases hs.symm.trans h
  refine ⟨s, t, hstore, hruns, rescans_apart (pairFork_running _) (pairFork_scans _) hstore hunread
    hbetween hruns (by decide +kernel) (check_step hu hread) ⟨t'', hcheck, ?_⟩⟩
  rw [hplace]
  rfl

/-- 50 ms later it gets what the left one has stored. -/
theorem cache_serves_pair :
    ∃ s t t', (pairFork 1050000000).step kernelTables (.access false .next) = some s
      ∧ Lts.run (Smp.step kernelTables) s [.access true .next, .access true .next] = some t
      ∧ t.step kernelTables (.access true .next) = some t'
      ∧ t'.places true = .inherits (rightFork 1050000000)
        ((s.sys.cacheAt shellCache).penalty.setWidth 32) := by
  have hserve : (Lts.run (Smp.step kernelTables) (pairFork 1050000000)
      [.access false .next, .access true .next, .access true .next]).map (·.places true)
        = some (.read (rightFork 1050000000) shellCache) := by
    decide +kernel
  have hlifetime : (Lts.run (Smp.step kernelTables) (pairFork 1050000000)
      [.access false .next, .access true .next]).map (·.sys.lifetime) = some 75000000 := by
    decide +kernel
  obtain ⟨t, hrun, hplace⟩ := Option.map_eq_some_iff.mp hserve
  obtain ⟨s, hstore, hrun⟩ := Lts.run_cons_eq_some.mp hrun
  obtain ⟨u, hread, hrun'⟩ := Lts.run_cons_eq_some.mp hrun
  have hs : s.places true = .check (rightFork 1050000000) shellCache := pairFork_stored hstore
  have hu : u.places true
      = .expiry (rightFork 1050000000) shellCache (s.sys.cacheAt shellCache) :=
    check_step hs hread
  have halive : Lts.Along (Smp.step kernelTables) (WhileAlive shellCache leftFork.now) s
      [.access true .next, .access true .next] := by
    refine ⟨⟨id, ?_⟩, fun v hv => ⟨⟨id, ?_⟩, fun _ _ => trivial⟩⟩
    · rintro now ⟨cpu, f, bcVal, hmove, hexpiry, -⟩
      cases hmove
      cases hs.symm.trans hexpiry
    · obtain rfl := Option.some.inj (hread.symm.trans hv)
      rintro now ⟨cpu, f, bcVal, hmove, hexpiry, rfl⟩
      cases hmove
      cases hu.symm.trans hexpiry
      rw [Lts.run_cons hstore, Lts.run_cons hread] at hlifetime
      rw [show u.sys.lifetime = 75000000 from Option.some.inj hlifetime]
      decide +kernel
  have hothers : ∀ c ≠ false, ¬((pairFork 1050000000).places c).Fills shellCache := by
    rintro (_ | _) hne
    · exact absurd rfl hne
    · exact id
  obtain ⟨t', ht', hserved⟩ := cache_serves (pairFork_running _) (pairFork_scans _) hothers hstore
    halive hrun hplace
  exact ⟨s, t, t', hstore, hrun, ht', hserved⟩

end Smp

end Rustlux.BoreC
