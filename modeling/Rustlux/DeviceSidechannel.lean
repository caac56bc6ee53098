import Rustlux.Noninterference
import Rustlux.Prim

/-!
# The device side channel

`device_sidechannel_restrict` of the hardened kernel: the access and
modification times of a device node that everybody may open tell when keys are
pressed. `generic_fillattr`, `fill_mg_cmtime` and `vfs_getattr_nosec` give its
change time in their place to callers without `CAP_MKNOD`, and `fsnotify_file`
keeps silent about reads and writes of it.

The change time itself is shown. A read or a write of a terminal leaves it alone,
one that also moves it, such as a write of a block device, is seen in it.

While nobody with `CAP_SYS_ADMIN` switches the restriction off and the node
stays such a device, an unprivileged observer sees the same whatever reads and
writes that leave the change time alone take place (`accesses_unseen`).
-/

namespace Rustlux.Sidechannel

/-! ## The source -/

structure Timespec64 where
  tvSec : Int
  tvNsec : U32
deriving DecidableEq, Repr

/-- `struct inode`: `attrs` is what a stat copies besides mode and times, and
`ctimeQueried` the bit `I_CTIME_QUERIED` of `i_ctime_nsec`. -/
structure Inode (γ : Type) where
  iMode : U16
  attrs : γ
  isMgtime : Bool
  atime : Timespec64
  mtime : Timespec64
  ctime : Timespec64
  ctimeQueried : Bool
deriving DecidableEq, Repr

structure Kstat (γ : Type) where
  mode : U16
  attrs : γ
  atime : Timespec64
  mtime : Timespec64
  ctime : Timespec64
deriving DecidableEq, Repr

/-- `current` and the mask of a call: `wanted` says that the mask asks for the
change or the modification time. -/
structure GetattrCall where
  deviceSidechannelRestrict : Int
  capMknod : Bool
  wanted : Bool

/-- An `i_op->getattr`: its error or stat, and the inode afterwards. -/
abbrev Getattr (γ : Type) := GetattrCall → Inode γ → Kstat γ → Except Int (Kstat γ) × Inode γ

def EPERM : Int := 1
def EINVAL : Int := 22

/-- `S_ISCHR`. -/
def sIschr (mode : U16) : Bool := mode &&& 0o170000 == 0o020000

/-- `S_ISBLK`. -/
def sIsblk (mode : U16) : Bool := mode &&& 0o170000 == 0o060000

/-- `S_IROTH | S_IWOTH`. -/
def sIrwoth : U16 := 0o4 ||| 0o2

/-- `FS_ACCESS | FS_MODIFY`. -/
def fsAccessModify : U32 := 1 ||| 2

section Code

variable {γ : Type}

/-- The test of `is_sidechannel_device` on the mode. -/
def isSidechannelMode (mode : U16) : Bool :=
  (sIschr mode || sIsblk mode) && mode &&& sIrwoth != 0

def isSidechannelDevice (deviceSidechannelRestrict : Int) (inode : Inode γ) : Bool :=
  if deviceSidechannelRestrict = 0 then false
  else isSidechannelMode inode.iMode

/-- `is_sidechannel_device(inode) && !capable_noaudit(CAP_MKNOD)`. -/
def GetattrCall.restricted (call : GetattrCall) (inode : Inode γ) : Bool :=
  isSidechannelDevice call.deviceSidechannelRestrict inode && !call.capMknod

def fillMgCmtime (call : GetattrCall) (inode : Inode γ) (stat : Kstat γ) : Kstat γ × Inode γ :=
  if !call.wanted then (stat, inode)
  else
    let stat :=
      if call.restricted inode then { stat with mtime := inode.ctime }
      else { stat with mtime := inode.mtime }
    ({ stat with ctime := inode.ctime }, { inode with ctimeQueried := true })

def genericFillattr (call : GetattrCall) (inode : Inode γ) (stat : Kstat γ) :
    Kstat γ × Inode γ :=
  let stat := { stat with mode := inode.iMode, attrs := inode.attrs }
  let sidechannelDevice := call.restricted inode
  let stat :=
    if sidechannelDevice then { stat with atime := inode.ctime }
    else { stat with atime := inode.atime }
  if inode.isMgtime then fillMgCmtime call inode stat
  else
    let stat := { stat with ctime := inode.ctime }
    if sidechannelDevice then ({ stat with mtime := inode.ctime }, inode)
    else ({ stat with mtime := inode.mtime }, inode)

/-- With the stat that the caller has cleared. -/
def vfsGetattrNosec (getattr : Option (Getattr γ)) (call : GetattrCall) (inode : Inode γ)
    (stat : Kstat γ) : Except Int (Kstat γ) × Inode γ :=
  match getattr with
  | some getattr =>
      match getattr call inode stat with
      | (.ok stat, inode) =>
          if call.restricted inode then
            (.ok { stat with atime := stat.ctime, mtime := stat.ctime }, inode)
          else (.ok stat, inode)
      | (.error err, inode) => (.error err, inode)
  | none =>
      let (stat, inode) := genericFillattr call inode stat
      (.ok stat, inode)

/-- Whether the call gets to `fsnotify_path`; `fmodeNone` is
`FMODE_FSNOTIFY_NONE(file->f_mode)`. -/
def fsnotifyFile (deviceSidechannelRestrict : Int) (inode : Inode γ) (fmodeNone : Bool)
    (mask : U32) : Bool :=
  if fmodeNone then false
  else if mask &&& fsAccessModify != 0 && isSidechannelDevice deviceSidechannelRestrict inode then
    false
  else true

/-- A write of the sysctl, with the value that it parses. -/
def procDointvecMinmaxSysadmin (capSysAdmin : Bool) (value data : Int) : Int × Int :=
  if !capSysAdmin then (-EPERM, data)
  else if 0 ≤ value ∧ value ≤ 1 then (0, value)
  else (-EINVAL, data)

/-- A new change time, which nobody has queried. -/
def Inode.touch (inode : Inode γ) : Option Timespec64 → Inode γ
  | some ctime => { inode with ctime, ctimeQueried := false }
  | none => inode

/-- The node and the sysctl. -/
structure DeviceState (γ : Type) where
  inode : Inode γ
  deviceSidechannelRestrict : Int
deriving DecidableEq, Repr

inductive DeviceEvent (γ : Type) where
  /-- Somebody uses the device: its times move, the change time perhaps among them, and the
  watchers are notified. -/
  | use (atime mtime : Timespec64) (ctime : Option Timespec64) (fmodeNone : Bool) (mask : U32)
  | getattr (capMknod wanted : Bool)
  /-- A `chmod` or the like, which sets the change time. -/
  | change (mode : U16) (attrs : γ) (ctime : Timespec64)
  | writeRestrict (capSysAdmin : Bool) (value : Int)

/-- What comes before an observer without `CAP_MKNOD`. -/
inductive Sight (γ : Type) where
  | stat (result : Except Int (Kstat γ))
  | notified (mask : U32)
  | written (ret : Int)
deriving DecidableEq, Repr

def DeviceState.step (getattr : Option (Getattr γ)) (blank : Kstat γ) (s : DeviceState γ)
    (event : DeviceEvent γ) : List (Sight γ) × DeviceState γ :=
  match event with
  | .use atime mtime ctime fmodeNone mask =>
      (if fsnotifyFile s.deviceSidechannelRestrict s.inode fmodeNone mask then [.notified mask]
        else [],
        { s with inode := { s.inode with atime, mtime }.touch ctime })
  | .getattr capMknod wanted =>
      let (result, inode) :=
        vfsGetattrNosec getattr ⟨s.deviceSidechannelRestrict, capMknod, wanted⟩ s.inode blank
      (if capMknod then [] else [.stat result], { s with inode })
  | .change mode attrs ctime =>
      ([], { s with inode := { s.inode with iMode := mode, attrs }.touch (some ctime) })
  | .writeRestrict capSysAdmin value =>
      let (ret, data) := procDointvecMinmaxSysadmin capSysAdmin value s.deviceSidechannelRestrict
      ([.written ret], { s with deviceSidechannelRestrict := data })

end Code

/-! ## What an observer may tell apart -/

section Views

variable {γ : Type}

def Inode.untimed (inode : Inode γ) : Inode γ :=
  { inode with atime := ⟨0, 0⟩, mtime := ⟨0, 0⟩ }

def Kstat.untimed (stat : Kstat γ) : Kstat γ := { stat with atime := ⟨0, 0⟩, mtime := ⟨0, 0⟩ }

/-- An operation that leaves the inode alone but for the mark on its change time,
and whose answers depend on the access and modification times in these alone. -/
structure Getattr.Blind (getattr : Getattr γ) : Prop where
  leaves : ∀ call inode stat, ∃ queried,
    (getattr call inode stat).2 = { inode with ctimeQueried := queried }
  alike : ∀ call (inode inode' : Inode γ) stat, inode.untimed = inode'.untimed →
    (getattr call inode stat).1.map Kstat.untimed = (getattr call inode' stat).1.map Kstat.untimed
      ∧ (getattr call inode stat).2.ctimeQueried = (getattr call inode' stat).2.ctimeQueried

/-- A read or a write of the device that leaves its change time alone. -/
def DeviceEvent.isAccess : DeviceEvent γ → Bool
  | .use _ _ ctime _ mask => ctime.isNone && mask &&& fsAccessModify != 0
  | _ => false

/-- The event leaves the device restricted. -/
def DeviceEvent.KeepsRestricted : DeviceEvent γ → Prop
  | .change mode _ _ => isSidechannelMode mode = true
  | .writeRestrict capSysAdmin value => capSysAdmin = true → value ≠ 0
  | _ => True

def DeviceState.Restricted (s : DeviceState γ) : Prop :=
  isSidechannelDevice s.deviceSidechannelRestrict s.inode = true

/-- Two states of a restricted device that differ in its times alone. -/
structure DeviceState.Alike (s t : DeviceState γ) : Prop where
  restricted : s.Restricted
  sysctl : t.deviceSidechannelRestrict = s.deviceSidechannelRestrict
  inode : s.inode.untimed = t.inode.untimed

variable {inode inode' : Inode γ} {s t : DeviceState γ}

theorem Inode.untimed_eq_iff : inode.untimed = inode'.untimed
    ↔ inode' = { inode with atime := inode'.atime, mtime := inode'.mtime } := by
  obtain ⟨mode, attrs, mgtime, atime, mtime, ctime, queried⟩ := inode
  obtain ⟨mode', attrs', mgtime', atime', mtime', ctime', queried'⟩ := inode'
  simp only [Inode.untimed, Inode.mk.injEq]
  constructor
  · rintro ⟨rfl, rfl, rfl, -, -, rfl, rfl⟩
    exact ⟨rfl, rfl, rfl, trivial, trivial, rfl, rfl⟩
  · rintro ⟨rfl, rfl, rfl, -, -, rfl, rfl⟩
    exact ⟨rfl, rfl, rfl, trivial, trivial, rfl, rfl⟩

theorem isSidechannelDevice_iff {restrict : Int} :
    isSidechannelDevice restrict inode = true
      ↔ restrict ≠ 0 ∧ isSidechannelMode inode.iMode = true := by
  unfold isSidechannelDevice
  by_cases h : restrict = 0 <;> simp [h]

/-! ## Stats -/

variable {call : GetattrCall} {stat stat' : Kstat γ} {getattr : Option (Getattr γ)}

theorem restricted_congr (h : inode'.iMode = inode.iMode) :
    call.restricted inode' = call.restricted inode := by
  unfold GetattrCall.restricted isSidechannelDevice
  rw [h]

/-- A stat marks the change time of an inode on a multigrain filesystem. -/
theorem genericFillattr_snd (call : GetattrCall) (inode : Inode γ) (stat : Kstat γ) :
    (genericFillattr call inode stat).2
      = { inode with
          ctimeQueried := if inode.isMgtime && call.wanted then true else inode.ctimeQueried } := by
  unfold genericFillattr fillMgCmtime
  generalize call.restricted inode = restricted
  obtain ⟨mode, attrs, mgtime, atime, mtime, ctime, queried⟩ := inode
  cases mgtime <;> cases call.wanted <;> cases restricted <;> rfl

theorem genericFillattr_blind :
    Getattr.Blind fun call (inode : Inode γ) stat =>
      (.ok (genericFillattr call inode stat).1, (genericFillattr call inode stat).2) where
  leaves call inode stat := ⟨_, genericFillattr_snd call inode stat⟩
  alike call inode inode' stat h := by
    rw [Inode.untimed_eq_iff.mp h]
    have hsame : call.restricted { inode with atime := inode'.atime, mtime := inode'.mtime }
        = call.restricted inode := restricted_congr rfl
    unfold genericFillattr fillMgCmtime
    rw [hsame]
    cases call.restricted inode <;> cases inode.isMgtime <;> cases call.wanted <;> exact ⟨rfl, rfl⟩

/-- To a restricted caller the filled stat says nothing of the two times. -/
theorem genericFillattr_restricted (hrestricted : call.restricted inode = true)
    (h : inode.untimed = inode'.untimed) :
    (genericFillattr call inode stat).1 = (genericFillattr call inode' stat).1 := by
  rw [Inode.untimed_eq_iff.mp h]
  have hsame : call.restricted { inode with atime := inode'.atime, mtime := inode'.mtime }
      = true := (restricted_congr rfl).trans hrestricted
  unfold genericFillattr fillMgCmtime
  rw [hsame, hrestricted]
  cases inode.isMgtime <;> cases call.wanted <;> rfl

def Kstat.atCtime (stat : Kstat γ) : Kstat γ :=
  { stat with atime := stat.ctime, mtime := stat.ctime }

theorem atCtime_congr (h : stat.untimed = stat'.untimed) : stat.atCtime = stat'.atCtime := by
  obtain ⟨mode, attrs, atime, mtime, ctime⟩ := stat
  obtain ⟨mode', attrs', atime', mtime', ctime'⟩ := stat'
  obtain ⟨rfl, rfl, -, -, rfl⟩ := Kstat.mk.injEq .. ▸ h
  rfl

/-- What forgets the two times does not tell the answers of a blind operation apart. -/
theorem map_congr {β : Type} {x x' : Except Int (Kstat γ)} {f : Kstat γ → β}
    (h : x.map Kstat.untimed = x'.map Kstat.untimed)
    (hf : ∀ stat stat' : Kstat γ, stat.untimed = stat'.untimed → f stat = f stat') :
    x.map f = x'.map f := by
  cases x with
  | error err =>
      cases x' with
      | error err' =>
          injection h with h
          rw [h]
      | ok stat' => cases h
  | ok stat =>
      cases x' with
      | error err' => cases h
      | ok stat' =>
          injection h with h
          exact congrArg Except.ok (hf stat stat' h)

theorem vfsGetattrNosec_op {op : Getattr γ} (hop : op.Blind) (call : GetattrCall)
    (inode : Inode γ) (stat : Kstat γ) :
    vfsGetattrNosec (some op) call inode stat
      = ((op call inode stat).1.map fun stat =>
            if call.restricted inode then stat.atCtime else stat,
          (op call inode stat).2) := by
  obtain ⟨queried, hafter⟩ := hop.leaves call inode stat
  have hsame : call.restricted (op call inode stat).2 = call.restricted inode :=
    restricted_congr (by rw [hafter])
  rw [vfsGetattrNosec, ← hsame]
  obtain ⟨err | stat', inode'⟩ := op call inode stat
  · rfl
  · cases hr : call.restricted inode' <;> simp [hr, Except.map, Kstat.atCtime]

theorem vfsGetattrNosec_blind (hblind : ∀ op ∈ getattr, Getattr.Blind op) :
    Getattr.Blind (vfsGetattrNosec (γ := γ) getattr) := by
  cases getattr with
  | none => exact genericFillattr_blind
  | some op =>
      have hop := hblind op rfl
      refine ⟨fun call inode stat => ?_, fun call inode inode' stat h => ?_⟩
      · rw [vfsGetattrNosec_op hop]
        exact hop.leaves call inode stat
      · obtain ⟨hresult, hqueried⟩ := hop.alike call inode inode' stat h
        have hsame : call.restricted inode' = call.restricted inode :=
          restricted_congr (by rw [Inode.untimed_eq_iff.mp h])
        have hmap : ∀ (f : Kstat γ → Kstat γ) (x : Except Int (Kstat γ)),
            (x.map f).map Kstat.untimed = x.map fun stat => (f stat).untimed := by
          rintro f (err | stat) <;> rfl
        rw [vfsGetattrNosec_op hop, vfsGetattrNosec_op hop, hsame]
        refine ⟨?_, hqueried⟩
        dsimp only
        rw [hmap, hmap]
        refine map_congr hresult fun stat stat' hstat => ?_
        cases call.restricted inode with
        | false => exact hstat
        | true => exact congrArg Kstat.untimed (atCtime_congr hstat)

/-- Whatever the operation, a restricted caller learns nothing of the two times. -/
theorem vfsGetattrNosec_restricted (hblind : ∀ op ∈ getattr, Getattr.Blind op)
    (hrestricted : call.restricted inode = true) (h : inode.untimed = inode'.untimed) :
    (vfsGetattrNosec getattr call inode stat).1 = (vfsGetattrNosec getattr call inode' stat).1 := by
  cases getattr with
  | none => exact congrArg Except.ok (genericFillattr_restricted hrestricted h)
  | some op =>
      have hop := hblind op rfl
      have hsame : call.restricted inode' = true :=
        (restricted_congr (by rw [Inode.untimed_eq_iff.mp h])).trans hrestricted
      rw [vfsGetattrNosec_op hop, vfsGetattrNosec_op hop, hsame, hrestricted]
      exact map_congr (hop.alike call inode inode' stat h).1 fun _ _ hstat => atCtime_congr hstat

/-! ## Runs -/

section Runs

variable {blank : Kstat γ}

/-- A read or a write does not get to the watchers of a restricted device. -/
theorem fsnotifyFile_access (h : isSidechannelDevice s.deviceSidechannelRestrict s.inode = true)
    {mask : U32} (hmask : (mask &&& fsAccessModify != 0) = true) (fmodeNone : Bool) :
    fsnotifyFile s.deviceSidechannelRestrict s.inode fmodeNone mask = false := by
  unfold fsnotifyFile
  rw [hmask, h]
  cases fmodeNone <;> rfl

/-- The device is still restricted after an event that keeps it so. -/
theorem step_restricted (hblind : ∀ op ∈ getattr, Getattr.Blind op) (h : s.Restricted)
    {event : DeviceEvent γ} (hkeeps : event.KeepsRestricted) :
    (s.step getattr blank event).2.Restricted := by
  obtain ⟨hon, hmode⟩ := isSidechannelDevice_iff.mp h
  refine isSidechannelDevice_iff.mpr ?_
  cases event with
  | use atime mtime ctime fmodeNone mask =>
      refine ⟨hon, ?_⟩
      cases ctime <;> exact hmode
  | getattr capMknod wanted =>
      obtain ⟨queried, hafter⟩ := (vfsGetattrNosec_blind hblind).leaves
        ⟨s.deviceSidechannelRestrict, capMknod, wanted⟩ s.inode blank
      refine ⟨hon, ?_⟩
      rw [DeviceState.step]
      dsimp only
      rw [hafter]
      exact hmode
  | change mode attrs ctime => exact ⟨hon, hkeeps⟩
  | writeRestrict capSysAdmin value =>
      refine ⟨?_, hmode⟩
      rw [DeviceState.step, procDointvecMinmaxSysadmin]
      cases hcap : capSysAdmin with
      | false => exact hon
      | true =>
          by_cases hrange : 0 ≤ value ∧ value ≤ 1
          · rw [if_neg (by simp), if_pos hrange]
            exact hkeeps hcap
          · rw [if_neg (by simp), if_neg hrange]
            exact hon

/-- An event on two states that differ in the times of the device. -/
theorem step_alike (hblind : ∀ op ∈ getattr, Getattr.Blind op) (h : s.Alike t)
    {event : DeviceEvent γ} (hkeeps : event.KeepsRestricted) :
    (s.step getattr blank event).1 = (t.step getattr blank event).1
      ∧ (s.step getattr blank event).2.Alike (t.step getattr blank event).2 := by
  have hafter : (s.step getattr blank event).2.Restricted :=
    step_restricted hblind h.restricted hkeeps
  obtain ⟨inode, restrict⟩ := s
  obtain ⟨inode', restrict'⟩ := t
  obtain ⟨hrestricted, rfl, hinode⟩ := h
  dsimp only at hinode
  have hinode' := Inode.untimed_eq_iff.mp hinode
  cases event with
  | use atime mtime ctime fmodeNone mask =>
      refine ⟨?_, hafter, rfl, ?_⟩
      · rw [hinode']
        rfl
      · rw [hinode']
        cases ctime <;> rfl
  | getattr capMknod wanted =>
      have hvfs := vfsGetattrNosec_blind hblind
      obtain ⟨queried, hleft⟩ := hvfs.leaves ⟨restrict', capMknod, wanted⟩ inode blank
      obtain ⟨queried', hleft'⟩ := hvfs.leaves ⟨restrict', capMknod, wanted⟩ inode' blank
      obtain ⟨-, hmark⟩ := hvfs.alike ⟨restrict', capMknod, wanted⟩ inode inode' blank hinode
      refine ⟨?_, hafter, rfl, ?_⟩
      · rw [DeviceState.step, DeviceState.step]
        cases capMknod with
        | true => rfl
        | false =>
            have hcall : GetattrCall.restricted ⟨restrict', false, wanted⟩ inode = true := by
              unfold GetattrCall.restricted
              rw [show isSidechannelDevice restrict' inode = true from hrestricted]
              rfl
            dsimp only
            rw [vfsGetattrNosec_restricted hblind hcall hinode]
      · rw [DeviceState.step, DeviceState.step]
        dsimp only
        rw [hleft, hleft'] at hmark ⊢
        have hmark' : queried = queried' := hmark
        rw [hmark', hinode']
        rfl
  | change mode attrs ctime =>
      refine ⟨rfl, hafter, rfl, ?_⟩
      rw [hinode']
      rfl
  | writeRestrict capSysAdmin value => exact ⟨rfl, hafter, rfl, hinode⟩

theorem device_unwinds (hblind : ∀ op ∈ getattr, Getattr.Blind op) (blank : Kstat γ) :
    Noninterference.Unwinds (DeviceState.step getattr blank) DeviceEvent.isAccess
      DeviceEvent.KeepsRestricted DeviceState.Alike where
  quiet s t event h hkeeps haccess := by
    cases event with
    | use atime mtime ctime fmodeNone mask =>
        obtain ⟨hleaves, hmask⟩ := (Bool.and_eq_true _ _).mp haccess
        obtain rfl := Option.isNone_iff_eq_none.mp hleaves
        refine ⟨?_, ?_, h.sysctl, h.inode⟩
        · rw [DeviceState.step, fsnotifyFile_access h.restricted hmask]
          rfl
        · exact step_restricted hblind h.restricted hkeeps
    | getattr capMknod wanted => cases haccess
    | change mode attrs ctime => cases haccess
    | writeRestrict capSysAdmin value => cases haccess
  alike s t event h hkeeps _ := step_alike hblind h hkeeps

theorem restricted_of_untimed (h : s.Restricted)
    (hsysctl : t.deviceSidechannelRestrict = s.deviceSidechannelRestrict)
    (hinode : s.inode.untimed = t.inode.untimed) : t.Restricted := by
  unfold DeviceState.Restricted at h ⊢
  rw [hsysctl, ← h]
  unfold isSidechannelDevice
  rw [Inode.untimed_eq_iff.mp hinode]

/-- **Accesses are not seen.** Two runs from restricted states that differ in the
access and modification times of the device, with the same events besides reads and
writes of it that leave the change time alone, show an observer without `CAP_MKNOD`
the same, as long as no event takes the restriction away. -/
theorem accesses_unseen (hblind : ∀ op ∈ getattr, Getattr.Blind op) (h : s.Restricted)
    (hsysctl : t.deviceSidechannelRestrict = s.deviceSidechannelRestrict)
    (hinode : s.inode.untimed = t.inode.untimed) {events events' : List (DeviceEvent γ)}
    (hkeeps : ∀ event ∈ events, event.KeepsRestricted)
    (hkeeps' : ∀ event ∈ events', event.KeepsRestricted)
    (hsame : (events.filter fun event => !event.isAccess)
      = events'.filter fun event => !event.isAccess) :
    Noninterference.outputs (DeviceState.step getattr blank) s events
      = Noninterference.outputs (DeviceState.step getattr blank) t events' := by
  have ht : t.Restricted := restricted_of_untimed h hsysctl hinode
  exact (device_unwinds hblind blank).outputs_eq ⟨h, rfl, rfl⟩ ⟨ht, hsysctl.symm, hinode.symm⟩
    hkeeps hkeeps' hsame

end Runs

end Views

/-- A terminal that everybody may open, on a filesystem with its own `getattr`. -/
def ptmx : DeviceState Unit :=
  { inode := ⟨0o020666, (), true, ⟨100, 0⟩, ⟨100, 0⟩, ⟨90, 0⟩, false⟩
    deviceSidechannelRestrict := 1 }

def shmemGetattr : Getattr Unit := fun call inode stat =>
  (.ok (genericFillattr call inode stat).1, (genericFillattr call inode stat).2)

/-- Two keys, and none. -/
theorem accesses_unseen_ptmx :
    Noninterference.outputs (DeviceState.step (some shmemGetattr) ⟨0, (), ⟨0, 0⟩, ⟨0, 0⟩, ⟨0, 0⟩⟩)
        ptmx [.use ⟨101, 5⟩ ⟨100, 0⟩ none false 1, .getattr false true, .writeRestrict false 0,
          .use ⟨102, 7⟩ ⟨102, 7⟩ none false 2, .getattr false true]
      = Noninterference.outputs
          (DeviceState.step (some shmemGetattr) ⟨0, (), ⟨0, 0⟩, ⟨0, 0⟩, ⟨0, 0⟩⟩)
          ptmx [.getattr false true, .writeRestrict false 0, .getattr false true] := by
  have hblind : ∀ op ∈ some shmemGetattr, Getattr.Blind op := by
    intro op hop
    rw [← Option.some.inj hop]
    exact genericFillattr_blind
  have hrestricted : ptmx.Restricted := (by decide : isSidechannelDevice 1 ptmx.inode = true)
  refine accesses_unseen hblind hrestricted rfl rfl ?_ ?_ rfl
  · simp [DeviceEvent.KeepsRestricted]
  · simp [DeviceEvent.KeepsRestricted]

/-- A write that moves the change time is seen. -/
example :
    Noninterference.outputs (DeviceState.step none ⟨0, (), ⟨0, 0⟩, ⟨0, 0⟩, ⟨0, 0⟩⟩) ptmx
        [.use ⟨100, 0⟩ ⟨102, 7⟩ (some ⟨102, 7⟩) false 2, .getattr false true]
      ≠ Noninterference.outputs (DeviceState.step none ⟨0, (), ⟨0, 0⟩, ⟨0, 0⟩, ⟨0, 0⟩⟩) ptmx
        [.getattr false true] := by
  decide

end Rustlux.Sidechannel
