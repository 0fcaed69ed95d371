import Mathlib.Data.List.Pairwise
import Mathlib.Logic.Relation
import Userland.Install.TargetController.Distinct

/-!
# Runs of the target controller

In every run of selections, additions, resets and layout edits whose calls meet `Call.Admissible`,
no two desired disks recognize each other, a call that is rejected changes nothing, and a set of
disks that was deselected after a selection of divided disks is restored when it is selected again
(`run_keeps`). The condition on the calls is that the passed disks are recognized without ambiguity
and are different ones. Without it a disk can be selected twice (`selected_twice`).
-/

set_option autoImplicit false
set_option relaxedAutoImplicit false

namespace Userland.Install.TargetController

open Userland.Library Userland.Library.Program

variable {config : Config}

/-! ### Calls -/

/-- A call of the controller, or an edit of the layouts of the desired disks. -/
inductive Call
  | select (refs : List DiskRef) (useWholeDisk : Bool)
  | add (refs : List DiskRef) (useWholeDisk : Bool)
  | reset (ref : Option DiskRef) (useWholeDisk : Bool)
  | edit (change : Disk → Body)

def Call.run (config : Config) : Call → TC (List Disk)
  | .select refs useWholeDisk => config.selectDisk refs useWholeDisk
  | .add refs useWholeDisk => config.addDisk refs useWholeDisk
  | .reset ref useWholeDisk => config.resetLayout ref useWholeDisk
  | .edit change => do
    modify fun s ↦ { s with desired := s.desired.map fun disk ↦ ⟨disk.identity, change disk⟩ }
    pure []

/-- The controller after a call, also where this raises. -/
def Call.after (config : Config) (call : Call) (s : Controller) : Controller :=
  (exec (call.run config) s).2

/-- The condition on a call. The discovered disks for those that are selected or added have clear
identifiers, and no two of them recognize each other. Where all layouts are reset, each desired disk
is the first discovered one with its name. Where one is reset, the passed disk recognizes only the
first desired one with its name. -/
def Call.Admissible (config : Config) (s : Controller) : Call → Prop
  | .select refs _ | .add refs _ => ∀ disks, config.suitableDisks refs = .ok disks →
      (∀ id ∈ identities disks, config.Clear id) ∧
      disks.Pairwise fun first second ↦ first.identity.nameMatches second.identity = false
  | .reset none _ => ∀ current ∈ s.desired, ∃ discovered,
      config.findByCtd current.identity = some discovered ∧ discovered.identity = current.identity
  | .reset (some ref) _ => ∀ discovered, config.findByCtd ref.identity = some discovered →
      ∀ current ∈ s.desired, ref.identity.nameMatches current.identity = true →
        current.identity = discovered.identity
  | .edit _ => True

/-- What a call does to a sound controller. -/
structure Kept (config : Config) (s : Controller) (result : Except Raise (List Disk))
    (after : Controller) : Prop where
  sound : config.Sound after
  rejected : ∀ raised, result = .error raised → raised.isBadDisk = true → after = s

theorem Config.Sound.of_desired {s after : Controller} (h : config.Sound s)
    (hframe : after = { s with desired := after.desired })
    (hdesired : config.Distinct after.desired) :
    config.Sound after := by
  rw [hframe]
  exact ⟨hdesired, h.backups, h.apart⟩

variable {s : Controller} {useWholeDisk : Bool}

theorem Config.Sound.select (h : config.Sound s) {refs : List DiskRef}
    (hadmissible : (Call.select refs useWholeDisk).Admissible config s) :
    ∃ result after, exec (config.selectDisk refs useWholeDisk) s = (result, after) ∧
      Kept config s result after := by
  rcases exec_selectDisk refs useWholeDisk s with
    ⟨raised, -, hexec⟩ | ⟨disks, result, after, hsuitable, hexec,
      ⟨added, hadded, hafter, -⟩, hresult⟩
  · exact ⟨_, s, hexec, h, fun _ _ _ ↦ rfl⟩
  · obtain ⟨hclear, hpairwise⟩ := hadmissible disks hsuitable
    have hsound : config.Sound added :=
      h.deselect.added (Config.Distinct.of_pairwise hclear hpairwise)
      (fun _ hid ↦ absurd hid List.not_mem_nil) hadded
    refine ⟨result, after, hexec, ?_, fun raised hraised hbad ↦ ?_⟩
    · rw [hafter]
      exact ⟨hsound.desired, hsound.backups, hsound.apart⟩
    · rcases hresult with ⟨returned, hok, -⟩ | ⟨herror, -⟩
      · rw [hok] at hraised
        cases hraised
      · rw [herror] at hraised
        obtain rfl := Except.error.inj hraised
        cases hbad

theorem Config.Sound.add (h : config.Sound s) {refs : List DiskRef}
    (hadmissible : (Call.add refs useWholeDisk).Admissible config s) :
    ∃ result after, exec (config.addDisk refs useWholeDisk) s = (result, after) ∧
      Kept config s result after := by
  rcases exec_addDisk refs useWholeDisk s with
    ⟨raised, hexec⟩ | ⟨disks, result, after, hsuitable, hexec, hnew, hadded, herror⟩
  · exact ⟨_, s, hexec, h, fun _ _ _ ↦ rfl⟩
  · obtain ⟨hclear, hpairwise⟩ := hadmissible disks hsuitable
    refine ⟨result, after, hexec, h.added (Config.Distinct.of_pairwise hclear hpairwise) ?_ hadded,
      fun raised hraised hbad ↦ ?_⟩
    · intro id hid hmem
      obtain ⟨current, hcurrent, rfl⟩ := List.mem_map.mp hid
      obtain ⟨new, hdisk, heq⟩ := List.mem_map.mp hmem
      have hself := (hclear _ hmem).self
      have hnot := hnew current hcurrent new hdisk
      rw [heq, hself] at hnot
      cases hnot
    · obtain rfl := herror raised hraised
      cases hbad

theorem Config.Sound.reset (h : config.Sound s) {ref : Option DiskRef}
    (hadmissible : (Call.reset ref useWholeDisk).Admissible config s) :
    ∃ result after, exec (config.resetLayout ref useWholeDisk) s = (result, after) ∧
      after = { s with desired := after.desired } ∧ Kept config s result after := by
  cases ref with
  | none =>
    obtain ⟨result, after, hexec, hframe, hdesired, herror⟩ := h.resetAll useWholeDisk hadmissible
    refine ⟨result, after, hexec, hframe, h.of_desired hframe hdesired,
      fun raised hraised hbad ↦ ?_⟩
    rw [herror raised hraised] at hbad
    cases hbad
  | some ref =>
    obtain ⟨result, after, hexec, hframe, hdesired, hrejected⟩ :=
      h.resetOne ref.identity useWholeDisk hadmissible
    refine ⟨result, after, ?_, hframe, h.of_desired hframe hdesired, hrejected⟩
    unfold Config.resetLayout
    rw [exec_bind, exec_get]
    exact hexec

theorem Config.Sound.edit (h : config.Sound s) (change : Disk → Body) :
    ∃ after, exec ((Call.edit change).run config) s = (.ok [], after) ∧
      after = { s with desired := after.desired } ∧ config.Sound after := by
  have hsame : identities (s.desired.map fun disk ↦ (⟨disk.identity, change disk⟩ : Disk)) =
      identities s.desired := by
    rw [identities, List.map_map]
    rfl
  refine ⟨{ s with desired := s.desired.map fun disk ↦ ⟨disk.identity, change disk⟩ }, rfl, rfl,
    ⟨fun id hid ↦ h.desired.clear id (hsame ▸ hid), hsame ▸ h.desired.nodup⟩, h.backups, h.apart⟩

/-- Assumes: the condition on the call. It keeps the invariant, and changes nothing where it is
rejected. -/
theorem Config.Sound.call (h : config.Sound s) {call : Call}
    (hadmissible : call.Admissible config s) :
    ∃ result after, exec (call.run config) s = (result, after) ∧ Kept config s result after := by
  cases call with
  | select refs useWholeDisk => exact h.select hadmissible
  | add refs useWholeDisk => exact h.add hadmissible
  | reset ref useWholeDisk =>
    obtain ⟨result, after, hexec, -, hkept⟩ := h.reset hadmissible
    exact ⟨result, after, hexec, hkept⟩
  | edit change =>
    obtain ⟨after, hexec, -, hsound⟩ := h.edit change
    exact ⟨_, after, hexec, hsound, fun raised hraised ↦ nomatch hraised⟩

/-! ### Runs -/

def Step (config : Config) (s after : Controller) : Prop :=
  ∃ call : Call, call.Admissible config s ∧ after = call.after config s

/-- The controllers after `initialize`, without a disk or with the initial disk. -/
inductive Initialized (config : Config) : Controller → Prop
  | empty : Initialized config Controller.empty
  | initial {disk : Disk} {returned : List Disk} {s : Controller}
    (hdisk : config.selectInitialDisk = .ok disk) (hclear : config.Clear disk.identity)
    (hexec : exec config.selectInitial Controller.empty = (.ok returned, s)) : Initialized config s

def Reachable (config : Config) (s : Controller) : Prop :=
  ∃ start, Initialized config start ∧ Relation.ReflTransGen (Step config) start s

theorem Initialized.sound (h : Initialized config s) : config.Sound s := by
  cases h with
  | empty => exact Config.Sound.empty
  | @initial disk returned _ hdisk hclear hexec =>
    obtain ⟨result, added, hadd, hadded, -, -⟩ :=
      exists_addDisks config [disk] false Controller.empty
    unfold Config.selectInitial at hexec
    rw [exec_bind, exec_lift, hdisk] at hexec
    simp only at hexec
    rw [exec_bind, hadd] at hexec
    cases result with
    | error raised => cases hexec
    | ok disks =>
      have hdistinct : config.Distinct [disk] :=
        ⟨fun id hid ↦ List.mem_singleton.mp hid ▸ hclear, List.nodup_singleton _⟩
      have hsound : config.Sound added := Config.Sound.empty.added hdistinct
        (fun _ hid ↦ absurd hid List.not_mem_nil) hadded
      obtain rfl : { added with needBackup := true } = s := (Prod.mk.inj hexec).2
      exact ⟨hsound.desired, hsound.backups, hsound.apart⟩

theorem Reachable.sound (h : Reachable config s) : config.Sound s := by
  obtain ⟨start, hstart, hrun⟩ := h
  induction hrun with
  | refl => exact hstart.sound
  | tail _ hstep ih =>
    obtain ⟨call, hadmissible, rfl⟩ := hstep
    obtain ⟨result, after, hexec, hkept⟩ := ih.call hadmissible
    have hafter : call.after config _ = after := congrArg Prod.snd hexec
    exact hafter ▸ hkept.sound

theorem Reachable.step (h : Reachable config s) {call : Call}
    (hadmissible : call.Admissible config s) : Reachable config (call.after config s) := by
  obtain ⟨start, hstart, hrun⟩ := h
  exact ⟨start, hstart, hrun.tail ⟨call, hadmissible, rfl⟩⟩

/-! ### Selections and deselections -/

/-- The last selection, by `initialize` or by `select_disk`, was with this `use_whole_disk`. -/
inductive Selected (config : Config) : Bool → Controller → Prop
  | initial {disk : Disk} {returned : List Disk} {s : Controller}
    (hdisk : config.selectInitialDisk = .ok disk) (hclear : config.Clear disk.identity)
    (hexec : exec config.selectInitial Controller.empty = (.ok returned, s)) :
      Selected config false s
  | select {s after : Controller} {refs : List DiskRef} {useWholeDisk : Bool} {returned : List Disk}
    (hreachable : Reachable config s) (hadmissible :
      (Call.select refs useWholeDisk).Admissible config s)
    (hexec : exec (config.selectDisk refs useWholeDisk) s = (.ok returned, after)) :
    Selected config useWholeDisk after
  | other {s : Controller} {useWholeDisk : Bool} {call : Call}
    (hselected : Selected config useWholeDisk s)
    (hadmissible : call.Admissible config s)
    (hcall : ∀ refs whole, call = .select refs whole → ∃ raised,
      config.suitableDisks refs = .error raised) :
    Selected config useWholeDisk (call.after config s)

/-- The same disks, in any order. -/
def SameSet (first second : List Disk) : Prop :=
  (identities first).Perm (identities second)

/-- After a selection of divided disks the desired disks were `disks`, with these layouts, when a
call of `select_disk` deselected them. Since then this set was neither selected or added again as
divided disks, nor deselected again. -/
inductive Deselected (config : Config) (disks : List Disk) : Controller → Prop
  | deselect {s : Controller} {refs : List DiskRef} {useWholeDisk : Bool} {selected : List Disk}
    (hselected : Selected config false s) (hdisks : disks = s.desired)
    (hadmissible : (Call.select refs useWholeDisk).Admissible config s)
    (hsuitable : config.suitableDisks refs = .ok selected)
    (hother : useWholeDisk = false → ¬ SameSet selected disks) :
    Deselected config disks ((Call.select refs useWholeDisk).after config s)
  | other {s : Controller} {call : Call} (hdeselected : Deselected config disks s)
    (hadmissible : call.Admissible config s)
    (hselect : ∀ refs whole selected, call = .select refs whole →
      config.suitableDisks refs = .ok selected →
      Selected config true s ∨ ¬ SameSet s.desired disks)
    (hagain : ∀ refs selected, call = .select refs false ∨ call = .add refs false →
      config.suitableDisks refs = .ok selected → ¬ SameSet selected disks) :
    Deselected config disks (call.after config s)

theorem Selected.reachable (h : Selected config useWholeDisk s) : Reachable config s := by
  induction h with
  | initial hdisk hclear hexec => exact ⟨_, .initial hdisk hclear hexec, .refl⟩
  | @select s after refs useWholeDisk returned hreachable hadmissible hexec =>
    have hafter : (Call.select refs useWholeDisk).after config s = after := congrArg Prod.snd hexec
    exact hafter ▸ hreachable.step hadmissible
  | other _ hadmissible _ ih => exact ih.step hadmissible

theorem Deselected.reachable {disks : List Disk} (h : Deselected config disks s) :
    Reachable config s := by
  induction h with
  | deselect hselected _ hadmissible _ _ => exact hselected.reachable.step hadmissible
  | other _ hadmissible _ _ ih => exact ih.step hadmissible

/-- `_need_backup` says whether the last selection was of divided disks. -/
theorem Selected.needBackup (h : Selected config useWholeDisk s) :
    s.needBackup = !useWholeDisk := by
  induction h with
  | @initial disk returned s hdisk _ hexec =>
    unfold Config.selectInitial at hexec
    rw [exec_bind, exec_lift, hdisk] at hexec
    simp only at hexec
    rw [exec_bind] at hexec
    rcases hadd : exec (config.addDisks [disk] false) Controller.empty with ⟨_ | disks, added⟩
    · rw [hadd] at hexec
      cases hexec
    · rw [hadd] at hexec
      exact congrArg Controller.needBackup (Prod.mk.inj hexec).2.symm
  | @select s after refs useWholeDisk returned _ _ hexec =>
    rcases exec_selectDisk refs useWholeDisk s with
      ⟨raised, -, hrejected⟩ | ⟨disks, result, after', -, hran, -, hresult⟩
    · rw [hrejected] at hexec
      cases hexec
    · obtain ⟨rfl, rfl⟩ := Prod.mk.inj (hran.symm.trans hexec)
      rcases hresult with ⟨returned', -, hneed⟩ | ⟨herror, -⟩
      · exact hneed
      · cases herror
  | @other s useWholeDisk call hselected hadmissible hcall ih =>
    have hsound := hselected.reachable.sound
    rw [← ih]
    cases call with
    | select refs whole =>
      obtain ⟨raised, hraised⟩ := hcall refs whole rfl
      rcases exec_selectDisk refs whole s with ⟨_, -, hexec⟩ | ⟨disks, _, _, hsuitable, -⟩
      · exact congrArg (fun run ↦ Controller.needBackup run.2) hexec
      · rw [hraised] at hsuitable
        cases hsuitable
    | add refs whole =>
      rcases exec_addDisk refs whole s with ⟨_, hexec⟩ | ⟨_, _, after, -, hexec, -, hadded, -⟩
      · exact congrArg (fun run ↦ Controller.needBackup run.2) hexec
      · exact (congrArg (fun run ↦ Controller.needBackup run.2) hexec).trans hadded.needBackup
    | reset ref whole =>
      obtain ⟨result, after, hexec, hframe, -⟩ := hsound.reset hadmissible
      exact (congrArg (fun run ↦ Controller.needBackup run.2) hexec).trans
        (congrArg Controller.needBackup hframe)
    | edit change => rfl

/-! ### Backups that are kept -/

variable {entry disks : List Disk}

theorem mem_withoutEntry {area : Option (List (List Disk))}
    (hmem : entry ∈ area.getD []) (hnot : containsSameDisks entry disks = false) :
    entry ∈ (withoutEntry disks area).getD [] := by
  cases area with
  | none => exact absurd hmem List.not_mem_nil
  | some area =>
    refine (List.mem_eraseP_of_neg ?_).mpr hmem
    rw [hnot]
    exact Bool.false_ne_true

theorem mem_deselect {entry : List Disk} (hmem : entry ∈ s.backupArea.getD [])
    (hnot : s.needBackup = false ∨ containsSameDisks entry s.desired = false) :
    entry ∈ s.deselect.backupArea.getD [] := by
  unfold Controller.deselect
  cases hneed : s.needBackup with
  | false => exact hmem
  | true =>
    have hsame := hnot.resolve_left (by rw [hneed]; exact Bool.noConfusion)
    exact List.mem_append_left _ (List.mem_filter.mpr ⟨hmem, by rw [hsame]; rfl⟩)

theorem desired_mem_deselect (h : s.needBackup = true) :
    s.desired ∈ s.deselect.backupArea.getD [] := by
  unfold Controller.deselect
  rw [h]
  exact List.mem_append_right _ (List.mem_singleton_self _)

theorem Config.Distinct.containsSame_eq_false (hentry : config.Distinct entry)
    (hdisks : config.Distinct disks) (h : ¬ SameSet disks entry) :
    containsSameDisks entry disks = false :=
  Bool.eq_false_iff.mpr fun hsame ↦ h ((hentry.containsSame_iff hdisks).mp hsame)

/-- The backup after disks were added is the one before, but for the entry of these disks. -/
theorem Added.mem_backupArea {s after : Controller} {disks entry : List Disk}
    (h : Added disks useWholeDisk s after) (hmem : entry ∈ s.backupArea.getD [])
    (hnot : useWholeDisk = false → containsSameDisks entry disks = false) :
    entry ∈ after.backupArea.getD [] := by
  rw [h.backupArea]
  cases useWholeDisk with
  | true => exact hmem
  | false => exact mem_withoutEntry hmem (hnot rfl)

theorem distinct_of_admissible {refs : List DiskRef}
    {disks : List Disk} (h : (Call.select refs useWholeDisk).Admissible config s)
    (hsuitable : config.suitableDisks refs = .ok disks) : config.Distinct disks :=
  Config.Distinct.of_pairwise (h disks hsuitable).1 (h disks hsuitable).2

/-- The backup of a deselected set is still there. -/
theorem Deselected.mem_backupArea {disks : List Disk} (h : Deselected config disks s) :
    config.Distinct disks ∧ disks ∈ s.backupArea.getD [] := by
  induction h with
  | @deselect s refs useWholeDisk selected hselected hdisks hadmissible hsuitable hother =>
    have hsound := hselected.reachable.sound
    have hmem : disks ∈ s.deselect.backupArea.getD [] :=
      hdisks ▸ desired_mem_deselect hselected.needBackup
    have hdistinct : config.Distinct disks := hdisks ▸ hsound.desired
    refine ⟨hdistinct, ?_⟩
    rcases exec_selectDisk refs useWholeDisk s with
      ⟨raised, hraised, -⟩ | ⟨disks', result, after, hdisks', hexec, ⟨added, hadded, hafter, -⟩, -⟩
    · rw [hsuitable] at hraised
      cases hraised
    · obtain rfl := Except.ok.inj (hsuitable.symm.trans hdisks')
      have hstate : (Call.select refs useWholeDisk).after config s = after :=
        congrArg Prod.snd hexec
      rw [hstate, hafter]
      exact hadded.mem_backupArea hmem fun hwhole ↦ hdistinct.containsSame_eq_false
        (distinct_of_admissible hadmissible hsuitable) (hother hwhole)
  | @other s call hdeselected hadmissible hselect hagain ih =>
    obtain ⟨hdistinct, hmem⟩ := ih
    have hsound := hdeselected.reachable.sound
    refine ⟨hdistinct, ?_⟩
    cases call with
    | select refs whole =>
      rcases exec_selectDisk refs whole s with
        ⟨raised, -, hexec⟩ | ⟨selected, result, after, hsuitable, hexec,
          ⟨added, hadded, hafter, -⟩, -⟩
      · have hstate : (Call.select refs whole).after config s = s := congrArg Prod.snd hexec
        rw [hstate]
        exact hmem
      · have hstate : (Call.select refs whole).after config s = after := congrArg Prod.snd hexec
        rw [hstate, hafter]
        refine hadded.mem_backupArea (mem_deselect hmem ?_) fun hwhole ↦ ?_
        · refine (hselect refs whole selected rfl hsuitable).imp (fun h ↦ ?_) fun h ↦ ?_
          · exact h.needBackup
          · exact hdistinct.containsSame_eq_false hsound.desired h
        · subst hwhole
          exact hdistinct.containsSame_eq_false (distinct_of_admissible hadmissible hsuitable)
            (hagain refs selected (.inl rfl) hsuitable)
    | add refs whole =>
      rcases exec_addDisk refs whole s with
        ⟨raised, hexec⟩ | ⟨selected, result, after, hsuitable, hexec, -, hadded, -⟩
      · have hstate : (Call.add refs whole).after config s = s := congrArg Prod.snd hexec
        rw [hstate]
        exact hmem
      · have hstate : (Call.add refs whole).after config s = after := congrArg Prod.snd hexec
        rw [hstate]
        refine hadded.mem_backupArea hmem fun hwhole ↦ ?_
        subst hwhole
        exact hdistinct.containsSame_eq_false
          (Config.Distinct.of_pairwise (hadmissible selected hsuitable).1
            (hadmissible selected hsuitable).2)
          (hagain refs selected (.inr rfl) hsuitable)
    | reset ref whole =>
      obtain ⟨result, after, hexec, hframe, -⟩ := hsound.reset hadmissible
      have hstate : (Call.reset ref whole).after config s = after := congrArg Prod.snd hexec
      rw [hstate, hframe]
      exact hmem
    | edit change => exact hmem

/-- The backup of a set of disks is found for this set. -/
theorem Config.Sound.fetch_eq (h : config.Sound s)
    (hmem : entry ∈ s.backupArea.getD []) (hdisks : config.Distinct disks)
    (hsame : SameSet disks entry) :
    fetchFromBackup s.backupArea disks = some entry := by
  have hentry := ((h.backups entry hmem).containsSame_iff hdisks).mpr hsame
  cases hfetch : fetchFromBackup s.backupArea disks with
  | none => exact absurd hentry (List.find?_eq_none.mp hfetch entry hmem)
  | some found =>
    have hfound := mem_of_fetchFromBackup hfetch
    have hperm := ((h.backups found hfound).containsSame_iff hdisks).mp
      (containsSame_of_fetchFromBackup hfetch)
    by_contra hne
    have hsymm : Std.Symm fun first second : List Disk ↦
        ¬ (identities first).Perm (identities second) := ⟨fun _ _ hnot hp ↦ hnot hp.symm⟩
    refine h.apart.forall hfound hmem (fun heq ↦ hne (congrArg some heq)) ?_
    exact hperm.symm.trans hsame

/-! ### All runs -/

/-- In every run of calls that meet the condition: no two desired disks recognize each other. A call
that raises `BadDiskError` or `SubSizeDiskError` changes nothing. A set of disks that `select_disk`
deselected after a selection of divided disks, or deselects in the same call, is restored when it is
selected as divided disks, if every layout has its place. -/
theorem run_keeps {s : Controller} (h : Reachable config s) :
    (s.desired.Pairwise fun first second ↦ first.identity.nameMatches second.identity = false ∧
      second.identity.nameMatches first.identity = false) ∧
    (∀ call : Call, call.Admissible config s → ∀ raised after,
      exec (call.run config) s = (.error raised, after) → raised.isBadDisk = true → after = s) ∧
    ∀ disks, (Selected config false s ∧ disks = s.desired ∨
        Deselected config disks s ∧ (Selected config true s ∨ ¬ SameSet s.desired disks)) →
      ∀ refs selected, (Call.select refs false).Admissible config s →
        config.suitableDisks refs = .ok selected → SameSet selected disks →
        (∀ disk ∈ disks, config.Placed disk.body) →
        ((Call.select refs false).after config s).desired = disks := by
  have hsound := h.sound
  refine ⟨hsound.desired.pairwise, fun call hadmissible raised after hexec hbad ↦ ?_, ?_⟩
  · obtain ⟨result, after', hrun, hkept⟩ := hsound.call hadmissible
    obtain ⟨rfl, rfl⟩ := Prod.mk.inj (hrun.symm.trans hexec)
    exact hkept.rejected raised rfl hbad
  · intro disks hdisks refs selected hadmissible hsuitable hsame hplaced
    have hmem : disks ∈ s.deselect.backupArea.getD [] := by
      rcases hdisks with ⟨hselected, rfl⟩ | ⟨hdeselected, hother⟩
      · exact desired_mem_deselect hselected.needBackup
      · obtain ⟨hdistinct, hmem⟩ := hdeselected.mem_backupArea
        refine mem_deselect hmem (hother.imp (fun hselected ↦ hselected.needBackup) fun hnot ↦ ?_)
        exact hdistinct.containsSame_eq_false hsound.desired hnot
    have hfetch := hsound.deselect.fetch_eq hmem
      (distinct_of_admissible hadmissible hsuitable) hsame
    rcases exec_selectDisk refs false s with
      ⟨raised, hraised, -⟩ | ⟨disks', result, after, hdisks', hexec, ⟨_, _, _, hkept⟩, -⟩
    · rw [hsuitable] at hraised
      cases hraised
    · obtain rfl := Except.ok.inj (hsuitable.symm.trans hdisks')
      have hstate : (Call.select refs false).after config s = after := congrArg Prod.snd hexec
      rw [hstate]
      exact hkept disks rfl hfetch fun disk hdisk ↦
        fixupDivided_eq_self_iff.mpr (hplaced disk hdisk)

/-! ### Examples -/

/-- A disk with a name and one usable slice. -/
def labelledDisk (ctd : Text) : Disk where
  identity := ⟨some ctd, none, none, none, none, none, []⟩
  body :=
    { devSize := some 4096, bootDisk := false, wholeDisk := false, inVdev := none, inZpool := none
      children := [.slice { name := 0, startSector := 1, size := 2048, tag := 0, force := false
                            inVdev := none, inZpool := none }] }

/-- Two discovered disks, whose default layout is the one that they have. -/
def twoDisks : Config where
  discovered := [labelledDisk ['c', '0'], labelledDisk ['c', '1']]
  minimumTargetSize := 1024
  vdev := some ['v', 'd', 'e', 'v']
  zpool := some ['r', 'p', 'o', 'o', 'l']
  adjustSlice := fun _ slc ↦ some slc
  applyDefaultLayout := fun disk ↦ some disk.body
  wipeDisk := fun disk ↦ some disk.body

/-- One of the two discovered disks. -/
def discoveredRef (ctd : Text) (index : ℕ) : DiskRef where
  identity := (labelledDisk ctd).identity
  object := some index

/-- The only slice of each disk is moved. -/
def moveSlice : Call :=
  .edit fun disk ↦ { disk.body with
    children := disk.body.children.map fun
      | .slice slc => .slice { slc with startSector := 64 }
      | child => child }

/-- The first disk is selected, its slice is moved, and the second disk is selected. -/
def firstThenSecond : Controller :=
  (Call.select [discoveredRef ['c', '1'] 1] false).after twoDisks
    (moveSlice.after twoDisks ((Call.select [discoveredRef ['c', '0'] 0] false).after twoDisks
      Controller.empty))

theorem twoDisks_admissible {ctd : Text} {index : ℕ}
    (hsuitable : twoDisks.suitableDisks [discoveredRef ctd index] = .ok [labelledDisk ctd])
    (hclear : twoDisks.Clear (labelledDisk ctd).identity) :
    (Call.select [discoveredRef ctd index] useWholeDisk).Admissible twoDisks s := by
  intro disks hdisks
  obtain rfl := Except.ok.inj (hsuitable.symm.trans hdisks)
  exact ⟨fun id hid ↦ List.mem_singleton.mp hid ▸ hclear, List.pairwise_singleton _ _⟩

theorem restored_run : ((Call.select [discoveredRef ['c', '0'] 0] false).after twoDisks
    firstThenSecond).desired =
      (moveSlice.after twoDisks ((Call.select [discoveredRef ['c', '0'] 0] false).after twoDisks
        Controller.empty)).desired := by
  have hsuitable₀ : twoDisks.suitableDisks [discoveredRef ['c', '0'] 0] =
      .ok [labelledDisk ['c', '0']] := by decide +kernel
  have hsuitable₁ : twoDisks.suitableDisks [discoveredRef ['c', '1'] 1] =
      .ok [labelledDisk ['c', '1']] := by decide +kernel
  have hclear₀ : twoDisks.Clear (labelledDisk ['c', '0']).identity :=
    ⟨by decide +kernel, by decide +kernel, by decide +kernel⟩
  have hclear₁ : twoDisks.Clear (labelledDisk ['c', '1']).identity :=
    ⟨by decide +kernel, by decide +kernel, by decide +kernel⟩
  have hselected : Selected twoDisks false (moveSlice.after twoDisks
      ((Call.select [discoveredRef ['c', '0'] 0] false).after twoDisks Controller.empty)) :=
    .other (.select ⟨_, .empty, .refl⟩ (twoDisks_admissible hsuitable₀ hclear₀) rfl) trivial
      fun _ _ h ↦ nomatch h
  have hdeselected : Deselected twoDisks _ firstThenSecond :=
    .deselect hselected rfl (twoDisks_admissible hsuitable₁ hclear₁) hsuitable₁ fun _ h ↦ by
      revert h
      unfold SameSet
      decide +kernel
  refine (run_keeps hdeselected.reachable).2.2 _ (.inr ⟨hdeselected, .inr ?_⟩)
    [discoveredRef ['c', '0'] 0] [labelledDisk ['c', '0']] (twoDisks_admissible hsuitable₀ hclear₀)
    hsuitable₀ ?_ fun disk hdisk ↦ ?_
  · unfold SameSet
    decide +kernel
  · unfold SameSet
    decide +kernel
  · refine fixupDivided_eq_self_iff.mp ?_
    revert disk
    decide +kernel

/-- A disk that is passed twice in one call is desired twice. -/
theorem selected_twice : ¬ ∀ calls : List Call,
    (calls.foldl (fun s call ↦ call.after twoDisks s) Controller.empty).desired.Pairwise
      fun first second ↦ first.identity.nameMatches second.identity = false := by
  intro h
  have hpairwise := h [.select [discoveredRef ['c', '0'] 0, discoveredRef ['c', '0'] 0] false]
  revert hpairwise
  decide +kernel

end Userland.Install.TargetController
