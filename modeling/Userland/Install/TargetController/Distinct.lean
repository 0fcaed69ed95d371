import Mathlib.Data.List.Nodup
import Mathlib.Data.List.Perm.Subperm
import Userland.Install.TargetController.Controller

/-!
# Distinct disks

All desired disks and all disks of a backup have identifiers by which no other discovered disk is
recognized, no disk is desired twice, and no two backups are of the same disks (`Config.Sound`). The
operations keep this where they are called with such disks: `Sound.added` is about the insertions,
`Sound.deselect` about the backup of the desired disks, and `Sound.resetOne` and `Sound.resetAll`
about the layouts that are reset. A backup is found for the same disks in any order
(`containsSameDisks_iff`).
-/

set_option autoImplicit false
set_option relaxedAutoImplicit false

namespace Userland.Install.TargetController

open Userland.Library Userland.Library.Program

variable (config : Config)

/-! ### Recognition -/

/-- Identifiers of a discovered disk by which it recognizes itself and no other discovered disk, and
by which no other discovered disk recognizes it. -/
structure Config.Clear (id : Identity) : Prop where
  once : (identities config.discovered).count id = 1
  self : id.nameMatches id = true
  eq : ∀ other ∈ identities config.discovered,
    id.nameMatches other = true ∨ other.nameMatches id = true → other = id

variable {config}

theorem Config.Clear.discovered {id : Identity} (h : config.Clear id) :
    id ∈ identities config.discovered :=
  List.count_pos_iff.mp (by rw [h.once]; exact Nat.one_pos)

theorem Config.Clear.nameMatches_iff {id other : Identity} (h : config.Clear id)
    (hother : config.Clear other) :
    id.nameMatches other = true ↔ id = other :=
  ⟨fun hmatch ↦ (h.eq other hother.discovered (.inl hmatch)).symm, fun heq ↦ heq ▸ h.self⟩

/-- Among clear identifiers, an entry contains the same disks if it has them in some order. -/
theorem containsSameDisks_iff {entry disks : List Disk}
    (hentry : ∀ id ∈ identities entry, config.Clear id)
    (hdisks : ∀ id ∈ identities disks, config.Clear id) (hnodup : (identities disks).Nodup) :
    containsSameDisks entry disks = true ↔ (identities disks).Perm (identities entry) := by
  have hany : ∀ disk ∈ disks,
      (entry.any fun backup ↦ disk.identity.nameMatches backup.identity) = true ↔
      disk.identity ∈ identities entry := by
    intro disk hdisk
    have hclear := hdisks _ (mem_identities hdisk)
    rw [List.any_eq_true, identities, List.mem_map]
    exact exists_congr fun backup ↦ and_congr_right fun hbackup ↦
      (hclear.nameMatches_iff (hentry _ (mem_identities hbackup))).trans eq_comm
  unfold containsSameDisks
  rw [Bool.and_eq_true, beq_iff_eq, List.all_eq_true]
  constructor
  · rintro ⟨hlength, hall⟩
    have hsub : identities disks ⊆ identities entry := by
      intro id hid
      obtain ⟨disk, hdisk, rfl⟩ := List.mem_map.mp hid
      exact (hany disk hdisk).mp (hall disk hdisk)
    refine (List.subperm_of_subset hnodup hsub).perm_of_length_le ?_
    rw [identities, identities, List.length_map, List.length_map]
    exact Nat.le_of_eq hlength
  · intro hperm
    refine ⟨?_, fun disk hdisk ↦ (hany disk hdisk).mpr (hperm.mem_iff.mp (mem_identities hdisk))⟩
    have hlength := hperm.length_eq
    rw [identities, identities, List.length_map, List.length_map] at hlength
    exact hlength.symm

/-- Disks with clear identifiers, of which no two are the same. -/
structure Config.Distinct (config : Config) (disks : List Disk) : Prop where
  clear : ∀ id ∈ identities disks, config.Clear id
  nodup : (identities disks).Nodup

theorem Config.Distinct.containsSame_iff {entry disks : List Disk} (hentry : config.Distinct entry)
    (hdisks : config.Distinct disks) :
    containsSameDisks entry disks = true ↔ (identities disks).Perm (identities entry) :=
  containsSameDisks_iff hentry.clear hdisks.clear hdisks.nodup

variable {disks : List Disk}

theorem Config.Distinct.of_sublist {added : List Disk} (h : config.Distinct disks)
    (hsub : (identities added).Sublist (identities disks)) : config.Distinct added :=
  ⟨fun id hid ↦ h.clear id (hsub.mem hid), h.nodup.sublist hsub⟩

theorem Config.Distinct.append {first second : List Disk} (hfirst : config.Distinct first)
    (hsecond : config.Distinct second)
    (hdisjoint : ∀ id ∈ identities first, id ∉ identities second) :
    config.Distinct (first ++ second) := by
  refine ⟨fun id hid ↦ ?_, ?_⟩
  · rw [identities_append] at hid
    exact (List.mem_append.mp hid).elim (hfirst.clear id) (hsecond.clear id)
  · rw [identities_append, List.nodup_append]
    exact ⟨hfirst.nodup, hsecond.nodup, fun id hid other hother heq ↦
      hdisjoint id hid (heq ▸ hother)⟩

/-- No two of them recognize each other. -/
theorem Config.Distinct.pairwise (h : config.Distinct disks) :
    disks.Pairwise fun first second ↦ first.identity.nameMatches second.identity = false ∧
      second.identity.nameMatches first.identity = false := by
  have hpairs : disks.Pairwise fun first second ↦ first.identity ≠ second.identity :=
    List.pairwise_map.mp h.nodup
  refine hpairs.imp_of_mem fun {first second} hfirst hsecond hne ↦ ?_
  have hclear := h.clear _ (mem_identities hfirst)
  have hother := h.clear _ (mem_identities hsecond)
  exact ⟨Bool.eq_false_iff.mpr fun hmatch ↦ hne ((hclear.nameMatches_iff hother).mp hmatch),
    Bool.eq_false_iff.mpr fun hmatch ↦ hne ((hother.nameMatches_iff hclear).mp hmatch).symm⟩

theorem Config.Distinct.of_pairwise (hclear : ∀ id ∈ identities disks, config.Clear id)
    (h : disks.Pairwise fun first second ↦ first.identity.nameMatches second.identity = false) :
    config.Distinct disks := by
  refine ⟨hclear, List.pairwise_map.mpr (h.imp_of_mem fun {first second} hfirst _ hmatch heq ↦ ?_)⟩
  rw [← heq, (hclear _ (mem_identities hfirst)).self] at hmatch
  cases hmatch

/-! ### The invariant -/

/-- The desired disks are distinct, so are those of each backup, and no two backups are of the same
disks. -/
structure Config.Sound (config : Config) (s : Controller) : Prop where
  desired : config.Distinct s.desired
  backups : ∀ entry ∈ s.backupArea.getD [], config.Distinct entry
  apart : (s.backupArea.getD []).Pairwise fun first second ↦
    ¬ (identities first).Perm (identities second)

theorem withoutEntry_sublist (disks : List Disk) (area : Option (List (List Disk))) :
    ((withoutEntry disks area).getD []).Sublist (area.getD []) := by
  cases area with
  | none => exact List.Sublist.refl _
  | some area => exact List.eraseP_sublist

theorem mem_of_fetchFromBackup {area : Option (List (List Disk))} {disks entry : List Disk}
    (h : fetchFromBackup area disks = some entry) : entry ∈ area.getD [] :=
  List.mem_of_find?_eq_some h

theorem containsSame_of_fetchFromBackup {area : Option (List (List Disk))} {disks entry : List Disk}
    (h : fetchFromBackup area disks = some entry) : containsSameDisks entry disks = true := by
  have hfound := List.find?_some h
  exact hfound

theorem Config.Sound.empty : config.Sound Controller.empty :=
  ⟨⟨fun _ h ↦ absurd h List.not_mem_nil, List.nodup_nil⟩, fun _ h ↦ absurd h List.not_mem_nil,
    List.Pairwise.nil⟩

theorem Config.Sound.deselect {s : Controller} (h : config.Sound s) : config.Sound s.deselect := by
  refine ⟨⟨fun _ hid ↦ absurd hid List.not_mem_nil, List.nodup_nil⟩, ?_, ?_⟩
  · intro entry hentry
    unfold Controller.deselect at hentry
    cases hneed : s.needBackup with
    | false =>
      rw [hneed] at hentry
      exact h.backups entry hentry
    | true =>
      rw [hneed] at hentry
      rcases List.mem_append.mp hentry with hold | hnew
      · exact h.backups entry (List.mem_of_mem_filter hold)
      · exact List.mem_singleton.mp hnew ▸ h.desired
  · unfold Controller.deselect
    cases hneed : s.needBackup with
    | false => exact h.apart
    | true =>
      refine List.pairwise_append.mpr ⟨h.apart.filter _, List.pairwise_singleton _ _, ?_⟩
      intro entry hentry other hother hperm
      obtain ⟨hmem, hnot⟩ := List.mem_filter.mp hentry
      rw [List.mem_singleton.mp hother] at hperm
      rw [((h.backups entry hmem).containsSame_iff h.desired).mpr hperm.symm] at hnot
      cases hnot

/-- Assumes: the passed disks are distinct, and none of them is desired. -/
theorem Config.Sound.added {s after : Controller} {useWholeDisk : Bool}
    (h : config.Sound s) (hdisks : config.Distinct disks)
    (hnew : ∀ id ∈ identities s.desired, id ∉ identities disks)
    (hadded : Added disks useWholeDisk s after) : config.Sound after := by
  have hsub : (after.backupArea.getD []).Sublist (s.backupArea.getD []) := by
    rw [hadded.backupArea]
    cases useWholeDisk with
    | true => exact List.Sublist.refl _
    | false => exact withoutEntry_sublist disks s.backupArea
  refine ⟨?_, fun entry hentry ↦ h.backups entry (hsub.mem hentry), h.apart.sublist hsub⟩
  obtain ⟨added, source, hdesired, hsource, hfrom⟩ := hadded.desired
  rw [hdesired]
  have hdistinct : config.Distinct source ∧ ∀ id ∈ identities source, id ∈ identities disks := by
    rcases hfrom with rfl | ⟨-, hfetch⟩
    · exact ⟨hdisks, fun id hid ↦ hid⟩
    · have hentry := h.backups source (mem_of_fetchFromBackup hfetch)
      have hperm := (hentry.containsSame_iff hdisks).mp (containsSame_of_fetchFromBackup hfetch)
      exact ⟨hentry, fun id hid ↦ hperm.mem_iff.mpr hid⟩
  exact h.desired.append (hdistinct.1.of_sublist hsource) fun id hid hmem ↦
    hnew id hid (hdistinct.2 id (hsource.mem hmem))

/-! ### Selecting and adding -/

/-- A call of `select_disk` is rejected without a change, or it deselects and adds. -/
theorem exec_selectDisk (refs : List DiskRef) (useWholeDisk : Bool) (s : Controller) :
    (∃ raised, config.suitableDisks refs = .error raised ∧
      exec (config.selectDisk refs useWholeDisk) s = (.error raised, s)) ∨
    ∃ disks result after, config.suitableDisks refs = .ok disks ∧
      exec (config.selectDisk refs useWholeDisk) s = (result, after) ∧
      (∃ added, Added disks useWholeDisk s.deselect added ∧
        after = { added with needBackup := after.needBackup } ∧
        ∀ entry, useWholeDisk = false → fetchFromBackup s.deselect.backupArea disks = some entry →
          (∀ disk ∈ entry, config.fixupDisk disk false = some (true, disk.body)) →
          after.desired = entry) ∧
      ((∃ returned, result = .ok returned ∧ after.needBackup = !useWholeDisk) ∨
        result = .error .layoutError ∧ after.needBackup = s.needBackup) := by
  unfold Config.selectDisk
  rw [exec_bind, exec_lift]
  cases hdisks : config.suitableDisks refs with
  | error raised => exact .inl ⟨raised, rfl, rfl⟩
  | ok disks =>
    refine .inr ?_
    simp only
    rw [exec_bind, exec_modify]
    simp only
    obtain ⟨result, added, hexec, hadded, herror, hkept⟩ :=
      exists_addDisks config disks useWholeDisk s.deselect
    rw [exec_bind, hexec]
    cases result with
    | error raised =>
      obtain rfl := herror raised rfl
      exact ⟨disks, _, added, rfl, rfl, ⟨added, hadded, rfl, hkept⟩, .inr ⟨rfl, hadded.needBackup⟩⟩
    | ok returned =>
      exact ⟨disks, _, _, rfl, rfl, ⟨added, hadded, rfl, hkept⟩, .inl ⟨returned, rfl, rfl⟩⟩

/-- A call of `add_disk` is rejected without a change, or it adds disks that no desired one
recognizes. -/
theorem exec_addDisk (refs : List DiskRef) (useWholeDisk : Bool) (s : Controller) :
    (∃ raised, exec (config.addDisk refs useWholeDisk) s = (.error raised, s)) ∨
    ∃ disks result after, config.suitableDisks refs = .ok disks ∧
      exec (config.addDisk refs useWholeDisk) s = (result, after) ∧
      (∀ current ∈ s.desired, ∀ new ∈ disks,
        current.identity.nameMatches new.identity = false) ∧
      Added disks useWholeDisk s after ∧ ∀ raised, result = .error raised →
      raised = .layoutError := by
  unfold Config.addDisk
  rw [exec_bind, exec_lift]
  cases hdisks : config.suitableDisks refs with
  | error raised => exact .inl ⟨raised, rfl⟩
  | ok disks =>
    simp only
    rw [exec_bind, exec_get]
    simp only
    by_cases htwice : (s.desired.any fun current ↦ disks.any fun new ↦
        current.identity.nameMatches new.identity) = true
    · rw [if_pos htwice]
      exact .inl ⟨_, rfl⟩
    · rw [if_neg htwice]
      obtain ⟨result, after, hexec, hadded, herror, -⟩ :=
        exists_addDisks config disks useWholeDisk s
      refine .inr ⟨disks, result, after, rfl, hexec, fun current hcurrent new hnew ↦ ?_,
        hadded, herror⟩
      refine Bool.eq_false_iff.mpr fun hmatch ↦ htwice ?_
      exact List.any_eq_true.mpr ⟨current, hcurrent, List.any_eq_true.mpr ⟨new, hnew, hmatch⟩⟩

/-! ### Resetting -/

/-- The disks after those that a disk recognizes were removed. -/
def removed (disk : Identity) (current : List (Disk × Bool)) : List (Disk × Bool) :=
  current.map fun entry ↦ (entry.1, entry.2 && !disk.nameMatches entry.1.identity)

variable {current : List (Disk × Bool)}

/-- Assumes: the disks that are recognized are still there. -/
theorem removeMatching_of_present {disk : Identity}
    (h : ∀ entry ∈ current, disk.nameMatches entry.1.identity = true → entry.2 = true) :
    removeMatching disk current =
      (.ok (current.any fun entry ↦ disk.nameMatches entry.1.identity), removed disk current) := by
  induction current with
  | nil => rfl
  | cons entry rest ih =>
    obtain ⟨first, present⟩ := entry
    have hrest := ih fun other hother ↦ h other (List.mem_cons_of_mem _ hother)
    rw [removeMatching, hrest, List.any_cons]
    cases hmatch : disk.nameMatches first.identity with
    | false => simp [removed, hmatch]
    | true =>
      obtain rfl : present = true := h _ List.mem_cons_self hmatch
      simp [removed, hmatch, Except.map]

theorem remaining_removed (disk : Identity) (current : List (Disk × Bool)) :
    remaining (removed disk current) =
      (remaining current).filter fun other ↦ !disk.nameMatches other.identity := by
  induction current with
  | nil => rfl
  | cons entry rest ih =>
    obtain ⟨first, present⟩ := entry
    unfold remaining removed at ih ⊢
    cases present <;> cases hmatch : disk.nameMatches first.identity <;> simp [hmatch, ih]

/-- One disk of the loop of `reset_layout`, where desired disks are recognized and still there:
these are removed, and then the code for layouts raises or a copy of the discovered disk may be
inserted. -/
theorem exec_resetDisks_cons {useWholeDisk : Bool} {id : Identity} {discovered : Disk}
    (hfind : config.findByCtd id = some discovered)
    (hpresent : ∀ entry ∈ current, id.nameMatches entry.1.identity = true → entry.2 = true)
    (hfound : (current.any fun entry ↦ id.nameMatches entry.1.identity) = true)
    (rest : List Identity) (inserted : List Disk) (s : Controller) :
    exec (config.resetDisks useWholeDisk (id :: rest) current inserted) s =
      (.error .layoutError, { s with desired := remaining (removed id current) ++ inserted }) ∨
    ∃ copies body result after, (copies = [] ∨ copies = [⟨discovered.identity, body⟩]) ∧
      exec (config.resetDisks useWholeDisk rest (removed id current) (inserted ++ copies))
        { s with desired := remaining (removed id current) ++ (inserted ++ copies) } =
          (result, after) ∧
      exec (config.resetDisks useWholeDisk (id :: rest) current inserted) s =
        (result.map (⟨discovered.identity, body⟩ :: ·), after) := by
  rw [Config.resetDisks, hfind]
  simp only [removeMatching_of_present hpresent, hfound]
  rw [exec_bind, exec_modify]
  simp only
  rw [exec_bind, exec_lift]
  simp only [if_true]
  rw [exec_bind]
  cases hlayout : config.layOut discovered useWholeDisk with
  | none => exact .inl rfl
  | some body =>
    rw [exec_ofOption_some]
    simp only
    rw [exec_bind]
    cases hfixup : config.fixupDisk ⟨discovered.identity, body⟩ useWholeDisk with
    | none => exact .inl rfl
    | some fixed =>
      obtain ⟨kept, body⟩ := fixed
      obtain ⟨copies, hcopies, hinserted⟩ : ∃ copies : List Disk,
          (copies = [] ∨ copies = [⟨discovered.identity, body⟩]) ∧
          (if kept = true then inserted ++ [⟨discovered.identity, body⟩] else inserted) =
            inserted ++ copies := by
        cases kept
        · exact ⟨[], .inl rfl, (List.append_nil _).symm⟩
        · exact ⟨[⟨discovered.identity, body⟩], .inr rfl, rfl⟩
      obtain ⟨result, after, hrun⟩ : ∃ result after,
          exec (config.resetDisks useWholeDisk rest (removed id current) (inserted ++ copies))
            { s with desired := remaining (removed id current) ++ (inserted ++ copies) } =
          (result, after) := ⟨_, _, rfl⟩
      refine .inr ⟨copies, body, result, after, hcopies, hrun, ?_⟩
      rw [exec_ofOption_some]
      simp only
      rw [exec_bind, exec_modify, hinserted]
      simp only
      rw [exec_bind, hrun]
      cases result <;> rfl

theorem remaining_map_true (disks : List Disk) :
    remaining (disks.map fun disk ↦ (disk, true)) = disks := by
  induction disks with
  | nil => rfl
  | cons disk rest ih =>
    unfold remaining at ih ⊢
    rw [List.map_cons, List.filter_cons_of_pos rfl, List.map_cons, ih]

theorem mem_remaining {disk : Disk} : disk ∈ remaining current ↔ (disk, true) ∈ current := by
  unfold remaining
  simp

/-- Assumes: the desired disks that a disk recognizes are copies of the discovered one with its
name. Resetting it keeps the invariant, and a rejected call changes nothing. -/
theorem Config.Sound.resetOne {s : Controller} (h : config.Sound s) (id : Identity)
    (useWholeDisk : Bool)
    (hid : ∀ discovered, config.findByCtd id = some discovered → ∀ current ∈ s.desired,
      id.nameMatches current.identity = true → current.identity = discovered.identity) :
    ∃ result after, exec (config.resetDisks useWholeDisk [id]
        (s.desired.map fun current ↦ (current, true)) []) s = (result, after) ∧
      after = { s with desired := after.desired } ∧ config.Distinct after.desired ∧
      ∀ raised, result = .error raised → raised.isBadDisk = true → after = s := by
  have hpresent : ∀ entry ∈ s.desired.map fun current ↦ (current, true),
      id.nameMatches entry.1.identity = true → entry.2 = true := by
    intro entry hentry _
    obtain ⟨current, -, rfl⟩ := List.mem_map.mp hentry
    rfl
  cases hfind : config.findByCtd id with
  | none =>
    rw [Config.resetDisks, hfind]
    exact ⟨_, s, rfl, rfl, h.desired, fun _ _ _ ↦ rfl⟩
  | some discovered =>
    have hrest := remaining_removed id (s.desired.map fun current ↦ (current, true))
    rw [remaining_map_true] at hrest
    by_cases hfound : ((s.desired.map fun current ↦ (current, true)).any fun entry ↦
        id.nameMatches entry.1.identity) = true
    · have hsub : config.Distinct (s.desired.filter fun other ↦ !id.nameMatches other.identity) :=
        h.desired.of_sublist (List.Sublist.map _ List.filter_sublist)
      rcases exec_resetDisks_cons hfind hpresent hfound [] [] s with
        hexec | ⟨copies, body, result, after, hcopies, hrun, hexec⟩
      · refine ⟨_, _, hexec, rfl, ?_, fun raised hraised hbad ↦ ?_⟩
        · rw [hrest, List.append_nil]
          exact hsub
        · obtain rfl := Except.error.inj hraised
          cases hbad
      · rw [Config.resetDisks, exec_pure] at hrun
        obtain ⟨rfl, rfl⟩ := Prod.mk.inj hrun
        refine ⟨_, _, hexec, rfl, ?_, fun raised hraised ↦ nomatch hraised⟩
        rw [hrest, List.nil_append]
        rcases hcopies with rfl | rfl
        · rw [List.append_nil]
          exact hsub
        · obtain ⟨entry, hentry, hmatch⟩ := List.any_eq_true.mp hfound
          obtain ⟨current, hcurrent, rfl⟩ := List.mem_map.mp hentry
          have heq := hid discovered hfind current hcurrent hmatch
          refine hsub.append ⟨?_, List.nodup_singleton _⟩ fun other hother hmem ↦ ?_
          · intro other hother
            rw [List.mem_singleton.mp hother, ← heq]
            exact h.desired.clear _ (mem_identities hcurrent)
          · obtain ⟨kept, hkept, rfl⟩ := List.mem_map.mp hother
            have hnot := (List.mem_filter.mp hkept).2
            rw [List.mem_singleton.mp hmem, ← heq, hmatch] at hnot
            cases hnot
    · have hnone : (s.desired.filter fun other ↦ !id.nameMatches other.identity) = s.desired := by
        refine List.filter_eq_self.mpr fun other hother ↦ ?_
        rw [Bool.not_eq_true']
        refine Bool.eq_false_iff.mpr fun hmatch ↦ hfound ?_
        exact List.any_eq_true.mpr ⟨_, List.mem_map_of_mem hother, hmatch⟩
      rw [Config.resetDisks, hfind]
      simp only [removeMatching_of_present hpresent, Bool.eq_false_iff.mpr hfound, hrest, hnone]
      rw [exec_bind, exec_modify]
      simp only
      rw [exec_bind, exec_lift]
      simp only [List.append_nil]
      exact ⟨_, s, rfl, rfl, h.desired, fun _ _ _ ↦ rfl⟩

/-- Assumes: the disks to reset are desired and still there, and each of them is the first
discovered one with its name. Resetting them keeps the disks distinct and is not rejected. -/
theorem exists_resetDisks (useWholeDisk : Bool) {ids : List Identity}
    {inserted : List Disk} {s : Controller} (hs : s.desired = remaining current ++ inserted)
    (hdistinct : config.Distinct s.desired)
    (hclear : ∀ entry ∈ current, config.Clear entry.1.identity)
    (hnodup : ids.Nodup) (hids : ∀ id ∈ ids, id ∈ identities (remaining current) ∧
      ∃ discovered, config.findByCtd id = some discovered ∧ discovered.identity = id)
    (hpresent : ∀ entry ∈ current, entry.1.identity ∈ ids → entry.2 = true) :
    ∃ result after, exec (config.resetDisks useWholeDisk ids current inserted) s = (result, after) ∧
      after = { s with desired := after.desired } ∧ config.Distinct after.desired ∧
      ∀ raised, result = .error raised → raised.isBadDisk = false := by
  induction ids generalizing current inserted s with
  | nil =>
    have hnil : exec (config.resetDisks useWholeDisk [] current inserted) s = (.ok [], s) := by
      rw [Config.resetDisks, exec_pure]
    exact ⟨_, s, hnil, rfl, hdistinct, fun raised h ↦ (nomatch h)⟩
  | cons id rest ih =>
    obtain ⟨hmem, discovered, hfind, hdiscovered⟩ := hids id List.mem_cons_self
    obtain ⟨disk, hdisk, hid⟩ := List.mem_map.mp hmem
    have hclearId : config.Clear id := by
      rw [← hid]
      exact hclear _ (mem_remaining.mp hdisk)
    have hmatch : ∀ entry ∈ current, id.nameMatches entry.1.identity = true ↔
        id = entry.1.identity :=
      fun entry hentry ↦ hclearId.nameMatches_iff (hclear entry hentry)
    have hfound : (current.any fun entry ↦ id.nameMatches entry.1.identity) = true :=
      List.any_eq_true.mpr ⟨_, mem_remaining.mp hdisk,
        (hmatch _ (mem_remaining.mp hdisk)).mpr hid.symm⟩
    have hthere : ∀ entry ∈ current, id.nameMatches entry.1.identity = true → entry.2 = true :=
      fun entry hentry h ↦ hpresent entry hentry ((hmatch entry hentry).mp h ▸ List.mem_cons_self)
    rw [hs] at hdistinct
    have hrest : config.Distinct (remaining (removed id current) ++ inserted) := by
      rw [remaining_removed]
      exact hdistinct.of_sublist (List.Sublist.map _ (List.filter_sublist.append_right _))
    rcases exec_resetDisks_cons hfind hthere hfound rest inserted s with
      hexec | ⟨copies, body, result, after, hcopies, hrun, hexec⟩
    · exact ⟨_, _, hexec, rfl, hrest, fun raised h ↦ (Except.error.inj h) ▸ rfl⟩
    · rw [List.nodup_cons] at hnodup
      have hnext : config.Distinct (remaining (removed id current) ++ (inserted ++ copies)) := by
        rcases hcopies with rfl | rfl
        · rw [List.append_nil]
          exact hrest
        · rw [← List.append_assoc]
          refine hrest.append ⟨fun other hother ↦ ?_,
            List.nodup_singleton _⟩ fun other hother hcopy ↦ ?_
          · rw [List.mem_singleton.mp hother, hdiscovered]
            exact hclearId
          · rw [List.mem_singleton.mp hcopy, hdiscovered, identities_append,
              remaining_removed] at hother
            rcases List.mem_append.mp hother with hkept | hinserted
            · obtain ⟨kept, hkept, hkeptId⟩ := List.mem_map.mp hkept
              have hnot := (List.mem_filter.mp hkept).2
              rw [hkeptId, hclearId.self] at hnot
              cases hnot
            · have hboth := hdistinct.nodup
              rw [identities_append, List.nodup_append] at hboth
              exact hboth.2.2 id hmem id hinserted rfl
      have hih :=
        ih (s := { s with desired := remaining (removed id current) ++ (inserted ++ copies) })
        rfl hnext (fun entry hentry ↦ ?_) hnodup.2 (fun other hother ↦ ?_)
        (fun entry hentry hin ↦ ?_)
      · obtain ⟨result', after', hrun', hframe, hdesired, herror⟩ := hih
        obtain ⟨rfl, rfl⟩ := Prod.mk.inj (hrun.symm.trans hrun')
        refine ⟨_, after, hexec, hframe, hdesired, fun raised h ↦ ?_⟩
        cases result with
        | ok others => cases h
        | error raised' => exact Except.error.inj h ▸ herror raised' rfl
      · obtain ⟨old, hold, rfl⟩ := List.mem_map.mp hentry
        exact hclear old hold
      · obtain ⟨hother', hfirst⟩ := hids other (List.mem_cons_of_mem _ hother)
        refine ⟨?_, hfirst⟩
        obtain ⟨kept, hkept, hkeptId⟩ := List.mem_map.mp hother'
        rw [remaining_removed]
        refine List.mem_map.mpr ⟨kept, List.mem_filter.mpr ⟨hkept, ?_⟩, hkeptId⟩
        rw [Bool.not_eq_true']
        refine Bool.eq_false_iff.mpr fun h ↦ hnodup.1 ?_
        rw [(hmatch _ (mem_remaining.mp hkept)).mp h, hkeptId]
        exact hother
      · obtain ⟨old, hold, rfl⟩ := List.mem_map.mp hentry
        have hnot : id.nameMatches old.1.identity = false := Bool.eq_false_iff.mpr fun h ↦
          hnodup.1 ((hmatch old hold).mp h ▸ hin)
        rw [hpresent old hold (List.mem_cons_of_mem _ hin), hnot]
        rfl

theorem Config.Clear.filter_nameMatches {id : Identity} (h : config.Clear id) :
    (config.discovered.map Disk.identity).filter id.nameMatches = [id] := by
  have hfilter : (identities config.discovered).filter id.nameMatches =
      (identities config.discovered).filter (· == id) := by
    refine List.filter_congr fun other hother ↦ ?_
    rw [Bool.eq_iff_iff, beq_iff_eq]
    exact ⟨fun hmatch ↦ h.eq other hother (.inl hmatch), fun heq ↦ heq ▸ h.self⟩
  rw [← identities, hfilter, List.filter_beq, h.once, List.replicate_one]

/-- Resetting all desired disks, where each of them is the first discovered one with its name. -/
theorem Config.Sound.resetAll {s : Controller} (h : config.Sound s) (useWholeDisk : Bool)
    (hfirst : ∀ current ∈ s.desired, ∃ discovered,
      config.findByCtd current.identity = some discovered ∧
      discovered.identity = current.identity) :
    ∃ result after, exec (config.resetLayout none useWholeDisk) s = (result, after) ∧
      after = { s with desired := after.desired } ∧ config.Distinct after.desired ∧
      ∀ raised, result = .error raised → raised.isBadDisk = false := by
  have hids : (s.desired.flatMap fun current ↦
      (config.discovered.map Disk.identity).filter current.identity.nameMatches) =
      identities s.desired := by
    have hmap : identities s.desired = s.desired.flatMap fun current ↦ [current.identity] :=
      List.map_eq_flatMap
    rw [hmap]
    refine List.flatMap_congr fun current hcurrent ↦ ?_
    exact (h.desired.clear _ (mem_identities hcurrent)).filter_nameMatches
  unfold Config.resetLayout
  rw [exec_bind, exec_get]
  simp only
  rw [hids]
  refine exists_resetDisks useWholeDisk ?_ h.desired (fun entry hentry ↦ ?_) h.desired.nodup
    (fun id hid ↦ ?_) fun entry hentry _ ↦ ?_
  · rw [remaining_map_true, List.append_nil]
  · obtain ⟨current, hcurrent, rfl⟩ := List.mem_map.mp hentry
    exact h.desired.clear _ (mem_identities hcurrent)
  · rw [remaining_map_true]
    obtain ⟨current, hcurrent, rfl⟩ := List.mem_map.mp hid
    exact ⟨hid, hfirst current hcurrent⟩
  · obtain ⟨current, -, rfl⟩ := List.mem_map.mp hentry
    rfl

end Userland.Install.TargetController
