import Mathlib.Data.List.Induction
import Userland.Install.DataObject.Tree

/-!
# Pools of a logical element

`ShadowZpool.insert` posts an error for a pool with the name of another one, for a second root pool,
and for a mountpoint whose common prefix with another one is not `/`. The prefix is one of
characters and not of directories: it takes `/foo` and `/fab` for overlapping, and nothing overlaps
with `/`. The errors are as intended, for all pools together and for every two of them, exactly if
none of the two kinds of mistake occurs (`judged_iff`).

Scope. A mountpoint is a text; the components of a directory are the texts between slashes that are
not empty.
-/

set_option autoImplicit false
set_option relaxedAutoImplicit false

namespace Userland.Install.Target

open Library

/-- What is looked at of a pool. -/
structure Zpool where
  name : List Char
  isRoot : Bool
  mountpoint : Option (List Char)
deriving DecidableEq

/-- What is posted. -/
inductive ZpoolError
  | duplicateZpoolName (name : List Char)
  | tooManyRootPools (name : List Char)
  | duplicateMountpoint (mountpoint : List Char)
deriving DecidableEq

/-- The pools and the errors that were posted. -/
structure ShadowZpool where
  shadow : List Zpool
  errors : List ZpoolError

namespace ShadowZpool

/-- `os.path.commonprefix` of two texts. -/
def commonprefix : List Char → List Char → List Char
  | c :: text, d :: other => if c = d then c :: commonprefix text other else []
  | _, _ => []

/-- The errors that one pool in the list causes because of its mountpoint. -/
def mountpointErrors (value zpool : Zpool) : List ZpoolError :=
  match value.mountpoint, zpool.mountpoint with
  | some mountpoint, some other =>
    if commonprefix mountpoint other ≠ ['/'] then [.duplicateMountpoint mountpoint] else []
  | _, _ => []

/-- What is posted for a pool that is inserted. -/
def insertErrors (shadow : List Zpool) (value : Zpool) : List ZpoolError :=
  (if shadow.any fun zpool ↦ zpool.name = value.name then [.duplicateZpoolName value.name]
    else []) ++
    (if value.isRoot then (shadow.filter Zpool.isRoot).map fun zpool ↦
      .tooManyRootPools zpool.name else []) ++
    shadow.flatMap (mountpointErrors value)

/-- `insert`. -/
def insert (zpools : ShadowZpool) (index : ℕ) (value : Zpool) : ShadowZpool where
  shadow := DataObject.listInsert index value zpools.shadow
  errors := zpools.errors ++ insertErrors zpools.shadow value

/-- A logical element without pools. -/
def empty : ShadowZpool :=
  ⟨[], []⟩

/-- A row of insertions. -/
def run (insertions : List (ℕ × Zpool)) : ShadowZpool :=
  insertions.foldl (fun zpools insertion ↦ zpools.insert insertion.1 insertion.2) empty

/-! ### What is asked of the errors -/

/-- An absolute path. -/
def IsAbsolute (path : List Char) : Prop :=
  ∃ rest, path = '/' :: rest

/-- The directories on the way to a path. -/
def components (path : List Char) : List (List Char) :=
  (path.splitOn '/').filter (· ≠ [])

/-- One path is the other one or a directory above it. -/
def Nested (path other : List Char) : Prop :=
  IsAbsolute path ∧ IsAbsolute other ∧
    (components path <+: components other ∨ components other <+: components path)

/-- Both paths go on with the same character after a slash. -/
def Alike (path other : List Char) : Prop :=
  ∃ c rest rest', path = '/' :: c :: rest ∧ other = '/' :: c :: rest'

/-- Something is the case for the mountpoints of two pools. -/
def Mounted (R : List Char → List Char → Prop) (value zpool : Zpool) : Prop :=
  ∃ mountpoint other, value.mountpoint = some mountpoint ∧ zpool.mountpoint = some other ∧
    R mountpoint other

/-- Something is the case for two of the pools. -/
def SomePair (R : Zpool → Zpool → Prop) (zpools : List Zpool) : Prop :=
  ∃ first second, [first, second].Sublist zpools ∧ R first second

/-- Two pools have one name, are both root, or have nested mountpoints. -/
def Conflict (value zpool : Zpool) : Prop :=
  value.name = zpool.name ∨ (value.isRoot ∧ zpool.isRoot) ∨ Mounted Nested value zpool

/-- Errors are posted exactly if two pools conflict, and of any two pools the later one is reported
for its mountpoint exactly if that is nested with the one of the earlier pool. -/
def Judged (insertions : List (ℕ × Zpool)) : Prop :=
  ((run insertions).errors ≠ [] ↔ SomePair Conflict (insertions.map Prod.snd)) ∧
    ∀ first second, [first, second].Sublist (insertions.map Prod.snd) →
      (mountpointErrors second first ≠ [] ↔ Mounted Nested second first)

/-- A conflict that is seen: not that of nested mountpoints that go on differently. -/
def Seen (value zpool : Zpool) : Prop :=
  value.name = zpool.name ∨ (value.isRoot ∧ zpool.isRoot) ∨
    Mounted (fun path other ↦ Nested path other ∧ Alike path other) value zpool

/-- Nested mountpoints that go on differently after the slash, as with `/`. -/
def Missed (value zpool : Zpool) : Prop :=
  Mounted (fun path other ↦ Nested path other ∧ ¬ Alike path other) value zpool

/-- Mountpoints that are not nested, but not absolute or alike. -/
def Spurious (value zpool : Zpool) : Prop :=
  Mounted (fun path other ↦ ¬ Nested path other ∧
    (¬ (IsAbsolute path ∧ IsAbsolute other) ∨ Alike path other)) value zpool

/-! ### Two mountpoints -/

variable {path other : List Char} {value zpool : Zpool} {shadow zpools : List Zpool}

theorem Nested.symm (h : Nested path other) : Nested other path :=
  ⟨h.2.1, h.1, h.2.2.symm⟩

theorem Alike.symm : Alike path other → Alike other path
  | ⟨c, rest, rest', h, h'⟩ => ⟨c, rest', rest, h', h⟩

theorem Mounted.symm {R R' : List Char → List Char → Prop}
    (hR : ∀ path other, R path other → R' other path) :
    Mounted R value zpool → Mounted R' zpool value
  | ⟨mountpoint, other, h, h', hmounted⟩ => ⟨other, mountpoint, h', h, hR _ _ hmounted⟩

theorem Mounted.imp {R R' : List Char → List Char → Prop}
    (hR : ∀ path other, R path other → R' path other) :
    Mounted R value zpool → Mounted R' value zpool
  | ⟨mountpoint, other, h, h', hmounted⟩ => ⟨mountpoint, other, h, h', hR _ _ hmounted⟩

theorem Spurious.symm (h : Spurious value zpool) : Spurious zpool value :=
  Mounted.symm (fun _ _ h ↦ ⟨fun hnested ↦ h.1 hnested.symm,
    h.2.imp (fun habsolute hboth ↦ habsolute hboth.symm) Alike.symm⟩) h

theorem Missed.symm (h : Missed value zpool) : Missed zpool value :=
  Mounted.symm (fun _ _ h ↦ ⟨h.1.symm, fun halike ↦ h.2 halike.symm⟩) h

/-- A slash is what two absolute paths have in common that go on differently. -/
theorem commonprefix_eq_slash_iff :
    commonprefix path other = ['/'] ↔ (IsAbsolute path ∧ IsAbsolute other) ∧
    ¬ Alike path other := by
  constructor
  · intro h
    match path, other with
    | [], _ => cases h
    | _ :: _, [] => cases h
    | c :: text, d :: text' =>
      rw [ commonprefix] at h
      split_ifs at h with hcd
      rw [List.cons.injEq] at h
      obtain ⟨rfl, hrest⟩ := h
      refine ⟨⟨⟨text, rfl⟩, ⟨text', by rw [hcd]⟩⟩, fun ⟨e, rest, rest', hpath, hother⟩ ↦ ?_⟩
      rw [List.cons.injEq] at hpath hother
      rw [hpath.2, hother.2, commonprefix, if_pos rfl] at hrest
      cases hrest
  · rintro ⟨⟨⟨text, rfl⟩, ⟨text', rfl⟩⟩, halike⟩
    rw [ commonprefix, if_pos rfl]
    match text, text' with
    | [], _ => rw [ commonprefix]; rintro _ _ _ _ h; cases h
    | _ :: _, [] => rw [ commonprefix]; rintro _ _ _ _ _ h; cases h
    | c :: rest, d :: rest' =>
      have hcd : c ≠ d := by
        rintro rfl
        exact halike ⟨c, rest, rest', rfl, rfl⟩
      rw [ commonprefix, if_neg hcd]

/-! ### A row of insertions -/

/-- Two pools for which an error is posted. -/
def Clash (value zpool : Zpool) : Prop :=
  Seen value zpool ∨ Spurious value zpool

theorem Clash.symm (h : Clash value zpool) : Clash zpool value := by
  rcases h with (hname | hroot | hseen) | hspurious
  · exact Or.inl (Or.inl hname.symm)
  · exact Or.inl (Or.inr (Or.inl hroot.symm))
  · exact Or.inl (Or.inr (Or.inr (hseen.symm fun _ _ h ↦ ⟨h.1.symm, h.2.symm⟩)))
  · exact Or.inr hspurious.symm

theorem conflict_iff : Conflict value zpool ↔ Seen value zpool ∨ Missed value zpool := by
  constructor
  · rintro (hname | hroot | ⟨path, other, hpath, hother, hnested⟩)
    · exact Or.inl (Or.inl hname)
    · exact Or.inl (Or.inr (Or.inl hroot))
    · by_cases halike : Alike path other
      · exact Or.inl (Or.inr (Or.inr ⟨path, other, hpath, hother, hnested, halike⟩))
      · exact Or.inr ⟨path, other, hpath, hother, hnested, halike⟩
  · rintro ((hname | hroot | hseen) | hmissed)
    · exact Or.inl hname
    · exact Or.inr (Or.inl hroot)
    · exact Or.inr (Or.inr (hseen.imp fun _ _ h ↦ h.1))
    · exact Or.inr (Or.inr (hmissed.imp fun _ _ h ↦ h.1))

theorem mountpointErrors_ne_nil_iff :
    mountpointErrors value zpool ≠ [] ↔
      Mounted (fun path other ↦ commonprefix path other ≠ ['/']) value zpool := by
  unfold mountpointErrors Mounted
  split
  · rename_i mountpoint other hvalue hzpool
    rw [hvalue, hzpool]
    simp
  · rename_i hnone
    refine ⟨fun h ↦ absurd rfl h, fun ⟨mountpoint, other, hvalue, hzpool, _⟩ ↦
      (hnone _ _ hvalue hzpool).elim⟩

/-- An error is posted for a pool exactly if it clashes with one in the list. -/
theorem insertErrors_eq_nil_iff : insertErrors shadow value = [] ↔
    ∀ zpool ∈ shadow, ¬ Clash value zpool := by
  have hclash : ∀ zpool, Clash value zpool ↔ value.name = zpool.name ∨
      (value.isRoot ∧ zpool.isRoot) ∨
      mountpointErrors value zpool ≠ [] := by
    intro zpool
    rw [mountpointErrors_ne_nil_iff]
    constructor
    · rintro ((hname | hroot | hseen) | hspurious)
      · exact Or.inl hname
      · exact Or.inr (Or.inl hroot)
      · exact Or.inr (Or.inr (hseen.imp fun _ _ h hslash ↦
          (commonprefix_eq_slash_iff.mp hslash).2 h.2))
      · refine Or.inr (Or.inr (hspurious.imp fun path other h hslash ↦ ?_))
        exact h.2.elim (fun habs ↦ habs (commonprefix_eq_slash_iff.mp hslash).1)
          (commonprefix_eq_slash_iff.mp hslash).2
    · rintro (hname | hroot | ⟨path, other, hpath, hother, hslash⟩)
      · exact Or.inl (Or.inl hname)
      · exact Or.inl (Or.inr (Or.inl hroot))
      · rw [ne_eq, commonprefix_eq_slash_iff, not_and_or, not_not] at hslash
        by_cases hnested : Nested path other
        · have halike := hslash.resolve_left fun h ↦ h ⟨hnested.1, hnested.2.1⟩
          exact Or.inl (Or.inr (Or.inr ⟨path, other, hpath, hother, hnested, halike⟩))
        · exact Or.inr ⟨path, other, hpath, hother, hnested, hslash⟩
  simp only [hclash]
  unfold insertErrors
  have hname : (if shadow.any fun zpool ↦ zpool.name = value.name then
      [ZpoolError.duplicateZpoolName value.name] else []) = [] ↔
          ∀ zpool ∈ shadow, value.name ≠ zpool.name := by
    simp only [ite_eq_right_iff, List.any_eq_true, decide_eq_true_eq, reduceCtorEq, imp_false,
      not_exists, not_and]
    exact forall₂_congr fun _ _ ↦ not_congr eq_comm
  have hroot : (if value.isRoot then (shadow.filter Zpool.isRoot).map fun zpool ↦
      ZpoolError.tooManyRootPools zpool.name else []) = [] ↔
      ∀ zpool ∈ shadow, ¬ (value.isRoot ∧ zpool.isRoot) := by
    cases value.isRoot <;> simp
  rw [List.append_eq_nil_iff, List.append_eq_nil_iff, List.flatMap_eq_nil_iff, hname, hroot]
  constructor
  · rintro ⟨⟨hname, hroot⟩, hmount⟩ zpool hzpool (h | h | h)
    · exact hname zpool hzpool h
    · exact hroot zpool hzpool h
    · exact h (hmount zpool hzpool)
  · intro h
    exact ⟨⟨fun zpool hzpool hsame ↦ h zpool hzpool (Or.inl hsame),
      fun zpool hzpool hboth ↦ h zpool hzpool (Or.inr (Or.inl hboth))⟩,
      fun zpool hzpool ↦ not_not.mp fun hne ↦ h zpool hzpool (Or.inr (Or.inr hne))⟩

/-- The list has the pools that were inserted, and nothing is posted exactly if no two of them
clash. -/
theorem run_spec (insertions : List (ℕ × Zpool)) :
    (run insertions).shadow.Perm (insertions.map Prod.snd) ∧
      ((run insertions).errors = [] ↔
        (insertions.map Prod.snd).Pairwise fun first second ↦ ¬ Clash first second) := by
  induction insertions using List.reverseRecOn with
  | nil => exact ⟨List.Perm.refl _, iff_of_true rfl List.Pairwise.nil⟩
  | append_singleton insertions insertion ih =>
    obtain ⟨hperm, herrors⟩ := ih
    have hrun : run (insertions ++ [insertion]) =
        (run insertions).insert insertion.1 insertion.2 := by
      rw [run, List.foldl_append]
      rfl
    rw [hrun, List.map_append, List.map_singleton]
    constructor
    · exact (DataObject.perm_listInsert _ _ _).trans ((hperm.cons _).trans
        (List.perm_append_singleton _ _).symm)
    · show (run insertions).errors ++ insertErrors (run insertions).shadow insertion.2 = [] ↔ _
      rw [List.append_eq_nil_iff, herrors, insertErrors_eq_nil_iff, List.pairwise_append]
      constructor
      · rintro ⟨hbefore, hnew⟩
        refine ⟨hbefore, List.pairwise_singleton _ _, fun first hfirst second hsecond hclash ↦ ?_⟩
        rw [List.mem_singleton] at hsecond
        exact hnew first (hperm.mem_iff.mpr hfirst) (hsecond ▸ hclash).symm
      · rintro ⟨hbefore, -, hnew⟩
        exact ⟨hbefore, fun zpool hzpool hclash ↦
          hnew zpool (hperm.mem_iff.mp hzpool) _ List.mem_cons_self hclash.symm⟩

theorem errors_run_ne_nil_iff (insertions : List (ℕ × Zpool)) :
    (run insertions).errors ≠ [] ↔ SomePair Clash (insertions.map Prod.snd) := by
  rw [ne_eq, (run_spec insertions).2, List.pairwise_iff_forall_sublist]
  unfold SomePair
  push Not
  rfl

theorem somePair_or (R R' : Zpool → Zpool → Prop) :
    SomePair (fun value zpool ↦ R value zpool ∨ R' value zpool) zpools ↔
    SomePair R zpools ∨ SomePair R' zpools := by
  unfold SomePair
  simp only [and_or_left, exists_or]

theorem somePair_two (R : Zpool → Zpool → Prop) (value zpool : Zpool) :
    SomePair R [value, zpool] ↔ R value zpool := by
  refine ⟨fun ⟨first, second, hsub, hR⟩ ↦ ?_, fun hR ↦ ⟨value, zpool, List.Sublist.refl _, hR⟩⟩
  have heq := hsub.eq_of_length rfl
  rw [List.cons.injEq, List.cons.injEq] at heq
  rwa [← heq.1, ← heq.2.1]

theorem mounted_iff {R : List Char → List Char → Prop} (hvalue : value.mountpoint = some path)
    (hzpool : zpool.mountpoint = some other) : Mounted R value zpool ↔ R path other := by
  unfold Mounted
  rw [hvalue, hzpool]
  simp

/-- Of two pools one is reported as intended exactly if none of the two mistakes is made. -/
theorem mountpointErrors_judged_iff :
    (mountpointErrors value zpool ≠ [] ↔ Mounted Nested value zpool) ↔
      ¬ Spurious value zpool ∧ ¬ Missed value zpool := by
  rw [mountpointErrors_ne_nil_iff]
  cases hvalue : value.mountpoint with
  | none => simp [Mounted, Spurious, Missed, hvalue]
  | some path =>
    cases hzpool : zpool.mountpoint with
    | none => simp [Mounted, Spurious, Missed, hzpool]
    | some other =>
      rw [Spurious, Missed, mounted_iff hvalue hzpool, mounted_iff hvalue hzpool,
        mounted_iff hvalue hzpool, mounted_iff hvalue hzpool, ne_eq, commonprefix_eq_slash_iff]
      have habsolute : Nested path other → IsAbsolute path ∧ IsAbsolute other :=
        fun h ↦ ⟨h.1, h.2.1⟩
      tauto

/-- The errors are right exactly if no two pools are reported without a conflict, and none is
missed. -/
theorem judged_iff (insertions : List (ℕ × Zpool)) :
    Judged insertions ↔ ¬ SomePair Spurious (insertions.map Prod.snd) ∧
      ¬ SomePair Missed (insertions.map Prod.snd) := by
  have hconflict : SomePair Conflict (insertions.map Prod.snd) ↔
      SomePair Seen (insertions.map Prod.snd) ∨ SomePair Missed (insertions.map Prod.snd) := by
    rw [← somePair_or]
    simp only [SomePair, conflict_iff]
  have hclash : SomePair Clash (insertions.map Prod.snd) ↔
      SomePair Seen (insertions.map Prod.snd) ∨ SomePair Spurious (insertions.map Prod.snd) :=
    somePair_or Seen Spurious
  rw [Judged, errors_run_ne_nil_iff, hconflict, hclash]
  constructor
  · rintro ⟨-, hpairs⟩
    exact ⟨fun ⟨first, second, hsub, h⟩ ↦
      (mountpointErrors_judged_iff.mp (hpairs first second hsub)).1 h.symm,
      fun ⟨first, second, hsub, h⟩ ↦
        (mountpointErrors_judged_iff.mp (hpairs first second hsub)).2 h.symm⟩
  · rintro ⟨hspurious, hmissed⟩
    refine ⟨by simp only [hspurious, hmissed], fun first second hsub ↦
      mountpointErrors_judged_iff.mpr ?_⟩
    exact ⟨fun h ↦ hspurious ⟨first, second, hsub, h.symm⟩,
      fun h ↦ hmissed ⟨first, second, hsub, h.symm⟩⟩

/-- Pools of unrelated directories that begin with the same letter, and a pool below the root
directory. -/
theorem not_judged_foo :
    ¬ Judged [(0, ⟨['a'], false, some "/foo".toList⟩), (1, ⟨['b'], false, some "/fab".toList⟩)] ∧
      ¬ Judged [(0, ⟨['a'], false, some "/".toList⟩), (1, ⟨['b'], false, some "/foo".toList⟩)] := by
  constructor
  · intro h
    obtain hname | hroot | ⟨mountpoint, other, hfirst, hsecond, hnested⟩ :=
      (somePair_two Conflict _ _).mp (h.1.mp (by decide))
    · exact absurd hname (by decide)
    · exact absurd hroot (by decide)
    · cases hfirst
      cases hsecond
      exact absurd hnested.2.2 (by decide)
  · intro h
    refine absurd (h.1.mpr ((somePair_two Conflict _ _).mpr ?_)) (by decide)
    exact Or.inr (Or.inr ⟨_, _, rfl, rfl, ⟨[], rfl⟩, ⟨"foo".toList, rfl⟩, Or.inl (by decide)⟩)

end ShadowZpool

end Userland.Install.Target
