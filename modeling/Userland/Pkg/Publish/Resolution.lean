import Mathlib.Data.Char
import Userland.Library.Traverse
import Userland.Pkg.Publish.FindPackage

/-!
# When file dependencies are resolved

The loop of `find_package_using_delivered_files` appends to the results that it goes through.
Results for later and later candidate paths, each of another package and under no variants of the
one before, form chains, and a result stands among the results once for each chain that ends in it.
So the search returns, reports each ambiguous path and finds nothing twice exactly if some path is
not ambiguous, no chain leads to a path that different packages deliver, and no two chains end in
results on the same package under the same variants, apart from results that overlap with one for a
later path (`returnsProperly_iff`).
-/

set_option autoImplicit false
set_option relaxedAutoImplicit false

namespace Userland.Pkg.Publish

open Library Library.Growing Actions Variant VariantSets

variable {Name Value : Type} [LinearOrder Name] [LinearOrder Value]

/-! ### What a path is delivered by -/

/-- The packages that deliver a path where the dependency is, with the variants under which they do.
-/
def providers (origDepVars : VariantSets Name Value) (lst : List (Provider Name Value)) :
    List (Provider Name Value) :=
  lst.filterMap fun provider ↦
    if h : origDepVars.intersects provider.2 = true then some (provider.1,
      origDepVars.intersection provider.2 h)
    else none

/-- Two packages deliver a path under common variants. -/
def Clash (first second : Provider Name Value) : Prop :=
  first.1 ≠ second.1 ∧ first.2.intersects second.2 = true

instance (first second : Provider Name Value) : Decidable (Clash first second) := by
  unfold Clash
  infer_instance

/-- Different packages deliver a path under common variants. -/
def Ambiguous (origDepVars : VariantSets Name Value) (lst : List (Provider Name Value)) : Prop :=
  ∃ first ∈ providers origDepVars lst, ∃ second ∈ providers origDepVars lst, Clash first second

instance (origDepVars : VariantSets Name Value) (lst : List (Provider Name Value)) :
    Decidable (Ambiguous origDepVars lst) := by
  unfold Ambiguous
  infer_instance

/-! ### Common variants -/

variable {origDepVars : VariantSets Name Value}

/-- Variants within those of the dependency. -/
def Within (origDepVars var : VariantSets Name Value) : Prop :=
  ∃ delivered, ∃ h : origDepVars.intersects delivered = true,
    var = origDepVars.intersection delivered h

theorem Within.get_eq_some_iff {var : VariantSets Name Value} (h : Within origDepVars var)
    {name : Name} :
    (∃ row, var.get name = some row) ↔ ∃ row, origDepVars.get name = some row := by
  obtain ⟨delivered, hdelivered, rfl⟩ := h
  simp only [get_intersection]
  constructor
  · rintro ⟨-, row, hrow, -⟩
    exact ⟨row, hrow⟩
  · rintro ⟨row, hrow⟩
    exact ⟨_, row, hrow, rfl⟩

omit [LinearOrder Value] in
theorem Within.values_of_get {var : VariantSets Name Value} {name : Name} {row : Finset Value}
    (h : var.get name = some row) : var.values name = row := by
  rw [values, h]
  rfl

theorem Within.intersects_iff {first second : VariantSets Name Value}
    (h : Within origDepVars first) :
    first.intersects second = true ↔
      ∀ name row, origDepVars.get name = some row →
      (first.values name ∩ second.values name).Nonempty := by
  rw [VariantSets.intersects_iff]
  constructor
  · intro hall name row hrow
    obtain ⟨row', hrow'⟩ := h.get_eq_some_iff.mpr ⟨row, hrow⟩
    rw [values_of_get hrow']
    exact hall name row' hrow'
  · intro hall name row' hrow'
    obtain ⟨row, hrow⟩ := h.get_eq_some_iff.mp ⟨row', hrow'⟩
    rw [← values_of_get hrow']
    exact hall name row hrow

theorem Within.intersects_comm {first second : VariantSets Name Value}
    (h : Within origDepVars first)
    (h' : Within origDepVars second) : first.intersects second = true ↔
    second.intersects first = true := by
  rw [h.intersects_iff, h'.intersects_iff]
  simp only [Finset.inter_comm]

/-- Comparing with all variants of another package or with those within the dependency's is the
same. -/
theorem Within.intersects_or_iff {first delivered : VariantSets Name Value}
    (h : Within origDepVars first) (hdelivered : origDepVars.intersects delivered = true) :
    (delivered.intersects first = true ∨ first.intersects delivered = true) ↔
      first.intersects (origDepVars.intersection delivered hdelivered) = true := by
  have hvalues : ∀ name, first.values name ⊆ origDepVars.values name := by
    obtain ⟨other, hother, rfl⟩ := h
    intro name
    rw [values_intersection]
    exact Finset.inter_subset_left
  have hsame : first.intersects delivered = true ↔
      first.intersects (origDepVars.intersection delivered hdelivered) = true := by
    rw [h.intersects_iff, h.intersects_iff]
    refine forall₃_congr fun name row _ ↦ ?_
    rw [values_intersection, ← Finset.inter_assoc, Finset.inter_eq_left.mpr (hvalues name)]
  rw [← hsame]
  refine or_iff_right_of_imp fun hback ↦ ?_
  rw [h.intersects_iff]
  intro name row hrow
  have hname := VariantSets.intersects_iff.mp hdelivered name row hrow
  rw [VariantSets.intersects_iff] at hback
  cases hget : delivered.get name with
  | none =>
    rw [values, hget] at hname
    simp at hname
  | some row' =>
    have hnonempty := hback name row' hget
    rwa [← Within.values_of_get hget, Finset.inter_comm] at hnonempty

theorem within_of_mem_providers {lst : List (Provider Name Value)} {provider : Provider Name Value}
    (h : provider ∈ providers origDepVars lst) : Within origDepVars provider.2 := by
  obtain ⟨delivered, -, hdelivered⟩ := List.mem_filterMap.mp h
  split_ifs at hdelivered with hintersects
  obtain rfl := Option.some.inj hdelivered
  exact ⟨_, hintersects, rfl⟩

theorem clash_comm {lst : List (Provider Name Value)} {first second : Provider Name Value}
    (h : first ∈ providers origDepVars lst) (h' : second ∈ providers origDepVars lst) :
    Clash first second ↔ Clash second first := by
  unfold Clash
  rw [ne_comm, (within_of_mem_providers h).intersects_comm (within_of_mem_providers h')]

/-! ### One path -/

/-- A package that was found and another one share variants under which they deliver the path. -/
def Meets (found provider : Provider Name Value) : Prop :=
  found.1 ≠ provider.1 ∧ (provider.2.intersects found.2 = true ∨
    found.2.intersects provider.2 = true)

theorem mem_clashing {vars : List (Provider Name Value)} {provider : Provider Name Value}
    {errs : Finset (List Char)} {pfmri : List Char} : pfmri ∈ clashing vars provider errs ↔
      pfmri ∈ errs ∨ ∃ found ∈ vars, Meets found provider ∧
      (pfmri = found.1 ∨ pfmri = provider.1) := by
  unfold clashing
  induction vars generalizing errs with
  | nil => simp
  | cons found vars ih =>
    rw [List.foldl_cons, ih]
    simp only [List.mem_cons, exists_eq_or_imp]
    split_ifs with h
    · rw [and_iff_right (show Meets found provider from h), Finset.mem_insert, Finset.mem_insert]
      simp only [or_assoc, or_left_comm, or_comm]
    · refine or_congr_right (or_iff_right ?_).symm
      exact fun hmeets ↦ h hmeets.1

/-- The packages that `helper` puts into an `AmbiguousPathError`. -/
def Blamed (origDepVars : VariantSets Name Value) (lst : List (Provider Name Value))
    (pfmri : List Char) : Prop :=
  ∃ first ∈ providers origDepVars lst, first.1 = pfmri ∧ ∃ second ∈ providers origDepVars lst,
    Clash first second

theorem blamed_append_iff {lst : List (Provider Name Value)} {last : Provider Name Value}
    (h : origDepVars.intersects last.2 = true) {pfmri : List Char} :
    Blamed origDepVars (lst ++ [last]) pfmri ↔ Blamed origDepVars lst pfmri ∨
      ∃ found ∈ providers origDepVars lst, Meets found last ∧
      (pfmri = found.1 ∨ pfmri = last.1) := by
  have hproviders : providers origDepVars (lst ++ [last]) =
      providers origDepVars lst ++ [(last.1, origDepVars.intersection last.2 h)] := by
    simp [providers, h]
  have hlast : (last.1, origDepVars.intersection last.2 h) ∈
      providers origDepVars (lst ++ [last]) := by
    rw [hproviders]
    exact List.mem_append_right _ (List.mem_singleton_self _)
  have hearlier : ∀ found ∈ providers origDepVars lst,
      found ∈ providers origDepVars (lst ++ [last]) := by
    rw [hproviders]
    exact fun found hfound ↦ List.mem_append_left _ hfound
  have hmeets : ∀ found ∈ providers origDepVars lst,
      Meets found last ↔ Clash found (last.1, origDepVars.intersection last.2 h) :=
          fun found hfound ↦
    and_congr_right fun _ ↦ (within_of_mem_providers hfound).intersects_or_iff h
  unfold Blamed
  constructor
  · rintro ⟨first, hfirst, rfl, second, hsecond, hclash⟩
    rw [hproviders, List.mem_append, List.mem_singleton] at hfirst hsecond
    rcases hfirst with hfirst | rfl
    · rcases hsecond with hsecond | rfl
      · exact Or.inl ⟨first, hfirst, rfl, second, hsecond, hclash⟩
      · exact Or.inr ⟨first, hfirst, (hmeets first hfirst).mpr hclash, Or.inl rfl⟩
    · rcases hsecond with hsecond | rfl
      · exact Or.inr ⟨second, hsecond, (hmeets second hsecond).mpr
          ((clash_comm hlast (hearlier second hsecond)).mp hclash), Or.inr rfl⟩
      · exact absurd rfl hclash.1
  · rintro (⟨first, hfirst, hfmri, second, hsecond, hclash⟩ | ⟨found, hfound, hfmeets, heq⟩)
    · exact ⟨first, hearlier first hfirst, hfmri, second, hearlier second hsecond, hclash⟩
    · have hclash := (hmeets found hfound).mp hfmeets
      rcases heq with rfl | rfl
      · exact ⟨found, hearlier found hfound, rfl, _, hlast, hclash⟩
      · exact ⟨_, hlast, rfl, found, hearlier found hfound,
          (clash_comm (hearlier found hfound) hlast).mp hclash⟩

theorem foldl_helperStep (depVars origDepVars : VariantSets Name Value)
    (lst : List (Provider Name Value)) (notSatSet : Option (Finset (List Value))) :
    (lst.foldl (helperStep depVars origDepVars) ⟨[], ∅, notSatSet⟩).vars =
    providers origDepVars lst ∧
      ∀ pfmri, pfmri ∈ (lst.foldl (helperStep depVars origDepVars) ⟨[], ∅, notSatSet⟩).errs ↔
        Blamed origDepVars lst pfmri := by
  induction lst using List.reverseRecOn with
  | nil => simp [providers, Blamed]
  | append_singleton lst last ih =>
    obtain ⟨hvars, herrs⟩ := ih
    rw [List.foldl_append, List.foldl_cons, List.foldl_nil, helperStep]
    split_ifs with h
    · refine ⟨?_, fun pfmri ↦ ?_⟩
      · simp [providers, h, hvars]
      · rw [mem_clashing, hvars, herrs, blamed_append_iff h]
    · have hproviders : providers origDepVars (lst ++ [last]) = providers origDepVars lst := by
        simp [providers, h]
      refine ⟨by rw [hvars, hproviders], fun pfmri ↦ ?_⟩
      rw [herrs, Blamed, Blamed, hproviders]

/-- `helper` finds the packages that deliver the path, unless it is ambiguous. -/
theorem helper_of_not_ambiguous {lst : List (Provider Name Value)} (h : ¬ Ambiguous origDepVars lst)
    (depVars : VariantSets Name Value) (notSatSet : Option (Finset (List Value))) :
    ∃ notSatSet', helper lst depVars origDepVars notSatSet = (.ok (providers origDepVars lst),
      notSatSet') := by
  obtain ⟨hvars, herrs⟩ := foldl_helperStep depVars origDepVars lst notSatSet
  have hempty : (lst.foldl (helperStep depVars origDepVars) ⟨[], ∅, notSatSet⟩).errs = ∅ := by
    refine Finset.eq_empty_of_forall_notMem fun pfmri hpfmri ↦ ?_
    obtain ⟨first, hfirst, -, second, hsecond, hclash⟩ := (herrs pfmri).mp hpfmri
    exact h ⟨first, hfirst, second, hsecond, hclash⟩
  rw [helper, if_pos hempty, hvars]
  exact ⟨_, rfl⟩

theorem helper_of_ambiguous {lst : List (Provider Name Value)} (h : Ambiguous origDepVars lst)
    (depVars : VariantSets Name Value) (notSatSet : Option (Finset (List Value))) :
    ∃ errs notSatSet', helper lst depVars origDepVars notSatSet = (.error errs, notSatSet') ∧
      ∀ pfmri, pfmri ∈ errs ↔ Blamed origDepVars lst pfmri := by
  obtain ⟨-, herrs⟩ := foldl_helperStep depVars origDepVars lst notSatSet
  obtain ⟨first, hfirst, second, hsecond, hclash⟩ := h
  have hmem := (herrs first.1).mpr ⟨first, hfirst, rfl, second, hsecond, hclash⟩
  rw [helper, if_neg (Finset.ne_empty_of_mem hmem)]
  exact ⟨_, _, rfl, herrs⟩

/-! ### All paths -/

/-- Two results overlap if different packages deliver candidate paths under common variants. -/
def Overlap (a b : Found Name Value) : Prop :=
  a.fmri ≠ b.fmri ∧ (a.vars.intersects b.vars = true ∨ b.vars.intersects a.vars = true)

/-- Two results are apart if different packages deliver candidate paths under no common variants. -/
def apart (a b : Found Name Value) : Bool :=
  decide (a.fmri ≠ b.fmri ∧ ¬ (a.vars.intersects b.vars = true ∨ b.vars.intersects a.vars = true))

theorem apart_iff {a b : Found Name Value} (h : ¬ Overlap a b) :
    apart a b = true ↔ a.fmri ≠ b.fmri := by
  rw [apart, decide_eq_true_iff]
  exact and_iff_left_of_imp fun hne hmeet ↦ h ⟨hne, hmeet⟩

/-- A result is settled if none for a later path overlaps with it. -/
def Settled (gathered : List (Found Name Value)) (a : Found Name Value) : Prop :=
  ∀ b ∈ gathered, a.path < b.path → ¬ Overlap a b

/-- Chains of results for later and later paths, each apart from the one before. -/
abbrev Linked (gathered chain : List (Found Name Value)) : Prop :=
  Chain Found.path apart gathered chain

/-- No chain of two or more results leads to a path that different packages deliver. -/
def Ends (gathered : List (Found Name Value)) : Prop :=
  ∀ a before chain, Linked gathered (a :: before :: chain) → ∀ b ∈ gathered, b.path = a.path →
    b.fmri = a.fmri

def Marked (marks : Marks Name Value) (id : ℕ × ℕ) : Prop :=
  (marks.multiplePathErrs.lookup id).isSome

theorem compareAll_spec (newRes : List (Found Name Value)) (marks : Marks Name Value)
    (a : Found Name Value) :
    (compareAll newRes marks a).2 = newRes.filter (apart a) ∧
    ∀ id, Marked (compareAll newRes marks a).1 id ↔
      Marked marks id ∨ id = a.id ∧ ∃ new ∈ newRes, Overlap a new := by
  unfold compareAll
  induction newRes using List.reverseRecOn with
  | nil => simp
  | append_singleton newRes new ih =>
    obtain ⟨happended, hmarked⟩ := ih
    rw [List.foldl_append, List.foldl_cons, List.foldl_nil, compareNew, List.filter_append]
    have hexists : (∃ other ∈ newRes ++ [new], Overlap a other) ↔
        (∃ other ∈ newRes, Overlap a other) ∨ Overlap a new := by
      simp [or_and_right, exists_or]
    simp only [hexists]
    split_ifs with hfmri hmeet
    · have hoverlap : ¬ Overlap a new := fun h ↦ h.1 hfmri
      have hapart : apart a new = false := decide_eq_false fun h ↦ h.1 hfmri
      refine ⟨by simp [happended, hapart], fun id ↦ ?_⟩
      rw [or_iff_left hoverlap]
      exact hmarked id
    · have hoverlap : Overlap a new := ⟨hfmri, hmeet⟩
      have hapart : apart a new = false := decide_eq_false fun h ↦ h.2 hmeet
      refine ⟨by simp [happended, hapart], fun id ↦ ?_⟩
      rw [and_iff_left (Or.inr hoverlap), Marked]
      by_cases hid : id = a.id
      · simp [hid, Dict.lookup_set_self]
      · rw [Dict.lookup_set_of_ne _ hid, or_iff_left hid]
        have hid' := hmarked id
        rw [or_iff_left fun h ↦ hid h.1] at hid'
        exact hid'
    · have hoverlap : ¬ Overlap a new := fun h ↦ hmeet h.2
      have hapart : apart a new = true := decide_eq_true ⟨hfmri, hmeet⟩
      refine ⟨by simp [happended, hapart], fun id ↦ ?_⟩
      rw [or_iff_left hoverlap]
      exact hmarked id

theorem marked_foldl (newRes : List (Found Name Value)) (res : List (Found Name Value))
    (marks : Marks Name Value) (id : ℕ × ℕ) :
    Marked (res.foldl (fun marks a ↦ (compareAll newRes marks a).1) marks) id ↔
      Marked marks id ∨ ∃ a ∈ res, id = a.id ∧ ∃ new ∈ newRes, Overlap a new := by
  induction res generalizing marks with
  | nil => simp
  | cons a res ih =>
    rw [List.foldl_cons, ih, (compareAll_spec newRes marks a).2, or_assoc]
    simp only [List.mem_cons, exists_eq_or_imp]

section Paths

variable (cleanFmri : List Char → List Char)
  (delivered : List (List Char × List (Provider Name Value))) (origDepVars : VariantSets Name Value)

/-- Different packages deliver a candidate path under common variants. -/
def AmbiguousPath (p : List Char) : Prop := Ambiguous origDepVars ((delivered.lookup p).getD [])

instance (p : List Char) : Decidable (AmbiguousPath delivered origDepVars p) := by
  unfold AmbiguousPath
  infer_instance

/-- The results for a candidate path, of which there are none for an ambiguous one. -/
def candidates (p : List Char × ℕ) : List (Found Name Value) :=
  if AmbiguousPath delivered origDepVars p.1 then []
  else makeFound cleanFmri p.2 (providers origDepVars ((delivered.lookup p.1).getD []))

/-- The results for all candidate paths. -/
def gathered (paths : List (List Char × ℕ)) : List (Found Name Value) :=
  (paths.map (candidates cleanFmri delivered origDepVars)).flatten

variable {cleanFmri delivered origDepVars}

theorem path_eq_of_mem_candidates {p : List Char × ℕ} {a : Found Name Value}
    (h : a ∈ candidates cleanFmri delivered origDepVars p) : a.path = p.2 := by
  unfold candidates makeFound at h
  split_ifs at h
  · exact absurd h List.not_mem_nil
  · obtain ⟨entry, -, rfl⟩ := List.mem_map.mp h
    rfl

theorem not_overlap_of_mem_candidates {p : List Char × ℕ} {a b : Found Name Value}
    (h : a ∈ candidates cleanFmri delivered origDepVars p)
    (h' : b ∈ candidates cleanFmri delivered origDepVars p) : ¬ Overlap a b := by
  unfold candidates makeFound at h h'
  split_ifs at h h' with hambiguous
  · exact absurd h List.not_mem_nil
  · obtain ⟨⟨provider, place⟩, hentry, rfl⟩ := List.mem_map.mp h
    obtain ⟨⟨provider', place'⟩, hentry', rfl⟩ := List.mem_map.mp h'
    have hmem := List.fst_mem_of_mem_zipIdx hentry
    have hmem' := List.fst_mem_of_mem_zipIdx hentry'
    rintro ⟨hfmri, hmeet⟩
    have hne : provider.1 ≠ provider'.1 := fun heq ↦ hfmri (congrArg cleanFmri heq)
    rcases hmeet with hmeet | hmeet
    · exact hambiguous ⟨provider, hmem, provider', hmem', hne, hmeet⟩
    · exact hambiguous ⟨provider', hmem', provider, hmem, hne.symm, hmeet⟩

theorem nodup_id_candidates (p : List Char × ℕ) :
    ((candidates cleanFmri delivered origDepVars p).map Found.id).Nodup := by
  unfold candidates makeFound
  split_ifs
  · exact List.nodup_nil
  · have hid : (providers origDepVars ((delivered.lookup p.1).getD [])).zipIdx.map
        (Found.id ∘ fun entry ↦ ⟨p.2, entry.2, cleanFmri entry.1.1, entry.1.2⟩) =
        ((providers origDepVars ((delivered.lookup p.1).getD [])).zipIdx.map Prod.snd).map
            fun place ↦ (p.2, place) := by
      rw [List.map_map]
      rfl
    rw [List.map_map, hid, List.zipIdx_map_snd]
    exact (List.nodup_range' ).map fun _ _ heq ↦ (Prod.mk.inj heq).2

/-- The candidate paths are numbered in order. -/
def Numbered (paths : List (List Char × ℕ)) : Prop :=
  paths.Pairwise fun earlier later ↦ earlier.2 < later.2

theorem ranked_candidates {paths : List (List Char × ℕ)} (h : Numbered paths) :
    Ranked Found.path (paths.map (candidates cleanFmri delivered origDepVars)) := by
  constructor
  · intro new hnew a ha b hb
    obtain ⟨p, -, rfl⟩ := List.mem_map.mp hnew
    rw [path_eq_of_mem_candidates ha, path_eq_of_mem_candidates hb]
  · refine List.pairwise_map.mpr (h.imp fun {p p'} hlt a ha b hb ↦ ?_)
    rw [path_eq_of_mem_candidates ha, path_eq_of_mem_candidates hb]
    exact hlt

theorem nodup_id_gathered {paths : List (List Char × ℕ)} (h : Numbered paths) :
    ((gathered cleanFmri delivered origDepVars paths).map Found.id).Nodup := by
  rw [gathered, List.map_flatten, List.nodup_flatten, List.map_map]
  constructor
  · rw [List.forall_mem_map]
    exact fun p _ ↦ nodup_id_candidates p
  · refine List.pairwise_map.mpr (h.imp fun {p p'} hlt ↦ ?_)
    intro id hid hid'
    obtain ⟨a, ha, rfl⟩ := List.mem_map.mp hid
    obtain ⟨b, hb, heq⟩ := List.mem_map.mp hid'
    have hpath := (Prod.mk.inj heq).1
    rw [path_eq_of_mem_candidates ha, path_eq_of_mem_candidates hb] at hpath
    omega

theorem numbered_zipIdx (paths : List (List Char)) : Numbered paths.zipIdx := by
  have h : ((paths.zipIdx).map Prod.snd).Pairwise (· < ·) := by
    rw [List.zipIdx_map_snd]
    exact List.pairwise_lt_range'
  exact List.pairwise_map.mp h

/-! ### The loop over the paths -/

omit [LinearOrder Name] [LinearOrder Value] in
theorem mem_heads_iff {list : List (List (Found Name Value))} {a : Found Name Value} :
    a ∈ list.filterMap List.head? ↔ ∃ chain, a :: chain ∈ list := by
  rw [List.mem_filterMap]
  constructor
  · rintro ⟨chain, hchain, hhead⟩
    obtain ⟨rest, rfl⟩ := List.head?_eq_some_iff.mp hhead
    exact ⟨rest, hchain⟩
  · rintro ⟨chain, hchain⟩
    exact ⟨_, hchain, rfl⟩

theorem gathered_append (paths : List (List Char × ℕ)) (p : List Char × ℕ) :
    gathered cleanFmri delivered origDepVars (paths ++ [p]) =
      gathered cleanFmri delivered origDepVars paths ++
      candidates cleanFmri delivered origDepVars p := by
  simp [gathered]

variable {paths : List (List Char × ℕ)} {p : List Char × ℕ} (h : Numbered (paths ++ [p]))

include h

theorem Numbered.of_append : Numbered paths := (List.pairwise_append.mp h).1

theorem path_lt_of_mem_gathered {a : Found Name Value}
    (ha : a ∈ gathered cleanFmri delivered origDepVars paths) : a.path < p.2 := by
  obtain ⟨new, hnew, ha⟩ := List.mem_flatten.mp ha
  obtain ⟨p', hp', rfl⟩ := List.mem_map.mp hnew
  rw [path_eq_of_mem_candidates ha]
  exact (List.pairwise_append.mp h).2.2 p' hp' p (List.mem_singleton_self p)

theorem mem_candidates_of_path_eq {a : Found Name Value}
    (ha : a ∈ gathered cleanFmri delivered origDepVars (paths ++ [p])) (hpath : a.path = p.2) :
    a ∈ candidates cleanFmri delivered origDepVars p := by
  rw [gathered_append] at ha
  refine (List.mem_append.mp ha).resolve_left fun hearlier ↦ ?_
  have hlt := path_lt_of_mem_gathered h hearlier
  omega

theorem settled_append_iff {a : Found Name Value}
    (ha : a ∈ gathered cleanFmri delivered origDepVars paths) :
    Settled (gathered cleanFmri delivered origDepVars (paths ++ [p])) a ↔
      Settled (gathered cleanFmri delivered origDepVars paths) a ∧
        ∀ new ∈ candidates cleanFmri delivered origDepVars p, ¬ Overlap a new := by
  rw [gathered_append]
  constructor
  · intro hsettled
    refine ⟨fun b hb ↦ hsettled b (List.mem_append_left _ hb), fun new hnew ↦ ?_⟩
    refine hsettled new (List.mem_append_right _ hnew) ?_
    rw [path_eq_of_mem_candidates hnew]
    exact path_lt_of_mem_gathered h ha
  · rintro ⟨hsettled, hnew⟩ b hb
    rcases List.mem_append.mp hb with hb | hb
    · exact hsettled b hb
    · exact fun _ ↦ hnew b hb

/-- The results for the last path are settled. -/
theorem settled_of_mem_candidates {a : Found Name Value}
    (ha : a ∈ candidates cleanFmri delivered origDepVars p) :
    Settled (gathered cleanFmri delivered origDepVars (paths ++ [p])) a := by
  intro b hb hlt hoverlap
  rw [path_eq_of_mem_candidates ha] at hlt
  rw [gathered_append] at hb
  rcases List.mem_append.mp hb with hb | hb
  · have hlt' := path_lt_of_mem_gathered h hb
    omega
  · rw [path_eq_of_mem_candidates hb] at hlt
    omega

omit h

/-- A result that another one appends has no other package beside it at its path. -/
def Last (res new : List (Found Name Value)) : Prop :=
  ∀ a ∈ res, ∀ b ∈ new, apart a b = true → ∀ other ∈ new, other.fmri = b.fmri

variable (cleanFmri delivered origDepVars) in
/-- The results so far. -/
def linkedResults (paths : List (List Char × ℕ)) : List (Found Name Value) :=
  (chains apart (paths.map (candidates cleanFmri delivered origDepVars))).filterMap List.head?

theorem mem_linkedResults_iff (hpaths : Numbered paths) {a : Found Name Value} :
    a ∈ linkedResults cleanFmri delivered origDepVars paths ↔
      ∃ chain, Linked (gathered cleanFmri delivered origDepVars paths) (a :: chain) := by
  rw [linkedResults, mem_heads_iff]
  exact exists_congr fun chain ↦ mem_chains_iff (ranked_candidates hpaths)

include h in
theorem linked_append_iff (hfound : gathered cleanFmri delivered origDepVars paths ≠ [])
    {chain : List (Found Name Value)} :
    Linked (gathered cleanFmri delivered origDepVars (paths ++ [p])) chain ↔
      Linked (gathered cleanFmri delivered origDepVars paths) chain ∨
        ∃ a rest b, Linked (gathered cleanFmri delivered origDepVars paths) (a :: rest) ∧
          b ∈ candidates cleanFmri delivered origDepVars p ∧ apart a b = true ∧
          chain = b :: a :: rest := by
  rw [gathered_append]
  refine chain_append_iff (fun a ha b hb ↦ ?_) (fun a ha b hb ↦ ?_) hfound
  · rw [path_eq_of_mem_candidates hb]
    exact path_lt_of_mem_gathered h ha
  · rw [path_eq_of_mem_candidates ha, path_eq_of_mem_candidates hb]

theorem linkedResults_eq_nil_iff (hpaths : Numbered paths) :
    linkedResults cleanFmri delivered origDepVars paths = [] ↔
      gathered cleanFmri delivered origDepVars paths = [] := by
  constructor
  · intro hnil
    by_contra hfound
    have hchains : chains apart (paths.map (candidates cleanFmri delivered origDepVars)) ≠ [] :=
        fun hchains ↦
      hfound (chains_eq_nil_iff.mp hchains)
    obtain ⟨chain, hchain⟩ := List.exists_mem_of_ne_nil _ hchains
    obtain ⟨a, rest, rfl⟩ := List.exists_cons_of_ne_nil
      ((mem_chains_iff (ranked_candidates hpaths)).mp hchain).ne_nil
    have hmem : a ∈ linkedResults cleanFmri delivered origDepVars paths :=
      mem_heads_iff.mpr ⟨rest, hchain⟩
    rw [hnil] at hmem
    exact absurd hmem List.not_mem_nil
  · intro hnil
    rw [linkedResults, chains_eq_nil_iff.mpr hnil]
    rfl

theorem linkedResults_append : linkedResults cleanFmri delivered origDepVars (paths ++ [p]) =
    if gathered cleanFmri delivered origDepVars paths =
    [] then candidates cleanFmri delivered origDepVars p
    else linkedResults cleanFmri delivered origDepVars paths ++
      (linkedResults cleanFmri delivered origDepVars paths).flatMap fun a ↦
        (candidates cleanFmri delivered origDepVars p).filter (apart a) := by
  rw [linkedResults, List.map_append, List.map_singleton, chains_append_singleton, Growing.extend]
  have hnil : chains apart (paths.map (candidates cleanFmri delivered origDepVars)) = [] ↔
      gathered cleanFmri delivered origDepVars paths = [] := chains_eq_nil_iff
  by_cases hfound : gathered cleanFmri delivered origDepVars paths = []
  · rw [if_pos (hnil.mpr hfound), if_pos hfound, List.filterMap_map]
    exact List.filterMap_some
  · rw [if_neg fun hchains ↦ hfound (hnil.mp hchains), if_neg hfound, List.filterMap_append,
      head_chains_extend]
    rfl

include h in
theorem ends_append_iff :
    Ends (gathered cleanFmri delivered origDepVars (paths ++ [p])) ↔
      Ends (gathered cleanFmri delivered origDepVars paths) ∧
        Last (linkedResults cleanFmri delivered origDepVars paths)
        (candidates cleanFmri delivered origDepVars p) := by
  by_cases hfound : gathered cleanFmri delivered origDepVars paths = []
  · have hcandidates : ∀ a ∈ candidates cleanFmri delivered origDepVars p,
        ∀ b ∈ candidates cleanFmri delivered origDepVars p, a.path = b.path := fun a ha b hb ↦ by
      rw [path_eq_of_mem_candidates ha, path_eq_of_mem_candidates hb]
    have hnil := (linkedResults_eq_nil_iff h.of_append).mpr hfound
    rw [gathered_append, hfound, List.nil_append, hnil]
    refine iff_of_true (fun a before chain hchain ↦ ?_) ⟨fun a before chain hchain ↦ ?_,
      fun a ha ↦ ?_⟩
    · obtain ⟨element, -, heq⟩ := (chain_of_single_rank hcandidates).mp hchain
      cases heq
    · exact absurd hchain chain_nil_found
    · exact absurd ha List.not_mem_nil
  · unfold Ends Last
    simp only [linked_append_iff h hfound, mem_linkedResults_iff h.of_append]
    constructor
    · intro hends
      refine ⟨fun a before chain hchain b hb ↦ ?_, fun a ha b hb hapart other hother ↦ ?_⟩
      · refine hends a before chain (Or.inl hchain) b ?_
        rw [gathered_append]
        exact List.mem_append_left _ hb
      · obtain ⟨rest, hrest⟩ := ha
        refine hends b a rest (Or.inr ⟨a, rest, b, hrest, hb, hapart, rfl⟩) other ?_ ?_
        · rw [gathered_append]
          exact List.mem_append_right _ hother
        · rw [path_eq_of_mem_candidates hother, path_eq_of_mem_candidates hb]
    · rintro ⟨hends, hlast⟩ a before chain (hchain | ⟨a', rest, b', hrest, hb', hapart,
        heq⟩) b hb hpath
      · refine hends a before chain hchain b ?_ hpath
        rw [gathered_append] at hb
        refine (List.mem_append.mp hb).resolve_right fun hnew ↦ ?_
        rw [path_eq_of_mem_candidates hnew] at hpath
        have hlt := path_lt_of_mem_gathered h (hchain.mem a List.mem_cons_self)
        omega
      · obtain ⟨rfl, htail⟩ := List.cons.inj heq
        obtain ⟨rfl, rfl⟩ := List.cons.inj htail
        rw [path_eq_of_mem_candidates hb'] at hpath
        exact hlast before ⟨chain, hrest⟩ a hb' hapart b (mem_candidates_of_path_eq h hb hpath)

variable (cleanFmri delivered origDepVars) in
/-- What holds after some candidate paths: a result is marked once it overlaps with one for a later
path. -/
structure Inv (paths : List (List Char × ℕ)) (search : Search Name Value) : Prop where
  res : search.res.getD [] = linkedResults cleanFmri delivered origDepVars paths
  none : search.res = none ↔ ∀ p ∈ paths, AmbiguousPath delivered origDepVars p.1
  errs : ∀ p ∈ paths, AmbiguousPath delivered origDepVars p.1 → ∃ errs ∈ search.errs, ∀ pfmri,
    pfmri ∈ errs ↔
    Blamed origDepVars ((delivered.lookup p.1).getD []) pfmri
  marked : ∀ id, Marked search.marks id ↔
    ∃ a ∈ linkedResults cleanFmri delivered origDepVars paths, id = a.id ∧
    ¬ Settled (gathered cleanFmri delivered origDepVars paths) a

variable {depVars : VariantSets Name Value} {search : Search Name Value}

theorem forall_mem_append_singleton {P : List Char × ℕ → Prop} :
    (∀ p' ∈ paths ++ [p], P p') ↔ (∀ p' ∈ paths, P p') ∧ P p := by
  simp only [List.mem_append, List.mem_singleton, or_imp, forall_and, forall_eq]

/-- An ambiguous path leaves the results as they are, and is reported. -/
theorem tryPath_of_ambiguous (h : Numbered (paths ++ [p]))
    (hinv : Inv cleanFmri delivered origDepVars paths search)
    (hp : AmbiguousPath delivered origDepVars p.1) :
    ∃ search', Inv cleanFmri delivered origDepVars (paths ++ [p]) search' ∧
      ∀ fuel, tryPath cleanFmri delivered depVars origDepVars fuel search p = some search' := by
  obtain ⟨errs, notSatSet, hhelper, herrs⟩ := helper_of_ambiguous hp depVars search.notSatSet
  have hcandidates : candidates cleanFmri delivered origDepVars p = [] := if_pos hp
  have hgathered : gathered cleanFmri delivered origDepVars (paths ++ [p]) =
      gathered cleanFmri delivered origDepVars paths := by
    rw [gathered_append, hcandidates, List.append_nil]
  have hlinked : linkedResults cleanFmri delivered origDepVars (paths ++ [p]) =
      linkedResults cleanFmri delivered origDepVars paths := by
    rw [linkedResults_append, hcandidates]
    split_ifs with hfound
    · exact ((linkedResults_eq_nil_iff h.of_append).mpr hfound).symm
    · simp
  refine ⟨{ search with errs := search.errs ++ [errs], notSatSet := notSatSet }, ⟨?_, ?_, ?_, ?_⟩,
    fun fuel ↦ ?_⟩
  · rw [hlinked]
    exact hinv.res
  · rw [forall_mem_append_singleton, and_iff_left hp]
    exact hinv.none
  · rw [forall_mem_append_singleton]
    refine ⟨fun p' hp' hambiguous ↦ ?_, fun _ ↦
      ⟨errs, List.mem_append_right _ (List.mem_singleton_self _), herrs⟩⟩
    obtain ⟨errs', hmem, herrs'⟩ := hinv.errs p' hp' hambiguous
    exact ⟨errs', List.mem_append_left _ hmem, herrs'⟩
  · rw [hlinked, hgathered]
    exact hinv.marked
  · rw [tryPath, hhelper]

/-- The results for the first path that is not ambiguous. -/
theorem tryPath_of_first (h : Numbered (paths ++ [p]))
    (hinv : Inv cleanFmri delivered origDepVars paths search)
    (hp : ¬ AmbiguousPath delivered origDepVars p.1)
    (hfound : gathered cleanFmri delivered origDepVars paths = []) :
    ∃ search', Inv cleanFmri delivered origDepVars (paths ++ [p]) search' ∧
      ∀ fuel, tryPath cleanFmri delivered depVars origDepVars fuel search p = some search' := by
  obtain ⟨notSatSet, hhelper⟩ := helper_of_not_ambiguous hp depVars search.notSatSet
  have hcandidates : candidates cleanFmri delivered origDepVars p =
      makeFound cleanFmri p.2 (providers origDepVars ((delivered.lookup p.1).getD [])) := if_neg hp
  have hlinked : linkedResults cleanFmri delivered origDepVars (paths ++ [p]) = _ :=
    linkedResults_append
  rw [if_pos hfound] at hlinked
  have hnil := (linkedResults_eq_nil_iff h.of_append).mpr hfound
  have hres : search.res.getD [] = [] := hinv.res.trans hnil
  refine ⟨{ search with
      res := some (makeFound cleanFmri p.2 (providers origDepVars ((delivered.lookup p.1).getD [])))
      marks := { search.marks with files := fun id ↦ if id.1 = p.2 then [p.1] else search.marks.files id }
      notSatSet := notSatSet }, ⟨?_, ?_, ?_, ?_⟩, fun fuel ↦ ?_⟩
  · rw [hlinked, hcandidates]
    rfl
  · rw [forall_mem_append_singleton]
    exact iff_of_false (fun hnone ↦ nomatch hnone) fun hall ↦ hp hall.2
  · rw [forall_mem_append_singleton]
    exact ⟨hinv.errs, fun hambiguous ↦ absurd hambiguous hp⟩
  · intro id
    have hmarked := hinv.marked id
    rw [hnil] at hmarked
    rw [hlinked]
    refine iff_of_false (fun hid ↦ ?_) ?_
    · obtain ⟨a, ha, -⟩ := hmarked.mp hid
      exact absurd ha List.not_mem_nil
    · rintro ⟨a, ha, -, hsettled⟩
      exact hsettled (settled_of_mem_candidates h ha)
  · rw [tryPath, hhelper]
    dsimp only
    rw [hres]

theorem mem_gathered_of_mem_linkedResults (hpaths : Numbered paths) {a : Found Name Value}
    (ha : a ∈ linkedResults cleanFmri delivered origDepVars paths) :
    a ∈ gathered cleanFmri delivered origDepVars paths := by
  obtain ⟨chain, hchain⟩ := (mem_linkedResults_iff hpaths).mp ha
  exact hchain.mem a List.mem_cons_self

theorem not_settled_append_iff (h : Numbered (paths ++ [p]))
    (hfound : gathered cleanFmri delivered origDepVars paths ≠ []) {a : Found Name Value}
    (ha : a ∈ linkedResults cleanFmri delivered origDepVars (paths ++ [p])) :
    ¬ Settled (gathered cleanFmri delivered origDepVars (paths ++ [p])) a ↔
      a ∈ linkedResults cleanFmri delivered origDepVars paths ∧
        ¬ Settled (gathered cleanFmri delivered origDepVars paths) a ∨
      ∃ new ∈ candidates cleanFmri delivered origDepVars p, Overlap a new := by
  rw [linkedResults_append, if_neg hfound, List.mem_append] at ha
  rcases ha with ha | ha
  · rw [settled_append_iff h (mem_gathered_of_mem_linkedResults h.of_append ha),
      and_iff_right ha, not_and_or]
    simp only [not_forall, not_not, exists_prop]
  · obtain ⟨b, -, ha⟩ := List.mem_flatMap.mp ha
    have ha := (List.mem_filter.mp ha).1
    refine iff_of_false (fun hsettled ↦ hsettled (settled_of_mem_candidates h ha)) ?_
    rintro (⟨hearlier, -⟩ | ⟨new, hnew, hoverlap⟩)
    · have hlt := path_lt_of_mem_gathered h (mem_gathered_of_mem_linkedResults h.of_append hearlier)
      rw [path_eq_of_mem_candidates ha] at hlt
      omega
    · exact not_overlap_of_mem_candidates ha hnew hoverlap

/-- The results for a later path, if what is appended appends nothing. -/
theorem tryPath_of_last (h : Numbered (paths ++ [p]))
    (hinv : Inv cleanFmri delivered origDepVars paths search)
    (hp : ¬ AmbiguousPath delivered origDepVars p.1)
    (hfound : gathered cleanFmri delivered origDepVars paths ≠ [])
    (hlast : Last (linkedResults cleanFmri delivered origDepVars paths)
      (candidates cleanFmri delivered origDepVars p)) :
    ∃ search', Inv cleanFmri delivered origDepVars (paths ++ [p]) search' ∧ ∃ bound, ∀ fuel,
    bound ≤ fuel →
      tryPath cleanFmri delivered depVars origDepVars fuel search p = some search' := by
  obtain ⟨notSatSet, hhelper⟩ := helper_of_not_ambiguous hp depVars search.notSatSet
  have hcandidates : candidates cleanFmri delivered origDepVars p =
      makeFound cleanFmri p.2 (providers origDepVars ((delivered.lookup p.1).getD [])) := if_neg hp
  have hlinked : linkedResults cleanFmri delivered origDepVars (paths ++ [p]) = _ :=
    linkedResults_append
  rw [if_neg hfound] at hlinked
  obtain ⟨a, res, hcons⟩ := List.exists_cons_of_ne_nil
    fun hnil ↦ hfound ((linkedResults_eq_nil_iff h.of_append).mp hnil)
  have hres : search.res.getD [] = a :: res := hinv.res.trans hcons
  rw [hcandidates] at hlast
  rw [hcandidates, hcons] at hlinked
  set newRes :=
    makeFound cleanFmri p.2 (providers origDepVars ((delivered.lookup p.1).getD [])) with hnew
  have hleaves : ∀ b ∈ a :: res, ∀ leaf ∈ newRes.filter (apart b),
      newRes.filter (apart leaf) = [] := by
    intro b hb leaf hleaf
    obtain ⟨hleaf, hapart⟩ := List.mem_filter.mp hleaf
    rw [List.filter_eq_nil_iff]
    intro other hother hother'
    rw [apart, decide_eq_true_iff] at hother'
    exact hother'.1 (hlast b (hcons ▸ hb) leaf hleaf hapart other hother).symm
  refine ⟨{ search with
      res := some (linkedResults cleanFmri delivered origDepVars (paths ++ [p]))
      marks := (linkedResults cleanFmri delivered origDepVars (paths ++ [p])).foldl
        (fun marks b ↦ (compareAll newRes marks b).1)
        { search.marks with files := fun id ↦ if id.1 = p.2 then [p.1] else search.marks.files id }
      notSatSet := notSatSet }, ⟨rfl, ?_, ?_, ?_⟩,
    (a :: res).length + ((a :: res).flatMap fun b ↦ newRes.filter (apart b)).length,
      fun fuel hfuel ↦ ?_⟩
  · rw [forall_mem_append_singleton]
    exact iff_of_false (fun hnone ↦ nomatch hnone) fun hall ↦ hp hall.2
  · rw [forall_mem_append_singleton]
    exact ⟨hinv.errs, fun hambiguous ↦ absurd hambiguous hp⟩
  · intro id
    have hmarked := hinv.marked id
    rw [marked_foldl]
    refine (or_congr_left hmarked).trans ⟨?_, ?_⟩
    · rintro (⟨b, hb, hid, hsettled⟩ | ⟨b, hb, hid, hoverlap⟩)
      · have hb' : b ∈ linkedResults cleanFmri delivered origDepVars (paths ++ [p]) := by
          rw [linkedResults_append, if_neg hfound]
          exact List.mem_append_left _ hb
        exact ⟨b, hb', hid, (not_settled_append_iff h hfound hb').mpr (Or.inl ⟨hb, hsettled⟩)⟩
      · refine ⟨b, hb, hid, (not_settled_append_iff h hfound hb).mpr (Or.inr ?_)⟩
        rwa [hcandidates]
    · rintro ⟨b, hb, hid, hsettled⟩
      rcases (not_settled_append_iff h hfound hb).mp hsettled with ⟨hb', hsettled⟩ | hoverlap
      · exact Or.inl ⟨b, hb', hid, hsettled⟩
      · rw [hcandidates] at hoverlap
        exact Or.inr ⟨b, hb, hid, hoverlap⟩
  · rw [tryPath, hhelper]
    dsimp only
    rw [hres]
    dsimp only
    rw [grow_of_leaves (fun marks b ↦ (compareAll_spec newRes marks b).1) hleaves hfuel, hlinked]
    rfl

/-- Otherwise there are always more results to go through. -/
theorem tryPath_eq_none (hinv : Inv cleanFmri delivered origDepVars paths search)
    (hlast : ¬ Last (linkedResults cleanFmri delivered origDepVars paths)
      (candidates cleanFmri delivered origDepVars p)) (fuel : ℕ) :
    tryPath cleanFmri delivered depVars origDepVars fuel search p = none := by
  unfold Last at hlast
  simp only [not_forall] at hlast
  obtain ⟨a, ha, b, hb, hapart, c, hc, hne⟩ := hlast
  have hp : ¬ AmbiguousPath delivered origDepVars p.1 := by
    intro hp
    rw [candidates, if_pos hp] at hb
    exact absurd hb List.not_mem_nil
  obtain ⟨notSatSet, hhelper⟩ := helper_of_not_ambiguous hp depVars search.notSatSet
  have hcandidates : candidates cleanFmri delivered origDepVars p =
      makeFound cleanFmri p.2 (providers origDepVars ((delivered.lookup p.1).getD [])) := if_neg hp
  obtain ⟨first, rest, hcons⟩ := List.exists_cons_of_ne_nil (List.ne_nil_of_mem ha)
  have hres : search.res.getD [] = first :: rest := hinv.res.trans hcons
  -- a result that appends one of two packages which deliver the path
  have hkind : ∀ result : Found Name Value,
      (∃ next ∈ candidates cleanFmri delivered origDepVars p, apart result next = true ∧
        ∃ other ∈ candidates cleanFmri delivered origDepVars p, other.fmri ≠ next.fmri) →
      ∃ next ∈ (candidates cleanFmri delivered origDepVars p).filter (apart result),
        ∃ other ∈ candidates cleanFmri delivered origDepVars p, apart next other = true ∧
          ∃ other' ∈ candidates cleanFmri delivered origDepVars p, other'.fmri ≠ other.fmri := by
    rintro result ⟨next, hnext, hresult, other, hother, hfmri⟩
    exact ⟨next, List.mem_filter.mpr ⟨hnext, hresult⟩, other, hother,
      (apart_iff (not_overlap_of_mem_candidates hnext hother)).mpr hfmri.symm, next,
        hnext, hfmri.symm⟩
  rw [hcandidates] at hkind hb hc
  rw [tryPath, hhelper]
  dsimp only
  rw [hres]
  dsimp only
  rw [grow_eq_none (fun marks result ↦ (compareAll_spec _ marks result).1) hkind
    ⟨a, hcons ▸ ha, b, hb, hapart, c, hc, hne⟩]
  rfl

/-- One turn of the loop over the paths. -/
theorem tryPath_spec (h : Numbered (paths ++ [p]))
    (hinv : Inv cleanFmri delivered origDepVars paths search)
    (hlast : Last (linkedResults cleanFmri delivered origDepVars paths)
      (candidates cleanFmri delivered origDepVars p)) :
    ∃ search', Inv cleanFmri delivered origDepVars (paths ++ [p]) search' ∧ ∃ bound, ∀ fuel,
    bound ≤ fuel →
      tryPath cleanFmri delivered depVars origDepVars fuel search p = some search' := by
  by_cases hp : AmbiguousPath delivered origDepVars p.1
  · obtain ⟨search', hinv', hsearch'⟩ := tryPath_of_ambiguous h hinv hp
    exact ⟨search', hinv', 0, fun fuel _ ↦ hsearch' fuel⟩
  · by_cases hfound : gathered cleanFmri delivered origDepVars paths = []
    · obtain ⟨search', hinv', hsearch'⟩ := tryPath_of_first h hinv hp hfound
      exact ⟨search', hinv', 0, fun fuel _ ↦ hsearch' fuel⟩
    · exact tryPath_of_last h hinv hp hfound hlast

/-! ### All paths together -/

theorem tryPath_mono {fuel more : ℕ} (hfuel : fuel ≤ more) {search' : Search Name Value}
    (hsearch : tryPath cleanFmri delivered depVars origDepVars fuel search p = some search') :
    tryPath cleanFmri delivered depVars origDepVars more search p = some search' := by
  unfold tryPath at hsearch ⊢
  split at hsearch
  · exact hsearch
  · dsimp only at hsearch ⊢
    split at hsearch
    · exact hsearch
    · obtain ⟨grown, hgrown, hsearch⟩ := Option.map_eq_some_iff.mp hsearch
      rw [grow_mono hfuel hgrown]
      exact congrArg some hsearch

theorem foldlM_tryPath_mono {fuel more : ℕ} (hfuel : fuel ≤ more) {search' : Search Name Value}
    (hsearch : paths.foldlM (tryPath cleanFmri delivered depVars origDepVars fuel) search =
      some search') :
    paths.foldlM (tryPath cleanFmri delivered depVars origDepVars more) search = some search' := by
  induction paths generalizing search with
  | nil => exact hsearch
  | cons p paths ih =>
    rw [List.foldlM_cons] at hsearch ⊢
    obtain ⟨next, hnext, hsearch⟩ := Option.bind_eq_some_iff.mp hsearch
    exact Option.bind_eq_some_iff.mpr ⟨next, tryPath_mono hfuel hnext, ih hsearch⟩

theorem inv_nil (notSatSet : Option (Finset (List Value))) :
    Inv cleanFmri delivered origDepVars [] ⟨none, [], ⟨[], fun _ ↦ []⟩, notSatSet⟩ where
  res := rfl
  none := iff_of_true rfl fun _ hp ↦ absurd hp List.not_mem_nil
  errs := fun _ hp ↦ absurd hp List.not_mem_nil
  marked id := by
    refine iff_of_false (fun hmarked ↦ nomatch hmarked) ?_
    rintro ⟨a, ha, -⟩
    exact absurd ha List.not_mem_nil

variable (cleanFmri delivered origDepVars) in
/-- The loop over the paths gets to its end exactly if no chain leads to a path that different
packages deliver. -/
theorem foldlM_tryPath (hpaths : Numbered paths) (depVars : VariantSets Name Value)
    (notSatSet : Option (Finset (List Value))) :
    (Ends (gathered cleanFmri delivered origDepVars paths) ∧
      ∃ search, Inv cleanFmri delivered origDepVars paths search ∧ ∃ bound, ∀ fuel, bound ≤ fuel →
        paths.foldlM (tryPath cleanFmri delivered depVars origDepVars fuel)
          ⟨none, [], ⟨[], fun _ ↦ []⟩, notSatSet⟩ = some search) ∨
    (¬ Ends (gathered cleanFmri delivered origDepVars paths) ∧
      ∀ fuel, paths.foldlM (tryPath cleanFmri delivered depVars origDepVars fuel)
        ⟨none, [], ⟨[], fun _ ↦ []⟩, notSatSet⟩ = none) := by
  induction paths using List.reverseRecOn with
  | nil =>
    exact Or.inl ⟨fun _ _ _ hchain ↦ absurd hchain chain_nil_found, _, inv_nil notSatSet, 0,
      fun _ _ ↦ rfl⟩
  | append_singleton paths p ih =>
    rw [ends_append_iff hpaths]
    have hfold : ∀ fuel,
        (paths ++ [p]).foldlM (tryPath cleanFmri delivered depVars origDepVars fuel)
        ⟨none, [], ⟨[], fun _ ↦ []⟩, notSatSet⟩ =
        (paths.foldlM (tryPath cleanFmri delivered depVars origDepVars fuel)
          ⟨none, [], ⟨[], fun _ ↦ []⟩, notSatSet⟩).bind fun search ↦
            tryPath cleanFmri delivered depVars origDepVars fuel search p := by
      intro fuel
      rw [List.foldlM_append]
      simp
    simp only [hfold]
    rcases ih hpaths.of_append with ⟨hends, search, hinv, bound, hsearch⟩ | ⟨hends, hnone⟩
    · by_cases hlast : Last (linkedResults cleanFmri delivered origDepVars paths)
        (candidates cleanFmri delivered origDepVars p)
      · obtain ⟨search', hinv', bound', hsearch'⟩ :=
          @tryPath_spec _ _ _ _ _ _ _ _ _ depVars _ hpaths hinv hlast
        refine Or.inl ⟨⟨hends, hlast⟩, search', hinv', max bound bound', fun fuel hfuel ↦ ?_⟩
        rw [hsearch fuel (le_of_max_le_left hfuel)]
        exact hsearch' fuel (le_of_max_le_right hfuel)
      · refine Or.inr ⟨fun h ↦ hlast h.2, fun fuel ↦ ?_⟩
        cases hfuel : paths.foldlM (tryPath cleanFmri delivered depVars origDepVars fuel)
          ⟨none, [], ⟨[], fun _ ↦ []⟩, notSatSet⟩ with
        | none => rfl
        | some found =>
          have hmore := foldlM_tryPath_mono (le_max_left fuel bound) hfuel
          rw [hsearch _ (le_max_right fuel bound)] at hmore
          rw [← Option.some.inj hmore]
          exact tryPath_eq_none hinv hlast fuel
    · refine Or.inr ⟨fun h ↦ hends h.1, fun fuel ↦ ?_⟩
      rw [hnone fuel]
      rfl


/-! ### Results without duplicates -/

variable (cleanFmri delivered origDepVars) in
/-- The search returns, reports each ambiguous path and finds nothing twice. -/
def ReturnsProperly (depVars : VariantSets Name Value) (fileDep : FileDependency)
    (notSatSet : Option (Finset (List Value))) : Prop :=
  ∃ fuel r, findPackageUsingDeliveredFiles cleanFmri delivered depVars origDepVars fileDep
      notSatSet fuel =
      some (.ok r) ∧
    (∀ path ∈ makePaths fileDep, AmbiguousPath delivered origDepVars path →
      ∃ pkgs, ResolutionError.ambiguousPath pkgs ∈ r.errs ∧
        ∀ pfmri, pfmri ∈ pkgs ↔ Blamed origDepVars ((delivered.lookup path).getD []) pfmri) ∧
    (r.res.map fun entry ↦ (entry.1.lookup "fmri".toList, entry.2)).Nodup

/-- No two chains end in settled results on the same package under the same variants. -/
def OneChain (gathered : List (Found Name Value)) : Prop :=
  ∀ a chain b chain', Linked gathered (a :: chain) → Linked gathered (b :: chain') →
    Settled gathered a →
    Settled gathered b → a.fmri = b.fmri → a.vars = b.vars → a :: chain = b :: chain'

theorem lookup_dependencyAction (fileDep : FileDependency) (fmri : List Char)
    (files : List (List Char)) :
    (dependencyAction fileDep fmri files).lookup "fmri".toList = some (.str fmri) := by
  have hfiles : "fmri".toList ≠ filesPrefix := by decide
  have hpaths : "fmri".toList ≠ pathsPrefix := by decide
  rw [dependencyAction, Dict.lookup_set_of_ne _ hfiles, Dict.lookup_erase_of_ne _ hpaths,
    Dict.lookup_set_self]

theorem nodup_finish_iff (hpaths : Numbered paths)
    (hinv : Inv cleanFmri delivered origDepVars paths search)
    {fileDep : FileDependency} {r : Resolution Name Value} (hr : search.finish fileDep = .ok r) :
    (r.res.map fun entry ↦ (entry.1.lookup "fmri".toList, entry.2)).Nodup ↔
      OneChain (gathered cleanFmri delivered origDepVars paths) := by
  have hranked : Ranked Found.path (paths.map (candidates cleanFmri delivered origDepVars)) :=
    ranked_candidates hpaths
  have hmem : ∀ chain,
      chain ∈ chains apart (paths.map (candidates cleanFmri delivered origDepVars)) ↔
      Linked (gathered cleanFmri delivered origDepVars paths) chain :=
        fun chain ↦ mem_chains_iff hranked
  have hsettled : ∀ a chain, Linked (gathered cleanFmri delivered origDepVars paths) (a :: chain) →
      ((search.marks.multiplePathErrs.lookup a.id).isNone = true ↔
        Settled (gathered cleanFmri delivered origDepVars paths) a) := by
    intro a chain hchain
    have hlinked := (mem_linkedResults_iff hpaths).mpr ⟨chain, hchain⟩
    rw [Option.isNone_iff_eq_none, ← Option.not_isSome_iff_eq_none]
    refine Iff.trans (not_congr (hinv.marked a.id)) ⟨fun hnone ↦ ?_, ?_⟩
    · by_contra hnot
      exact hnone ⟨a, hlinked, rfl, hnot⟩
    · rintro hsettled ⟨b, hb, hid, hnot⟩
      have heq := List.inj_on_of_nodup_map (nodup_id_gathered hpaths)
        (mem_gathered_of_mem_linkedResults hpaths hlinked)
          (mem_gathered_of_mem_linkedResults hpaths hb) hid
      exact hnot (heq ▸ hsettled)
  have hres : r.res.map (fun entry ↦ (entry.1.lookup "fmri".toList, entry.2)) =
      (chains apart (paths.map (candidates cleanFmri delivered origDepVars))).filterMap fun chain ↦
        (chain.head?.filter fun a ↦ (search.marks.multiplePathErrs.lookup a.id).isNone).map
          fun a ↦ (some (AttrValue.str a.fmri), a.vars) := by
    unfold Search.finish at hr
    have hlinked := hinv.res
    split at hr
    · cases hr
    · rename_i res hres
      obtain rfl := Except.ok.inj hr
      rw [hres, Option.getD_some, linkedResults] at hlinked
      simp only [List.map_map, Function.comp_def, lookup_dependencyAction]
      rw [hlinked, ← List.filterMap_eq_filter, List.filterMap_filterMap, List.map_filterMap]
      refine congrArg (List.filterMap · _) (funext fun chain ↦ ?_)
      cases chain.head? with
      | none => rfl
      | some a => simp [Option.guard, Option.filter]
  rw [hres, Traverse.nodup_filterMap_iff (nodup_chains hranked (nodup_id_gathered hpaths).of_map)]
  simp only [hmem]
  constructor
  · intro hall a chain b chain' hchain hchain' ha hb hfmri hvars
    refine hall _ hchain _ hchain' (some (.str a.fmri), a.vars) ?_ ?_
    · have ha' := (hsettled a chain hchain).mpr ha
      simp only [List.head?_cons, Option.filter, ha', ↓reduceIte, Option.map_some]
    · have hb' := (hsettled b chain' hchain').mpr hb
      simp only [List.head?_cons, Option.filter, hb', ↓reduceIte, Option.map_some, hfmri, hvars]
  · intro hone chain hchain chain' hchain' entry hentry hentry'
    obtain ⟨a, ha, rfl⟩ := Option.map_eq_some_iff.mp hentry
    obtain ⟨b, hb, heq⟩ := Option.map_eq_some_iff.mp hentry'
    obtain ⟨ha, ha'⟩ := Option.filter_eq_some_iff.mp ha
    obtain ⟨hb, hb'⟩ := Option.filter_eq_some_iff.mp hb
    obtain ⟨rest, rfl⟩ := List.head?_eq_some_iff.mp ha
    obtain ⟨rest', rfl⟩ := List.head?_eq_some_iff.mp hb
    obtain ⟨hfmri, hvars⟩ := Prod.mk.inj heq
    exact hone a rest b rest' hchain hchain' ((hsettled a rest hchain).mp ha')
      ((hsettled b rest' hchain').mp hb')
      (AttrValue.str.inj (Option.some.inj hfmri)).symm hvars.symm

/-- `find_package_using_delivered_files` returns, reports each ambiguous path and finds nothing
twice exactly if some path is not ambiguous, no chain leads to a path that different packages
deliver, and no two chains end in settled results on the same package under the same variants. -/
theorem returnsProperly_iff (cleanFmri : List Char → List Char)
    (delivered : List (List Char × List (Provider Name Value)))
    (depVars origDepVars : VariantSets Name Value)
    (fileDep : FileDependency) (notSatSet : Option (Finset (List Value))) :
    ReturnsProperly cleanFmri delivered origDepVars depVars fileDep notSatSet ↔
      (∃ path ∈ makePaths fileDep, ¬ AmbiguousPath delivered origDepVars path) ∧
        Ends (gathered cleanFmri delivered origDepVars (makePaths fileDep).zipIdx) ∧
        OneChain (gathered cleanFmri delivered origDepVars (makePaths fileDep).zipIdx) := by
  have hpaths := numbered_zipIdx (makePaths fileDep)
  have hambiguous : ∀ P : List Char → Prop, (∀ p ∈ (makePaths fileDep).zipIdx, P p.1) ↔
      ∀ path ∈ makePaths fileDep, P path := by
    intro P
    rw [← List.forall_mem_map, List.zipIdx_map_fst]
  unfold ReturnsProperly findPackageUsingDeliveredFiles
  rcases foldlM_tryPath cleanFmri delivered origDepVars hpaths depVars notSatSet with ⟨hends,
    search, hinv, bound, hsearch⟩ | ⟨hends, hnone⟩
  · have hnone := hinv.none
    rw [hambiguous] at hnone
    rw [and_iff_right hends]
    constructor
    · rintro ⟨fuel, r, hr, -, hnodup⟩
      obtain ⟨found, hfound, hfinish⟩ := Option.map_eq_some_iff.mp hr
      have hmore := foldlM_tryPath_mono (le_max_left fuel bound) hfound
      rw [hsearch _ (le_max_right fuel bound)] at hmore
      rw [← Option.some.inj hmore] at hfinish
      refine ⟨?_, (nodup_finish_iff hpaths hinv hfinish).mp hnodup⟩
      by_contra hall
      have hres := hnone.mpr fun path hpath ↦ by_contra fun hnot ↦ hall ⟨path, hpath, hnot⟩
      rw [Search.finish, hres] at hfinish
      cases hfinish
    · rintro ⟨⟨path, hpath, hnot⟩, hone⟩
      cases hres : search.res with
      | none => exact absurd (hnone.mp hres path hpath) hnot
      | some res =>
        have hfinish : ∃ r, search.finish fileDep = .ok r ∧
            ∀ errs ∈ search.errs, ResolutionError.ambiguousPath errs ∈ r.errs := by
          rw [Search.finish, hres]
          exact ⟨_, rfl, fun errs herrs ↦ List.mem_append_left _ (List.mem_map_of_mem herrs)⟩
        obtain ⟨r, hr, herrs⟩ := hfinish
        refine ⟨bound, r, ?_, ?_, (nodup_finish_iff hpaths hinv hr).mpr hone⟩
        · rw [hsearch bound (Nat.le_refl bound)]
          exact congrArg some hr
        · intro path' hpath' hambiguous'
          rw [← List.zipIdx_map_fst 0 (makePaths fileDep), List.mem_map] at hpath'
          obtain ⟨p, hp, rfl⟩ := hpath'
          obtain ⟨errs, hmem, hblamed⟩ := hinv.errs p hp hambiguous'
          exact ⟨errs, herrs errs hmem, hblamed⟩
  · refine iff_of_false ?_ fun h ↦ hends h.2.1
    rintro ⟨fuel, r, hr, -⟩
    rw [hnone fuel] at hr
    cases hr

end Paths

/-! ### Two packages that deliver two paths -/

/-- A tag for some architectures. -/
def arches (first : List Char) (rest : List (List Char)) : VariantSets (List Char) (List Char) where
  entries := [("variant.arch".toList, (first :: rest).toFinset)]
  nodup := List.nodup_singleton _
  nonempty entry hentry := by
    rw [List.mem_singleton.mp hentry]
    exact (List.toFinset_nonempty_iff _).mpr (List.cons_ne_nil first rest)

def x86 : Provider (List Char) (List Char) :=
  ("pkg:/library-x86".toList, arches "i386".toList [])

def sparc : Provider (List Char) (List Char) :=
  ("pkg:/library-sparc".toList, arches "sparc".toList [])

/-- A dependency on a file in one of two directories. -/
def libraryDep : FileDependency where
  attrs := [(filesPrefix, .str "lib.so".toList),
    (pathsPrefix, .list ["lib".toList, "usr/lib".toList])]
  files := .str "lib.so".toList
  hasFiles := rfl

def libraryPaths : List (List Char × List (Provider (List Char) (List Char))) :=
  [("lib/lib.so".toList, [x86, sparc]), ("usr/lib/lib.so".toList, [x86, sparc])]

def anyArches : VariantSets (List Char) (List Char) :=
  arches "i386".toList ["sparc".toList]

/-- Two packages deliver the same two paths, each for one architecture: the results never end. -/
theorem library_not_returnsProperly :
    ¬ ReturnsProperly id libraryPaths anyArches anyArches libraryDep none := by
  have hgathered : gathered id libraryPaths anyArches (makePaths libraryDep).zipIdx =
      [⟨0, 0, x86.1, x86.2⟩, ⟨0, 1, sparc.1, sparc.2⟩, ⟨1, 0, x86.1, x86.2⟩,
          ⟨1, 1, sparc.1, sparc.2⟩] := by
    decide
  have hends : ¬ Ends (gathered id libraryPaths anyArches (makePaths libraryDep).zipIdx) := by
    rw [hgathered]
    intro hends
    refine absurd (hends ⟨1, 1, sparc.1, sparc.2⟩ ⟨0, 0, x86.1, x86.2⟩ [] ?_ ⟨1, 0, x86.1,
      x86.2⟩ (by simp) rfl)
      (by decide)
    exact Chain.next (Chain.first (by simp) (fun _ _ ↦ Nat.zero_le _))
      (by simp) Nat.zero_lt_one (by decide)
  rintro ⟨fuel, r, hr, -⟩
  rcases foldlM_tryPath id libraryPaths anyArches (numbered_zipIdx (makePaths libraryDep))
      anyArches none with
    ⟨hends', -⟩ | ⟨-, hnone⟩
  · exact hends hends'
  · rw [findPackageUsingDeliveredFiles, hnone fuel] at hr
    cases hr

end Userland.Pkg.Publish
