import Userland.Pkg.Catalog.Packages

/-!
# Appending a catalog to another

`Catalog.append` of `pkg/catalog.py`. The entries of the base part of the source are copied first,
those that the publisher filter and the callback accept; the FMRIs the callback refuses go into the
dictionary `d`. Then the entries of every other part are copied, except those of the FMRIs found in
`d`.

`d` holds the versions of a package in a set, and two versions are equal there if they differ in the
build release only. So an accepted FMRI loses its other entries if another build of the same version
is refused (`append_eq_iff`).

Scope. The source is in memory and another catalog than the destination, which is writable and keeps
no update log. The time of the operation is left out.
-/

set_option autoImplicit false
set_option relaxedAutoImplicit false

namespace Userland.Pkg.Catalog

open Library

/-! ### Entries of a part -/

/-- `PkgFmri("%s@%s" % (stem, entry["version"]), publisher=pub)`. -/
def readFmri (pub stem version : String) : Except Error PkgFmri :=
  match PkgFmri.ofString (stem ++ "@" ++ version) none (some pub) with
  | some f => .ok f
  | none => .error .illegalVersion

/-- `CatalogPart.entries()`: the entries with their FMRIs, each of which is read when it comes up.
-/
def CatalogPart.entries (self : CatalogPart) : List (Except Error PkgFmri × Entry) :=
  self.publishers.flatMap fun pub ↦ ((self.data.lookup pub).getD []).flatMap fun package ↦
    package.2.map fun entry ↦ (readFmri pub package.1 entry.version, entry)

/-- `version in versions`, for a set of versions that may be `None`. -/
def sameVersion (version other : Option Version) : Bool :=
  match version, other with
  | none, none => true
  | some version, some other => version.eq other
  | _, _ => false

namespace Append

/-! ### The request -/

/-- The callback, the package and the publishers of a call. -/
structure Request where
  cb : Option (PkgFmri → Entry → Bool × Option (List (String × String)))
  pfmri : Option PkgFmri
  pubs : List String

/-- `pubs and f.publisher not in pubs`. -/
def Request.skips (request : Request) (f : PkgFmri) : Bool :=
  !request.pubs.isEmpty && !(request.pubs.any fun pub ↦ f.publisher == some pub)

/-- The FMRI is in the dictionary `d`, for which the list of the FMRIs put into it stands. -/
def discarded (d : List PkgFmri) (f : PkgFmri) : Bool :=
  d.any fun other ↦ other.publisher == f.publisher && other.pkgName == f.pkgName &&
    sameVersion other.version f.version

/-- The entry with the metadata that the callback gives. -/
def merged (entry : Metadata) (mdata : Option (List (String × String))) : Metadata :=
  match mdata with
  | none | some [] => entry
  | some mdata =>
    { entry with metadata := some <| match entry.metadata with
        | some metadata => mdata.foldl (fun metadata item ↦
          Dict.set metadata item.1 item.2) metadata
        | none => mdata }

/-! ### The program -/

/-- `self.get_part(name)`, which makes the part if there is none. -/
def touch (name : List Char) : Program State Error Unit :=
  modify fun self ↦ { self with parts := Dict.set self.parts name (self.getPart name) }

/-- The entries to go through: those of the part, or the one of the package that is asked for. -/
def sourceEntries (part : CatalogPart) (pfmri : Option PkgFmri) :
    Except Error (Option (List (Except Error PkgFmri × Entry))) :=
  match pfmri with
  | none => .ok (some part.entries)
  | some pfmri => (part.getEntry pfmri).map fun found ↦ found.map fun entry ↦ [(.ok pfmri, entry)]

/-- One turn of the loop over the base part, with what it puts into `d`. -/
def appendBase (request : Request) (found : Except Error PkgFmri × Entry) :
    Program State Error (List PkgFmri) := do
  let f ← Program.lift found.1
  if request.skips f then return []
  else match request.cb with
    | none =>
      State.addEntry basePart f found.2.toMetadata
      return []
    | some cb =>
      if (cb f found.2).1 then
        State.addEntry basePart f (merged found.2.toMetadata (cb f found.2).2)
        return []
      else return [f]

/-- One turn of the loop over another part. -/
def appendEntry (request : Request) (d : List PkgFmri) (name : List Char)
    (found : Except Error PkgFmri × Entry) : Program State Error Unit := do
  let f ← Program.lift found.1
  if request.skips f then return ()
  else if discarded d f then return ()
  else State.addEntry name f found.2.toMetadata

/-- The entries of another part. -/
def appendPart (request : Request) (d : List PkgFmri) (part : List Char × CatalogPart) :
    Program State Error Unit := do
  let entries ← Program.lift (sourceEntries part.2 request.pfmri)
  match entries with
  | none => return ()
  | some entries =>
    touch part.1
    Program.forEach (appendEntry request d part.1) entries

/-- `__append(src, cb, pfmri, pubs)`. -/
def appendParts (src : State) (request : Request) : Program State Error Unit := do
  touch basePart
  match src.parts.lookup basePart with
  | none => if request.pfmri.isSome then throw .unknownCatalogEntry else return ()
  | some base =>
    let entries ← Program.lift (sourceEntries base request.pfmri)
    match entries with
    | none => throw .unknownCatalogEntry
    | some entries =>
      let d ← Program.flatMapEach (appendBase request) entries
      if d ≠ [] ∧ request.pfmri.isSome then return ()
      else Program.forEach (appendPart request d) (src.parts.filter fun part ↦ part.1 ≠ basePart)

/-- `self.batch_mode = value`. -/
def setBatchMode (value : Bool) (self : State) : State :=
  { self with
    batchMode := value
    parts := self.parts.map fun part ↦ (part.1, { part.2 with ordered := !value }) }

/-- `append(src, cb, pfmri, pubs)`, in batch mode until it returns or raises. -/
def append (src : State) (request : Request) : Program State Error Unit := do
  let self ← get
  modify (setBatchMode true)
  tryCatch (appendParts src request) fun error ↦ do
    modify (setBatchMode self.batchMode)
    throw error
  modify (setBatchMode self.batchMode)

/-! ### What a program adds -/

/-- The entries of a package in a part. -/
def entriesAt (state : State) (name : List Char) (pub stem : String) : List Entry :=
  versions (state.getPart name).data pub stem

/-- An entry that is added to a part. -/
structure Addition where
  name : List Char
  pub : String
  stem : String
  entry : Entry

/-- The entries that are added for a package to a part. -/
def collect (additions : List Addition) (name : List Char) (pub stem : String) : List Entry :=
  (additions.filter fun addition ↦
    addition.name == name && addition.pub == pub && addition.stem == stem).map Addition.entry

theorem collect_append (first second : List Addition) (name : List Char) (pub stem : String) :
    collect (first ++ second) name pub stem = collect first name pub stem ++
    collect second name pub stem := by
  rw [collect, List.filter_append, List.map_append, collect, collect]

/-- No part sorts what is added to it. -/
def Unordered (state : State) : Prop := ∀ name, (state.getPart name).ordered = false

/-- The additions have been made, and nothing else. -/
structure Delivered (additions : List Addition) (before after : State) : Prop where
  unordered : Unordered after
  entries : ∀ name pub stem,
    entriesAt after name pub stem = entriesAt before name pub stem ++
      collect additions name pub stem

variable {first second : List Addition}

theorem Delivered.trans {before middle after : State}
    (h : Delivered first before middle) (h' : Delivered second middle after) :
    Delivered (first ++ second) before after where
  unordered := h'.unordered
  entries name pub stem := by rw [h'.entries, h.entries, collect_append, List.append_assoc]

/-- No addition is of a version that is there already, or that was added before it. -/
def Fresh (state : State) (additions : List Addition) : Prop :=
  ∀ done addition rest, additions = done ++ addition :: rest →
    ∀ entry ∈ entriesAt state addition.name addition.pub addition.stem ++
      collect done addition.name addition.pub addition.stem, entry.version ≠ addition.entry.version

theorem fresh_nil (state : State) : Fresh state [] := by
  intro done addition rest h
  cases done <;> cases h

theorem Fresh.left {state : State} (h : Fresh state (first ++ second)) : Fresh state first := by
  intro done addition rest heq
  exact h done addition (rest ++ second) (by rw [heq, List.append_assoc, List.cons_append])

/-- Additions in two steps are fresh if each step's are when they are made. -/
theorem fresh_append_iff {before middle : State} (h : Delivered first before middle) :
    Fresh before (first ++ second) ↔ Fresh before first ∧ Fresh middle second := by
  constructor
  · intro hfresh
    refine ⟨hfresh.left, fun done addition rest heq entry hentry ↦ ?_⟩
    rw [h.entries, List.append_assoc, ← collect_append] at hentry
    exact hfresh (first ++ done) addition rest (by rw [heq, List.append_assoc]) entry hentry
  · rintro ⟨hfirst, hsecond⟩ done addition rest heq entry hentry
    rcases List.append_eq_append_iff.mp heq with ⟨more, rfl, hsplit⟩ | ⟨more, rfl, hsplit⟩
    · refine hsecond more addition rest hsplit entry ?_
      rwa [h.entries, List.append_assoc, ← collect_append]
    · cases more with
      | nil =>
        refine hsecond [] addition rest hsplit.symm entry ?_
        rw [h.entries, List.append_assoc, ← collect_append]
        simpa only [List.append_nil] using hentry
      | cons next more =>
        obtain ⟨rfl, rfl⟩ := List.cons.inj hsplit
        exact hfirst done addition more rfl entry hentry

/-- From a state whose parts do not sort, the program returns the value after making the additions,
and raises if some addition is not fresh. -/
def Delivers {α : Type} (program : Program State Error α) (value : α) (additions : List Addition) :
    Prop :=
  ∀ start, Unordered start → Program.Triple (fun state ↦ state = start) program
    (fun result state ↦ result = value ∧ Delivered additions start state ∧ Fresh start additions)
    (fun _ _ ↦ ¬ Fresh start additions)

namespace Delivers

variable {α β : Type}

theorem pure (value : α) : Delivers (Pure.pure value) value [] := by
  intro start hstart
  refine Program.Triple.pure fun state h ↦ ⟨rfl, ⟨h ▸ hstart, fun name pub stem ↦ ?_⟩,
    fresh_nil start⟩
  rw [h]
  exact (List.append_nil _).symm

theorem lift (value : α) : Delivers (Program.lift (.ok value)) value [] := pure value

theorem bind {program : Program State Error α} {rest : α → Program State Error β} {value : α}
    {result : β} (h : Delivers program value first)
    (h' : Delivers (rest value) result second) :
    Delivers (program >>= rest) result (first ++ second) := by
  intro start hstart
  refine Program.Triple.bind ((h start hstart).weaken (fun _ h ↦ h) (fun _ _ h ↦ h)
    fun _ _ hnot hfresh ↦ hnot hfresh.left) fun found ↦ Program.Triple.assume fun hfound ↦ ?_
  subst hfound
  refine Program.Triple.of_start fun middle ⟨hmiddle, hfresh⟩ ↦ ?_
  have hiff : Fresh start (first ++ second) ↔ Fresh start first ∧ Fresh middle second :=
    fresh_append_iff hmiddle
  exact (h' middle hmiddle.unordered).weaken (fun _ h ↦ h)
    (fun _ _ h ↦ ⟨h.1, hmiddle.trans h.2.1, hiff.mpr ⟨hfresh, h.2.2⟩⟩) fun _ _ hnot h ↦
      hnot (hiff.mp h).2

theorem bind_nil {program : Program State Error α} {rest : α → Program State Error β} {value : α}
    {result : β} {additions : List Addition} (h : Delivers program value [])
    (h' : Delivers (rest value) result additions) : Delivers (program >>= rest) result additions :=
  bind h h'

theorem forEach {body : α → Program State Error Unit} {additions : α → List Addition}
    {list : List α} (h : ∀ element ∈ list, Delivers (body element) () (additions element)) :
    Delivers (Program.forEach body list) () (list.flatMap additions) := by
  induction list with
  | nil => exact pure ()
  | cons element rest ih =>
    rw [List.flatMap_cons]
    exact bind (h element List.mem_cons_self) (ih fun other hother ↦
      h other (List.mem_cons_of_mem _ hother))

theorem flatMapEach {body : α → Program State Error (List β)} {values : α → List β}
    {additions : α → List Addition} {list : List α}
    (h : ∀ element ∈ list, Delivers (body element) (values element) (additions element)) :
    Delivers (Program.flatMapEach body list) (list.flatMap values) (list.flatMap additions) := by
  induction list with
  | nil => exact pure []
  | cons element rest ih =>
    rw [List.flatMap_cons, List.flatMap_cons, ← List.append_nil (List.flatMap additions rest)]
    exact bind (h element List.mem_cons_self)
      (bind (ih fun other hother ↦ h other (List.mem_cons_of_mem _ hother)) (pure _))

theorem touch (name : List Char) : Delivers (touch name) () [] := by
  intro start hstart
  refine Program.Triple.modify fun state h ↦ ?_
  subst h
  have hpart : ∀ other,
      State.getPart { state with parts := Dict.set state.parts name (state.getPart name) } other =
      state.getPart other := by
    intro other
    by_cases hother : other = name
    · rw [State.getPart, hother, Dict.lookup_set_self, Option.getD_some]
    · rw [State.getPart, Dict.lookup_set_of_ne _ hother]
      rfl
  refine ⟨rfl, ⟨fun other ↦ ?_, fun other pub stem ↦ ?_⟩, fresh_nil _⟩
  · rw [hpart]
    exact hstart other
  · rw [entriesAt, hpart]
    exact (List.append_nil _).symm

end Delivers

/-- What adding an entry to a part that does not sort does. -/
theorem add_triple {pfmri : PkgFmri} {metadata : Metadata} {pub : String} {start : CatalogPart}
    (hordered : start.ordered = false) (hpub : CatalogPart.publisherOf pfmri = .ok pub) :
    Program.Triple (fun part ↦ part = start) (CatalogPart.add pfmri metadata)
      (fun _ part ↦ part = ⟨putVersions start.data pub pfmri.pkgName
          (versions start.data pub pfmri.pkgName ++ [⟨metadata, versionText pfmri⟩]),
          start.ordered⟩ ∧
        ∀ entry ∈ versions start.data pub pfmri.pkgName, entry.version ≠ versionText pfmri)
      (fun _ _ ↦ ∃ entry ∈ versions start.data pub pfmri.pkgName,
        entry.version = versionText pfmri) := by
  unfold CatalogPart.add
  refine Program.Triple.bind (M := fun found part ↦ found = pub ∧ part = start)
    (Program.Triple.lift (fun _ _ hfound h ↦ ⟨Except.ok.inj (hfound.symm.trans hpub), h⟩)
      fun _ _ herror _ ↦ by rw [hpub] at herror; cases herror)
    fun found ↦ Program.Triple.assume fun hfound ↦ ?_
  subst hfound
  refine Program.Triple.bind (M := fun self part ↦ self = start ∧ part = start)
    (Program.Triple.get fun part h ↦ ⟨h, h⟩) fun self ↦ Program.Triple.assume fun hself ↦ ?_
  subst hself
  dsimp only
  split_ifs with hduplicate hsorts
  · refine Program.Triple.throw fun _ _ ↦ ?_
    simpa using hduplicate
  · rw [hordered] at hsorts
    cases hsorts
  · have hnew : ∀ entry ∈ versions self.data found pfmri.pkgName,
        entry.version ≠ versionText pfmri := by
      simpa using hduplicate
    set added : CatalogPart := ⟨putVersions self.data found pfmri.pkgName
      (versions self.data found pfmri.pkgName ++ [⟨metadata, versionText pfmri⟩]),
        self.ordered⟩ with hadded
    refine Program.Triple.bind (M := fun _ part ↦ part = added)
      (Program.Triple.modify fun part h ↦ by rw [h])
      fun _ ↦ ?_
    exact Program.Triple.pure fun part h ↦ ⟨h, hnew⟩

/-- Adding an entry to a part makes one addition. -/
theorem Delivers.addEntry {pfmri : PkgFmri} {pub : String}
    (hpub : CatalogPart.publisherOf pfmri = .ok pub) (name : List Char) (metadata : Metadata) :
    Delivers (State.addEntry name pfmri metadata) ()
      [⟨name, pub, pfmri.pkgName, ⟨metadata, versionText pfmri⟩⟩] := by
  intro start hstart
  have hfresh : Fresh start [⟨name, pub, pfmri.pkgName, ⟨metadata, versionText pfmri⟩⟩] ↔
      ∀ entry ∈ versions (start.getPart name).data pub pfmri.pkgName,
          entry.version ≠ versionText pfmri := by
    constructor
    · intro h entry hentry
      exact h [] _ [] rfl entry (List.mem_append_left _ hentry)
    · intro h done addition rest heq entry hentry
      obtain ⟨rfl, rfl, -⟩ : done = [] ∧ addition = _ ∧ rest = [] := by
        cases done with
        | nil => exact ⟨rfl, (List.cons.inj heq).1.symm, (List.cons.inj heq).2.symm⟩
        | cons first done => simp at heq
      simpa using h entry (by simpa [entriesAt, collect] using hentry)
  rw [hfresh]
  unfold State.addEntry
  refine Program.Triple.bind ((State.onPart_triple (add_triple (hstart name) hpub)).weaken
    (fun _ h ↦ h)
    (fun _ _ h ↦ h) fun _ _ h hnew ↦ ?_) fun _ ↦
      Program.Triple.pure fun state ⟨⟨hpart, hnew⟩, hframe⟩ ↦ ?_
  · obtain ⟨entry, hentry, hversion⟩ := h.1
    exact hnew entry hentry hversion
  · refine ⟨rfl, ⟨fun other ↦ ?_, fun other otherPub stem ↦ ?_⟩, hnew⟩
    · by_cases hother : other = name
      · rw [hother, hpart]
        exact hstart name
      · rw [hframe.others other hother]
        exact hstart other
    · unfold entriesAt
      by_cases hother : other = name
      · subst hother
        rw [hpart]
        by_cases hkey : otherPub = pub ∧ stem = pfmri.pkgName
        · obtain ⟨rfl, rfl⟩ := hkey
          simp [collect]
        · rw [versions_putVersions_of_ne _ _ _ _ (by tauto)]
          have hne : (pub == otherPub && pfmri.pkgName == stem) = false := by
            rw [Bool.eq_false_iff, ne_eq, Bool.and_eq_true, beq_iff_eq, beq_iff_eq]
            exact fun heq ↦ hkey ⟨heq.1.symm, heq.2.symm⟩
          simp [collect, hne]
      · rw [hframe.others other hother]
        simp [collect, Ne.symm hother]

/-! ### The source -/

/-- The entries of a part with their publishers and names. -/
def rows (part : CatalogPart) : List (String × String × Entry) :=
  part.data.flatMap fun pub ↦ pub.2.flatMap fun package ↦ package.2.map fun entry ↦
    (pub.1, package.1, entry)

/-- A part whose keys are publishers and package names and whose entries are of different versions,
as `add` leaves it. -/
structure PartWellFormed (part : CatalogPart) : Prop where
  publishers : (part.data.map Prod.fst).Nodup
  stems : ∀ pub ∈ part.data, (pub.2.map Prod.fst).Nodup
  named : ∀ pub ∈ part.data, pub.1 ≠ "" ∧ "_".toList.isPrefixOf pub.1.toList = false
  valid : ∀ pub ∈ part.data, ∀ package ∈ pub.2, PkgFmri.validPkgName package.1.toList = true
  written : ∀ pub ∈ part.data, ∀ package ∈ pub.2, ∀ entry ∈ package.2,
    ∃ version : Version, entry.version = String.ofList version.str
  distinct : ∀ pub ∈ part.data, ∀ package ∈ pub.2, (package.2.map Entry.version).Nodup

/-- A catalog to be appended: its parts have different names and are well formed, and no part has a
package that the base part lacks. -/
structure SourceCatalog where
  state : State
  names : (state.parts.map Prod.fst).Nodup
  parts : ∀ part ∈ state.parts, PartWellFormed part.2
  based : state.Based

variable {part : CatalogPart}

/-- The entries of a package among all entries of a part. -/
theorem filter_rows (h : PartWellFormed part) (pub stem : String) :
    ((rows part).filter fun row ↦ row.1 == pub && row.2.1 == stem).map (fun row ↦ row.2.2) =
      versions part.data pub stem := by
  unfold rows versions
  rw [Dict.filter_flatMap_of_key pub h.publishers]
  · cases hpub : part.data.lookup pub with
    | none => rfl
    | some packages =>
      have hmem := Dict.mem_of_lookup hpub
      rw [Option.map_some, Option.getD_some, Option.getD_some,
        Dict.filter_flatMap_of_key stem (h.stems _ hmem)]
      · cases packages.lookup stem with
        | none => rfl
        | some entries =>
          have hid : (fun row : String × String × Entry ↦ row.2.2) ∘ (fun entry ↦
            (pub, stem, entry)) = id := rfl
          rw [Option.map_some, Option.getD_some, Option.getD_some, List.filter_eq_self.mpr,
            List.map_map, hid, List.map_id]
          intro row hrow
          obtain ⟨entry, -, rfl⟩ := List.mem_map.mp hrow
          simp
      · intro package _ hne row hrow
        obtain ⟨entry, -, rfl⟩ := List.mem_map.mp hrow
        simp [hne]
  · intro other _ hne row hrow
    obtain ⟨package, -, hrow⟩ := List.mem_flatMap.mp hrow
    obtain ⟨entry, -, rfl⟩ := List.mem_map.mp hrow
    simp [hne]

theorem entries_eq (h : PartWellFormed part) :
    part.entries = (rows part).map fun row ↦ (readFmri row.1 row.2.1 row.2.2.version, row.2.2) := by
  have hpublishers : part.publishers = part.data.map Prod.fst := by
    refine List.filter_eq_self.mpr fun pub hpub ↦ ?_
    obtain ⟨entry, hentry, rfl⟩ := List.mem_map.mp hpub
    rw [(h.named entry hentry).2, Bool.not_false]
  rw [CatalogPart.entries, hpublishers, List.flatMap_map, rows, List.map_flatMap]
  refine List.flatMap_congr fun pub hpub ↦ ?_
  rw [(Dict.lookup_eq_some_iff_mem h.publishers).mpr hpub, Option.getD_some, List.map_flatMap]
  exact List.flatMap_congr fun package _ ↦ by rw [List.map_map]; rfl

/-- The FMRI of an entry. -/
theorem readFmri_eq {stem : String} (hvalid : PkgFmri.validPkgName stem.toList = true)
    (pub : String) (version : Version) :
    readFmri pub stem (String.ofList version.str) = .ok ⟨some pub, stem, some version⟩ := by
  have htext : stem ++ "@" ++ String.ofList version.str =
      String.ofList (stem.toList ++ '@' :: version.str) := by
    apply String.toList_injective
    simp
  unfold readFmri
  rw [htext, PkgFmri.ofString_suffix hvalid, String.ofList_toList]

/-- Every entry has an FMRI, which it is stored under. -/
theorem exists_readFmri (h : PartWellFormed part) {row : String × String × Entry}
    (hrow : row ∈ rows part) : ∃ f, readFmri row.1 row.2.1 row.2.2.version = .ok f ∧
      CatalogPart.publisherOf f = .ok row.1 ∧ f.pkgName = row.2.1 ∧
      versionText f = row.2.2.version := by
  obtain ⟨pub, hpub, hrow⟩ := List.mem_flatMap.mp hrow
  obtain ⟨package, hpackage, hrow⟩ := List.mem_flatMap.mp hrow
  obtain ⟨entry, hentry, rfl⟩ := List.mem_map.mp hrow
  obtain ⟨version, hversion⟩ := h.written pub hpub package hpackage entry hentry
  refine ⟨⟨some pub.1, package.1, some version⟩, ?_, if_neg (h.named pub hpub).1, rfl,
    hversion.symm⟩
  rw [hversion, readFmri_eq (h.valid pub hpub package hpackage)]

/-! ### What is to be appended -/

/-- The publisher filter lets the publisher through. -/
def Request.lets (request : Request) (pub : String) : Bool :=
  request.pubs.isEmpty || request.pubs.contains pub

/-- What the callback answers about an entry of the base part; without callback every entry is
accepted as it is. -/
def Request.answer (request : Request) (pub stem : String) (entry : Entry) :
    Bool × Option (List (String × String)) :=
  match request.cb, readFmri pub stem entry.version with
  | some cb, .ok f => cb f entry
  | _, _ => (true, none)

/-- The filter and the callback accept the version of a package, of which the callback is asked with
its entry in the base part. -/
def accepts (src : State) (request : Request) (pub stem version : String) : Bool :=
  request.lets pub && (entriesAt src basePart pub stem).any fun base ↦
    base.version == version && (request.answer pub stem base).1

/-- The entry as the destination is to have it: in the base part with the metadata of the callback.
-/
def wantedEntry (request : Request) (name : List Char) (pub stem : String) (entry : Entry) :
    Entry :=
  if name = basePart then ⟨merged entry.toMetadata (request.answer pub stem entry).2, entry.version⟩
  else entry

/-- The entries of a package that are to be added to a part. -/
def wanted (src : State) (request : Request) (name : List Char) (pub stem : String) : List Entry :=
  ((entriesAt src name pub stem).filter fun entry ↦ accepts src request pub stem entry.version).map
    (wantedEntry request name pub stem)

/-- `append` returns, and has added to every part the entries of the FMRIs that are accepted, and
nothing else. -/
def Appends (src dest : State) (request : Request) : Prop :=
  ∃ after, Program.exec (append src request) dest = (.ok (), after) ∧ ∀ name pub stem,
    entriesAt after name pub stem = entriesAt dest name pub stem ++ wanted src request name pub stem

/-! ### What is appended -/

/-- The additions that some entries of a part make. -/
def additionsOf (name : List Char) (keep : String × String × Entry → Bool)
    (change : String × String × Entry → Entry) (list : List (String × String × Entry)) :
    List Addition :=
  list.flatMap fun row ↦ if keep row then [⟨name, row.1, row.2.1, change row⟩] else []

theorem additionsOf_eq (name : List Char) (keep : String × String × Entry → Bool)
    (change : String × String × Entry → Entry) (list : List (String × String × Entry)) :
    additionsOf name keep change list =
      (list.filter keep).map fun row ↦ ⟨name, row.1, row.2.1, change row⟩ := by
  induction list with
  | nil => rfl
  | cons row rest ih =>
    unfold additionsOf at ih ⊢
    rw [List.flatMap_cons, ih, List.filter_cons]
    split_ifs <;> rfl

/-- What the additions from a part come to for a package. -/
theorem collect_additionsOf (h : PartWellFormed part) (name other : List Char)
    (keep : String × String × Entry → Bool) (change : String × String × Entry → Entry)
    (pub stem : String) :
    collect (additionsOf name keep change (rows part)) other pub stem =
      if name = other then ((versions part.data pub stem).filter fun entry ↦
        keep (pub, stem, entry)).map
        fun entry ↦ change (pub, stem, entry)
      else [] := by
  rw [collect, additionsOf_eq, List.filter_map, List.map_map, List.filter_filter]
  split_ifs with hname
  · subst hname
    rw [← filter_rows h, List.filter_map, List.map_map, List.filter_filter]
    have hrow : ∀ row : String × String × Entry, (row.1 == pub && row.2.1 == stem) = true →
        (pub, stem, row.2.2) = row := by
      intro row hkey
      rw [Bool.and_eq_true, beq_iff_eq, beq_iff_eq] at hkey
      rw [← hkey.1, ← hkey.2]
    rw [List.filter_congr (q := fun row ↦
      keep (pub, stem, row.2.2) && (row.1 == pub && row.2.1 == stem))]
    · refine List.map_congr_left fun row hmem ↦ ?_
      have hkey := (Bool.and_eq_true _ _ ▸ (List.mem_filter.mp hmem).2 : _ ∧ _).2
      simp only [Function.comp_apply, hrow row hkey]
    · intro row _
      by_cases hkey : (row.1 == pub && row.2.1 == stem) = true
      · have hboth : row.1 = pub ∧ row.2.1 = stem := by simpa using hkey
        simp [hrow row hkey, hboth.1, hboth.2]
      · rw [Bool.not_eq_true] at hkey
        simp [hkey]
  · rw [List.filter_eq_nil_iff.mpr, List.map_nil]
    intro row _
    simp [hname]

/-- The FMRIs that a row of the base part puts into `d`. -/
def refusedFmris (request : Request) (row : String × String × Entry) : List PkgFmri :=
  if request.lets row.1 && !(request.answer row.1 row.2.1 row.2.2).1 then
    (readFmri row.1 row.2.1 row.2.2.version).toOption.toList
  else []

variable {request : Request}

theorem skips_eq {f : PkgFmri} {pub : String} (hpub : f.publisher = some pub) :
    request.skips f = !request.lets pub := by
  have hany : (request.pubs.any fun other ↦ f.publisher == some other) =
      request.pubs.contains pub := by
    rw [Bool.eq_iff_iff]
    simp [hpub]
  rw [Request.skips, Request.lets, hany]
  simp [Bool.not_or]

section Rows

variable {request : Request} {part : CatalogPart} {row : String × String × Entry}

/-- The turn of the loop over the base part for an entry. -/
theorem delivers_appendBase (h : PartWellFormed part) (hrow : row ∈ rows part) :
    Delivers (appendBase request (readFmri row.1 row.2.1 row.2.2.version, row.2.2))
    (refusedFmris request row)
      (if request.lets row.1 && (request.answer row.1 row.2.1 row.2.2).1 then
        [⟨basePart, row.1, row.2.1, wantedEntry request basePart row.1 row.2.1 row.2.2⟩]
        else []) := by
  obtain ⟨f, hread, hpub, hname, hversion⟩ := exists_readFmri h hrow
  have hskips : request.skips f = !request.lets row.1 :=
    skips_eq (CatalogPart.publisher_of_publisherOf hpub)
  have hadd : ∀ metadata, Delivers (do State.addEntry basePart f metadata; return [])
      ([] : List PkgFmri)
      [⟨basePart, row.1, row.2.1, ⟨metadata, row.2.2.version⟩⟩] := by
    intro metadata
    rw [← hname, ← hversion]
    exact Delivers.bind (Delivers.addEntry hpub basePart metadata) (Delivers.pure [])
  unfold appendBase refusedFmris
  rw [hread]
  refine Delivers.bind_nil (Delivers.lift f) ?_
  rw [hskips]
  cases hlets : request.lets row.1 with
  | false => exact Delivers.pure []
  | true =>
    have hwanted : wantedEntry request basePart row.1 row.2.1 row.2.2 =
        ⟨merged row.2.2.toMetadata (request.answer row.1 row.2.1 row.2.2).2, row.2.2.version⟩ :=
          if_pos rfl
    rw [Bool.not_true, if_neg Bool.false_ne_true, hwanted, Bool.true_and, Bool.true_and]
    cases hcb : request.cb with
    | none =>
      have hanswer : request.answer row.1 row.2.1 row.2.2 = (true, none) := by
        rw [Request.answer, hcb]
      rw [hanswer]
      exact hadd row.2.2.toMetadata
    | some cb =>
      have hanswer : request.answer row.1 row.2.1 row.2.2 = cb f row.2.2 := by
        rw [Request.answer, hcb, hread]
      rw [hanswer]
      dsimp only
      cases (cb f row.2.2).1 with
      | true => exact hadd (merged row.2.2.toMetadata (cb f row.2.2).2)
      | false => exact Delivers.pure [f]

/-- The row of another part is copied. -/
def keeps (request : Request) (d : List PkgFmri) (row : String × String × Entry) : Bool :=
  request.lets row.1 && !((readFmri row.1 row.2.1 row.2.2.version).toOption.any (discarded d))

/-- The turn of the loop over another part for an entry. -/
theorem delivers_appendEntry (h : PartWellFormed part) (hrow : row ∈ rows part) (d : List PkgFmri)
    (name : List Char) :
    Delivers (appendEntry request d name (readFmri row.1 row.2.1 row.2.2.version, row.2.2)) ()
      (if keeps request d row then [⟨name, row.1, row.2.1, row.2.2⟩] else []) := by
  obtain ⟨f, hread, hpub, hname, hversion⟩ := exists_readFmri h hrow
  have hskips : request.skips f = !request.lets row.1 :=
    skips_eq (CatalogPart.publisher_of_publisherOf hpub)
  have hadd := Delivers.addEntry hpub name row.2.2.toMetadata
  rw [hname, hversion] at hadd
  unfold appendEntry keeps
  rw [hread]
  refine Delivers.bind_nil (Delivers.lift f) ?_
  rw [hskips]
  cases request.lets row.1 with
  | false => exact Delivers.pure ()
  | true =>
    have hany : (Except.ok f : Except Error PkgFmri).toOption.any (discarded d) = discarded d f :=
      rfl
    rw [Bool.not_true, if_neg Bool.false_ne_true, Bool.true_and, hany]
    cases discarded d f with
    | true => exact Delivers.pure ()
    | false => exact hadd

theorem delivers_appendPart (h : PartWellFormed part) (hall : request.pfmri = none)
    (d : List PkgFmri) (name : List Char) :
    Delivers (appendPart request d (name, part)) ()
      (additionsOf name (keeps request d) (fun row ↦ row.2.2) (rows part)) := by
  unfold appendPart
  rw [hall]
  refine Delivers.bind_nil (Delivers.lift (some part.entries)) ?_
  refine Delivers.bind_nil (Delivers.touch name) ?_
  rw [entries_eq h, Program.forEach_map]
  exact Delivers.forEach fun row hrow ↦ delivers_appendEntry h hrow d name

theorem delivers_appendBase_entries (h : PartWellFormed part) :
    Delivers (Program.flatMapEach (appendBase request) part.entries)
    ((rows part).flatMap (refusedFmris request))
      (additionsOf basePart (fun row ↦ request.lets row.1 &&
        (request.answer row.1 row.2.1 row.2.2).1)
        (fun row ↦ wantedEntry request basePart row.1 row.2.1 row.2.2) (rows part)) := by
  rw [entries_eq h, Program.flatMapEach_map]
  exact Delivers.flatMapEach fun row hrow ↦ delivers_appendBase h hrow

end Rows

/-! ### The whole append -/

/-- The FMRIs in `d` after the loop over the base part. -/
def discards (src : State) (request : Request) : List PkgFmri :=
  (rows (src.getPart basePart)).flatMap (refusedFmris request)

/-- The additions from the base part. -/
def baseAdditions (src : State) (request : Request) : List Addition :=
  additionsOf basePart (fun row ↦ request.lets row.1 && (request.answer row.1 row.2.1 row.2.2).1)
    (fun row ↦ wantedEntry request basePart row.1 row.2.1 row.2.2) (rows (src.getPart basePart))

/-- The additions from the other parts. -/
def otherAdditions (src : State) (request : Request) : List Addition :=
  (src.parts.filter fun part ↦ part.1 ≠ basePart).flatMap fun part ↦
    additionsOf part.1 (keeps request (discards src request)) (fun row ↦ row.2.2) (rows part.2)

variable {pub stem : String}

theorem mem_rows_iff (h : PartWellFormed part) {entry : Entry} :
    (pub, stem, entry) ∈ rows part ↔ entry ∈ versions part.data pub stem := by
  rw [← filter_rows h, List.mem_map]
  constructor
  · intro hmem
    exact ⟨(pub, stem, entry), List.mem_filter.mpr ⟨hmem, by simp⟩, rfl⟩
  · rintro ⟨⟨pub', stem', entry'⟩, hrow, rfl⟩
    obtain ⟨hmem, hkey⟩ := List.mem_filter.mp hrow
    obtain ⟨rfl, rfl⟩ : pub' = pub ∧ stem' = stem := by simpa using hkey
    exact hmem

theorem SourceCatalog.getPart_eq (src : SourceCatalog) {part : List Char × CatalogPart}
    (h : part ∈ src.state.parts) : src.state.getPart part.1 = part.2 := by
  rw [State.getPart, (Dict.lookup_eq_some_iff_mem src.names).mpr h, Option.getD_some]

theorem SourceCatalog.wellFormed (src : SourceCatalog) (name : List Char) :
    PartWellFormed (src.state.getPart name) := by
  rw [State.getPart]
  cases hpart : src.state.parts.lookup name with
  | none => exact ⟨List.nodup_nil, by simp, by simp, by simp, by simp, by simp⟩
  | some part => exact src.parts _ (Dict.mem_of_lookup hpart)

/-- Without base part there is nothing to append. -/
theorem SourceCatalog.rows_eq_nil (src : SourceCatalog) (h : src.state.parts.lookup basePart = none)
    {part : List Char × CatalogPart} (hpart : part ∈ src.state.parts) : rows part.2 = [] := by
  rw [List.eq_nil_iff_forall_not_mem]
  rintro ⟨pub, stem, entry⟩ hrow
  rw [mem_rows_iff (src.parts part hpart), ← src.getPart_eq hpart] at hrow
  obtain ⟨base, hbase, -⟩ := src.based part.1 pub stem entry.version ⟨entry, hrow, rfl⟩
  rw [State.getPart, h, Option.getD_none] at hbase
  cases hbase

theorem delivers_appendParts (src : SourceCatalog) (hall : request.pfmri = none) :
    Delivers (appendParts src.state request) ()
      (baseAdditions src.state request ++ otherAdditions src.state request) := by
  unfold appendParts
  refine Delivers.bind_nil (Delivers.touch basePart) ?_
  cases hbase : src.state.parts.lookup basePart with
  | none =>
    have hpart : src.state.getPart basePart = ⟨[], !src.state.batchMode⟩ := by
      rw [State.getPart, hbase, Option.getD_none]
    have hothers : otherAdditions src.state request = [] :=
      List.flatMap_eq_nil_iff.mpr fun part hmem ↦ by
        rw [src.rows_eq_nil hbase (List.mem_filter.mp hmem).1]
        rfl
    rw [hothers, baseAdditions, hpart, hall]
    exact Delivers.pure ()
  | some base =>
    have hmem := Dict.mem_of_lookup hbase
    have hpart : src.state.getPart basePart = base := src.getPart_eq hmem
    rw [hall]
    refine Delivers.bind_nil (Delivers.lift (some base.entries)) ?_
    dsimp only
    have hloop : Delivers (Program.flatMapEach (appendBase request) base.entries)
        (discards src.state request)
        (baseAdditions src.state request) := by
      rw [discards, baseAdditions, hpart]
      exact delivers_appendBase_entries (src.parts _ hmem)
    refine Delivers.bind hloop ?_
    · rw [if_neg (by simp)]
      exact Delivers.forEach fun part hpart ↦
        delivers_appendPart (src.parts part (List.mem_filter.mp hpart).1) hall _ _

/-- The entries of a package are of different versions. -/
theorem nodup_versions (h : PartWellFormed part) (pub stem : String) :
    ((versions part.data pub stem).map Entry.version).Nodup := by
  unfold versions
  cases hpub : part.data.lookup pub with
  | none => exact List.nodup_nil
  | some packages =>
    rw [Option.getD_some]
    cases hstem : packages.lookup stem with
    | none => exact List.nodup_nil
    | some entries => exact h.distinct _ (Dict.mem_of_lookup hpub) _ (Dict.mem_of_lookup hstem)

/-- An FMRI is accepted if the callback accepts its entry in the base part. -/
theorem accepts_of_mem (src : SourceCatalog) (request : Request) {base : Entry}
    (hbase : base ∈ entriesAt src.state basePart pub stem) :
    accepts src.state request pub stem base.version =
      (request.lets pub && (request.answer pub stem base).1) := by
  rw [accepts]
  congr 1
  rw [Bool.eq_iff_iff, List.any_eq_true]
  constructor
  · rintro ⟨other, hother, hanswer⟩
    rw [Bool.and_eq_true, beq_iff_eq] at hanswer
    have hnodup := nodup_versions (src.wellFormed basePart) pub stem
    rw [← List.inj_on_of_nodup_map hnodup hother hbase hanswer.1]
    exact hanswer.2
  · intro hanswer
    exact ⟨base, hbase, by rw [beq_self_eq_true, hanswer]; rfl⟩

theorem collect_baseAdditions (src : SourceCatalog) (request : Request) (name : List Char)
    (pub stem : String) :
    collect (baseAdditions src.state request) name pub stem =
      if basePart = name then wanted src.state request basePart pub stem else [] := by
  rw [baseAdditions, collect_additionsOf (src.wellFormed basePart)]
  refine if_congr Iff.rfl ?_ rfl
  rw [wanted]
  refine congrArg (List.map _) (List.filter_congr fun base hbase ↦ ?_)
  exact (accepts_of_mem src request hbase).symm

theorem collect_flatMap {α : Type} (additions : α → List Addition) (list : List α)
    (name : List Char) (pub stem : String) : collect (list.flatMap additions) name pub stem =
      list.flatMap fun element ↦ collect (additions element) name pub stem := by
  induction list with
  | nil => rfl
  | cons element rest ih => rw [List.flatMap_cons, List.flatMap_cons, collect_append, ih]

theorem collect_otherAdditions (src : SourceCatalog) (request : Request) (name : List Char)
    (pub stem : String) :
    collect (otherAdditions src.state request) name pub stem =
      if basePart = name then [] else (entriesAt src.state name pub stem).filter
        fun entry ↦ keeps request (discards src.state request) (pub, stem, entry) := by
  rw [otherAdditions, collect_flatMap]
  have hpart : ∀ part ∈ src.state.parts.filter fun part ↦ part.1 ≠ basePart,
      collect (additionsOf part.1 (keeps request (discards src.state request)) (fun row ↦ row.2.2)
        (rows part.2)) name pub stem = if part.1 = name then (versions part.2.data pub stem).filter
          fun entry ↦ keeps request (discards src.state request) (pub, stem, entry) else [] := by
    intro part hpart
    rw [collect_additionsOf (src.parts part (List.mem_filter.mp hpart).1)]
    refine if_congr Iff.rfl (List.map_id _) rfl
  rw [List.flatMap_congr hpart]
  have herase : (src.state.parts.filter fun part ↦ part.1 ≠ basePart) =
      Dict.erase src.state.parts basePart :=
    List.filter_congr fun part _ ↦ by rw [Bool.eq_iff_iff, decide_eq_true_eq, bne_iff_ne]
  have hnodup : ((Dict.erase src.state.parts basePart).map Prod.fst).Nodup :=
    (List.filter_sublist.map Prod.fst).nodup src.names
  have hkey := Dict.flatMap_ite_of_key hnodup name (fun part : CatalogPart ↦
    (versions part.data pub stem).filter fun entry ↦
      keeps request (discards src.state request) (pub, stem, entry))
  rw [herase]
  refine hkey.trans ?_
  split_ifs with hname
  · rw [← hname, Dict.lookup_erase_self]
    rfl
  · rw [Dict.lookup_erase_of_ne _ (Ne.symm hname), entriesAt, State.getPart]
    cases src.state.parts.lookup name <;> rfl

/-- The additions of an append. -/
def plan (src : State) (request : Request) : List Addition :=
  baseAdditions src request ++ otherAdditions src request

theorem getPart_setBatchMode (value : Bool) (state : State) (name : List Char) :
    (setBatchMode value state).getPart name =
      { state.getPart name with ordered := !value } := by
  have hlookup : ∀ parts : List (List Char × CatalogPart),
      (parts.map fun part ↦ (part.1, { part.2 with ordered := !value })).lookup name =
        (parts.lookup name).map fun part ↦ { part with ordered := !value } := by
    intro parts
    induction parts with
    | nil => rfl
    | cons part rest ih =>
      rw [List.map_cons, List.lookup_cons, List.lookup_cons, ih]
      cases name == part.1 <;> rfl
  rw [State.getPart, setBatchMode, hlookup, State.getPart]
  cases state.parts.lookup name <;> rfl

theorem entriesAt_setBatchMode (value : Bool) (state : State) (name : List Char)
    (pub stem : String) :
    entriesAt (setBatchMode value state) name pub stem = entriesAt state name pub stem := by
  rw [entriesAt, getPart_setBatchMode, entriesAt]

theorem fresh_setBatchMode_iff (value : Bool) {state : State} {additions : List Addition} :
    Fresh (setBatchMode value state) additions ↔ Fresh state additions := by
  simp only [Fresh, entriesAt_setBatchMode]

/-- What the append does: it makes the additions of its plan, or raises if one of them is of a
version that is there already. -/
theorem append_triple (src : SourceCatalog) (hall : request.pfmri = none) (dest : State) :
    Program.Triple (fun state ↦ state = dest) (append src.state request)
      (fun _ after ↦ (∀ name pub stem, entriesAt after name pub stem =
          entriesAt dest name pub stem ++ collect (plan src.state request) name pub stem) ∧
        Fresh dest (plan src.state request))
      (fun _ _ ↦ ¬ Fresh dest (plan src.state request)) := by
  unfold append
  refine Program.Triple.bind (M := fun self state ↦ self = dest ∧ state = dest)
    (Program.Triple.get fun state h ↦ ⟨h, h⟩) fun self ↦ Program.Triple.assume fun hself ↦ ?_
  subst hself
  refine Program.Triple.bind (M := fun _ state ↦ state = setBatchMode true self)
    (Program.Triple.modify fun state h ↦ by rw [h]) fun _ ↦ ?_
  have hunordered : Unordered (setBatchMode true self) := fun name ↦ by
    rw [getPart_setBatchMode]; rfl
  have hparts := delivers_appendParts src hall _ hunordered
  refine Program.Triple.bind (Program.Triple.handle hparts fun error ↦ ?_) fun _ ↦ ?_
  · refine Program.Triple.bind (M := fun _ _ ↦ ¬ Fresh self (plan src.state request))
      (Program.Triple.modify fun state h ↦ ?_) fun _ ↦ Program.Triple.throw fun _ h ↦ h
    rwa [← fresh_setBatchMode_iff true]
  · refine Program.Triple.modify fun state h ↦
      ⟨fun name pub stem ↦ ?_, (fresh_setBatchMode_iff true).mp h.2.2⟩
    rw [entriesAt_setBatchMode, h.2.1.entries, entriesAt_setBatchMode, plan]

/-- No FMRI that is to be added to a part is there already. -/
def NoDuplicates (src dest : State) (request : Request) : Prop :=
  ∀ name pub stem, ∀ entry ∈ wanted src request name pub stem,
    ∀ other ∈ entriesAt dest name pub stem, other.version ≠ entry.version

/-- A version of the package that is equal in release, branch and time is not accepted. -/
def Overshadowed (src : State) (request : Request) (pub stem version : String) : Prop :=
  ∃ refused ∈ entriesAt src basePart pub stem,
    accepts src request pub stem refused.version = false ∧
    ∃ f g, readFmri pub stem version = .ok f ∧ readFmri pub stem refused.version = .ok g ∧
      sameVersion g.version f.version = true

theorem mem_discards_iff (src : SourceCatalog) (request : Request) {g : PkgFmri} :
    g ∈ discards src.state request ↔ ∃ pub stem, ∃ refused ∈ entriesAt src.state basePart pub stem,
      request.lets pub = true ∧ (request.answer pub stem refused).1 = false ∧
        readFmri pub stem refused.version = .ok g := by
  simp only [discards, List.mem_flatMap, Prod.exists, mem_rows_iff (src.wellFormed basePart),
    refusedFmris, List.mem_ite_nil_right, Bool.and_eq_true, Bool.not_eq_true', Option.mem_toList]
  refine exists_congr fun pub ↦ exists_congr fun stem ↦ exists_congr fun refused ↦
    and_congr_right fun _ ↦ ?_
  rw [and_assoc]
  refine and_congr_right fun _ ↦ and_congr_right fun _ ↦ ?_
  cases readFmri pub stem refused.version <;> simp [Except.toOption]

/-- A version is in `d` if one that is equal to it was refused. -/
theorem discarded_iff (src : SourceCatalog) {f : PkgFmri}
    (hlets : request.lets pub = true) (hpub : f.publisher = some pub) (hname : f.pkgName = stem) :
    discarded (discards src.state request) f = true ↔
    ∃ refused ∈ entriesAt src.state basePart pub stem,
      (request.answer pub stem refused).1 = false ∧ ∃ g, readFmri pub stem refused.version = .ok g ∧
        sameVersion g.version f.version = true := by
  simp only [discarded, List.any_eq_true, mem_discards_iff, Bool.and_eq_true, beq_iff_eq]
  constructor
  · rintro ⟨g, ⟨otherPub, otherStem, refused, hrefused, -, hanswer, hread⟩,
      ⟨hsamePub, hsameName⟩, hsame⟩
    obtain ⟨g', hread', hpub', hname', -⟩ :=
      exists_readFmri (src.wellFormed basePart)
        ((mem_rows_iff (src.wellFormed basePart)).mpr hrefused)
    obtain rfl : g = g' := Except.ok.inj (hread.symm.trans hread')
    obtain rfl : otherPub = pub := by
      have heq := (CatalogPart.publisher_of_publisherOf hpub').symm.trans (hsamePub.trans hpub)
      exact Option.some.inj heq
    obtain rfl : otherStem = stem := hname'.symm.trans (hsameName.trans hname)
    exact ⟨refused, hrefused, hanswer, g, hread, hsame⟩
  · rintro ⟨refused, hrefused, hanswer, g, hread, hsame⟩
    obtain ⟨g', hread', hpub', hname', -⟩ :=
      exists_readFmri (src.wellFormed basePart)
        ((mem_rows_iff (src.wellFormed basePart)).mpr hrefused)
    obtain rfl : g = g' := Except.ok.inj (hread.symm.trans hread')
    refine ⟨g, ⟨pub, stem, refused, hrefused, hlets, hanswer, hread⟩,
      ⟨?_, hname'.trans hname.symm⟩, hsame⟩
    exact (CatalogPart.publisher_of_publisherOf hpub').trans hpub.symm

theorem sameVersion_self (version : Option Version) : sameVersion version version = true := by
  cases version with
  | none => rfl
  | some version => exact Version.eq_iff.mpr rfl

/-- A row of another part is copied if its FMRI is accepted and no equal version is refused. -/
theorem keeps_iff (src : SourceCatalog) (request : Request) {name : List Char} {entry : Entry}
    (hentry : entry ∈ entriesAt src.state name pub stem) :
    keeps request (discards src.state request) (pub, stem, entry) = true ↔
      accepts src.state request pub stem entry.version = true ∧
        ¬ Overshadowed src.state request pub stem entry.version := by
  obtain ⟨f, hread, hpub, hname, -⟩ :=
    exists_readFmri (src.wellFormed name) ((mem_rows_iff (src.wellFormed name)).mpr hentry)
  have hpub := CatalogPart.publisher_of_publisherOf hpub
  have hany : (readFmri pub stem entry.version).toOption.any
      (discarded (discards src.state request)) =
      discarded (discards src.state request) f := by rw [hread]; rfl
  obtain ⟨base, hbase, hversion⟩ := src.based name pub stem entry.version ⟨entry, hentry, rfl⟩
  have hbase' : base ∈ entriesAt src.state basePart pub stem := hbase
  have haccepts := accepts_of_mem src request hbase'
  rw [hversion] at haccepts
  rw [keeps, hany, Bool.and_eq_true, Bool.not_eq_true', haccepts, Bool.and_eq_true]
  have hshadow : request.lets pub = true → (discarded (discards src.state request) f = true ↔
      Overshadowed src.state request pub stem entry.version) := by
    intro hlets
    rw [discarded_iff src hlets hpub hname]
    refine exists_congr fun refused ↦ and_congr_right fun hrefused ↦ ?_
    rw [accepts_of_mem src request hrefused, hlets, Bool.true_and]
    refine and_congr_right fun _ ↦ ?_
    constructor
    · rintro ⟨g, hread', hsame⟩
      exact ⟨f, g, hread, hread', hsame⟩
    · rintro ⟨f', g, hf, hread', hsame⟩
      obtain rfl := Except.ok.inj (hread.symm.trans hf)
      exact ⟨g, hread', hsame⟩
  constructor
  · rintro ⟨hlets, hnot⟩
    refine ⟨⟨hlets, ?_⟩, fun hover ↦ ?_⟩
    · by_contra hanswer
      rw [Bool.not_eq_true] at hanswer
      refine absurd ((discarded_iff src hlets hpub hname).mpr ⟨base, hbase', hanswer, f, ?_,
        sameVersion_self _⟩) ?_
      · rw [hversion]
        exact hread
      · rw [hnot]
        decide
    · rw [(hshadow hlets).mpr hover] at hnot
      cases hnot
  · rintro ⟨⟨hlets, -⟩, hnot⟩
    refine ⟨hlets, Bool.eq_false_iff.mpr fun hdiscarded ↦ hnot ((hshadow hlets).mp hdiscarded)⟩

/-- No accepted FMRI has an entry in another part while an equal version is refused. -/
def NoneOvershadowed (src : State) (request : Request) : Prop :=
  ∀ name, name ≠ basePart → ∀ pub stem, ∀ entry ∈ entriesAt src name pub stem,
    accepts src request pub stem entry.version = true →
      ¬ Overshadowed src request pub stem entry.version

theorem collect_plan (src : SourceCatalog) (request : Request) (name : List Char)
    (pub stem : String) :
    collect (plan src.state request) name pub stem =
      if name = basePart then wanted src.state request name pub stem
      else (entriesAt src.state name pub stem).filter
        fun entry ↦ keeps request (discards src.state request) (pub, stem, entry) := by
  rw [plan, collect_append, collect_baseAdditions, collect_otherAdditions]
  by_cases hname : name = basePart
  · rw [if_pos hname, if_pos hname.symm, if_pos hname.symm, List.append_nil, hname]
  · rw [if_neg hname, if_neg (Ne.symm hname), if_neg (Ne.symm hname), List.nil_append]

theorem wanted_of_ne {src : State} {name : List Char} (h : name ≠ basePart) (pub stem : String) :
    wanted src request name pub stem =
      (entriesAt src name pub stem).filter fun entry ↦
      accepts src request pub stem entry.version := by
  have hid : wantedEntry request name pub stem = id := funext fun entry ↦ if_neg h
  rw [wanted, hid, List.map_id]

/-- The plan is what is to be appended exactly if no accepted FMRI is overshadowed. -/
theorem collect_plan_eq_wanted_iff (src : SourceCatalog) (request : Request) :
    (∀ name pub stem, collect (plan src.state request) name pub stem =
      wanted src.state request name pub stem) ↔
      NoneOvershadowed src.state request := by
  constructor
  · intro h name hname pub stem entry hentry haccepts
    have hplan := h name pub stem
    rw [collect_plan, if_neg hname, wanted_of_ne hname] at hplan
    have hmem : entry ∈ (entriesAt src.state name pub stem).filter fun entry ↦
        accepts src.state request pub stem entry.version := List.mem_filter.mpr ⟨hentry, haccepts⟩
    rw [← hplan] at hmem
    exact ((keeps_iff src request hentry).mp (List.mem_filter.mp hmem).2).2
  · intro h name pub stem
    rw [collect_plan]
    split_ifs with hname
    · rfl
    · rw [wanted_of_ne hname]
      refine List.filter_congr fun entry hentry ↦ ?_
      rw [Bool.eq_iff_iff, keeps_iff src request hentry]
      exact and_iff_left_of_imp (h name hname pub stem entry hentry)

theorem nodup_wanted (src : SourceCatalog) (request : Request) (name : List Char)
    (pub stem : String) :
    ((wanted src.state request name pub stem).map Entry.version).Nodup := by
  have hversion : Entry.version ∘ wantedEntry request name pub stem = Entry.version := by
    funext entry
    rw [Function.comp_apply, wantedEntry]
    split_ifs <;> rfl
  rw [wanted, List.map_map, hversion]
  exact (List.filter_sublist.map Entry.version).nodup
    (nodup_versions (src.wellFormed name) pub stem)

/-- What is to be appended is fresh if none of it is there already. -/
theorem fresh_iff_noDuplicates (src : SourceCatalog) (dest : State)
    (h : ∀ name pub stem, collect (plan src.state request) name pub stem =
      wanted src.state request name pub stem) :
    Fresh dest (plan src.state request) ↔ NoDuplicates src.state dest request := by
  constructor
  · intro hfresh name pub stem entry hentry other hother
    rw [← h] at hentry
    obtain ⟨addition, hmem, rfl⟩ := List.mem_map.mp hentry
    obtain ⟨haddition, hkey⟩ := List.mem_filter.mp hmem
    obtain ⟨⟨rfl, rfl⟩, rfl⟩ : (addition.name = name ∧ addition.pub = pub) ∧
        addition.stem = stem := by
      simpa using hkey
    obtain ⟨done, rest, hsplit⟩ := List.append_of_mem haddition
    exact hfresh done addition rest hsplit other (List.mem_append_left _ hother)
  · intro hnone done addition rest hsplit other hother
    have hself : collect [addition] addition.name addition.pub addition.stem =
        [addition.entry] := by
      simp [collect]
    have hcollect := h addition.name addition.pub addition.stem
    rw [hsplit, ← List.singleton_append, collect_append, collect_append, hself] at hcollect
    rcases List.mem_append.mp hother with hold | hnew
    · refine hnone addition.name addition.pub addition.stem addition.entry ?_ other hold
      rw [← hcollect]
      exact List.mem_append_right _ (List.mem_append_left _ List.mem_cons_self)
    · have hnodup := nodup_wanted src request addition.name addition.pub addition.stem
      rw [← hcollect, List.map_append, List.nodup_append] at hnodup
      exact hnodup.2.2 _ (List.mem_map_of_mem hnew) _ (List.mem_map_of_mem
        (List.mem_append_left _ List.mem_cons_self))

/-- An append that adds what is accepted has overshadowed nothing. -/
theorem of_appends (src : SourceCatalog) {dest : State} (hall : request.pfmri = none)
    (h : Appends src.state dest request) :
    NoDuplicates src.state dest request ∧ NoneOvershadowed src.state request := by
  obtain ⟨after, hexec, hentries⟩ := h
  have hrun := append_triple src hall dest dest rfl
  rw [hexec] at hrun
  have hsame : ∀ name pub stem, collect (plan src.state request) name pub stem =
      wanted src.state request name pub stem := fun name pub stem ↦
    List.append_cancel_left ((hrun.1 name pub stem).symm.trans (hentries name pub stem))
  exact ⟨(fresh_iff_noDuplicates src dest hsame).mp hrun.2,
    (collect_plan_eq_wanted_iff src request).mp hsame⟩

/-- An append of a whole catalog adds what is accepted exactly if nothing of it is in the
destination already, and no accepted FMRI with an entry in another part than the base part agrees
with a refused one in publisher, name, release, branch and time. -/
theorem append_eq_iff (src : SourceCatalog) (dest : State)
    (cb : Option (PkgFmri → Entry → Bool × Option (List (String × String)))) (pubs : List String) :
    Appends src.state dest ⟨cb, none, pubs⟩ ↔
      NoDuplicates src.state dest ⟨cb, none, pubs⟩ ∧
      NoneOvershadowed src.state ⟨cb, none, pubs⟩ := by
  refine ⟨of_appends src rfl, fun h ↦ ?_⟩
  have hrun := append_triple src (rfl : (⟨cb, none, pubs⟩ : Request).pfmri = none) dest dest rfl
  have hplan := (collect_plan_eq_wanted_iff src ⟨cb, none, pubs⟩).mpr h.2
  rcases hexec : Program.exec (append src.state ⟨cb, none, pubs⟩) dest with ⟨error | value,
    after⟩ <;>
    rw [hexec] at hrun
  · exact absurd ((fresh_iff_noDuplicates src dest hplan).mpr h.1) hrun
  · refine ⟨after, hexec, fun name pub stem ↦ ?_⟩
    rw [hrun.1, hplan]

/-! ### Two builds of a version -/

/-- The version 1 that was built on a system. -/
def built (build : ℕ) : Version :=
  ⟨⟨[1], List.cons_ne_nil _ _⟩, ⟨[5, build], List.cons_ne_nil _ _⟩, none, none⟩

/-- An entry of the version 1 that was built on a system. -/
def builtEntry (build : ℕ) (actions : Option (List (List Char))) : Entry :=
  ⟨⟨none, [], actions⟩, String.ofList (built build).str⟩

/-- A part with some entries of one package. -/
def toolsPart (entries : List Entry) : CatalogPart :=
  ⟨[("openindiana", [("tools", entries)])], false⟩

theorem partWellFormed_toolsPart {entries : List Entry}
    (hwritten : ∀ entry ∈ entries, ∃ version : Version, entry.version = String.ofList version.str)
    (hdistinct : (entries.map Entry.version).Nodup) : PartWellFormed (toolsPart entries) := by
  refine ⟨List.nodup_singleton _, ?_, ?_, ?_, ?_, ?_⟩ <;>
    simp only [toolsPart, List.mem_singleton, forall_eq]
  · exact List.nodup_singleton _
  · exact ⟨by decide, by decide⟩
  · decide
  · exact hwritten
  · exact hdistinct

theorem versions_toolsPart (entries : List Entry) (pub stem : String) :
    versions (toolsPart entries).data pub stem =
      if pub = "openindiana" ∧ stem = "tools" then entries else [] := by
  rw [versions, toolsPart]
  by_cases hpub : pub = "openindiana"
  · by_cases hstem : stem = "tools"
    · simp [hpub, hstem]
    · simp [hpub, hstem, List.lookup_cons, beq_eq_false_iff_ne.mpr hstem]
  · simp [hpub, List.lookup_cons, beq_eq_false_iff_ne.mpr hpub]

theorem version_builtEntry_ne : (builtEntry 12 none).version ≠ (builtEntry 11 none).version := by
  intro heq
  exact absurd (Version.str_injective (String.ofList_injective heq)) (by decide)

/-- Two builds of a version in the base part, the first of which has a dependency. -/
def twoBuildsState : State where
  parts := [(basePart, toolsPart [builtEntry 11 none, builtEntry 12 none]),
    (depsPart, toolsPart [builtEntry 11 (some ["depend".toList])])]
  packageCount := 1
  packageVersionCount := 2
  batchMode := true
  manifestCb := none

theorem entriesAt_twoBuildsState (name : List Char) (pub stem : String) :
    entriesAt twoBuildsState name pub stem =
      if pub = "openindiana" ∧ stem = "tools" then
        if name = basePart then [builtEntry 11 none, builtEntry 12 none]
        else if name = depsPart then [builtEntry 11 (some ["depend".toList])] else []
      else [] := by
  rw [entriesAt, State.getPart]
  by_cases hbase : name = basePart
  · simp [twoBuildsState, hbase, versions_toolsPart]
  · by_cases hdeps : name = depsPart
    · simp [twoBuildsState, List.lookup_cons, hdeps, versions_toolsPart, basePart_ne_depsPart.symm,
        beq_eq_false_iff_ne.mpr basePart_ne_depsPart.symm]
    · simp [twoBuildsState, List.lookup_cons, hbase, hdeps, beq_eq_false_iff_ne.mpr hbase,
        beq_eq_false_iff_ne.mpr hdeps, versions]

theorem based_twoBuildsState : twoBuildsState.Based := by
  rintro name pub stem version ⟨entry, hentry, hversion⟩
  have hentry' : entry ∈ entriesAt twoBuildsState name pub stem := hentry
  rw [entriesAt_twoBuildsState] at hentry'
  split_ifs at hentry' with hkey hbase hdeps
  · exact ⟨entry, hbase ▸ hentry, hversion⟩
  · refine ⟨builtEntry 11 none, ?_, ?_⟩
    · show _ ∈ entriesAt twoBuildsState basePart pub stem
      rw [entriesAt_twoBuildsState, if_pos hkey, if_pos rfl]
      exact List.mem_cons_self
    · rw [← hversion, List.mem_singleton.mp hentry']
      rfl
  · cases hentry'
  · cases hentry'

/-- The catalog with the two builds. -/
def twoBuilds : SourceCatalog where
  state := twoBuildsState
  names := by decide
  parts := by
    have hwritten : ∀ build actions, ∃ version : Version, (builtEntry build actions).version =
        String.ofList version.str := fun build actions ↦ ⟨_, rfl⟩
    simp only [twoBuildsState, List.forall_mem_cons, List.not_mem_nil, false_imp_iff,
      implies_true, and_true]
    refine ⟨partWellFormed_toolsPart (by simp [hwritten]) ?_,
      partWellFormed_toolsPart (by simp [hwritten]) ?_⟩
    · simpa using version_builtEntry_ne.symm
    · exact List.nodup_singleton _
  based := based_twoBuildsState

/-- The callback that accepts the first build only. -/
def firstBuild (f : PkgFmri) (_ : Entry) : Bool × Option (List (String × String)) :=
  (f.version == some (built 11), none)

/-- An empty catalog. -/
def emptyState : State := ⟨[], 0, 0, false, none⟩

theorem readFmri_builtEntry (build : ℕ) :
    readFmri "openindiana" "tools" (builtEntry build none).version =
      .ok ⟨some "openindiana", "tools", some (built build)⟩ :=
  readFmri_eq (by decide) _ _

theorem accepts_twoBuilds {build : ℕ}
    (h : builtEntry build none ∈ entriesAt twoBuildsState basePart "openindiana" "tools") :
    accepts twoBuildsState ⟨some firstBuild, none, []⟩ "openindiana" "tools"
    (builtEntry build none).version =
      (some (built build) == some (built 11)) := by
  refine (accepts_of_mem twoBuilds ⟨some firstBuild, none, []⟩ h).trans ?_
  rw [Request.answer, readFmri_builtEntry]
  exact Bool.true_and _

/-- The dependency of the accepted build is lost. -/
theorem not_appends_twoBuilds :
    ¬ Appends twoBuilds.state emptyState ⟨some firstBuild, none, []⟩ := by
  intro h
  have hnone := (of_appends twoBuilds rfl h).2
  have hbase : ∀ build, build = 11 ∨ build = 12 →
      builtEntry build none ∈ entriesAt twoBuildsState basePart "openindiana" "tools" := by
    intro build hbuild
    rw [entriesAt_twoBuildsState, if_pos ⟨rfl, rfl⟩, if_pos rfl]
    rcases hbuild with rfl | rfl <;> simp
  have hdeps : builtEntry 11 (some ["depend".toList]) ∈
      entriesAt twoBuildsState depsPart "openindiana" "tools" := by
    rw [entriesAt_twoBuildsState, if_pos ⟨rfl, rfl⟩, if_neg basePart_ne_depsPart.symm, if_pos rfl]
    exact List.mem_cons_self
  refine hnone depsPart basePart_ne_depsPart.symm _ _ _ hdeps ?_ ?_
  · exact (accepts_twoBuilds (hbase 11 (Or.inl rfl))).trans (by decide)
  · refine ⟨builtEntry 12 none, hbase 12 (Or.inr rfl), ?_, _, _, readFmri_builtEntry 11,
      readFmri_builtEntry 12, ?_⟩
    · exact (accepts_twoBuilds (hbase 12 (Or.inr rfl))).trans (by decide)
    · decide

end Append

end Userland.Pkg.Catalog
