import Mathlib.Data.Set.Insert
import Userland.Library.Dict
import Userland.Library.LastIndex
import Userland.Pkg.Search.IndexStore

/-!
# Entities and their ids

`pkg/search_storage.py`: `IndexStoreListDict` numbers entities. A list has the entity of each id and
a dictionary the id of each entity. Ids whose lines were blank in the file are used again.
`get_id_and_add` has a copy of the code of `add_entity`, which does the same
(`getIdAndAdd_of_none`).

A removal leaves `""` in the dictionary, so that the entity is still there (`hasEntity_of_removed`),
and a second read leaves ids free that are in use. In every run without these, the ids are right,
and stay so when the store is written and read back (`consistent_of_reached`).

Scope. A read goes through a file that was opened for it. Ids are not negative. The assertion that
ends `add_entity` and `get_id_and_add` repeats the one they start with, and is left out.
-/

set_option autoImplicit false
set_option relaxedAutoImplicit false

namespace Userland.Pkg.Search

open Library

/-- How entities are written and read (`decode_function`, `build_function`), and the entity `""` of
an id that is not used, which stands for a blank line; `none` is an exception. -/
structure Codec (α : Type) where
  decode : α → Option (List Char)
  build : List Char → Option α
  blank : α
  decode_blank : ∀ text, decode blank = some text → text = []
  build_nil : ∀ entity, build [] = some entity → entity = blank

/-- The functions that `IndexStoreListDict` has by default, for texts. -/
def Codec.text : Codec (List Char) where
  decode := some
  build := some
  blank := []
  decode_blank _ h := (Option.some.inj h).symm
  build_nil _ h := (Option.some.inj h).symm

/-- `IndexStoreListDict`. The dictionary has `""` (`none`) for some entities. -/
structure ListDict (α : Type) where
  list : List α
  dict : List (α × Option ℕ)
  nextId : ℕ
  listOfEmpties : List ℕ
  lineCnt : ℕ

/-- The exceptions of the methods. -/
inductive ListError
  | assertionError
  | indexError
  | keyError
  | typeError
  | codecError
deriving DecidableEq

namespace ListDict

variable {α : Type} [DecidableEq α]

/-- The store that the constructor makes. -/
def empty : ListDict α where
  list := []
  dict := []
  nextId := 0
  listOfEmpties := []
  lineCnt := 0

/-- `add_entity(entity, is_empty)`. -/
def addEntity (self : ListDict α) (entity : α) (isEmpty : Bool) : Except ListError ℕ × ListDict α :=
  if self.list.length ≠ self.nextId then (.error .assertionError, self)
  else
    match self.listOfEmpties, isEmpty with
    | useId :: rest, false =>
      let self := { self with listOfEmpties := rest }
      if self.list.length < useId then (.error .assertionError, self)
      else if useId = self.list.length then
        (.ok useId, { self with
          list := self.list ++ [entity]
          nextId := self.nextId + 1
          dict := Dict.set self.dict entity (some useId) })
      else (.ok useId, { self with
        list := self.list.set useId entity
        dict := Dict.set self.dict entity (some useId) })
    | _, _ =>
      (.ok self.nextId, { self with
        list := self.list ++ [entity]
        nextId := self.nextId + 1
        dict := if isEmpty then self.dict else Dict.set self.dict entity (some self.nextId) })

/-- `remove_id(in_id)`. -/
def removeId (codec : Codec α) (self : ListDict α) (inId : ℕ) : Option ListError × ListDict α :=
  match self.list[inId]? with
  | none => (some .indexError, self)
  | some entity => (none, { self with
      list := self.list.set inId codec.blank
      dict := Dict.set self.dict entity none })

/-- `remove_entity(entity)`. -/
def removeEntity (codec : Codec α) (self : ListDict α) (entity : α) :
    Option ListError × ListDict α :=
  match self.dict.lookup entity with
  | none => (some .keyError, self)
  | some none => (some .typeError, self)
  | some (some inId) =>
    let self := { self with dict := Dict.set self.dict entity none }
    if inId < self.list.length then (none, { self with list := self.list.set inId codec.blank })
    else (some .indexError, self)

/-- `get_id(entity)`: `none` is `KeyError`. -/
def getId (self : ListDict α) (entity : α) : Option (Option ℕ) :=
  self.dict.lookup entity

/-- `get_id_and_add(entity)`. -/
def getIdAndAdd (self : ListDict α) (entity : α) : Except ListError (Option ℕ) × ListDict α :=
  match self.dict.lookup entity with
  | some id => if self.list.length = self.nextId then (.ok id, self)
    else (.error .assertionError, self)
  | none =>
    if self.list.length ≠ self.nextId then (.error .assertionError, self)
    else
      match self.listOfEmpties with
      | useId :: rest =>
        let self := { self with listOfEmpties := rest }
        if self.list.length < useId then (.error .assertionError, self)
        else if useId = self.list.length then
          (.ok (some useId), { self with
            list := self.list ++ [entity]
            nextId := self.nextId + 1
            dict := Dict.set self.dict entity (some useId) })
        else (.ok (some useId), { self with
          list := self.list.set useId entity
          dict := Dict.set self.dict entity (some useId) })
      | [] =>
        (.ok (some self.nextId), { self with
          list := self.list ++ [entity]
          nextId := self.nextId + 1
          dict := Dict.set self.dict entity (some self.nextId) })

/-- `get_entity(in_id)`: `none` is `IndexError`. -/
def getEntity (self : ListDict α) (inId : ℕ) : Option α :=
  self.list[inId]?

/-- `has_entity(entity)`. -/
def hasEntity (self : ListDict α) (entity : α) : Bool :=
  (self.dict.lookup entity).isSome

/-- The texts that are written for a list, up to the first entity that has none. -/
def texts (codec : Codec α) : List α → Option ListError × List (List Char)
  | [] => (none, [])
  | entity :: rest =>
    match codec.decode entity with
    | none => (some .codecError, [])
    | some text => ((texts codec rest).1, text :: (texts codec rest).2)

/-- `write_dict_file(path, version_num)`: the text that the file holds afterwards. -/
def writeDictFile (codec : Codec α) (self : ListDict α) (versionNum : ℤ) :
    Option ListError × List Char :=
  ((texts codec self.list).1, protectedWriteDictFile versionNum (texts codec self.list).2)

/-- The loop over the lines of `read_dict_file`, from line `i` on. -/
def readLines (codec : Codec α) (self : ListDict α) (i : ℕ) :
    List (List Char) → Option ListError × ListDict α
  | [] => (none, self)
  | line :: rest =>
    match codec.build (line.rdropWhile (· = '\n')) with
    | none => (some .codecError, self)
    | some tmp =>
      let self :=
        if line = ['\n'] then { self with listOfEmpties := self.listOfEmpties ++ [i] }
        else { self with dict := Dict.set self.dict tmp (some i) }
      readLines codec { self with list := self.list ++ [tmp], lineCnt := i + 1, nextId := i + 1 }
        (i + 1) rest

/-- `read_dict_file()`, on a file that may be missing. -/
def readDictFile (codec : Codec α) (self : ListDict α) (file : Option (List Char)) :
    Option ListError × ListDict α :=
  match file with
  | none => (some .assertionError, self)
  | some file => readLines codec { self with dict := [], list := [] } 0 (remainingLines file)

/-! ### Sound stores -/

/-- An entity whose text is read back as the entity. -/
def Writable (codec : Codec α) (entity : α) : Prop :=
  ∃ text, codec.decode entity = some text ∧ '\n' ∉ text ∧ codec.build text = some entity

/-- A dictionary has the last place of every entity of a list, and nothing else. -/
def Indexed (blank : α) (dict : List (α × Option ℕ)) (list : List α) : Prop :=
  ∀ entity value, dict.lookup entity = some value ↔
    ∃ id, value = some id ∧ entity ≠ blank ∧ IsLast list entity id

/-- What the list and the dictionary of a store have to do with each other, and with the free ids.
-/
structure Sound (codec : Codec α) (store : ListDict α) : Prop where
  indexed : Indexed codec.blank store.dict store.list
  holes : ∀ id ∈ store.listOfEmpties, id < store.list.length → store.list[id]? = some codec.blank
  nodup : store.listOfEmpties.Nodup
  writable : ∀ entity ∈ store.list, Writable codec entity

section Indexed

variable {blank entity : α} {dict : List (α × Option ℕ)} {list : List α}

theorem Indexed.append (h : Indexed blank dict list) (hne : entity ≠ blank) :
    Indexed blank (Dict.set dict entity (some list.length)) (list ++ [entity]) := by
  intro other value
  by_cases heq : other = entity
  · subst heq
    rw [Dict.lookup_set_self, Option.some_inj]
    constructor
    · rintro rfl
      exact ⟨list.length, rfl, hne, isLast_append_self list other⟩
    · rintro ⟨id, rfl, -, hid⟩
      rw [hid.unique (isLast_append_self list other)]
  · rw [Dict.lookup_set_of_ne _ heq, h other value]
    simp only [isLast_append_of_ne heq]

theorem Indexed.append_blank (h : Indexed blank dict list) :
    Indexed blank dict (list ++ [blank]) := by
  intro other value
  rw [h other value]
  refine exists_congr fun id ↦ and_congr_right fun _ ↦ and_congr_right fun hne ↦ ?_
  exact (isLast_append_of_ne hne).symm

theorem Indexed.set (h : Indexed blank dict list) (hne : entity ≠ blank) {hole : ℕ}
    (hhole : list[hole]? = some blank)
    (hbefore : ∀ id, dict.lookup entity = some (some id) → id < hole) :
    Indexed blank (Dict.set dict entity (some hole)) (list.set hole entity) := by
  intro other value
  by_cases heq : other = entity
  · subst heq
    have hlast : IsLast (list.set hole other) other hole := by
      refine isLast_set_self (List.getElem?_eq_some_iff.mp hhole).1 fun place hplace ↦
        hbefore place ?_
      exact (h other (some place)).mpr ⟨place, rfl, hne, hplace⟩
    rw [Dict.lookup_set_self, Option.some_inj]
    constructor
    · rintro rfl
      exact ⟨hole, rfl, hne, hlast⟩
    · rintro ⟨id, rfl, -, hid⟩
      rw [hid.unique hlast]
  · rw [Dict.lookup_set_of_ne _ heq, h other value]
    refine exists_congr fun id ↦ and_congr_right fun _ ↦ and_congr_right fun hblank ↦ ?_
    exact (isLast_set_of_ne hhole heq hblank).symm

theorem Indexed.isSome_iff (h : Indexed blank dict list) :
    (dict.lookup entity).isSome = true ↔ entity ∈ list ∧ entity ≠ blank := by
  rw [Option.isSome_iff_exists]
  constructor
  · rintro ⟨value, hvalue⟩
    obtain ⟨id, -, hne, hid⟩ := (h entity value).mp hvalue
    exact ⟨hid.mem, hne⟩
  · rintro ⟨hmem, hne⟩
    obtain ⟨id, hid⟩ := exists_isLast hmem
    exact ⟨some id, (h entity (some id)).mpr ⟨id, rfl, hne, hid⟩⟩

end Indexed

/-! ### Additions -/

section Add

variable {codec : Codec α} {store : ListDict α} {entity : α}

/-- The assertions of an addition hold. -/
def CanPlace (store : ListDict α) : Prop :=
  store.list.length = store.nextId ∧ ∀ id, store.listOfEmpties.head? = some id →
    id ≤ store.list.length

/-- An entity that can be added: it has a text, and if it has an id, no free id before it would be
used. -/
structure Placeable (codec : Codec α) (store : ListDict α) (entity : α) : Prop where
  ne_blank : entity ≠ codec.blank
  writable : Writable codec entity
  behind : ∀ id, store.getId entity = some (some id) → ∀ free,
    store.listOfEmpties.head? = some free → id < free

theorem Sound.append (h : Sound codec store) (hne : entity ≠ codec.blank)
    (hwritable : Writable codec entity)
    {free : List ℕ} (hfree : free.Sublist store.listOfEmpties) (hnotMem : store.list.length ∉ free)
    (nextId lineCnt : ℕ) : Sound codec ⟨store.list ++ [entity],
      Dict.set store.dict entity (some store.list.length), nextId, free, lineCnt⟩ where
  indexed := h.indexed.append hne
  holes id hid hlt := by
    rw [List.length_append, List.length_singleton] at hlt
    have hlt : id < store.list.length :=
      lt_of_le_of_ne (Nat.le_of_lt_succ hlt) fun heq ↦ hnotMem (heq ▸ hid)
    rw [List.getElem?_append_left hlt, h.holes id (hfree.subset hid) hlt]
  nodup := h.nodup.sublist hfree
  writable other hother := by
    rcases List.mem_append.mp hother with hother | hother
    · exact h.writable other hother
    · exact List.mem_singleton.mp hother ▸ hwritable

theorem Sound.append_blank (h : Sound codec store) (hwritable : Writable codec codec.blank)
    (nextId lineCnt : ℕ) :
    Sound codec ⟨store.list ++ [codec.blank], store.dict, nextId, store.listOfEmpties,
      lineCnt⟩ where
  indexed := h.indexed.append_blank
  holes id hid hlt := by
    rw [List.length_append, List.length_singleton] at hlt
    rcases Nat.lt_succ_iff_lt_or_eq.mp hlt with hlt | rfl
    · rw [List.getElem?_append_left hlt, h.holes id hid hlt]
    · exact List.getElem?_concat_length
  nodup := h.nodup
  writable other hother := by
    rcases List.mem_append.mp hother with hother | hother
    · exact h.writable other hother
    · exact List.mem_singleton.mp hother ▸ hwritable

theorem Sound.set (h : Sound codec store) {hole : ℕ} {free : List ℕ}
    (hfree : store.listOfEmpties = hole :: free)
    (hlt : hole < store.list.length) (hplaceable : Placeable codec store entity) :
    Sound codec { store with
      list := store.list.set hole entity
      dict := Dict.set store.dict entity (some hole)
      listOfEmpties := free } where
  indexed := h.indexed.set hplaceable.ne_blank (h.holes hole (hfree ▸ List.mem_cons_self) hlt)
    fun id hid ↦ hplaceable.behind id hid hole (by rw [hfree, List.head?_cons])
  holes id hid hidlt := by
    have hnodup := h.nodup
    rw [hfree, List.nodup_cons] at hnodup
    have hne : hole ≠ id := fun heq ↦ hnodup.1 (heq ▸ hid)
    rw [List.length_set] at hidlt
    rw [List.getElem?_set_ne hne, h.holes id (hfree ▸ List.mem_cons_of_mem hole hid) hidlt]
  nodup := by
    have hnodup := h.nodup
    rw [hfree, List.nodup_cons] at hnodup
    exact hnodup.2
  writable other hother := by
    rcases List.mem_or_eq_of_mem_set hother with hother | rfl
    · exact h.writable other hother
    · exact hplaceable.writable

/-- The store after a free id was taken off. -/
theorem Sound.tail (h : Sound codec store) {hole : ℕ} {free : List ℕ}
    (hfree : store.listOfEmpties = hole :: free) :
    Sound codec { store with listOfEmpties := free } where
  indexed := h.indexed
  holes id hid := h.holes id (hfree ▸ List.mem_cons_of_mem hole hid)
  nodup := (List.nodup_cons.mp (hfree ▸ h.nodup)).2
  writable := h.writable

/-- The entities of a store with ids. -/
def Lives (codec : Codec α) (store : ListDict α) (entity : α) : Prop :=
  entity ∈ store.list ∧ entity ≠ codec.blank

omit [DecidableEq α] in
theorem lives_append {store' : ListDict α} (hlist : store'.list = store.list ++ [entity])
    (hne : entity ≠ codec.blank) (other : α) :
    Lives codec store' other ↔ other = entity ∨ Lives codec store other := by
  rw [Lives, hlist, List.mem_append, List.mem_singleton, Lives]
  constructor
  · rintro ⟨hmem | rfl, hother⟩
    · exact Or.inr ⟨hmem, hother⟩
    · exact Or.inl rfl
  · rintro (rfl | ⟨hmem, hother⟩)
    · exact ⟨Or.inr rfl, hne⟩
    · exact ⟨Or.inl hmem, hother⟩

omit [DecidableEq α] in
theorem lives_set {store' : ListDict α} {hole : ℕ}
    (hlist : store'.list = store.list.set hole entity)
    (hhole : store.list[hole]? = some codec.blank) (hne : entity ≠ codec.blank) (other : α) :
    Lives codec store' other ↔ other = entity ∨ Lives codec store other := by
  have hlt := (List.getElem?_eq_some_iff.mp hhole).1
  rw [Lives, hlist, Lives]
  constructor
  · rintro ⟨hmem, hother⟩
    rcases List.mem_or_eq_of_mem_set hmem with hmem | rfl
    · exact Or.inr ⟨hmem, hother⟩
    · exact Or.inl rfl
  · rintro (rfl | ⟨hmem, hother⟩)
    · exact ⟨List.mem_of_getElem? (List.getElem?_set_self hlt), hne⟩
    · refine ⟨?_, hother⟩
      obtain ⟨idx, hidx⟩ := List.mem_iff_getElem?.mp hmem
      have hplace : hole ≠ idx := by
        rintro rfl
        exact hother (Option.some.inj (hidx.symm.trans hhole))
      exact List.mem_of_getElem? (i := idx) (by rw [List.getElem?_set_ne hplace, hidx])

/-- What an addition does to a sound store. -/
theorem addEntity_spec (h : Sound codec store)
    (hplace : CanPlace store → Placeable codec store entity) :
    Sound codec (store.addEntity entity false).2 ∧ ∀ other,
    Lives codec (store.addEntity entity false).2 other ↔
      (store.addEntity entity false).1.isOk = true ∧ other = entity ∨ Lives codec store other := by
  have hraised : ∀ error : ListError, ∀ other, Lives codec store other ↔
      (Except.error error : Except ListError ℕ).isOk = true ∧ other = entity ∨
          Lives codec store other :=
    fun error other ↦ (or_iff_right fun hok ↦ Bool.false_ne_true hok.1).symm
  have hadded : ∀ id : ℕ, ∀ other, (other = entity ∨ Lives codec store other ↔
      (Except.ok id : Except ListError ℕ).isOk = true ∧ other = entity ∨ Lives codec store other) :=
    fun id other ↦ or_congr_left (iff_and_self.mpr fun _ ↦ rfl)
  by_cases hlength : store.list.length = store.nextId
  · cases hfree : store.listOfEmpties with
    | nil =>
      have hplaceable := hplace ⟨hlength, fun id hid ↦ by rw [hfree] at hid; cases hid⟩
      have hadd : store.addEntity entity false = (.ok store.nextId, ⟨store.list ++ [entity],
          Dict.set store.dict entity (some store.list.length), store.nextId + 1, [],
              store.lineCnt⟩) := by
        unfold addEntity
        rw [if_neg (not_not.mpr hlength)]
        simp only [hfree, hlength, Bool.false_eq_true, if_false]
      rw [hadd]
      refine ⟨h.append hplaceable.ne_blank hplaceable.writable
        (List.nil_sublist _) List.not_mem_nil _ _, ?_⟩
      exact fun other ↦ (lives_append rfl hplaceable.ne_blank other).trans (hadded _ other)
    | cons useId rest =>
      rcases Nat.lt_trichotomy useId store.list.length with hlt | heq | hgt
      · have hplaceable := hplace ⟨hlength, fun id hid ↦ by
          rw [hfree, List.head?_cons, Option.some_inj] at hid
          exact hid ▸ hlt.le⟩
        have hadd : store.addEntity entity false = (.ok useId, { store with
            list := store.list.set useId entity
            dict := Dict.set store.dict entity (some useId)
            listOfEmpties := rest }) := by
          unfold addEntity
          rw [if_neg (not_not.mpr hlength)]
          simp only [hfree]
          rw [if_neg (Nat.not_lt.mpr hlt.le), if_neg hlt.ne]
        rw [hadd]
        refine ⟨h.set hfree hlt hplaceable, fun other ↦ ?_⟩
        exact (lives_set rfl (h.holes useId (hfree ▸ List.mem_cons_self) hlt) hplaceable.ne_blank
          other).trans
          (hadded _ other)
      · have hplaceable := hplace ⟨hlength, fun id hid ↦ by
          rw [hfree, List.head?_cons, Option.some_inj] at hid
          exact hid ▸ heq.le⟩
        have hadd : store.addEntity entity false = (.ok useId, ⟨store.list ++ [entity],
            Dict.set store.dict entity (some store.list.length), store.nextId + 1, rest,
                store.lineCnt⟩) := by
          unfold addEntity
          rw [if_neg (not_not.mpr hlength)]
          simp only [hfree]
          rw [if_neg (Nat.not_lt.mpr heq.le), if_pos heq, ← heq]
        have hnodup := h.nodup
        rw [hfree, List.nodup_cons, heq] at hnodup
        rw [hadd]
        refine ⟨h.append hplaceable.ne_blank hplaceable.writable
          (hfree ▸ List.sublist_cons_self useId rest)
          hnodup.1 _ _, ?_⟩
        exact fun other ↦ (lives_append rfl hplaceable.ne_blank other).trans (hadded _ other)
      · have hadd : store.addEntity entity false =
            (.error .assertionError, { store with listOfEmpties := rest }) := by
          unfold addEntity
          rw [if_neg (not_not.mpr hlength)]
          simp only [hfree]
          rw [if_pos hgt]
        rw [hadd]
        exact ⟨h.tail hfree, hraised _⟩
  · have hadd : store.addEntity entity false = (.error .assertionError, store) := by
      unfold addEntity
      rw [if_pos hlength]
    rw [hadd]
    exact ⟨h, hraised _⟩

/-- What the addition of an id that is not used does to a sound store. -/
theorem addEntity_true_spec (h : Sound codec store)
    (hblank : store.list.length = store.nextId → entity = codec.blank ∧
      Writable codec codec.blank) :
    Sound codec (store.addEntity entity true).2 ∧
      ∀ other, Lives codec (store.addEntity entity true).2 other ↔ Lives codec store other := by
  by_cases hlength : store.list.length = store.nextId
  · obtain ⟨rfl, hwritable⟩ := hblank hlength
    have hadd : store.addEntity codec.blank true = (.ok store.nextId,
        ⟨store.list ++ [codec.blank], store.dict,
        store.nextId + 1, store.listOfEmpties, store.lineCnt⟩) := by
      unfold addEntity
      rw [if_neg (not_not.mpr hlength)]
      cases store.listOfEmpties <;> rfl
    rw [hadd]
    refine ⟨h.append_blank hwritable _ _, fun other ↦ ?_⟩
    rw [Lives, Lives, List.mem_append, List.mem_singleton]
    constructor
    · rintro ⟨hmem | rfl, hother⟩
      · exact ⟨hmem, hother⟩
      · exact absurd rfl hother
    · rintro ⟨hmem, hother⟩
      exact ⟨Or.inl hmem, hother⟩
  · have hadd : store.addEntity entity true = (.error .assertionError, store) := by
      unfold addEntity
      rw [if_pos hlength]
    rw [hadd]
    exact ⟨h, fun other ↦ Iff.rfl⟩

/-- The copy of the insertion code in `get_id_and_add` does what `add_entity` does. -/
theorem getIdAndAdd_of_none (hnone : store.getId entity = none) :
    (store.getIdAndAdd entity).2 = (store.addEntity entity false).2 ∧
      (store.getIdAndAdd entity).1.isOk = (store.addEntity entity false).1.isOk := by
  rw [getId] at hnone
  unfold getIdAndAdd addEntity
  simp only [hnone]
  by_cases hlength : store.list.length = store.nextId
  · rw [if_neg (not_not.mpr hlength), if_neg (not_not.mpr hlength)]
    cases store.listOfEmpties with
    | nil => exact ⟨rfl, rfl⟩
    | cons useId rest =>
      dsimp only
      split_ifs <;> exact ⟨rfl, rfl⟩
  · rw [if_pos hlength, if_pos hlength]
    exact ⟨rfl, rfl⟩

theorem getIdAndAdd_of_some {id : Option ℕ} (hsome : store.getId entity = some id) :
    (store.getIdAndAdd entity).2 = store := by
  rw [getId] at hsome
  unfold getIdAndAdd
  simp only [hsome]
  split_ifs <;> rfl

end Add

/-! ### Files -/

section File

variable {codec : Codec α} {store : ListDict α} {entity : α} {entities : List α}

/-- The text that is written for an entity. -/
def written (codec : Codec α) (entity : α) : List Char :=
  (codec.decode entity).getD []

omit [DecidableEq α] in
theorem Writable.spec (h : Writable codec entity) :
    codec.decode entity = some (written codec entity) ∧
    '\n' ∉ written codec entity ∧ codec.build (written codec entity) = some entity := by
  obtain ⟨text, hdecode, hnotMem, hbuild⟩ := h
  rw [written, hdecode]
  exact ⟨rfl, hnotMem, hbuild⟩

omit [DecidableEq α] in
/-- Of the entities that are read back, the blank one has the blank line. -/
theorem Writable.written_eq_nil_iff (h : Writable codec entity) :
    written codec entity = [] ↔ entity = codec.blank := by
  obtain ⟨hdecode, -, hbuild⟩ := h.spec
  constructor
  · intro hnil
    rw [hnil] at hbuild
    exact codec.build_nil entity hbuild
  · rintro rfl
    exact codec.decode_blank _ hdecode

omit [DecidableEq α] in
theorem texts_of_writable (h : ∀ entity ∈ entities, Writable codec entity) :
    texts codec entities = (none, entities.map (written codec)) := by
  induction entities with
  | nil => rfl
  | cons entity rest ih =>
    rw [texts, (h entity List.mem_cons_self).spec.1, ih fun other hother ↦
      h other (List.mem_cons_of_mem _ hother)]
    rfl

omit [DecidableEq α] in
theorem remainingLines_writeDictFile (h : ∀ entity ∈ store.list, Writable codec entity)
    (versionNum : ℤ) :
    remainingLines (store.writeDictFile codec versionNum).2 =
      store.list.map fun entity ↦ written codec entity ++ ['\n'] := by
  rw [writeDictFile, texts_of_writable h, remainingLines_protectedWriteDictFile, List.map_map]
  · rfl
  · intro name hname
    obtain ⟨entity, hentity, rfl⟩ := List.mem_map.mp hname
    exact (h entity hentity).spec.2.1

/-- The ids of blank lines, counted from `i` on. -/
def freeIds (blank : α) (i : ℕ) : List α → List ℕ
  | [] => []
  | entity :: rest => if entity = blank then i :: freeIds blank (i + 1) rest
    else freeIds blank (i + 1) rest

theorem mem_freeIds {blank : α} {i id : ℕ} :
    id ∈ freeIds blank i entities ↔ ∃ place, id = i + place ∧ entities[place]? = some blank := by
  induction entities generalizing i with
  | nil => simp [freeIds]
  | cons entity rest ih =>
    have hrest : (∃ place, id = i + 1 + place ∧ rest[place]? = some blank) ↔
        ∃ place, id = i + (place + 1) ∧ (entity :: rest)[place + 1]? = some blank := by
      refine exists_congr fun place ↦ and_congr ?_ (by rw [List.getElem?_cons_succ])
      rw [Nat.add_assoc, Nat.add_comm 1]
    have hcases : (∃ place, id = i + place ∧ (entity :: rest)[place]? = some blank) ↔
        (id = i ∧ entity = blank) ∨ id ∈ freeIds blank (i + 1) rest := by
      rw [ih, hrest]
      constructor
      · rintro ⟨place, hid, hplace⟩
        cases place with
        | zero => exact Or.inl ⟨hid, Option.some.inj hplace⟩
        | succ place => exact Or.inr ⟨place, hid, hplace⟩
      · rintro (⟨hid, heq⟩ | ⟨place, hid, hplace⟩)
        · exact ⟨0, hid, congrArg some heq⟩
        · exact ⟨place + 1, hid, hplace⟩
    rw [hcases, freeIds]
    split_ifs with heq
    · rw [List.mem_cons, and_iff_left heq]
    · rw [or_iff_right fun h ↦ heq h.2]

theorem nodup_freeIds (blank : α) (i : ℕ) (entities : List α) :
    (freeIds blank i entities).Nodup := by
  induction entities generalizing i with
  | nil => exact List.nodup_nil
  | cons entity rest ih =>
    rw [freeIds]
    split_ifs
    · refine List.nodup_cons.mpr ⟨fun hmem ↦ ?_, ih (i + 1)⟩
      obtain ⟨place, hplace, -⟩ := mem_freeIds.mp hmem
      omega
    · exact ih (i + 1)

/-- The lines of entities are read back as the entities, and the ids of blank lines are free. -/
theorem readLines_spec (h : ∀ entity ∈ entities, Writable codec entity) (self : ListDict α)
    (hindexed : Indexed codec.blank self.dict self.list) :
    ∃ read, self.readLines codec self.list.length (entities.map fun entity ↦
      written codec entity ++ ['\n']) =
        (none, read) ∧ Indexed codec.blank read.dict read.list ∧ read.list = self.list ++ entities ∧
      read.listOfEmpties = self.listOfEmpties ++ freeIds codec.blank self.list.length entities := by
  induction entities generalizing self with
  | nil => exact ⟨self, rfl, hindexed, (List.append_nil _).symm, (List.append_nil _).symm⟩
  | cons entity rest ih =>
    have hwritable := h entity List.mem_cons_self
    have hstrip : (written codec entity ++ ['\n']).rdropWhile (· = '\n') =
        written codec entity := by
      rw [List.rdropWhile_concat_pos _ _ _ (by decide), List.rdropWhile_eq_self_iff]
      intro hne hlast
      rw [decide_eq_true_eq] at hlast
      exact hwritable.spec.2.1 (hlast ▸ List.getLast_mem hne)
    have hblank : written codec entity ++ ['\n'] = ['\n'] ↔ entity = codec.blank := by
      rw [← hwritable.written_eq_nil_iff]
      exact List.append_left_eq_self
    have hlength : (self.list ++ [entity]).length = self.list.length + 1 := by
      rw [List.length_append, List.length_singleton]
    have hrest : ∀ other ∈ rest, Writable codec other := fun other hother ↦
      h other (List.mem_cons_of_mem _ hother)
    rw [List.map_cons, readLines, hstrip, hwritable.spec.2.2]
    simp only [hblank]
    by_cases heq : entity = codec.blank
    · obtain ⟨read, hread, hdict, hlist, hempties⟩ := ih hrest ⟨self.list ++ [entity], self.dict,
        self.list.length + 1, self.listOfEmpties ++ [self.list.length], self.list.length + 1⟩
        (heq ▸ hindexed.append_blank)
      dsimp only at hread hlist hempties
      rw [hlength] at hread hempties
      refine ⟨read, ?_, hdict, ?_, ?_⟩
      · rw [if_pos heq]
        exact hread
      · rw [hlist, List.append_assoc, List.singleton_append]
      · rw [hempties, freeIds, if_pos heq, List.append_assoc, List.singleton_append]
    · obtain ⟨read, hread, hdict, hlist, hempties⟩ := ih hrest ⟨self.list ++ [entity],
        Dict.set self.dict entity (some self.list.length), self.list.length + 1, self.listOfEmpties,
        self.list.length + 1⟩ (hindexed.append heq)
      dsimp only at hread hlist hempties
      rw [hlength] at hread hempties
      refine ⟨read, ?_, hdict, ?_, ?_⟩
      · rw [if_neg heq]
        exact hread
      · rw [hlist, List.append_assoc, List.singleton_append]
      · rw [hempties, freeIds, if_neg heq]

/-- A file that was written for entities is read back as these entities. -/
theorem readDictFile_spec (h : ∀ entity ∈ entities, Writable codec entity) {file : List Char}
    (hfile : remainingLines file = entities.map fun entity ↦ written codec entity ++ ['\n'])
    (store : ListDict α) :
    ∃ read, store.readDictFile codec (some file) = (none, read) ∧
    Indexed codec.blank read.dict read.list ∧
      read.list = entities ∧ read.listOfEmpties = store.listOfEmpties ++
      freeIds codec.blank 0 entities := by
  have hindexed : Indexed codec.blank ([] : List (α × Option ℕ)) [] := by
    intro entity value
    refine iff_of_false (fun hlookup ↦ (nomatch hlookup)) ?_
    rintro ⟨id, -, -, hid⟩
    exact absurd hid.mem List.not_mem_nil
  rw [readDictFile, hfile]
  exact readLines_spec h { store with dict := [], list := [] } hindexed

theorem sound_of_read (h : ∀ entity ∈ entities, Writable codec entity) {read : ListDict α}
    (hindexed : Indexed codec.blank read.dict read.list) (hlist : read.list = entities)
    (hempties : read.listOfEmpties = store.listOfEmpties ++ freeIds codec.blank 0 entities)
    (hnodup : store.listOfEmpties.Nodup)
    (hbeyond : ∀ id ∈ store.listOfEmpties, entities.length ≤ id) :
    Sound codec read where
  indexed := hindexed
  holes id hid hlt := by
    rw [hempties, List.mem_append] at hid
    rw [hlist] at hlt ⊢
    rcases hid with hid | hid
    · exact absurd hlt (Nat.not_lt.mpr (hbeyond id hid))
    · obtain ⟨place, rfl, hplace⟩ := mem_freeIds.mp hid
      rwa [Nat.zero_add]
  nodup := by
    rw [hempties, List.nodup_append]
    refine ⟨hnodup, nodup_freeIds codec.blank 0 entities, fun id hid other hother heq ↦ ?_⟩
    obtain ⟨place, rfl, hplace⟩ := mem_freeIds.mp hother
    have hlt := (List.getElem?_eq_some_iff.mp hplace).1
    have hle := hbeyond id hid
    omega
  writable := hlist ▸ h

end File

/-! ### Runs -/

/-- The operations of a store. -/
inductive Op (α : Type)
  | addEntity (entity : α) (isEmpty : Bool)
  | getIdAndAdd (entity : α)
  | removeId (inId : ℕ)
  | removeEntity (entity : α)
  | writeDictFile (versionNum : ℤ)
  | readDictFile

/-- A store and its file, the entities that were added and not removed since, and those that had
been when the file was written. -/
structure Run (α : Type) where
  store : ListDict α
  file : Option (List Char)
  live : Set α
  saved : Set α

section Run

variable {codec : Codec α}

/-- One operation. An addition or a removal that raises does not count, and a read brings back what
was written. -/
def Run.step (codec : Codec α) (run : Run α) : Op α → Run α
  | .addEntity entity isEmpty =>
    let (result, store) := run.store.addEntity entity isEmpty
    { run with store := store, live := if !isEmpty && result.isOk then insert entity run.live else run.live }
  | .getIdAndAdd entity =>
    let (result, store) := run.store.getIdAndAdd entity
    { run with store := store, live := if result.isOk then insert entity run.live else run.live }
  | .removeId inId =>
    { run with
      store := (run.store.removeId codec inId).2
      live := {entity ∈ run.live | run.store.getEntity inId ≠ some entity} }
  | .removeEntity entity =>
    let (raised, store) := run.store.removeEntity codec entity
    { run with store := store, live := if raised.isNone then run.live \ {entity} else run.live }
  | .writeDictFile versionNum =>
    let (raised, file) := run.store.writeDictFile codec versionNum
    { run with file := some file, saved := if raised.isNone then run.live else run.saved }
  | .readDictFile =>
    let (raised, store) := run.store.readDictFile codec run.file
    { run with store := store, live := if raised.isNone then run.saved else run.live }

/-- A new store, without a file. -/
def Run.start : Run α where
  store := .empty
  file := none
  live := ∅
  saved := ∅

/-- A row of operations on a new store. -/
def Run.steps (codec : Codec α) (ops : List (Op α)) : Run α :=
  ops.foldl (Run.step codec) .start

/-- The store has exactly the live entities, each under an id of its own that leads back to it, and
that is the same after the store is written and read back. -/
structure Consistent (codec : Codec α) (run : Run α) : Prop where
  has_iff : ∀ entity, run.store.hasEntity entity = true ↔ entity ∈ run.live
  entity_id : ∀ entity ∈ run.live, ∃ id, run.store.getId entity = some (some id) ∧
    run.store.getEntity id = some entity
  distinct : ∀ entity ∈ run.live, ∀ other ∈ run.live,
    run.store.getId entity = run.store.getId other → entity = other
  kept : ∀ entity ∈ run.live, ∀ versionNum,
    (run.store.readDictFile codec (some (run.store.writeDictFile codec versionNum).2)).2.getId
      entity =
      run.store.getId entity

/-- An operation that does no harm: nothing is removed, an entity that is added has a text that is
read back, and takes no id before the one that it has, and a file is read only if no free id is the
number of one of its lines. -/
def Meets (codec : Codec α) (run : Run α) : Op α → Prop
  | .addEntity entity false => CanPlace run.store → Placeable codec run.store entity
  | .addEntity entity true =>
    run.store.list.length = run.store.nextId → entity = codec.blank ∧ Writable codec codec.blank
  | .getIdAndAdd entity =>
    run.store.getId entity = none → CanPlace run.store →
      entity ≠ codec.blank ∧ Writable codec entity
  | .removeId inId => run.store.list.length ≤ inId
  | .removeEntity entity => run.store.getId entity = none
  | .writeDictFile _ => True
  | .readDictFile =>
    ∀ file ∈ run.file, ∀ id ∈ run.store.listOfEmpties, (remainingLines file).length ≤ id

/-- The runs of a new store whose operations all do no harm. -/
inductive Reached (codec : Codec α) : Run α → Prop
  | start : Reached codec .start
  | step {run op} (h : Reached codec run) (hmeets : Meets codec run op) :
    Reached codec (run.step codec op)

/-- The store is sound, and has the live entities. The file has those that were saved. -/
structure Tracks (codec : Codec α) (run : Run α) : Prop where
  sound : Sound codec run.store
  live : ∀ entity, entity ∈ run.live ↔ Lives codec run.store entity
  saved : ∀ file ∈ run.file, ∃ entities : List α, (∀ entity ∈ entities, Writable codec entity) ∧
    remainingLines file = (entities.map fun entity ↦ written codec entity ++ ['\n']) ∧
    ∀ entity, entity ∈ run.saved ↔ entity ∈ entities ∧ entity ≠ codec.blank

theorem tracks_start : Tracks codec (.start : Run α) where
  sound := {
    indexed := by
      intro entity value
      refine iff_of_false (fun hlookup ↦ (nomatch hlookup)) ?_
      rintro ⟨id, -, -, hid⟩
      exact absurd hid.mem List.not_mem_nil
    holes := fun id hid ↦ absurd hid List.not_mem_nil
    nodup := List.nodup_nil
    writable := fun entity hentity ↦ absurd hentity List.not_mem_nil }
  live entity := iff_of_false (Set.notMem_empty entity) fun h ↦ List.not_mem_nil h.1
  saved file hfile := nomatch hfile

variable {run : Run α}

theorem Tracks.consistent (h : Tracks codec run) : Consistent codec run where
  has_iff entity := h.sound.indexed.isSome_iff.trans (h.live entity).symm
  entity_id entity hentity := by
    obtain ⟨hmem, hne⟩ := (h.live entity).mp hentity
    obtain ⟨id, hid⟩ := exists_isLast hmem
    exact ⟨id, (h.sound.indexed entity (some id)).mpr ⟨id, rfl, hne, hid⟩, hid.1⟩
  distinct entity hentity other hother heq := by
    obtain ⟨hmem, hne⟩ := (h.live entity).mp hentity
    obtain ⟨id, hid⟩ := exists_isLast hmem
    have hlookup : run.store.getId entity = some (some id) :=
      (h.sound.indexed entity (some id)).mpr ⟨id, rfl, hne, hid⟩
    obtain ⟨id', hid', -, hother'⟩ := (h.sound.indexed other (some id)).mp (heq.symm.trans hlookup)
    obtain rfl := Option.some.inj hid'
    exact Option.some.inj (hid.1.symm.trans hother'.1)
  kept entity _ versionNum := by
    obtain ⟨read, hread, hindexed, hlist, -⟩ := readDictFile_spec h.sound.writable
      (remainingLines_writeDictFile h.sound.writable versionNum) run.store
    rw [hread]
    refine Option.ext fun value ↦ ?_
    rw [getId, getId, hindexed entity value, h.sound.indexed entity value, hlist]

omit [DecidableEq α] in
theorem mem_ite_insert (isOk : Bool) (live : Set α) (entity other : α) :
    other ∈ (if isOk = true then insert entity live else live) ↔
    isOk = true ∧ other = entity ∨ other ∈ live := by
  cases isOk with
  | false => simp
  | true => simp

theorem Tracks.addEntity (h : Tracks codec run) {entity : α} {isEmpty : Bool}
    (hmeets : Meets codec run (.addEntity entity isEmpty)) :
    Tracks codec (run.step codec (.addEntity entity isEmpty)) := by
  cases isEmpty with
  | false =>
    obtain ⟨hsound, hlives⟩ := addEntity_spec h.sound hmeets
    refine ⟨hsound, fun other ↦ ?_, h.saved⟩
    refine (mem_ite_insert (run.store.addEntity entity false).1.isOk run.live entity other).trans ?_
    rw [h.live other]
    exact (hlives other).symm
  | true =>
    obtain ⟨hsound, hlives⟩ := addEntity_true_spec h.sound hmeets
    exact ⟨hsound, fun other ↦ (h.live other).trans (hlives other).symm, h.saved⟩

theorem Tracks.getIdAndAdd (h : Tracks codec run) {entity : α}
    (hmeets : Meets codec run (.getIdAndAdd entity)) :
    Tracks codec (run.step codec (.getIdAndAdd entity)) := by
  have hlive : ∀ other, other ∈ (run.step codec (.getIdAndAdd entity)).live ↔
      (run.store.getIdAndAdd entity).1.isOk = true ∧ other = entity ∨
          Lives codec run.store other := by
    intro other
    rw [← h.live other]
    exact mem_ite_insert (run.store.getIdAndAdd entity).1.isOk run.live entity other
  cases hid : run.store.getId entity with
  | none =>
    have hplace : CanPlace run.store → Placeable codec run.store entity := fun hcan ↦
      ⟨(hmeets hid hcan).1, (hmeets hid hcan).2, fun id hsome ↦ by rw [hid] at hsome; cases hsome⟩
    obtain ⟨hsound, hlives⟩ := addEntity_spec h.sound hplace
    obtain ⟨hstore, hok⟩ := getIdAndAdd_of_none hid
    refine ⟨?_, fun other ↦ ?_, h.saved⟩
    · change Sound codec (run.store.getIdAndAdd entity).2
      rw [hstore]
      exact hsound
    · rw [hlive other, hok]
      change _ ↔ Lives codec (run.store.getIdAndAdd entity).2 other
      rw [hstore, hlives other]
  | some id =>
    have hstore : (run.step codec (.getIdAndAdd entity)).store = run.store :=
      getIdAndAdd_of_some hid
    obtain ⟨id', -, hne, hlast⟩ := (h.sound.indexed entity id).mp hid
    refine ⟨hstore ▸ h.sound, fun other ↦ ?_, h.saved⟩
    rw [hlive other, hstore, or_iff_right_of_imp]
    rintro ⟨-, rfl⟩
    exact ⟨hlast.mem, hne⟩

/-- An id that is not in the list is not removed. -/
theorem Tracks.removeId (h : Tracks codec run) {inId : ℕ}
    (hmeets : Meets codec run (.removeId inId)) :
    Tracks codec (run.step codec (.removeId inId)) := by
  have hnone : run.store.list[inId]? = none := List.getElem?_eq_none hmeets
  have hstore : (run.step codec (.removeId inId)).store = run.store := by
    change (run.store.removeId codec inId).2 = run.store
    unfold ListDict.removeId
    rw [hnone]
  refine ⟨hstore ▸ h.sound, fun other ↦ ?_, h.saved⟩
  rw [hstore, ← h.live other]
  refine and_iff_left ?_
  rw [getEntity, hnone]
  exact fun heq ↦ (nomatch heq)

theorem Tracks.writeDictFile (h : Tracks codec run) (versionNum : ℤ) :
    Tracks codec (run.step codec (.writeDictFile versionNum)) := by
  have hraised : (run.store.writeDictFile codec versionNum).1 = none := by
    rw [ListDict.writeDictFile, texts_of_writable h.sound.writable]
  refine ⟨h.sound, h.live, fun file hfile ↦ ?_⟩
  obtain rfl : (run.store.writeDictFile codec versionNum).2 = file := Option.some.inj hfile
  refine ⟨run.store.list, h.sound.writable,
    remainingLines_writeDictFile h.sound.writable versionNum, ?_⟩
  intro entity
  rw [← Lives, ← h.live entity]
  change entity ∈ (if (run.store.writeDictFile codec versionNum).1.isNone = true then run.live
    else run.saved) ↔ _
  rw [hraised]
  rfl

theorem Tracks.readDictFile (h : Tracks codec run) (hmeets : Meets codec run .readDictFile) :
    Tracks codec (run.step codec .readDictFile) := by
  cases hfile : run.file with
  | none =>
    have hstep : run.step codec .readDictFile = run := by
      obtain ⟨store, file, live, saved⟩ := run
      cases hfile
      rfl
    rw [hstep]
    exact h
  | some file =>
    obtain ⟨entities, hwritable, hlines, hsaved⟩ := h.saved file hfile
    obtain ⟨read, hread, hindexed, hlist, hempties⟩ := readDictFile_spec hwritable hlines run.store
    have hstep : run.step codec .readDictFile = { run with store := read, live := run.saved } := by
      simp only [Run.step, hfile, hread]
      rfl
    have hbeyond : ∀ id ∈ run.store.listOfEmpties, entities.length ≤ id := by
      intro id hid
      have hle := hmeets file hfile id hid
      rwa [hlines, List.length_map] at hle
    rw [hstep]
    refine ⟨sound_of_read hwritable hindexed hlist hempties h.sound.nodup hbeyond,
      fun entity ↦ ?_, h.saved⟩
    rw [Lives, hlist]
    exact hsaved entity

/-- An operation that does no harm keeps the store, the file and the live entities together. -/
theorem Tracks.step (h : Tracks codec run) {op : Op α} (hmeets : Meets codec run op) :
    Tracks codec (run.step codec op) := by
  cases op with
  | addEntity entity isEmpty => exact h.addEntity hmeets
  | getIdAndAdd entity => exact h.getIdAndAdd hmeets
  | removeId inId => exact h.removeId hmeets
  | removeEntity entity =>
    have hremove : run.store.removeEntity codec entity = (some .keyError, run.store) := by
      have hnone : run.store.dict.lookup entity = none := hmeets
      unfold removeEntity
      rw [hnone]
    have hstep : run.step codec (.removeEntity entity) = run := by
      simp only [Run.step, hremove]
      rfl
    rw [hstep]
    exact h
  | writeDictFile versionNum => exact h.writeDictFile versionNum
  | readDictFile => exact h.readDictFile hmeets

/-- In every run whose operations do no harm, the store and its ids are right. -/
theorem consistent_of_reached (h : Reached codec run) : Consistent codec run := by
  refine Tracks.consistent ?_
  induction h with
  | start => exact tracks_start
  | step _ hmeets ih => exact ih.step hmeets

theorem consistent_of_reached_example : Consistent Codec.text
    (.steps .text [.addEntity ['a'] false, .addEntity [] true, .writeDictFile 1,
      .readDictFile]) := by
  have hadd : Meets Codec.text .start (.addEntity ['a'] false) := fun _ ↦
    ⟨by decide, ⟨['a'], rfl, by decide, rfl⟩, fun id hid ↦ (nomatch hid)⟩
  have hblank : Meets Codec.text (.steps .text [.addEntity ['a'] false]) (.addEntity [] true) :=
      fun _ ↦
    ⟨rfl, [], rfl, by decide, rfl⟩
  have hread : Meets Codec.text
      (.steps .text [.addEntity ['a'] false, .addEntity [] true, .writeDictFile 1]) .readDictFile :=
    fun _ _ id hid ↦ absurd hid List.not_mem_nil
  have hwrite : Meets Codec.text (.steps .text [.addEntity ['a'] false, .addEntity [] true])
      (.writeDictFile 1) :=
    trivial
  exact consistent_of_reached ((((Reached.start.step hadd).step hblank).step hwrite).step hread)

/-- An entity that was removed is still there. -/
theorem hasEntity_of_removed :
    (Run.steps Codec.text [.addEntity ['a'] false, .removeEntity ['a']]).store.hasEntity
    ['a'] = true ∧
      ['a'] ∉ (Run.steps Codec.text [.addEntity ['a'] false, .removeEntity ['a']]).live :=
  ⟨rfl, fun h ↦ h.2 rfl⟩

end Run

end ListDict

end Userland.Pkg.Search
