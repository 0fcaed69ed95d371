import Mathlib.Data.List.Sort
import Mathlib.Logic.Function.Basic
import Userland.Library.Program
import Userland.Pkg.Publisher.RepositoryUri

/-!
# Origins of a repository

A `Repository` has a sorted list of origins and may have a system repository, which is one of them.
The methods work on objects that the caller may also have: `update_origin` and the assignment of a
list change objects in place.

`add_origin` checks for duplicates before it changes anything, but an assignment does not compare
the origins with each other, and both an assignment and `set_system_repo` make their changes before
they check for the system repository.

Scope. The objects of the caller are not changed between the calls. Mirrors and other locations are
omitted, and so are the sorting policies other than the only one there is.
-/

set_option autoImplicit false
set_option relaxedAutoImplicit false

namespace Userland.Pkg.Publisher

open Library Library.Program

/-- All objects that there are, the origins of the repository and its system repository. -/
structure World where
  object : ℕ → RepositoryURI
  next : ℕ
  origins : List ℕ
  systemRepo : Option ℕ

/-- A `RepositoryURI` object or a text. -/
inductive Argument
  | object (id : ℕ)
  | text (uri : List Char)
deriving DecidableEq

/-- A method of the repository. -/
abbrev Method := Program World RepositoryError

namespace World

/-- An object is changed in place. -/
def update (w : World) (id : ℕ) (u : RepositoryURI) : World :=
  { w with object := Function.update w.object id u }

/-- A new object. -/
def alloc (w : World) (u : RepositoryURI) : World :=
  { w with object := Function.update w.object w.next u, next := w.next + 1 }

/-- `sort(key=URI_SORT_POLICIES[self.__sort_policy])`. -/
def sorted (w : World) (ids : List ℕ) : List ℕ :=
  ids.insertionSort fun i j ↦ (w.object i).KeyLE (w.object j)

/-- One of the origins has this text. -/
def hasText (w : World) (uri : List Char) : Bool :=
  w.origins.any fun i ↦ (w.object i).uri = uri

/-- The first origin with this text. -/
def findText (w : World) (uri : List Char) : Option ℕ :=
  w.origins.find? fun i ↦ (w.object i).uri = uri

end World

section Methods

variable (urls : Urls) (files : Files)

/-- A new object with what a constructor returns. -/
def newObject (result : Except RepositoryError RepositoryURI) : Method ℕ := do
  let u ← lift result
  let w ← get
  modify fun w ↦ w.alloc u
  pure w.next

/-- The object that an argument stands for, with a new one for a text. -/
def resolve (origin : Argument) (new : List Char → Except RepositoryError RepositoryURI) :
    Method ℕ :=
  match origin with
  | .object id => pure id
  | .text uri => newObject (new uri)

/-- `__add_uri` for the origins, with the check for duplicates. -/
def addUri (id : ℕ) : Method Unit := do
  let w ← get
  if w.hasText (w.object id).uri then throw (.duplicateRepositoryOrigin (w.object id).uri)
  else modify fun w ↦ { w with origins := w.sorted (w.origins ++ [id]) }

/-- `add_origin`. -/
def addOrigin (origin : Argument) (priority : GivenPriority) (sslCert sslKey : Option (List Char)) :
    Method Unit := do
  let id ← resolve origin fun uri ↦ RepositoryURI.new urls files uri priority sslCert sslKey true
  addUri id

/-- The text that origins are compared with. -/
def wantedText (origin : Argument) : Method (List Char) :=
  match origin with
  | .object id => do
    let w ← get
    pure (w.object id).uri
  | .text uri => lift (urlAffixTrailingSlash uri)

/-- The loop of `remove_origin`. -/
def removeText (uri : List Char) : Method Unit := do
  let w ← get
  match w.findText uri with
  | none => throw (.unknownRepositoryOrigin uri)
  | some id =>
    if (w.object id).isSystem then throw (.unsupportedSystemRepositoryOperation "remove_origin".toList)
    else modify fun w ↦ { w with origins := w.origins.erase id }

/-- `remove_origin`. -/
def removeOrigin (origin : Argument) : Method Unit := do
  let uri ← wantedText origin
  removeText uri

/-- An attribute of an object is set. -/
def setAttribute (id : ℕ) (setter : RepositoryURI → Except RepositoryError RepositoryURI) :
    Method Unit := do
  let w ← get
  let u ← lift (setter (w.object id))
  modify fun w ↦ w.update id u

/-- The changes of `update_origin`. -/
def updateTarget (target : ℕ) (given : RepositoryURI) : Method Unit := do
  setAttribute target (RepositoryURI.setPriority (given.priority.map some))
  setAttribute target (RepositoryURI.setSslCert urls files given.sslCert)
  setAttribute target (RepositoryURI.setSslKey urls files given.sslKey)
  modify fun w ↦ { w with origins := w.sorted w.origins }

/-- `update_origin` for an object. -/
def updateWith (id : ℕ) : Method Unit := do
  let w ← get
  match w.findText (w.object id).uri with
  | none => throw (.unknownRepositoryOrigin (w.object id).uri)
  | some target =>
    if (w.object target).isSystem then throw (.unsupportedSystemRepositoryOperation "update_origin".toList)
    else updateTarget urls files target (w.object id)

/-- `update_origin`. -/
def updateOrigin (origin : Argument) (priority : GivenPriority)
    (sslCert sslKey : Option (List Char)) :
    Method Unit := do
  let id ← resolve origin fun uri ↦ RepositoryURI.new urls files uri priority sslCert sslKey true
  updateWith urls files id

/-- The loop of `__replace_uris`. -/
def replaceEach : List Argument → Method (List ℕ)
  | [] => pure []
  | .text uri :: rest => do
    let id ← newObject (RepositoryURI.new urls files uri none none none true)
    let ids ← replaceEach rest
    pure (id :: ids)
  | .object id :: rest => do
    setAttribute id fun u ↦ (urlAffixTrailingSlash u.uri).bind fun uri ↦ u.setUri urls uri
    let ids ← replaceEach rest
    pure (id :: ids)

/-- `__set_origins`. -/
def setOrigins (value : List Argument) : Method Unit := do
  let ids ← replaceEach urls files value
  modify fun w ↦ { w with origins := w.sorted ids }
  let w ← get
  match w.systemRepo with
  | none => pure ()
  | some id => addUri id

/-- `reset_origins`. -/
def resetOrigins : Method Unit :=
  setOrigins urls files []

/-- Both are none, or objects with one text. -/
def sameText (w : World) : Option ℕ → Option ℕ → Bool
  | none, none => true
  | some i, some j => (w.object i).uri = (w.object j).uri
  | _, _ => false

/-- The origins with this text are deleted while the list is gone through, which passes over what
follows each. -/
def deleteWhere (test : ℕ → Bool) : List ℕ → List ℕ
  | [] => []
  | i :: rest =>
    if test i then
      match rest with
      | [] => []
      | passed :: others => passed :: deleteWhere test others
    else i :: deleteWhere test rest

/-- The origins after the old system repository was deleted from them, if there was one. -/
def withoutOld (oldRepo : Option ℕ) (w : World) : List ℕ :=
  match oldRepo with
  | none => w.origins
  | some old => deleteWhere (fun i ↦ (w.object old).uri = (w.object i).uri) w.origins

/-- `__set_system_repo`. -/
def setSystemRepoTo (sruri : Option ℕ) : Method Unit := do
  let w ← get
  if sameText w sruri w.systemRepo then pure ()
  else
    modify fun w ↦ { w with systemRepo := sruri }
    modify fun now ↦ { now with origins := withoutOld w.systemRepo now }
    match sruri with
    | none => pure ()
    | some id => addUri id

/-- `set_system_repo`. An object that is no system repository has no `find`. -/
def setSystemRepo (uri : Argument) (priority : GivenPriority) (socketPath : Option (List Char)) :
    Method Unit :=
  match uri with
  | .object id => do
    let w ← get
    if (w.object id).isSystem then setSystemRepoTo (some id) else throw .attributeError
  | .text uri => do
    if (urls.urlsplit uri).1 = "http".toList then
      let id ← newObject (RepositoryURI.newSystem urls files uri priority socketPath)
      setSystemRepoTo (some id)
    else throw (.unsupportedSystemRepositoryProtocol (urls.urlsplit uri).1)

/-- `clear_system_repo`. -/
def clearSystemRepo : Method Unit :=
  setSystemRepoTo none

/-- `Repository(origins, system_repo)`, for the objects of the caller. -/
def construct (origins : List Argument) (systemRepo : Option ℕ) : Method Unit := do
  setOrigins urls files origins
  setSystemRepoTo systemRepo

end Methods

end Userland.Pkg.Publisher
