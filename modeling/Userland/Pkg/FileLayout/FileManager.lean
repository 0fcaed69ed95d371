import Userland.Library.Dict
import Userland.Library.Interleaving

/-!
# The file manager

A file manager keeps the file of each hash at one of the paths that its layouts give, and moves it
to the path of the first layout when it meets it elsewhere. `lookup` and `insert` are processes of
atomic steps of the file system, which the steps of other processes may interleave.

Scope: file managers that are not read-only, on one file system without faults or denied
permissions. The path of a layout is never a directory of another one. A directory that is not empty
is not removed, with `EEXIST` as the error.
-/

set_option autoImplicit false
set_option relaxedAutoImplicit false

namespace Userland.Pkg.FileLayout

open Userland.Library

/-! ### The file system -/

/-- A path, from its last component to its first. -/
abbrev Path (Name : Type) := List Name

inductive Errno
  | noent
  | exist
  | isdir
deriving DecidableEq

structure EnvironmentError (Name : Type) where
  errno : Errno
  filename : Path Name

/-- The steps of the file system. -/
inductive Op (Name : Type)
  | pathExists (path : Path Name)
  | isDirectory (path : Path Name)
  | rename (src dst : Path Name)
  | mkdir (path : Path Name)
  | rmdir (path : Path Name)
  | openFile (path : Path Name)

/-- What a step answers. -/
def Response (Content Name : Type) : Op Name → Type
  | .pathExists _ => Bool
  | .isDirectory _ => Bool
  | .rename _ _ => Except (EnvironmentError Name) Unit
  | .mkdir _ => Except (EnvironmentError Name) Unit
  | .rmdir _ => Except (EnvironmentError Name) Unit
  | .openFile _ => Except (EnvironmentError Name) Content

/-- The files with their contents, and the directories. -/
structure Store (Content Name : Type) where
  files : List (Path Name × Content)
  dirs : List (Path Name)

variable {Hash Content Name : Type} [DecidableEq Name]

/-- A file is at the path. -/
def Store.has (store : Store Content Name) (path : Path Name) : Bool :=
  (store.files.lookup path).isSome

/-- Something is in the directory. -/
def Store.occupied (store : Store Content Name) (path : Path Name) : Bool :=
  store.files.any (fun file ↦ file.1.tail == path) ||
    store.dirs.any fun dir ↦ !dir.isEmpty && dir.tail == path

/-- The effect of a step. -/
def run : (op : Op Name) → Store Content Name → Response Content Name op × Store Content Name
  | .pathExists path, store => (store.has path || store.dirs.contains path, store)
  | .isDirectory path, store => (store.dirs.contains path, store)
  | .rename src dst, store =>
    match store.files.lookup src with
    | none => (.error ⟨.noent, src⟩, store)
    | some content =>
      if store.dirs.contains dst then (.error ⟨.isdir, dst⟩, store)
      else if store.dirs.contains dst.tail then
        (.ok (), { store with files := Dict.set (Dict.erase store.files src) dst content })
      else (.error ⟨.noent, dst⟩, store)
  | .mkdir path, store =>
    if store.has path || store.dirs.contains path then (.error ⟨.exist, path⟩, store)
    else if store.dirs.contains path.tail then (.ok (), { store with dirs := path :: store.dirs })
    else (.error ⟨.noent, path⟩, store)
  | .rmdir path, store =>
    if !store.dirs.contains path then (.error ⟨.noent, path⟩, store)
    else if store.occupied path then (.error ⟨.exist, path⟩, store)
    else (.ok (), { store with dirs := store.dirs.filter fun dir ↦ dir != path })
  | .openFile path, store =>
    match store.files.lookup path with
    | none => (.error ⟨.noent, path⟩, store)
    | some content => (.ok content, store)

/-! ### The steps of a process -/

/-- A method of a file manager. -/
abbrev Method (Content Name : Type) :=
  Process (Op Name) (Response Content Name) (EnvironmentError Name)

variable {α : Type}

omit [DecidableEq Name] in
def pathExists (path : Path Name) : Method Content Name Bool :=
  Process.perform (Op.pathExists path)

def isDirectory (path : Path Name) : Method Content Name Bool :=
  Process.perform (Op.isDirectory path)

/-- `portable.rename(src, dst)`. -/
def rename (src dst : Path Name) : Method Content Name Unit := do
  let result : Except (EnvironmentError Name) Unit ← Process.perform (Op.rename src dst)
  Process.attempt result

def mkdir (path : Path Name) : Method Content Name Unit := do
  let result : Except (EnvironmentError Name) Unit ← Process.perform (Op.mkdir path)
  Process.attempt result

def rmdir (path : Path Name) : Method Content Name Unit := do
  let result : Except (EnvironmentError Name) Unit ← Process.perform (Op.rmdir path)
  Process.attempt result

def openFile (path : Path Name) : Method Content Name Content := do
  let result : Except (EnvironmentError Name) Content ← Process.perform (Op.openFile path)
  Process.attempt result

/-- `os.makedirs(path)`. -/
def makedirs : Path Name → Method Content Name Unit
  | [] => mkdir []
  | name :: head => do
    let present ← pathExists head
    if present then pure ()
    else
      tryCatch (makedirs head) fun error ↦
        if error.errno = .exist then pure () else throw error
    mkdir (name :: head)

/-- The loop of `os.removedirs`, which ends at the first directory that is not removed. -/
def removeParents : Path Name → Method Content Name Unit
  | [] => pure ()
  | name :: head => do
    let removed ← tryCatch (do rmdir (name :: head); pure true) fun _ ↦ pure false
    if removed then removeParents head else pure ()

/-- `os.removedirs(path)`. -/
def removedirs (path : Path Name) : Method Content Name Unit := do
  rmdir path
  removeParents path.tail

/-! ### Lookup and insertion -/

/-- The paths that the layouts give, from the first layout. A path is given for one hash, and no
path is a directory of another. -/
structure Layouts (Hash Name : Type) where
  primary : Hash → Path Name
  others : Hash → List (Path Name)
  named : ∀ {hash path}, path ∈ primary hash :: others hash → path ≠ []
  unique : ∀ {hash hash' path}, path ∈ primary hash :: others hash →
    path ∈ primary hash' :: others hash' →
    hash = hash'
  noDirectory : ∀ {hash hash' path path'}, path ∈ primary hash :: others hash →
    path' ∈ primary hash' :: others hash' → path <:+ path' → path = path'

def Layouts.paths (layouts : Layouts Hash Name) (hash : Hash) : List (Path Name) :=
  layouts.primary hash :: layouts.others hash

/-- What a lookup returns: a path, or an open file. -/
inductive Found (Content Name : Type)
  | path (path : Path Name)
  | handle (content : Content)

/-- The first path with a file. -/
def firstExisting : List (Path Name) → Method Content Name (Option (Path Name))
  | [] => pure none
  | path :: rest => do
    let present ← pathExists path
    if present then pure (some path) else firstExisting rest

/-- `__select_path(hashval, check_existence=True)`: the current path, and the one that is desired.
-/
def selectPath (layouts : Layouts Hash Name) (hash : Hash) :
    Method Content Name (Option (Path Name) × Path Name) := do
  let current ← firstExisting (layouts.paths hash)
  pure (current, layouts.primary hash)

/-- Renames, and makes the directory of the new path where it is missing. -/
def moveInto (src dest : Path Name) : Method Content Name Unit :=
  tryCatch (rename src dest) fun error ↦
    if error.errno = .noent then do
      let present ← isDirectory dest.tail
      if present then throw error
      else do
        tryCatch (makedirs dest.tail) fun error ↦
          if error.errno = .exist ∧ error.filename = dest.tail then pure () else throw error
        rename src dest
    else throw error

/-- What is left of a file at `path` after an error. -/
def unlessGone (path : Path Name) : Method Content Name (Option (Path Name)) := do
  let present ← pathExists path
  pure (if present then some path else none)

/-- The move of a lookup to the desired path, and the path to return. -/
def migrate (current dest : Path Name) : Method Content Name (Option (Path Name)) := do
  let moved ← tryCatch (do moveInto current dest; pure true) fun _ ↦ pure false
  if moved then
    tryCatch (do removedirs current.tail; pure (some dest)) fun _ ↦ unlessGone dest
  else unlessGone current

/-- `lookup(hashval, opener)`. -/
def lookup (layouts : Layouts Hash Name) (hash : Hash) (opener : Bool) :
    Method Content Name (Option (Found Content Name)) := do
  let selected ← selectPath layouts hash
  match selected with
  | (none, _) => pure none
  | (some current, dest) =>
    let path ← if dest = current then pure (some current) else migrate current dest
    match path with
    | none => pure none
    | some path =>
      if opener then do
        let content ← openFile path
        pure (some (.handle content))
      else pure (some (.path path))

/-- The removal of the directories of a path, where `insert` forgives what they may hold. -/
def tidyUp (path : Path Name) : Method Content Name Unit :=
  tryCatch (removedirs path.tail) fun error ↦
    if error.errno = .noent ∨ error.errno = .exist then pure () else throw error

/-- `insert(hashval, src_path)`. -/
def insert (layouts : Layouts Hash Name) (hash : Hash) (srcPath : Path Name) :
    Method Content Name (Option (Found Content Name)) := do
  let selected ← selectPath layouts hash
  let dest := selected.2
  match selected.1 with
  | none => moveInto srcPath dest
  | some current =>
    if current ≠ dest then do
      rename srcPath current
      moveInto current dest
    else moveInto srcPath dest
    tidyUp current
  pure (some (.path dest))

end Userland.Pkg.FileLayout
