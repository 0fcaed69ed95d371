import Mathlib.Data.Int.Notation
import Userland.Pkg.Text

/-!
# Locations of repositories

`RepositoryURI` of `pkg/client/publisher.py` has setters that check what they are given before they
take it: `setUri`, `setPriority`, `setSslCert` and `setSslKey` return the changed object or an
error. Locations are compared by their texts, and are sorted by their priorities and texts.

Scope. Splitting a URL and the test of its characters (`urlparse.urlsplit`, `misc.valid_pub_url`),
and the names and existence of files, are parameters.
-/

set_option autoImplicit false
set_option relaxedAutoImplicit false

namespace Userland.Pkg.Publisher

/-- What is raised. -/
inductive RepositoryError
  | badRepositoryURIPriority
  | badRepositoryURI (uri : List Char)
  | unsupportedRepositoryURI (uri : List Char)
  | unsupportedRepositoryURIAttribute (attr scheme : List Char)
  | noSuchCertificate (filename uri : List Char)
  | noSuchKey (filename uri : List Char)
  | duplicateRepositoryOrigin (uri : List Char)
  | unknownRepositoryOrigin (uri : List Char)
  | unsupportedSystemRepositoryOperation (operation : List Char)
  | unsupportedSystemRepositoryProtocol (proto : List Char)
  | indexError
  | attributeError
deriving DecidableEq

/-- The scheme and the network location of a URL, and whether its characters are allowed. -/
structure Urls where
  urlsplit : List Char → List Char × List Char
  validPubUrl : List Char → Bool

/-- The files there are, and the absolute names, which are their own. -/
structure Files where
  abspath : List Char → List Char
  pathExists : List Char → Bool
  abspath_abspath : ∀ filename, abspath (abspath filename) = abspath filename

/-- A `RepositoryURI`, or a `SystemRepositoryURI`, which has no certificate and no key. -/
structure RepositoryURI where
  isSystem : Bool
  priority : Option ℤ
  uri : List Char
  sslCert : Option (List Char)
  sslKey : Option (List Char)
  socketPath : Option (List Char)
  trailingSlash : Bool
deriving DecidableEq

/-- A priority that may be given: none, or what `int` makes of the value, if it takes it. -/
abbrev GivenPriority := Option (Option ℤ)

section Setters

variable (urls : Urls) (files : Files)

/-- `url_affix_trailing_slash`. -/
def urlAffixTrailingSlash (u : List Char) : Except RepositoryError (List Char) :=
  match u.getLast? with
  | none => .error .indexError
  | some last => .ok (if last = '/' then u else u ++ ['/'])

/-- `uri.replace(scheme, other, 1)`. -/
def replaceFirst (scheme other : List Char) : List Char → List Char
  | [] => if scheme.isEmpty then other else []
  | c :: rest =>
    if scheme.isPrefixOf (c :: rest) then other ++ (c :: rest).drop scheme.length
    else c :: replaceFirst scheme other rest

/-- `SUPPORTED_SCHEMES`. -/
def supportedSchemes : List (List Char) := ["file".toList, "http".toList, "https".toList]

/-- `SSL_SCHEMES`. -/
def sslSchemes : List (List Char) := ["https".toList]

namespace RepositoryURI

/-- `scheme`. -/
def scheme (u : RepositoryURI) : List Char :=
  if u.uri.isEmpty then [] else (urls.urlsplit u.uri).1

/-- `__set_priority`. -/
def setPriority (value : GivenPriority) (u : RepositoryURI) :
    Except RepositoryError RepositoryURI :=
  match value with
  | none => .ok { u with priority := none }
  | some none => .error .badRepositoryURIPriority
  | some (some number) => .ok { u with priority := some number }

/-- `__set_uri`. -/
def setUri (uri : List Char) (u : RepositoryURI) : Except RepositoryError RepositoryURI := do
  let scheme := (urls.urlsplit uri).1
  let netloc := (urls.urlsplit uri).2
  if !supportedSchemes.any (Text.lower scheme == ·) then .error (.unsupportedRepositoryURI uri)
  else if ("http".toList.isPrefixOf (Text.lower scheme) && netloc.isEmpty) ||
      !urls.validPubUrl uri then
    .error (.badRepositoryURI uri)
  else if Text.lower scheme = "file".toList ∧ netloc ≠ [] then .error (.badRepositoryURI uri)
  else
    let uri := replaceFirst scheme (Text.lower scheme) uri
    let uri ← if u.trailingSlash then urlAffixTrailingSlash uri else .ok uri
    if sslSchemes.any (Text.lower scheme == ·) then .ok { u with uri := uri }
    else .ok { u with uri := uri, sslCert := none, sslKey := none }

/-- A setter for the name of a file, of which a system repository makes nothing. -/
def setSslFile (attr : List Char) (missing : List Char → List Char → RepositoryError)
    (store : RepositoryURI → Option (List Char) → RepositoryURI) (filename : Option (List Char))
    (u : RepositoryURI) :
    Except RepositoryError RepositoryURI :=
  if u.isSystem then .ok u
  else
    match filename with
    | none => .ok (store u none)
    | some filename =>
      if filename.isEmpty then .ok (store u none)
      else if !sslSchemes.any (u.scheme urls == ·) then
        .error (.unsupportedRepositoryURIAttribute attr (u.scheme urls))
      else if files.pathExists (files.abspath filename) then .ok
        (store u (some (files.abspath filename)))
      else .error (missing (files.abspath filename) u.uri)

/-- `__set_ssl_cert`. -/
def setSslCert : Option (List Char) → RepositoryURI → Except RepositoryError RepositoryURI :=
  setSslFile urls files "ssl_cert".toList .noSuchCertificate fun u filename ↦
    { u with sslCert := filename }

/-- `__set_ssl_key`. -/
def setSslKey : Option (List Char) → RepositoryURI → Except RepositoryError RepositoryURI :=
  setSslFile urls files "ssl_key".toList .noSuchKey fun u filename ↦ { u with sslKey := filename }

/-- The values of the attributes before they are set. -/
def blank (isSystem trailingSlash : Bool) : RepositoryURI :=
  ⟨isSystem, none, [], none, none, none, trailingSlash⟩

/-- `RepositoryURI(uri, priority, ssl_cert, ssl_key, trailing_slash)`. -/
def new (uri : List Char) (priority : GivenPriority) (sslCert sslKey : Option (List Char))
    (trailingSlash : Bool) :
    Except RepositoryError RepositoryURI := do
  let u ← (blank false trailingSlash).setPriority priority
  let u ← u.setUri urls uri
  let u ← u.setSslCert urls files sslCert
  u.setSslKey urls files sslKey

/-- `SystemRepositoryURI(uri, priority, socket_path)`. -/
def newSystem (uri : List Char) (priority : GivenPriority) (socketPath : Option (List Char)) :
    Except RepositoryError RepositoryURI := do
  let u ← (blank true true).setPriority priority
  let u ← u.setUri urls uri
  match socketPath with
  | none => .ok u
  | some filename =>
    .ok { u with socketPath := if filename.isEmpty then none else some (files.abspath filename) }

end RepositoryURI

end Setters

/-! ### The order of locations -/

/-- A priority before another one; no priority is before any number. -/
def priorityLT : Option ℤ → Option ℤ → Prop
  | none, some _ => True
  | some p, some q => p < q
  | _, none => False

instance : DecidableRel priorityLT
  | none, some _ => inferInstanceAs (Decidable True)
  | some p, some q => inferInstanceAs (Decidable (p < q))
  | none, none => inferInstanceAs (Decidable False)
  | some _, none => inferInstanceAs (Decidable False)

namespace RepositoryURI

/-- The order of `(obj.priority, obj.uri)`. -/
def KeyLE (u v : RepositoryURI) : Prop :=
  priorityLT u.priority v.priority ∨ u.priority = v.priority ∧ List.le u.uri v.uri

instance : DecidableRel KeyLE := fun u v ↦
  inferInstanceAs (Decidable (priorityLT u.priority v.priority ∨
    u.priority = v.priority ∧ ¬ List.lt v.uri u.uri))

end RepositoryURI

theorem priorityLT_trichotomy (p q : Option ℤ) : priorityLT p q ∨ p = q ∨ priorityLT q p := by
  match p, q with
  | none, none => exact Or.inr (Or.inl rfl)
  | none, some _ => exact Or.inl trivial
  | some _, none => exact Or.inr (Or.inr trivial)
  | some p, some q =>
    rcases Int.lt_trichotomy p q with h | rfl | h
    · exact Or.inl h
    · exact Or.inr (Or.inl rfl)
    · exact Or.inr (Or.inr h)

theorem priorityLT_trans {p q r : Option ℤ} (h : priorityLT p q) (h' : priorityLT q r) :
    priorityLT p r := by
  match p, q, r with
  | none, some _, some _ => exact trivial
  | some _, some _, some _ => exact Int.lt_trans h h'

namespace RepositoryURI

theorem keyLE_total (u v : RepositoryURI) : KeyLE u v ∨ KeyLE v u := by
  rcases priorityLT_trichotomy u.priority v.priority with h | h | h
  · exact Or.inl (Or.inl h)
  · exact (List.le_total u.uri v.uri).imp (fun hle ↦ Or.inr ⟨h, hle⟩) fun hle ↦ Or.inr ⟨h.symm, hle⟩
  · exact Or.inr (Or.inl h)

theorem keyLE_trans {u v w : RepositoryURI} (h : KeyLE u v) (h' : KeyLE v w) : KeyLE u w := by
  rcases h with h | ⟨heq, hle⟩ <;> rcases h' with h' | ⟨heq', hle'⟩
  · exact Or.inl (priorityLT_trans h h')
  · exact Or.inl (heq' ▸ h)
  · exact Or.inl (heq ▸ h')
  · exact Or.inr ⟨heq.trans heq', List.le_trans hle hle'⟩

end RepositoryURI

end Userland.Pkg.Publisher
