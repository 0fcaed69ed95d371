import Userland.Library.Separated

/-!
# Paths

`os.path.normpath`, `os.path.dirname`, `os.path.basename` and `os.path.join` on POSIX, over texts as
lists of characters.
-/

set_option autoImplicit false
set_option relaxedAutoImplicit false

namespace Userland.Pkg.Path

/-- One component of the loop of `normpath`: `comps` are the components kept so far, the last one
first. -/
def normComponent (absolute : Bool) (comps : List (List Char)) (comp : List Char) :
    List (List Char) :=
  if comp = [] ∨ comp = ['.'] then comps
  else if comp ≠ ['.', '.'] ∨ (absolute = false ∧ comps = []) ∨ comps.head? = some ['.', '.'] then
    comp :: comps
  else comps.tail

/-- The slashes at the start that `normpath` keeps: two are kept, and three or more count as one. -/
def initialSlashes (path : List Char) : List Char :=
  match path with
  | '/' :: '/' :: '/' :: _ => ['/']
  | '/' :: '/' :: _ => ['/', '/']
  | '/' :: _ => ['/']
  | _ => []

/-- `os.path.normpath(path)`. -/
def normpath (path : List Char) : List Char :=
  let slashes := initialSlashes path
  let comps := (path.splitOn '/').foldl (normComponent (slashes ≠ [])) []
  let text := slashes ++ ['/'].intercalate comps.reverse
  if text = [] then ['.'] else text

/-- `os.path.dirname(path)`: what stands up to the last slash, without the slashes at its end unless
it is nothing but slashes. -/
def dirname (path : List Char) : List Char :=
  let head := path.rdropWhile (· ≠ '/')
  if head.all (· = '/') then head else head.rdropWhile (· = '/')

/-- `os.path.basename(path)`. -/
def basename (path : List Char) : List Char :=
  path.rtakeWhile (· ≠ '/')

/-- `os.path.join(a, b)`. -/
def join (a b : List Char) : List Char :=
  if b.head? = some '/' then b
  else if a = [] ∨ a.getLast? = some '/' then a ++ b
  else a ++ '/' :: b

/-! ### The characters of a path -/

theorem mem_foldl_normComponent {absolute : Bool} {pieces comps : List (List Char)}
    {comp : List Char} (h : comp ∈ pieces.foldl (normComponent absolute) comps) :
    comp ∈ comps ∨ comp ∈ pieces := by
  induction pieces generalizing comps with
  | nil => exact Or.inl h
  | cons piece pieces ih =>
    rcases ih h with hmem | hmem
    · unfold normComponent at hmem
      split_ifs at hmem
      · exact Or.inl hmem
      · exact (List.mem_cons.mp hmem).elim (fun heq ↦ Or.inr (heq ▸ List.mem_cons_self)) Or.inl
      · exact Or.inl (List.mem_of_mem_tail hmem)
    · exact Or.inr (List.mem_cons_of_mem _ hmem)

theorem mem_normpath {path : List Char} {c : Char} (h : c ∈ normpath path) :
    c = '/' ∨ c = '.' ∨ c ∈ path := by
  unfold normpath at h
  dsimp only at h
  split_ifs at h
  · exact Or.inr (Or.inl (List.mem_singleton.mp h))
  · rcases List.mem_append.mp h with hslash | hcomp
    · left
      unfold initialSlashes at hslash
      split at hslash <;> simp at hslash <;> exact hslash
    · rcases Library.mem_intercalate hcomp with hslash | ⟨comp, hcomp, hc⟩
      · exact Or.inl (List.mem_singleton.mp hslash)
      · rcases mem_foldl_normComponent (List.mem_reverse.mp hcomp) with hnil | hpiece
        · cases hnil
        · exact Or.inr (Or.inr ((Library.of_mem_splitOn hpiece).2 hc))

example : normpath "/usr//lib/./../bin/".toList = "/usr/bin".toList := by decide +kernel

example : dirname "usr/lib/libc.so".toList = "usr/lib".toList := by decide +kernel

end Userland.Pkg.Path
