import Mathlib.Data.List.Dedup
import Mathlib.Data.List.Sort
import Userland.Library.Dict
import Userland.Library.Program
import Userland.Pkg.Versions.FmriOrder

/-!
# FMRIs that match patterns

`extract_matching_fmris` of `pkg/catalog.py`. Every FMRI is matched against every pattern in three
stages, the publisher, the name and the version; the patterns that some FMRI got through a stage
with are noted for the stage, and the FMRIs that got through all of them are returned, sorted.

What is returned and what is reported as unmatched is right for every list of FMRIs and patterns
(`extractMatchingFmris_triple`). The order is not: `reverse` sorts by `PkgFmri.__cmp__`, which
compares the publishers first, so the names descend only within a publisher (`extracted_iff`).

Scope. The versions of the FMRIs are plain. `versions`, which is read without patterns only, is left
out.
-/

set_option autoImplicit false
set_option relaxedAutoImplicit false

namespace Userland.Pkg.Catalog.Matching

open Library Flyweight

/-- What the extraction raises. -/
inductive MatchError
  | illegalFmri
  | attributeError
  | isSuccessor
deriving DecidableEq

/-! ### Patterns -/

/-- A pattern, which is a text or an FMRI. -/
inductive Pattern
  | text (pattern : List Char)
  | fmri (pattern : PlainFmri)
deriving DecidableEq

/-- `tuples[pattern]`: the publisher, the name and the version of a pattern. -/
def Pattern.tuple : Pattern → Except MatchError PlainFmri
  | .text pattern =>
    match PlainFmri.read pattern (some "5.11".toList) none with
    | some found => .ok found
    | none => .error .illegalFmri
  | .fmri pattern => .ok pattern

/-- `fmri_match(pkg_name, pattern)`. -/
def fmriMatch (pkgName pattern : List Char) : Bool :=
  ('/' :: pattern).isSuffixOf ('/' :: pkgName)

/-- `is_same_publisher(pub1, pub2)`. -/
def isSamePublisher (pub1 pub2 : Option (List Char)) : Bool :=
  let preferred := "_PRE_".toList
  let first := pub1.getD []
  let second := pub2.getD []
  pub1 == pub2 || preferred ++ first == second || first == preferred ++ second ||
    (preferred.isPrefixOf first && preferred.isPrefixOf second)

/-- The stages of a match. -/
inductive Stage
  | matcher
  | publisher
  | version
deriving DecidableEq

/-- What an extraction is asked for besides its patterns. -/
structure Options where
  matcher : Option (List Char → List Char → Bool)
  constraint : Option ℕ
  reverse : Bool

/-- A pattern without publisher is met by every publisher. -/
def publisherMeets (p tuple : PlainFmri) : Bool :=
  tuple.publisher.getD [] == [] || isSamePublisher tuple.publisher p.publisher

/-- `matcher(cat_name, pat_name)`. -/
def nameMeets (options : Options) (p tuple : PlainFmri) : Bool :=
  options.matcher.getD fmriMatch p.pkgName tuple.pkgName

/-- A pattern without version is met by every version; an FMRI without one has no `is_successor`. -/
def versionMeets (options : Options) (p tuple : PlainFmri) : Except MatchError Bool :=
  match tuple.version, p.version with
  | none, _ => .ok true
  | some _, none => .error .attributeError
  | some wanted, some version => do
    match version.object.isSuccessor wanted.object options.constraint with
    | none => throw .isSuccessor
    | some true => return true
    | some false => return version.object.eq wanted.object

/-! ### The extraction -/

/-- The pattern with its tuple. -/
def withTuple (pattern : Pattern) : Except MatchError (Pattern × PlainFmri) :=
  pattern.tuple.map fun tuple ↦ (pattern, tuple)

/-- What the loops note: the patterns that got through a stage, and how many FMRIs matched a
pattern. -/
structure Tally where
  matched : List (Stage × Pattern)
  counthash : Option (List (Pattern × ℕ))

/-- `matched[stage].add(pattern)`. -/
def Tally.add (tally : Tally) (stage : Stage) (pattern : Pattern) : Tally :=
  { tally with matched := tally.matched.insert (stage, pattern) }

/-- `counthash[pattern] += 1`, if there is a `counthash`. -/
def Tally.count (tally : Tally) (pattern : Pattern) : Tally :=
  ⟨tally.matched, tally.counthash.map fun counts ↦
    Dict.set counts pattern ((counts.lookup pattern).getD 0 + 1)⟩

/-- One turn of the loop of `by_pattern(p)`. -/
def matchPattern (options : Options) (p : PlainFmri) (entry : Pattern × PlainFmri) :
    Program Tally MatchError Bool := do
  if publisherMeets p entry.2 then
    modify (·.add .publisher entry.1)
    if nameMeets options p entry.2 then
      modify (·.add .matcher entry.1)
      let meets ← Program.lift (versionMeets options p entry.2)
      if meets then
        modify fun tally ↦ (tally.add .version entry.1).count entry.1
        return true
      else return false
    else return false
  else return false

/-- `by_pattern(p)`: whether some pattern matches. The loop does not end at a match. -/
def byPattern (options : Options) (tuples : List (Pattern × PlainFmri)) (p : PlainFmri) :
    Program Tally MatchError Bool := do
  let found ← Program.filterEach (matchPattern options p) tuples
  return !found.isEmpty

/-- `unmatched[stage] - matched[stage]`: the patterns that no FMRI got through the stage with. -/
def leftAt (patterns : List Pattern) (matched : List (Stage × Pattern)) (stage : Stage) :
    List Pattern :=
  patterns.dedup.filter fun pattern ↦ (stage, pattern) ∉ matched

/-- `unmatched`, without the stages no pattern is left at. -/
def unmatchedOf (patterns : List Pattern) (matched : List (Stage × Pattern)) :
    Option (List (Stage × List Pattern)) :=
  let stages := [Stage.matcher, .publisher, .version].filter fun stage ↦
    leftAt patterns matched stage ≠ []
  if stages = [] then none else some (stages.map fun stage ↦ (stage, leftAt patterns matched stage))

/-- `order(a, b)`: ascending names, descending versions, ascending publishers. -/
def order (a b : PlainFmri) : Ordering :=
  (FmriObject.textCmp (some a.pkgName) (some b.pkgName)).then <|
    (FmriObject.versionCmp a.object.version b.object.version).swap.then
      (FmriObject.textCmp a.publisher b.publisher)

/-- `ret.sort(cmp=order)`, or `ret.sort(reverse=True)`. -/
def sortFmris (reverse : Bool) (ret : List PlainFmri) : List PlainFmri :=
  if reverse then ret.insertionSort fun a b ↦ a.object.cmp b.object ≠ .lt
  else ret.insertionSort fun a b ↦ order a b ≠ .gt

/-- `extract_matching_fmris(pkgs, patterns, matcher, constraint, counthash, reverse)`. -/
def extractMatchingFmris (pkgs : List PlainFmri) (patterns : List Pattern) (options : Options) :
    Program Tally MatchError (List PlainFmri × Option (List (Stage × List Pattern))) := do
  let tuples ← Program.lift (patterns.mapM withTuple)
  if patterns = [] then return (sortFmris options.reverse pkgs, none)
  else
    let ret ← Program.filterEach (byPattern options tuples) pkgs
    let tally ← get
    return (sortFmris options.reverse ret, unmatchedOf patterns tally.matched)

/-! ### What the loops note -/

/-- The FMRI gets through a stage of the match with a pattern. -/
def passes (options : Options) (p tuple : PlainFmri) : Stage → Bool
  | .publisher => publisherMeets p tuple
  | .matcher => publisherMeets p tuple && nameMeets options p tuple
  | .version => publisherMeets p tuple && nameMeets options p tuple &&
      decide (versionMeets options p tuple = .ok true)

/-- The versions of an FMRI and of a pattern that agree otherwise cannot be compared. -/
def Raises (options : Options) (p tuple : PlainFmri) : Prop :=
  passes options p tuple .matcher = true ∧ ∀ meets, versionMeets options p tuple ≠ .ok meets

/-- The loops have noted what there is to note of some pairs of an FMRI and a pattern. -/
structure Noted (options : Options) (done : List (PlainFmri × Pattern × PlainFmri))
    (tally : Tally) : Prop where
  compared : ∀ pair ∈ done, ¬ Raises options pair.1 pair.2.2
  matched : ∀ stage pattern, (stage, pattern) ∈ tally.matched ↔
    ∃ pair ∈ done, pair.2.1 = pattern ∧ passes options pair.1 pair.2.2 stage = true

variable {options : Options} {p : PlainFmri} {entry : Pattern × PlainFmri}
  {done : List (PlainFmri × Pattern × PlainFmri)}

theorem Noted.step {before after : Tally} (h : Noted options done before)
    (hcompared : ¬ Raises options p entry.2)
    (hmatched : ∀ stage pattern, (stage, pattern) ∈ after.matched ↔
      (stage, pattern) ∈ before.matched ∨ entry.1 = pattern ∧
      passes options p entry.2 stage = true) :
    Noted options (done ++ [(p, entry)]) after where
  compared := by
    intro pair hpair
    rcases List.mem_append.mp hpair with hpair | hpair
    · exact h.compared pair hpair
    · rwa [List.mem_singleton.mp hpair]
  matched := by
    intro stage pattern
    rw [hmatched, h.matched]
    simp only [List.mem_append, List.mem_singleton, or_and_right, exists_or, exists_eq_left]

theorem mem_add {tally : Tally} {stage other : Stage} {pattern found : Pattern} :
    (other, found) ∈ (tally.add stage pattern).matched ↔
      (other, found) ∈ tally.matched ∨ pattern = found ∧ other = stage := by
  rw [Tally.add, List.mem_insert_iff, Prod.mk.injEq]
  tauto

/-- One turn notes the stages the pattern gets through, and raises only if it has to compare a
version that is missing. -/
theorem matchPattern_triple (options : Options) (p : PlainFmri) (entry : Pattern × PlainFmri)
    (done : List (PlainFmri × Pattern × PlainFmri)) :
    Program.Triple (Noted options done) (matchPattern options p entry)
      (fun kept tally ↦ kept = passes options p entry.2 .version ∧
        Noted options (done ++ [(p, entry)]) tally)
      (fun _ _ ↦ Raises options p entry.2) := by
  unfold matchPattern
  split_ifs with hpublisher hname
  · refine Program.Triple.of_start fun start hstart ↦ ?_
    refine Program.Triple.bind (M := fun _ tally ↦ tally = start.add .publisher entry.1)
      (Program.Triple.modify fun _ h ↦ h ▸ rfl) fun _ ↦ ?_
    refine Program.Triple.bind (M := fun _ tally ↦
      tally = (start.add .publisher entry.1).add .matcher entry.1)
      (Program.Triple.modify fun _ h ↦ h ▸ rfl) fun _ ↦ ?_
    have hboth : passes options p entry.2 .matcher = true := by simp [passes, hpublisher, hname]
    refine Program.Triple.bind (M := fun meets tally ↦ versionMeets options p entry.2 = .ok meets ∧
        tally = (start.add .publisher entry.1).add .matcher entry.1)
      (Program.Triple.lift (fun _ _ hmeets h ↦ ⟨hmeets, h⟩) fun error _ hmeets _ ↦
        ⟨hboth, fun meets hok ↦ by rw [hmeets] at hok; cases hok⟩)
      fun meets ↦ Program.Triple.assume fun hmeets ↦ ?_
    have hcompared : ¬ Raises options p entry.2 := fun hraises ↦ hraises.2 meets hmeets
    have hversion : passes options p entry.2 .version = meets := by
      simp [passes, hpublisher, hname, hmeets]
    rw [hversion]
    split_ifs with htrue
    · refine Program.Triple.bind (M := fun _ tally ↦ Noted options (done ++ [(p, entry)]) tally)
        (Program.Triple.modify fun tally htally ↦ hstart.step hcompared fun stage pattern ↦ ?_)
        fun _ ↦ Program.Triple.pure fun tally htally ↦ ⟨htrue.symm, htally⟩
      have hcount : (((((start.add .publisher entry.1).add .matcher entry.1).add .version
        entry.1).count entry.1).matched) =
          (((start.add .publisher entry.1).add .matcher entry.1).add .version
          entry.1).matched := rfl
      rw [htally, hcount, mem_add, mem_add, mem_add]
      cases stage <;> simp_all [passes]
    · refine Program.Triple.pure fun tally htally ↦ ⟨(Bool.eq_false_iff.mpr htrue).symm, ?_⟩
      refine hstart.step hcompared fun stage pattern ↦ ?_
      rw [htally, mem_add, mem_add]
      cases stage <;> simp_all [passes]
  · refine Program.Triple.of_start fun start hstart ↦ ?_
    refine Program.Triple.bind (M := fun _ tally ↦ tally = start.add .publisher entry.1)
      (Program.Triple.modify fun _ h ↦ h ▸ rfl) fun _ ↦ Program.Triple.pure fun tally htally ↦ ?_
    refine ⟨by simp [passes, hname], hstart.step (fun hraises ↦ ?_) fun stage pattern ↦ ?_⟩
    · have hboth := hraises.1
      simp [passes, hname] at hboth
    · rw [htally, mem_add]
      cases stage <;> simp [passes, hname, hpublisher]
  · refine Program.Triple.pure fun tally htally ↦ ⟨by simp [passes, hpublisher], ?_⟩
    refine htally.step (fun hraises ↦ ?_) fun stage pattern ↦ ?_
    · have hboth := hraises.1
      simp [passes, hpublisher] at hboth
    · cases stage <;> simp [passes, hpublisher]

/-- An FMRI is kept if some pattern matches it, and every pattern is tried. -/
theorem byPattern_triple (options : Options) (tuples : List (Pattern × PlainFmri)) (p : PlainFmri)
    (done : List (PlainFmri × Pattern × PlainFmri)) :
    Program.Triple (Noted options done) (byPattern options tuples p)
      (fun kept tally ↦ kept = tuples.any (fun entry ↦ passes options p entry.2 .version) ∧
        Noted options (done ++ tuples.map fun entry ↦ (p, entry)) tally)
      (fun _ _ ↦ ∃ entry ∈ tuples, Raises options p entry.2) := by
  unfold byPattern
  have hloop : Program.Triple (Noted options done)
      (Program.filterEach (matchPattern options p) tuples)
      (fun kept tally ↦ kept = tuples.filter (fun entry ↦ passes options p entry.2 .version) ∧
        Noted options (done ++ tuples.map fun entry ↦ (p, entry)) tally)
      (fun _ _ ↦ ∃ entry ∈ tuples, Raises options p entry.2) := by
    have hstart : Noted options (done ++ [].map fun entry ↦ (p, entry)) = Noted options done := by
      rw [List.map_nil, List.append_nil]
    rw [← hstart]
    refine Program.Triple.filterEach_prefix
      (I := fun before ↦ Noted options (done ++ before.map fun entry ↦ (p, entry))) ?_
    intro before entry after hlist
    rw [List.map_append, List.map_singleton, ← List.append_assoc]
    refine (matchPattern_triple options p entry _).weaken (fun _ h ↦ h) (fun _ _ h ↦ h) fun _ _ h ↦
      ?_
    exact ⟨entry, by rw [hlist]; exact List.mem_append_right _ List.mem_cons_self, h⟩
  refine Program.Triple.bind hloop fun found ↦ Program.Triple.assume fun hfound ↦ ?_
  refine Program.Triple.pure fun tally htally ↦ ⟨?_, htally⟩
  rw [hfound, Bool.eq_iff_iff]
  simp [List.any_eq_true]

/-- The pairs the loops go through. -/
def pairs (pkgs : List PlainFmri) (tuples : List (Pattern × PlainFmri)) :
    List (PlainFmri × Pattern × PlainFmri) :=
  pkgs.flatMap fun p ↦ tuples.map fun entry ↦ (p, entry)

theorem filterEach_byPattern_triple (options : Options) (tuples : List (Pattern × PlainFmri))
    (pkgs : List PlainFmri) :
    Program.Triple (Noted options []) (Program.filterEach (byPattern options tuples) pkgs)
      (fun ret tally ↦
        ret = pkgs.filter (fun p ↦ tuples.any fun entry ↦ passes options p entry.2 .version) ∧
          Noted options (pairs pkgs tuples) tally)
      (fun _ _ ↦ ∃ p ∈ pkgs, ∃ entry ∈ tuples, Raises options p entry.2) := by
  refine Program.Triple.filterEach_prefix (I := fun before ↦ Noted options (pairs before tuples)) ?_
  intro before p after hlist
  have happend : pairs (before ++ [p]) tuples = pairs before tuples ++ tuples.map fun entry ↦
      (p, entry) := by
    rw [pairs, List.flatMap_append, List.flatMap_singleton, pairs]
  rw [happend]
  refine (byPattern_triple options tuples p _).weaken (fun _ h ↦ h) (fun _ _ h ↦ h) fun _ _ h ↦ ?_
  exact ⟨p, by rw [hlist]; exact List.mem_append_right _ List.mem_cons_self, h⟩

/-! ### What is returned -/

/-- A pattern matches the FMRI in publisher, name and version. -/
def Matches (options : Options) (patterns : List Pattern) (p : PlainFmri) : Prop :=
  ∃ pattern ∈ patterns, ∃ tuple, pattern.tuple = .ok tuple ∧ passes options p tuple .version = true

/-- Some FMRI gets through a stage with the pattern. -/
def Passed (options : Options) (pkgs : List PlainFmri) (stage : Stage) (pattern : Pattern) : Prop :=
  ∃ p ∈ pkgs, ∃ tuple, pattern.tuple = .ok tuple ∧ passes options p tuple stage = true

/-- The pattern is listed as unmatched at a stage. -/
def ListedAs (unmatched : Option (List (Stage × List Pattern))) (stage : Stage)
    (pattern : Pattern) : Prop :=
  ∃ listing, unmatched = some listing ∧ ∃ entry ∈ listing, entry.1 = stage ∧ pattern ∈ entry.2

/-- Every stage is listed at most once, with at least one pattern and each pattern once. -/
structure Listing (listing : List (Stage × List Pattern)) : Prop where
  nonempty : listing ≠ []
  stages : (listing.map Prod.fst).Nodup
  patterns : ∀ entry ∈ listing, entry.2 ≠ [] ∧ entry.2.Nodup

/-- What the extraction is to return: the FMRIs that some pattern matches, as often as they occur,
the patterns no FMRI got through a stage with, and the order that is asked for. Without patterns no
filtering is asked for. -/
structure Extracted (options : Options) (pkgs : List PlainFmri) (patterns : List Pattern)
    (out : List PlainFmri × Option (List (Stage × List Pattern))) : Prop where
  counted : ∀ p, Matches options patterns p → out.1.count p = pkgs.count p
  only : patterns ≠ [] → ∀ p ∈ out.1, Matches options patterns p
  unmatched : ∀ stage pattern, ListedAs out.2 stage pattern ↔
    pattern ∈ patterns ∧ ¬ Passed options pkgs stage pattern
  listing : ∀ listing, out.2 = some listing → Listing listing
  descending : options.reverse = true → out.1.Pairwise fun p q ↦ q.nameVersion ≤ p.nameVersion
  ascending : options.reverse = false → out.1.Pairwise fun p q ↦
    p.pkgName < q.pkgName ∨ p.pkgName = q.pkgName ∧ q.versionKey ≤ p.versionKey

/-- Of the FMRIs that are to be returned, one of a later publisher has no earlier name, and with the
same name no earlier version. -/
def DescendsAcross (options : Options) (pkgs : List PlainFmri) (patterns : List Pattern) : Prop :=
  ∀ p ∈ pkgs, ∀ q ∈ pkgs, (patterns = [] ∨ Matches options patterns p) →
    (patterns = [] ∨ Matches options patterns q) → q.publisherKey < p.publisherKey →
      q.nameVersion ≤ p.nameVersion

/-! ### The order -/

theorem cmp_ne_lt_iff {p q : PlainFmri} :
    p.object.cmp q.object ≠ .lt ↔ q.sortKey ≤ p.sortKey := by
  rw [ne_eq, PlainFmri.cmp_lt_iff, not_lt]

/-- What `order` compares. -/
def orderKey (p : PlainFmri) : List Char ×ₗ
    (WithBot ((List (WithTop ℤ) ×ₗ WithBot (List (WithTop ℤ)) ×ₗ WithBot (List Char)) ×ₗ
      List (WithTop ℤ)))ᵒᵈ ×ₗ WithBot (List Char) :=
  toLex (p.pkgName, toLex (OrderDual.toDual p.versionKey, p.publisherKey))

theorem versionCmp_swap_gt_iff {p q : PlainFmri} :
    (FmriObject.versionCmp p.object.version q.object.version).swap = .gt ↔
      OrderDual.toDual q.versionKey < OrderDual.toDual p.versionKey := by
  rw [OrderDual.toDual_lt_toDual, ← PlainFmri.versionCmp_lt_iff]
  cases FmriObject.versionCmp p.object.version q.object.version <;> decide

theorem versionCmp_swap_eq_iff {p q : PlainFmri} :
    (FmriObject.versionCmp p.object.version q.object.version).swap = .eq ↔
      OrderDual.toDual q.versionKey = OrderDual.toDual p.versionKey := by
  rw [OrderDual.toDual_inj, eq_comm (a := q.versionKey), ← PlainFmri.versionCmp_eq_iff]
  cases FmriObject.versionCmp p.object.version q.object.version <;> decide

theorem order_ne_gt_iff {p q : PlainFmri} : order p q ≠ .gt ↔ orderKey p ≤ orderKey q := by
  rw [ne_eq, ← not_lt, not_iff_not]
  simp only [order, orderKey, Ordering.then_eq_gt, Prod.Lex.toLex_lt_toLex,
    PlainFmri.textCmp_gt_iff,
    FmriObject.textCmp_eq_iff, versionCmp_swap_gt_iff, versionCmp_swap_eq_iff, Option.some_inj,
    eq_comm (a := p.pkgName)]
  exact or_congr_left WithBot.coe_lt_coe

theorem perm_sortFmris (reverse : Bool) (ret : List PlainFmri) :
    (sortFmris reverse ret).Perm ret := by
  unfold sortFmris
  split_ifs
  · exact List.perm_insertionSort _ ret
  · exact List.perm_insertionSort _ ret

theorem pairwise_sortFmris_reverse (ret : List PlainFmri) :
    (sortFmris true ret).Pairwise fun p q ↦ q.sortKey ≤ p.sortKey := by
  have htotal : Std.Total fun p q : PlainFmri ↦ p.object.cmp q.object ≠ .lt :=
    ⟨fun p q ↦ by rw [cmp_ne_lt_iff, cmp_ne_lt_iff]; exact le_total _ _⟩
  have htrans : IsTrans PlainFmri fun p q ↦ p.object.cmp q.object ≠ .lt :=
    ⟨fun p q r ↦ by rw [cmp_ne_lt_iff, cmp_ne_lt_iff, cmp_ne_lt_iff]; exact fun h h' ↦ h'.trans h⟩
  exact (List.pairwise_insertionSort (fun p q : PlainFmri ↦ p.object.cmp q.object ≠ .lt) ret).imp
    cmp_ne_lt_iff.mp

theorem pairwise_sortFmris_order (ret : List PlainFmri) :
    (sortFmris false ret).Pairwise fun p q ↦ orderKey p ≤ orderKey q := by
  have htotal : Std.Total fun p q : PlainFmri ↦ order p q ≠ .gt :=
    ⟨fun p q ↦ by rw [order_ne_gt_iff, order_ne_gt_iff]; exact le_total _ _⟩
  have htrans : IsTrans PlainFmri fun p q ↦ order p q ≠ .gt :=
    ⟨fun p q r ↦ by rw [order_ne_gt_iff, order_ne_gt_iff, order_ne_gt_iff]; exact le_trans⟩
  exact (List.pairwise_insertionSort (fun p q : PlainFmri ↦ order p q ≠ .gt) ret).imp
    order_ne_gt_iff.mp

/-- Two elements of a list that is sorted by a key are in the order of their keys. -/
theorem rel_of_pairwise {α κ : Type} [LinearOrder κ] {key : α → κ} {R : α → α → Prop} {l : List α}
    (hsorted : l.Pairwise fun a b ↦ key b ≤ key a) (h : l.Pairwise R) {a b : α} (ha : a ∈ l)
    (hb : b ∈ l) (hlt : key b < key a) : R a b := by
  obtain ⟨i, hi, rfl⟩ := List.mem_iff_getElem.mp ha
  obtain ⟨j, hj, rfl⟩ := List.mem_iff_getElem.mp hb
  rcases lt_trichotomy i j with hij | rfl | hij
  · exact List.pairwise_iff_getElem.mp h i j hi hj hij
  · exact absurd hlt (lt_irrefl _)
  · exact absurd (List.pairwise_iff_getElem.mp hsorted j i hj hi hij) (not_le.mpr hlt)

/-- The list of the FMRIs that are to be returned, sorted by `cmp`, descends in name and version
exactly if these descend across the publishers. -/
theorem pairwise_reverse_iff {ret : List PlainFmri} :
    ((sortFmris true ret).Pairwise fun p q ↦ q.nameVersion ≤ p.nameVersion) ↔
      ∀ p ∈ ret, ∀ q ∈ ret, q.publisherKey < p.publisherKey → q.nameVersion ≤ p.nameVersion := by
  have hmem : ∀ p, p ∈ sortFmris true ret ↔ p ∈ ret := fun p ↦ (perm_sortFmris true ret).mem_iff
  constructor
  · intro h p hp q hq hlt
    refine rel_of_pairwise (pairwise_sortFmris_reverse ret) h ((hmem p).mpr hp) ((hmem q).mpr hq) ?_
    exact Prod.Lex.toLex_lt_toLex.mpr (Or.inl hlt)
  · intro h
    refine (pairwise_sortFmris_reverse ret).imp_of_mem fun {p q} hp hq hle ↦ ?_
    rcases Prod.Lex.toLex_le_toLex.mp hle with hlt | ⟨-, hsame⟩
    · exact h p ((hmem p).mp hp) q ((hmem q).mp hq) hlt
    · exact hsame

theorem pairwise_order (ret : List PlainFmri) :
    (sortFmris false ret).Pairwise fun p q ↦
      p.pkgName < q.pkgName ∨ p.pkgName = q.pkgName ∧ q.versionKey ≤ p.versionKey := by
  refine (pairwise_sortFmris_order ret).imp fun {p q} hle ↦ ?_
  refine (Prod.Lex.toLex_le_toLex.mp hle).imp_right fun hsame ↦ ⟨hsame.1, ?_⟩
  rcases Prod.Lex.toLex_le_toLex.mp hsame.2 with hlt | ⟨heq, -⟩
  · exact (OrderDual.toDual_lt_toDual.mp hlt).le
  · exact (OrderDual.toDual_inj.mp heq).ge

/-! ### The unmatched patterns -/

variable {patterns : List Pattern} {matched : List (Stage × Pattern)} {pattern : Pattern}

theorem mem_leftAt {stage : Stage} :
    pattern ∈ leftAt patterns matched stage ↔ pattern ∈ patterns ∧ (stage, pattern) ∉ matched := by
  rw [leftAt, List.mem_filter, List.mem_dedup, decide_eq_true_eq]

theorem listedAs_unmatchedOf {stage : Stage} :
    ListedAs (unmatchedOf patterns matched) stage pattern ↔
      pattern ∈ patterns ∧ (stage, pattern) ∉ matched := by
  rw [← mem_leftAt]
  constructor
  · rintro ⟨listing, hlisting, entry, hentry, rfl, hpattern⟩
    simp only [unmatchedOf] at hlisting
    split_ifs at hlisting
    rw [← Option.some.inj hlisting] at hentry
    obtain ⟨stage, -, rfl⟩ := List.mem_map.mp hentry
    exact hpattern
  · intro hpattern
    have hstage : stage ∈ [Stage.matcher, .publisher, .version].filter
        fun stage ↦ leftAt patterns matched stage ≠ [] :=
      List.mem_filter.mpr ⟨by cases stage <;> decide, decide_eq_true (List.ne_nil_of_mem hpattern)⟩
    refine ⟨_, if_neg (List.ne_nil_of_mem hstage), _, List.mem_map_of_mem hstage, rfl, hpattern⟩

theorem listing_unmatchedOf
    {listing : List (Stage × List Pattern)} (h : unmatchedOf patterns matched = some listing) :
    Listing listing := by
  simp only [unmatchedOf] at h
  split_ifs at h with hempty
  rw [← Option.some.inj h]
  refine ⟨fun hnil ↦ hempty (List.map_eq_nil_iff.mp hnil), ?_, fun entry hentry ↦ ?_⟩
  · rw [List.map_map]
    have hid : Prod.fst ∘ (fun stage ↦ (stage, leftAt patterns matched stage)) = id := rfl
    rw [hid, List.map_id]
    exact List.Nodup.filter _ (by decide)
  · obtain ⟨stage, hstage, rfl⟩ := List.mem_map.mp hentry
    exact ⟨of_decide_eq_true (List.mem_filter.mp hstage).2, (List.nodup_dedup _).filter _⟩

/-! ### The extraction -/

/-- Every pattern is readable, and every version that has to be compared with a pattern's can be. -/
def Comparable (options : Options) (pkgs : List PlainFmri) (patterns : List Pattern) : Prop :=
  ∀ pattern ∈ patterns, ∃ tuple, pattern.tuple = .ok tuple ∧ ∀ p ∈ pkgs, ¬ Raises options p tuple

theorem withTuple_eq_ok_iff {entry : Pattern × PlainFmri} :
    withTuple pattern = .ok entry ↔ entry.1 = pattern ∧ pattern.tuple = .ok entry.2 := by
  unfold withTuple
  cases pattern.tuple with
  | error error => simp [Except.map]
  | ok tuple => simp [Except.map, Prod.ext_iff, eq_comm]

variable {tuples : List (Pattern × PlainFmri)}

theorem mem_tuples (h : patterns.mapM withTuple = .ok tuples) {entry : Pattern × PlainFmri} :
    entry ∈ tuples ↔ entry.1 ∈ patterns ∧ entry.1.tuple = .ok entry.2 := by
  rw [Program.mem_mapM_ok_iff h]
  simp only [withTuple_eq_ok_iff]
  constructor
  · rintro ⟨pattern, hpattern, rfl, htuple⟩
    exact ⟨hpattern, htuple⟩
  · intro hentry
    exact ⟨entry.1, hentry.1, rfl, hentry.2⟩

theorem exists_tuple (h : patterns.mapM withTuple = .ok tuples) (hpattern : pattern ∈ patterns) :
    ∃ tuple, pattern.tuple = .ok tuple := by
  obtain ⟨entry, hentry⟩ := Program.ok_of_mapM_ok h pattern hpattern
  exact ⟨entry.2, (withTuple_eq_ok_iff.mp hentry).2⟩

theorem any_tuples_iff (h : patterns.mapM withTuple = .ok tuples) {p : PlainFmri} :
    (tuples.any fun entry ↦ passes options p entry.2 .version) = true ↔
    Matches options patterns p := by
  simp only [List.any_eq_true, mem_tuples h]
  constructor
  · rintro ⟨entry, ⟨hpattern, htuple⟩, hpasses⟩
    exact ⟨entry.1, hpattern, entry.2, htuple, hpasses⟩
  · rintro ⟨pattern, hpattern, tuple, htuple, hpasses⟩
    exact ⟨(pattern, tuple), ⟨hpattern, htuple⟩, hpasses⟩

/-- What the loops have noted in the end. -/
theorem mem_matched_iff {pkgs : List PlainFmri}
    {tally : Tally} (h : patterns.mapM withTuple = .ok tuples)
    (hnoted : Noted options (pairs pkgs tuples) tally)
    {stage : Stage} (hpattern : pattern ∈ patterns) :
    (stage, pattern) ∈ tally.matched ↔ Passed options pkgs stage pattern := by
  rw [hnoted.matched]
  simp only [pairs, List.mem_flatMap, List.mem_map]
  constructor
  · rintro ⟨-, ⟨p, hp, entry, hentry, rfl⟩, rfl, hpasses⟩
    exact ⟨p, hp, entry.2, ((mem_tuples h).mp hentry).2, hpasses⟩
  · rintro ⟨p, hp, tuple, htuple, hpasses⟩
    exact ⟨_, ⟨p, hp, (pattern, tuple), (mem_tuples h).mpr ⟨hpattern, htuple⟩, rfl⟩, rfl, hpasses⟩

/-- What an extraction returns before it sorts. -/
structure Found (options : Options) (pkgs : List PlainFmri) (patterns : List Pattern)
    (out : List PlainFmri × Option (List (Stage × List Pattern))) (ret : List PlainFmri) :
    Prop where
  sorted : out.1 = sortFmris options.reverse ret
  counted : ∀ p, Matches options patterns p → ret.count p = pkgs.count p
  mem : ∀ p, p ∈ ret ↔ p ∈ pkgs ∧ (patterns = [] ∨ Matches options patterns p)
  unmatched : ∀ stage pattern, ListedAs out.2 stage pattern ↔
    pattern ∈ patterns ∧ ¬ Passed options pkgs stage pattern
  listing : ∀ listing, out.2 = some listing → Listing listing

/-- What the extraction comes to: it raises if a pattern is not readable or a version cannot be
compared, and otherwise finds the matching FMRIs and the unmatched patterns. -/
theorem extractMatchingFmris_triple (pkgs : List PlainFmri) (patterns : List Pattern)
    (options : Options) (counthash : Option (List (Pattern × ℕ))) :
    Program.Triple (fun tally ↦ tally = ⟨[], counthash⟩)
    (extractMatchingFmris pkgs patterns options)
      (fun out _ ↦ Comparable options pkgs patterns ∧ ∃ ret, Found options pkgs patterns out ret)
      (fun _ _ ↦ ¬ Comparable options pkgs patterns) := by
  unfold extractMatchingFmris
  refine Program.Triple.bind (M := fun tuples tally ↦ patterns.mapM withTuple = .ok tuples ∧
      tally = ⟨[], counthash⟩)
    (Program.Triple.lift (fun _ _ htuples h ↦ ⟨htuples, h⟩) fun error _ herror _ hcomparable ↦ ?_)
    fun tuples ↦ Program.Triple.assume fun htuples ↦ ?_
  · obtain ⟨others, hothers, -⟩ := Program.exists_mapM_ok (f := withTuple) fun pattern hpattern ↦ by
      obtain ⟨tuple, htuple, -⟩ := hcomparable pattern hpattern
      exact ⟨(pattern, tuple), withTuple_eq_ok_iff.mpr ⟨rfl, htuple⟩⟩
    rw [hothers] at herror
    cases herror
  · split_ifs with hempty
    · subst hempty
      refine Program.Triple.pure fun tally _ ↦ ⟨fun pattern hpattern ↦ (nomatch hpattern), pkgs, ?_⟩
      exact ⟨rfl, fun p h ↦ rfl, fun p ↦ by simp, fun stage pattern ↦ by simp [ListedAs],
        fun listing h ↦ (nomatch h)⟩
    · refine Program.Triple.bind ((filterEach_byPattern_triple options tuples pkgs).weaken
        (fun tally h ↦ ?_) (fun _ _ h ↦ h) fun _ _ h hcomparable ↦ ?_)
        fun ret ↦ Program.Triple.assume fun hret ↦ ?_
      · exact ⟨by simp, fun stage pattern ↦ by simp [h]⟩
      · obtain ⟨p, hp, entry, hentry, hraises⟩ := h
        obtain ⟨hpattern, htuple⟩ := (mem_tuples htuples).mp hentry
        obtain ⟨tuple, htuple', hcompared⟩ := hcomparable entry.1 hpattern
        rw [htuple] at htuple'
        exact hcompared p hp (Except.ok.inj htuple' ▸ hraises)
      · refine Program.Triple.bind (M := fun tally _ ↦ Noted options (pairs pkgs tuples) tally)
          (Program.Triple.get fun _ h ↦ h) fun tally ↦ Program.Triple.pure fun _ hnoted ↦
            ⟨?_, ret, ?_⟩
        · intro pattern hpattern
          obtain ⟨tuple, htuple⟩ := exists_tuple htuples hpattern
          refine ⟨tuple, htuple, fun p hp ↦ hnoted.compared (p, pattern, tuple) ?_⟩
          have hentry : (pattern, tuple) ∈ tuples := (mem_tuples htuples).mpr ⟨hpattern, htuple⟩
          exact List.mem_flatMap.mpr ⟨p, hp, List.mem_map.mpr ⟨_, hentry, rfl⟩⟩
        · refine ⟨rfl, fun p hmatches ↦ ?_, fun p ↦ ?_, fun stage pattern ↦ ?_, fun listing h ↦ ?_⟩
          · rw [hret, List.count_filter]
            exact (any_tuples_iff htuples).mpr hmatches
          · rw [hret, List.mem_filter, any_tuples_iff htuples, or_iff_right hempty]
          · rw [listedAs_unmatchedOf]
            exact and_congr_right fun hpattern ↦ not_congr (mem_matched_iff htuples hnoted hpattern)
          · exact listing_unmatchedOf h

theorem Found.extracted_of_descends {pkgs : List PlainFmri}
    {out : List PlainFmri × Option (List (Stage × List Pattern))} {ret : List PlainFmri}
    (h : Found options pkgs patterns out ret) : Extracted options pkgs patterns out ↔
      (options.reverse = true → DescendsAcross options pkgs patterns) := by
  have hdescends : DescendsAcross options pkgs patterns ↔
      ∀ p ∈ ret, ∀ q ∈ ret, q.publisherKey < p.publisherKey → q.nameVersion ≤ p.nameVersion := by
    simp only [h.mem]
    exact ⟨fun hall p hp q hq ↦ hall p hp.1 q hq.1 hp.2 hq.2, fun hall p hp q hq hp' hq' ↦
      hall p ⟨hp, hp'⟩ q ⟨hq, hq'⟩⟩
  constructor
  · intro hextracted hreverse
    have hpairwise := hextracted.descending hreverse
    rw [h.sorted, hreverse] at hpairwise
    exact hdescends.mpr (pairwise_reverse_iff.mp hpairwise)
  · intro hcondition
    refine ⟨fun p hmatches ↦ ?_, fun hne p hp ↦ ?_, h.unmatched, h.listing, fun hreverse ↦ ?_,
      fun hforward ↦ ?_⟩
    · rw [h.sorted, (perm_sortFmris _ ret).count_eq]
      exact h.counted p hmatches
    · rw [h.sorted, (perm_sortFmris _ ret).mem_iff, h.mem] at hp
      exact hp.2.resolve_left hne
    · rw [h.sorted, hreverse]
      exact pairwise_reverse_iff.mpr (hdescends.mp (hcondition hreverse))
    · rw [h.sorted, hforward]
      exact pairwise_order ret

/-- The extraction returns what it is to return exactly if every pattern is readable, no version
that has to be compared is missing, and with `reverse` the FMRIs to be returned descend across the
publishers. -/
theorem extracted_iff (pkgs : List PlainFmri) (patterns : List Pattern) (options : Options)
    (counthash : Option (List (Pattern × ℕ))) :
    (∃ out, (Program.exec (extractMatchingFmris pkgs patterns options) ⟨[], counthash⟩).1 =
      .ok out ∧
        Extracted options pkgs patterns out) ↔
      Comparable options pkgs patterns ∧
        (options.reverse = true → DescendsAcross options pkgs patterns) := by
  have hrun := extractMatchingFmris_triple pkgs patterns options counthash ⟨[], counthash⟩ rfl
  rcases hexec : Program.exec (extractMatchingFmris pkgs patterns options) ⟨[], counthash⟩ with
    ⟨error | out, tally⟩ <;> rw [hexec] at hrun
  · refine iff_of_false ?_ fun h ↦ hrun h.1
    rintro ⟨out, hout, -⟩
    cases hout
  · obtain ⟨hcomparable, ret, hfound⟩ := hrun
    rw [← hfound.extracted_of_descends]
    constructor
    · rintro ⟨other, hother, hextracted⟩
      exact ⟨hcomparable, Except.ok.inj hother ▸ hextracted⟩
    · rintro ⟨-, hextracted⟩
      exact ⟨out, rfl, hextracted⟩

/-- The FMRI `pkg://publisher/name@1,5.11`. -/
def released (publisher name : List Char) : PlainFmri :=
  ⟨some publisher, name, some ⟨⟨.version, .ofNumbers 1 [], .ofNumbers 5 [11], none, none⟩, rfl, rfl,
    rfl, fun _ h ↦ (by cases h), fun _ h ↦ (by cases h)⟩⟩

/-- Two publishers with a package each. -/
def twoPublishers : List PlainFmri :=
  [released ['b'] "x/foo".toList, released ['a'] "y/foo".toList]

/-- A sign in the version of a pattern is read as it is in the constructor. -/
example : Pattern.tuple (.text "foo@+1".toList) =
    .ok { released [] "foo".toList with publisher := none } := by
  decide

/-- Both packages match, and the one of the later publisher comes first although its name is the
earlier one. -/
theorem not_extracted_twoPublishers :
    ¬ ∃ out, (Program.exec (extractMatchingFmris twoPublishers [.text "foo".toList] ⟨none,
      none, true⟩)
        ⟨[], none⟩).1 = .ok out ∧ Extracted ⟨none, none,
          true⟩ twoPublishers [.text "foo".toList] out := by
  have hrun :
      (Program.exec (extractMatchingFmris twoPublishers [.text "foo".toList] ⟨none, none, true⟩)
      ⟨[], none⟩).1 = .ok (twoPublishers, none) := by
    rfl
  rintro ⟨out, hout, hextracted⟩
  rw [hrun] at hout
  have hdescending := hextracted.descending rfl
  rw [← Except.ok.inj hout] at hdescending
  exact absurd hdescending (by decide)

end Userland.Pkg.Catalog.Matching
