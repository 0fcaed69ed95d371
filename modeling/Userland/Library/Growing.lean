import Mathlib.Data.List.Induction
import Mathlib.Data.List.Nodup

/-!
# Lists that grow while they are gone through

A list is gone through from the front, and each element may put further ones at its end. If these
put nothing there in their turn, the end is reached (`grow_of_leaves`); if each element of some kind
puts one of the kind there, it is not (`grow_eq_none`).

In rounds, the list of the round before grows by those of the new elements that its elements add.
What it holds in the end are the heads of the chains of elements, each of which adds the next
(`mem_chains_iff`): an element stands there once for each of its chains (`nodup_chains`).
-/

set_option autoImplicit false
set_option relaxedAutoImplicit false

namespace Userland.Library.Growing

variable {α σ : Type}

/-! ### One round -/

section Grow

variable (step : σ → α → σ × List α)

/-- Goes through the elements to do, while each puts further ones behind the last of them. -/
def grow : (fuel : ℕ) → (done todo : List α) → σ → Option (List α × σ)
  | _, done, [], state => some (done, state)
  | 0, _, _ :: _, _ => none
  | fuel + 1, done, element :: todo, state =>
    grow fuel (done ++ [element]) (todo ++ (step state element).2) (step state element).1

variable {step}

theorem grow_mono {fuel more : ℕ} (hfuel : fuel ≤ more) {done todo : List α} {state : σ}
    {out : List α × σ}
    (h : grow step fuel done todo state = some out) :
    grow step more done todo state = some out := by
  induction fuel generalizing more done todo state with
  | zero =>
    cases todo with
    | nil =>
      rw [grow] at h ⊢
      exact h
    | cons => cases h
  | succ fuel ih =>
    obtain ⟨more, rfl⟩ : ∃ before, more = before + 1 := ⟨more - 1, by omega⟩
    cases todo with
    | nil =>
      rw [grow] at h ⊢
      exact h
    | cons element todo => exact ih (Nat.le_of_succ_le_succ hfuel) h

variable {added : α → List α} (hstep : ∀ state element, (step state element).2 = added element)

include hstep

theorem grow_of_nothing {todo : List α} (h : ∀ element ∈ todo, added element = []) {fuel : ℕ}
    (hfuel : todo.length ≤ fuel) (done : List α) (state : σ) : grow step fuel done todo state =
      some (done ++ todo, todo.foldl (fun state element ↦ (step state element).1) state) := by
  induction todo generalizing fuel done state with
  | nil => rw [grow, List.append_nil, List.foldl_nil]
  | cons element todo ih =>
    obtain ⟨fuel, rfl⟩ : ∃ before, fuel = before + 1 := ⟨fuel - 1, by simp at hfuel; omega⟩
    rw [List.forall_mem_cons] at h
    rw [grow, hstep, h.1, List.append_nil, ih h.2 (by simpa using hfuel)]
    simp

theorem grow_append_of_leaves {todo back : List α}
    (h : ∀ element ∈ todo, ∀ leaf ∈ added element, added leaf = [])
    (hback : ∀ leaf ∈ back, added leaf = [])
    {fuel : ℕ} (hfuel : todo.length + back.length + (todo.flatMap added).length ≤ fuel)
    (done : List α) (state : σ) : grow step fuel done (todo ++ back) state =
      some (done ++ (todo ++ back ++ todo.flatMap added),
        (todo ++ back ++ todo.flatMap added).foldl (fun state element ↦
          (step state element).1) state) := by
  induction todo generalizing back fuel done state with
  | nil =>
    rw [List.nil_append, List.flatMap_nil, List.append_nil]
    exact grow_of_nothing hstep hback (by simpa using hfuel) done state
  | cons element todo ih =>
    obtain ⟨fuel, rfl⟩ : ∃ before, fuel = before + 1 := ⟨fuel - 1, by simp at hfuel; omega⟩
    rw [List.forall_mem_cons] at h
    have hback' : ∀ leaf ∈ back ++ added element, added leaf = [] := by
      intro leaf hleaf
      exact (List.mem_append.mp hleaf).elim (hback leaf) (h.1 leaf)
    have hfuel' : todo.length + (back ++ added element).length +
        (todo.flatMap added).length ≤ fuel := by
      simp only [List.length_cons, List.flatMap_cons, List.length_append] at hfuel ⊢
      omega
    rw [List.cons_append, grow, hstep, List.append_assoc, ih h.2 hback' hfuel']
    simp

/-- If the added elements add nothing, each element is gone through once. -/
theorem grow_of_leaves {todo : List α}
    (h : ∀ element ∈ todo, ∀ leaf ∈ added element, added leaf = [])
    {fuel : ℕ} (hfuel : todo.length + (todo.flatMap added).length ≤ fuel) (done : List α)
    (state : σ) :
    grow step fuel done todo state = some (done ++ (todo ++ todo.flatMap added),
      (todo ++ todo.flatMap added).foldl (fun state element ↦ (step state element).1) state) := by
  have hgrow := grow_append_of_leaves hstep h (fun leaf (hleaf : leaf ∈ []) ↦
    absurd hleaf List.not_mem_nil)
    (by simpa using hfuel) done state
  simpa only [List.append_nil] using hgrow

/-- If each element of some kind adds one of the kind, the end is never reached from one. -/
theorem grow_eq_none {Kind : α → Prop}
    (h : ∀ element, Kind element → ∃ next ∈ added element, Kind next)
    {todo : List α} (htodo : ∃ element ∈ todo, Kind element) (fuel : ℕ) (done : List α)
    (state : σ) :
    grow step fuel done todo state = none := by
  induction fuel generalizing todo done state with
  | zero =>
    obtain ⟨element, helement, -⟩ := htodo
    cases todo with
    | nil => exact absurd helement List.not_mem_nil
    | cons first todo => rw [grow]
  | succ fuel ih =>
    obtain ⟨element, helement, hkind⟩ := htodo
    cases todo with
    | nil => exact absurd helement List.not_mem_nil
    | cons first todo =>
      rw [grow, hstep]
      refine ih ?_ _ _
      rcases List.mem_cons.mp helement with rfl | helement
      · obtain ⟨next, hnext, hkind'⟩ := h element hkind
        exact ⟨next, List.mem_append_right _ hnext, hkind'⟩
      · exact ⟨element, List.mem_append_left _ helement, hkind⟩

end Grow

/-! ### Chains -/

section Chains

variable (rank : α → ℕ) (adds : α → α → Bool)

/-- A chain starts with an element of the first rank that is found, and each of its elements, the
last one being the head, adds the next one, which has a later rank. -/
inductive Chain (found : List α) : List α → Prop
  | first {element : α} : element ∈ found → (∀ other ∈ found, rank element ≤ rank other) →
    Chain found [element]
  | next {element later : α} {chain : List α} : Chain found (element :: chain) → later ∈ found →
    rank element < rank later → adds element later = true → Chain found (later :: element :: chain)

/-- The chains in which a new element comes next. -/
def continued (new : List α) : List α → List (List α)
  | [] => []
  | element :: rest => (new.filter (adds element)).map (· :: element :: rest)

/-- The chains after another round. -/
def extend (chains : List (List α)) (new : List α) : List (List α) :=
  if chains = [] then new.map ([·]) else chains ++ chains.flatMap (continued adds new)

/-- The chains after some rounds of new elements. -/
def chains (rounds : List (List α)) : List (List α) :=
  rounds.foldl (extend adds) []

variable {rank adds} {found new : List α}

theorem Chain.ne_nil {chain : List α} (h : Chain rank adds found chain) : chain ≠ [] := by
  cases h with
  | first => exact List.cons_ne_nil _ _
  | next => exact List.cons_ne_nil _ _

theorem Chain.mem {chain : List α} (h : Chain rank adds found chain) :
    ∀ element ∈ chain, element ∈ found := by
  induction h with
  | first hmem => exact fun element helement ↦ List.mem_singleton.mp helement ▸ hmem
  | next _ hmem _ _ ih => exact List.forall_mem_cons.mpr ⟨hmem, ih⟩

theorem chain_nil_found {chain : List α} : ¬ Chain rank adds [] chain := by
  intro h
  obtain ⟨element, chain, rfl⟩ := List.exists_cons_of_ne_nil h.ne_nil
  exact absurd (h.mem element List.mem_cons_self) List.not_mem_nil

theorem mem_continued {before chain : List α} : chain ∈ continued adds new before ↔
    ∃ element rest later, before = element :: rest ∧ later ∈ new ∧ adds element later = true ∧
      chain = later :: element :: rest := by
  cases before with
  | nil => simp [continued]
  | cons element rest =>
    rw [continued, List.mem_map]
    constructor
    · rintro ⟨later, hlater, rfl⟩
      obtain ⟨hlater, hadds⟩ := List.mem_filter.mp hlater
      exact ⟨element, rest, later, rfl, hlater, hadds, rfl⟩
    · rintro ⟨_, _, later, heq, hlater, hadds, rfl⟩
      obtain ⟨rfl, rfl⟩ := List.cons.inj heq
      exact ⟨later, List.mem_filter.mpr ⟨hlater, hadds⟩, rfl⟩

theorem nodup_continued (h : new.Nodup) (before : List α) : (continued adds new before).Nodup := by
  cases before with
  | nil => exact List.nodup_nil
  | cons element rest => exact (h.filter _).map fun _ _ heq ↦ (List.cons.inj heq).1

/-- With elements of a later rank, the chains are the earlier ones and those that a new element
continues. -/
theorem chain_append_iff (hrank : ∀ element ∈ found, ∀ later ∈ new, rank element < rank later)
    (hnew : ∀ element ∈ new, ∀ other ∈ new, rank element = rank other) (hfound : found ≠ [])
    {chain : List α} : Chain rank adds (found ++ new) chain ↔
      Chain rank adds found chain ∨ ∃ element rest later, Chain rank adds found (element :: rest) ∧
        later ∈ new ∧ adds element later = true ∧ chain = later :: element :: rest := by
  obtain ⟨some', hsome⟩ := List.exists_mem_of_ne_nil found hfound
  have hearlier : ∀ {chain : List α}, Chain rank adds found chain →
      Chain rank adds (found ++ new) chain := by
    intro chain h
    induction h with
    | @first element hmem hfirst =>
      refine Chain.first (List.mem_append_left _ hmem) fun other hother ↦ ?_
      rcases List.mem_append.mp hother with hother | hother
      · exact hfirst other hother
      · exact Nat.le_of_lt (hrank element hmem other hother)
    | next _ hmem hlt hadds ih => exact Chain.next ih (List.mem_append_left _ hmem) hlt hadds
  constructor
  · intro h
    induction h with
    | @first element hmem hfirst =>
      refine Or.inl (Chain.first ?_ fun other hother ↦ hfirst other (List.mem_append_left _ hother))
      refine (List.mem_append.mp hmem).resolve_right fun hnew ↦ ?_
      have hle := hfirst some' (List.mem_append_left _ hsome)
      have hlt := hrank some' hsome element hnew
      omega
    | @next element later chain _ hmem hlt hadds ih =>
      have hfound' : Chain rank adds found (element :: chain) := by
        refine ih.resolve_right ?_
        rintro ⟨element', rest, later', -, hlater', -, heq⟩
        obtain ⟨rfl, -⟩ := List.cons.inj heq
        rcases List.mem_append.mp hmem with hlater | hlater
        · exact absurd (hrank later hlater element hlater') (by omega)
        · exact absurd (hnew element hlater' later hlater) (by omega)
      rcases List.mem_append.mp hmem with hlater | hlater
      · exact Or.inl (Chain.next hfound' hlater hlt hadds)
      · exact Or.inr ⟨element, chain, later, hfound', hlater, hadds, rfl⟩
  · rintro (h | ⟨element, rest, later, hchain, hlater, hadds, rfl⟩)
    · exact hearlier h
    · exact Chain.next (hearlier hchain) (List.mem_append_right _ hlater)
        (hrank element (hchain.mem element List.mem_cons_self) later hlater) hadds

theorem chain_of_single_rank (hnew : ∀ element ∈ new, ∀ other ∈ new, rank element = rank other)
    {chain : List α} : Chain rank adds new chain ↔ ∃ element ∈ new, chain = [element] := by
  constructor
  · rintro (⟨hmem, -⟩ | ⟨hchain, hmem, hlt, -⟩)
    · exact ⟨_, hmem, rfl⟩
    · exact absurd (hnew _ (hchain.mem _ List.mem_cons_self) _ hmem) (Nat.ne_of_lt hlt)
  · rintro ⟨element, hmem, rfl⟩
    exact Chain.first hmem fun other hother ↦ Nat.le_of_eq (hnew element hmem other hother)

variable (rank) in
/-- The rounds have later and later ranks. -/
def Ranked (rounds : List (List α)) : Prop :=
  (∀ new ∈ rounds, ∀ element ∈ new, ∀ other ∈ new, rank element = rank other) ∧
    rounds.Pairwise fun earlier new ↦ ∀ element ∈ earlier, ∀ later ∈ new, rank element < rank later

theorem ranked_append_singleton {rounds : List (List α)} (h : Ranked rank (rounds ++ [new])) :
    Ranked rank rounds ∧ (∀ element ∈ new, ∀ other ∈ new, rank element = rank other) ∧
      ∀ element ∈ rounds.flatten, ∀ later ∈ new, rank element < rank later := by
  obtain ⟨hequal, hpairwise⟩ := h
  obtain ⟨hrounds, -, hlater⟩ := List.pairwise_append.mp hpairwise
  refine ⟨⟨fun earlier hearlier ↦ hequal earlier (List.mem_append_left _ hearlier), hrounds⟩,
    hequal new (List.mem_append_right _ (List.mem_singleton_self new)), fun element helement ↦ ?_⟩
  obtain ⟨earlier, hearlier, helement⟩ := List.mem_flatten.mp helement
  exact hlater earlier hearlier new (List.mem_singleton_self new) element helement

theorem chains_append_singleton (rounds : List (List α)) :
    chains adds (rounds ++ [new]) = extend adds (chains adds rounds) new := by
  rw [chains, List.foldl_append]
  rfl

theorem chains_eq_nil_iff {rounds : List (List α)} :
    chains adds rounds = [] ↔ rounds.flatten = [] := by
  induction rounds using List.reverseRecOn with
  | nil => exact iff_of_true rfl rfl
  | append_singleton rounds new ih =>
    rw [chains_append_singleton, extend, List.flatten_append, List.flatten_singleton,
      List.append_eq_nil_iff, ← ih]
    split_ifs with h
    · rw [List.map_eq_nil_iff, and_iff_right h]
    · rw [List.append_eq_nil_iff]
      exact iff_of_false (fun hnil ↦ h hnil.1) fun hnil ↦ h hnil.1

theorem mem_chains_iff {rounds : List (List α)} (h : Ranked rank rounds) {chain : List α} :
    chain ∈ chains adds rounds ↔ Chain rank adds rounds.flatten chain := by
  induction rounds using List.reverseRecOn generalizing chain with
  | nil => exact iff_of_false List.not_mem_nil chain_nil_found
  | append_singleton rounds new ih =>
    obtain ⟨hrounds, hnew, hrank⟩ := ranked_append_singleton h
    have ih : ∀ chain, chain ∈ chains adds rounds ↔ Chain rank adds rounds.flatten chain :=
      fun _ ↦ ih hrounds
    rw [chains_append_singleton, extend, List.flatten_append, List.flatten_singleton]
    split_ifs with hnil
    · rw [chains_eq_nil_iff.mp hnil, List.nil_append, chain_of_single_rank hnew, List.mem_map]
      exact exists_congr fun element ↦ and_congr_right fun _ ↦ eq_comm
    · rw [chain_append_iff hrank hnew fun h ↦ hnil (chains_eq_nil_iff.mpr h), List.mem_append, ih,
        List.mem_flatMap]
      refine or_congr_right ⟨?_, ?_⟩
      · rintro ⟨before, hbefore, hchain⟩
        obtain ⟨element, rest, later, rfl, hlater, hadds, rfl⟩ := mem_continued.mp hchain
        exact ⟨element, rest, later, (ih _).mp hbefore, hlater, hadds, rfl⟩
      · rintro ⟨element, rest, later, hbefore, hlater, hadds, rfl⟩
        exact ⟨_, (ih _).mpr hbefore, mem_continued.mpr ⟨element, rest, later, rfl, hlater,
          hadds, rfl⟩⟩

theorem nodup_chains {rounds : List (List α)} (h : Ranked rank rounds)
    (hnodup : rounds.flatten.Nodup) :
    (chains adds rounds).Nodup := by
  induction rounds using List.reverseRecOn with
  | nil => exact List.nodup_nil
  | append_singleton rounds new ih =>
    obtain ⟨hrounds, hnew, hrank⟩ := ranked_append_singleton h
    rw [List.flatten_append, List.flatten_singleton, List.nodup_append] at hnodup
    obtain ⟨hnodup, hnodup', hdisjoint⟩ := hnodup
    have ih := ih hrounds hnodup
    rw [chains_append_singleton, extend]
    split_ifs
    · exact hnodup'.map fun _ _ heq ↦ (List.cons.inj heq).1
    · refine List.nodup_append.mpr ⟨ih, ?_, ?_⟩
      · refine List.nodup_flatMap.mpr ⟨fun chain _ ↦ nodup_continued hnodup' chain, ?_⟩
        refine ih.imp fun {chain chain'} hne ↦ ?_
        intro extended hmem hmem'
        obtain ⟨element, rest, later, rfl, -, -, rfl⟩ := mem_continued.mp hmem
        obtain ⟨element', rest', later', rfl, -, -, heq⟩ := mem_continued.mp hmem'
        exact hne (List.cons.inj heq).2
      · intro chain hchain other hother heq
        obtain ⟨before, -, hother⟩ := List.mem_flatMap.mp hother
        obtain ⟨element, rest, later, -, hlater, -, rfl⟩ := mem_continued.mp hother
        have hmem := ((mem_chains_iff hrounds).mp hchain).mem later (heq ▸ List.mem_cons_self)
        exact hdisjoint later hmem later hlater rfl

/-- The list after a round, as the heads of the chains. -/
theorem head_chains_extend (list : List (List α)) (new : List α) :
    (list.flatMap (continued adds new)).filterMap List.head? =
      (list.filterMap List.head?).flatMap fun element ↦ new.filter (adds element) := by
  induction list with
  | nil => rfl
  | cons chain list ih =>
    rw [List.flatMap_cons, List.filterMap_append, ih]
    cases chain with
    | nil => rfl
    | cons element rest =>
      rw [continued, List.filterMap_map, List.filterMap_cons_some (List.head?_cons),
        List.flatMap_cons]
      exact congrArg (· ++ _) (List.filterMap_some)

end Chains

end Userland.Library.Growing
