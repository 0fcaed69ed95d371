import Userland.Library.Program
import Userland.Library.Threads
import Mathlib.Data.List.Nodup

/-!
# Compiling a script

`fcomp`, `dechain`, `search`, `alloc_reptr`, `check_finalized` and `sed_compile_string` of
`mod_sed/sed0.c`, as far as they resolve jumps. References to labels that are not defined yet are
threaded through the field `lb1`, which later holds the target. In an accepted script that can be
finalized every jump has its target, but for the references to the end of the script, whose thread
is never resolved (`resolved_iff`).

Scope. An item is what one turn of the loop reads. The reading of items, the addresses and the other
fields of a command are left out; whether an item has an address is given where that is an error.
Commands are numbered in the order in which they are allocated.
-/

set_option autoImplicit false
set_option relaxedAutoImplicit false

namespace Userland.ModSed

open Userland.Library

def SED_LABSIZE : ℕ := 50

def SED_DEPTH : ℕ := 20

/-- The commands that jump, and the others. -/
inductive Command
  | BCOM
  | TCOM
  | CDCOM
  | other
deriving DecidableEq

/-- What is read in one turn. A `b` or a `t` without a label has an empty one. -/
inductive Item
  | blockStart
  | blockEnd (addressed : Bool)
  | label (addressed : Bool) (asc : List UInt8)
  | branch (onSubstitution : Bool) (asc : List UInt8)
  | restart
  | other

/-- An entry of the label table. -/
structure Label where
  asc : List UInt8
  chain : Option ℕ
  address : Option ℕ

/-- The fields of `sed_commands_t` for the jumps. `rep` is the number of the command that has been
allocated last, the first `depth` entries of `cmpend` are those of the list, and `labtab` goes up to
`lab`. -/
structure SedCommands where
  command : List Command
  rep : ℕ
  lb1 : ℕ → Option ℕ
  labtab : List Label
  cmpend : List ℕ
  canbefinal : Bool

/-- An error that is reported, or a write past the end of `cmpend` or a step through a null pointer.
-/
inductive Stop
  | error
  | fault
deriving DecidableEq

/-- `sed_init_commands`. -/
def sedInitCommands : SedCommands := ⟨[], 0, fun _ ↦ none, [⟨[], none, some 0⟩], [], true⟩

namespace SedCommands

/-- A command gets its kind, and `alloc_reptr` allocates the next one. -/
def allocReptr (c : SedCommands) (command : Command) : SedCommands :=
  { c with
    command := c.command ++ [command]
    rep := c.rep + 1
    labtab := c.labtab.modifyHead fun first ↦ { first with address := some (c.rep + 1) } }

def setLb1 (c : SedCommands) (place target : ℕ) : SedCommands :=
  { c with lb1 := Function.update c.lb1 place (some target) }

/-- `search(commands)`, as an index of the label table with the entry there. -/
def search (c : SedCommands) (asc : List UInt8) : Option (ℕ × Label) :=
  (c.labtab.findIdx? fun lab ↦ lab.asc = asc).bind fun lpt ↦ c.labtab[lpt]?.map fun lab ↦ (lpt, lab)

/-- `while ((pt1 = pt->lb1) != NULL) pt = pt1; pt->lb1 = commands->rep;`. -/
def extendChain (c : SedCommands) (pt : ℕ) :
    SedCommands := c.setLb1 (threadEnd c.lb1 c.rep pt) c.rep

/-- `dechain(lpt, address)`. -/
def dechain (c : SedCommands) (lpt address : ℕ) (chain : Option ℕ) : SedCommands :=
  match chain with
  | none => c
  | some rep =>
    { c with
      lb1 := resolve address (c.rep + 1) c.lb1 rep
      labtab := c.labtab.modify lpt fun lab ↦ { lab with chain := none } }

/-- `lpt->address = address;`. -/
def setAddress (c : SedCommands) (lpt address : ℕ) : SedCommands :=
  { c with labtab := c.labtab.modify lpt fun lab ↦ { lab with address := some address } }

/-- A new entry at `lab`, which is an error when the table is full then. -/
def newLabel (c : SedCommands) (lab : Label) : Except Stop SedCommands :=
  if (c.labtab ++ [lab]).length ≥ SED_LABSIZE then .error .error
  else .ok { c with labtab := c.labtab ++ [lab] }

/-- One turn of the loop of `fcomp`. -/
def compileItem (c : SedCommands) : Item → Except Stop SedCommands
  | .blockStart =>
    if c.cmpend.length < SED_DEPTH then .ok
      ({ c with cmpend := c.cmpend ++ [c.rep] }.allocReptr .BCOM)
    else .error .fault
  | .blockEnd addressed =>
    if addressed then .error .error
    else
      match c.cmpend.getLast? with
      | none => .error .error
      | some place => .ok { c.setLb1 place c.rep with cmpend := c.cmpend.dropLast }
  | .label addressed asc =>
    if addressed then .error .error
    else if asc.length ≥ 8 then .error .error
    else
      match c.search asc with
      | none => c.newLabel ⟨asc, none, some c.rep⟩
      | some (lpt, lab) =>
        if lab.address.isSome then .error .error
        else .ok ((c.dechain lpt c.rep lab.chain).setAddress lpt c.rep)
  | .branch onSubstitution asc =>
    let command := if onSubstitution then .TCOM else .BCOM
    if asc = [] then
      match c.labtab.head?.bind Label.chain with
      | some pt => .ok ((c.extendChain pt).allocReptr command)
      | none =>
        .ok ({ c with labtab := c.labtab.modifyHead fun lab ↦ { lab with chain := some c.rep } }.allocReptr command)
    else if asc.length ≥ 8 then .error .error
    else
      match c.search asc with
      | none => (c.newLabel ⟨asc, some c.rep, none⟩).map fun c ↦ c.allocReptr command
      | some (_, lab) =>
        match lab.address with
        | some address => .ok ((c.setLb1 c.rep address).allocReptr command)
        | none =>
          match lab.chain with
          | some pt => .ok ((c.extendChain pt).allocReptr command)
          | none => .error .fault
  | .restart => .ok ((c.setLb1 c.rep 0).allocReptr .CDCOM)
  | .other => .ok (c.allocReptr .other)

/-- `check_finalized`. -/
def checkFinalized (c : SedCommands) : Bool :=
  c.cmpend.isEmpty && c.labtab.tail.all fun lab ↦ lab.address.isSome && lab.chain.isNone

/-- `sed_compile_string`, with the items of the string. -/
def sedCompileString (c : SedCommands) (items : List Item) : Except Stop SedCommands :=
  (items.foldlM compileItem c).map fun c ↦ { c with canbefinal := c.checkFinalized }

end SedCommands

/-! ### What the jumps are to be -/

/-- The command that an item is compiled to. -/
def Item.command : Item → Option Command
  | .blockStart => some .BCOM
  | .blockEnd _ => none
  | .label _ _ => none
  | .branch onSubstitution _ => some (if onSubstitution then .TCOM else .BCOM)
  | .restart => some .CDCOM
  | .other => some .other

/-- The number of the command that comes next after some items. -/
def nextCommand (items : List Item) : ℕ := (items.filterMap Item.command).length

/-- For each item with some property, the number of the command that comes next there, from a number
on. -/
def placesFrom (p : Item → Bool) : ℕ → List Item → List ℕ
  | _, [] => []
  | next, item :: items => (if p item then [next]
    else []) ++ placesFrom p (next + nextCommand [item]) items

/-- For each item with some property, the number of the command that comes next there. -/
def places (p : Item → Bool) (items : List Item) : List ℕ := placesFrom p 0 items

/-- A jump to a label, or to the end of the script when that is empty. -/
def Item.refersTo (asc : List UInt8) : Item → Bool
  | .branch _ asc' => asc' = asc
  | _ => false

def Item.defines (asc : List UInt8) : Item → Bool
  | .label _ asc' => asc' = asc
  | _ => false

def Item.isRestart : Item → Bool
  | .restart => true
  | _ => false

/-- Items in which each block that is started is ended, and none other. -/
inductive Balanced : List Item → Prop
  | nil : Balanced []
  | item {item : Item} {items : List Item} (hstart : item ≠ .blockStart) (hend : ∀ addressed,
      item ≠ .blockEnd addressed)
      (h : Balanced items) : Balanced (item :: items)
  | block {inner items : List Item} (addressed : Bool) (hinner : Balanced inner)
      (h : Balanced items) :
      Balanced (.blockStart :: (inner ++ .blockEnd addressed :: items))

/-- The block that is started behind some items has its end, and its command jumps to the one that
comes next there. -/
def BlockResolved (lb1 : ℕ → Option ℕ) (before after : List Item) : Prop :=
  ∃ inner addressed rest, after = inner ++ .blockEnd addressed :: rest ∧ Balanced inner ∧
    lb1 (nextCommand before) = some (nextCommand (before ++ .blockStart :: inner))

/-- Every jump of a script has its target: the command behind the only definition of its label, the
end of the script without a label, the command behind the end of its block, or the first command. -/
structure Resolved (items : List Item) (c : SedCommands) : Prop where
  command : c.command = items.filterMap Item.command
  labelled : ∀ asc, asc ≠ [] → ∀ place ∈ places (Item.refersTo asc) items,
    ∃ target, places (Item.defines asc) items = [target] ∧ c.lb1 place = some target
  unlabelled : ∀ place ∈ places (Item.refersTo []) items, c.lb1 place = none ∨
    c.lb1 place = some (nextCommand items)
  blocks : ∀ before after, items = before ++ .blockStart :: after → BlockResolved c.lb1 before after
  restart : ∀ place ∈ places Item.isRestart items, c.lb1 place = some 0

/-! ### Places -/

section Places

variable {p q : Item → Bool} {item : Item} {items before after : List Item} {place next : ℕ}

theorem nextCommand_append (items items' : List Item) :
    nextCommand (items ++ items') = nextCommand items + nextCommand items' := by
  rw [nextCommand, List.filterMap_append, List.length_append]
  rfl

theorem placesFrom_append (next : ℕ) (items items' : List Item) :
    placesFrom p next (items ++ items') = placesFrom p next items ++
    placesFrom p (next + nextCommand items) items' := by
  induction items generalizing next with
  | nil => rfl
  | cons item items ih =>
    rw [List.cons_append, placesFrom, placesFrom, ih, List.append_assoc, Nat.add_assoc,
      ← nextCommand_append]
    rfl

theorem places_snoc (items : List Item) (item : Item) :
    places p (items ++ [item]) = places p items ++ if p item then [nextCommand items] else [] := by
  rw [places, placesFrom_append, Nat.zero_add, placesFrom, placesFrom, List.append_nil]
  rfl

theorem nextCommand_singleton (h : item.command ≠ none) : nextCommand [item] = 1 := by
  obtain ⟨command, hcommand⟩ := Option.ne_none_iff_exists'.mp h
  rw [nextCommand, List.filterMap_cons_some hcommand]
  rfl

theorem nextCommand_snoc (h : item.command ≠ none) :
    nextCommand (items ++ [item]) = nextCommand items + 1 := by
  rw [nextCommand_append, nextCommand_singleton h]

/-- The items that are compiled to commands. -/
def compiled (items : List Item) : List Item := items.filter fun item ↦ item.command.isSome

theorem length_compiled (items : List Item) : (compiled items).length = nextCommand items := by
  rw [nextCommand, compiled, List.length_filterMap_eq_countP, List.countP_eq_length_filter]

theorem compiled_cons_of_ne_none (h : item.command ≠ none) :
    compiled (item :: items) = item :: compiled items :=
  List.filter_cons_of_pos (Option.isSome_iff_ne_none.mpr h)

theorem mem_placesFrom (hp : ∀ item, p item = true → item.command ≠ none)
    (h : place ∈ placesFrom p next items) :
    ∃ k item, place = next + k ∧ (compiled items)[k]? = some item ∧ p item = true := by
  induction items generalizing next with
  | nil => exact absurd h List.not_mem_nil
  | cons item items ih =>
    rw [placesFrom, List.mem_append] at h
    obtain hhead | hrest := h
    · rw [List.mem_ite_nil_right] at hhead
      refine ⟨0, item, List.mem_singleton.mp hhead.2, ?_, hhead.1⟩
      rw [compiled_cons_of_ne_none (hp item hhead.1)]
      rfl
    · obtain ⟨k, item', hplace, hget, hitem'⟩ := ih hrest
      cases hcommand : item.command with
      | none =>
        refine ⟨k, item', ?_, ?_, hitem'⟩
        · rw [hplace, nextCommand, List.filterMap_cons_none hcommand]
          rfl
        · rw [compiled, List.filter_cons_of_neg (by rw [hcommand]; exact Bool.false_ne_true)]
          exact hget
      | some command =>
        refine ⟨k + 1, item', ?_, ?_, hitem'⟩
        · rw [hplace, nextCommand_singleton (by rw [hcommand]; exact Option.some_ne_none _)]
          omega
        · rw [compiled_cons_of_ne_none (by rw [hcommand]; exact Option.some_ne_none _)]
          exact hget

/-- A place of items that are compiled to commands is the number of such a command. -/
theorem getElem?_of_mem_places (hp : ∀ item, p item = true → item.command ≠ none)
    (h : place ∈ places p items) :
    ∃ item, (compiled items)[place]? = some item ∧ p item = true := by
  obtain ⟨k, item, rfl, hget, hitem⟩ := mem_placesFrom hp h
  exact ⟨item, by rw [Nat.zero_add]; exact hget, hitem⟩

theorem lt_of_mem_places (hp : ∀ item, p item = true → item.command ≠ none)
    (h : place ∈ places p items) :
    place < nextCommand items := by
  obtain ⟨item, hget, -⟩ := getElem?_of_mem_places hp h
  rw [← length_compiled]
  exact (List.getElem?_eq_some_iff.mp hget).1

theorem notMem_places (hp : ∀ item, p item = true → item.command ≠ none)
    (hq : ∀ item, q item = true → item.command ≠ none)
    (hdisjoint : ∀ item, p item = true → q item = false)
    (h : place ∈ places p items) : place ∉ places q items := by
  intro h'
  obtain ⟨item, hget, hitem⟩ := getElem?_of_mem_places hp h
  obtain ⟨item', hget', hitem'⟩ := getElem?_of_mem_places hq h'
  obtain rfl := Option.some.inj (hget.symm.trans hget')
  exact Bool.false_ne_true ((hdisjoint item hitem).symm.trans hitem')

theorem nodup_placesFrom (hp : ∀ item, p item = true → item.command ≠ none) (next : ℕ)
    (items : List Item) :
    (placesFrom p next items).Nodup := by
  induction items generalizing next with
  | nil => exact List.nodup_nil
  | cons item items ih =>
    rw [placesFrom]
    by_cases hitem : p item = true
    · rw [if_pos hitem, List.singleton_append, List.nodup_cons]
      refine ⟨fun hmem ↦ ?_, ih _⟩
      obtain ⟨k, item', hplace, -⟩ := mem_placesFrom hp hmem
      rw [nextCommand_singleton (hp item hitem)] at hplace
      omega
    · rw [if_neg hitem, List.nil_append]
      exact ih _

theorem nodup_places (hp : ∀ item, p item = true → item.command ≠ none) : (places p items).Nodup :=
  nodup_placesFrom hp 0 items

theorem nextCommand_mem_places (hitem : p item = true) :
    nextCommand before ∈ places p (before ++ item :: after) := by
  rw [places, placesFrom_append, placesFrom, if_pos hitem, Nat.zero_add]
  exact List.mem_append_right _ List.mem_cons_self

/-- The number of a command tells the item that is compiled to it. -/
theorem split_unique {before' after' : List Item} {item' : Item} (hitem : item.command ≠ none)
    (hitem' : item'.command ≠ none) (heq : before ++ item :: after = before' ++ item' :: after')
    (hnext : nextCommand before = nextCommand before') :
    before = before' ∧ item = item' ∧ after = after' := by
  induction before generalizing before' with
  | nil =>
    cases before' with
    | nil => exact ⟨rfl, List.cons.inj heq⟩
    | cons first before' =>
      obtain ⟨rfl, -⟩ := List.cons.inj heq
      rw [← List.singleton_append, nextCommand_append, nextCommand_singleton hitem] at hnext
      have hnil : nextCommand [] = 0 := rfl
      omega
  | cons first before ih =>
    cases before' with
    | nil =>
      obtain ⟨rfl, -⟩ := List.cons.inj heq
      rw [← List.singleton_append, nextCommand_append, nextCommand_singleton hitem'] at hnext
      have hnil : nextCommand [] = 0 := rfl
      omega
    | cons first' before' =>
      obtain ⟨rfl, hrest⟩ := List.cons.inj heq
      rw [← List.singleton_append, ← List.singleton_append (l := before'), nextCommand_append,
        nextCommand_append]
        at hnext
      obtain ⟨rfl, hitems⟩ := ih hrest (Nat.add_left_cancel hnext)
      exact ⟨rfl, hitems⟩

end Places

/-! ### Blocks -/

section Blocks

variable {item : Item} {items before after inner : List Item} {stack : List ℕ} {place : ℕ}
  {lb1 lb1' : ℕ → Option ℕ}

def Item.isStart : Item → Bool
  | .blockStart => true
  | _ => false

/-- Neither the start nor the end of a block. -/
def Item.isPlain : Item → Bool
  | .blockStart => false
  | .blockEnd _ => false
  | _ => true

theorem command_ne_none_of_isStart (item : Item) (h : item.isStart = true) :
    item.command ≠ none := by
  cases item <;> first | exact Option.some_ne_none _ | cases h

theorem Balanced.append (h : Balanced items) (h' : Balanced after) : Balanced (items ++ after) := by
  induction h with
  | nil => exact h'
  | item hstart hend _ ih => exact .item hstart hend ih
  | block addressed hinner _ _ ih =>
    rw [List.cons_append, List.append_assoc, List.cons_append]
    exact .block addressed hinner ih

theorem balanced_singleton (h : item.isPlain = true) : Balanced [item] := by
  refine .item ?_ ?_ .nil
  · rintro rfl
    cases h
  · rintro addressed rfl
    cases h

/-- Items in which some blocks have no end yet, with the numbers of their commands. -/
inductive Opened : List ℕ → List Item → Prop
  | nil {items : List Item} (h : Balanced items) : Opened [] items
  | snoc {stack : List ℕ} {before inner : List Item} (h : Opened stack before)
      (hinner : Balanced inner) :
      Opened (stack ++ [nextCommand before]) (before ++ .blockStart :: inner)

theorem Opened.append (h : Opened stack items) (h' : Balanced after) :
    Opened stack (items ++ after) := by
  cases h with
  | nil h => exact .nil (h.append h')
  | snoc h hinner =>
    rw [List.append_assoc, List.cons_append]
    exact .snoc h (hinner.append h')

/-- The end of a block belongs to the last one that has no end yet. -/
theorem opened_concat (h : Opened (stack ++ [place]) items) :
    ∃ before inner, items = before ++ .blockStart :: inner ∧ Balanced inner ∧ Opened stack before ∧
      place = nextCommand before := by
  generalize hstack : stack ++ [place] = stack' at h
  cases h with
  | nil h => exact absurd hstack (List.append_ne_nil_of_right_ne_nil _ (List.cons_ne_nil _ _))
  | snoc h hinner =>
    obtain ⟨rfl, hplace⟩ := List.append_inj' hstack rfl
    exact ⟨_, _, rfl, hinner, h, (List.cons.inj hplace).1⟩

theorem opened_end (h : Opened stack before) (hinner : Balanced inner) (addressed : Bool) :
    Opened stack (before ++ .blockStart :: inner ++ [.blockEnd addressed]) := by
  rw [List.append_assoc, List.cons_append]
  exact h.append (.block addressed hinner .nil)

theorem mem_places_of_opened (h : Opened stack items) (hplace : place ∈ stack) :
    place ∈ places Item.isStart items := by
  induction h with
  | nil _ => exact absurd hplace List.not_mem_nil
  | snoc _ _ ih =>
    obtain hold | hnew := List.mem_append.mp hplace
    · rw [places, placesFrom_append]
      exact List.mem_append_left _ (ih hold)
    · rw [List.mem_singleton.mp hnew]
      exact nextCommand_mem_places rfl

/-- Each block that is started is resolved, or its command is one of those that wait for its end. -/
def Blocks (items : List Item) (lb1 : ℕ → Option ℕ) (cmpend : List ℕ) : Prop :=
  ∀ before after, items = before ++ .blockStart :: after → BlockResolved lb1 before after ∨
    nextCommand before ∈ cmpend

theorem blockResolved_snoc (h : BlockResolved lb1 before after)
    (hkept : lb1' (nextCommand before) = lb1 (nextCommand before)) :
    BlockResolved lb1' before (after ++ [item]) := by
  obtain ⟨inner, addressed, rest, rfl, hinner, hlb1⟩ := h
  refine ⟨inner, addressed, rest ++ [item], ?_, hinner, hkept.trans hlb1⟩
  rw [List.append_assoc, List.cons_append]

/-- A split at a block start, of some items with one more. -/
theorem split_snoc (h : items ++ [item] = before ++ .blockStart :: after) :
    (before = items ∧ item = .blockStart ∧ after = []) ∨
      ∃ after', after = after' ++ [item] ∧ items = before ++ .blockStart :: after' := by
  rcases List.eq_nil_or_concat after with rfl | ⟨after', last, rfl⟩
  · obtain ⟨rfl, hitem⟩ := List.append_inj' h rfl
    exact Or.inl ⟨rfl, (List.cons.inj hitem).1, rfl⟩
  · rw [List.concat_eq_append, ← List.cons_append, ← List.append_assoc] at h
    obtain ⟨hitems, hlast⟩ := List.append_inj' h rfl
    obtain rfl := (List.cons.inj hlast).1
    exact Or.inr ⟨after', List.concat_eq_append, hitems⟩

theorem blocks_plain (h : Blocks items lb1 stack) (hitem : item.isPlain = true)
    (hkept : ∀ place ∈ places Item.isStart items, lb1' place = lb1 place) :
    Blocks (items ++ [item]) lb1' stack := by
  intro before after hsplit
  obtain ⟨-, rfl, -⟩ | ⟨after', rfl, rfl⟩ := split_snoc hsplit
  · cases hitem
  · exact (h before after' rfl).imp (fun hresolved ↦ blockResolved_snoc hresolved
      (hkept _ (nextCommand_mem_places rfl))) id

theorem blocks_start (h : Blocks items lb1 stack) :
    Blocks (items ++ [.blockStart]) lb1 (stack ++ [nextCommand items]) := by
  intro before after hsplit
  obtain ⟨rfl, -, -⟩ | ⟨after', rfl, rfl⟩ := split_snoc hsplit
  · exact Or.inr (List.mem_append_right _ List.mem_cons_self)
  · exact (h before after' rfl).imp (fun hresolved ↦ blockResolved_snoc hresolved rfl)
      (List.mem_append_left _)

theorem blocks_end (h : Blocks items lb1 (stack ++ [place]))
    (hopened : Opened (stack ++ [place]) items) (addressed : Bool) :
    Blocks (items ++ [.blockEnd addressed])
    (Function.update lb1 place (some (nextCommand items))) stack := by
  intro before after hsplit
  obtain ⟨-, hstart, -⟩ | ⟨after', rfl, rfl⟩ := split_snoc hsplit
  · cases hstart
  · by_cases hplace : nextCommand before = place
    · obtain ⟨before', inner, hitems, hinner, -, hplace'⟩ := opened_concat hopened
      have hcommand : Item.command .blockStart ≠ none := Option.some_ne_none _
      obtain ⟨rfl, -, rfl⟩ := split_unique hcommand hcommand hitems (hplace.trans hplace')
      refine Or.inl ⟨after', addressed, [], rfl, hinner, ?_⟩
      rw [hplace, Function.update_self]
    · refine (h before after' rfl).imp (fun hresolved ↦ blockResolved_snoc hresolved ?_) fun hmem ↦
        ?_
      · rw [Function.update_of_ne hplace]
      · exact (List.mem_append.mp hmem).resolve_right fun hlast ↦
          hplace (List.mem_singleton.mp hlast)

end Blocks

/-! ### Labels -/

section Labels

variable {item : Item} {items : List Item} {asc : List UInt8} {lb1 lb1' : ℕ → Option ℕ}
  {lab : Label} {tab tab' : List Label}

theorem command_ne_none_of_refersTo (item : Item) (h : item.refersTo asc = true) :
    item.command ≠ none := by
  cases item <;> first | exact Option.some_ne_none _ | cases h

/-- What an entry of the label table says: its label is defined, and all the jumps to it have their
target, or it is not, and they are threaded. -/
inductive Entry (items : List Item) (lb1 : ℕ → Option ℕ) (lab : Label) : Prop
  | defined {address : ℕ} (hchain : lab.chain = none) (haddress : lab.address = some address)
      (hdefines : places (Item.defines lab.asc) items = [address])
      (hrefers : ∀ place ∈ places (Item.refersTo lab.asc) items, lb1 place = some address)
  | pending {place : ℕ} {rest : List ℕ} (haddress : lab.address = none)
      (hchain : lab.chain = some place)
      (hdefines : places (Item.defines lab.asc) items = [])
      (hrefers : places (Item.refersTo lab.asc) items = place :: rest)
        (hthreaded : Threaded lb1 (place :: rest))

theorem places_snoc_of_false {p : Item → Bool} (h : p item = false) :
    places p (items ++ [item]) = places p items := by
  rw [places_snoc, h]
  exact List.append_nil _

/-- An item that is not about the label of an entry leaves it as it is. -/
theorem Entry.snoc (h : Entry items lb1 lab) (hrefers : item.refersTo lab.asc = false)
    (hdefines : item.defines lab.asc = false)
    (hkept : ∀ place ∈ places (Item.refersTo lab.asc) items, lb1' place = lb1 place) :
    Entry (items ++ [item]) lb1' lab := by
  have hdefines' := @places_snoc_of_false _ items _ hdefines
  have hrefers' := @places_snoc_of_false _ items _ hrefers
  cases h with
  | defined hchain haddress hold htargets =>
    refine .defined hchain haddress (hdefines'.trans hold) fun place hplace ↦ ?_
    rw [hrefers'] at hplace
    exact (hkept place hplace).trans (htargets place hplace)
  | pending haddress hchain hold hplaces hthreaded =>
    refine .pending haddress hchain (hdefines'.trans hold) (hrefers'.trans hplaces) ?_
    exact (threaded_congr fun place hplace ↦ hkept place (hplaces ▸ hplace)).mpr hthreaded

/-- What the label table says: the first entry has the thread of the jumps to the end of the script,
and each other label has one entry. -/
structure Table (items : List Item) (lb1 : ℕ → Option ℕ) (labtab : List Label) (tab : List Label) :
    Prop where
  first : ∃ address, labtab = ⟨[], (places (Item.refersTo []) items).head?, some address⟩ :: tab
  threaded : Threaded lb1 (places (Item.refersTo []) items)
  nodup : (tab.map Label.asc).Nodup
  named : ∀ lab ∈ tab, lab.asc ≠ []
  entry : ∀ lab ∈ tab, Entry items lb1 lab
  absent : ∀ asc, asc ≠ [] → asc ∉ tab.map Label.asc →
    places (Item.refersTo asc) items = [] ∧ places (Item.defines asc) items = []

theorem search_eq_none {c : SedCommands} (h : c.search asc = none) :
    asc ∉ c.labtab.map Label.asc := by
  intro hmem
  obtain ⟨lab, hlab, hasc⟩ := List.mem_map.mp hmem
  rw [SedCommands.search] at h
  cases hfind : c.labtab.findIdx? fun lab ↦ lab.asc = asc with
  | none =>
    rw [List.findIdx?_eq_none_iff] at hfind
    exact Bool.false_ne_true ((hfind lab hlab).symm.trans (decide_eq_true hasc))
  | some lpt =>
    obtain ⟨hlt, -⟩ := List.findIdx?_eq_some_iff_getElem.mp hfind
    rw [hfind, Option.bind_some, List.getElem?_eq_getElem hlt] at h
    cases h

theorem search_eq_some {c : SedCommands} {lpt : ℕ} (h : c.search asc = some (lpt, lab)) :
    lab.asc = asc ∧ ∃ before after, c.labtab = before ++ lab :: after ∧ before.length = lpt := by
  rw [SedCommands.search] at h
  obtain ⟨index, hfind, hmap⟩ := Option.bind_eq_some_iff.mp h
  obtain ⟨lab', hget, hpair⟩ := Option.map_eq_some_iff.mp hmap
  obtain ⟨rfl, rfl⟩ := Prod.mk.inj hpair
  obtain ⟨hlt, hasc, -⟩ := List.findIdx?_eq_some_iff_getElem.mp hfind
  rw [List.getElem?_eq_getElem hlt] at hget
  obtain rfl := Option.some.inj hget
  refine ⟨of_decide_eq_true hasc, c.labtab.take index, c.labtab.drop (index + 1), ?_, ?_⟩
  · rw [List.getElem_cons_drop, List.take_append_drop]
  · rw [List.length_take]
    omega

theorem modify_split {α : Type*} (before after : List α) (a : α) (f : α → α) :
    (before ++ a :: after).modify before.length f = before ++ f a :: after := by
  rw [List.modify_eq_take_cons_drop (by rw [List.length_append, List.length_cons]; omega)]
  simp

/-- The end of a thread gets the next command, and the other links are as before. -/
theorem extend_thread {place next : ℕ} {rest : List ℕ} (h : Threaded lb1 (place :: rest))
    (hnodup : (place :: rest).Nodup) (hlt : ∀ other ∈ place :: rest, other < next)
    (hnext : lb1 next = none) :
    Threaded (Function.update lb1 (threadEnd lb1 next place) (some next))
    (place :: rest ++ [next]) ∧
      threadEnd lb1 next place ∈ place :: rest := by
  have hfuel : rest.length ≤ next := by
    have hsub : place :: rest ⊆ List.range next := fun other hother ↦
      List.mem_range.mpr (hlt other hother)
    have hle := hnodup.length_le_of_subset hsub
    rw [List.length_cons, List.length_range] at hle
    omega
  rw [threadEnd_eq h hfuel]
  refine ⟨threaded_append h ?_ hnext _, List.getLast_mem _⟩
  rw [List.nodup_append_comm, List.singleton_append, List.nodup_cons]
  exact ⟨fun hmem ↦ Nat.lt_irrefl _ (hlt next hmem), hnodup⟩

/-- The links of the commands so far are as before, but for those of the jumps to a label. -/
def KeptBut (asc : List UInt8) (items : List Item) (lb1 lb1' : ℕ → Option ℕ) : Prop :=
  ∀ place < nextCommand items, place ∉ places (Item.refersTo asc) items → lb1' place = lb1 place

theorem KeptBut.places (h : KeptBut asc items lb1 lb1') {p : Item → Bool}
    (hp : ∀ item, p item = true → item.command ≠ none)
    (hdisjoint : ∀ item, p item = true → item.refersTo asc = false)
    {place : ℕ} (hplace : place ∈ places p items) : lb1' place = lb1 place :=
  h place (lt_of_mem_places hp hplace)
    (notMem_places hp command_ne_none_of_refersTo hdisjoint hplace)

theorem refersTo_ne {asc' : List UInt8} (hne : asc' ≠ asc) (item : Item)
    (h : item.refersTo asc' = true) :
    item.refersTo asc = false := by
  cases item with
  | branch onSubstitution label =>
    rw [Item.refersTo, decide_eq_true_eq] at h
    exact decide_eq_false fun heq ↦ hne (h.symm.trans heq)
  | _ => rfl

theorem refersTo_branch (onSubstitution : Bool) :
    Item.refersTo asc (.branch onSubstitution asc) = true :=
  decide_eq_true rfl

theorem refersTo_branch_ne {asc' : List UInt8} (onSubstitution : Bool) (hne : asc' ≠ asc) :
    Item.refersTo asc' (.branch onSubstitution asc) = false :=
  decide_eq_false hne.symm

theorem defines_label (addressed : Bool) : Item.defines asc (.label addressed asc) = true :=
  decide_eq_true rfl

theorem defines_label_ne {asc' : List UInt8} (addressed : Bool) (hne : asc' ≠ asc) :
    Item.defines asc' (.label addressed asc) = false :=
  decide_eq_false hne.symm

variable {labtab : List Label}

theorem Table.alloc (h : Table items lb1 labtab tab) (next : ℕ) :
    Table items lb1 (labtab.modifyHead fun first ↦ { first with address := some next }) tab := by
  obtain ⟨address, rfl⟩ := h.first
  exact ⟨⟨next, rfl⟩, h.threaded, h.nodup, h.named, h.entry, h.absent⟩

/-- An item that is about no label leaves the table as it is. -/
theorem Table.snoc (h : Table items lb1 labtab tab) (hrefers : ∀ asc, item.refersTo asc = false)
    (hdefines : ∀ asc, item.defines asc = false)
    (hkept : ∀ asc, ∀ place ∈ places (Item.refersTo asc) items, lb1' place = lb1 place) :
    Table (items ++ [item]) lb1' labtab tab := by
  refine ⟨?_, ?_, h.nodup, h.named, fun lab hlab ↦ ?_, fun asc hne hasc ↦ ?_⟩
  · rw [places_snoc_of_false (hrefers [])]
    exact h.first
  · rw [places_snoc_of_false (hrefers [])]
    exact (threaded_congr (hkept [])).mpr h.threaded
  · exact (h.entry lab hlab).snoc (hrefers _) (hdefines _) (hkept _)
  · rw [places_snoc_of_false (hrefers asc), places_snoc_of_false (hdefines asc)]
    exact h.absent asc hne hasc

/-- An item about one label leaves the other entries and the thread of the jumps to the end as they
are. -/
theorem Table.others (h : Table items lb1 labtab tab)
    (hrefers : ∀ asc', asc' ≠ asc → item.refersTo asc' = false)
    (hdefines : ∀ asc', asc' ≠ asc → item.defines asc' = false)
    (hkept : KeptBut asc items lb1 lb1') :
    (asc ≠ [] → Threaded lb1' (places (Item.refersTo []) (items ++ [item]))) ∧
      (∀ lab ∈ tab, lab.asc ≠ asc → Entry (items ++ [item]) lb1' lab) ∧
      ∀ asc', asc' ≠ [] → asc' ≠ asc → asc' ∉ tab.map Label.asc →
        places (Item.refersTo asc') (items ++ [item]) = [] ∧
        places (Item.defines asc') (items ++ [item]) = [] := by
  refine ⟨fun hne ↦ ?_, fun lab hlab hother ↦ ?_, fun asc' hne' hother hasc ↦ ?_⟩
  · rw [places_snoc_of_false (hrefers [] hne.symm)]
    exact (threaded_congr fun place hplace ↦
      hkept.places command_ne_none_of_refersTo (refersTo_ne hne.symm) hplace).mpr h.threaded
  · exact (h.entry lab hlab).snoc (hrefers _ hother) (hdefines _ hother) fun place hplace ↦
      hkept.places command_ne_none_of_refersTo (refersTo_ne hother) hplace
  · rw [places_snoc_of_false (hrefers asc' hother), places_snoc_of_false (hdefines asc' hother)]
    exact h.absent asc' hne' hasc

/-- A jump to the end of the script. -/
theorem Table.toEnd (h : Table items lb1 labtab tab) (onSubstitution : Bool)
    (hkept : KeptBut [] items lb1 lb1')
    (hthreaded : Threaded lb1' (places (Item.refersTo []) (items ++ [.branch onSubstitution []])))
    (address : ℕ) :
    Table (items ++ [.branch onSubstitution []]) lb1'
      (⟨[], (places (Item.refersTo []) (items ++ [.branch onSubstitution []])).head?,
        some address⟩ :: tab) tab := by
  obtain ⟨-, hentries, habsent⟩ := h.others (fun _ hne ↦ refersTo_branch_ne onSubstitution hne)
    (fun _ _ ↦ rfl) hkept
  exact ⟨⟨address, rfl⟩, hthreaded, h.nodup, h.named, fun lab hlab ↦
    hentries lab hlab (h.named lab hlab),
    fun asc hne ↦ habsent asc hne hne⟩

/-- A new entry, for a label that none of the items so far is about. -/
theorem Table.add (h : Table items lb1 labtab tab) (hne : asc ≠ []) (hnew : asc ∉ tab.map Label.asc)
    (hrefers : ∀ asc', asc' ≠ asc → item.refersTo asc' = false)
    (hdefines : ∀ asc', asc' ≠ asc → item.defines asc' = false) (hkept : KeptBut asc items lb1 lb1')
    (hasc : lab.asc = asc) (hentry : Entry (items ++ [item]) lb1' lab) :
    Table (items ++ [item]) lb1' (labtab ++ [lab]) (tab ++ [lab]) := by
  obtain ⟨hthreaded, hentries, habsent⟩ := h.others hrefers hdefines hkept
  obtain ⟨address, rfl⟩ := h.first
  refine ⟨⟨address, ?_⟩, hthreaded hne, ?_, fun lab' hlab' ↦ ?_, fun lab' hlab' ↦ ?_,
    fun asc' hne' hasc' ↦ ?_⟩
  · rw [places_snoc_of_false (hrefers [] hne.symm)]
    rfl
  · rw [List.map_append, List.nodup_append_comm, List.map_singleton, List.singleton_append,
      List.nodup_cons, hasc]
    exact ⟨hnew, h.nodup⟩
  · obtain hold | hlast := List.mem_append.mp hlab'
    · exact h.named lab' hold
    · rw [List.mem_singleton.mp hlast, hasc]
      exact hne
  · obtain hold | hlast := List.mem_append.mp hlab'
    · exact hentries lab' hold fun heq ↦ hnew (heq ▸ List.mem_map_of_mem hold)
    · rw [List.mem_singleton.mp hlast]
      exact hentry
  · rw [List.map_append, List.mem_append, not_or] at hasc'
    refine habsent asc' hne' (fun heq ↦ hasc'.2 ?_) hasc'.1
    rw [heq, ← hasc]
    exact List.mem_cons_self

/-- Another entry in the place of that of a label. -/
theorem Table.replace {before after : List Label} {lab' : Label}
    (h : Table items lb1 labtab (before ++ lab :: after))
    (hrefers : ∀ asc', asc' ≠ lab.asc → item.refersTo asc' = false)
    (hdefines : ∀ asc', asc' ≠ lab.asc → item.defines asc' = false)
    (hkept : KeptBut lab.asc items lb1 lb1')
    (hasc : lab'.asc = lab.asc) (hentry : Entry (items ++ [item]) lb1' lab') :
    ∃ first, labtab = first :: (before ++ lab :: after) ∧
      Table (items ++ [item]) lb1' (first :: (before ++ lab' :: after))
      (before ++ lab' :: after) := by
  have hmem : lab ∈ before ++ lab :: after := List.mem_append_right _ List.mem_cons_self
  obtain ⟨hthreaded, hentries, habsent⟩ := h.others hrefers hdefines hkept
  obtain ⟨address, hlabtab⟩ := h.first
  have hnames : (before ++ lab' :: after).map Label.asc =
      (before ++ lab :: after).map Label.asc := by
    rw [List.map_append, List.map_append, List.map_cons, List.map_cons, hasc]
  have hother : ∀ lab'' ∈ before ++ after, lab''.asc ≠ lab.asc := by
    intro lab'' hlab'' heq
    have hnodup := h.nodup
    rw [List.map_append, List.map_cons, List.nodup_middle, List.nodup_cons,
      ← List.map_append] at hnodup
    exact hnodup.1 (heq ▸ List.mem_map_of_mem hlab'')
  have hcases : ∀ lab'' ∈ before ++ lab' :: after, lab'' = lab' ∨
      lab'' ∈ before ++ lab :: after ∧ lab''.asc ≠ lab.asc := by
    intro lab'' hlab''
    obtain hbefore | hafter := List.mem_append.mp hlab''
    · exact Or.inr ⟨List.mem_append_left _ hbefore, hother lab'' (List.mem_append_left _ hbefore)⟩
    · obtain rfl | hafter := List.mem_cons.mp hafter
      · exact Or.inl rfl
      · exact Or.inr ⟨List.mem_append_right _ (List.mem_cons_of_mem _ hafter),
          hother lab'' (List.mem_append_right _ hafter)⟩
  refine ⟨_, hlabtab, ⟨address, ?_⟩, hthreaded (h.named lab hmem), hnames ▸ h.nodup,
    fun lab'' hlab'' ↦ ?_, fun lab'' hlab'' ↦ ?_,
    fun asc' hne' hasc' ↦ ?_⟩
  · rw [places_snoc_of_false (hrefers [] (h.named lab hmem).symm)]
  · obtain rfl | ⟨hold, -⟩ := hcases lab'' hlab''
    · rw [hasc]
      exact h.named lab hmem
    · exact h.named lab'' hold
  · obtain rfl | ⟨hold, hne⟩ := hcases lab'' hlab''
    · exact hentry
    · exact hentries lab'' hold hne
  · rw [hnames] at hasc'
    exact habsent asc' hne' (fun heq ↦ hasc' (heq ▸ List.mem_map_of_mem hmem)) hasc'

end Labels

/-! ### What holds after some items -/

section Items

variable {item : Item} {items : List Item} {asc : List UInt8} {c c' : SedCommands}
  {tab tab' : List Label}

/-- What holds of the compiled commands after some items. -/
structure Compiled (items : List Item) (c : SedCommands) (tab : List Label) : Prop where
  command : c.command = items.filterMap Item.command
  rep : c.rep = nextCommand items
  fresh : ∀ place, nextCommand items ≤ place → c.lb1 place = none
  table : Table items c.lb1 c.labtab tab
  opened : Opened c.cmpend items
  blocks : Blocks items c.lb1 c.cmpend
  restart : ∀ place ∈ places Item.isRestart items, c.lb1 place = some 0

theorem compiled_sedInitCommands : Compiled [] sedInitCommands [] := by
  refine ⟨rfl, rfl, fun _ _ ↦ rfl, ⟨⟨0, rfl⟩, trivial, List.nodup_nil, nofun, nofun,
    fun _ _ _ ↦ ⟨rfl, rfl⟩⟩, .nil .nil,
    fun before after hsplit ↦ ?_, nofun⟩
  exact absurd hsplit.symm (List.append_ne_nil_of_right_ne_nil _ (List.cons_ne_nil _ _))

theorem command_ne_none_of_isRestart (item : Item) (h : item.isRestart = true) :
    item.command ≠ none := by
  cases item <;> first | exact Option.some_ne_none _ | cases h

theorem refersTo_of_isStart (item : Item) (h : item.isStart = true) :
    item.refersTo asc = false := by
  cases item <;> first | rfl | cases h

theorem refersTo_of_isRestart (item : Item) (h : item.isRestart = true) :
    item.refersTo asc = false := by
  cases item <;> first | rfl | cases h

theorem nextCommand_le_snoc (items : List Item) (item : Item) :
    nextCommand items ≤ nextCommand (items ++ [item]) := by
  rw [nextCommand_append]
  exact Nat.le_add_right _ _

/-- A turn that is about a label changes the links of the jumps to that only, and of the next
command. -/
theorem Compiled.step (h : Compiled items c tab) (hitem : item.isPlain = true)
    (hrestart : item.isRestart = false)
    (hkept : KeptBut asc items c.lb1 c'.lb1)
    (hcommand : c'.command = c.command ++ item.command.toList)
    (hrep : c'.rep = c.rep + item.command.toList.length)
    (hfresh : ∀ place, nextCommand (items ++ [item]) ≤ place → c'.lb1 place = c.lb1 place)
    (htable : Table (items ++ [item]) c'.lb1 c'.labtab tab') (hcmpend : c'.cmpend = c.cmpend) :
    Compiled (items ++ [item]) c' tab' := by
  refine ⟨?_, ?_, fun place hplace ↦ ?_, htable, ?_, ?_, ?_⟩
  · rw [hcommand, h.command, List.filterMap_append]
    cases item <;> rfl
  · rw [hrep, h.rep, nextCommand_append]
    cases item <;> rfl
  · rw [hfresh place hplace]
    exact h.fresh place (Nat.le_trans (nextCommand_le_snoc items item) hplace)
  · rw [hcmpend]
    exact h.opened.append (balanced_singleton hitem)
  · rw [hcmpend]
    exact blocks_plain h.blocks hitem fun place hplace ↦
      hkept.places command_ne_none_of_isStart refersTo_of_isStart hplace
  · intro place hplace
    rw [places_snoc_of_false hrestart] at hplace
    rw [hkept.places command_ne_none_of_isRestart refersTo_of_isRestart hplace]
    exact h.restart place hplace

theorem keptBut_refl (asc : List UInt8) (items : List Item) (lb1 : ℕ → Option ℕ) :
    KeptBut asc items lb1 lb1 :=
  fun _ _ _ ↦ rfl

/-- A turn on a jump to a label that is not defined yet. -/
theorem extendChain_spec (h : Compiled items c tab) {place : ℕ} {rest : List ℕ}
    (hplaces : places (Item.refersTo asc) items = place :: rest)
    (hthreaded : Threaded c.lb1 (place :: rest)) (onSubstitution : Bool) :
    Threaded (c.extendChain place).lb1
    (places (Item.refersTo asc) (items ++ [.branch onSubstitution asc])) ∧
      KeptBut asc items c.lb1 (c.extendChain place).lb1 ∧
      (∀ place', nextCommand items < place' → (c.extendChain place).lb1 place' = c.lb1 place') ∧
      places (Item.refersTo asc) (items ++ [.branch onSubstitution asc]) =
      place :: (rest ++ [c.rep]) := by
  have hnodup : (place :: rest).Nodup := hplaces ▸ nodup_places command_ne_none_of_refersTo
  have hlt : ∀ other ∈ place :: rest, other < c.rep := by
    intro other hother
    rw [h.rep]
    exact lt_of_mem_places command_ne_none_of_refersTo (hplaces ▸ hother)
  have hnext : c.lb1 c.rep = none := h.fresh _ (Nat.le_of_eq h.rep.symm)
  obtain ⟨hextended, hend⟩ := extend_thread hthreaded hnodup hlt hnext
  have hsnoc : places (Item.refersTo asc) (items ++ [.branch onSubstitution asc]) =
      place :: (rest ++ [c.rep]) := by
    rw [places_snoc, hplaces, if_pos (refersTo_branch _), h.rep]
    rfl
  refine ⟨?_, fun other _ hother ↦ ?_, fun other hother ↦ ?_, hsnoc⟩
  · rw [hsnoc]
    exact hextended
  · exact Function.update_of_ne (fun heq ↦ hother (by rw [hplaces, heq]; exact hend)) _ _
  · refine Function.update_of_ne (fun heq ↦ ?_) _ _
    have hless := hlt _ hend
    have hrep := h.rep
    omega

theorem compiled_other (h : Compiled items c tab) :
    Compiled (items ++ [.other]) (c.allocReptr .other) tab :=
  h.step rfl rfl (keptBut_refl [] _ _) rfl rfl (fun _ _ ↦ rfl)
    ((h.table.alloc (c.rep + 1)).snoc (fun _ ↦ rfl) (fun _ ↦ rfl) fun _ _ _ ↦ rfl) rfl

theorem compiled_restart (h : Compiled items c tab) :
    Compiled (items ++ [.restart]) ((c.setLb1 c.rep 0).allocReptr .CDCOM) tab := by
  have hkept : ∀ place < nextCommand items, (c.setLb1 c.rep 0).lb1 place = c.lb1 place := by
    intro place hlt
    refine Function.update_of_ne (fun heq ↦ ?_) _ _
    rw [heq, h.rep] at hlt
    exact Nat.lt_irrefl _ hlt
  have hcommand : Item.command .restart ≠ none := Option.some_ne_none _
  refine ⟨?_, ?_, fun place hplace ↦ ?_, ?_, h.opened.append (balanced_singleton rfl), ?_,
    fun place hplace ↦ ?_⟩
  · rw [List.filterMap_append, ← h.command]
    rfl
  · rw [nextCommand_snoc hcommand, ← h.rep]
    rfl
  · rw [nextCommand_snoc hcommand] at hplace
    rw [← h.fresh place (Nat.le_of_succ_le hplace)]
    refine Function.update_of_ne (fun heq ↦ ?_) _ _
    rw [heq, h.rep] at hplace
    exact Nat.lt_irrefl _ hplace
  · exact (h.table.alloc (c.rep + 1)).snoc (fun _ ↦ rfl) (fun _ ↦ rfl) fun asc place hplace ↦
      hkept place (lt_of_mem_places command_ne_none_of_refersTo hplace)
  · exact blocks_plain h.blocks rfl fun place hplace ↦
      hkept place (lt_of_mem_places command_ne_none_of_isStart hplace)
  · rw [places_snoc, List.mem_append] at hplace
    obtain hold | hnew := hplace
    · exact (hkept place (lt_of_mem_places command_ne_none_of_isRestart hold)).trans
        (h.restart place hold)
    · have heq : place = nextCommand items := List.mem_singleton.mp hnew
      rw [heq, ← h.rep]
      exact Function.update_self ..

theorem compiled_blockStart (h : Compiled items c tab) :
    Compiled (items ++ [.blockStart])
    ({ c with cmpend := c.cmpend ++ [c.rep] }.allocReptr .BCOM) tab := by
  have hcommand : Item.command .blockStart ≠ none := Option.some_ne_none _
  refine ⟨?_, ?_, fun place hplace ↦ ?_, ?_, ?_, ?_, fun place hplace ↦ ?_⟩
  · rw [List.filterMap_append, ← h.command]
    rfl
  · rw [nextCommand_snoc hcommand, ← h.rep]
    rfl
  · exact h.fresh place (Nat.le_trans (nextCommand_le_snoc items _) hplace)
  · exact (h.table.alloc (c.rep + 1)).snoc (fun _ ↦ rfl) (fun _ ↦ rfl) fun _ _ _ ↦ rfl
  · show Opened (c.cmpend ++ [c.rep]) _
    rw [h.rep]
    exact .snoc h.opened .nil
  · show Blocks _ c.lb1 (c.cmpend ++ [c.rep])
    rw [h.rep]
    exact blocks_start h.blocks
  · rw [places_snoc_of_false rfl] at hplace
    exact h.restart place hplace

theorem compiled_blockEnd (h : Compiled items c tab) {stack : List ℕ} {place : ℕ}
    (hstack : c.cmpend = stack ++ [place]) (addressed : Bool) :
    Compiled (items ++ [.blockEnd addressed])
    { c.setLb1 place c.rep with cmpend := stack } tab := by
  have hopened := h.opened
  have hblocks := h.blocks
  rw [hstack] at hopened hblocks
  have hplace : place ∈ places Item.isStart items :=
    mem_places_of_opened hopened (List.mem_append_right _ List.mem_cons_self)
  have hkept : ∀ {p : Item → Bool}, (∀ item, p item = true → item.command ≠ none) →
      (∀ item, item.isStart = true → p item = false) → ∀ other ∈ places p items,
        (c.setLb1 place c.rep).lb1 other = c.lb1 other := by
    intro p hp hdisjoint other hother
    refine Function.update_of_ne (fun heq ↦ ?_) _ _
    exact notMem_places command_ne_none_of_isStart hp hdisjoint hplace (heq ▸ hother)
  have hnext : nextCommand (items ++ [.blockEnd addressed]) = nextCommand items :=
    nextCommand_append _ _
  refine ⟨?_, ?_, fun other hother ↦ ?_, ?_, ?_, ?_, fun other hother ↦ ?_⟩
  · rw [List.filterMap_append, ← h.command]
    exact (List.append_nil _).symm
  · rw [hnext]
    exact h.rep
  · rw [hnext] at hother
    rw [← h.fresh other hother]
    refine Function.update_of_ne (fun heq ↦ ?_) _ _
    have hlt := lt_of_mem_places command_ne_none_of_isStart hplace
    omega
  · exact h.table.snoc (fun _ ↦ rfl) (fun _ ↦ rfl) fun asc ↦
      hkept command_ne_none_of_refersTo refersTo_of_isStart
  · obtain ⟨before, inner, rfl, hinner, hbefore, -⟩ := opened_concat hopened
    exact opened_end hbefore hinner addressed
  · show Blocks _ (Function.update c.lb1 place (some c.rep)) stack
    rw [h.rep]
    exact blocks_end hblocks hopened addressed
  · rw [places_snoc_of_false rfl] at hother
    rw [← h.restart other hother]
    exact hkept command_ne_none_of_isRestart (fun item hitem ↦ by
      cases item <;> first | rfl | cases hitem) other hother

theorem newLabel_eq {lab : Label} (h : c.newLabel lab = .ok c') :
    c' = { c with labtab := c.labtab ++ [lab] } := by
  rw [SedCommands.newLabel] at h
  split_ifs at h
  exact (Except.ok.inj h).symm

theorem notMem_of_search (h : Compiled items c tab) (hsearch : c.search asc = none) :
    asc ≠ [] ∧ asc ∉ tab.map Label.asc := by
  have hnotMem := search_eq_none hsearch
  obtain ⟨address, hlabtab⟩ := h.table.first
  rw [hlabtab, List.map_cons, List.mem_cons, not_or] at hnotMem
  exact hnotMem

/-- An entry that is found stands in the table, behind the first one when its label is not defined
yet. -/
theorem split_of_search (h : Compiled items c tab) {lpt : ℕ} {lab : Label}
    (hsearch : c.search asc = some (lpt, lab)) (hfirst : lab.address = none ∨ asc ≠ []) :
    lab.asc = asc ∧ ∃ first before after, c.labtab = first :: (before ++ lab :: after) ∧
      (first :: before).length = lpt ∧ tab = before ++ lab :: after := by
  obtain ⟨hasc, before, after, hlabtab, hlength⟩ := search_eq_some hsearch
  obtain ⟨address, hfirst'⟩ := h.table.first
  cases before with
  | nil =>
    obtain ⟨rfl, -⟩ := List.cons.inj (hlabtab.symm.trans hfirst')
    obtain hnone | hne := hfirst
    · exact absurd hnone (Option.some_ne_none _)
    · exact absurd hasc.symm hne
  | cons first before =>
    exact ⟨hasc, first, before, after, hlabtab, hlength,
      (List.cons.inj (hlabtab.symm.trans hfirst')).2.symm⟩

theorem compiled_label (h : Compiled items c tab) {addressed : Bool}
    (hc : c.compileItem (.label addressed asc) = .ok c') :
    ∃ tab', Compiled (items ++ [.label addressed asc]) c' tab' := by
  have hnext : nextCommand (items ++ [.label addressed asc]) = nextCommand items :=
    nextCommand_append _ _
  have hsnoc : places (Item.defines asc) (items ++ [.label addressed asc]) =
      places (Item.defines asc) items ++ [c.rep] := by
    rw [places_snoc, if_pos (defines_label addressed), h.rep]
  have hrefers : places (Item.refersTo asc) (items ++ [.label addressed asc]) =
      places (Item.refersTo asc) items :=
    places_snoc_of_false rfl
  rw [SedCommands.compileItem] at hc
  split_ifs at hc with haddressed hlength
  cases hsearch : c.search asc with
  | none =>
    rw [hsearch] at hc
    obtain ⟨hne, hnew⟩ := notMem_of_search h hsearch
    obtain ⟨hnone, hnone'⟩ := h.table.absent asc hne hnew
    obtain rfl := newLabel_eq hc
    refine ⟨_, h.step rfl rfl (keptBut_refl asc _ _) (List.append_nil _).symm rfl (fun _ _ ↦ rfl)
      (h.table.add hne hnew (fun _ _ ↦ rfl) (fun _ hother ↦ defines_label_ne _ hother)
        (keptBut_refl asc _ _) rfl
        (.defined rfl rfl ?_ ?_)) rfl⟩
    · rw [hsnoc, hnone']
      rfl
    · rw [hrefers, hnone]
      nofun
  | some found =>
    obtain ⟨lpt, lab⟩ := found
    rw [hsearch] at hc
    dsimp only at hc
    split_ifs at hc with haddress
    rw [Option.not_isSome_iff_eq_none] at haddress
    obtain rfl := Except.ok.inj hc
    obtain ⟨rfl, first, before, after, hlabtab, hlength', rfl⟩ :=
      split_of_search h hsearch (Or.inl haddress)
    have hentry := h.table.entry lab (List.mem_append_right _ List.mem_cons_self)
    cases hentry with
    | defined _ haddress' _ _ => exact absurd (haddress.symm.trans haddress') (Option.some_ne_none _).symm
    | @pending place rest _ hchain hdefines hplaces hthreaded =>
      have hnodup : (place :: rest).Nodup := hplaces ▸ nodup_places command_ne_none_of_refersTo
      have hfuel : rest.length < c.rep + 1 := by
        have hsub : place :: rest ⊆ List.range c.rep := fun other hother ↦
          List.mem_range.mpr (h.rep ▸ lt_of_mem_places command_ne_none_of_refersTo
            (hplaces ▸ hother))
        have hle := hnodup.length_le_of_subset hsub
        rw [List.length_cons, List.length_range] at hle
        omega
      have hresolve : ∀ other, resolve c.rep (c.rep + 1) c.lb1 place other =
          if other ∈ place :: rest then some c.rep else c.lb1 other :=
            resolve_apply hthreaded hnodup hfuel
      have hkept : KeptBut lab.asc items c.lb1 (resolve c.rep (c.rep + 1) c.lb1 place) := by
        intro other _ hother
        rw [hresolve, if_neg (hplaces ▸ hother)]
      have hdefined : Entry (items ++ [.label addressed lab.asc])
          (resolve c.rep (c.rep + 1) c.lb1 place)
          ⟨lab.asc, none, some c.rep⟩ := by
        refine .defined rfl rfl (by rw [hsnoc, hdefines]; rfl) fun other hother ↦ ?_
        rw [hrefers, hplaces] at hother
        rw [hresolve, if_pos hother]
      obtain ⟨first', hfirst', htable⟩ := h.table.replace (fun _ _ ↦ rfl)
        (fun _ hother ↦ defines_label_ne addressed hother) hkept
        (show Label.asc ⟨lab.asc, none, some c.rep⟩ = lab.asc from rfl) hdefined
      obtain ⟨rfl, -⟩ := List.cons.inj (hlabtab.symm.trans hfirst')
      have hdechain : (c.dechain lpt c.rep lab.chain).setAddress lpt c.rep =
          { c with
            lb1 := resolve c.rep (c.rep + 1) c.lb1 place
            labtab := first :: (before ++ ⟨lab.asc, none, some c.rep⟩ :: after) } := by
        rw [hchain, SedCommands.dechain, SedCommands.setAddress, ← hlength', hlabtab,
          ← List.cons_append, modify_split, modify_split]
        rfl
      rw [hdechain]
      refine ⟨_, h.step rfl rfl hkept (List.append_nil _).symm rfl (fun other hother ↦
        ?_) htable rfl⟩
      rw [hnext] at hother
      have hlt : other ∉ place :: rest := fun hmem ↦
        Nat.lt_irrefl _ (Nat.lt_of_le_of_lt hother
          (lt_of_mem_places command_ne_none_of_refersTo (hplaces ▸ hmem)))
      exact (hresolve other).trans (if_neg hlt)

/-- A turn on a jump without a label. -/
theorem compiled_toEnd (h : Compiled items c tab) {onSubstitution : Bool}
    (hc : c.compileItem (.branch onSubstitution []) = .ok c') :
    Compiled (items ++ [.branch onSubstitution []]) c' tab := by
  have hcommand : Item.command (.branch onSubstitution []) ≠ none := Option.some_ne_none _
  obtain ⟨address, hlabtab⟩ := h.table.first
  rw [SedCommands.compileItem, if_pos rfl, hlabtab] at hc
  cases hplaces : places (Item.refersTo []) items with
  | nil =>
    rw [hplaces] at hc
    obtain rfl := Except.ok.inj hc
    have hsnoc : places (Item.refersTo []) (items ++ [.branch onSubstitution []]) = [c.rep] := by
      rw [places_snoc, hplaces, if_pos (refersTo_branch _), h.rep]
      rfl
    have htable := h.table.toEnd onSubstitution (keptBut_refl [] items c.lb1)
      (hsnoc ▸ h.fresh _ (Nat.le_of_eq h.rep.symm)) (c.rep + 1)
    rw [hsnoc] at htable
    exact h.step rfl rfl (keptBut_refl [] _ _) rfl rfl (fun _ _ ↦ rfl) htable rfl
  | cons place rest =>
    rw [hplaces] at hc
    obtain rfl := Except.ok.inj hc
    obtain ⟨hthreaded, hkept, hfresh, hsnoc⟩ :=
      extendChain_spec h hplaces (hplaces ▸ h.table.threaded) onSubstitution
    have htable := h.table.toEnd onSubstitution hkept hthreaded (c.rep + 1)
    rw [hsnoc] at htable
    refine h.step rfl rfl hkept rfl rfl (fun other hother ↦ ?_) ?_ rfl
    · rw [nextCommand_snoc hcommand] at hother
      exact hfresh other hother
    · show Table _ _ (List.modifyHead _ c.labtab) tab
      rw [hlabtab, hplaces]
      exact htable

/-- A jump adds its place to those of its label. -/
theorem places_branch (h : Compiled items c tab) (onSubstitution : Bool) (asc : List UInt8) :
    places (Item.refersTo asc) (items ++ [.branch onSubstitution asc]) =
      places (Item.refersTo asc) items ++ [c.rep] := by
  rw [places_snoc, if_pos (refersTo_branch _), h.rep]

/-- A jump to a label that was not met before. -/
theorem compiled_branch_new (h : Compiled items c tab) (onSubstitution : Bool) (hne : asc ≠ [])
    (hsearch : c.search asc = none) (hc : (c.newLabel ⟨asc, some c.rep, none⟩).map (fun c ↦
      c.allocReptr (if onSubstitution then .TCOM else .BCOM)) = .ok c') :
    ∃ tab', Compiled (items ++ [.branch onSubstitution asc]) c' tab' := by
  obtain ⟨hnew', hnew⟩ := notMem_of_search h hsearch
  obtain ⟨hnone, hnone'⟩ := h.table.absent asc hne hnew
  obtain ⟨c'', hnewLabel, rfl⟩ := Program.map_eq_ok hc
  obtain rfl := newLabel_eq hnewLabel
  have hrefers : places (Item.refersTo asc) (items ++ [.branch onSubstitution asc]) = c.rep :: [] :=
    (places_branch h onSubstitution asc).trans (by rw [hnone]; rfl)
  have hpending : Entry (items ++ [.branch onSubstitution asc]) c.lb1 ⟨asc, some c.rep, none⟩ :=
    .pending rfl rfl ((places_snoc_of_false rfl).trans hnone') hrefers
      (h.fresh _ (Nat.le_of_eq h.rep.symm))
  have htable := h.table.add hne hnew (fun _ hother ↦ refersTo_branch_ne onSubstitution hother)
    (fun _ _ ↦ rfl)
    (keptBut_refl asc _ _) rfl hpending
  exact ⟨_, h.step rfl rfl (keptBut_refl asc _ _) rfl rfl (fun _ _ ↦
    rfl) (htable.alloc (c.rep + 1)) rfl⟩

/-- A jump to a label that is defined goes there. -/
theorem compiled_branch_defined {lab : Label} {before after : List Label} {address : ℕ}
    (h : Compiled items c (before ++ lab :: after)) (onSubstitution : Bool)
    (hchain : lab.chain = none)
    (haddress : lab.address = some address)
    (hdefines : places (Item.defines lab.asc) items = [address])
    (hrefers : ∀ place ∈ places (Item.refersTo lab.asc) items, c.lb1 place = some address) :
    ∃ tab', Compiled (items ++ [.branch onSubstitution lab.asc])
      ((c.setLb1 c.rep address).allocReptr (if onSubstitution then .TCOM else .BCOM)) tab' := by
  have hcommand : Item.command (.branch onSubstitution lab.asc) ≠ none := Option.some_ne_none _
  have hkept : KeptBut lab.asc items c.lb1 (c.setLb1 c.rep address).lb1 := by
    intro place hlt _
    refine Function.update_of_ne (fun heq ↦ ?_) _ _
    rw [heq, h.rep] at hlt
    exact Nat.lt_irrefl _ hlt
  have hdefined : Entry (items ++ [.branch onSubstitution lab.asc])
      (c.setLb1 c.rep address).lb1 lab := by
    refine .defined hchain haddress ((places_snoc_of_false rfl).trans hdefines) fun place hplace ↦
      ?_
    rw [places_branch h, List.mem_append] at hplace
    obtain hold | hnew := hplace
    · have hne : place ≠ c.rep := by
        have hlt := lt_of_mem_places command_ne_none_of_refersTo hold
        have hrep := h.rep
        omega
      exact (Function.update_of_ne hne _ _).trans (hrefers place hold)
    · rw [List.mem_singleton.mp hnew]
      exact Function.update_self ..
  obtain ⟨first, hfirst, htable⟩ :=
    h.table.replace (fun _ hother ↦ refersTo_branch_ne onSubstitution hother)
    (fun _ _ ↦ rfl) hkept rfl hdefined
  rw [← hfirst] at htable
  refine ⟨_, h.step rfl rfl hkept rfl rfl (fun other hother ↦ ?_) (htable.alloc (c.rep + 1)) rfl⟩
  rw [nextCommand_snoc hcommand, ← h.rep] at hother
  exact Function.update_of_ne (Nat.ne_of_gt hother) _ _

/-- A jump to a label that is not defined yet is put at the end of the chain of the label. -/
theorem compiled_branch_pending {lab : Label} {before after : List Label} {place : ℕ}
    {rest : List ℕ}
    (h : Compiled items c (before ++ lab :: after)) (onSubstitution : Bool)
    (haddress : lab.address = none)
    (hchain : lab.chain = some place) (hdefines : places (Item.defines lab.asc) items = [])
    (hrefers : places (Item.refersTo lab.asc) items = place :: rest)
    (hthreaded : Threaded c.lb1 (place :: rest)) :
    ∃ tab', Compiled (items ++ [.branch onSubstitution lab.asc])
      ((c.extendChain place).allocReptr (if onSubstitution then .TCOM else .BCOM)) tab' := by
  have hcommand : Item.command (.branch onSubstitution lab.asc) ≠ none := Option.some_ne_none _
  obtain ⟨hthreaded', hkept, hfresh, hsnoc⟩ := extendChain_spec h hrefers hthreaded onSubstitution
  have hpending : Entry (items ++ [.branch onSubstitution lab.asc]) (c.extendChain place).lb1 lab :=
    .pending haddress hchain ((places_snoc_of_false rfl).trans hdefines) hsnoc (hsnoc ▸ hthreaded')
  obtain ⟨first, hfirst, htable⟩ :=
    h.table.replace (fun _ hother ↦ refersTo_branch_ne onSubstitution hother)
    (fun _ _ ↦ rfl) hkept rfl hpending
  rw [← hfirst] at htable
  refine ⟨_, h.step rfl rfl hkept rfl rfl (fun other hother ↦ ?_) (htable.alloc (c.rep + 1)) rfl⟩
  rw [nextCommand_snoc hcommand] at hother
  exact hfresh other hother

/-- A turn on a jump with a label. -/
theorem compiled_branch (h : Compiled items c tab) {onSubstitution : Bool} (hne : asc ≠ [])
    (hc : c.compileItem (.branch onSubstitution asc) = .ok c') :
    ∃ tab', Compiled (items ++ [.branch onSubstitution asc]) c' tab' := by
  rw [SedCommands.compileItem, if_neg hne] at hc
  by_cases hlength : asc.length ≥ 8
  · rw [if_pos hlength] at hc
    cases hc
  rw [if_neg hlength] at hc
  cases hsearch : c.search asc with
  | none =>
    rw [hsearch] at hc
    exact compiled_branch_new h onSubstitution hne hsearch hc
  | some found =>
    obtain ⟨lpt, lab⟩ := found
    rw [hsearch] at hc
    dsimp only at hc
    obtain ⟨rfl, first, before, after, -, -, rfl⟩ := split_of_search h hsearch (Or.inr hne)
    cases h.table.entry lab (List.mem_append_right _ List.mem_cons_self) with
    | @defined address hchain haddress hdefines hrefers =>
      rw [haddress] at hc
      obtain rfl := Except.ok.inj hc
      exact compiled_branch_defined h onSubstitution hchain haddress hdefines hrefers
    | @pending place rest haddress hchain hdefines hrefers hthreaded =>
      rw [haddress] at hc
      dsimp only at hc
      rw [hchain] at hc
      obtain rfl := Except.ok.inj hc
      exact compiled_branch_pending h onSubstitution haddress hchain hdefines hrefers hthreaded

/-- One turn of the loop. -/
theorem compiled_item (h : Compiled items c tab) (hc : c.compileItem item = .ok c') :
    ∃ tab', Compiled (items ++ [item]) c' tab' := by
  cases item with
  | blockStart =>
    rw [SedCommands.compileItem] at hc
    split_ifs at hc
    obtain rfl := Except.ok.inj hc
    exact ⟨tab, compiled_blockStart h⟩
  | blockEnd addressed =>
    rw [SedCommands.compileItem] at hc
    split_ifs at hc
    cases hlast : c.cmpend.getLast? with
    | none => rw [hlast] at hc; cases hc
    | some place =>
      rw [hlast] at hc
      obtain rfl := Except.ok.inj hc
      exact ⟨tab, compiled_blockEnd h (List.dropLast_append_getLast? place hlast).symm addressed⟩
  | label addressed asc => exact compiled_label h hc
  | branch onSubstitution asc =>
    by_cases hne : asc = []
    · subst hne
      exact ⟨tab, compiled_toEnd h hc⟩
    · exact compiled_branch h hne hc
  | restart =>
    obtain rfl := Except.ok.inj hc
    exact ⟨tab, compiled_restart h⟩
  | other =>
    obtain rfl := Except.ok.inj hc
    exact ⟨tab, compiled_other h⟩

theorem compiled_items (h : Compiled items c tab) {more : List Item}
    (hc : more.foldlM SedCommands.compileItem c = .ok c') :
    ∃ tab', Compiled (items ++ more) c' tab' := by
  induction more generalizing items c tab with
  | nil =>
    obtain rfl := Except.ok.inj hc
    rw [List.append_nil]
    exact ⟨tab, h⟩
  | cons item more ih =>
    rw [List.foldlM_cons] at hc
    obtain ⟨after, hitem, hrest⟩ := Program.bind_eq_ok hc
    obtain ⟨tab', hcompiled⟩ := compiled_item h hitem
    rw [← List.singleton_append, ← List.append_assoc]
    exact ih hcompiled hrest

/-- Some calls of `sed_compile_string`. -/
theorem compiled_calls (h : Compiled items c tab) (hfinal : c.canbefinal = c.checkFinalized)
    {calls : List (List Item)} (hc : calls.foldlM SedCommands.sedCompileString c = .ok c') :
    (∃ tab', Compiled (items ++ calls.flatten) c' tab') ∧ c'.canbefinal = c'.checkFinalized := by
  induction calls generalizing items c tab with
  | nil =>
    obtain rfl := Except.ok.inj hc
    rw [List.flatten_nil, List.append_nil]
    exact ⟨⟨tab, h⟩, hfinal⟩
  | cons call calls ih =>
    rw [List.foldlM_cons] at hc
    obtain ⟨after, hcall, hrest⟩ := Program.bind_eq_ok hc
    obtain ⟨read, hitems, rfl⟩ := Program.map_eq_ok hcall
    obtain ⟨tab', hcompiled⟩ := compiled_items h hitems
    rw [List.flatten_cons, ← List.append_assoc]
    have hread : Compiled (items ++ call) { read with canbefinal := read.checkFinalized } tab' :=
      ⟨hcompiled.command, hcompiled.rep, hcompiled.fresh, hcompiled.table, hcompiled.opened,
        hcompiled.blocks, hcompiled.restart⟩
    exact ih hread rfl hrest

theorem resolved_iff_of_compiled (h : Compiled items c tab) (hfinal : c.checkFinalized = true) :
    Resolved items c ↔ (places (Item.refersTo []) items).length ≤ 1 := by
  obtain ⟨address, hlabtab⟩ := h.table.first
  have hthreaded := h.table.threaded
  rw [SedCommands.checkFinalized, hlabtab, Bool.and_eq_true, List.isEmpty_iff] at hfinal
  obtain ⟨hcmpend, hall⟩ := hfinal
  constructor
  · intro hresolved
    by_contra hlong
    cases hplaces : places (Item.refersTo []) items with
    | nil => exact hlong (by rw [hplaces]; exact Nat.zero_le _)
    | cons place rest =>
      cases rest with
      | nil => exact hlong (by rw [hplaces]; exact Nat.le_refl _)
      | cons next rest =>
        rw [hplaces] at hthreaded
        have hlt : next < nextCommand items := by
          apply lt_of_mem_places command_ne_none_of_refersTo
          rw [hplaces]
          exact List.mem_cons_of_mem _ List.mem_cons_self
        obtain hnone | hend := hresolved.unlabelled place (hplaces ▸ List.mem_cons_self)
        · exact absurd (hthreaded.1.symm.trans hnone) (Option.some_ne_none _)
        · exact absurd (Option.some.inj (hthreaded.1.symm.trans hend)) (Nat.ne_of_lt hlt)
  · intro hshort
    refine ⟨h.command, fun asc hne place hplace ↦ ?_, fun place hplace ↦ ?_,
      fun before after hsplit ↦ ?_, h.restart⟩
    · have hmem : asc ∈ tab.map Label.asc := by
        by_contra hnotMem
        rw [(h.table.absent asc hne hnotMem).1] at hplace
        exact absurd hplace List.not_mem_nil
      obtain ⟨lab, hlab, rfl⟩ := List.mem_map.mp hmem
      have hentry := List.all_eq_true.mp hall lab hlab
      rw [Bool.and_eq_true] at hentry
      cases h.table.entry lab hlab with
      | defined _ _ hdefines hrefers => exact ⟨_, hdefines, hrefers place hplace⟩
      | pending haddress _ _ _ _ =>
        rw [haddress] at hentry
        exact absurd hentry.1 Bool.false_ne_true
    · cases hplaces : places (Item.refersTo []) items with
      | nil =>
        rw [hplaces] at hplace
        exact absurd hplace List.not_mem_nil
      | cons first rest =>
        rw [hplaces] at hplace hshort hthreaded
        obtain rfl := List.eq_nil_of_length_eq_zero (Nat.le_zero.mp (Nat.le_of_succ_le_succ hshort))
        rw [List.mem_singleton.mp hplace]
        exact Or.inl hthreaded
    · refine (h.blocks before after hsplit).resolve_right fun hmem ↦ ?_
      rw [hcmpend] at hmem
      exact absurd hmem List.not_mem_nil

end Items

/-- In a script that is accepted in some calls and can be finalized, every jump has its target if
and only if at most one `b` or `t` has no label. -/
theorem resolved_iff (calls : List (List Item)) (c : SedCommands)
    (hc : calls.foldlM SedCommands.sedCompileString sedInitCommands = .ok c)
    (hfinal : c.canbefinal = true) :
    Resolved calls.flatten c ↔ (places (Item.refersTo []) calls.flatten).length ≤ 1 := by
  obtain ⟨⟨tab, hcompiled⟩, hcheck⟩ := compiled_calls compiled_sedInitCommands rfl hc
  exact resolved_iff_of_compiled hcompiled (hcheck ▸ hfinal)

/-- A jump to a label that is defined in the next call, and one to the end. -/
def forwardCalls : List (List Item) := [[.branch false [97], .blockStart, .branch true []],
      [.blockEnd false, .label false [97]]]

theorem resolved_iff_forward :
    ∃ c, forwardCalls.foldlM SedCommands.sedCompileString sedInitCommands = .ok c ∧
    (Resolved forwardCalls.flatten c ↔
      (places (Item.refersTo []) forwardCalls.flatten).length ≤ 1) :=
  ⟨_, rfl, resolved_iff forwardCalls _ rfl rfl⟩

/-- Of two jumps to the end, the first one goes to the second. -/
theorem not_resolved_two : ¬ ∀ (calls : List (List Item)) (c : SedCommands),
    calls.foldlM SedCommands.sedCompileString sedInitCommands = .ok c → c.canbefinal = true →
      Resolved calls.flatten c := by
  intro hall
  have hresolved := hall [[.branch false [], .branch false []]] _ rfl rfl
  obtain hnone | hend := hresolved.unlabelled 0 (by decide)
  · exact Option.some_ne_none 1 hnone
  · exact absurd (Option.some.inj hend) (by decide)

end Userland.ModSed
