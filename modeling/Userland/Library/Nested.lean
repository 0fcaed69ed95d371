import Userland.Library.Separated
import Userland.Library.Traverse

/-!
# Nested lists as texts

A node has a head and children, and is printed as the head and the children, with a separator before
each child (`printNode`). If neither has the separator in it, a node that was printed is parsed
(`parseNode_printNode`), and so are nodes whose children are nodes again, each level with a
separator of its own.
-/

set_option autoImplicit false
set_option relaxedAutoImplicit false

namespace Userland.Library

variable {α β γ : Type}

/-- The text of a node. -/
def printNode (separator : α) (printHead : β → List α) (printChild : γ → List α)
    (node : β × List γ) : List α :=
  printHead node.1 ++ node.2.flatMap fun child ↦ separator :: printChild child

/-- The node of a text that is split at a separator. -/
def parseNode [DecidableEq α] (separator : α) (parseHead : List α → Option β)
    (parseChild : List α → Option γ) (text : List α) : Option (β × List γ) :=
  match text.splitOn separator with
  | [] => none
  | head :: pieces => do
    let head ← parseHead head
    let children ← pieces.mapM parseChild
    return (head, children)

variable {separator : α} {printHead : β → List α} {printChild : γ → List α}

theorem mem_printNode {node : β × List γ} {c : α} :
    c ∈ printNode separator printHead printChild node ↔
    c ∈ printHead node.1 ∨ ∃ child ∈ node.2, c = separator ∨ c ∈ printChild child := by
  simp only [printNode, List.mem_append, List.mem_flatMap, List.mem_cons]

theorem printNode_concat (head : β) (children : List γ) (last : γ) :
    printNode separator printHead printChild (head, children ++ [last]) =
      printNode separator printHead printChild (head, children) ++ separator ::
      printChild last := by
  simp [printNode]

theorem append_flatMap_eq_intercalate (separator : α) (first : List α) (pieces : List (List α)) :
    (first ++ pieces.flatMap fun piece ↦ separator :: piece) =
    [separator].intercalate (first :: pieces) := by
  induction pieces generalizing first with
  | nil => rw [List.flatMap_nil, List.append_nil, List.intercalate_singleton]
  | cons piece rest ih =>
    rw [List.flatMap_cons, List.intercalate_cons_cons, ← ih, List.append_assoc, List.cons_append,
      List.singleton_append]

theorem printNode_eq_intercalate (node : β × List γ) :
    printNode separator printHead printChild node =
    [separator].intercalate (printHead node.1 :: node.2.map printChild) := by
  rw [printNode, ← append_flatMap_eq_intercalate, List.flatMap_map]

variable [DecidableEq α] {parseHead : List α → Option β} {parseChild : List α → Option γ}

/-- A node that was printed is parsed. -/
theorem parseNode_printNode {node : β × List γ} (hhead : separator ∉ printHead node.1)
    (hchildren : ∀ child ∈ node.2, separator ∉ printChild child)
    (hparseHead : parseHead (printHead node.1) = some node.1)
    (hparseChild : ∀ child ∈ node.2, parseChild (printChild child) = some child) :
    parseNode separator parseHead parseChild (printNode separator printHead printChild node) =
    some node := by
  have hsplit : (printNode separator printHead printChild node).splitOn separator =
      printHead node.1 :: node.2.map printChild := by
    rw [printNode_eq_intercalate]
    refine List.splitOn_intercalate separator ?_ (List.cons_ne_nil _ _)
    intro piece hpiece
    rcases List.mem_cons.mp hpiece with rfl | hpiece
    · exact hhead
    · obtain ⟨child, hchild, rfl⟩ := List.mem_map.mp hpiece
      exact hchildren child hchild
  have hmap : (node.2.map printChild).mapM parseChild = some (node.2.map id) :=
    Traverse.mapM_map_eq_map hparseChild
  rw [parseNode, hsplit]
  dsimp only
  rw [hparseHead, hmap, List.map_id]
  rfl

/-- The head and the children of a node that was parsed come from pieces of the text that do not
have the separator in them. -/
theorem exists_of_parseNode {text : List α} {node : β × List γ}
    (h : parseNode separator parseHead parseChild text = some node) :
    (∃ head, separator ∉ head ∧ head ⊆ text ∧ parseHead head = some node.1) ∧
      ∀ child ∈ node.2, ∃ piece, separator ∉ piece ∧ piece ⊆ text ∧
      parseChild piece = some child := by
  unfold parseNode at h
  split at h
  · cases h
  next head pieces hsplit =>
    obtain ⟨first, hfirst, h⟩ := Option.bind_eq_some_iff.mp h
    obtain ⟨children, hpieces, h⟩ := Option.bind_eq_some_iff.mp h
    obtain rfl := Option.some.inj h
    have hmem : ∀ piece ∈ head :: pieces, separator ∉ piece ∧ piece ⊆ text :=
      fun piece hpiece ↦ of_mem_splitOn (hsplit ▸ hpiece)
    refine ⟨⟨head, (hmem head List.mem_cons_self).1, (hmem head List.mem_cons_self).2, hfirst⟩, ?_⟩
    intro child hchild
    obtain ⟨piece, hpiece, hparse⟩ := (Traverse.mem_mapM hpieces child).mp hchild
    have hpiece := hmem piece (List.mem_cons_of_mem _ hpiece)
    exact ⟨piece, hpiece.1, hpiece.2, hparse⟩

end Userland.Library
