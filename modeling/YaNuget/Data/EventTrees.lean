import Mathlib.Data.Nat.Notation
import Mathlib.Data.List.Basic

/-!
# Trees and their events

A reader of a document with nested elements reports where an element starts and
where it ends, and what stands between them. The reports of a document whose
elements are all closed are the walk over a tree.
-/
namespace YaNuget.EventTrees

/-- What a reader reports; `empty` is an element without an end of its own. -/
inductive Event (τ ν κ : Type) where
  | start (tag : τ)
  | empty (tag : τ)
  | close (name : ν)
  | leaf (leaf : κ)

/-- The nodes under one parent, from the first on. -/
inductive Nodes (τ κ : Type) where
  | nil
  | element (tag : τ) (children rest : Nodes τ κ)
  | selfClosing (tag : τ) (rest : Nodes τ κ)
  | leaf (leaf : κ) (rest : Nodes τ κ)

variable {τ ν κ : Type}

namespace Nodes

def elements : Nodes τ κ → List (τ × Nodes τ κ)
  | nil => []
  | element tag children rest => (tag, children) :: rest.elements
  | selfClosing tag rest => (tag, nil) :: rest.elements
  | leaf _ rest => rest.elements

def depth : Nodes τ κ → ℕ
  | nil => 0
  | element _ children rest => max (children.depth + 1) rest.depth
  | selfClosing _ rest => max 1 rest.depth
  | leaf _ rest => rest.depth

/-- The tags of all elements, nested ones included. -/
def tags : Nodes τ κ → List τ
  | nil => []
  | element tag children rest => tag :: children.tags ++ rest.tags
  | selfClosing tag rest => tag :: rest.tags
  | leaf _ rest => rest.tags

/-- One of the nodes is an element without an end of its own. -/
def hasSelfClosing : Nodes τ κ → Bool
  | nil => false
  | element _ _ rest => rest.hasSelfClosing
  | selfClosing _ _ => true
  | leaf _ rest => rest.hasSelfClosing

theorem exists_of_hasSelfClosing (nodes : Nodes τ κ) (h : nodes.hasSelfClosing) :
    ∃ tag, (tag, nil) ∈ nodes.elements := by
  induction nodes with
  | nil => simp [hasSelfClosing] at h
  | element tag children rest _ ih =>
    obtain ⟨tag', htag⟩ := ih h
    exact ⟨tag', List.mem_cons_of_mem _ htag⟩
  | selfClosing tag rest _ => exact ⟨tag, List.mem_cons_self⟩
  | leaf l rest ih => exact ih h

/-- The walk over the nodes. -/
def events (name : τ → ν) : Nodes τ κ → List (Event τ ν κ)
  | nil => []
  | element tag children rest =>
    .start tag :: (children.events name ++ .close (name tag) :: rest.events name)
  | selfClosing tag rest => .empty tag :: rest.events name
  | leaf l rest => .leaf l :: rest.events name

end Nodes

/-- The names of the elements left open, none if an element ends that is not the
innermost one. -/
def openTags [DecidableEq ν] (name : τ → ν) : List ν → List (Event τ ν κ) → Option (List ν)
  | names, [] => some names
  | names, .start tag :: es => openTags name (name tag :: names) es
  | names, .empty _ :: es => openTags name names es
  | names, .leaf _ :: es => openTags name names es
  | [], .close _ :: _ => none
  | m :: names, .close n :: es => if m = n then openTags name names es else none

/-- An element without an end of its own stands outside all others, which are `depth` many. -/
def topSelfClosing : ℕ → List (Event τ ν κ) → Bool
  | _, [] => false
  | depth, .start _ :: es => topSelfClosing (depth + 1) es
  | depth, .empty _ :: es => depth = 0 || topSelfClosing depth es
  | depth, .leaf _ :: es => topSelfClosing depth es
  | depth, .close _ :: es => topSelfClosing (depth - 1) es

section Events

variable {name : τ → ν} {nodes : Nodes τ κ} {es : List (Event τ ν κ)}

theorem topSelfClosing_events_succ (nodes : Nodes τ κ) (depth : ℕ) (es : List (Event τ ν κ)) :
    topSelfClosing (depth + 1) (nodes.events name ++ es) = topSelfClosing (depth + 1) es := by
  induction nodes generalizing depth es with
  | nil => rfl
  | element tag children rest ihc ihr =>
    simp only [Nodes.events, List.cons_append, List.append_assoc, topSelfClosing]
    rw [ihc (depth + 1)]
    exact ihr depth es
  | selfClosing tag rest ih => simpa [Nodes.events, topSelfClosing] using ih depth es
  | leaf l rest ih => exact ih depth es

theorem topSelfClosing_events (nodes : Nodes τ κ) (es : List (Event τ ν κ)) :
    topSelfClosing 0 (nodes.events name ++ es) =
      (nodes.hasSelfClosing || topSelfClosing 0 es) := by
  induction nodes generalizing es with
  | nil => rfl
  | element tag children rest _ ihr =>
    simp only [Nodes.events, List.cons_append, List.append_assoc, topSelfClosing]
    rw [topSelfClosing_events_succ]
    exact ihr es
  | selfClosing tag rest _ => simp [Nodes.events, topSelfClosing, Nodes.hasSelfClosing]
  | leaf l rest ih => exact ih es

/-- The rest of a document in which `names` are open: the nodes that are left of each, from the
innermost on. -/
inductive Unfolds (name : τ → ν) : List ν → List (Event τ ν κ) → Prop
  | top (nodes : Nodes τ κ) : Unfolds name [] (nodes.events name)
  | inner {n names es} (nodes : Nodes τ κ) (h : Unfolds name names es) :
    Unfolds name (n :: names) (nodes.events name ++ .close n :: es)

theorem Unfolds.element {names : List ν} (h : Unfolds name names es) (tag : τ)
    (children : Nodes τ κ) :
    Unfolds name names (.start tag :: (children.events name ++ .close (name tag) :: es)) := by
  cases h with
  | top nodes => exact .top (.element tag children nodes)
  | @inner n names es nodes h =>
    have hinner : Unfolds name (n :: names)
        ((Nodes.element tag children nodes).events name ++ .close n :: es) := .inner _ h
    simpa [Nodes.events] using hinner

variable [DecidableEq ν]

theorem openTags_events (nodes : Nodes τ κ) (names : List ν) (es : List (Event τ ν κ)) :
    openTags name names (nodes.events name ++ es) = openTags name names es := by
  induction nodes generalizing names es with
  | nil => rfl
  | element tag children rest ihc ihr =>
    simp only [Nodes.events, List.cons_append, List.append_assoc, openTags]
    rw [ihc]
    simp only [openTags, if_true]
    exact ihr names es
  | selfClosing tag rest ih => exact ih names es
  | leaf l rest ih => exact ih names es

/-- What a reader that matches ends with starts reports of a document, up to the end of all
elements, are the events of nodes. -/
theorem unfolds_of_openTags {names : List ν} (h : openTags name names es = some []) :
    Unfolds name names es := by
  induction es generalizing names with
  | nil =>
    obtain rfl := Option.some.inj h
    exact .top .nil
  | cons e es ih =>
    cases e with
    | start tag =>
      cases ih h with
      | inner nodes hrest => exact hrest.element tag nodes
    | empty tag =>
      cases ih h with
      | top nodes => exact .top (.selfClosing tag nodes)
      | inner nodes hrest => exact .inner (.selfClosing tag nodes) hrest
    | leaf l =>
      cases ih h with
      | top nodes => exact .top (.leaf l nodes)
      | inner nodes hrest => exact .inner (.leaf l nodes) hrest
    | close n =>
      cases names with
      | nil => simp [openTags] at h
      | cons m names =>
        simp only [openTags] at h
        split at h
        next heq =>
          subst heq
          exact .inner .nil (ih h)
        · simp at h

theorem exists_nodes (h : openTags name [] es = some []) : ∃ nodes, es = Nodes.events name nodes := by
  cases unfolds_of_openTags h with
  | top nodes => exact ⟨nodes, rfl⟩

theorem openTags_of_events (nodes : Nodes τ κ) : openTags name [] (nodes.events name) = some [] := by
  have h : openTags name [] (nodes.events name ++ []) = some [] := openTags_events nodes [] []
  rwa [List.append_nil] at h

end Events

end YaNuget.EventTrees
