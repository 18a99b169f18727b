import Mathlib.Tactic.Common

/-!
# Lists that share their tails

A node has an entry and a pointer to its parent.  Nodes are allocated and never changed, and a new
node points to one that exists, so every pointer denotes a list, that of the entries from its node
on.  Allocating a node puts an entry in front of the list of its parent, and leaves the lists of
all other pointers as they are.
-/

namespace SharedList

variable {α β : Type}

structure Node (α : Type) where
  entry : α
  parent : Option Nat

/-- Nodes that point to older ones. -/
structure Store (α : Type) where
  nodes : List (Node α)
  older : ∀ (i : Nat) (node : Node α) (p : Nat), nodes[i]? = some node →
    node.parent = some p → p < i

namespace Store

def empty : Store α := ⟨[], fun _ _ _ h => by cases h⟩

/-- The pointer is null, or there is a node for it. -/
def Live (store : Store α) (r : Option Nat) : Prop := ∀ i, r = some i → i < store.nodes.length

instance (store : Store α) (r : Option Nat) : Decidable (store.Live r) :=
  decidable_of_iff (r.all (· < store.nodes.length) = true) (by cases r <;> simp [Live])

/-- A node in front of the list of `parent`.  The pointer to it is the number of the nodes there
were. -/
def alloc (store : Store α) (entry : α) (parent : Option Nat) (h : store.Live parent) :
    Store α where
  nodes := store.nodes ++ [⟨entry, parent⟩]
  older i node p hnode hparent := by
    rcases Nat.lt_trichotomy i store.nodes.length with hlt | heq | hgt
    · rw [List.getElem?_append_left hlt] at hnode
      exact store.older i node p hnode hparent
    · rw [heq, List.getElem?_concat_length, Option.some.injEq] at hnode
      rw [heq]
      exact h p (by rw [← hparent, ← hnode])
    · rw [List.getElem?_append_right (Nat.le_of_lt hgt),
        List.getElem?_eq_none (Nat.sub_pos_of_lt hgt)] at hnode
      cases hnode

/-- How far a pointer is from null. -/
def rank (r : Option Nat) : Nat := r.elim 0 (· + 1)

theorem rank_parent_lt (store : Store α) {i : Nat} {node : Node α}
    (h : store.nodes[i]? = some node) : rank node.parent < rank (some i) := by
  cases hparent : node.parent with
  | none => exact Nat.succ_pos i
  | some p => exact Nat.succ_lt_succ (store.older i node p h hparent)

/-- Follow the parents from a pointer to the first entry that gives something. -/
def search (store : Store α) (f : α → Option β) : Option Nat → Option β
  | none => none
  | some i =>
    match _h : store.nodes[i]? with
    | none => none
    | some node =>
      match f node.entry with
      | some b => some b
      | none => search store f node.parent
termination_by r => rank r
decreasing_by exact rank_parent_lt store _h

/-- The list a pointer denotes. -/
def entries (store : Store α) : Option Nat → List α
  | none => []
  | some i =>
    match _h : store.nodes[i]? with
    | none => []
    | some node => node.entry :: entries store node.parent
termination_by r => rank r
decreasing_by exact rank_parent_lt store _h

variable {store : Store α} {r : Option Nat}

theorem live_none : store.Live none := fun _ h => by cases h

theorem entries_none : store.entries none = [] := by rw [entries]

theorem entries_some {i : Nat} {node : Node α} (h : store.nodes[i]? = some node) :
    store.entries (some i) = node.entry :: store.entries node.parent := by
  rw [entries]
  split
  · rename_i hnone
    rw [h] at hnone
    cases hnone
  · rename_i node' hnode
    rw [h, Option.some.injEq] at hnode
    rw [hnode]

/-- A search finds the first entry of the list. -/
theorem search_eq (store : Store α) (f : α → Option β) (r : Option Nat) :
    store.search f r = (store.entries r).findSome? f := by
  fun_induction search store f r with
  | case1 => rw [entries_none, List.findSome?_nil]
  | case2 i h =>
    rw [entries]
    split
    · rfl
    · rename_i hnode
      rw [h] at hnode
      cases hnode
  | case3 i node h b hb => rw [entries_some h, List.findSome?_cons, hb]
  | case4 i node h hnone ih => rw [entries_some h, List.findSome?_cons, hnone, ih]

theorem live_parent {i : Nat} {node : Node α} (h : store.nodes[i]? = some node) :
    store.Live node.parent := by
  intro p hp
  have hlt := store.older i node p h hp
  have hlength := (List.getElem?_eq_some_iff.mp h).1
  omega

section Alloc

variable {parent : Option Nat} (entry : α) (h : store.Live parent)

theorem length_alloc : (store.alloc entry parent h).nodes.length = store.nodes.length + 1 := by
  rw [alloc, List.length_append, List.length_singleton]

theorem live_alloc (hr : store.Live r) : (store.alloc entry parent h).Live r := by
  intro i hi
  have hlt := hr i hi
  rw [length_alloc]
  omega

theorem live_new : (store.alloc entry parent h).Live (some store.nodes.length) := by
  intro i hi
  obtain rfl := Option.some.inj hi
  rw [length_alloc]
  exact Nat.lt_succ_self _

/-- The lists there were are the same.  The induction goes along the parents, which are older
than the new node. -/
theorem entries_alloc (hr : store.Live r) :
    (store.alloc entry parent h).entries r = store.entries r := by
  induction hn : rank r using Nat.strongRecOn generalizing r with
  | ind n ih =>
    cases r with
    | none => rw [entries_none, entries_none]
    | some i =>
      have hlt := hr i rfl
      have hnode : store.nodes[i]? = some store.nodes[i] := List.getElem?_eq_getElem hlt
      have hnode' : (store.alloc entry parent h).nodes[i]? = some store.nodes[i] := by
        rw [alloc, List.getElem?_append_left hlt, hnode]
      rw [entries_some hnode, entries_some hnode']
      congr 1
      exact ih _ (hn ▸ rank_parent_lt store hnode) (live_parent hnode) rfl

/-- The new node puts its entry in front of the list of its parent. -/
theorem entries_new :
    (store.alloc entry parent h).entries (some store.nodes.length) =
      entry :: store.entries parent := by
  have hnode : (store.alloc entry parent h).nodes[store.nodes.length]? = some ⟨entry, parent⟩ :=
    List.getElem?_concat_length
  rw [entries_some hnode, entries_alloc entry h h]

end Alloc

end Store

end SharedList
