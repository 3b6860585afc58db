/-!
# Queues by urgency

Items that wait, of which the most urgent one is taken first. What is more urgent is a parameter,
`before`.

## The model

The items are kept in a leftist heap: every item comes before those below it, and the way down to
the right is never longer than the one to the left. So two heaps are merged along their right edges,
in as many steps as the logarithm of their size.
-/

namespace ScopeLowering

/-- A heap, with the length of its right edge. -/
inductive Heap (α : Type) where
  | empty
  | node (rank : Nat) (top : α) (left right : Heap α)
  deriving Inhabited

namespace Heap

variable {α : Type}

/-- The length of the right edge. -/
def rank : Heap α → Nat
  | empty => 0
  | node k .. => k

/-- An item above two heaps. The one with the longer right edge goes to the left. -/
def link (top : α) (a b : Heap α) : Heap α :=
  if b.rank ≤ a.rank then node (b.rank + 1) top a b else node (a.rank + 1) top b a

/-- Merge a heap, whose top and left part are given, into another one. How its right part is merged
is a parameter. -/
def mergeInto (before : α → α → Bool) (whole : Heap α) (top : α) (left : Heap α)
    (mergeRight : Heap α → Heap α) : Heap α → Heap α
  | empty => whole
  | node k other l r =>
    if before other top then link other l (mergeInto before whole top left mergeRight r)
    else link top left (mergeRight (node k other l r))

/-- All items of two heaps. -/
def merge (before : α → α → Bool) : Heap α → Heap α → Heap α
  | empty => id
  | node k top l r => mergeInto before (node k top l r) top l (merge before r)

/-- The items, each before those below it. -/
def toList : Heap α → List α
  | empty => []
  | node _ top l r => top :: (l.toList ++ r.toList)

end Heap

/-- Items that wait, and how many they are. -/
structure Queue (α : Type) where
  heap : Heap α := .empty
  size : Nat := 0
  deriving Inhabited

namespace Queue

variable {α : Type}

/-- The queue with one more item. -/
def insert (before : α → α → Bool) (q : Queue α) (a : α) : Queue α :=
  ⟨Heap.merge before (.node 1 a .empty .empty) q.heap, q.size + 1⟩

/-- The most urgent item, and the others. -/
def next? (before : α → α → Bool) (q : Queue α) : Option (α × Queue α) :=
  match q.heap with
  | .empty => none
  | .node _ a l r => some (a, ⟨Heap.merge before l r, q.size - 1⟩)

/-- The items, in no particular order. -/
def toList (q : Queue α) : List α := q.heap.toList

end Queue

end ScopeLowering
