import ScopeLowering.Machine.Queue
import ScopeLowering.Proofs.Magnitudes

/-!
# The most urgent item comes first

A queue never loses an item and never has one twice, and the item that is taken from it is one that
no other item comes before (`Queue.IsOrdered.next?`).

## The model

Which item comes before which is up to `before`. It has to be asymmetric, and what it leaves open
must be transitive: if `a` does not come before `b`, nor `b` before `c`, then `a` does not come
before `c` (`IsPriority`). Tasks meet that by their delays and, where these are level, by the order
in which they were deferred (`Task.isPriority_isBefore`). A delay that is not a number would not
compare with any other, so they must be numbers.
-/

namespace ScopeLowering

/-- Does `before` rank all items of which `P` is true? -/
structure IsPriority {α : Type} (before : α → α → Bool) (P : α → Prop) : Prop where
  asymm : ∀ {a b : α}, P a → P b → before a b = true → before b a = false
  trans : ∀ {a b c : α}, P a → P b → P c → before a b = false → before b c = false →
    before a c = false

/-! ### Heaps -/

namespace Heap

variable {α : Type} {before : α → α → Bool}

theorem perm_toList_link (top : α) (a b : Heap α) :
    (link top a b).toList.Perm (top :: (a.toList ++ b.toList)) := by
  unfold link
  split
  · exact .refl _
  · exact List.perm_append_comm.cons top

/-- Merging keeps all items, if merging the right part of the first heap does. -/
theorem perm_toList_mergeInto {k : Nat} {top : α} {l r : Heap α} {mergeRight : Heap α → Heap α}
    (hright : ∀ b, (mergeRight b).toList.Perm (r.toList ++ b.toList)) (b : Heap α) :
    (mergeInto before (node k top l r) top l mergeRight b).toList.Perm
      ((node k top l r).toList ++ b.toList) := by
  induction b with
  | empty => rw [mergeInto, toList.eq_1, List.append_nil]
  | node k' other l' r' _ ih =>
    unfold mergeInto
    split
    · refine (perm_toList_link ..).trans ?_
      refine .trans (.cons other ?_) List.perm_middle.symm
      exact (ih.append_left _).trans (List.perm_append_comm_assoc ..)
    · refine (perm_toList_link ..).trans ?_
      rw [toList, List.cons_append, List.append_assoc]
      exact ((hright _).append_left _).cons top

theorem perm_toList_merge (a b : Heap α) :
    (merge before a b).toList.Perm (a.toList ++ b.toList) := by
  induction a generalizing b with
  | empty => exact .refl _
  | node k top l r _ ih => exact perm_toList_mergeInto ih b

/-- Does no item come before one above it? -/
def IsOrdered (before : α → α → Bool) : Heap α → Prop
  | empty => True
  | node _ top l r => (∀ x ∈ l.toList ++ r.toList, before x top = false) ∧
    l.IsOrdered before ∧ r.IsOrdered before

theorem IsOrdered.link {top : α} {a b : Heap α} (ha : a.IsOrdered before)
    (hb : b.IsOrdered before) (htop : ∀ x ∈ a.toList ++ b.toList, before x top = false) :
    (link top a b).IsOrdered before := by
  unfold Heap.link
  split
  · exact ⟨htop, ha, hb⟩
  · exact ⟨fun x hx => htop x (List.perm_append_comm.mem_iff.mp hx), hb, ha⟩

section

variable {P : α → Prop} (hbefore : IsPriority before P)

include hbefore

/-- What is not before an item of a heap is not before those above it. -/
theorem IsOrdered.top {k : Nat} {top x : α} {l r : Heap α}
    (h : (node k top l r).IsOrdered before) (hP : ∀ y ∈ (node k top l r).toList, P y)
    (hx : x ∈ (node k top l r).toList) {y : α} (hy : P y) (htop : before top y = false) :
    before x y = false := by
  rcases List.mem_cons.mp hx with rfl | hx'
  · exact htop
  · exact hbefore.trans (hP x hx) (hP top List.mem_cons_self) hy (h.1 x hx') htop

theorem IsOrdered.mergeInto {k : Nat} {top : α} {l r : Heap α} {mergeRight : Heap α → Heap α}
    (ha : (node k top l r).IsOrdered before) (hPa : ∀ x ∈ (node k top l r).toList, P x)
    (hperm : ∀ b, (mergeRight b).toList.Perm (r.toList ++ b.toList))
    (hright : ∀ b : Heap α, b.IsOrdered before → (∀ x ∈ b.toList, P x) →
      (mergeRight b).IsOrdered before)
    {b : Heap α} (hb : b.IsOrdered before) (hPb : ∀ x ∈ b.toList, P x) :
    (mergeInto before (node k top l r) top l mergeRight b).IsOrdered before := by
  induction b with
  | empty => exact ha
  | node k' other l' r' _ ih =>
    have htop : P top := hPa top List.mem_cons_self
    have hother : P other := hPb other List.mem_cons_self
    have hPr : ∀ x ∈ r'.toList, P x := fun x hx =>
      hPb x (List.mem_cons_of_mem _ (List.mem_append_right _ hx))
    unfold Heap.mergeInto
    split
    · rename_i hlt
      refine .link hb.2.1 (ih hb.2.2 hPr) fun x hx => ?_
      have hnot : before top other = false := hbefore.asymm hother htop hlt
      rw [List.mem_append, (perm_toList_mergeInto hperm r').mem_iff, List.mem_append] at hx
      rcases hx with hx | hx | hx
      · exact hb.1 x (List.mem_append_left _ hx)
      · exact ha.top hbefore hPa hx hother hnot
      · exact hb.1 x (List.mem_append_right _ hx)
    · rename_i hlt
      refine .link ha.2.1 (hright _ hb hPb) fun x hx => ?_
      rw [List.mem_append, (hperm _).mem_iff, List.mem_append] at hx
      rcases hx with hx | hx | hx
      · exact ha.1 x (List.mem_append_left _ hx)
      · exact ha.1 x (List.mem_append_right _ hx)
      · exact hb.top hbefore hPb hx htop (Bool.eq_false_iff.mpr hlt)

theorem IsOrdered.merge {a b : Heap α} (ha : a.IsOrdered before) (hPa : ∀ x ∈ a.toList, P x)
    (hb : b.IsOrdered before) (hPb : ∀ x ∈ b.toList, P x) :
    (merge before a b).IsOrdered before := by
  induction a generalizing b with
  | empty => exact hb
  | node k top l r _ ih =>
    have hPr : ∀ x ∈ r.toList, P x := fun x hx =>
      hPa x (List.mem_cons_of_mem _ (List.mem_append_right _ hx))
    exact ha.mergeInto hbefore hPa (perm_toList_merge r)
      (fun b hb hPb => ih ha.2.2 hPr hb hPb) hb hPb

end

end Heap

/-! ### Queues -/

namespace Queue

variable {α : Type} {before : α → α → Bool} {P : α → Prop} {q : Queue α} {a : α}

/-- A new item joins the others. -/
theorem perm_toList_insert : (q.insert before a).toList.Perm (a :: q.toList) :=
  Heap.perm_toList_merge _ _

/-- Nothing is taken from a queue only if it has no items. -/
theorem next?_eq_none : q.next? before = none ↔ q.toList = [] := by
  unfold next? toList
  split
  · rename_i h
    simp [h, Heap.toList]
  · rename_i h
    simp [h, Heap.toList]

/-- Is the queue kept in order? -/
def IsOrdered (before : α → α → Bool) (q : Queue α) : Prop := q.heap.IsOrdered before

theorem IsOrdered.insert (hbefore : IsPriority before P) (hq : q.IsOrdered before)
    (hP : ∀ x ∈ a :: q.toList, P x) : (q.insert before a).IsOrdered before := by
  obtain ⟨ha, hrest⟩ := List.forall_mem_cons.mp hP
  refine Heap.IsOrdered.merge hbefore ⟨List.forall_mem_nil _, trivial, trivial⟩ ?_ hq hrest
  exact List.forall_mem_singleton.mpr ha

/-- The item that is taken is one that no other one comes before, and all others stay. -/
theorem IsOrdered.next? (hbefore : IsPriority before P) (hq : q.IsOrdered before)
    (hP : ∀ x ∈ q.toList, P x) {rest : Queue α} (h : q.next? before = some (a, rest)) :
    q.toList.Perm (a :: rest.toList) ∧ rest.IsOrdered before ∧
      ∀ x ∈ rest.toList, before x a = false := by
  obtain ⟨heap, size⟩ := q
  cases heap with
  | empty => cases h
  | node k top l r =>
    cases h
    have hperm : (Heap.merge before l r).toList.Perm (l.toList ++ r.toList) :=
      Heap.perm_toList_merge l r
    have hPl : ∀ x ∈ l.toList, P x := fun x hx =>
      hP x (List.mem_cons_of_mem _ (List.mem_append_left _ hx))
    have hPr : ∀ x ∈ r.toList, P x := fun x hx =>
      hP x (List.mem_cons_of_mem _ (List.mem_append_right _ hx))
    exact ⟨hperm.symm.cons _, Heap.IsOrdered.merge hbefore hq.2.1 hPl hq.2.2 hPr,
      fun x hx => hq.1 x (hperm.mem_iff.mp hx)⟩

end Queue

/-! ### Tasks -/

namespace Task

/-- Has a task the shorter delay, or was it deferred first where the delays are level? -/
def Precedes (t u : Task) : Prop :=
  t.delay.less u.delay = true ∨ t.delay.equals u.delay = true ∧ t.sequence < u.sequence

theorem isBefore_iff {t u : Task} : t.isBefore u = true ↔ t.Precedes u := by
  unfold isBefore Precedes Number.less Number.equals
  cases t.delay.order? u.delay with
  | none => simp
  | some o => cases o <;> simp

/-- Tasks are ordered by tiers, whole numbers and sequence numbers, one after the other. -/
theorem isBefore_iff_scaled {t u : Task} (ht : t.delay.isNaN = false) (hu : u.delay.isNaN = false)
    {base : Int} (hbase : base ≤ t.delay.parts.exponent ∧ base ≤ u.delay.parts.exponent) :
    t.isBefore u = true ↔ t.delay.parts.tier < u.delay.parts.tier ∨
      t.delay.parts.tier = u.delay.parts.tier ∧
        (t.delay.parts.scaled base < u.delay.parts.scaled base ∨
          t.delay.parts.scaled base = u.delay.parts.scaled base ∧ t.sequence < u.sequence) := by
  rw [isBefore_iff, Precedes, Number.less_iff ht hu hbase, Number.equals_iff ht hu hbase]
  omega

/-- Tasks whose delays are numbers are ranked. -/
theorem isPriority_isBefore : IsPriority isBefore fun t => t.delay.isNaN = false := by
  constructor
  · intro t u ht hu h
    have hbase := And.intro (Int.min_le_left t.delay.parts.exponent u.delay.parts.exponent)
      (Int.min_le_right t.delay.parts.exponent u.delay.parts.exponent)
    rw [isBefore_iff_scaled ht hu hbase] at h
    rw [← Bool.not_eq_true, isBefore_iff_scaled hu ht hbase.symm]
    omega
  · intro t u v ht hu hv htu huv
    obtain ⟨base, ht', hu', hv'⟩ : ∃ base, base ≤ t.delay.parts.exponent ∧
        base ≤ u.delay.parts.exponent ∧ base ≤ v.delay.parts.exponent :=
      ⟨min t.delay.parts.exponent (min u.delay.parts.exponent v.delay.parts.exponent), by omega⟩
    rw [← Bool.not_eq_true, isBefore_iff_scaled ht hu ⟨ht', hu'⟩] at htu
    rw [← Bool.not_eq_true, isBefore_iff_scaled hu hv ⟨hu', hv'⟩] at huv
    rw [← Bool.not_eq_true, isBefore_iff_scaled ht hv ⟨ht', hv'⟩]
    omega

/-- Of two tasks one precedes the other. -/
theorem precedes_of_isBefore_eq_false {t u : Task} (ht : t.delay.isNaN = false)
    (hu : u.delay.isNaN = false) (hne : t.sequence ≠ u.sequence) (h : u.isBefore t = false) :
    t.Precedes u := by
  have hbase := And.intro (Int.min_le_left t.delay.parts.exponent u.delay.parts.exponent)
    (Int.min_le_right t.delay.parts.exponent u.delay.parts.exponent)
  rw [← Bool.not_eq_true, isBefore_iff_scaled hu ht hbase.symm] at h
  rw [← isBefore_iff, isBefore_iff_scaled ht hu hbase]
  omega

end Task

end ScopeLowering
