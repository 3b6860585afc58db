import Mathlib.Logic.Relation
import Mathlib.Order.Bounds.Basic
import ScopeLowering.Machine.Run
import ScopeLowering.Proofs.Timing

/-!
# The first moment at which code can run

Code inside a function runs when the function is called. A function with a handle is called where
the handle is read, and such a read may itself be inside a function with a handle, and so on, in
circles too. The search for the first moment (`Scoping.effectivePosition`) follows this web from one
binding to the next and never enters a binding that it is already following.

What it finds is the first of all moments that the web leads to, over any number of handles
(`Scoping.effectivePosition_isLeast`). Giving up on a binding that is being followed loses nothing:
whatever lies behind it, the search that entered it first will find. The web is not all there is: a
function can also be called through the value of an assignment, which is no handle
(`callingScript_dead`).

## The model

`Scoping.Leads` is the web itself, without a search: places in the code, handles, and the moments at
which a way ends. `Scoping.Calls` says which searches a search starts, without the bound on their
number that the definition carries; that every chain of them ends is part of the theorem. A chain
can be as long as there are bindings, and the stack is taken to suffice for it.
-/

namespace ScopeLowering

/-! ### Moments in order -/

namespace Moment

/-- Is the first moment no later than the second? -/
def IsAtMost : Moment → Moment → Prop
  | earliest, _ => True
  | _, never => True
  | point a, point b => a ≤ b
  | _, _ => False

instance : PartialOrder Moment where
  le := IsAtMost
  le_refl a := by cases a <;> simp [IsAtMost]
  le_trans a b c := by
    cases a <;> cases b <;> cases c <;> simp [IsAtMost]
    exact Int.le_trans
  le_antisymm a b := by
    cases a <;> cases b <;> simp [IsAtMost]
    exact Int.le_antisymm

theorem le_never (m : Moment) : m ≤ never := by
  cases m <;> trivial

theorem earliest_le (m : Moment) : earliest ≤ m := trivial

theorem point_le_point {a b : Int} : point a ≤ point b ↔ a ≤ b := Iff.rfl

/-- The earlier of two moments is one of them. -/
theorem first_eq_or (a b : Moment) : a.first b = a ∨ a.first b = b := by
  cases a <;> cases b <;> simp [first]
  omega

/-- The earlier of two moments is not after either. -/
theorem first_le (a b : Moment) : a.first b ≤ a ∧ a.first b ≤ b := by
  cases a <;> cases b <;> simp [first, le_never, earliest_le, point_le_point]

/-! The first of some moments is the least of them, and `never` if there are none. -/

theorem isLeast_empty : IsLeast (insert never ∅) never := by simp

theorem isLeast_singleton (m : Moment) : IsLeast (insert never {m}) m := by
  constructor
  · exact Set.mem_insert_of_mem _ rfl
  · rintro m' (rfl | rfl)
    · exact le_never _
    · exact le_refl _

theorem isLeast_first {A B : Set Moment} {a b : Moment} (ha : IsLeast (insert never A) a)
    (hb : IsLeast (insert never B) b) : IsLeast (insert never (A ∪ B)) (a.first b) := by
  have hsub : insert never A ⊆ insert never (A ∪ B) :=
    Set.insert_subset_insert Set.subset_union_left
  have hsub' : insert never B ⊆ insert never (A ∪ B) :=
    Set.insert_subset_insert Set.subset_union_right
  constructor
  · rcases first_eq_or a b with h | h
    · rw [h]
      exact hsub ha.1
    · rw [h]
      exact hsub' hb.1
  · rintro m (rfl | hm | hm)
    · exact le_never _
    · exact (first_le a b).1.trans (ha.2 (Set.mem_insert_of_mem _ hm))
    · exact (first_le a b).2.trans (hb.2 (Set.mem_insert_of_mem _ hm))

theorem isLeast_foldl {α : Type} {f : α → Moment} {F : α → Set Moment} {xs : List α}
    (h : ∀ x ∈ xs, IsLeast (insert never (F x)) (f x)) {A : Set Moment} {a : Moment}
    (ha : IsLeast (insert never A) a) :
    IsLeast (insert never (A ∪ {m | ∃ x ∈ xs, m ∈ F x}))
      (xs.foldl (fun m x => m.first (f x)) a) := by
  induction xs generalizing A a with
  | nil => simpa using ha
  | cons x rest ih =>
    obtain ⟨hx, hrest⟩ := List.forall_mem_cons.mp h
    have hstep := ih hrest (isLeast_first ha hx)
    have hset : A ∪ F x ∪ {m | ∃ y ∈ rest, m ∈ F y} = A ∪ {m | ∃ y ∈ x :: rest, m ∈ F y} := by
      ext m
      simp [or_assoc]
    rw [hset] at hstep
    exact hstep

end Moment

/-! ### The web of handles -/

/-- A station on the way from code to the moments at which it can run. -/
inductive Station where
  /-- A place in the code. -/
  | spot (scope : ScopeId) (offset : Int)
  /-- A binding through which a function is called. -/
  | handle (id : BindingId)
  /-- The end of a way. -/
  | moment (m : Moment)

namespace Scoping

section

variable (s : Scoping) (region : ScopeId) (ready : Int)

/-- Where one gets from a station, seen from a region in which a declaration is ready at an
offset. -/
inductive Leads : Station → Station → Prop where
  /-- Code directly in the region runs where it stands. -/
  | direct {scope : ScopeId} {offset : Int} (h : s.graph.functionsBetween scope region = []) :
    Leads (.spot scope offset) (.moment (.point offset))
  /-- The outermost function around the code is made late enough, or no binding is its handle. -/
  | made {scope : ScopeId} {offset : Int} {f : ScopeId}
    (hf : (s.graph.functionsBetween scope region).getLast? = some f)
    (h : ready ≤ creation s.graph f ∨ handleBinding s.graph f = none) :
    Leads (.spot scope offset) (.moment (.point (creation s.graph f)))
  /-- The outermost function around the code is made early, and called through its handle. -/
  | called {scope : ScopeId} {offset : Int} {f : ScopeId} {id : BindingId}
    (hf : (s.graph.functionsBetween scope region).getLast? = some f)
    (hmade : creation s.graph f < ready) (hid : handleBinding s.graph f = some id) :
    Leads (.spot scope offset) (.handle id)
  /-- The handle is read in the region. -/
  | read {id : BindingId} {b : Binding} {r : Reference} (hb : s.table.bindings[id]? = some b)
    (hr : r ∈ b.reads) (hin : s.graph.isWithin r.scope region = true) :
    Leads (.handle id) (.spot r.scope r.position)
  /-- The handle is read outside of the region, at any time. -/
  | escaped {id : BindingId} {b : Binding} {r : Reference} (hb : s.table.bindings[id]? = some b)
    (hr : r ∈ b.reads) (hout : s.graph.isWithin r.scope region = false) :
    Leads (.handle id) (.moment .earliest)

/-- All moments that a place in the code leads to. -/
def moments (scope : ScopeId) (offset : Int) : Set Moment :=
  {m | Relation.ReflTransGen (s.Leads region ready) (.spot scope offset) (.moment m)}

/-- Where one gets from a station without entering some handles. -/
def LeadsOff (closed : List BindingId) (a b : Station) : Prop :=
  s.Leads region ready a b ∧ ∀ id ∈ closed, b ≠ .handle id

/-- All moments that a station leads to without entering some handles. -/
def momentsOff (closed : List BindingId) (a : Station) : Set Moment :=
  {m | Relation.ReflTransGen (s.LeadsOff region ready closed) a (.moment m)}

/-- The moments that a read of a handle leads to without entering some handles. -/
def readMoments (closed : List BindingId) (r : Reference) : Set Moment :=
  if s.graph.isWithin r.scope region then
    s.momentsOff region ready closed (.spot r.scope r.position)
  else {.earliest}

/-- The reads of a binding, if there is such a binding. -/
def readsOf (id : BindingId) : List Reference := (s.table.bindings[id]?.map (·.reads)).getD []

end

variable {s : Scoping} {region : ScopeId} {ready : Int} {closed : List BindingId}
  {scope f : ScopeId} {offset : Int} {id : BindingId} {m : Moment}

theorem mem_readsOf {r : Reference} :
    r ∈ s.readsOf id ↔ ∃ b, s.table.bindings[id]? = some b ∧ r ∈ b.reads := by
  unfold readsOf
  cases s.table.bindings[id]? <;> simp

/-- A way from a station that is not a moment goes on. -/
theorem mem_momentsOff_iff {a : Station} (h : a ≠ .moment m) :
    m ∈ s.momentsOff region ready closed a ↔
      ∃ b, s.LeadsOff region ready closed a b ∧ m ∈ s.momentsOff region ready closed b := by
  constructor
  · intro hm
    rcases Relation.ReflTransGen.cases_head hm with he | ⟨b, hb, hrest⟩
    · exact absurd he h
    · exact ⟨b, hb, hrest⟩
  · rintro ⟨b, hb, hrest⟩
    exact Relation.ReflTransGen.head hb hrest

/-- A moment leads nowhere else. -/
theorem mem_momentsOff_moment {m' : Moment} :
    m ∈ s.momentsOff region ready closed (.moment m') ↔ m = m' := by
  constructor
  · intro hm
    rcases Relation.ReflTransGen.cases_head hm with he | ⟨b, ⟨hb, _⟩, _⟩
    · cases he
      rfl
    · cases hb
  · rintro rfl
    exact .refl

theorem momentsOff_direct (h : s.graph.functionsBetween scope region = []) :
    s.momentsOff region ready closed (.spot scope offset) = {.point offset} := by
  ext m
  rw [mem_momentsOff_iff (a := .spot scope offset) (by simp), Set.mem_singleton_iff]
  constructor
  · rintro ⟨b, ⟨hb, _⟩, hm⟩
    cases hb with
    | direct => exact mem_momentsOff_moment.mp hm
    | made hf | called hf => simp [h] at hf
  · rintro rfl
    exact ⟨_, ⟨.direct h, by simp⟩, mem_momentsOff_moment.mpr rfl⟩

section

variable (hf : (s.graph.functionsBetween scope region).getLast? = some f)
include hf

theorem momentsOff_made (h : ready ≤ creation s.graph f ∨ handleBinding s.graph f = none) :
    s.momentsOff region ready closed (.spot scope offset) = {.point (creation s.graph f)} := by
  ext m
  rw [mem_momentsOff_iff (a := .spot scope offset) (by simp), Set.mem_singleton_iff]
  constructor
  · rintro ⟨b, ⟨hb, _⟩, hm⟩
    cases hb with
    | direct hd => simp [hd] at hf
    | made hf' =>
      rw [hf] at hf'
      cases hf'
      exact mem_momentsOff_moment.mp hm
    | called hf' hmade hid =>
      rw [hf] at hf'
      cases hf'
      rcases h with h | h
      · omega
      · rw [h] at hid
        cases hid
  · rintro rfl
    exact ⟨_, ⟨.made hf h, by simp⟩, mem_momentsOff_moment.mpr rfl⟩

/-- Code in a function that is made early leads to its handle, if that may be entered. -/
theorem mem_momentsOff_called (hmade : creation s.graph f < ready)
    (hid : handleBinding s.graph f = some id) :
    m ∈ s.momentsOff region ready closed (.spot scope offset) ↔
      id ∉ closed ∧ m ∈ s.momentsOff region ready closed (.handle id) := by
  rw [mem_momentsOff_iff (a := .spot scope offset) (by simp)]
  constructor
  · rintro ⟨b, ⟨hb, hopen⟩, hm⟩
    cases hb with
    | direct hd => simp [hd] at hf
    | made hf' h =>
      rw [hf] at hf'
      cases hf'
      rcases h with h | h
      · omega
      · rw [h] at hid
        cases hid
    | called hf' _ hid' =>
      rw [hf] at hf'
      cases hf'
      rw [hid] at hid'
      cases hid'
      exact ⟨fun hclosed => hopen id hclosed rfl, hm⟩
  · rintro ⟨hopen, hm⟩
    refine ⟨_, ⟨.called hf hmade hid, ?_⟩, hm⟩
    rintro x hx ⟨⟩
    exact hopen hx

end

theorem mem_momentsOff_handle :
    m ∈ s.momentsOff region ready closed (.handle id) ↔
      ∃ r ∈ s.readsOf id, m ∈ s.readMoments region ready closed r := by
  rw [mem_momentsOff_iff (a := .handle id) (by simp)]
  unfold readMoments
  constructor
  · rintro ⟨b, ⟨hb, _⟩, hm⟩
    cases hb with
    | read hb hr hin => exact ⟨_, mem_readsOf.mpr ⟨_, hb, hr⟩, by rwa [if_pos hin]⟩
    | escaped hb hr hout =>
      refine ⟨_, mem_readsOf.mpr ⟨_, hb, hr⟩, ?_⟩
      rw [hout]
      exact mem_momentsOff_moment.mp hm
  · rintro ⟨r, hr, hm⟩
    obtain ⟨b, hb, hr⟩ := mem_readsOf.mp hr
    cases hin : s.graph.isWithin r.scope region with
    | true =>
      rw [hin] at hm
      exact ⟨_, ⟨.read hb hr hin, by simp⟩, hm⟩
    | false =>
      rw [hin] at hm
      exact ⟨_, ⟨.escaped hb hr hin, by simp⟩, mem_momentsOff_moment.mpr hm⟩

/-! ### Circles -/

/-- A way that may enter a handle either does not, or ends with a way from the handle that does not
enter it again. -/
theorem avoid_or_leave (id : BindingId) {a : Station} (h : m ∈ s.momentsOff region ready closed a) :
    m ∈ s.momentsOff region ready (id :: closed) a ∨
      ∃ b, s.LeadsOff region ready closed (.handle id) b ∧
        m ∈ s.momentsOff region ready (id :: closed) b := by
  induction h using Relation.ReflTransGen.head_induction_on with
  | refl => exact .inl .refl
  | @head a b hab hrest ih =>
    rcases ih with hm | hm
    · by_cases hb : b = .handle id
      · -- the handle is entered here, and not later on the way
        subst hb
        obtain ⟨c, hc, hm⟩ := (mem_momentsOff_iff (by simp)).mp hm
        refine .inr ⟨c, ⟨hc.1, fun x hx => hc.2 x (List.mem_cons_of_mem _ hx)⟩, hm⟩
      · refine .inl (Relation.ReflTransGen.head ⟨hab.1, ?_⟩ hm)
        exact List.forall_mem_cons.mpr ⟨hb, hab.2⟩
    · exact .inr hm

theorem momentsOff_mono {closed' : List BindingId} (h : closed ⊆ closed') (a : Station) :
    s.momentsOff region ready closed' a ⊆ s.momentsOff region ready closed a := fun _ hm =>
  Relation.ReflTransGen.mono (fun _ _ hab => ⟨hab.1, fun x hx => hab.2 x (h hx)⟩) _ _ hm

/-- From a handle one gets nowhere by coming back to it. -/
theorem momentsOff_handle (id : BindingId) :
    s.momentsOff region ready closed (.handle id) =
      {m | ∃ r ∈ s.readsOf id, m ∈ s.readMoments region ready (id :: closed) r} := by
  ext m
  refine Iff.trans ?_ mem_momentsOff_handle
  constructor
  · intro hm
    rcases avoid_or_leave id hm with hm | ⟨b, hb, hm⟩
    · exact hm
    · refine Relation.ReflTransGen.head ⟨hb.1, List.forall_mem_cons.mpr ⟨?_, hb.2⟩⟩ hm
      rintro rfl
      cases hb.1
  · exact fun hm => momentsOff_mono (List.subset_cons_self _ _) _ hm

/-! ### The search -/

section

variable {fuel : Nat} {visiting : List BindingId}

theorem effectivePosition_direct (h : s.graph.functionsBetween scope region = []) :
    s.effectivePosition region ready fuel visiting scope offset = .point offset := by
  unfold effectivePosition
  rw [h]
  rfl

variable (hf : (s.graph.functionsBetween scope region).getLast? = some f)
include hf

theorem effectivePosition_made (h : ready ≤ creation s.graph f ∨ handleBinding s.graph f = none) :
    s.effectivePosition region ready fuel visiting scope offset = .point (creation s.graph f) := by
  unfold effectivePosition
  rw [hf]
  simp only
  split
  · rfl
  · rw [h.resolve_left ‹_›]

variable (hmade : creation s.graph f < ready) (hid : handleBinding s.graph f = some id)
include hmade hid

theorem effectivePosition_visiting (h : id ∈ visiting) :
    s.effectivePosition region ready fuel visiting scope offset = .never := by
  unfold effectivePosition
  rw [hf]
  simp only
  rw [if_neg (Int.not_le.mpr hmade), hid]
  exact if_pos (List.contains_iff_mem.mpr h)

/-- With no fuel left a handle is not followed. -/
theorem effectivePosition_zero :
    s.effectivePosition region ready 0 visiting scope offset = .never := by
  unfold effectivePosition
  rw [hf]
  simp only
  rw [if_neg (Int.not_le.mpr hmade), hid]
  exact ite_self _

/-- A handle is followed to its reads, each on its own. -/
theorem effectivePosition_succ (h : id ∉ visiting) :
    s.effectivePosition region ready (fuel + 1) visiting scope offset =
      (s.readsOf id).foldl (fun m r =>
        m.first
          (if s.graph.isWithin r.scope region then
            s.effectivePosition region ready fuel (id :: visiting) r.scope r.position
          else .earliest)) .never := by
  rw [effectivePosition]
  rw [hf]
  simp only
  rw [if_neg (Int.not_le.mpr hmade), hid]
  exact if_neg fun hc => h (List.contains_iff_mem.mp hc)

end

/-- Only bindings of the table have reads. -/
theorem lt_of_mem_readsOf {r : Reference} (hr : r ∈ s.readsOf id) :
    id < s.table.bindings.length := by
  obtain ⟨b, hb, -⟩ := mem_readsOf.mp hr
  exact (List.getElem?_eq_some_iff.mp hb).1

/-- A search is right about a place if it is right about the handle that the place leads to. -/
theorem isLeast_spot {fuel : Nat} {visiting : List BindingId} {scope : ScopeId} {offset : Int}
    (h : ∀ {f id}, (s.graph.functionsBetween scope region).getLast? = some f →
      creation s.graph f < ready → handleBinding s.graph f = some id → id ∉ visiting →
      IsLeast (insert .never (s.momentsOff region ready visiting (.handle id)))
        (s.effectivePosition region ready fuel visiting scope offset)) :
    IsLeast (insert .never (s.momentsOff region ready visiting (.spot scope offset)))
      (s.effectivePosition region ready fuel visiting scope offset) := by
  cases hf : (s.graph.functionsBetween scope region).getLast? with
  | none =>
    rw [List.getLast?_eq_none_iff] at hf
    rw [effectivePosition_direct hf, momentsOff_direct hf]
    exact Moment.isLeast_singleton _
  | some f =>
    by_cases hmade : creation s.graph f < ready
    · cases hid : handleBinding s.graph f with
      | none =>
        rw [effectivePosition_made hf (.inr hid), momentsOff_made hf (.inr hid)]
        exact Moment.isLeast_singleton _
      | some id =>
        by_cases hmem : id ∈ visiting
        · have hset : s.momentsOff region ready visiting (.spot scope offset) = ∅ := by
            ext m
            simp [mem_momentsOff_called hf hmade hid, hmem]
          rw [effectivePosition_visiting hf hmade hid hmem, hset]
          exact Moment.isLeast_empty
        · have hset : s.momentsOff region ready visiting (.spot scope offset) =
              s.momentsOff region ready visiting (.handle id) := by
            ext m
            simp [mem_momentsOff_called hf hmade hid, hmem]
          rw [hset]
          exact h hf hmade hid hmem
    · have hlate : ready ≤ creation s.graph f := Int.not_lt.mp hmade
      rw [effectivePosition_made hf (.inl hlate), momentsOff_made hf (.inl hlate)]
      exact Moment.isLeast_singleton _

/-- The search finds the first moment that is reached around the bindings that it is following. -/
theorem isLeast_momentsOff {fuel : Nat} {visiting : List BindingId} (hnodup : visiting.Nodup)
    (hlt : ∀ x ∈ visiting, x < s.table.bindings.length)
    (hfuel : s.table.bindings.length ≤ fuel + visiting.length) (scope : ScopeId) (offset : Int) :
    IsLeast (insert .never (s.momentsOff region ready visiting (.spot scope offset)))
      (s.effectivePosition region ready fuel visiting scope offset) := by
  induction fuel generalizing visiting scope offset with
  | zero =>
    refine isLeast_spot fun {f id} hf hmade hid hmem => ?_
    -- all bindings of the table are being followed, so this one is none of them and has no reads
    have hset : s.momentsOff region ready visiting (.handle id) = ∅ := by
      refine Set.eq_empty_of_forall_notMem fun m hm => ?_
      obtain ⟨r, hr, -⟩ := mem_momentsOff_handle.mp hm
      have := Draft.Twins.length_lt_of_not_mem hnodup hlt (lt_of_mem_readsOf hr) hmem
      omega
    rw [effectivePosition_zero hf hmade hid, hset]
    exact Moment.isLeast_empty
  | succ fuel ih =>
    refine isLeast_spot fun {f id} hf hmade hid hmem => ?_
    rw [effectivePosition_succ hf hmade hid hmem, momentsOff_handle]
    have hreads : ∀ r ∈ s.readsOf id,
        IsLeast (insert .never (s.readMoments region ready (id :: visiting) r))
          (if s.graph.isWithin r.scope region then
            s.effectivePosition region ready fuel (id :: visiting) r.scope r.position
          else .earliest) := by
      intro r hr
      unfold readMoments
      split
      · refine ih (List.nodup_cons.mpr ⟨hmem, hnodup⟩)
          (List.forall_mem_cons.mpr ⟨lt_of_mem_readsOf hr, hlt⟩) ?_ _ _
        rw [List.length_cons]
        omega
      · exact Moment.isLeast_singleton _
    simpa using Moment.isLeast_foldl hreads Moment.isLeast_empty

/-! ### Every search ends -/

section

variable (s : Scoping) (region : ScopeId) (ready : Int)

/-- A search for the first moment of a place, around the bindings that are being followed. -/
structure Search where
  visiting : List BindingId
  scope : ScopeId
  offset : Int

/-- The searches that a search starts, one for each read of the handle in the region. -/
inductive Calls : Search → Search → Prop where
  | follow {visiting : List BindingId} {scope f : ScopeId} {offset : Int} {id : BindingId}
    {r : Reference} (hf : (s.graph.functionsBetween scope region).getLast? = some f)
    (hmade : creation s.graph f < ready) (hid : handleBinding s.graph f = some id)
    (hnew : id ∉ visiting) (hr : r ∈ s.readsOf id)
    (hin : s.graph.isWithin r.scope region = true) :
    Calls ⟨id :: visiting, r.scope, r.position⟩ ⟨visiting, scope, offset⟩

end

/-- With every call a binding of the table is followed that was not, so the chain of calls ends. -/
theorem acc_calls {left : Nat} {visiting : List BindingId} (hnodup : visiting.Nodup)
    (hlt : ∀ x ∈ visiting, x < s.table.bindings.length)
    (hleft : s.table.bindings.length ≤ left + visiting.length) (scope : ScopeId) (offset : Int) :
    Acc (s.Calls region ready) ⟨visiting, scope, offset⟩ := by
  induction left generalizing visiting scope offset with
  | zero =>
    refine Acc.intro _ fun search hcall => ?_
    cases hcall with
    | follow hf hmade hid hnew hr hin =>
      have := Draft.Twins.length_lt_of_not_mem hnodup hlt (lt_of_mem_readsOf hr) hnew
      omega
  | succ left ih =>
    refine Acc.intro _ fun search hcall => ?_
    cases hcall with
    | follow hf hmade hid hnew hr hin =>
      refine ih (List.nodup_cons.mpr ⟨hnew, hnodup⟩)
        (List.forall_mem_cons.mpr ⟨lt_of_mem_readsOf hr, hlt⟩) ?_ _ _
      rw [List.length_cons]
      omega

/-! ### The theorem -/

/-- With nothing closed all ways are open. -/
theorem momentsOff_nil : s.momentsOff region ready [] (.spot scope offset) =
    s.moments region ready scope offset := by
  have hleads : s.LeadsOff region ready [] = s.Leads region ready := by
    ext a b
    simp [LeadsOff]
  unfold momentsOff moments
  rw [hleads]

end Scoping

/-- The bindings of two tables have the same references, in any order. -/
def Table.IsReordered (t t' : Table) : Prop :=
  List.Forall₂ (fun b b' => b.references.Perm b'.references) t.bindings t'.bindings

namespace Table.IsReordered

variable {t t' : Table}

theorem symm (h : t.IsReordered t') : t'.IsReordered t :=
  List.Forall₂.flip (List.Forall₂.imp (fun _ _ hp => hp.symm) h)

/-- A read of a binding is one of its counterpart. -/
theorem exists_read (h : t.IsReordered t') {id : BindingId} {b : Binding} {r : Reference}
    (hb : t.bindings[id]? = some b) (hr : r ∈ b.reads) :
    ∃ b', t'.bindings[id]? = some b' ∧ r ∈ b'.reads := by
  obtain ⟨hlen, hrefs⟩ := List.forall₂_iff_get.mp h
  obtain ⟨hlt, rfl⟩ := List.getElem?_eq_some_iff.mp hb
  refine ⟨_, List.getElem?_eq_getElem (hlen ▸ hlt), ?_⟩
  rw [Binding.reads, List.mem_filter] at hr ⊢
  exact ⟨(hrefs id hlt (hlen ▸ hlt)).mem_iff.mp hr.1, hr.2⟩

end Table.IsReordered

namespace Scoping

variable {s : Scoping} {region : ScopeId} {ready : Int} {scope : ScopeId} {offset : Int}

/-- Where a station leads does not depend on the order of references. -/
theorem Leads.reordered {g : Graph} {t t' : Table} (ht : t.IsReordered t') {a b : Station}
    (h : Leads ⟨g, t⟩ region ready a b) : Leads ⟨g, t'⟩ region ready a b := by
  cases h with
  | direct h => exact .direct h
  | made hf h => exact .made hf h
  | called hf hmade hid => exact .called hf hmade hid
  | read hb hr hin =>
    obtain ⟨b', hb', hr'⟩ := ht.exists_read hb hr
    exact .read hb' hr' hin
  | escaped hb hr hout =>
    obtain ⟨b', hb', hr'⟩ := ht.exists_read hb hr
    exact .escaped hb' hr' hout

theorem moments_reordered {t : Table} (ht : s.table.IsReordered t) :
    moments ⟨s.graph, t⟩ region ready scope offset = s.moments region ready scope offset := by
  apply Set.Subset.antisymm
  · exact fun _ hm => Relation.ReflTransGen.mono (fun _ _ h => h.reordered ht.symm) _ _ hm
  · exact fun _ hm => Relation.ReflTransGen.mono (fun _ _ h => h.reordered ht) _ _ hm

theorem isLeast_moments (s : Scoping) (region : ScopeId) (ready : Int) (scope : ScopeId)
    (offset : Int) {fuel : Nat} (hfuel : s.table.bindings.length ≤ fuel) :
    IsLeast (insert .never (s.moments region ready scope offset))
      (s.effectivePosition region ready fuel [] scope offset) := by
  rw [← momentsOff_nil]
  exact isLeast_momentsOff List.nodup_nil (List.forall_mem_nil _) hfuel scope offset

/-- **The search finds the first of all moments.** From every place in the code, with the bound on
its depth that the number of bindings gives or with any larger one, the search returns the least
moment that the web of handles leads to, and `never` if there is none. Without a bound it ends too,
and the order of the references does not matter. -/
theorem effectivePosition_isLeast (s : Scoping) (region : ScopeId) (ready : Int) (scope : ScopeId)
    (offset : Int) {fuel : Nat} (hfuel : s.table.bindings.length ≤ fuel) :
    Acc (s.Calls region ready) ⟨[], scope, offset⟩ ∧
      IsLeast (insert .never (s.moments region ready scope offset))
        (s.effectivePosition region ready fuel [] scope offset) ∧
      ∀ t, s.table.IsReordered t →
        effectivePosition ⟨s.graph, t⟩ region ready fuel [] scope offset =
          s.effectivePosition region ready fuel [] scope offset := by
  have hleast := isLeast_moments s region ready scope offset hfuel
  refine ⟨acc_calls List.nodup_nil (List.forall_mem_nil _) (Nat.le_add_right _ _) scope offset,
    hleast, fun t ht => ?_⟩
  have hlen : t.bindings.length ≤ fuel := by
    rw [← List.Forall₂.length_eq ht]
    exact hfuel
  have hleast' := isLeast_moments ⟨s.graph, t⟩ region ready scope offset hlen
  rw [moments_reordered ht] at hleast'
  exact hleast'.unique hleast

end Scoping

/-- `var x = 1; function f() { g(); } function g() { f(); x; }` -/
def circularScript : Node :=
  let call (name : String) (l : Int) : Node :=
    .exprStmt (.call (.lookup ⟨name, .of l (l + 1)⟩) [] (.of l (l + 3))) (.of l (l + 4))
  .program [
    .varDecl .varWord [.declarator ⟨"x", .of 4 5⟩ (.literal (.json (.int 1)) (.of 8 9)) (.of 4 9)]
      (.of 0 10),
    .function .declaration (some ⟨"f", .of 20 21⟩) [] [call "g" 26] false (.of 11 32),
    .function .declaration (some ⟨"g", .of 42 43⟩) []
      [call "f" 48, .exprStmt (.lookup ⟨"x", .of 53 54⟩) (.of 53 55)] false (.of 33 57)] (.of 0 57)

/-- Two functions that only call each other never run. -/
theorem effectivePosition_isLeast_circularScript :
    ∃ s, Scoping.ofScript circularScript = .ok s ∧
      s.effectivePosition 0 9 s.table.bindings.length [] 2 53 = .never ∧
      Acc (s.Calls 0 9) ⟨[], 2, 53⟩ ∧
      IsLeast (insert .never (s.moments 0 9 2 53))
        (s.effectivePosition 0 9 s.table.bindings.length [] 2 53) := by
  obtain ⟨s, hs, hnever⟩ := exists_ok_of_any
    (show (Scoping.ofScript circularScript).toOption.any
        (fun s => s.effectivePosition 0 9 s.table.bindings.length [] 2 53 == .never) = true
      by decide +kernel)
  obtain ⟨hacc, hleast, -⟩ := Scoping.effectivePosition_isLeast s 0 9 2 53 (Nat.le_refl _)
  exact ⟨s, hs, eq_of_beq hnever, hacc, hleast⟩

/-- The script `let g; console.log((g = function () { return x; })()); var x = 1;`, in which a
function is called at once through the value of the assignment that stores it. -/
def callingScript : Node :=
  let fn : Node := .function .expression none []
    [.returnStmt (.lookup ⟨"x", .of 45 46⟩) (.of 38 47)] false (.of 24 49)
  let stored : Node := .assign (.str "=") (.lookup ⟨"g", .of 20 21⟩) fn (.of 20 49)
  let log : Node := .member (.lookup ⟨"console", .of 7 14⟩)
    (.literal (.json (.str "log")) (.of 15 18)) false (.of 7 18)
  .program [
    .varDecl .letWord [.declarator ⟨"g", .of 4 5⟩ .absent (.of 4 5)] (.of 0 6),
    .exprStmt (.call log [.call stored [] (.of 19 52)] (.of 7 53)) (.of 7 54),
    .varDecl .varWord [.declarator ⟨"x", .of 59 60⟩ (.literal (.json (.int 1)) (.of 63 64))
      (.of 59 64)] (.of 55 65)] (.of 0 65)

/-- The call comes before the declaration, though no handle tells. -/
theorem callingScript_dead :
    ∃ a, Analysis.ofScript callingScript {} = .ok a ∧
      (runScript callingScript {}).toOption = some ⟨"undefined", none, ["undefined"]⟩ ∧
      (runScript (a.rewrite callingScript) {}).toOption = some
        ⟨"undefined", some "ReferenceError: Cannot access 'x' before initialization", []⟩ := by
  obtain ⟨a, ha, hrun⟩ := exists_ok_of_any
    (show (Analysis.ofScript callingScript {}).toOption.any (fun a =>
        (runScript (a.rewrite callingScript) {}).toOption == some
          ⟨"undefined", some "ReferenceError: Cannot access 'x' before initialization", []⟩) = true
      by decide +kernel)
  exact ⟨a, ha, by decide +kernel, eq_of_beq hrun⟩

end ScopeLowering
