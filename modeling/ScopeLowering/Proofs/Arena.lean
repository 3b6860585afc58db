import ScopeLowering.Scope.Builder

/-!
# The arena of scopes

What climbing from a scope to its ancestors meets. A scope is made after its parent, so every climb
ends, and each of the functions that climb has an equation that takes one step up.

## The model

The functions that climb read the parents and kinds of scopes, and not what the scopes hold. So the
facts are stated for the *outlines* of the scopes. Two graphs with the same outlines have the same
ancestors, paths and regions, whatever their layers; and a graph that grows keeps the ancestors of
the scopes that it has.
-/

namespace ScopeLowering

/-! ### Outlines -/

/-- The scope without what gathers in it. -/
def Scope.outline (s : Scope) : Scope := { s with children := [], layer := {} }

namespace Graph

/-- The outlines of all scopes. -/
def outlines (g : Graph) : List Scope := g.scopes.map Scope.outline

variable {g g' : Graph}

theorem outlines_length (g : Graph) : g.outlines.length = g.size := List.length_map _

theorem outline_eq (g : Graph) (id : ScopeId) :
    g.outlines[id]? = (g.scope? id).map Scope.outline := List.getElem?_map

theorem parent?_eq (g : Graph) (id : ScopeId) :
    g.parent? id = g.outlines[id]?.bind (·.parent) := by
  rw [outline_eq, parent?]
  cases g.scope? id <;> rfl

theorem kind?_eq (g : Graph) (id : ScopeId) : g.kind? id = g.outlines[id]?.map (·.kind) := by
  rw [outline_eq, kind?]
  cases g.scope? id <;> rfl

theorem nearestFunction_eq (g : Graph) (id : ScopeId) :
    g.nearestFunction id = (g.outlines[id]?.map (·.function)).getD id := by
  rw [outline_eq, nearestFunction]
  cases g.scope? id <;> rfl

/-- The stretch of the script that a scope is. -/
def span? (g : Graph) (id : ScopeId) : Option Span := (g.scope? id).map (·.span)

theorem span?_eq (g : Graph) (id : ScopeId) : g.span? id = g.outlines[id]?.map (·.span) := by
  rw [outline_eq, span?]
  cases g.scope? id <;> rfl

/-- The scopes that a scope lists as its children. -/
def children? (g : Graph) (id : ScopeId) : Option (List ScopeId) := (g.scope? id).map (·.children)

/-! ### Sound graphs -/

/-- Is this a scope that hoisted declarations stop at? -/
def isLevel (g : Graph) (id : ScopeId) : Bool := (g.kind? id).any (·.isFunctionLevel)

/-- Parents come first, only the first scope has none, and a scope has the nearest function of its
parent unless it is a function level itself. -/
structure Sound (g : Graph) : Prop where
  parent_lt : ∀ {id up : Nat}, g.parent? id = some up → up < id
  rooted : ∀ {id : Nat}, id < g.size → g.parent? id = none → id = 0
  level_rule : ∀ {id : Nat}, id < g.size →
    if g.isLevel id then g.nearestFunction id = id
    else ∃ up, g.parent? id = some up ∧ g.nearestFunction id = g.nearestFunction up

theorem parent?_lt_size {id up : Nat} (h : g.parent? id = some up) : id < g.size := by
  rcases Nat.lt_or_ge id g.size with hi | hi
  · exact hi
  · rw [parent?, show g.scope? id = none from List.getElem?_eq_none hi] at h
    cases h

/-! ### Climbing -/

theorem climb_congr (h : ∀ id, g'.parent? id = g.parent? id) (k : Nat) (id : ScopeId) :
    g'.climb k id = g.climb k id := by
  induction k generalizing id with
  | zero => rfl
  | succ k ih =>
    unfold climb
    rw [h id]
    cases g.parent? id with
    | none => rfl
    | some up => exact congrArg (id :: ·) (ih up)

namespace Sound

theorem function_rule (hg : g.Sound) {id : Nat} (h : id < g.size) : g.nearestFunction id = id ∨
    ∃ up, g.parent? id = some up ∧ g.nearestFunction id = g.nearestFunction up := by
  have hlevel := hg.level_rule h
  split at hlevel
  · exact .inl hlevel
  · exact .inr hlevel

/-- Enough steps are as good as any more. -/
theorem climb_eq (hg : g.Sound) {k l : Nat} {id : Nat} (hk : id < k) (hl : id < l) :
    g.climb k id = g.climb l id := by
  induction k generalizing id l with
  | zero => exact absurd hk (Nat.not_lt_zero id)
  | succ k ih =>
    cases l with
    | zero => exact absurd hl (Nat.not_lt_zero id)
    | succ l =>
      unfold climb
      cases hp : g.parent? id with
      | none => rfl
      | some up =>
        have hup := hg.parent_lt hp
        exact congrArg (id :: ·) (ih (by omega) (by omega))

theorem ancestors_root {id : Nat} (h : g.parent? id = none) : g.ancestors id = [id] := by
  unfold ancestors climb
  rw [h]

theorem ancestors_up (hg : g.Sound) {id up : Nat} (h : g.parent? id = some up) :
    g.ancestors id = id :: g.ancestors up := by
  have hup := hg.parent_lt h
  have hid := parent?_lt_size h
  unfold ancestors
  rw [climb, h]
  exact congrArg (id :: ·) (hg.climb_eq (by omega) (by omega))

/-- Going up a step at a time reaches every scope. -/
theorem induction (hg : g.Sound) {P : Nat → Prop} (root : ∀ id, g.parent? id = none → P id)
    (up : ∀ id o, g.parent? id = some o → P o → P id) (id : Nat) : P id := by
  induction id using Nat.strongRecOn with
  | ind id ih =>
    cases hp : g.parent? id with
    | none => exact root id hp
    | some o => exact up id o hp (ih o (hg.parent_lt hp))

/-! ### Regions -/

theorem isWithin_iff {i o : Nat} : g.isWithin i o = true ↔ o ∈ g.ancestors i :=
  List.contains_iff_mem

theorem isWithin_self (i : Nat) : g.isWithin i i = true := by
  rw [isWithin_iff]
  unfold ancestors climb
  exact List.mem_cons_self

theorem isWithin_root {i o : Nat} (h : g.parent? i = none) :
    g.isWithin i o = true ↔ o = i := by
  rw [isWithin_iff, ancestors_root h, List.mem_singleton]

theorem isWithin_up (hg : g.Sound) {i o up : Nat} (h : g.parent? i = some up) :
    g.isWithin i o = true ↔ o = i ∨ g.isWithin up o = true := by
  rw [isWithin_iff, isWithin_iff, hg.ancestors_up h, List.mem_cons]

theorem isWithin_le (hg : g.Sound) {i o : Nat} (h : g.isWithin i o = true) : o ≤ i := by
  induction i using hg.induction with
  | root i hi => exact Nat.le_of_eq ((isWithin_root hi).mp h)
  | up i up hi ih =>
    rcases (hg.isWithin_up hi).mp h with rfl | h
    · exact Nat.le_refl o
    · exact Nat.le_trans (ih h) (Nat.le_of_lt (hg.parent_lt hi))

theorem isWithin_trans (hg : g.Sound) {i o p : Nat} (h : g.isWithin i o = true)
    (h' : g.isWithin o p = true) : g.isWithin i p = true := by
  induction i using hg.induction with
  | root i hi => rwa [(isWithin_root hi).mp h] at h'
  | up i up hi ih =>
    rcases (hg.isWithin_up hi).mp h with rfl | h
    · exact h'
    · exact (hg.isWithin_up hi).mpr (.inr (ih h))

theorem isWithin_antisymm (hg : g.Sound) {i o : Nat} (h : g.isWithin i o = true)
    (h' : g.isWithin o i = true) : i = o :=
  Nat.le_antisymm (hg.isWithin_le h') (hg.isWithin_le h)

/-! ### Paths -/

theorem path_self (i : Nat) : g.path i i = [] := by
  unfold path ancestors climb
  rw [List.takeWhile_cons_of_neg (by simp)]

theorem path_up (hg : g.Sound) {i up stop : Nat} (h : g.parent? i = some up) (hi : i ≠ stop) :
    g.path i stop = i :: g.path up stop := by
  unfold path
  rw [hg.ancestors_up h, List.takeWhile_cons_of_pos (by simpa using hi)]

theorem path_root {i stop : Nat} (h : g.parent? i = none) (hi : i ≠ stop) :
    g.path i stop = [i] := by
  unfold path
  rw [ancestors_root h, List.takeWhile_cons_of_pos (by simpa using hi), List.takeWhile_nil]

theorem ne_of_mem_path {i stop t : Nat} (h : t ∈ g.path i stop) : t ≠ stop := by
  have := List.all_eq_true.mp List.all_takeWhile t h
  simpa using this

theorem mem_path_self {i stop : Nat} (hg : g.Sound) (hi : i ≠ stop) : i ∈ g.path i stop := by
  cases h : g.parent? i with
  | none => rw [path_root h hi]; exact List.mem_singleton.mpr rfl
  | some up => rw [hg.path_up h hi]; exact List.mem_cons_self

/-- The path to a scope passes through all that stand between. -/
theorem mem_path (hg : g.Sound) {i t stop : Nat} (h : g.isWithin i t = true)
    (h' : g.isWithin t stop = true) (hne : t ≠ stop) : t ∈ g.path i stop := by
  induction i using hg.induction with
  | root i hi =>
    cases (isWithin_root hi).mp h
    exact mem_path_self hg hne
  | up i up hi ih =>
    rcases (hg.isWithin_up hi).mp h with rfl | h
    · exact mem_path_self hg hne
    · have hlt := hg.parent_lt hi
      have hle := hg.isWithin_le h
      have hle' := hg.isWithin_le h'
      rw [hg.path_up hi (by omega)]
      exact List.mem_cons_of_mem _ (ih h)

/-- All that the path to a scope passes through stands between. -/
theorem isWithin_of_mem_path (hg : g.Sound) {i t stop : Nat} (h : g.isWithin i stop = true)
    (ht : t ∈ g.path i stop) : g.isWithin i t = true ∧ g.isWithin t stop = true := by
  induction i using hg.induction with
  | root i hi =>
    rw [← (isWithin_root hi).mp h, path_self] at ht
    cases ht
  | up i up hi ih =>
    by_cases hs : i = stop
    · rw [hs, path_self] at ht
      cases ht
    · rw [hg.path_up hi hs] at ht
      rcases List.mem_cons.mp ht with rfl | ht
      · exact ⟨isWithin_self t, h⟩
      · obtain ⟨hit, hts⟩ := ih (((hg.isWithin_up hi).mp h).resolve_left (Ne.symm hs)) ht
        exact ⟨(hg.isWithin_up hi).mpr (.inr hit), hts⟩

/-! ### The nearest function -/

theorem isWithin_nearestFunction (hg : g.Sound) (i : Nat) :
    g.isWithin i (g.nearestFunction i) = true := by
  by_cases hi : i < g.size
  · induction i using hg.induction with
    | root i hp =>
      rcases hg.function_rule hi with h | ⟨up, hup, _⟩
      · rw [h]; exact isWithin_self i
      · rw [hp] at hup; cases hup
    | up i o hp ih =>
      rcases hg.function_rule hi with h | ⟨up, hup, h⟩
      · rw [h]; exact isWithin_self i
      · rw [hp] at hup
        cases hup
        rw [h]
        exact (hg.isWithin_up hp).mpr (.inr (ih (Nat.lt_trans (hg.parent_lt hp) hi)))
  · have hs : g.scope? i = none := List.getElem?_eq_none (Nat.not_lt.mp hi)
    rw [nearestFunction, hs]
    exact isWithin_self i

theorem nearestFunction_le (hg : g.Sound) (i : Nat) : g.nearestFunction i ≤ i :=
  hg.isWithin_le (hg.isWithin_nearestFunction i)

/-- The scopes below the nearest function share it. -/
theorem nearestFunction_of_mem_path (hg : g.Sound) {i t : Nat} (hi : i < g.size)
    (ht : t ∈ g.path i (g.nearestFunction i)) : g.nearestFunction t = g.nearestFunction i := by
  induction i using hg.induction with
  | root i hp =>
    rcases hg.function_rule hi with h | ⟨up, hup, _⟩
    · rw [h, path_self] at ht; cases ht
    · rw [hp] at hup; cases hup
  | up i o hp ih =>
    rcases hg.function_rule hi with h | ⟨up, hup, h⟩
    · rw [h, path_self] at ht; cases ht
    · rw [hp] at hup
      cases hup
      have hne : i ≠ g.nearestFunction o :=
        Nat.ne_of_gt (Nat.lt_of_le_of_lt (hg.nearestFunction_le o) (hg.parent_lt hp))
      rw [h, hg.path_up hp hne, List.mem_cons] at ht
      rcases ht with rfl | ht
      · rfl
      · rw [h]; exact ih (Nat.lt_trans (hg.parent_lt hp) hi) ht

theorem nearestFunction_idem (hg : g.Sound) {i : Nat} (hi : i < g.size) :
    g.nearestFunction (g.nearestFunction i) = g.nearestFunction i := by
  induction i using hg.induction with
  | root i hp =>
    rcases hg.function_rule hi with h | ⟨up, hup, _⟩
    · rw [h, h]
    · rw [hp] at hup; cases hup
  | up i o hp ih =>
    rcases hg.function_rule hi with h | ⟨up, hup, h⟩
    · rw [h, h]
    · rw [hp] at hup
      cases hup
      rw [h]
      exact ih (Nat.lt_trans (hg.parent_lt hp) hi)

/-! ### Looking names up -/

theorem lookup_root {name : String} {i : Nat} (h : g.parent? i = none) :
    g.lookup name i = g.here? name i := by
  unfold lookup
  rw [ancestors_root h, List.findSome?_singleton]

theorem lookup_up (hg : g.Sound) {name : String} {i up : Nat} (h : g.parent? i = some up) :
    g.lookup name i = (g.here? name i).or (g.lookup name up) := by
  unfold lookup
  rw [hg.ancestors_up h, List.findSome?_cons]
  cases g.here? name i <;> rfl

theorem lookup_of_here (hg : g.Sound) {name : String} {i : Nat} {b : BindingId}
    (h : g.here? name i = some b) : g.lookup name i = some b := by
  cases hp : g.parent? i with
  | none => rw [lookup_root hp, h]
  | some up => rw [hg.lookup_up hp, h, Option.some_or]

/-- A name that the scopes on the way do not hold is looked up at the end of the way. -/
theorem lookup_of_path (hg : g.Sound) {name : String} {i stop : Nat}
    (hw : g.isWithin i stop = true) (h : ∀ t ∈ g.path i stop, g.here? name t = none) :
    g.lookup name i = g.lookup name stop := by
  induction i using hg.induction with
  | root i hp => rw [(isWithin_root hp).mp hw]
  | up i up hp ih =>
    by_cases hi : i = stop
    · rw [hi]
    · rw [hg.path_up hp hi] at h
      rw [hg.lookup_up hp, h i List.mem_cons_self, Option.none_or]
      refine ih ?_ fun t ht => h t (List.mem_cons_of_mem _ ht)
      exact ((hg.isWithin_up hp).mp hw).resolve_left (Ne.symm hi)

/-- A scope that holds the name stops the lookup. -/
theorem lookup_cases (hg : g.Sound) {name : String} {i stop : Nat} {b old : BindingId}
    (hw : g.isWithin i stop = true) (ho : g.here? name stop = some old)
    (h : g.lookup name i = some b) : b = old ∨ ∃ t ∈ g.path i stop, g.here? name t = some b := by
  induction i using hg.induction with
  | root i hp =>
    rw [← (isWithin_root hp).mp hw, hg.lookup_of_here ho] at h
    exact .inl (Option.some.inj h).symm
  | up i up hp ih =>
    by_cases hi : i = stop
    · rw [hi, hg.lookup_of_here ho] at h
      exact .inl (Option.some.inj h).symm
    · rw [hg.path_up hp hi]
      cases hx : g.here? name i with
      | some x =>
        rw [hg.lookup_of_here hx] at h
        cases h
        exact .inr ⟨i, List.mem_cons_self, hx⟩
      | none =>
        rw [hg.lookup_up hp, hx, Option.none_or] at h
        rcases ih (((hg.isWithin_up hp).mp hw).resolve_left (Ne.symm hi)) h with he | ⟨t, ht, hh⟩
        · exact .inl he
        · exact .inr ⟨t, List.mem_cons_of_mem _ ht, hh⟩

/-- A binding that is found stands in some scope around. -/
theorem exists_here_of_lookup (hg : g.Sound) {name : String} {i : Nat} {b : BindingId}
    (h : g.lookup name i = some b) : ∃ t, g.isWithin i t = true ∧ g.here? name t = some b := by
  induction i using hg.induction with
  | root i hp => exact ⟨i, isWithin_self i, lookup_root hp ▸ h⟩
  | up i up hp ih =>
    rw [hg.lookup_up hp] at h
    rcases Option.or_eq_some_iff.mp h with h | ⟨_, h⟩
    · exact ⟨i, isWithin_self i, h⟩
    · obtain ⟨t, ht, hb⟩ := ih h
      exact ⟨t, (hg.isWithin_up hp).mpr (.inr ht), hb⟩

end Sound

/-! ### Graphs of the same shape -/

section SameShape

variable (h : g'.outlines = g.outlines)
include h

theorem size_of_outlines : g'.size = g.size := by
  rw [← outlines_length, ← outlines_length, h]

theorem parent?_of_outlines : g'.parent? = g.parent? := by
  funext id
  rw [parent?_eq, parent?_eq, h]

theorem kind?_of_outlines : g'.kind? = g.kind? := by
  funext id
  rw [kind?_eq, kind?_eq, h]

theorem nearestFunction_of_outlines : g'.nearestFunction = g.nearestFunction := by
  funext id
  rw [nearestFunction_eq, nearestFunction_eq, h]

theorem ancestors_of_outlines : g'.ancestors = g.ancestors := by
  funext id
  rw [ancestors, ancestors, size_of_outlines h]
  exact climb_congr (congrFun (parent?_of_outlines h)) _ id

theorem isWithin_of_outlines : g'.isWithin = g.isWithin := by
  funext i o
  rw [isWithin, isWithin, ancestors_of_outlines h]

theorem path_of_outlines : g'.path = g.path := by
  funext i o
  rw [path, path, ancestors_of_outlines h]

theorem functionsBetween_of_outlines : g'.functionsBetween = g.functionsBetween := by
  funext i o
  rw [functionsBetween, functionsBetween, path_of_outlines h, kind?_of_outlines h]

theorem loopBetween_of_outlines : g'.loopBetween = g.loopBetween := by
  funext i o
  rw [loopBetween, loopBetween, path_of_outlines h, kind?_of_outlines h]

theorem Sound.of_outlines (hg : g.Sound) : g'.Sound := by
  constructor
  · intro id up hp
    rw [parent?_of_outlines h] at hp
    exact hg.parent_lt hp
  · intro id hid
    rw [size_of_outlines h] at hid
    rw [parent?_of_outlines h]
    exact hg.rooted hid
  · intro id hid
    rw [size_of_outlines h] at hid
    rw [isLevel, kind?_of_outlines h, parent?_of_outlines h, nearestFunction_of_outlines h]
    exact hg.level_rule hid

end SameShape

end Graph

end ScopeLowering
