import ScopeLowering.Proofs.Consistency

/-!
# Finished scopes and bindings

When all events are in, hazards are added for `var`s that hoist past their own name, every use of a
name goes to the binding it finds, and hazards are added for names that are reached in ways the text
does not show. This module says what all that comes to: the scopes are those of the draft, every
binding has exactly the uses that find it, and a hazard has one of four causes (`finish_binding`).
-/

namespace ScopeLowering

namespace Draft

/-! ### Hoisting past a name -/

/-- The draft with some more hazards. -/
def tagAll (d : Draft) (tags : List (BindingId × Hazard)) : Draft :=
  tags.foldl (fun d t => d.tag t.1 t.2) d

theorem tagAll_append (d : Draft) (ts us : List (BindingId × Hazard)) :
    d.tagAll (ts ++ us) = (d.tagAll ts).tagAll us := List.foldl_append

theorem tagAll_cons (d : Draft) (t : BindingId × Hazard) (ts : List (BindingId × Hazard)) :
    d.tagAll (t :: ts) = (d.tag t.1 t.2).tagAll ts := rfl

/-- The hazards that a scope on the way gives to a `var` of a name. -/
def wayTags (d : Draft) (id : BindingId) (name : String) (s : ScopeId) :
    List (BindingId × Hazard) :=
  match d.graph.here? name s with
  | none => []
  | some other =>
    if (d.binding? other).map (·.kind) = some .catchParam then [(id, .scopeResolutionChange)]
    else [(id, .duplicateBlockBinding), (other, .duplicateBlockBinding)]

/-- The hazards of a `var` that hoists past scopes which hold the same name. -/
def siteTags (d : Draft) (v : BindingId × Site) : List (BindingId × Hazard) :=
  let owner := ((d.binding? v.1).map (·.scope)).getD 0
  let name := ((d.binding? v.1).map (·.name)).getD ""
  (d.graph.path v.2.scope owner).flatMap (d.wayTags v.1 name)

/-- The hazards of all `var`s that hoist past their own name. -/
def hoistTags (d : Draft) : List (BindingId × Hazard) := d.varSites.flatMap d.siteTags

/-- The drafts differ in hazards only. -/
structure SameNames (d d' : Draft) : Prop where
  graph : d'.graph = d.graph
  kind : ∀ i, (d'.binding? i).map (·.kind) = (d.binding? i).map (·.kind)
  scope : ∀ i, (d'.binding? i).map (·.scope) = (d.binding? i).map (·.scope)
  name : ∀ i, (d'.binding? i).map (·.name) = (d.binding? i).map (·.name)

theorem SameNames.refl (d : Draft) : d.SameNames d :=
  ⟨rfl, fun _ => rfl, fun _ => rfl, fun _ => rfl⟩

theorem SameNames.tag {d d' : Draft} (h : d.SameNames d') (id : BindingId) (x : Hazard) :
    d.SameNames (d'.tag id x) := by
  have hmap : ∀ {α : Type} (f : Binding → α) (_ : ∀ b, f (b.addHazard x) = f b) (i : BindingId),
      ((d'.tag id x).binding? i).map f = (d'.binding? i).map f := by
    intro α f hf i
    rw [binding?_tag, Option.map_map]
    cases d'.binding? i with
    | none => rfl
    | some b => by_cases hi : id = i <;> simp [hi, hf]
  exact ⟨h.graph, fun i => (hmap _ (Binding.addHazard_kind x) i).trans (h.kind i),
    fun i => (hmap _ (Binding.addHazard_scope x) i).trans (h.scope i),
    fun i => (hmap _ (Binding.addHazard_name x) i).trans (h.name i)⟩

theorem SameNames.tagAll {d d' : Draft} (h : d.SameNames d') (ts : List (BindingId × Hazard)) :
    d.SameNames (d'.tagAll ts) := by
  induction ts generalizing d' with
  | nil => exact h
  | cons t ts ih => exact ih (h.tag t.1 t.2)

theorem SameNames.wayTags_eq {d d' : Draft} (h : d.SameNames d') : d'.wayTags = d.wayTags := by
  funext id name s
  unfold wayTags
  rw [h.graph]
  simp only [h.kind]

theorem SameNames.siteTags_eq {d d' : Draft} (h : d.SameNames d') : d'.siteTags = d.siteTags := by
  funext v
  unfold siteTags
  rw [h.graph, h.scope, h.name, h.wayTags_eq]

theorem tagAll_wayTags (d : Draft) (id : BindingId) (name : String) (s : ScopeId) :
    d.tagAll (d.wayTags id name s) =
      match d.graph.here? name s with
      | none => d
      | some other =>
        if (d.table.bindings[other]?.map (·.kind)) == some .catchParam then
          d.tag id .scopeResolutionChange
        else (d.tag id .duplicateBlockBinding).tag other .duplicateBlockBinding := by
  unfold wayTags binding?
  cases d.graph.here? name s with
  | none => rfl
  | some other =>
    simp only [beq_iff_eq]
    split <;> rfl

/-- The hazards that are added do not change which ones are added later. -/
theorem foldl_tagAll {α : Type} {step : Draft → α → Draft}
    (tags : Draft → α → List (BindingId × Hazard))
    (hsame : ∀ {d d' : Draft}, d.SameNames d' → tags d' = tags d)
    (hstep : ∀ d x, step d x = d.tagAll (tags d x)) (xs : List α) (d : Draft) :
    xs.foldl step d = d.tagAll (xs.flatMap (tags d)) := by
  induction xs generalizing d with
  | nil => rfl
  | cons x xs ih =>
    have hs : d.SameNames (d.tagAll (tags d x)) := (SameNames.refl d).tagAll _
    rw [List.foldl_cons, hstep, ih, hsame hs, List.flatMap_cons, tagAll_append]

theorem checkHoisting_eq (d : Draft) : d.checkHoisting = d.tagAll d.hoistTags := by
  refine foldl_tagAll siteTags SameNames.siteTags_eq (fun d v => ?_) d.varSites d
  exact foldl_tagAll (fun d => d.wayTags v.1 _) (fun h => by rw [h.wayTags_eq])
    (fun d s => (d.tagAll_wayTags v.1 _ s).symm) _ d

/-- A binding gets the hazards meant for it. -/
theorem binding?_tagAll {d : Draft} {i : BindingId} {b : Binding} (h : d.binding? i = some b)
    (ts : List (BindingId × Hazard)) :
    ∃ hazards, (d.tagAll ts).binding? i = some { b with hazards } ∧
      ∀ x, x ∈ hazards ↔ x ∈ b.hazards ∨ (i, x) ∈ ts := by
  induction ts generalizing d b with
  | nil => exact ⟨b.hazards, h, fun x => by simp⟩
  | cons t ts ih =>
    have ht : (d.tag t.1 t.2).binding? i =
        some (if t.1 = i then b.addHazard t.2 else b) := by
      rw [binding?_tag, h, Option.map_some]
    obtain ⟨hazards, hb, hm⟩ := ih ht
    refine ⟨hazards, ?_, fun x => ?_⟩
    · rw [tagAll_cons, hb]
      split
      · rw [Binding.addHazard_eq]
      · rfl
    · rw [hm x, List.mem_cons, ← or_assoc]
      refine or_congr_left ?_
      split
      · rename_i hi
        rw [Binding.mem_addHazard, Prod.ext_iff]
        simp only [hi, true_and]
      · rename_i hi
        constructor
        · exact .inl
        · rintro (hx | hx)
          · exact hx
          · exact absurd (congrArg Prod.fst hx).symm hi

/-- Nothing but the bindings changes. -/
theorem tagAll_eq (d : Draft) (ts : List (BindingId × Hazard)) :
    d.tagAll ts =
      { d with table := { d.table with bindings := (d.tagAll ts).table.bindings } } := by
  induction ts generalizing d with
  | nil => rfl
  | cons t ts ih => exact ih (d.tag t.1 t.2)

theorem tagAll_length (d : Draft) (ts : List (BindingId × Hazard)) :
    (d.tagAll ts).table.bindings.length = d.table.bindings.length := by
  induction ts generalizing d with
  | nil => rfl
  | cons t ts ih => exact (ih (d.tag t.1 t.2)).trans (List.length_modify ..)

/-- A `var` hoists past another binding of its name. -/
def Passes (d : Draft) (v : BindingId) (b : Binding) (other : BindingId) : Prop :=
  d.binding? v = some b ∧ ∃ site t, (v, site) ∈ d.varSites ∧
    t ∈ d.graph.path site.scope b.scope ∧ d.graph.here? b.name t = some other

theorem mem_wayTags {d : Draft} {id i : BindingId} {name : String} {s : ScopeId} {x : Hazard} :
    (i, x) ∈ d.wayTags id name s ↔ ∃ other, d.graph.here? name s = some other ∧
      (d.kindOf other = .catchParam ∧ i = id ∧ x = .scopeResolutionChange ∨
        d.kindOf other ≠ .catchParam ∧ (i = id ∨ i = other) ∧ x = .duplicateBlockBinding) := by
  unfold wayTags
  cases d.graph.here? name s with
  | none => exact ⟨nofun, nofun⟩
  | some other =>
    have hkind : (d.binding? other).map (·.kind) = some .catchParam ↔
        d.kindOf other = .catchParam := by
      unfold kindOf
      cases (d.binding? other).map (·.kind) with
      | none => exact ⟨nofun, nofun⟩
      | some k => exact Option.some_inj
    by_cases hk : d.kindOf other = .catchParam
    · simp only [hkind, hk, if_true, List.mem_singleton, Prod.mk.injEq, Option.some.injEq,
        exists_eq_left', true_and, ne_eq, not_true, false_and, or_false]
    · simp only [hkind, hk, if_false, List.mem_cons, List.not_mem_nil, or_false, Prod.mk.injEq,
        Option.some.injEq, exists_eq_left', false_and, false_or, ne_eq, not_false_eq_true,
        true_and, or_and_right]

/-- A catch parameter may be hidden, for all other bindings both sides are marked. -/
theorem mem_hoistTags {d : Draft} (hd : d.Sound) {i : BindingId} {x : Hazard} :
    (i, x) ∈ d.hoistTags ↔ ∃ v b other, d.Passes v b other ∧
      (d.kindOf other = .catchParam ∧ i = v ∧ x = .scopeResolutionChange ∨
        d.kindOf other ≠ .catchParam ∧ (i = v ∨ i = other) ∧ x = .duplicateBlockBinding) := by
  unfold hoistTags
  rw [List.mem_flatMap]
  constructor
  · rintro ⟨⟨v, site⟩, hv, hx⟩
    obtain ⟨b, hb, _⟩ := hd.varSites hv
    simp only [siteTags, hb, Option.map_some, Option.getD_some] at hx
    obtain ⟨t, ht, hx⟩ := List.mem_flatMap.mp hx
    obtain ⟨other, ho, hx⟩ := mem_wayTags.mp hx
    exact ⟨v, b, other, ⟨hb, site, t, hv, ht, ho⟩, hx⟩
  · rintro ⟨v, b, other, ⟨hb, site, t, hv, ht, ho⟩, hx⟩
    refine ⟨(v, site), hv, ?_⟩
    simp only [siteTags, hb, Option.map_some, Option.getD_some]
    exact List.mem_flatMap.mpr ⟨t, ht, mem_wayTags.mpr ⟨other, ho, hx⟩⟩

/-! ### Uses of names -/

/-- The uses that find a binding. -/
def usesOf (d : Draft) (id : BindingId) : List Reference :=
  d.pending.filter fun r => d.graph.lookup r.name.text r.scope == some id

/-- The uses that find nothing. -/
def freeUses (d : Draft) : List Reference :=
  d.pending.filter fun r => (d.graph.lookup r.name.text r.scope).isNone

/-- The draft after one use. -/
def addUse (d : Draft) (r : Reference) : Draft :=
  match d.graph.lookup r.name.text r.scope with
  | some id => { d with table := d.table.modify id (Binding.addReference r) }
  | none => { d with table := { d.table with free := d.table.free ++ [r] } }

theorem foldl_addUse (d : Draft) (rs : List Reference) (t : Table) :
    rs.foldl addUse { d with table := t } =
      { d with
        table := { t with
          bindings := t.bindings.mapIdx fun i b =>
            { b with references := b.references ++
              rs.filter fun r => d.graph.lookup r.name.text r.scope == some i }
          free := t.free ++ rs.filter fun r => (d.graph.lookup r.name.text r.scope).isNone } } := by
  induction rs generalizing t with
  | nil =>
    have hb : t.bindings.mapIdx (fun _ b => { b with references := b.references }) =
        t.bindings := List.ext_getElem? fun i => by simp
    simp only [List.foldl_nil, List.filter_nil, List.append_nil]
    rw [hb]
  | cons r rs ih =>
    rw [List.foldl_cons, addUse]
    cases hl : d.graph.lookup r.name.text r.scope with
    | none =>
      simp only
      rw [ih]
      simp [hl]
    | some id =>
      simp only
      rw [ih]
      simp only [Table.modify, List.filter_cons, hl, Option.isNone_some, Bool.false_eq_true,
        if_false]
      congr 2
      refine List.ext_getElem? fun i => ?_
      simp only [List.getElem?_mapIdx, List.getElem?_modify]
      cases t.bindings[i]? with
      | none => rfl
      | some b =>
        by_cases hi : id = i
        · simp [hi, Binding.addReference]
        · simp [hi]

/-- Every use goes to the binding it finds. -/
theorem resolve_eq (d : Draft) :
    d.resolve = { d with
      table := { d.table with
        bindings := d.table.bindings.mapIdx fun i b =>
          { b with references := b.references ++ d.usesOf i }
        free := d.table.free ++ d.freeUses } } :=
  d.foldl_addUse d.pending d.table

theorem binding?_resolve (d : Draft) (i : BindingId) :
    d.resolve.binding? i =
      (d.binding? i).map fun b => { b with references := b.references ++ d.usesOf i } := by
  rw [resolve_eq]
  exact List.getElem?_mapIdx

/-! ### Reach -/

/-- Can some dynamic scope reach the names of a scope? -/
def isReached (d : Draft) (s : ScopeId) : Bool := d.dynamicScopes.any fun t => d.graph.isWithin t s

/-- Does the script lay hands on the global object? -/
def touchesGlobals (d : Draft) : Bool :=
  d.globalReach || d.table.free.any fun r => globalObjectNames.contains r.name.text

/-- A hazard that is added under a condition. -/
theorem addHazard_if (c : Bool) (h : Hazard) (b : Binding) :
    ∃ hazards, (if c then b.addHazard h else b) = { b with hazards } ∧
      ∀ x, x ∈ hazards ↔ x ∈ b.hazards ∨ x = h ∧ c = true := by
  cases c with
  | true =>
    refine ⟨(b.addHazard h).hazards, Binding.addHazard_eq h b, fun x => ?_⟩
    rw [Binding.mem_addHazard, and_iff_left rfl]
  | false => exact ⟨b.hazards, rfl, fun x => by simp⟩

theorem binding?_taintDynamic {d : Draft} {i : BindingId} {b : Binding}
    (h : d.binding? i = some b) :
    ∃ hazards, d.taintDynamic.binding? i = some { b with hazards } ∧
      ∀ x, x ∈ hazards ↔ x ∈ b.hazards ∨ x = .dynamicScope ∧ d.isReached b.scope = true := by
  obtain ⟨hazards, he, hm⟩ := addHazard_if (d.isReached b.scope) .dynamicScope b
  refine ⟨hazards, ?_, hm⟩
  have hmap : d.taintDynamic.binding? i = (d.binding? i).map fun b =>
      if d.isReached b.scope then b.addHazard .dynamicScope else b := List.getElem?_map
  rw [hmap, h, Option.map_some, he]

theorem binding?_markGlobals {d : Draft} {i : BindingId} {b : Binding}
    (h : d.binding? i = some b) :
    ∃ hazards, d.markGlobals.binding? i = some { b with hazards } ∧
      ∀ x, x ∈ hazards ↔ x ∈ b.hazards ∨ x = .globalProperty ∧
        (d.touchesGlobals && (b.isCandidate && b.scope == 0)) = true := by
  obtain ⟨hazards, he, hm⟩ :=
    addHazard_if (d.touchesGlobals && (b.isCandidate && b.scope == 0)) .globalProperty b
  refine ⟨hazards, ?_, hm⟩
  rw [← he]
  unfold markGlobals
  rw [← touchesGlobals]
  cases d.touchesGlobals with
  | true =>
    have hmap := List.getElem?_map (f := fun b : Binding =>
      if b.isCandidate && b.scope == 0 then b.addHazard .globalProperty else b)
      (l := d.table.bindings) (i := i)
    exact hmap.trans (by rw [← binding?, h]; rfl)
  | false => exact h

theorem taintDynamic_eq (d : Draft) :
    d.taintDynamic =
      { d with table := { d.table with bindings := d.taintDynamic.table.bindings } } := rfl

theorem markGlobals_eq (d : Draft) :
    d.markGlobals =
      { d with table := { d.table with bindings := d.markGlobals.table.bindings } } := by
  unfold markGlobals
  split <;> rfl

/-! ### All of it -/

/-- A binding of the draft has a hazard in the end. -/
def Endangers (d : Draft) (i : BindingId) (b : Binding) (x : Hazard) : Prop :=
  x ∈ b.hazards ∨ (i, x) ∈ d.hoistTags ∨ (x = .dynamicScope ∧ d.isReached b.scope = true) ∨
    (x = .globalProperty ∧ d.resolve.touchesGlobals = true ∧ b.isCandidate = true ∧ b.scope = 0)

theorem finish_graph (d : Draft) : d.finish.graph = d.graph := by
  unfold finish
  rw [markGlobals_eq, taintDynamic_eq, resolve_eq, checkHoisting_eq, tagAll_eq]

theorem finish_statements (d : Draft) : d.finish.table.statements = d.table.statements := by
  unfold finish
  rw [markGlobals_eq, taintDynamic_eq, resolve_eq, checkHoisting_eq, tagAll_eq]
  rfl

theorem finish_free (d : Draft) :
    d.finish.table.free = Table.inOrder (d.table.free ++ d.freeUses) := by
  unfold finish
  rw [markGlobals_eq, taintDynamic_eq, resolve_eq, checkHoisting_eq, tagAll_eq]
  rfl

/-- A finished binding: the uses that find it, and the hazards that endanger it. -/
theorem finish_binding {d : Draft} {i : BindingId} {b : Binding} (h : d.binding? i = some b) :
    ∃ hazards, d.finish.table.bindings[i]? = some { b with
        references := Table.inOrder (b.references ++ d.usesOf i), hazards } ∧
      ∀ x, x ∈ hazards ↔ d.Endangers i b x := by
  -- the later stages see the scopes, uses and reach of the draft itself
  have hd := d.tagAll_eq d.hoistTags
  have huses : (d.tagAll d.hoistTags).usesOf i = d.usesOf i := by rw [hd]; rfl
  have hreach : (d.tagAll d.hoistTags).resolve.isReached b.scope = d.isReached b.scope := by
    rw [resolve_eq, hd]
    rfl
  have htouch : (d.tagAll d.hoistTags).resolve.taintDynamic.touchesGlobals =
      d.resolve.touchesGlobals := by
    rw [taintDynamic_eq, resolve_eq, resolve_eq, hd]
    rfl
  obtain ⟨hoisted, h₁, m₁⟩ := binding?_tagAll h d.hoistTags
  have h₂ := binding?_resolve (d.tagAll d.hoistTags) i
  rw [h₁, Option.map_some, huses] at h₂
  obtain ⟨tainted, h₃, m₃⟩ := binding?_taintDynamic h₂
  obtain ⟨hazards, h₄, m₄⟩ := binding?_markGlobals h₃
  refine ⟨hazards, ?_, fun x => ?_⟩
  · unfold finish
    rw [checkHoisting_eq]
    refine List.getElem?_map.trans ?_
    rw [← binding?, h₄, Option.map_some]
  · rw [m₄, m₃, m₁, htouch, hreach, or_assoc, or_assoc, Bool.and_eq_true, Bool.and_eq_true,
      beq_iff_eq]
    rfl

theorem finish_length (d : Draft) : d.finish.table.bindings.length = d.table.bindings.length := by
  have hmark : ∀ d : Draft, d.markGlobals.table.bindings.length = d.table.bindings.length := by
    intro d
    unfold markGlobals
    split
    · exact List.length_map _
    · rfl
  have hresolve : ∀ d : Draft, d.resolve.table.bindings.length = d.table.bindings.length := by
    intro d
    rw [resolve_eq]
    exact List.length_mapIdx
  unfold finish
  rw [checkHoisting_eq]
  calc _ = (d.tagAll d.hoistTags).resolve.taintDynamic.markGlobals.table.bindings.length :=
        List.length_map _
    _ = (d.tagAll d.hoistTags).resolve.table.bindings.length :=
        (hmark _).trans (List.length_map _)
    _ = d.table.bindings.length := (hresolve _).trans (d.tagAll_length _)

/-- Where a finished binding comes from. -/
theorem binding_of_finish {d : Draft} {i : BindingId} {b' : Binding}
    (h : d.finish.table.bindings[i]? = some b') :
    ∃ b hazards, d.binding? i = some b ∧
      b' = { b with references := Table.inOrder (b.references ++ d.usesOf i), hazards } ∧
      ∀ x, x ∈ hazards ↔ d.Endangers i b x := by
  have hi : i < d.table.bindings.length := by
    rw [← d.finish_length]
    exact (List.getElem?_eq_some_iff.mp h).1
  have hb : d.binding? i = some d.table.bindings[i] := List.getElem?_eq_getElem hi
  obtain ⟨hazards, hf, hm⟩ := finish_binding hb
  rw [h] at hf
  exact ⟨_, hazards, hb, Option.some.inj hf, hm⟩

theorem mem_inOrder {r : Reference} {rs : List Reference} : r ∈ Table.inOrder rs ↔ r ∈ rs :=
  List.mem_mergeSort

end Draft

end ScopeLowering
