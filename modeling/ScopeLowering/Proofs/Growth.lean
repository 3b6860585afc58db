import ScopeLowering.Proofs.Arena

/-!
# How a draft grows

Going through the events of a script only ever adds to what is known: scopes and bindings keep their
numbers, a name that a scope holds stays with its binding, and hazards gather (`Grows`).

## The model

A declaration does one of three things. It makes a new binding that its scope then holds
(`Draft.own`), it joins the binding that the scope already holds (`Draft.join`), or it clashes with
that binding (`Draft.clash`). `declare_cases` says so once, and every fact about declarations is a
fact about each of the three.
-/

namespace ScopeLowering

/-! ### Bindings that grow -/

namespace Binding

/-- The second binding is the first with more declarations and hazards. -/
structure Grows (b b' : Binding) : Prop where
  kind : b'.kind = b.kind
  scope : b'.scope = b.scope
  first : b'.first = b.first
  others : b.others <+: b'.others
  hazards : b.hazards ⊆ b'.hazards

theorem Grows.refl (b : Binding) : b.Grows b :=
  ⟨rfl, rfl, rfl, List.prefix_refl _, fun _ h => h⟩

theorem Grows.trans {a b c : Binding} (h : a.Grows b) (h' : b.Grows c) : a.Grows c :=
  ⟨h'.kind.trans h.kind, h'.scope.trans h.scope, h'.first.trans h.first, h.others.trans h'.others,
    fun _ hx => h'.hazards (h.hazards hx)⟩

theorem addHazard_eq (h : Hazard) (b : Binding) :
    b.addHazard h = { b with hazards := (b.addHazard h).hazards } := by
  unfold addHazard
  split <;> rfl

theorem mem_addHazard {h x : Hazard} {b : Binding} :
    x ∈ (b.addHazard h).hazards ↔ x ∈ b.hazards ∨ x = h := by
  unfold addHazard
  split
  · constructor
    · exact .inl
    · rintro (hx | rfl)
      · exact hx
      · assumption
  · rw [List.mem_append, List.mem_singleton]

@[simp] theorem addHazard_kind (h : Hazard) (b : Binding) : (b.addHazard h).kind = b.kind := by
  rw [addHazard_eq]

@[simp] theorem addHazard_scope (h : Hazard) (b : Binding) : (b.addHazard h).scope = b.scope := by
  rw [addHazard_eq]

@[simp] theorem addHazard_first (h : Hazard) (b : Binding) : (b.addHazard h).first = b.first := by
  rw [addHazard_eq]

@[simp] theorem addHazard_others (h : Hazard) (b : Binding) :
    (b.addHazard h).others = b.others := by
  rw [addHazard_eq]

@[simp] theorem addHazard_name (h : Hazard) (b : Binding) : (b.addHazard h).name = b.name := by
  rw [name, addHazard_first, name]

@[simp] theorem addHazard_sites (h : Hazard) (b : Binding) : (b.addHazard h).sites = b.sites := by
  rw [sites, addHazard_first, addHazard_others, sites]

theorem grows_addHazard (h : Hazard) (b : Binding) : b.Grows (b.addHazard h) :=
  ⟨addHazard_kind h b, addHazard_scope h b, addHazard_first h b,
    addHazard_others h b ▸ List.prefix_refl _, fun _ hx => mem_addHazard.mpr (.inl hx)⟩

theorem grows_merge (s : Site) (b : Binding) : b.Grows (b.merge s) :=
  ⟨rfl, rfl, rfl, List.prefix_append _ _, fun _ hx => hx⟩

theorem Grows.name {b b' : Binding} (h : b.Grows b') : b'.name = b.name := by
  rw [Binding.name, h.first, Binding.name]

theorem Grows.sites {b b' : Binding} (h : b.Grows b') : b.sites ⊆ b'.sites := by
  intro s hs
  rw [Binding.sites, List.mem_cons] at hs ⊢
  rw [h.first]
  exact hs.imp_right fun hs => h.others.subset hs

end Binding

/-! ### Layers -/

theorem Layer.find?_define {α : Type} {layer : Layer α} {name : String}
    (h : layer.find? name = none) (value : α) (x : String) :
    ((layer.define? name value).getD layer).find? x =
      if x = name then some value else layer.find? x := by
  have hc : layer.contains name = false := by rw [contains, h]; rfl
  rw [define?, hc, if_neg Bool.false_ne_true, Option.getD_some, find?, List.lookup_append]
  by_cases hx : x = name
  · rw [if_pos hx, hx, ← find?, h, Option.none_or, List.lookup_cons_self]
  · rw [if_neg hx, List.lookup_cons, beq_false_of_ne hx, List.lookup_nil, Option.or_none]
    rfl

/-! ### The three things a declaration does -/

namespace Draft

/-- A binding by number. -/
def binding? (d : Draft) (id : BindingId) : Option Binding := d.table.bindings[id]?

/-- A new binding of a name. -/
def fresh (d : Draft) (kind : BindingKind) (site : Site) : Binding :=
  { kind, scope := d.attachment kind, first := site }

/-- The draft with a new binding that its scope holds. -/
def own (d : Draft) (kind : BindingKind) (site : Site) : Draft :=
  let graph := d.graph.modify (d.attachment kind) fun s =>
    { s with layer := (s.layer.define? site.name.text d.table.bindings.length).getD s.layer }
  ({ d with graph } : Draft).addBinding (d.fresh kind site)

/-- The kind of a binding. -/
def kindOf (d : Draft) (id : BindingId) : BindingKind := ((d.binding? id).map (·.kind)).getD .param

/-- The draft in which a binding has one more declaration. -/
def join (d : Draft) (old : BindingId) (site : Site) : Draft :=
  let merged : Draft := { d with table := d.table.modify old (Binding.merge site) }
  if d.kindOf old == .declared .varWord then merged.tag old .mergedRedeclaration else merged

/-- The draft with a new binding that no scope holds, because another one has its name. -/
def clash (d : Draft) (old : BindingId) (kind : BindingKind) (site : Site) : Draft :=
  ((d.tag old .duplicateBlockBinding).addBinding (d.fresh kind site)).tag d.table.bindings.length
    .duplicateBlockBinding

/-- What a declaration can do. -/
theorem declare_cases (d : Draft) (kind : BindingKind) (site : Site) :
    (d.graph.here? site.name.text (d.attachment kind) = none ∧
      d.declare kind site = (d.own kind site, d.table.bindings.length)) ∨
    ∃ old, d.graph.here? site.name.text (d.attachment kind) = some old ∧
      (kind.isFunctionScoped = true ∧ (d.kindOf old).isFunctionScoped = true ∧
          d.declare kind site = (d.join old site, old) ∨
        ¬ (kind.isFunctionScoped = true ∧ (d.kindOf old).isFunctionScoped = true) ∧
          d.declare kind site = (d.clash old kind site, d.table.bindings.length)) := by
  cases h : d.graph.here? site.name.text (d.attachment kind) with
  | none =>
    refine .inl ⟨rfl, ?_⟩
    simp only [declare, Binding.name, h]
    rfl
  | some old =>
    refine .inr ⟨old, rfl, ?_⟩
    simp only [declare, Binding.name, h]
    by_cases hk : kind.isFunctionScoped = true ∧ (d.kindOf old).isFunctionScoped = true
    · refine .inl ⟨hk.1, hk.2, ?_⟩
      rw [if_pos (by rw [hk.1]; exact hk.2)]
      rfl
    · refine .inr ⟨hk, ?_⟩
      rw [if_neg (by rw [Bool.and_eq_true]; exact hk)]
      rfl

/-- The draft in which a binding is tagged if a declaration of it lacks braces. -/
def mark (d : Draft) (id : BindingId) (site : Site) : Draft :=
  if site.unbraced then d.tag id .unbracedDeclaration else d

/-- The draft in which a `var` is noted in its statement. -/
def record (d : Draft) (kind : BindingKind) (id : BindingId) (site : Site) : Draft :=
  if kind == .declared .varWord then
    { d.noteStatement id with varSites := (d.noteStatement id).varSites ++ [(id, site)] }
  else d

theorem declareVariable_eq (d : Draft) (kind : BindingKind) (site : Site) :
    d.declareVariable kind site =
      ((d.declare kind site).1.mark (d.declare kind site).2 site).record kind
        (d.declare kind site).2 site := rfl

/-! ### What each of them changes -/

theorem binding?_tag (d : Draft) (id : BindingId) (h : Hazard) (i : BindingId) :
    (d.tag id h).binding? i =
      (d.binding? i).map fun b => if id = i then b.addHazard h else b := by
  show (d.table.bindings.modify id _)[i]? = _
  rw [List.getElem?_modify]
  rfl

theorem binding?_addBinding (d : Draft) (b : Binding) (i : BindingId) :
    (d.addBinding b).binding? i =
      if i = d.table.bindings.length then some b else d.binding? i := by
  show (d.table.bindings ++ [b])[i]? = _
  rw [List.getElem?_append]
  split
  · rw [if_neg (Nat.ne_of_lt ‹_›)]
    rfl
  · rename_i hi
    split
    · rename_i he
      rw [he, Nat.sub_self]
      rfl
    · rename_i he
      have hlt : d.table.bindings.length < i := Nat.lt_of_le_of_ne (Nat.not_lt.mp hi) (Ne.symm he)
      rw [List.getElem?_eq_none (by simp only [List.length_singleton]; omega)]
      exact (List.getElem?_eq_none (Nat.le_of_lt hlt)).symm

theorem binding?_own (d : Draft) (kind : BindingKind) (site : Site) (i : BindingId) :
    (d.own kind site).binding? i =
      if i = d.table.bindings.length then some (d.fresh kind site) else d.binding? i :=
  binding?_addBinding _ _ i

/-- A binding with one more declaration, which counts as a hazard for a `var`. -/
def joined (site : Site) (b : Binding) : Binding :=
  if b.kind = .declared .varWord then (b.merge site).addHazard .mergedRedeclaration
  else b.merge site

theorem grows_joined (site : Site) (b : Binding) : b.Grows (joined site b) := by
  unfold joined
  split
  · exact (b.grows_merge site).trans (Binding.grows_addHazard _ _)
  · exact b.grows_merge site

theorem joined_others (site : Site) (b : Binding) :
    (joined site b).others = b.others ++ [site] := by
  unfold joined
  split
  · rw [Binding.addHazard_others]; rfl
  · rfl

theorem binding?_join (d : Draft) (old : BindingId) (site : Site) (i : BindingId) :
    (d.join old site).binding? i =
      (d.binding? i).map fun b => if old = i then joined site b else b := by
  have hm : ({ d with table := d.table.modify old (Binding.merge site) } : Draft).binding? i =
      (d.binding? i).map fun b => if old = i then b.merge site else b := by
    show (d.table.bindings.modify old _)[i]? = _
    rw [List.getElem?_modify]
    rfl
  unfold join
  split
  · rename_i hk
    rw [binding?_tag, hm, Option.map_map]
    cases hb : d.binding? i with
    | none => rfl
    | some b =>
      by_cases hi : old = i
      · have hkind : b.kind = .declared .varWord := by
          rw [kindOf, hi, hb] at hk
          exact eq_of_beq hk
        simp only [Option.map_some, Function.comp, if_pos hi, joined, if_pos hkind]
      · simp only [Option.map_some, Function.comp, if_neg hi]
  · rename_i hk
    rw [hm]
    cases hb : d.binding? i with
    | none => rfl
    | some b =>
      by_cases hi : old = i
      · have hkind : b.kind ≠ .declared .varWord := by
          intro he
          rw [kindOf, hi, hb] at hk
          exact hk (beq_iff_eq.mpr he)
        simp only [Option.map_some, if_pos hi, joined, if_neg hkind]
      · simp only [Option.map_some, if_neg hi]

theorem binding?_clash (d : Draft) (old : BindingId) (kind : BindingKind) (site : Site)
    (i : BindingId) :
    (d.clash old kind site).binding? i =
      if i = d.table.bindings.length then
        some ((d.fresh kind site).addHazard .duplicateBlockBinding)
      else (d.binding? i).map fun b =>
        if old = i then b.addHazard .duplicateBlockBinding else b := by
  have hlen : (d.tag old .duplicateBlockBinding).table.bindings.length = d.table.bindings.length :=
    List.length_modify ..
  rw [clash, binding?_tag, binding?_addBinding, binding?_tag, hlen]
  by_cases hi : i = d.table.bindings.length
  · rw [if_pos hi, if_pos hi, Option.map_some, if_pos hi.symm]
  · rw [if_neg hi, if_neg hi, Option.map_map]
    simp only [Function.comp_def, if_neg (Ne.symm hi)]

theorem outlines_modify (g : Graph) (id : ScopeId) (f : Scope → Scope)
    (hf : ∀ s, (f s).outline = s.outline) : (g.modify id f).outlines = g.outlines := by
  refine List.ext_getElem? fun i => ?_
  show ((g.scopes.modify id f).map _)[i]? = (g.scopes.map _)[i]?
  rw [List.getElem?_map, List.getElem?_map, List.getElem?_modify]
  cases g.scopes[i]? with
  | none => rfl
  | some s =>
    by_cases hi : id = i
    · simp only [Option.map_eq_map, Option.map_some, if_pos hi, hf]
    · simp only [Option.map_eq_map, Option.map_some, if_neg hi]

theorem outlines_own (d : Draft) (kind : BindingKind) (site : Site) :
    (d.own kind site).graph.outlines = d.graph.outlines :=
  outlines_modify _ _ _ fun _ => rfl

theorem graph_join (d : Draft) (old : BindingId) (site : Site) :
    (d.join old site).graph = d.graph := by
  unfold join
  split <;> rfl

/-- Only the name that is declared finds something new, in the scope that owns it. -/
theorem here?_own {d : Draft} {kind : BindingKind} {site : Site}
    (ho : d.attachment kind < d.graph.size)
    (hn : d.graph.here? site.name.text (d.attachment kind) = none) (name : String) (s : ScopeId) :
    (d.own kind site).graph.here? name s =
      if name = site.name.text ∧ s = d.attachment kind then some d.table.bindings.length
      else d.graph.here? name s := by
  show Option.bind (d.graph.scopes.modify _ _)[s]? _ = _
  rw [List.getElem?_modify]
  by_cases hs : d.attachment kind = s
  · obtain ⟨x, hx⟩ : ∃ x, d.graph.scopes[s]? = some x := ⟨_, List.getElem?_eq_getElem (hs ▸ ho)⟩
    have hf : x.layer.find? site.name.text = none := by
      rw [Graph.here?, Graph.scope?, hs, hx] at hn
      exact hn
    simp only [hx, Option.map_eq_map, Option.map_some, Option.bind_some, Graph.here?, Graph.scope?,
      hs, and_true, if_true]
    exact Layer.find?_define hf _ name
  · rw [if_neg fun h => hs h.2.symm]
    simp only [if_neg hs, Graph.here?, Graph.scope?]
    cases d.graph.scopes[s]? <;> rfl

/-- The scope that opens inside the current one. -/
def newScope (d : Draft) (kind : ScopeKind) (span : Span) (callable : Option Callable)
    (cases : List Span) : Scope :=
  { kind, span, callable, cases
    parent := if d.graph.size == 0 then none else some d.current
    function :=
      if kind.isFunctionLevel then d.graph.size else d.graph.nearestFunction d.current }

theorem openScope_scopes (d : Draft) (kind : ScopeKind) (span : Span) (callable : Option Callable)
    (cases : List Span) :
    ∃ adopted : Graph, (d.openScope kind span callable cases).graph.scopes =
        adopted.scopes ++ [d.newScope kind span callable cases] ∧
      adopted.outlines = d.graph.outlines ∧
      ∀ name s, adopted.here? name s = d.graph.here? name s := by
  by_cases h0 : d.graph.size == 0
  · refine ⟨d.graph, ?_, rfl, fun _ _ => rfl⟩
    simp only [openScope, newScope, h0, if_true]
  · refine ⟨d.graph.modify d.current fun s => { s with children := s.children ++ [d.graph.size] },
      ?_, outlines_modify _ _ _ fun _ => rfl, fun name s => ?_⟩
    · simp only [openScope, newScope, h0]
      rfl
    · show Option.bind (d.graph.scopes.modify _ _)[s]? _ = Option.bind d.graph.scopes[s]? _
      rw [List.getElem?_modify]
      cases d.graph.scopes[s]? with
      | none => rfl
      | some x => by_cases hs : d.current = s <;> simp [hs]

theorem outlines_openScope (d : Draft) (kind : ScopeKind) (span : Span) (callable : Option Callable)
    (cases : List Span) :
    (d.openScope kind span callable cases).graph.outlines =
      d.graph.outlines ++ [d.newScope kind span callable cases] := by
  obtain ⟨adopted, hs, ho, _⟩ := d.openScope_scopes kind span callable cases
  rw [Graph.outlines, hs, List.map_append, ← Graph.outlines, ho]
  rfl

theorem outline_openScope (d : Draft) (kind : ScopeKind) (span : Span) (callable : Option Callable)
    (cases : List Span) :
    (d.openScope kind span callable cases).graph.outlines[d.graph.size]? =
      some (d.newScope kind span callable cases) := by
  have hle := Nat.le_of_eq d.graph.outlines_length
  rw [outlines_openScope, List.getElem?_append_right hle, Graph.outlines_length, Nat.sub_self]
  rfl

/-- A scope that opens holds no names. -/
theorem here?_openScope (d : Draft) (kind : ScopeKind) (span : Span) (callable : Option Callable)
    (cases : List Span) (name : String) (s : ScopeId) :
    (d.openScope kind span callable cases).graph.here? name s = d.graph.here? name s := by
  obtain ⟨adopted, hs, _, hh⟩ := d.openScope_scopes kind span callable cases
  rw [← hh name s, Graph.here?, Graph.here?, Graph.scope?, Graph.scope?, hs, List.getElem?_append]
  split
  · rfl
  · rename_i hlt
    rw [List.getElem?_eq_none (Nat.not_lt.mp hlt)]
    cases hi : s - adopted.scopes.length with
    | zero => rfl
    | succ n => rfl

/-! ### Growing -/

/-- The second draft knows all that the first one does. -/
structure Grows (d d' : Draft) : Prop where
  outlines : d.graph.outlines <+: d'.graph.outlines
  here : ∀ {name s id}, d.graph.here? name s = some id → d'.graph.here? name s = some id
  binding : ∀ {id b}, d.binding? id = some b → ∃ b', d'.binding? id = some b' ∧ b.Grows b'
  entry : ∀ {i : Nat} {e : StatementEntry}, d.table.statements[i]? = some e →
    ∃ e' : StatementEntry, d'.table.statements[i]? = some e' ∧ e'.statement = e.statement ∧
      e.members <+: e'.members
  varSites : d.varSites <+: d'.varSites
  pending : d.pending <+: d'.pending

namespace Grows

theorem refl (d : Draft) : d.Grows d where
  outlines := List.prefix_refl _
  here h := h
  binding h := ⟨_, h, .refl _⟩
  entry h := ⟨_, h, rfl, List.prefix_refl _⟩
  varSites := List.prefix_refl _
  pending := List.prefix_refl _

theorem trans {a b c : Draft} (h : a.Grows b) (h' : b.Grows c) : a.Grows c where
  outlines := h.outlines.trans h'.outlines
  here hn := h'.here (h.here hn)
  binding hb := by
    obtain ⟨_, hb, hg⟩ := h.binding hb
    obtain ⟨_, hb, hg'⟩ := h'.binding hb
    exact ⟨_, hb, hg.trans hg'⟩
  entry he := by
    obtain ⟨_, he, hs, hm⟩ := h.entry he
    obtain ⟨_, he, hs', hm'⟩ := h'.entry he
    exact ⟨_, he, hs'.trans hs, hm.trans hm'⟩
  varSites := h.varSites.trans h'.varSites
  pending := h.pending.trans h'.pending

/-- Only the bindings change, and each of them grows. -/
theorem of_bindings {d d' : Draft} (hg : d'.graph = d.graph)
    (hs : d'.table.statements = d.table.statements) (hv : d'.varSites = d.varSites)
    (hp : d'.pending = d.pending)
    (hb : ∀ {id b}, d.binding? id = some b → ∃ b', d'.binding? id = some b' ∧ b.Grows b') :
    d.Grows d' where
  outlines := hg ▸ List.prefix_refl _
  here h := hg ▸ h
  binding := hb
  entry h := ⟨_, hs ▸ h, rfl, List.prefix_refl _⟩
  varSites := hv ▸ List.prefix_refl _
  pending := hp ▸ List.prefix_refl _

end Grows

theorem binding?_lt {d : Draft} {id : BindingId} {b : Binding} (h : d.binding? id = some b) :
    id < d.table.bindings.length := by
  obtain ⟨hi, _⟩ := List.getElem?_eq_some_iff.mp h
  exact hi

theorem grows_tag (d : Draft) (id : BindingId) (h : Hazard) : d.Grows (d.tag id h) := by
  refine .of_bindings rfl rfl rfl rfl fun {i b} hb => ?_
  rw [binding?_tag, hb, Option.map_some]
  refine ⟨_, rfl, ?_⟩
  split
  · exact b.grows_addHazard h
  · exact .refl b

theorem grows_addBinding (d : Draft) (b : Binding) : d.Grows (d.addBinding b) := by
  refine .of_bindings rfl rfl rfl rfl fun {i x} hx => ?_
  rw [binding?_addBinding, if_neg (Nat.ne_of_lt (binding?_lt hx))]
  exact ⟨x, hx, .refl x⟩

theorem grows_own {d : Draft} {kind : BindingKind} {site : Site}
    (hn : d.graph.here? site.name.text (d.attachment kind) = none) :
    d.Grows (d.own kind site) where
  outlines := d.outlines_own kind site ▸ List.prefix_refl _
  here {name s id} h := by
    by_cases ho : d.attachment kind < d.graph.size
    · rw [here?_own ho hn, if_neg ?_]
      · exact h
      · rintro ⟨rfl, rfl⟩
        rw [hn] at h
        cases h
    · -- there is no scope to hold the name
      have hm : (d.own kind site).graph = d.graph := by
        show (⟨d.graph.scopes.modify _ _⟩ : Graph) = d.graph
        rw [List.modify_eq_self (Nat.not_lt.mp ho)]
      rw [hm]
      exact h
  binding h := (d.grows_addBinding _).binding h
  entry h := ⟨_, h, rfl, List.prefix_refl _⟩
  varSites := List.prefix_refl _
  pending := List.prefix_refl _

theorem grows_join (d : Draft) (old : BindingId) (site : Site) : d.Grows (d.join old site) := by
  refine .of_bindings (d.graph_join old site) ?_ ?_ ?_ fun {i b} hb => ?_
  iterate 3 unfold join; split <;> rfl
  rw [binding?_join, hb, Option.map_some]
  refine ⟨_, rfl, ?_⟩
  split
  · exact grows_joined site b
  · exact .refl b

theorem grows_clash (d : Draft) (old : BindingId) (kind : BindingKind) (site : Site) :
    d.Grows (d.clash old kind site) :=
  ((d.grows_tag _ _).trans (grows_addBinding _ _)).trans (grows_tag _ _ _)

theorem grows_declare (d : Draft) (kind : BindingKind) (site : Site) :
    d.Grows (d.declare kind site).1 := by
  rcases d.declare_cases kind site with ⟨hn, h⟩ | ⟨old, _, ⟨_, _, h⟩ | ⟨_, h⟩⟩ <;> rw [h]
  · exact grows_own hn
  · exact d.grows_join old site
  · exact d.grows_clash old kind site

theorem grows_noteStatement (d : Draft) (id : BindingId) : d.Grows (d.noteStatement id) := by
  unfold noteStatement
  split
  · exact .refl d
  · rename_i s i rest hs
    refine { Grows.refl d with entry := fun {j e} he => ?_ }
    show ∃ e', (d.table.statements.modify i _)[j]? = some e' ∧ _
    rw [List.getElem?_modify, he]
    refine ⟨_, rfl, ?_⟩
    split
    · exact ⟨rfl, List.prefix_append _ _⟩
    · exact ⟨rfl, List.prefix_refl _⟩
  · rename_i s rest hs
    refine { Grows.refl d with entry := fun {j e} he => ⟨e, ?_, rfl, List.prefix_refl _⟩ }
    show (d.table.statements ++ [_])[j]? = some e
    rw [List.getElem?_append_left (List.getElem?_eq_some_iff.mp he).1]
    exact he

theorem grows_mark (d : Draft) (id : BindingId) (site : Site) : d.Grows (d.mark id site) := by
  unfold mark
  split
  · exact d.grows_tag id _
  · exact .refl d

theorem grows_record (d : Draft) (kind : BindingKind) (id : BindingId) (site : Site) :
    d.Grows (d.record kind id site) := by
  unfold record
  split
  · refine (d.grows_noteStatement id).trans ?_
    exact { Grows.refl _ with varSites := List.prefix_append _ _ }
  · exact .refl d

theorem grows_declareVariable (d : Draft) (kind : BindingKind) (site : Site) :
    d.Grows (d.declareVariable kind site) := by
  rw [declareVariable_eq]
  exact ((d.grows_declare kind site).trans (grows_mark _ _ _)).trans (grows_record _ _ _ _)

theorem grows_openScope (d : Draft) (kind : ScopeKind) (span : Span) (callable : Option Callable)
    (cases : List Span) : d.Grows (d.openScope kind span callable cases) :=
  { Grows.refl d with
    outlines := d.outlines_openScope kind span callable cases ▸ List.prefix_append _ _
    here := fun h => d.here?_openScope kind span callable cases _ _ ▸ h }

/-- The own name of a function expression is declared where its scope does not hold the name. -/
theorem step_callee_ok {d d' : Draft} {name : Ident} {ready : Offset} {problem : Option ScopeFault}
    (h : d.step (.callee name ready problem) = .ok d') :
    d' = d ∨ d.graph.here? name.text d.current = none ∧ d' = d.declareVariable .callee
      { name, statement := none, scope := d.current, hasInit := true, ready } := by
  simp only [step] at h
  split at h
  · cases h; exact .inl rfl
  · rename_i hnone
    split at h <;> cases h
    exact .inr ⟨by simpa using hnone, rfl⟩

theorem step_thisUse_ok {d d' : Draft} (h : d.step .thisUse = .ok d') :
    ∃ reach, d' = { d with globalReach := reach } := by
  simp only [step] at h
  split at h <;> cases h <;> exact ⟨_, rfl⟩

/-- One event only adds to what is known. -/
theorem grows_step {d d' : Draft} {e : Event} (h : d.step e = .ok d') : d.Grows d' := by
  cases e with
  | enter kind span callable cases => cases h; exact d.grows_openScope kind span callable cases
  | leave | openStatement | closeStatement | evalCall | dynamic =>
    cases h
    exact { Grows.refl d with }
  | declare => cases h; exact d.grows_declareVariable _ _
  | callee name ready problem =>
    rcases step_callee_ok h with rfl | ⟨_, rfl⟩
    · exact .refl d'
    · exact d.grows_declareVariable _ _
  | refer => cases h; exact { Grows.refl d with pending := List.prefix_append _ _ }
  | thisUse =>
    obtain ⟨_, rfl⟩ := step_thisUse_ok h
    exact { Grows.refl d with }
  | fault f => cases h

/-- An event declares a name, or leaves what is declared as it is. -/
theorem step_declares {d d' : Draft} {e : Event} (h : d.step e = .ok d') :
    (d'.table = d.table ∧ d'.varSites = d.varSites) ∨
      ∃ kind site, site.scope = d.current ∧ d' = d.declareVariable kind site := by
  cases e with
  | enter | leave | openStatement | closeStatement | evalCall | dynamic | refer =>
    cases h
    exact .inl ⟨rfl, rfl⟩
  | declare => cases h; exact .inr ⟨_, _, rfl, rfl⟩
  | callee name ready problem =>
    rcases step_callee_ok h with rfl | ⟨_, rfl⟩
    · exact .inl ⟨rfl, rfl⟩
    · exact .inr ⟨.callee, _, rfl, rfl⟩
  | thisUse =>
    obtain ⟨_, rfl⟩ := step_thisUse_ok h
    exact .inl ⟨rfl, rfl⟩
  | fault f => cases h

/-! ### Runs -/

theorem steps_cons (d : Draft) (e : Event) (es : List Event) :
    d.steps (e :: es) = (d.step e).bind fun d => d.steps es := rfl

theorem steps_cons_ok {d d' : Draft} {e : Event} {es : List Event} :
    d.steps (e :: es) = .ok d' ↔ ∃ m, d.step e = .ok m ∧ m.steps es = .ok d' := by
  rw [steps_cons]
  cases d.step e with
  | error f => exact ⟨nofun, nofun⟩
  | ok m =>
    constructor
    · exact fun h => ⟨m, rfl, h⟩
    · rintro ⟨_, ⟨⟩, h⟩
      exact h

theorem steps_append_ok {d d' : Draft} {es fs : List Event} :
    d.steps (es ++ fs) = .ok d' ↔ ∃ m, d.steps es = .ok m ∧ m.steps fs = .ok d' := by
  induction es generalizing d with
  | nil =>
    constructor
    · exact fun h => ⟨d, rfl, h⟩
    · rintro ⟨_, h, h'⟩
      cases h
      exact h'
  | cons e es ih =>
    rw [List.cons_append, steps_cons_ok]
    constructor
    · rintro ⟨m, he, h⟩
      obtain ⟨m', hes, hfs⟩ := ih.mp h
      exact ⟨m', steps_cons_ok.mpr ⟨m, he, hes⟩, hfs⟩
    · rintro ⟨m', h, hfs⟩
      obtain ⟨m, he, hes⟩ := steps_cons_ok.mp h
      exact ⟨m, he, ih.mpr ⟨m', hes, hfs⟩⟩

/-- Events that go through have no fault among them. -/
theorem fault_not_mem_steps {d d' : Draft} {es : List Event} (h : d.steps es = .ok d')
    (f : ScopeFault) : .fault f ∉ es := by
  intro hf
  obtain ⟨xs, ys, rfl⟩ := List.append_of_mem hf
  obtain ⟨m, _, hm⟩ := steps_append_ok.mp h
  obtain ⟨_, hfault, _⟩ := steps_cons_ok.mp hm
  cases hfault

/-- What each of some events keeps, all of them keep. -/
theorem steps_invariant {P : Draft → Prop} {es : List Event}
    (hstep : ∀ {d d' : Draft}, ∀ e ∈ es, P d → d.step e = .ok d' → P d') {d d' : Draft} (h : P d)
    (hs : d.steps es = .ok d') : P d' := by
  induction es generalizing d with
  | nil => cases hs; exact h
  | cons e es ih =>
    obtain ⟨m, he, hs⟩ := steps_cons_ok.mp hs
    exact ih (fun x hx => hstep x (List.mem_cons_of_mem _ hx)) (hstep e List.mem_cons_self h he) hs

theorem grows_steps {d d' : Draft} {es : List Event} (h : d.steps es = .ok d') : d.Grows d' :=
  steps_invariant (fun _ _ hg he => hg.trans (grows_step he)) (.refl d) h

/-! ### What stays in place -/

theorem Grows.size_le {d d' : Draft} (h : d.Grows d') : d.graph.size ≤ d'.graph.size := by
  rw [← Graph.outlines_length, ← Graph.outlines_length]
  exact h.outlines.length_le

theorem Grows.outline {d d' : Draft} (h : d.Grows d') {s : ScopeId} (hs : s < d.graph.size) :
    d'.graph.outlines[s]? = d.graph.outlines[s]? := by
  rw [← Graph.outlines_length] at hs
  obtain ⟨more, he⟩ := h.outlines
  rw [← he, List.getElem?_append_left hs]

theorem Grows.nearestFunction {d d' : Draft} (h : d.Grows d') {s : ScopeId}
    (hs : s < d.graph.size) : d'.graph.nearestFunction s = d.graph.nearestFunction s := by
  rw [Graph.nearestFunction_eq, Graph.nearestFunction_eq, h.outline hs]

theorem Grows.parent? {d d' : Draft} (h : d.Grows d') {s : ScopeId} (hs : s < d.graph.size) :
    d'.graph.parent? s = d.graph.parent? s := by
  rw [Graph.parent?_eq, Graph.parent?_eq, h.outline hs]

end Draft

end ScopeLowering
