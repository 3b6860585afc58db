import ScopeLowering.Proofs.Growth

/-!
# What holds of every draft

The facts that tie scopes and bindings together while the events of a script are gone through: who
holds a name, where the declarations of a binding stand, and when a binding counts as declared twice
(`Draft.Sound`). They hold once the script's own scope is open, and every event keeps them
(`Sound.step`, `Sound.steps`).
-/

namespace ScopeLowering

/-- The scope that owns a declaration written in some scope. -/
def Graph.owner (g : Graph) (kind : BindingKind) (s : ScopeId) : ScopeId :=
  if kind.isFunctionScoped then g.nearestFunction s else s

/-- Does the event neither open nor close a scope? -/
def Event.keepsScopes : Event → Bool
  | enter .. | leave => false
  | _ => true

namespace Draft

/-- A binding has a hazard. -/
def Tagged (d : Draft) (id : BindingId) (h : Hazard) : Prop :=
  ∃ b, d.binding? id = some b ∧ h ∈ b.hazards

theorem Tagged.grows {d d' : Draft} {id : BindingId} {h : Hazard} (ht : d.Tagged id h)
    (hg : d.Grows d') : d'.Tagged id h := by
  obtain ⟨b, hb, hm⟩ := ht
  obtain ⟨b', hb', hg⟩ := hg.binding hb
  exact ⟨b', hb', hg.hazards hm⟩

/-! ### Sound drafts -/

/-- What holds of every draft once the script's own scope is open. -/
structure Sound (d : Draft) : Prop where
  graph : d.graph.Sound
  current : d.current < d.graph.size
  /-- A name that a scope holds is that of a binding of the scope. -/
  held : ∀ {name s id}, d.graph.here? name s = some id →
    ∃ b, d.binding? id = some b ∧ b.name = name ∧ b.scope = s
  /-- A binding is held by its scope, or has lost its name to the one that is. -/
  owned : ∀ {id b}, d.binding? id = some b → ∃ old, d.graph.here? b.name b.scope = some old ∧
    (old = id ∨ d.Tagged old .duplicateBlockBinding ∧ d.Tagged id .duplicateBlockBinding)
  /-- All declarations of a binding have its name and belong to its scope. -/
  sites : ∀ {id b}, d.binding? id = some b → ∀ site ∈ b.sites, site.name.text = b.name ∧
    site.scope < d.graph.size ∧ b.scope = d.graph.owner b.kind site.scope
  merged : ∀ {id b}, d.binding? id = some b → b.kind = .declared .varWord → b.others ≠ [] →
    .mergedRedeclaration ∈ b.hazards
  /-- References come last, when all declarations are known. -/
  bare : ∀ {id b}, d.binding? id = some b → b.references = [] ∧ b.loop = none
  varSites : ∀ {id site}, (id, site) ∈ d.varSites →
    ∃ b, d.binding? id = some b ∧ site ∈ b.sites ∧ b.kind.isFunctionScoped = true
  members : ∀ {e : StatementEntry}, e ∈ d.table.statements → ∀ id ∈ e.members,
    ∃ b, d.binding? id = some b ∧ b.kind.isFunctionScoped = true
  pending : ∀ {r}, r ∈ d.pending → r.scope < d.graph.size

namespace Sound

variable {d d' : Draft}

theorem attachment_lt (h : d.Sound) (kind : BindingKind) : d.attachment kind < d.graph.size := by
  unfold attachment
  split
  · exact Nat.lt_of_le_of_lt (h.graph.nearestFunction_le _) h.current
  · exact h.current

/-- Only the bindings change, each by itself. -/
theorem map (h : d.Sound) (f : BindingId → Binding → Binding)
    (hg : d'.graph = d.graph) (hc : d'.current = d.current) (hp : d'.pending = d.pending)
    (hv : d'.varSites = d.varSites) (hs : d'.table.statements = d.table.statements)
    (hb : ∀ i, d'.binding? i = (d.binding? i).map (f i))
    (grows : ∀ {i b}, d.binding? i = some b → b.Grows (f i b))
    (bare : ∀ {i b}, d.binding? i = some b →
      (f i b).references = b.references ∧ (f i b).loop = b.loop)
    (sites : ∀ {i b}, d.binding? i = some b → ∀ site ∈ (f i b).sites, site ∈ b.sites ∨
      site.name.text = b.name ∧ site.scope < d.graph.size ∧
        b.scope = d.graph.owner b.kind site.scope)
    (merged : ∀ {i b}, d.binding? i = some b → b.kind = .declared .varWord → (f i b).others ≠ [] →
      .mergedRedeclaration ∈ (f i b).hazards) : d'.Sound := by
  have hget : ∀ {i b}, d.binding? i = some b → d'.binding? i = some (f i b) := by
    intro i b hi
    rw [hb, hi, Option.map_some]
  have hof : ∀ {i b'}, d'.binding? i = some b' → ∃ b, d.binding? i = some b ∧ f i b = b' := by
    intro i b' hi
    rw [hb] at hi
    exact Option.map_eq_some_iff.mp hi
  have htag : ∀ {i x}, d.Tagged i x → d'.Tagged i x := by
    rintro i x ⟨b, hi, hx⟩
    exact ⟨_, hget hi, (grows hi).hazards hx⟩
  constructor
  case graph => rw [hg]; exact h.graph
  case current => rw [hg, hc]; exact h.current
  case held =>
    intro name s id hn
    rw [hg] at hn
    obtain ⟨b, hi, hname, hscope⟩ := h.held hn
    exact ⟨_, hget hi, (grows hi).name.trans hname, (grows hi).scope.trans hscope⟩
  case owned =>
    intro id b' hb'
    obtain ⟨b, hi, rfl⟩ := hof hb'
    obtain ⟨old, hn, ho⟩ := h.owned hi
    rw [hg, (grows hi).name, (grows hi).scope]
    exact ⟨old, hn, ho.imp_right fun ht => ⟨htag ht.1, htag ht.2⟩⟩
  case sites =>
    intro id b' hb' site hsite
    obtain ⟨b, hi, rfl⟩ := hof hb'
    rw [hg, (grows hi).name, (grows hi).scope, (grows hi).kind]
    exact (sites hi site hsite).elim (h.sites hi site) fun h => h
  case merged =>
    intro id b' hb' hk ho
    obtain ⟨b, hi, rfl⟩ := hof hb'
    exact merged hi ((grows hi).kind ▸ hk) ho
  case bare =>
    intro id b' hb'
    obtain ⟨b, hi, rfl⟩ := hof hb'
    rw [(bare hi).1, (bare hi).2]
    exact h.bare hi
  case varSites =>
    intro id site hm
    rw [hv] at hm
    obtain ⟨b, hi, hsite, hk⟩ := h.varSites hm
    exact ⟨_, hget hi, (grows hi).sites hsite, (grows hi).kind ▸ hk⟩
  case members =>
    intro e he id hm
    rw [hs] at he
    obtain ⟨b, hi, hk⟩ := h.members he id hm
    exact ⟨_, hget hi, (grows hi).kind ▸ hk⟩
  case pending =>
    intro r hr
    rw [hp] at hr
    rw [hg]
    exact h.pending hr

theorem tag (h : d.Sound) (id : BindingId) (x : Hazard) : (d.tag id x).Sound := by
  refine h.map (fun i b => if id = i then b.addHazard x else b) rfl rfl rfl rfl rfl
    (fun i => binding?_tag d id x i) ?_ ?_ ?_ ?_
  · intro i b _
    split
    · exact b.grows_addHazard x
    · exact .refl b
  · intro i b _
    split
    · rw [Binding.addHazard_eq]; exact ⟨rfl, rfl⟩
    · exact ⟨rfl, rfl⟩
  · intro i b _ site hs
    split at hs
    · rw [Binding.addHazard_sites] at hs; exact .inl hs
    · exact .inl hs
  · intro i b hi hk ho
    split at ho
    · rw [Binding.addHazard_others] at ho
      rw [if_pos ‹_›]
      exact Binding.mem_addHazard.mpr (.inl (h.merged hi hk ho))
    · rw [if_neg ‹_›]
      exact h.merged hi hk ho

theorem join (h : d.Sound) {kind : BindingKind} {site : Site} {old : BindingId}
    (hs : site.scope = d.current) (hk : kind.isFunctionScoped = true)
    (hold : d.graph.here? site.name.text (d.attachment kind) = some old)
    (hko : (d.kindOf old).isFunctionScoped = true) : (d.join old site).Sound := by
  obtain ⟨o, ho, hname, hscope⟩ := h.held hold
  have hkind : o.kind.isFunctionScoped = true := by
    rw [kindOf, ho] at hko
    exact hko
  refine h.map (fun i b => if old = i then joined site b else b) (d.graph_join old site) ?_ ?_ ?_ ?_
    (binding?_join d old site) ?_ ?_ ?_ ?_
  iterate 4 unfold Draft.join; split <;> rfl
  · intro i b _
    split
    · exact grows_joined site b
    · exact .refl b
  · intro i b _
    split
    · unfold joined
      split
      · rw [Binding.addHazard_eq]; exact ⟨rfl, rfl⟩
      · exact ⟨rfl, rfl⟩
    · exact ⟨rfl, rfl⟩
  · intro i b hi x hx
    split at hx
    · subst i
      rw [ho] at hi
      cases hi
      rw [Binding.sites, joined_others, (grows_joined site o).first, List.mem_cons,
        List.mem_append, ← or_assoc, List.mem_singleton] at hx
      rcases hx with hx | rfl
      · exact .inl (List.mem_cons.mpr hx)
      · refine .inr ⟨hname.symm, hs ▸ h.current, ?_⟩
        rw [hscope, Graph.owner, if_pos hkind, attachment, if_pos hk, hs]
    · exact .inl hx
  · intro i b hi hv hne
    split at hne
    · rw [if_pos ‹_›, joined, if_pos hv]
      exact Binding.mem_addHazard.mpr (.inr rfl)
    · rw [if_neg ‹_›]
      exact h.merged hi hv hne

/-- A new binding keeps what holds of the others. -/
theorem addFresh (h : d.Sound) (hg : d.Grows d') (kind : BindingKind) (site : Site)
    (hs : site.scope = d.current) (x : Binding) (hx : (d.fresh kind site).Grows x)
    (hx' : x.others = [] ∧ x.references = [] ∧ x.loop = none)
    (ho : d'.graph.outlines = d.graph.outlines) (hc : d'.current = d.current)
    (hp : d'.pending = d.pending) (hv : d'.varSites = d.varSites)
    (hst : d'.table.statements = d.table.statements)
    (hnew : d'.binding? d.table.bindings.length = some x)
    (hof : ∀ {i b'}, d'.binding? i = some b' → i = d.table.bindings.length ∨
      ∃ b, d.binding? i = some b ∧ b.Grows b' ∧ b'.others = b.others ∧
        b'.references = b.references ∧ b'.loop = b.loop)
    (hheld : ∀ {name s id}, d'.graph.here? name s = some id → d.graph.here? name s = some id ∨
      id = d.table.bindings.length ∧ name = site.name.text ∧ s = d.attachment kind)
    (howned : ∃ old, d'.graph.here? site.name.text (d.attachment kind) = some old ∧
      (old = d.table.bindings.length ∨ d'.Tagged old .duplicateBlockBinding ∧
        d'.Tagged d.table.bindings.length .duplicateBlockBinding)) : d'.Sound := by
  have hsize := Graph.size_of_outlines ho
  have howner : ∀ k s, d'.graph.owner k s = d.graph.owner k s := by
    intro k s
    rw [Graph.owner, Graph.owner, Graph.nearestFunction_of_outlines ho]
  have hnewOf : ∀ {b'}, d'.binding? d.table.bindings.length = some b' → b' = x := by
    intro b' hb
    rw [hnew] at hb
    exact (Option.some.inj hb).symm
  constructor
  case graph => exact h.graph.of_outlines ho
  case current => rw [hsize, hc]; exact h.current
  case held =>
    intro name s id hn
    rcases hheld hn with hn | ⟨rfl, rfl, rfl⟩
    · obtain ⟨b, hb, hname, hscope⟩ := h.held hn
      obtain ⟨b', hb', hgb⟩ := hg.binding hb
      exact ⟨b', hb', hgb.name.trans hname, hgb.scope.trans hscope⟩
    · exact ⟨x, hnew, hx.name, hx.scope⟩
  case owned =>
    intro id b' hb'
    rcases hof hb' with rfl | ⟨b, hb, hgb, _⟩
    · rw [hnewOf hb', hx.name, hx.scope]
      exact howned
    · obtain ⟨old, hn, hor⟩ := h.owned hb
      rw [hgb.name, hgb.scope]
      exact ⟨old, hg.here hn, hor.imp_right fun ht => ⟨ht.1.grows hg, ht.2.grows hg⟩⟩
  case sites =>
    intro id b' hb' y hy
    rw [hsize, howner]
    rcases hof hb' with rfl | ⟨b, hb, hgb, hoth, _⟩
    · rw [hnewOf hb', Binding.sites, hx'.1, hx.first, List.mem_singleton] at hy
      rw [hnewOf hb', hx.name, hx.scope, hx.kind, hy]
      refine ⟨rfl, hs ▸ h.current, ?_⟩
      show d.attachment kind = d.graph.owner kind site.scope
      rw [hs]
      rfl
    · rw [Binding.sites, hoth, hgb.first] at hy
      rw [hgb.name, hgb.scope, hgb.kind]
      exact h.sites hb y hy
  case merged =>
    intro id b' hb' hk hne
    rcases hof hb' with rfl | ⟨b, hb, hgb, hoth, _⟩
    · rw [hnewOf hb'] at hne
      exact absurd hx'.1 hne
    · exact hgb.hazards (h.merged hb (hgb.kind ▸ hk) (hoth ▸ hne))
  case bare =>
    intro id b' hb'
    rcases hof hb' with rfl | ⟨b, hb, _, _, hr, hl⟩
    · rw [hnewOf hb']; exact hx'.2
    · rw [hr, hl]; exact h.bare hb
  case varSites =>
    intro id y hm
    rw [hv] at hm
    obtain ⟨b, hb, hy, hk⟩ := h.varSites hm
    obtain ⟨b', hb', hgb⟩ := hg.binding hb
    exact ⟨b', hb', hgb.sites hy, hgb.kind ▸ hk⟩
  case members =>
    intro e he id hm
    rw [hst] at he
    obtain ⟨b, hb, hk⟩ := h.members he id hm
    obtain ⟨b', hb', hgb⟩ := hg.binding hb
    exact ⟨b', hb', hgb.kind ▸ hk⟩
  case pending =>
    intro r hr
    rw [hp] at hr
    rw [hsize]
    exact h.pending hr

theorem own (h : d.Sound) {kind : BindingKind} {site : Site} (hs : site.scope = d.current)
    (hn : d.graph.here? site.name.text (d.attachment kind) = none) : (d.own kind site).Sound := by
  have hhere := here?_own (h.attachment_lt kind) hn
  refine h.addFresh (grows_own hn) kind site hs (d.fresh kind site) (.refl _) ⟨rfl, rfl, rfl⟩
    (d.outlines_own kind site) rfl rfl rfl rfl ?_ ?_ ?_ ?_
  · rw [binding?_own, if_pos rfl]
  · intro i b' hb'
    rw [binding?_own] at hb'
    split at hb'
    · exact .inl ‹_›
    · exact .inr ⟨b', hb', .refl b', rfl, rfl, rfl⟩
  · intro name s id hid
    rw [hhere] at hid
    split at hid
    · exact .inr ⟨(Option.some.inj hid).symm, ‹_›⟩
    · exact .inl hid
  · exact ⟨_, by rw [hhere, if_pos ⟨rfl, rfl⟩], .inl rfl⟩

theorem clash (h : d.Sound) {kind : BindingKind} {site : Site} {old : BindingId}
    (hs : site.scope = d.current)
    (hold : d.graph.here? site.name.text (d.attachment kind) = some old) :
    (d.clash old kind site).Sound := by
  obtain ⟨o, ho, _, _⟩ := h.held hold
  have hne : old ≠ d.table.bindings.length := Nat.ne_of_lt (binding?_lt ho)
  have hget := binding?_clash d old kind site
  refine h.addFresh (d.grows_clash old kind site) kind site hs
    ((d.fresh kind site).addHazard .duplicateBlockBinding) (Binding.grows_addHazard _ _)
    ⟨by rw [Binding.addHazard_others]; rfl, by rw [Binding.addHazard_eq]; exact ⟨rfl, rfl⟩⟩
    rfl rfl rfl rfl rfl ?_ ?_ ?_ ?_
  · rw [hget, if_pos rfl]
  · intro i b' hb'
    rw [hget] at hb'
    split at hb'
    · exact .inl ‹_›
    · obtain ⟨b, hb, rfl⟩ := Option.map_eq_some_iff.mp hb'
      refine .inr ⟨b, hb, ?_⟩
      split
      · refine ⟨b.grows_addHazard _, Binding.addHazard_others _ b, ?_⟩
        rw [Binding.addHazard_eq]
        exact ⟨rfl, rfl⟩
      · exact ⟨.refl b, rfl, rfl, rfl⟩
  · exact fun hid => .inl hid
  · refine ⟨old, hold, .inr ⟨⟨o.addHazard .duplicateBlockBinding, ?_, ?_⟩,
      ⟨(d.fresh kind site).addHazard .duplicateBlockBinding, ?_, ?_⟩⟩⟩
    · rw [hget, if_neg hne, ho, Option.map_some, if_pos rfl]
    · exact Binding.mem_addHazard.mpr (.inr rfl)
    · rw [hget, if_pos rfl]
    · exact Binding.mem_addHazard.mpr (.inr rfl)

theorem declare (h : d.Sound) (kind : BindingKind) {site : Site} (hs : site.scope = d.current) :
    (d.declare kind site).1.Sound := by
  rcases d.declare_cases kind site with ⟨hn, hd⟩ | ⟨old, hold, ⟨hk, hko, hd⟩ | ⟨_, hd⟩⟩ <;> rw [hd]
  · exact h.own hs hn
  · exact h.join hs hk hold hko
  · exact h.clash hs hold

/-- The binding that a declaration feeds lists it. -/
theorem declare_site (h : d.Sound) (kind : BindingKind) (site : Site) :
    ∃ b, (d.declare kind site).1.binding? (d.declare kind site).2 = some b ∧ site ∈ b.sites ∧
      (kind.isFunctionScoped = true → b.kind.isFunctionScoped = true) := by
  rcases d.declare_cases kind site with ⟨hn, hd⟩ | ⟨old, hold, ⟨hk, hko, hd⟩ | ⟨_, hd⟩⟩ <;> rw [hd]
  · exact ⟨d.fresh kind site, by rw [binding?_own, if_pos rfl], List.mem_cons_self, fun h => h⟩
  · obtain ⟨o, ho, _⟩ := h.held hold
    refine ⟨joined site o, by rw [binding?_join, ho, Option.map_some, if_pos rfl], ?_, fun _ => ?_⟩
    · rw [Binding.sites, joined_others]
      exact List.mem_cons_of_mem _ (List.mem_append_right _ (List.mem_singleton.mpr rfl))
    · rw [kindOf, ho] at hko
      rw [(grows_joined site o).kind]
      exact hko
  · refine ⟨(d.fresh kind site).addHazard .duplicateBlockBinding, ?_, ?_, fun h => ?_⟩
    · rw [binding?_clash, if_pos rfl]
    · rw [Binding.addHazard_sites]; exact List.mem_cons_self
    · rw [Binding.addHazard_kind]; exact h

theorem mark (h : d.Sound) (id : BindingId) (site : Site) : (d.mark id site).Sound := by
  unfold Draft.mark
  split
  · exact h.tag id _
  · exact h

theorem mem_members_noteStatement {d : Draft} {id : BindingId} {e : StatementEntry}
    (he : e ∈ (d.noteStatement id).table.statements) {i : BindingId} (hi : i ∈ e.members) :
    i = id ∨ ∃ e' ∈ d.table.statements, i ∈ e'.members := by
  unfold noteStatement at he
  split at he
  · exact .inr ⟨e, he, hi⟩
  · obtain ⟨j, hj⟩ := List.mem_iff_getElem?.mp he
    rw [List.getElem?_modify] at hj
    obtain ⟨e', he', rfl⟩ := Option.map_eq_some_iff.mp hj
    split at hi
    · rcases List.mem_append.mp hi with hi | hi
      · exact .inr ⟨e', List.mem_of_getElem? he', hi⟩
      · exact .inl (List.mem_singleton.mp hi)
    · exact .inr ⟨e', List.mem_of_getElem? he', hi⟩
  · rcases List.mem_append.mp he with he | he
    · exact .inr ⟨e, he, hi⟩
    · rw [List.mem_singleton.mp he] at hi
      exact .inl (List.mem_singleton.mp hi)

theorem noteStatement_eq (d : Draft) (id : BindingId) :
    d.noteStatement id = { d with
      table := { d.table with statements := (d.noteStatement id).table.statements }
      statements := (d.noteStatement id).statements } := by
  unfold noteStatement
  split <;> rfl

theorem record (h : d.Sound) {kind : BindingKind} {id : BindingId} {site : Site} {b : Binding}
    (hb : d.binding? id = some b) (hs : site ∈ b.sites)
    (hk : kind.isFunctionScoped = true → b.kind.isFunctionScoped = true) :
    (d.record kind id site).Sound := by
  unfold Draft.record
  split
  · rename_i hv
    have hfs := hk (by rw [eq_of_beq hv]; rfl)
    rw [noteStatement_eq]
    refine { h with varSites := ?_, members := ?_ }
    · intro i s hm
      rcases List.mem_append.mp hm with hm | hm
      · exact h.varSites hm
      · cases List.mem_singleton.mp hm
        exact ⟨b, hb, hs, hfs⟩
    · intro e he i hi
      rcases mem_members_noteStatement he hi with rfl | ⟨e', he', hi⟩
      · exact ⟨b, hb, hfs⟩
      · exact h.members he' i hi
  · exact h

theorem declareVariable (h : d.Sound) (kind : BindingKind) {site : Site}
    (hs : site.scope = d.current) : (d.declareVariable kind site).Sound := by
  obtain ⟨b, hb, hsite, hk⟩ := h.declare_site kind site
  obtain ⟨b', hb', hg⟩ := (grows_mark _ (d.declare kind site).2 site).binding hb
  rw [declareVariable_eq]
  exact ((h.declare kind hs).mark _ site).record hb' (hg.sites hsite) (hg.kind ▸ hk)

/-! ### Scopes -/

theorem size_openScope (d : Draft) (kind : ScopeKind) (span : Span) (callable : Option Callable)
    (cases : List Span) : (d.openScope kind span callable cases).graph.size = d.graph.size + 1 := by
  rw [← Graph.outlines_length, outlines_openScope, List.length_append, Graph.outlines_length]
  rfl

theorem parent?_openScope (hc : d.current < d.graph.size) (kind : ScopeKind) (span : Span)
    (callable : Option Callable) (cases : List Span) :
    (d.openScope kind span callable cases).graph.parent? d.graph.size = some d.current := by
  rw [Graph.parent?_eq, outline_openScope]
  show (if d.graph.size == 0 then none else some d.current) = _
  rw [if_neg (by rw [beq_iff_eq]; exact Nat.ne_of_gt (Nat.zero_lt_of_lt hc))]

theorem nearestFunction_openScope (d : Draft) (kind : ScopeKind) (span : Span)
    (callable : Option Callable) (cases : List Span) :
    (d.openScope kind span callable cases).graph.nearestFunction d.graph.size =
      if kind.isFunctionLevel then d.graph.size else d.graph.nearestFunction d.current := by
  rw [Graph.nearestFunction_eq, outline_openScope]
  rfl

theorem openScope_graph (hg : d.graph.Sound) (hc : d.current < d.graph.size) (kind : ScopeKind)
    (span : Span) (callable : Option Callable) (cases : List Span) :
    (d.openScope kind span callable cases).graph.Sound := by
  have hgrow := d.grows_openScope kind span callable cases
  have hsize := size_openScope d kind span callable cases
  have hparent := parent?_openScope hc kind span callable cases
  constructor
  · intro id up hp
    rcases Nat.lt_or_ge id d.graph.size with hi | hi
    · rw [hgrow.parent? hi] at hp
      exact hg.parent_lt hp
    · have hid : id = d.graph.size := by
        have := Graph.parent?_lt_size hp
        omega
      rw [hid, hparent] at hp
      rw [hid, ← Option.some.inj hp]
      exact hc
  · intro id hid hp
    rcases Nat.lt_or_ge id d.graph.size with hi | hi
    · exact hg.rooted hi (hgrow.parent? hi ▸ hp)
    · rw [show id = d.graph.size by omega, hparent] at hp
      cases hp
  · intro id hid
    rcases Nat.lt_or_ge id d.graph.size with hi | hi
    · have hlevel := hg.level_rule hi
      rw [Graph.isLevel, Graph.kind?_eq, hgrow.outline hi, ← Graph.kind?_eq, ← Graph.isLevel,
        hgrow.nearestFunction hi, hgrow.parent? hi]
      split at hlevel
      · rwa [if_pos ‹_›]
      · obtain ⟨up, hp, hf⟩ := hlevel
        rw [if_neg ‹_›, hf]
        exact ⟨up, hp, (hgrow.nearestFunction (Nat.lt_trans (hg.parent_lt hp) hi)).symm⟩
    · rw [show id = d.graph.size by omega, Graph.isLevel, Graph.kind?_eq, outline_openScope,
        nearestFunction_openScope]
      show if kind.isFunctionLevel = true then _ else _
      split
      · rfl
      · exact ⟨d.current, hparent, (hgrow.nearestFunction hc).symm⟩

theorem openScope (h : d.Sound) (kind : ScopeKind) (span : Span) (callable : Option Callable)
    (cases : List Span) : (d.openScope kind span callable cases).Sound := by
  have hgrow := d.grows_openScope kind span callable cases
  have hsize := hgrow.size_le
  have hhere := d.here?_openScope kind span callable cases
  constructor
  case graph => exact openScope_graph h.graph h.current kind span callable cases
  case current =>
    rw [size_openScope]
    exact Nat.lt_succ_self _
  case held =>
    intro name s id hn
    rw [hhere] at hn
    exact h.held hn
  case owned =>
    intro id b hb
    rw [hhere]
    exact h.owned hb
  case sites =>
    intro id b hb site hs
    obtain ⟨hname, hlt, hscope⟩ := h.sites hb site hs
    refine ⟨hname, Nat.lt_of_lt_of_le hlt hsize, ?_⟩
    rw [Graph.owner, hgrow.nearestFunction hlt]
    exact hscope
  case merged => exact h.merged
  case bare => exact h.bare
  case varSites => exact h.varSites
  case members => exact h.members
  case pending => exact fun hr => Nat.lt_of_lt_of_le (h.pending hr) hsize

theorem closeScope (h : d.Sound) : d.closeScope.Sound := by
  refine { h with current := ?_ }
  show (d.graph.parent? d.current).getD 0 < d.graph.size
  cases hp : d.graph.parent? d.current with
  | none => exact Nat.lt_of_le_of_lt (Nat.zero_le _) h.current
  | some up => exact Nat.lt_trans (h.graph.parent_lt hp) h.current

/-! ### Runs -/

/-- Every event keeps a draft sound. -/
theorem step (h : d.Sound) {e : Event} (he : d.step e = .ok d') : d'.Sound := by
  cases e with
  | enter kind span callable cases => cases he; exact h.openScope kind span callable cases
  | leave => cases he; exact h.closeScope
  | openStatement | closeStatement | evalCall | dynamic => cases he; exact { h with }
  | declare kind => cases he; exact h.declareVariable kind rfl
  | callee name ready problem =>
    rcases step_callee_ok he with rfl | ⟨_, rfl⟩
    · exact h
    · exact h.declareVariable .callee rfl
  | refer name kind =>
    cases he
    refine { h with pending := fun {r} hr => ?_ }
    rcases List.mem_append.mp hr with hr | hr
    · exact h.pending hr
    · rw [List.mem_singleton.mp hr]; exact h.current
  | thisUse =>
    obtain ⟨_, rfl⟩ := step_thisUse_ok he
    exact { h with }
  | fault f => cases he

theorem steps (h : d.Sound) {es : List Event} (hs : d.steps es = .ok d') : d'.Sound :=
  steps_invariant (fun _ _ h he => h.step he) h hs

/-- What each event keeps of a sound draft, all of them keep. -/
theorem invariant (hd : d.Sound) {P : Draft → Prop}
    (hstep : ∀ {d d' : Draft} {e : Event}, P d → d.Sound → d.step e = .ok d' → P d') (h : P d)
    {es : List Event} (hs : d.steps es = .ok d') : P d' := by
  have hboth : P d' ∧ d'.Sound := steps_invariant (P := fun x => P x ∧ x.Sound)
    (fun _ _ h he => ⟨hstep h.1 h.2 he, h.2.step he⟩) ⟨h, hd⟩ hs
  exact hboth.1

/-- The draft in which only the script's own scope is open. -/
theorem start (span : Span) : (({} : Draft).openScope .program span none []).Sound := by
  constructor
  case graph =>
    constructor
    · intro id up hp
      cases id <;> cases hp
    · intro id hid _
      exact Nat.lt_one_iff.mp hid
    · intro id hid
      obtain rfl := Nat.lt_one_iff.mp hid
      rfl
  case current => exact Nat.zero_lt_one
  case held =>
    intro name s id hn
    rw [here?_openScope] at hn
    cases hn
  case owned | sites | merged | bare => intro id b hb; cases hb
  case varSites | members | pending => intros; contradiction

end Sound

/-- The drafts of a script are sound. -/
theorem sound_ofScript {script : Node} {d : Draft}
    (h : Draft.steps {} (Event.ofScript script) = .ok d) : d.Sound := by
  obtain ⟨m, he, h⟩ := steps_cons_ok.mp h
  cases he
  exact (Sound.start script.span).steps h

/-! ### What a declaration leaves alone -/

/-- Two drafts differ in their names and statements only. -/
structure Frame (d d' : Draft) : Prop where
  outlines : d'.graph.outlines = d.graph.outlines
  current : d'.current = d.current
  pending : d'.pending = d.pending
  dynamic : d'.dynamic = d.dynamic
  evalCalls : d'.evalCalls = d.evalCalls
  globalReach : d'.globalReach = d.globalReach
  free : d'.table.free = d.table.free

namespace Frame

variable {d d' d'' : Draft}

theorem refl (d : Draft) : d.Frame d := ⟨rfl, rfl, rfl, rfl, rfl, rfl, rfl⟩

theorem symm (h : d.Frame d') : d'.Frame d :=
  ⟨h.outlines.symm, h.current.symm, h.pending.symm, h.dynamic.symm, h.evalCalls.symm,
    h.globalReach.symm, h.free.symm⟩

theorem trans (h : d.Frame d') (h' : d'.Frame d'') : d.Frame d'' :=
  ⟨h'.outlines.trans h.outlines, h'.current.trans h.current, h'.pending.trans h.pending,
    h'.dynamic.trans h.dynamic, h'.evalCalls.trans h.evalCalls,
    h'.globalReach.trans h.globalReach, h'.free.trans h.free⟩

end Frame

variable (d : Draft) (kind : BindingKind) (id : BindingId) (site : Site)

theorem frame_declare : d.Frame (d.declare kind site).1 := by
  rcases d.declare_cases kind site with ⟨_, hd⟩ | ⟨old, _, ⟨_, _, hd⟩ | ⟨_, hd⟩⟩ <;> rw [hd]
  · exact { Frame.refl d with outlines := d.outlines_own kind site }
  · show d.Frame (d.join old site)
    unfold join
    split <;> exact { Frame.refl d with }
  · exact { Frame.refl d with }

theorem frame_mark : d.Frame (d.mark id site) := by
  unfold mark
  split <;> exact { Frame.refl d with }

theorem frame_record : d.Frame (d.record kind id site) := by
  unfold record
  split
  · rw [Sound.noteStatement_eq]
    exact { Frame.refl d with }
  · exact .refl d

theorem frame_declareVariable : d.Frame (d.declareVariable kind site) := by
  rw [declareVariable_eq]
  exact ((d.frame_declare kind site).trans (frame_mark _ _ _)).trans (frame_record _ _ _ _)

theorem record_graph : (d.record kind id site).graph = d.graph := by
  unfold record
  split
  · rw [Sound.noteStatement_eq]
  · rfl

theorem children?_declareVariable (s : ScopeId) :
    (d.declareVariable kind site).graph.children? s = d.graph.children? s := by
  have hdeclare : (d.declare kind site).1.graph.children? s = d.graph.children? s := by
    rcases d.declare_cases kind site with ⟨_, hd⟩ | ⟨old, _, ⟨_, _, hd⟩ | ⟨_, hd⟩⟩ <;> rw [hd]
    · show Option.map _ (d.graph.scopes.modify _ _)[s]? = Option.map _ d.graph.scopes[s]?
      rw [List.getElem?_modify]
      cases d.graph.scopes[s]? with
      | none => rfl
      | some x => by_cases hs : d.attachment kind = s <;> simp [hs]
    · rw [graph_join]
    · rfl
  rw [declareVariable_eq, record_graph, mark, ← hdeclare]
  split <;> rfl

/-! ### What an event does to the scopes -/

/-- Two drafts have the same scopes, but for the names in them, and the same one is open. -/
structure SameScopes (d d' : Draft) : Prop where
  outlines : d'.graph.outlines = d.graph.outlines
  children : ∀ s, d'.graph.children? s = d.graph.children? s
  current : d'.current = d.current

theorem SameScopes.refl (d : Draft) : d.SameScopes d := ⟨rfl, fun _ => rfl, rfl⟩

/-- An event opens a scope, closes one, or leaves them as they are. -/
theorem step_scopes {d d' : Draft} {e : Event} (h : d.step e = .ok d') :
    (∃ kind span callable cases, e = .enter kind span callable cases ∧
      d' = d.openScope kind span callable cases) ∨
    (e = .leave ∧ d' = d.closeScope) ∨ e.keepsScopes = true ∧ d.SameScopes d' := by
  have hdeclare : ∀ kind site, d.SameScopes (d.declareVariable kind site) := fun kind site =>
    ⟨(d.frame_declareVariable kind site).outlines, d.children?_declareVariable kind site,
      (d.frame_declareVariable kind site).current⟩
  cases e with
  | enter kind span callable cases => cases h; exact .inl ⟨kind, span, callable, cases, rfl, rfl⟩
  | leave => cases h; exact .inr (.inl ⟨rfl, rfl⟩)
  | openStatement | closeStatement | refer | evalCall | dynamic =>
    cases h
    exact .inr (.inr ⟨rfl, { SameScopes.refl d with }⟩)
  | declare => cases h; exact .inr (.inr ⟨rfl, hdeclare _ _⟩)
  | callee name ready problem =>
    rcases step_callee_ok h with rfl | ⟨_, rfl⟩
    · exact .inr (.inr ⟨rfl, .refl d'⟩)
    · exact .inr (.inr ⟨rfl, hdeclare _ _⟩)
  | thisUse =>
    obtain ⟨_, rfl⟩ := step_thisUse_ok h
    exact .inr (.inr ⟨rfl, { SameScopes.refl d with }⟩)
  | fault => cases h

theorem SameScopes.of_step {d d' : Draft} {e : Event} (he : e.keepsScopes = true)
    (h : d.step e = .ok d') : d.SameScopes d' := by
  rcases step_scopes h with ⟨_, _, _, _, rfl, _⟩ | ⟨rfl, _⟩ | ⟨_, hs⟩
  · cases he
  · cases he
  · exact hs

end Draft

end ScopeLowering
