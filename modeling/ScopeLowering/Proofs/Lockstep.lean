import ScopeLowering.Proofs.Growth
import ScopeLowering.Proofs.Stretching

/-!
# Two readings in lockstep

Reading a script and reading it with its offsets moved meet the same events, but for the offsets in
them, up to the first fault (`Alike`). And what the events add up to is the same, but for the
offsets (`Alike.steps`).
-/

namespace ScopeLowering

variable (σ : Stretch)

/-! ### Drafts -/

theorem map_modify {α β : Type} {f : α → β} {g : α → α} {h : β → β} (hc : ∀ a, f (g a) = h (f a))
    (xs : List α) (i : Nat) : (xs.modify i g).map f = (xs.map f).modify i h := by
  refine List.ext_getElem? fun j => ?_
  simp only [List.getElem?_map, List.getElem?_modify]
  cases xs[j]? with
  | none => rfl
  | some a => by_cases hij : i = j <;> simp [hij, hc]

def Draft.stretch (d : Draft) : Draft :=
  { d with
    graph := d.graph.stretch σ
    table := d.table.stretch σ
    statements := d.statements.map fun e => (e.1.stretch σ, e.2)
    pending := d.pending.map (·.stretch σ)
    varSites := d.varSites.map fun e => (e.1, e.2.stretch σ)
    evalCalls := d.evalCalls.map (·.stretch σ) }

def Event.stretch : Event → Event
  | enter kind span callable cases =>
    enter kind (span.stretch σ) (callable.map (·.stretch σ)) (cases.map (·.stretch σ))
  | openStatement s => openStatement (s.stretch σ)
  | declare kind name st hasInit ready unbraced forEach =>
    declare kind (name.stretch σ) (st.map (·.stretch σ)) hasInit (ready.stretch σ) unbraced forEach
  | callee name ready problem => callee (name.stretch σ) (ready.stretch σ) problem
  | refer name kind => refer (name.stretch σ) kind
  | evalCall name => evalCall (name.stretch σ)
  | leave => leave
  | closeStatement => closeStatement
  | dynamic => dynamic
  | thisUse => thisUse
  | fault f => fault f

theorem Binding.stretch_addHazard (h : Hazard) (b : Binding) :
    (b.addHazard h).stretch σ = (b.stretch σ).addHazard h := by
  by_cases hh : h ∈ b.hazards <;> simp [addHazard, stretch, hh]

theorem Binding.stretch_merge (s : Site) (b : Binding) :
    (b.merge s).stretch σ = (b.stretch σ).merge (s.stretch σ) := by
  simp [merge, stretch]

theorem Table.stretch_modify {f f' : Binding → Binding}
    (h : ∀ b, (f b).stretch σ = f' (b.stretch σ)) (t : Table) (id : BindingId) :
    (t.modify id f).stretch σ = (t.stretch σ).modify id f' := by
  unfold modify stretch
  rw [map_modify h]

theorem Graph.stretch_modify {f f' : Scope → Scope} (h : ∀ s, (f s).stretch σ = f' (s.stretch σ))
    (g : Graph) (id : ScopeId) : (g.modify id f).stretch σ = (g.stretch σ).modify id f' := by
  unfold modify stretch
  rw [map_modify h]

namespace Draft

variable (d : Draft)

@[simp] theorem graph_stretch : (d.stretch σ).graph = d.graph.stretch σ := rfl

@[simp] theorem table_stretch : (d.stretch σ).table = d.table.stretch σ := rfl

@[simp] theorem current_stretch : (d.stretch σ).current = d.current := rfl

theorem stretch_tag (id : BindingId) (h : Hazard) :
    (d.tag id h).stretch σ = (d.stretch σ).tag id h := by
  simp only [tag, stretch]
  rw [Table.stretch_modify σ (Binding.stretch_addHazard σ h)]

/-- The scopes when the current one has taken in another. -/
def adopting : Graph :=
  if d.graph.size = 0 then d.graph
  else d.graph.modify d.current fun s => { s with children := s.children ++ [d.graph.size] }

theorem openScope_eq (kind : ScopeKind) (span : Span) (callable : Option Callable)
    (cases : List Span) :
    d.openScope kind span callable cases =
      { d with
        graph := ⟨d.adopting.scopes ++ [d.newScope kind span callable cases]⟩
        current := d.graph.size } := by
  unfold openScope adopting newScope
  by_cases h : d.graph.size = 0 <;> simp [h]

theorem stretch_adopting : d.adopting.stretch σ = (d.stretch σ).adopting := by
  unfold adopting
  rw [graph_stretch, Graph.size_stretch]
  split
  · rfl
  · refine Graph.stretch_modify σ ?_ d.graph d.current
    exact fun _ => rfl

theorem stretch_newScope (kind : ScopeKind) (span : Span) (callable : Option Callable)
    (cases : List Span) :
    (d.newScope kind span callable cases).stretch σ =
      (d.stretch σ).newScope kind (span.stretch σ) (callable.map (·.stretch σ))
        (cases.map (·.stretch σ)) := by
  simp [newScope, Scope.stretch]

theorem stretch_openScope (kind : ScopeKind) (span : Span) (callable : Option Callable)
    (cases : List Span) :
    (d.openScope kind span callable cases).stretch σ =
      (d.stretch σ).openScope kind (span.stretch σ) (callable.map (·.stretch σ))
        (cases.map (·.stretch σ)) := by
  rw [openScope_eq, openScope_eq, ← stretch_newScope, ← stretch_adopting]
  simp [stretch, Graph.stretch, Graph.size]

theorem stretch_closeScope : d.closeScope.stretch σ = (d.stretch σ).closeScope := by
  simp [closeScope, stretch]

theorem attachment_stretch (kind : BindingKind) :
    (d.stretch σ).attachment kind = d.attachment kind := by
  simp [attachment]

theorem stretch_addBinding (b : Binding) :
    (d.addBinding b).stretch σ = (d.stretch σ).addBinding (b.stretch σ) := by
  simp [addBinding, stretch, Table.stretch]

theorem stretch_fresh (kind : BindingKind) (site : Site) :
    (d.fresh kind site).stretch σ = (d.stretch σ).fresh kind (site.stretch σ) := by
  simp [fresh, Binding.stretch, attachment_stretch]

theorem length_stretch : (d.table.stretch σ).bindings.length = d.table.bindings.length :=
  List.length_map _

theorem stretch_own (kind : BindingKind) (site : Site) :
    (d.own kind site).stretch σ = (d.stretch σ).own kind (site.stretch σ) := by
  unfold own
  rw [stretch_addBinding, stretch_fresh, attachment_stretch, table_stretch, length_stretch]
  refine congrArg (fun g => ({ d.stretch σ with graph := g } : Draft).addBinding _) ?_
  refine Graph.stretch_modify σ ?_ d.graph (d.attachment kind)
  exact fun _ => rfl

theorem kindOf_stretch (id : BindingId) : (d.stretch σ).kindOf id = d.kindOf id := by
  cases h : d.table.bindings[id]? <;> simp [kindOf, binding?, Table.stretch, h, Binding.stretch]

theorem stretch_join (old : BindingId) (site : Site) :
    (d.join old site).stretch σ = (d.stretch σ).join old (site.stretch σ) := by
  have htable := Table.stretch_modify σ (Binding.stretch_merge σ site) d.table old
  unfold join
  rw [kindOf_stretch]
  split
  · refine (stretch_tag ..).trans ?_
    exact congrArg (fun t => Draft.tag { d.stretch σ with table := t } old _) htable
  · exact congrArg (fun t => ({ d.stretch σ with table := t } : Draft)) htable

theorem stretch_clash (old : BindingId) (kind : BindingKind) (site : Site) :
    (d.clash old kind site).stretch σ = (d.stretch σ).clash old kind (site.stretch σ) := by
  unfold clash
  rw [stretch_tag, stretch_addBinding, stretch_tag, stretch_fresh, table_stretch, length_stretch]

/-- A declaration feeds the same binding. -/
theorem declare_stretch (kind : BindingKind) (site : Site) :
    (d.stretch σ).declare kind (site.stretch σ) =
      ((d.declare kind site).1.stretch σ, (d.declare kind site).2) := by
  have hhere : (d.stretch σ).graph.here? (site.stretch σ).name.text
      ((d.stretch σ).attachment kind) = d.graph.here? site.name.text (d.attachment kind) := by
    simp [attachment_stretch, Site.stretch]
  -- both drafts are in the same case, because they hold the same names of the same kinds
  rcases (d.stretch σ).declare_cases kind (site.stretch σ) with
    ⟨hn, he⟩ | ⟨old, hold, ⟨hk, hko, he⟩ | ⟨hk, he⟩⟩ <;>
  rcases d.declare_cases kind site with
    ⟨hn', he'⟩ | ⟨old', hold', ⟨hk', hko', he'⟩ | ⟨hk', he'⟩⟩ <;>
  simp_all [kindOf_stretch, stretch_own, stretch_join, stretch_clash, length_stretch]

theorem stretch_mark (id : BindingId) (site : Site) :
    (d.mark id site).stretch σ = (d.stretch σ).mark id (site.stretch σ) := by
  have hu : (site.stretch σ).unbraced = site.unbraced := rfl
  unfold mark
  rw [hu]
  split
  · exact d.stretch_tag σ id _
  · rfl

theorem stretch_noteStatement (id : BindingId) :
    (d.noteStatement id).stretch σ = (d.stretch σ).noteStatement id := by
  unfold noteStatement
  cases hs : d.statements with
  | nil => simp [stretch, hs]
  | cons e rest =>
    obtain ⟨st, i⟩ := e
    cases i with
    | none => simp [stretch, hs, Table.stretch, StatementEntry.stretch]
    | some i =>
      simp only [stretch, hs, Table.stretch, List.map_cons]
      rw [map_modify]
      exact fun _ => rfl

theorem stretch_record (kind : BindingKind) (id : BindingId) (site : Site) :
    (d.record kind id site).stretch σ = (d.stretch σ).record kind id (site.stretch σ) := by
  unfold record
  split
  · rw [← stretch_noteStatement]
    simp [stretch]
  · rfl

theorem stretch_declareVariable (kind : BindingKind) (site : Site) :
    (d.declareVariable kind site).stretch σ =
      (d.stretch σ).declareVariable kind (site.stretch σ) := by
  rw [declareVariable_eq, declareVariable_eq, declare_stretch, stretch_record, stretch_mark]

theorem thisIsGlobal_stretch : (d.stretch σ).thisIsGlobal = d.thisIsGlobal := by
  unfold thisIsGlobal
  rw [graph_stretch, current_stretch, Graph.ancestors_stretch]
  congr 2
  funext id
  rw [Graph.scope?_stretch]
  cases d.graph.scope? id with
  | none => rfl
  | some s => cases h : s.callable <;> simp [Scope.stretch, h, Callable.stretch]

/-- No step looks at offsets. -/
theorem step_stretch (e : Event) :
    (d.stretch σ).step (e.stretch σ) = (d.step e).map (stretch σ) := by
  cases e with
  | enter kind span callable cases =>
    exact congrArg Except.ok (d.stretch_openScope σ kind span callable cases).symm
  | leave => exact congrArg Except.ok (d.stretch_closeScope σ).symm
  | openStatement | closeStatement | refer | evalCall | dynamic =>
    simp [step, Event.stretch, Except.map, stretch, Reference.stretch]
  | declare kind name st hasInit ready unbraced forEach =>
    let site : Site := ⟨name, st, d.current, hasInit, ready, unbraced, forEach⟩
    exact congrArg Except.ok (d.stretch_declareVariable σ kind site).symm
  | callee name ready problem =>
    let site : Site := ⟨name, none, d.current, true, ready, false, false⟩
    have hsite := d.stretch_declareVariable σ .callee site
    simp only [step, Event.stretch, graph_stretch, current_stretch, Graph.here?_stretch,
      Ident.text_stretch]
    split
    · rfl
    · cases problem with
      | none => exact congrArg Except.ok hsite.symm
      | some f => rfl
  | thisUse =>
    simp only [step, Event.stretch, thisIsGlobal_stretch]
    split <;> rfl
  | fault f => rfl

end Draft

/-! ### Two runs -/

/-- What kind of fault it is. Messages and spans may tell of offsets. -/
def ScopeFault.bare : ScopeFault → ScopeFault
  | malformed .. => malformed "" none
  | f => f

/-- Two results that agree, but for a map and what faults say, are of the same kind. -/
theorem ScopeFault.agree_cases {α β : Type} {g : α → β} {x : Except ScopeFault α}
    {y : Except ScopeFault β} (h : y.mapError bare = (x.map g).mapError bare) :
    (∃ a, x = .ok a ∧ y = .ok (g a)) ∨
      ∃ f f', x = .error f ∧ y = .error f' ∧ f'.bare = f.bare := by
  cases x with
  | ok a =>
    cases y with
    | ok b => exact .inl ⟨a, rfl, congrArg Except.ok (Except.ok.inj h)⟩
    | error f' => cases h
  | error f =>
    cases y with
    | ok b => cases h
    | error f' => exact .inr ⟨f, f', rfl, rfl, Except.error.inj h⟩

namespace Event

/-- The events of two readings, the second with its offsets moved. Faults may differ in what they
say, and nothing counts after one. -/
inductive Alike : List Event → List Event → Prop
  | nil : Alike [] []
  | same (e : Event) {es es' : List Event} : Alike es es' → Alike (e :: es) (e.stretch σ :: es')
  | callee (name : Ident) (ready : Offset) {problem problem' : Option ScopeFault}
      {es es' : List Event} (h : problem'.map ScopeFault.bare = problem.map ScopeFault.bare) :
      Alike es es' →
      Alike (callee name ready problem :: es)
        (callee (name.stretch σ) (ready.stretch σ) problem' :: es')
  | fault {f f' : ScopeFault} (h : f'.bare = f.bare) (es es' : List Event) :
      Alike (fault f :: es) (fault f' :: es')

namespace Alike

variable {σ}

theorem append {es es' fs fs' : List Event} (he : Alike σ es es') (hf : Alike σ fs fs') :
    Alike σ (es ++ fs) (es' ++ fs') := by
  induction he with
  | nil => exact hf
  | same e _ ih => exact .same e ih
  | callee name ready h _ ih => exact .callee name ready h ih
  | fault h => exact .fault h _ _

theorem step_callee {problem problem' : Option ScopeFault}
    (h : problem'.map ScopeFault.bare = problem.map ScopeFault.bare) (d : Draft) (name : Ident)
    (ready : Offset) :
    (d.step (Event.callee name ready problem')).mapError ScopeFault.bare =
      (d.step (Event.callee name ready problem)).mapError ScopeFault.bare := by
  simp only [Draft.step]
  split
  · rfl
  · cases problem with
    | none =>
      cases problem' with
      | none => rfl
      | some f' => cases h
    | some f =>
      cases problem' with
      | none => cases h
      | some f' => exact congrArg Except.error (Option.some.inj h)

/-- Two first steps that are alike go on alike. -/
theorem steps_cons {d : Draft} {e e' : Event} {es es' : List Event}
    (hstep : ((d.stretch σ).step e').mapError ScopeFault.bare =
      ((d.step e).map (Draft.stretch σ)).mapError ScopeFault.bare)
    (hrest : ∀ d : Draft, ((d.stretch σ).steps es').mapError ScopeFault.bare =
      ((d.steps es).map (Draft.stretch σ)).mapError ScopeFault.bare) :
    ((d.stretch σ).steps (e' :: es')).mapError ScopeFault.bare =
      ((d.steps (e :: es)).map (Draft.stretch σ)).mapError ScopeFault.bare := by
  have hcons (d : Draft) (e : Event) (es : List Event) :
      d.steps (e :: es) = (d.step e).bind fun d => d.steps es := rfl
  rw [hcons, hcons]
  rcases ScopeFault.agree_cases hstep with ⟨d₁, hd, hd'⟩ | ⟨f, f', hd, hd', hf⟩
  · rw [hd, hd']
    exact hrest d₁
  · rw [hd, hd']
    exact congrArg Except.error hf

/-- Events that are alike add up to the same, but for the offsets, and fail in the same way. -/
theorem steps {es es' : List Event} (h : Alike σ es es') (d : Draft) :
    ((d.stretch σ).steps es').mapError ScopeFault.bare =
      ((d.steps es).map (Draft.stretch σ)).mapError ScopeFault.bare := by
  induction h generalizing d with
  | nil => rfl
  | same e _ ih => exact steps_cons (congrArg _ (d.step_stretch σ e)) ih
  | callee name ready h _ ih =>
    refine steps_cons ?_ ih
    rw [step_callee h]
    exact congrArg _ (d.step_stretch σ (.callee name ready _))
  | fault h => exact congrArg Except.error h

end Alike

end Event

end ScopeLowering
