import ScopeLowering.Proofs.Finishing
import ScopeLowering.Proofs.Planning
import ScopeLowering.Proofs.Rewriting

/-!
# What is known of a lowered binding

A `var` that is lowered has none of the hazards that block it. This module turns that into facts
about the scopes of the script (`Movable`): the `var` is declared once, no scope on the way to its
function holds its name, and all its uses lie in the block that it moves to. From these it follows
that its name, looked up in that block, finds it (`Movable.lookup`).
-/

namespace ScopeLowering

/-! ### Hazards of captures -/

theorem foldl_addHazard (hs : List Hazard) (b : Binding) :
    ∃ hazards, hs.foldl (fun b h => b.addHazard h) b = { b with hazards } ∧
      ∀ x, x ∈ hazards ↔ x ∈ b.hazards ∨ x ∈ hs := by
  induction hs generalizing b with
  | nil => exact ⟨b.hazards, rfl, fun x => by simp⟩
  | cons h hs ih =>
    obtain ⟨hazards, he, hm⟩ := ih (b.addHazard h)
    refine ⟨hazards, ?_, fun x => ?_⟩
    · rw [List.foldl_cons, he, Binding.addHazard_eq]
    · rw [hm, Binding.mem_addHazard, List.mem_cons, or_assoc]

namespace Scoping

/-- A binding with the hazards of its references. -/
theorem inspect_spec (s : Scoping) (i : BindingId) (b : Binding) :
    ∃ hazards loop, s.inspect i b = { b with hazards, loop } ∧
      ∀ x, x ∈ hazards ↔ x ∈ b.hazards ∨ b.isCandidate = true ∧ x ∈ s.captureHazards i b := by
  unfold inspect
  split
  · rename_i hc
    obtain ⟨hazards, he, hm⟩ := foldl_addHazard (s.captureHazards i b)
      { b with loop := s.graph.loopBetween b.first.scope b.scope }
    refine ⟨hazards, _, he, fun x => ?_⟩
    rw [hm, and_iff_right hc]
  · rename_i hc
    exact ⟨b.hazards, b.loop, rfl, fun x => by simp [hc]⟩

/-- The uses of a binding outside of the block of its declaration. -/
def strays (s : Scoping) (b : Binding) : List Reference :=
  b.references.filter fun r => !s.graph.isWithin r.scope b.first.scope

/-- The hazards of the uses inside the block. -/
def homeHazards (s : Scoping) (b : Binding) : List Hazard :=
  let covered := b.references.filter fun r => s.graph.isWithin r.scope b.first.scope
  let direct := covered.filter fun r => r.isRead && !s.isCaptured b r
  (if covered.any (s.isTooEarly b) then [.temporalDeadZone] else []) ++
    match s.graph.loopBetween b.first.scope b.scope with
    | none => []
    | some loop =>
      (if loop != b.first.scope && !b.first.isInitialized && !direct.isEmpty then
          [.loopCarriedValue]
        else []) ++
      if covered.any (s.isCaptured b) then [.iterationSemanticsChange] else []

theorem captureHazards_eq (s : Scoping) (i : BindingId) (b : Binding) :
    s.captureHazards i b = (s.strays b).map (s.stray i b) ++ s.homeHazards b := by
  unfold captureHazards homeHazards
  rw [List.append_assoc]
  rfl

/-- A use outside of the block blocks, wherever it would go. -/
theorem stray_mem_blockers (s : Scoping) (i : BindingId) (b : Binding) (r : Reference) :
    s.stray i b r ∈ blockers := by
  unfold stray
  split <;> decide

/-- Without strays all uses are in the block of the declaration. -/
theorem isWithin_of_unblocked {s : Scoping} {i : BindingId} {b : Binding}
    (h : ∀ x ∈ blockers, x ∉ s.captureHazards i b) :
    ∀ r ∈ b.references, s.graph.isWithin r.scope b.first.scope = true := by
  intro r hr
  cases hw : s.graph.isWithin r.scope b.first.scope with
  | true => rfl
  | false =>
    refine absurd ?_ (h _ (s.stray_mem_blockers i b r))
    rw [captureHazards_eq]
    refine List.mem_append_left _ (List.mem_map_of_mem (List.mem_filter.mpr ⟨hr, ?_⟩))
    rw [hw]
    rfl

theorem withCaptures_binding (s : Scoping) (i : BindingId) :
    s.withCaptures.table.bindings[i]? = (s.table.bindings[i]?).map (s.inspect i) := by
  show (s.table.numbered.map fun x => s.inspect x.1 x.2)[i]? = _
  unfold Table.numbered
  rw [List.map_map, List.getElem?_map, List.getElem?_zipIdx]
  cases s.table.bindings[i]? with
  | none => rfl
  | some b => simp

/-- The table of a script, before or after its captures are known. -/
def IsTable (s : Scoping) (t : Table) : Prop := t = s.table ∨ t = s.withCaptures.table

theorem IsTable.statements {s : Scoping} {t : Table} (h : s.IsTable t) :
    t.statements = s.table.statements := by
  rcases h with rfl | rfl <;> rfl

theorem IsTable.exists_binding {s : Scoping} {t : Table} (h : s.IsTable t) {i : BindingId}
    (hi : ∃ b, s.table.bindings[i]? = some b) : ∃ b, t.bindings[i]? = some b := by
  rcases h with rfl | rfl
  · exact hi
  · obtain ⟨b, hb⟩ := hi
    exact ⟨_, by rw [withCaptures_binding, hb]; rfl⟩

/-- The captures add hazards, and leave the declarations as they are. -/
theorem IsTable.binding {s : Scoping} {t : Table} (h : s.IsTable t) {i : BindingId} {b : Binding}
    (hb : t.bindings[i]? = some b) : ∃ b₀, s.table.bindings[i]? = some b₀ ∧ b₀.Grows b ∧
      b.sites = b₀.sites := by
  rcases h with rfl | rfl
  · exact ⟨b, hb, .refl b, rfl⟩
  · rw [withCaptures_binding] at hb
    obtain ⟨b₀, hb₀, rfl⟩ := Option.map_eq_some_iff.mp hb
    obtain ⟨hazards, loop, he, hm⟩ := s.inspect_spec i b₀
    rw [he]
    exact ⟨b₀, hb₀, ⟨rfl, rfl, rfl, List.prefix_refl _, fun x hx => (hm x).mpr (.inl hx)⟩, rfl⟩

end Scoping

/-! ### Noted declarations -/

namespace Draft

/-- What a declaration leaves of the bindings there were, and the one it makes. -/
theorem declare_binding {d : Draft} {kind : BindingKind} {site : Site} {i : BindingId}
    {b' : Binding} (h : (d.declare kind site).1.binding? i = some b') :
    (∃ b, d.binding? i = some b ∧ b.Grows b') ∨
      (i = (d.declare kind site).2 ∧ b'.kind = kind ∧ b'.first = site) := by
  rcases d.declare_cases kind site with ⟨_, hd⟩ | ⟨old, _, ⟨_, _, hd⟩ | ⟨_, hd⟩⟩ <;> rw [hd] at h ⊢
  · rw [binding?_own] at h
    split at h
    · cases h; exact .inr ⟨‹_›, rfl, rfl⟩
    · exact .inl ⟨b', h, .refl b'⟩
  · rw [binding?_join] at h
    obtain ⟨b, hb, rfl⟩ := Option.map_eq_some_iff.mp h
    refine .inl ⟨b, hb, ?_⟩
    split
    · exact grows_joined site b
    · exact .refl b
  · rw [binding?_clash] at h
    split at h
    · cases h
      exact .inr ⟨‹_›, Binding.addHazard_kind _ _, Binding.addHazard_first _ _⟩
    · obtain ⟨b, hb, rfl⟩ := Option.map_eq_some_iff.mp h
      refine .inl ⟨b, hb, ?_⟩
      split
      · exact b.grows_addHazard _
      · exact .refl b

theorem mark_binding {d : Draft} {id : BindingId} {site : Site} {i : BindingId} {b' : Binding}
    (h : (d.mark id site).binding? i = some b') : ∃ b, d.binding? i = some b ∧ b.Grows b' := by
  unfold mark at h
  split at h
  · rw [binding?_tag] at h
    obtain ⟨b, hb, rfl⟩ := Option.map_eq_some_iff.mp h
    refine ⟨b, hb, ?_⟩
    split
    · exact b.grows_addHazard _
    · exact .refl b
  · exact ⟨b', h, .refl b'⟩

theorem record_binding? (d : Draft) (kind : BindingKind) (id : BindingId) (site : Site)
    (i : BindingId) : (d.record kind id site).binding? i = d.binding? i := by
  unfold record
  split
  · rw [Sound.noteStatement_eq]; rfl
  · rfl

/-- Every `var` is noted with its first declaration. -/
def Noted (d : Draft) : Prop :=
  ∀ {i b}, d.binding? i = some b → b.kind = .declared .varWord → (i, b.first) ∈ d.varSites

theorem Noted.declareVariable {d : Draft} (h : d.Noted) (kind : BindingKind) (site : Site) :
    (d.declareVariable kind site).Noted := by
  intro i b' hb' hk
  have hg := d.grows_declareVariable kind site
  rw [declareVariable_eq, record_binding?] at hb'
  obtain ⟨b₁, hb₁, hg₁⟩ := mark_binding hb'
  rcases declare_binding hb₁ with ⟨b, hb, hgb⟩ | ⟨hi, hkind, hfirst⟩
  · have hgb' := hgb.trans hg₁
    rw [hgb'.first]
    exact hg.varSites.subset (h hb (hgb'.kind ▸ hk))
  · rw [hg₁.first, hfirst, hi, declareVariable_eq]
    rw [hg₁.kind, hkind] at hk
    unfold record
    rw [if_pos (by rw [hk]; rfl)]
    exact List.mem_append_right _ (List.mem_singleton.mpr rfl)

theorem Noted.step {d d' : Draft} (h : d.Noted) {e : Event} (he : d.step e = .ok d') :
    d'.Noted := by
  rcases step_declares he with ⟨ht, hv⟩ | ⟨kind, site, _, rfl⟩
  · intro i b hb hk
    rw [binding?, ht] at hb
    rw [hv]
    exact h hb hk
  · exact h.declareVariable kind site

theorem Noted.steps {d d' : Draft} (h : d.Noted) {es : List Event} (hs : d.steps es = .ok d') :
    d'.Noted :=
  steps_invariant (P := Noted) (fun _ _ h he => h.step he) h hs

theorem noted_ofScript {script : Node} {d : Draft}
    (h : Draft.steps {} (Event.ofScript script) = .ok d) : d.Noted :=
  Noted.steps (fun hb => by cases hb) h

/-! ### A variable with one declaration -/

/-- A `var` with one declaration, whose name nothing else lays claim to. -/
structure Sole (d : Draft) (i : BindingId) (b : Binding) : Prop where
  binding : d.binding? i = some b
  kind : b.kind = .declared .varWord
  others : b.others = []
  unclaimed : .duplicateBlockBinding ∉ b.hazards

namespace Sole

variable {d : Draft} {i : BindingId} {b : Binding}

theorem scope_eq (h : d.Sole i b) (hd : d.Sound) :
    b.scope = d.graph.nearestFunction b.first.scope := by
  obtain ⟨_, _, hs⟩ := hd.sites h.binding b.first List.mem_cons_self
  rw [hs, Graph.owner, h.kind]
  rfl

theorem here (h : d.Sole i b) (hd : d.Sound) : d.graph.here? b.name b.scope = some i := by
  obtain ⟨old, ho, rfl | ⟨_, b', hb', ht⟩⟩ := hd.owned h.binding
  · exact ho
  · rw [h.binding] at hb'
    cases hb'
    exact absurd ht h.unclaimed

theorem isWithin_scope (h : d.Sole i b) (hd : d.Sound) :
    d.graph.isWithin b.first.scope b.scope = true := by
  rw [h.scope_eq hd]
  exact hd.graph.isWithin_nearestFunction _

/-- No scope but the function's own holds the binding. -/
theorem scope_of_here (h : d.Sole i b) (hd : d.Sound) {name : String} {s : ScopeId}
    (hs : d.graph.here? name s = some i) : name = b.name ∧ s = b.scope := by
  obtain ⟨b', hb', hname, hscope⟩ := hd.held hs
  rw [h.binding] at hb'
  cases hb'
  exact ⟨hname.symm, hscope.symm⟩

end Sole

/-! ### Movable bindings -/

/-- A `var` that can be declared for its block alone without any name finding another binding. -/
structure Movable (d : Draft) (i : BindingId) (b : Binding) : Prop where
  binding : d.binding? i = some b
  kind : b.kind = .declared .varWord
  others : b.others = []
  unclaimed : .duplicateBlockBinding ∉ b.hazards
  braced : .unbracedDeclaration ∉ b.hazards
  /-- No scope on the way to the function holds the name. -/
  clear : ∀ t ∈ d.graph.path b.first.scope b.scope, d.graph.here? b.name t = none
  /-- No other `var` hoists past this one. -/
  unpassed : (i, .duplicateBlockBinding) ∉ d.hoistTags
  /-- All uses lie in the block of the declaration. -/
  uses : ∀ r ∈ d.usesOf i, d.graph.isWithin r.scope b.first.scope = true

namespace Movable

variable {d : Draft} {i : BindingId} {b : Binding}

theorem sole (h : d.Movable i b) : d.Sole i b := ⟨h.binding, h.kind, h.others, h.unclaimed⟩

/-- A movable binding has one declaration. -/
theorem site_eq (h : d.Movable i b) {site : Site} (hs : site ∈ b.sites) : site = b.first := by
  unfold Binding.sites at hs
  rw [h.others] at hs
  exact List.mem_singleton.mp hs

theorem scope_eq (h : d.Movable i b) (hd : d.Sound) :
    b.scope = d.graph.nearestFunction b.first.scope := h.sole.scope_eq hd

theorem home_lt (h : d.Movable i b) (hd : d.Sound) : b.first.scope < d.graph.size :=
  (hd.sites h.binding b.first List.mem_cons_self).2.1

theorem here (h : d.Movable i b) (hd : d.Sound) : d.graph.here? b.name b.scope = some i :=
  h.sole.here hd

theorem isWithin_scope (h : d.Movable i b) (hd : d.Sound) :
    d.graph.isWithin b.first.scope b.scope = true := h.sole.isWithin_scope hd

/-- In the block of the declaration the name finds the binding. -/
theorem lookup (h : d.Movable i b) (hd : d.Sound) :
    d.graph.lookup b.name b.first.scope = some i := by
  rw [hd.graph.lookup_of_path (h.isWithin_scope hd) h.clear]
  exact hd.graph.lookup_of_here (h.here hd)

/-- No scope but the function's own holds the binding. -/
theorem scope_of_here (h : d.Movable i b) (hd : d.Sound) {name : String} {s : ScopeId}
    (hs : d.graph.here? name s = some i) : name = b.name ∧ s = b.scope :=
  h.sole.scope_of_here hd hs

end Movable

end Draft

/-! ### From decisions to movable bindings -/

theorem decision_of_verdict {t : Table} {o : Options} {i : BindingId} {v : Verdict}
    (h : (classify t o).verdict? i = some v) (hv : v ≠ .keep) :
    ∃ b, t.bindings[i]? = some b ∧ b.isCandidate = true ∧ (b.decision o).verdict ≠ .keep := by
  obtain ⟨d, hd, rfl⟩ := Option.map_eq_some_iff.mp h
  obtain ⟨b, hb, hc⟩ := classify_find?_isSome.mp ⟨d, hd⟩
  refine ⟨b, hb, hc, fun hk => hv ?_⟩
  have hkeep := (Forced.own hb hc hk).verdict
  rw [h] at hkeep
  exact Option.some.inj hkeep

/-- A lowered `var`, and the hazards that it does not have. -/
theorem Draft.unblocked_of_verdict {d : Draft} {o : Options} {i : BindingId} {v : Verdict}
    (h : (classify d.finish.withCaptures.table o).verdict? i = some v) (hv : v ≠ .keep) :
    ∃ b, d.finish.table.bindings[i]? = some b ∧ b.isCandidate = true ∧
      (∀ x ∈ blockers, x ∉ b.hazards ∧ x ∉ d.finish.captureHazards i b) ∧
      (o.allowLoopCaptureRebinding = false →
        .iterationSemanticsChange ∉ d.finish.captureHazards i b) ∧
      (v = .toBlockConst → b.isReassigned = false ∧ b.first.isInitialized = true) := by
  obtain ⟨c, hc, hcand, hdec⟩ := decision_of_verdict h hv
  have hfree : ¬ c.Blocked o := fun hb => hdec (Binding.decision_keep_iff.mpr hb)
  have hconst : v = .toBlockConst → c.isReassigned = false ∧ c.first.isInitialized = true := by
    rintro rfl
    exact Binding.decision_const (decision_const_of_verdict hc hcand h)
  rw [Scoping.withCaptures_binding] at hc
  obtain ⟨b, hb, rfl⟩ := Option.map_eq_some_iff.mp hc
  obtain ⟨hazards, loop, he, hm⟩ := d.finish.inspect_spec i b
  rw [he] at hfree hcand hconst
  have hcapture : ∀ {x}, x ∈ d.finish.captureHazards i b → x ∈ hazards :=
    fun {x} hx => (hm x).mpr (.inr ⟨hcand, hx⟩)
  refine ⟨b, hb, hcand, fun x hx => ⟨fun hxb => ?_, fun hxc => ?_⟩, fun ha hxc => ?_, hconst⟩
  · exact hfree (.inl ⟨x, hx, (hm x).mpr (.inl hxb)⟩)
  · exact hfree (.inl ⟨x, hx, hcapture hxc⟩)
  · exact hfree (.inr ⟨hcapture hxc, ha⟩)

/-- A lowered `var` is movable. -/
theorem Draft.movable_of_verdict {d : Draft} (hd : d.Sound) (hn : d.Noted) {o : Options}
    {i : BindingId} {v : Verdict}
    (h : (classify d.finish.withCaptures.table o).verdict? i = some v) (hv : v ≠ .keep) :
    ∃ b, d.Movable i b := by
  obtain ⟨b₁, hb₁, hc₁, hblock, _⟩ := unblocked_of_verdict h hv
  obtain ⟨b, hazards, hb, he₁, hm₁⟩ := binding_of_finish hb₁
  have hkind : b.kind = .declared .varWord := by
    rw [he₁] at hc₁
    exact eq_of_beq hc₁
  have hfinish : ∀ x ∈ blockers, ¬ d.Endangers i b x := by
    intro x hx he
    refine (hblock x hx).1 ?_
    rw [he₁]
    exact (hm₁ x).mpr he
  have htags : ∀ x ∈ blockers, (i, x) ∉ d.hoistTags :=
    fun x hx ht => hfinish x hx (.inr (.inl ht))
  refine ⟨b, hb, hkind, ?_, fun hx => ?_, fun hx => ?_, fun t ht => ?_, htags _ (by decide), ?_⟩
  · exact Decidable.byContradiction fun hne =>
      hfinish .mergedRedeclaration (by decide) (.inl (hd.merged hb hkind hne))
  · exact hfinish .duplicateBlockBinding (by decide) (.inl hx)
  · exact hfinish .unbracedDeclaration (by decide) (.inl hx)
  · cases ho : d.graph.here? b.name t with
    | none => rfl
    | some other =>
      have hp : d.Passes i b other := ⟨hb, b.first, t, hn hb hkind, ht, ho⟩
      by_cases hk : d.kindOf other = .catchParam
      · have hx := (mem_hoistTags hd).mpr ⟨i, b, other, hp, .inl ⟨hk, rfl, rfl⟩⟩
        exact absurd hx (htags _ (by decide))
      · have hx := (mem_hoistTags hd).mpr ⟨i, b, other, hp, .inr ⟨hk, .inl rfl, rfl⟩⟩
        exact absurd hx (htags _ (by decide))
  · intro r hr
    have hin := Scoping.isWithin_of_unblocked (fun x hx => (hblock x hx).2) r
    rw [he₁, finish_graph] at hin
    exact hin (mem_inOrder.mpr (List.mem_append_right _ hr))

/-! ### Lowered bindings and keywords -/

/-- The keyword that the decision on a binding asks for. -/
def Analysis.keywordOf (a : Analysis) (i : BindingId) : Keyword :=
  ((a.decisions.verdict? i).map (·.keyword)).getD .varWord

/-- A binding takes another keyword than `var`. -/
def IsLowered (kw : BindingId → Keyword) (i : BindingId) : Prop := kw i ≠ .varWord

theorem Analysis.verdict_of_isLowered {a : Analysis} {i : BindingId} (h : IsLowered a.keywordOf i) :
    ∃ v, a.decisions.verdict? i = some v ∧ v ≠ .keep ∧ v.keyword = a.keywordOf i := by
  unfold IsLowered keywordOf at h
  unfold keywordOf
  cases hv : a.decisions.verdict? i with
  | none => rw [hv] at h; exact absurd rfl h
  | some v =>
    rw [hv, Option.map_some, Option.getD_some] at h
    exact ⟨v, rfl, fun hk => h (Verdict.keyword_eq_var.mpr hk), rfl⟩

/-- What the scopes of a script must be like for some of its `var`s to take new keywords. -/
structure Lowering (d : Draft) (key : Nat → Keyword) (kw : BindingId → Keyword) : Prop where
  movable : ∀ {i}, IsLowered kw i → ∃ b, d.Movable i b
  /-- A statement has the keyword of its members. -/
  keyword : ∀ {n : Nat} {e : StatementEntry} {i : BindingId}, d.table.statements[n]? = some e →
    e.statement.keyword = .varWord → i ∈ e.members → kw i = key n

theorem Analysis.keywordOf_eq {script : Node} {o : Options} {a : Analysis}
    (h : Analysis.ofScript script o = .ok a) {n : Nat} {e : StatementEntry} {i : BindingId}
    (he : a.table.statements[n]? = some e) (hk : e.statement.keyword = .varWord)
    (hi : i ∈ e.members) : a.keywordOf i = a.keywordAt n := by
  obtain ⟨_, _, _, hds, hplan⟩ := Analysis.ofScript_ok h
  have hmem : e ∈ a.table.statements := List.mem_of_getElem? he
  obtain ⟨r, hr⟩ := exists_edit_of_emitPlan hplan hmem
  unfold keywordOf keywordAt
  rw [he]
  simp only [hr]
  rw [hds] at hr ⊢
  rcases edit_cases hmem hk hr with ⟨rfl, hkeep⟩ | ⟨k, edit, rfl, hnew, _, hall⟩
  · rw [hk]
    cases hv : (classify a.table o).verdict? i with
    | none => rfl
    | some v => rw [hkeep i hi v hv]; rfl
  · obtain ⟨v, hv, hvk⟩ := hall i hi
    rw [hv, Option.map_some, Option.getD_some, hvk]
    simp only [hnew, Keyword.ofText?_text, Option.getD_some]

/-- A script with an analysis can take the keywords of its plan. -/
theorem Analysis.lowering {script : Node} {o : Options} {a : Analysis}
    (h : Analysis.ofScript script o = .ok a) :
    ∃ d : Draft, Draft.steps {} (Event.ofScript script) = .ok d ∧
      a.scoping = d.finish.withCaptures ∧ Lowering d a.keywordAt a.keywordOf := by
  obtain ⟨s, hs, hscoping, hds, _⟩ := Analysis.ofScript_ok h
  obtain ⟨d, hd, rfl⟩ := Scoping.ofScript_ok hs
  refine ⟨d, hd, hscoping, fun {i} hlow => ?_, fun {n e i} he hk hi => ?_⟩
  · obtain ⟨v, hv, hne, _⟩ := Analysis.verdict_of_isLowered hlow
    rw [hds, Analysis.table, hscoping] at hv
    exact Draft.movable_of_verdict (Draft.sound_ofScript hd) (Draft.noted_ofScript hd) hv hne
  · refine Analysis.keywordOf_eq h ?_ hk hi
    rw [Analysis.table, hscoping]
    show d.finish.table.statements[n]? = some e
    rw [Draft.finish_statements]
    exact he

end ScopeLowering
