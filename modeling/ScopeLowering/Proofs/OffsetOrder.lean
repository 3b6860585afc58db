import ScopeLowering.Proofs.Lowering
import ScopeLowering.Proofs.Rereading

/-!
# Only the order of offsets counts

Move the offsets of a script and keep their order. Then it has the same scopes, bindings, uses,
captures, hazards and decisions as before (`analysis_stretch`).

The reading is the business of `ScopeLowering.Proofs.Rereading`. Here are the stages that come after
it, each of which commutes with moving the offsets: uses are sorted by comparing offsets, and
whether one is too early is told by comparing offsets.
-/

namespace ScopeLowering

variable (σ : Stretch)

/-! ### Finishing a draft -/

namespace Draft

variable (d : Draft)

theorem binding?_stretch (i : BindingId) :
    (d.stretch σ).binding? i = (d.binding? i).map (·.stretch σ) := List.getElem?_map

theorem stretch_tagAll (ts : List (BindingId × Hazard)) :
    (d.tagAll ts).stretch σ = (d.stretch σ).tagAll ts := by
  induction ts generalizing d with
  | nil => rfl
  | cons t ts ih => rw [tagAll_cons, tagAll_cons, ih, stretch_tag]

theorem wayTags_stretch : (d.stretch σ).wayTags = d.wayTags := by
  funext id name s
  simp [wayTags, binding?_stretch, Option.map_map, Function.comp_def, Binding.stretch]

theorem hoistTags_stretch : (d.stretch σ).hoistTags = d.hoistTags := by
  have hsite (v : BindingId × Site) :
      (d.stretch σ).siteTags (v.1, v.2.stretch σ) = d.siteTags v := by
    simp [siteTags, binding?_stretch, wayTags_stretch, Option.map_map, Function.comp_def,
      Binding.stretch, Binding.name, Site.stretch]
  show (d.varSites.map fun v => (v.1, v.2.stretch σ)).flatMap (d.stretch σ).siteTags = _
  rw [List.flatMap_map]
  exact congrArg (d.varSites.flatMap ·) (funext hsite)

theorem stretch_checkHoisting : d.checkHoisting.stretch σ = (d.stretch σ).checkHoisting := by
  rw [checkHoisting_eq, checkHoisting_eq, stretch_tagAll, hoistTags_stretch]

theorem usesOf_stretch (i : BindingId) :
    (d.stretch σ).usesOf i = (d.usesOf i).map (·.stretch σ) := by
  simp [usesOf, stretch, List.filter_map, Function.comp_def, Reference.stretch]

theorem freeUses_stretch : (d.stretch σ).freeUses = d.freeUses.map (·.stretch σ) := by
  simp [freeUses, stretch, List.filter_map, Function.comp_def, Reference.stretch]

theorem stretch_resolve : d.resolve.stretch σ = (d.stretch σ).resolve := by
  have hbindings : (d.table.bindings.mapIdx fun i b =>
        { b with references := b.references ++ d.usesOf i }).map (Binding.stretch σ) =
      (d.table.bindings.map (Binding.stretch σ)).mapIdx fun i b =>
        { b with references := b.references ++ (d.stretch σ).usesOf i } := by
    refine List.ext_getElem? fun i => ?_
    cases h : d.table.bindings[i]? <;> simp [h, usesOf_stretch, Binding.stretch]
  rw [resolve_eq, resolve_eq, freeUses_stretch]
  simp only [stretch, Table.stretch, List.map_append]
  rw [hbindings]
  rfl

theorem isReached_stretch : (d.stretch σ).isReached = d.isReached := by
  have hdynamic : (d.stretch σ).dynamicScopes = d.dynamicScopes := by
    simp [dynamicScopes, stretch, List.filter_map, Function.comp_def, Reference.stretch]
  funext s
  simp [isReached, hdynamic]

theorem touchesGlobals_stretch : (d.stretch σ).touchesGlobals = d.touchesGlobals := by
  show (d.globalReach || (d.table.free.map (·.stretch σ)).any _) = _
  rw [List.any_map]
  rfl

/-- A hazard goes to the same bindings. -/
theorem stretch_addHazards {c c' : Binding → Bool} (hc : ∀ b, c' (b.stretch σ) = c b) (h : Hazard)
    (t : Table) :
    ({ t with bindings := t.bindings.map fun b => if c b then b.addHazard h else b } :
        Table).stretch σ =
      { t.stretch σ with
        bindings := (t.stretch σ).bindings.map fun b => if c' b then b.addHazard h else b } := by
  simp [Table.stretch, Function.comp_def, hc, apply_ite, Binding.stretch_addHazard]

theorem stretch_taintDynamic : d.taintDynamic.stretch σ = (d.stretch σ).taintDynamic := by
  have hc (b : Binding) : (d.stretch σ).isReached (b.stretch σ).scope = d.isReached b.scope := by
    rw [isReached_stretch]
    rfl
  exact congrArg (fun t => ({ d.stretch σ with table := t } : Draft))
    (stretch_addHazards σ hc .dynamicScope d.table)

theorem stretch_markGlobals : d.markGlobals.stretch σ = (d.stretch σ).markGlobals := by
  have hc (b : Binding) : ((b.stretch σ).isCandidate && (b.stretch σ).scope == 0) =
      (b.isCandidate && b.scope == 0) := rfl
  unfold markGlobals
  rw [← touchesGlobals, ← touchesGlobals, touchesGlobals_stretch]
  split
  · exact congrArg (fun t => ({ d.stretch σ with table := t } : Draft))
      (stretch_addHazards σ hc .globalProperty d.table)
  · rfl

theorem inOrder_stretch (rs : List Reference) :
    (Table.inOrder rs).map (·.stretch σ) = Table.inOrder (rs.map (·.stretch σ)) := by
  refine List.map_mergeSort fun a _ b _ => ?_
  exact (decide_eq_decide.mpr σ.move_le).symm

theorem stretch_sortReferences (t : Table) :
    t.sortReferences.stretch σ = (t.stretch σ).sortReferences := by
  simp [Table.sortReferences, Table.stretch, inOrder_stretch, Binding.stretch]

theorem stretch_finish : d.finish.stretch σ = (d.stretch σ).finish := by
  unfold finish
  rw [← stretch_checkHoisting, ← stretch_resolve, ← stretch_taintDynamic, ← stretch_markGlobals]
  simp only [Scoping.stretch, stretch_sortReferences, graph_stretch, table_stretch]

end Draft

/-- The moved script has the same scopes and bindings, or the same kind of fault. -/
theorem Scoping.ofScript_stretch {script : Node}
    (hknown : ∀ m ∈ script.phrases, m.span.isKnown = true) :
    (ofScript (script.stretch σ)).mapError ScopeFault.bare =
      ((ofScript script).map (Scoping.stretch σ)).mapError ScopeFault.bare := by
  cases script with
  | program xs span =>
    have hsteps := (Event.alike_ofScript σ hknown rfl).steps {}
    have hcomm {α β : Type} (f : α → β) (x : Except ScopeFault α) :
        (x.map f).mapError ScopeFault.bare = (x.mapError ScopeFault.bare).map f := by
      cases x <;> rfl
    refine (hcomm _ _).trans ((congrArg _ hsteps).trans ?_)
    show _ = (((Draft.steps {} (Event.ofScript (.program xs span))).map Draft.finish).map
      (Scoping.stretch σ)).mapError ScopeFault.bare
    cases Draft.steps {} (Event.ofScript (.program xs span)) with
    | ok d => exact congrArg Except.ok (d.stretch_finish σ).symm
    | error f => rfl
  | _ => rfl

/-! ### Captures -/

def Moment.stretch : Moment → Moment
  | earliest => earliest
  | point n => point (σ.move n)
  | never => never

theorem Moment.isBefore_stretch (m : Moment) (offset : Int) :
    (m.stretch σ).isBefore (σ.move offset) = m.isBefore offset := by
  cases m <;> simp [isBefore, stretch]

theorem Moment.stretch_first (m n : Moment) :
    (m.first n).stretch σ = (m.stretch σ).first (n.stretch σ) := by
  cases m <;> cases n <;> simp [first, stretch, σ.move_min]

namespace Scope

theorem caseAt_stretch (s : Scope) (offset : Int) :
    (s.stretch σ).caseAt (σ.move offset) = s.caseAt offset := by
  simp [caseAt, stretch, List.findIdx?_map, Function.comp_def]

theorem caseAtMoment_stretch (s : Scope) (m : Moment) :
    (s.stretch σ).caseAtMoment (m.stretch σ) = s.caseAtMoment m := by
  cases m with
  | point n => exact s.caseAt_stretch σ n
  | _ => rfl

end Scope

namespace Scoping

/-- A scope that does not exist counts as made at offset zero, which need not stay there. -/
theorem creation_stretch {g : Graph} {id : ScopeId} {s : Scope} (h : g.scope? id = some s) :
    creation (g.stretch σ) id = σ.move (creation g id) := by
  have hp : (s.parent.bind (g.stretch σ).scope?) = (s.parent.bind g.scope?).map (·.stretch σ) := by
    cases s.parent <;> simp
  unfold creation
  rw [Graph.scope?_stretch, h]
  simp only [Option.map_some, Scope.stretch, hp]
  rcases s.callable with _ | ⟨_ | _, _, _⟩ <;> cases s.parent.bind g.scope? <;> rfl

theorem handleBinding_stretch (g : Graph) (id : ScopeId) :
    handleBinding (g.stretch σ) id = handleBinding g id := by
  unfold handleBinding
  rw [Graph.scope?_stretch]
  cases g.scope? id with
  | none => rfl
  | some s =>
    rcases hc : s.callable with _ | ⟨_, _, _ | name⟩ <;> cases hp : s.parent <;>
      simp [Scope.stretch, Callable.stretch, hc, hp]

theorem exists_scope_of_mem_functionsBetween {g : Graph} {i stop f : ScopeId}
    (h : f ∈ g.functionsBetween i stop) : ∃ s, g.scope? f = some s := by
  have hkind := (List.mem_filter.mp h).2
  cases hs : g.scope? f with
  | none => simp [Graph.kind?, hs] at hkind
  | some s => exact ⟨s, rfl⟩

variable (s : Scoping)

theorem binding_stretch (i : BindingId) :
    (s.stretch σ).table.bindings[i]? = s.table.bindings[i]?.map (·.stretch σ) := List.getElem?_map

theorem reads_stretch (i : BindingId) :
    ((s.stretch σ).table.bindings[i]?.map (·.reads)).getD [] =
      ((s.table.bindings[i]?.map (·.reads)).getD []).map (·.stretch σ) := by
  rw [binding_stretch]
  cases s.table.bindings[i]? <;> simp [Binding.reads, List.filter_map, Function.comp_def]

/-- The code is reached at the same moment. -/
theorem effectivePosition_stretch (region : ScopeId) (ready : Int) (fuel : Nat)
    (visiting : List BindingId) (scope : ScopeId) (offset : Int) :
    (s.stretch σ).effectivePosition region (σ.move ready) fuel visiting scope (σ.move offset) =
      (s.effectivePosition region ready fuel visiting scope offset).stretch σ := by
  induction fuel using Nat.strongRecOn generalizing visiting scope offset with
  | ind fuel ih =>
    unfold effectivePosition
    rw [graph_stretch, Graph.functionsBetween_stretch]
    cases hf : (s.graph.functionsBetween scope region).getLast? with
    | none => rfl
    | some f =>
      obtain ⟨sc, hsc⟩ := exists_scope_of_mem_functionsBetween (List.mem_of_getLast? hf)
      simp only
      rw [creation_stretch σ hsc, handleBinding_stretch]
      simp only [ge_iff_le, Stretch.move_le]
      split
      · rfl
      cases handleBinding s.graph f with
      | none => rfl
      | some id =>
        simp only
        split
        · rfl
        cases fuel with
        | zero => rfl
        | succ fuel =>
          simp only
          rw [reads_stretch, List.foldl_map]
          -- each read is reached at the same moment, and so is the first of them
          change List.foldl _ (Moment.stretch σ .never) _ = _
          refine List.foldl_hom (Moment.stretch σ) fun m r => ?_
          rw [Moment.stretch_first, Graph.isWithin_stretch, Reference.scope_stretch,
            Reference.position_stretch]
          congr 1
          split
          · exact ih fuel (Nat.lt_succ_self _) (id :: visiting) r.scope r.position
          · rfl

theorem isTooEarly_stretch (b : Binding) (r : Reference) :
    (s.stretch σ).isTooEarly (b.stretch σ) (r.stretch σ) = s.isTooEarly b r := by
  have hlen : (s.table.stretch σ).bindings.length = s.table.bindings.length := List.length_map _
  unfold isTooEarly
  simp only [graph_stretch, table_stretch, hlen, Binding.first_stretch, Site.scope_stretch,
    Site.ready_stretch, Offset.value_stretch, Reference.scope_stretch, Reference.position_stretch,
    effectivePosition_stretch, Moment.isBefore_stretch, Graph.scope?_stretch, Site.name_stretch,
    Ident.position_stretch]
  cases s.graph.scope? b.first.scope with
  | none => rfl
  | some home =>
    have hempty : (home.stretch σ).cases.isEmpty = home.cases.isEmpty := List.isEmpty_map
    simp only [Option.map_some, hempty, Scope.caseAtMoment_stretch, Scope.caseAt_stretch]

theorem isCaptured_stretch (b : Binding) (r : Reference) :
    (s.stretch σ).isCaptured (b.stretch σ) (r.stretch σ) = s.isCaptured b r := by
  simp [isCaptured]

theorem stray_stretch (id : BindingId) (b : Binding) (r : Reference) :
    (s.stretch σ).stray id (b.stretch σ) (r.stretch σ) = s.stray id b r := by
  simp [stray]

theorem captureHazards_stretch (id : BindingId) (b : Binding) :
    (s.stretch σ).captureHazards id (b.stretch σ) = s.captureHazards id b := by
  simp [captureHazards, List.filter_map, Function.comp_def, isTooEarly_stretch, isCaptured_stretch,
    stray_stretch]

theorem stretch_inspect (id : BindingId) (b : Binding) :
    (s.inspect id b).stretch σ = (s.stretch σ).inspect id (b.stretch σ) := by
  have hloop : Binding.stretch σ { b with loop := s.graph.loopBetween b.first.scope b.scope } =
      { b.stretch σ with loop := (s.graph.stretch σ).loopBetween b.first.scope b.scope } := by
    simp [Binding.stretch]
  unfold inspect
  rw [captureHazards_stretch, Binding.isCandidate_stretch]
  split
  · refine Eq.trans ?_ (congrArg (List.foldl _ · _) hloop)
    refine (List.foldl_hom (Binding.stretch σ) fun b h => ?_).symm
    exact (b.stretch_addHazard σ h).symm
  · rfl

theorem stretch_withCaptures : s.withCaptures.stretch σ = (s.stretch σ).withCaptures := by
  have hbindings : s.withCaptures.table.bindings.map (·.stretch σ) =
      (s.stretch σ).withCaptures.table.bindings := by
    refine List.ext_getElem? fun i => ?_
    rw [List.getElem?_map, withCaptures_binding, withCaptures_binding, binding_stretch]
    cases s.table.bindings[i]? with
    | none => rfl
    | some b => exact congrArg some (s.stretch_inspect σ i b)
  exact congrArg
    (fun bs => (⟨s.graph.stretch σ, { s.table.stretch σ with bindings := bs }⟩ : Scoping)) hbindings

theorem edges_stretch : (s.stretch σ).edges = s.edges := by
  have hedges (i : BindingId) : (s.stretch σ).edgesOf i = s.edgesOf i := by
    unfold edgesOf
    rw [binding_stretch]
    cases s.table.bindings[i]? with
    | none => rfl
    | some b =>
      show (b.references.map (·.stretch σ)).filterMap _ = b.references.filterMap _
      rw [List.filterMap_map]
      refine congrArg (b.references.filterMap ·) (funext fun r => ?_)
      show ((s.graph.stretch σ).functionsBetween r.scope b.scope).getLast?.map _ = _
      rw [Graph.functionsBetween_stretch]
      rfl
  have hids : (s.stretch σ).table.ids = s.table.ids := by simp [Table.ids, Table.stretch]
  unfold edges
  rw [hids, funext hedges]

end Scoping

/-! ### Decisions -/

theorem Binding.decision_stretch (b : Binding) (o : Options) :
    (b.stretch σ).decision o = b.decision o := by
  have hreassigned : (b.stretch σ).isReassigned = b.isReassigned := by
    simp [isReassigned, Function.comp_def]
  unfold decision
  rw [hreassigned]
  rfl

theorem decideEach_stretch (t : Table) (o : Options) :
    decideEach (t.stretch σ) o = decideEach t o := by
  have hnumbered : (t.stretch σ).numbered = t.numbered.map fun e => (e.1, e.2.stretch σ) := by
    simp [Table.numbered, Table.stretch, List.zipIdx_map, Function.comp_def]
  unfold decideEach Table.candidates
  rw [hnumbered, List.filter_map, List.map_map]
  refine List.map_congr_left fun e _ => ?_
  exact congrArg (e.1, ·) (e.2.decision_stretch σ o)

/-- Only the members of a statement count. -/
theorem reconcileAll_stretch (statements : List StatementEntry) (passes : Nat) (ds : Decisions) :
    reconcileAll (statements.map (·.stretch σ)) passes ds =
      reconcileAll statements passes ds := by
  have hpass (ds : Decisions) :
      (statements.map (·.stretch σ)).foldl reconcile ds = statements.foldl reconcile ds := by
    rw [List.foldl_map]
    rfl
  induction passes generalizing ds with
  | zero => rfl
  | succ passes ih => simp only [reconcileAll, hpass, ih]

theorem classify_stretch (t : Table) (o : Options) : classify (t.stretch σ) o = classify t o := by
  unfold classify
  rw [decideEach_stretch]
  exact reconcileAll_stretch σ t.statements _ _

/-! ### The whole analysis -/

/-- **Only the order of offsets counts.** Move the offsets of a script by a map that keeps their
order. If the script has scopes, so has the moved one, and they are the same but for the offsets:
the same tree, the same uses of each binding in the same order, the same captures, hazards and
decisions. If the script has none, the moved one has none either, and for the same kind of fault. -/
theorem analysis_stretch (f : Nat → Nat) (hf : ∀ {m n}, m < n → f m < f n) (script : Node)
    (hknown : ∀ m ∈ script.phrases, m.span.isKnown = true) :
    (∀ s, Scoping.ofScript script = .ok s →
      Scoping.ofScript (script.stretch (.ofNat f hf)) = .ok (s.stretch (.ofNat f hf)) ∧
      (s.stretch (.ofNat f hf)).withCaptures = s.withCaptures.stretch (.ofNat f hf) ∧
      (s.stretch (.ofNat f hf)).withCaptures.edges = s.withCaptures.edges ∧
      ∀ o, classify (s.stretch (.ofNat f hf)).withCaptures.table o =
        classify s.withCaptures.table o) ∧
    ∀ e, Scoping.ofScript script = .error e →
      ∃ e', Scoping.ofScript (script.stretch (.ofNat f hf)) = .error e' ∧ e'.bare = e.bare := by
  have hscript := Scoping.ofScript_stretch (.ofNat f hf) hknown
  rcases ScopeFault.agree_cases hscript with ⟨s, hs, hm⟩ | ⟨e, e', he, hm, hbare⟩
  · rw [hs]
    refine ⟨fun s' hs' => ?_, nofun⟩
    obtain rfl := Except.ok.inj hs'
    rw [← Scoping.stretch_withCaptures]
    exact ⟨hm, rfl, Scoping.edges_stretch _ _, fun o => classify_stretch _ _ o⟩
  · rw [he]
    refine ⟨nofun, fun e₁ he₁ => ⟨e', hm, ?_⟩⟩
    obtain rfl := Except.error.inj he₁
    exact hbare

/-- `use(); var x = 1; function use() { x; }`. -/
def lateScript : Node :=
  .program
    [.exprStmt (.call (.lookup ⟨"use", .of 0 3⟩) [] (.of 0 5)) (.of 0 6),
      .varDecl .varWord
        [.declarator ⟨"x", .of 11 12⟩ (.literal (.json (.int 1)) (.of 15 16)) (.of 11 16)]
        (.of 7 17),
      .function .declaration (some ⟨"use", .of 27 30⟩) [] [.exprStmt (.lookup ⟨"x", .of 35 36⟩)
        (.of 35 37)] false (.of 18 39)]
    (.of 0 39)

/-- Moved or not, the variable is read before it is declared. -/
theorem analysis_stretch_lateScript :
    (∀ m ∈ lateScript.phrases, m.span.isKnown = true) ∧
    ∃ s, Scoping.ofScript lateScript = .ok s ∧
      Scoping.ofScript (lateScript.stretch (.ofNat (2 * · + 3) (by omega))) =
        .ok (s.stretch (.ofNat (2 * · + 3) (by omega))) ∧
      classify (s.stretch (.ofNat (2 * · + 3) (by omega))).withCaptures.table {} =
        [(0, ⟨.keep, .hazard .temporalDeadZone, [.temporalDeadZone], []⟩)] := by
  have hknown : ∀ m ∈ lateScript.phrases, m.span.isKnown = true := by decide +kernel
  obtain ⟨s, hs, hd⟩ := exists_ok_of_any
    (show (Scoping.ofScript lateScript).toOption.any (fun s =>
      classify s.withCaptures.table {} ==
        [(0, ⟨.keep, .hazard .temporalDeadZone, [.temporalDeadZone], []⟩)]) = true by
      decide +kernel)
  obtain ⟨hmoved, _, _, hdecisions⟩ :=
    (analysis_stretch (2 * · + 3) (by omega) lateScript hknown).1 s hs
  exact ⟨hknown, s, hs, hmoved, (hdecisions {}).trans (beq_iff_eq.mp hd)⟩

end ScopeLowering
