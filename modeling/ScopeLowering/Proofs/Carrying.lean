import ScopeLowering.Machine.Run
import ScopeLowering.Proofs.Standing

/-!
# Values carried from one pass of a loop to the next

A `var` without a value keeps what it holds over the passes of a loop around it; declared for its
block, it would start anew in each pass. The analysis marks such a variable exactly when it is read
in its block, outside of any closure, and a loop stands on the way from the block to the function
(`Scoping.loopCarriedValue_iff`), with one exception. Only the nearest loop is looked at, so where
the block is itself that of a loop, as for a variable in the head of a loop, all loops around that
one go unnoticed.

## The model

The hazards of a binding come from two sources. Those that going through the script brings about
have to do with its declarations alone (`declarationHazards`); the rest come from its references.
-/

namespace ScopeLowering

/-! ### Hazards of declarations -/

/-- The hazards that a binding can have before its references are looked at. -/
def declarationHazards : List Hazard :=
  [.duplicateBlockBinding, .mergedRedeclaration, .unbracedDeclaration, .scopeResolutionChange,
   .dynamicScope, .globalProperty]

theorem Binding.addHazard_subset {b : Binding} {x : Hazard} {hs : List Hazard}
    (h : b.hazards ⊆ hs) (hx : x ∈ hs) : (b.addHazard x).hazards ⊆ hs := by
  intro y hy
  rcases mem_addHazard.mp hy with hy | rfl
  · exact h hy
  · exact hx

namespace Draft

variable {d d' : Draft}

/-- Every binding has only hazards that come from declarations. -/
def Preliminary (d : Draft) : Prop :=
  ∀ {i b}, d.binding? i = some b → b.hazards ⊆ declarationHazards

namespace Preliminary

theorem tag (h : d.Preliminary) (i : BindingId) {x : Hazard} (hx : x ∈ declarationHazards) :
    (d.tag i x).Preliminary := by
  intro j b hb
  rw [binding?_tag] at hb
  obtain ⟨b₀, hb₀, rfl⟩ := Option.map_eq_some_iff.mp hb
  split
  · exact Binding.addHazard_subset (h hb₀) hx
  · exact h hb₀

theorem declare (h : d.Preliminary) (kind : BindingKind) (site : Site) :
    (d.declare kind site).1.Preliminary := by
  intro i b hb
  rcases d.declare_cases kind site with ⟨_, he⟩ | ⟨old, _, ⟨_, _, he⟩ | ⟨_, he⟩⟩ <;> rw [he] at hb
  · rw [binding?_own] at hb
    split at hb
    · cases hb
      exact List.nil_subset _
    · exact h hb
  · rw [binding?_join] at hb
    obtain ⟨b₀, hb₀, rfl⟩ := Option.map_eq_some_iff.mp hb
    have hold : b₀.hazards ⊆ declarationHazards := h hb₀
    split
    · unfold joined
      split
      · exact Binding.addHazard_subset hold (by decide)
      · exact hold
    · exact hold
  · rw [binding?_clash] at hb
    split at hb
    · cases hb
      exact Binding.addHazard_subset (List.nil_subset _) (by decide)
    · obtain ⟨b₀, hb₀, rfl⟩ := Option.map_eq_some_iff.mp hb
      split
      · exact Binding.addHazard_subset (h hb₀) (by decide)
      · exact h hb₀

theorem declareVariable (h : d.Preliminary) (kind : BindingKind) (site : Site) :
    (d.declareVariable kind site).Preliminary := by
  intro i b hb
  rw [declareVariable_eq, record_binding?] at hb
  have hdeclare : (d.declare kind site).1.Preliminary := h.declare kind site
  unfold mark at hb
  split at hb
  · exact hdeclare.tag _ (by decide) hb
  · exact hdeclare hb

theorem step {e : Event} (h : d.Preliminary) (he : d.step e = .ok d') : d'.Preliminary := by
  rcases step_declares he with ⟨ht, _⟩ | ⟨kind, site, _, rfl⟩
  · intro i b hb
    rw [binding?, ht] at hb
    exact h hb
  · exact h.declareVariable kind site

theorem steps {es : List Event} (h : d.Preliminary) (hs : d.steps es = .ok d') : d'.Preliminary :=
  steps_invariant (P := Preliminary) (fun _ _ h he => h.step he) h hs

end Preliminary

/-- Before the references are looked at, all hazards come from declarations. -/
theorem hazards_finish {script : Node} (h : Draft.steps {} (Event.ofScript script) = .ok d)
    {i : BindingId} {b : Binding} (hb : d.finish.table.bindings[i]? = some b) :
    b.hazards ⊆ declarationHazards := by
  have hpre : d.Preliminary := Preliminary.steps (fun hb => by cases hb) h
  obtain ⟨b₀, hazards, hb₀, rfl, hm⟩ := binding_of_finish hb
  intro x hx
  rcases (hm x).mp hx with hx | hx | ⟨rfl, _⟩ | ⟨rfl, _⟩
  · exact hpre hb₀ hx
  · obtain ⟨_, _, _, _, ⟨_, _, rfl⟩ | ⟨_, _, rfl⟩⟩ := (mem_hoistTags (sound_ofScript h)).mp hx
    · decide
    · decide
  · decide
  · decide

end Draft

/-! ### The nearest loop -/

namespace Graph

variable {g : Graph} {i stop : ScopeId}

theorem exists_path_eq_cons (h : i ≠ stop) : ∃ rest, g.path i stop = i :: rest := by
  unfold path ancestors climb
  rw [List.takeWhile_cons_of_pos (by simpa using h)]
  exact ⟨_, rfl⟩

/-- The nearest loop is another scope than the one to start from just when that one is no loop and
there is a loop on the way. -/
theorem loopBetween_ne_iff :
    (∃ loop, g.loopBetween i stop = some loop ∧ loop ≠ i) ↔
      g.kind? i ≠ some .loop ∧ ∃ t ∈ g.path i stop, g.kind? t = some .loop := by
  have hfound : ∀ {loop}, g.loopBetween i stop = some loop →
      loop ∈ g.path i stop ∧ g.kind? loop = some .loop := by
    intro loop h
    have hkind : (g.kind? loop == some .loop) = true :=
      List.find?_some (p := fun s => g.kind? s == some .loop) h
    exact ⟨List.mem_of_find?_eq_some h, eq_of_beq hkind⟩
  constructor
  · rintro ⟨loop, h, hne⟩
    obtain ⟨hmem, hkind⟩ := hfound h
    refine ⟨fun hi => hne ?_, loop, hmem, hkind⟩
    -- a loop to start from is the first on the way
    have hstop : i ≠ stop := by
      rintro rfl
      rw [Sound.path_self] at hmem
      cases hmem
    obtain ⟨rest, hpath⟩ := exists_path_eq_cons (g := g) hstop
    simpa [loopBetween, hpath, hi, eq_comm] using h
  · rintro ⟨hi, t, ht, hk⟩
    cases h : g.loopBetween i stop with
    | none => exact absurd (beq_iff_eq.mpr hk) (List.find?_eq_none.mp h t ht)
    | some loop =>
      refine ⟨loop, rfl, ?_⟩
      rintro rfl
      exact hi (hfound h).2

end Graph

/-! ### Carried values -/

/-- A loop around the block of the declaration carries the value of a variable from pass to pass:
the declaration sets no value, and the block reads the variable outside of any closure. -/
structure Binding.IsCarried (s : Scoping) (b : Binding) : Prop where
  unset : b.first.isInitialized = false
  loop : ∃ t ∈ s.graph.path b.first.scope b.scope,
    t ≠ b.first.scope ∧ s.graph.kind? t = some .loop
  read : ∃ r ∈ b.references, r.isRead = true ∧
    s.graph.isWithin r.scope b.first.scope = true ∧
    ∀ t ∈ s.graph.path r.scope b.scope, s.graph.kind? t ≠ some .function

instance (s : Scoping) (b : Binding) : Decidable (b.IsCarried s) :=
  decidable_of_iff (b.first.isInitialized = false ∧
    (∃ t ∈ s.graph.path b.first.scope b.scope,
      t ≠ b.first.scope ∧ s.graph.kind? t = some .loop) ∧
    ∃ r ∈ b.references, r.isRead = true ∧ s.graph.isWithin r.scope b.first.scope = true ∧
      ∀ t ∈ s.graph.path r.scope b.scope, s.graph.kind? t ≠ some .function)
    ⟨fun h => ⟨h.1, h.2.1, h.2.2⟩, fun h => ⟨h.unset, h.loop, h.read⟩⟩

namespace Scoping

variable {s : Scoping} {b : Binding}

theorem isCaptured_eq_false {r : Reference} :
    s.isCaptured b r = false ↔
      ∀ t ∈ s.graph.path r.scope b.scope, s.graph.kind? t ≠ some .function := by
  simp [isCaptured, Graph.functionsBetween]

theorem mem_homeHazards_iff :
    .loopCarriedValue ∈ s.homeHazards b ↔
      b.IsCarried s ∧ s.graph.kind? b.first.scope ≠ some .loop := by
  have hnearest : .loopCarriedValue ∈ s.homeHazards b ↔
      (∃ loop, s.graph.loopBetween b.first.scope b.scope = some loop ∧ loop ≠ b.first.scope) ∧
      b.first.isInitialized = false ∧ ∃ r ∈ b.references, r.isRead = true ∧
        s.graph.isWithin r.scope b.first.scope = true ∧ s.isCaptured b r = false := by
    unfold homeHazards
    cases s.graph.loopBetween b.first.scope b.scope with
    | none => simp
    | some loop => simp [and_assoc, and_left_comm, and_comm]
  rw [hnearest, Graph.loopBetween_ne_iff]
  simp only [isCaptured_eq_false]
  constructor
  · rintro ⟨⟨hhome, t, ht, hk⟩, hunset, hread⟩
    exact ⟨⟨hunset, ⟨t, ht, fun he => hhome (he ▸ hk), hk⟩, hread⟩, hhome⟩
  · rintro ⟨⟨hunset, ⟨t, ht, _, hk⟩, hread⟩, hhome⟩
    exact ⟨⟨hhome, t, ht, hk⟩, hunset, hread⟩

/-- No use outside of the block counts as a carried value. -/
theorem mem_captureHazards_iff {i : BindingId} :
    .loopCarriedValue ∈ s.captureHazards i b ↔ .loopCarriedValue ∈ s.homeHazards b := by
  have hstray : .loopCarriedValue ∉ (s.strays b).map (s.stray i b) := by
    intro h
    obtain ⟨r, _, hr⟩ := List.mem_map.mp h
    unfold stray at hr
    split at hr <;> cases hr
  rw [captureHazards_eq, List.mem_append, or_iff_right hstray]

/-- **Carried values are found, but for those of a variable whose block is a loop's own.** A `var`
is marked exactly when a loop around its block carries its value from pass to pass and the block is
not itself the scope of a loop. The `var` is a member of the statement that declares it, and once it
is marked the statement has no edit, under any options. -/
theorem loopCarriedValue_iff {script : Node} (h : Scoping.ofScript script = .ok s) {i : BindingId}
    (hb : s.withCaptures.table.bindings[i]? = some b) (hv : b.kind = .declared .varWord) :
    (.loopCarriedValue ∈ b.hazards ↔
      b.IsCarried s ∧ s.graph.kind? b.first.scope ≠ some .loop) ∧
    (∃ e ∈ s.withCaptures.table.statements,
      b.first.statement = some e.statement ∧ i ∈ e.members) ∧
    (.loopCarriedValue ∈ b.hazards →
      ∀ o, ∀ e ∈ s.withCaptures.table.statements, i ∈ e.members →
        statementEdit s.withCaptures.table (classify s.withCaptures.table o) e = .ok none) := by
  obtain ⟨d, hd, hs⟩ := Scoping.ofScript_ok h
  have hblocked : .loopCarriedValue ∈ b.hazards →
      ∀ o, ∀ e ∈ s.withCaptures.table.statements, i ∈ e.members →
        statementEdit s.withCaptures.table (classify s.withCaptures.table o) e = .ok none :=
    fun hx o e he hi => statementEdit_of_blocked h (.inr rfl) o hb (by decide) hx he hi
  rw [withCaptures_binding] at hb
  obtain ⟨b₀, hb₀, rfl⟩ := Option.map_eq_some_iff.mp hb
  obtain ⟨hazards, loop, he, hm⟩ := s.inspect_spec i b₀
  rw [he] at hv hblocked ⊢
  refine ⟨?_, ?_, hblocked⟩
  · have hfresh : .loopCarriedValue ∉ b₀.hazards := by
      intro hx
      subst hs
      exact absurd (Draft.hazards_finish hd hb₀ hx) (by decide)
    have hcand : b₀.isCandidate = true := beq_iff_eq.mpr hv
    rw [hm, or_iff_right hfresh, and_iff_right hcand, mem_captureHazards_iff, mem_homeHazards_iff]
    exact and_congr_left fun _ => ⟨fun hc => ⟨hc.unset, hc.loop, hc.read⟩,
      fun hc => ⟨hc.unset, hc.loop, hc.read⟩⟩
  · subst hs
    obtain ⟨b₁, _, hb₁, rfl, _⟩ := Draft.binding_of_finish hb₀
    obtain ⟨e, hes, hst, hi⟩ := Draft.exists_entry_ofScript hd hb₁ hv
    refine ⟨e, ?_, hst, hi⟩
    show e ∈ d.finish.table.statements
    rw [d.finish_statements]
    exact hes

end Scoping

/-- `while (1) { var x; x; }`. -/
def carryingScript : Node :=
  .program [.whileStmt (.literal (.json (.int 1)) (.of 7 8))
    (.block [.varDecl .varWord [.declarator ⟨"x", .of 16 17⟩ .absent (.of 16 17)] (.of 12 18),
      .exprStmt (.lookup ⟨"x", .of 19 20⟩) (.of 19 21)] (.of 10 23)) (.of 0 23)] (.of 0 23)

theorem loopCarriedValue_iff_carryingScript :
    ∃ s b, Scoping.ofScript carryingScript = .ok s ∧
      s.withCaptures.table.bindings[0]? = some b ∧ b.kind = .declared .varWord ∧ b.IsCarried s ∧
      .loopCarriedValue ∈ b.hazards ∧
      ∃ e ∈ s.withCaptures.table.statements, b.first.statement = some e.statement ∧
        statementEdit s.withCaptures.table (classify s.withCaptures.table {}) e = .ok none := by
  obtain ⟨s, hs, hfacts⟩ := exists_ok_of_any
    (show (Scoping.ofScript carryingScript).toOption.any (fun s =>
        s.withCaptures.table.bindings[0]?.any fun b =>
          b.kind == .declared .varWord && b.hazards.contains .loopCarriedValue) = true by
      decide +kernel)
  rw [Option.any_eq_true_iff_get] at hfacts
  obtain ⟨hb, hfacts⟩ := hfacts
  rw [Bool.and_eq_true, List.contains_iff_mem] at hfacts
  have hb := (Option.some_get hb).symm
  have hv := eq_of_beq hfacts.1
  obtain ⟨hiff, ⟨e, he, hst, hi⟩, hedit⟩ := Scoping.loopCarriedValue_iff hs hb hv
  exact ⟨s, _, hs, hb, hv, (hiff.mp hfacts.2).1, hfacts.2, e, he, hst, hedit hfacts.2 {} e he hi⟩

/-- The script `for (const i of ["a", "b"]) { for (var j; ; ) { console.log(j += i); break; } }`, in
which the head of a loop is in the body of another. -/
def nestedScript : Node :=
  let log : Node := .member (.lookup ⟨"console", .of 48 55⟩)
    (.literal (.json (.str "log")) (.of 56 59)) false (.of 48 59)
  let sum : Node := .assign (.str "+=") (.lookup ⟨"j", .of 60 61⟩) (.lookup ⟨"i", .of 65 66⟩)
    (.of 60 66)
  let inner : Node := .forStmt
    (.varDecl .varWord [.declarator ⟨"j", .of 39 40⟩ .absent (.of 39 40)] (.of 35 40))
    .absent .absent
    (.block [.exprStmt (.call log [sum] (.of 48 67)) (.of 48 68), .breakStmt (.of 69 75)]
      (.of 46 77)) (.of 30 77)
  .program [.forEachStmt
    (.varDecl .constWord [.declarator ⟨"i", .of 11 12⟩ .absent (.of 11 12)] (.of 5 12))
    (.arrayLit [.literal (.json (.str "a")) (.of 17 20), .literal (.json (.str "b")) (.of 22 25)]
      (.of 16 26))
    (.block [inner] (.of 28 79)) true (.of 0 79)] (.of 0 79)

/-- The outer loop carries the variable in the head of the inner one, which is lowered unmarked. -/
theorem nestedScript_unmarked :
    ∃ a b, Analysis.ofScript nestedScript {} = .ok a ∧ a.table.bindings[1]? = some b ∧
      b.kind = .declared .varWord ∧ b.others = [] ∧ b.IsCarried a.scoping ∧
      .loopCarriedValue ∉ b.hazards ∧ a.edits = [⟨.of 35 38, "var", "let", []⟩] := by
  obtain ⟨a, ha, hfacts⟩ := exists_ok_of_any
    (show (Analysis.ofScript nestedScript {}).toOption.any (fun a =>
        decide (a.edits = [⟨.of 35 38, "var", "let", []⟩]) && a.table.bindings[1]?.any fun b =>
          decide (b.kind = .declared .varWord ∧ b.others = [] ∧ b.IsCarried a.scoping ∧
            .loopCarriedValue ∉ b.hazards)) = true by decide +kernel)
  rw [Bool.and_eq_true, Option.any_eq_true_iff_get] at hfacts
  obtain ⟨hedits, hb, hfacts⟩ := hfacts
  obtain ⟨hv, hone, hcarried, hx⟩ := of_decide_eq_true hfacts
  exact ⟨a, _, ha, (Option.some_get hb).symm, hv, hone, hcarried, hx, of_decide_eq_true hedits⟩

/-- The inner variable keeps its value over the passes of the outer loop, until it is lowered. -/
theorem nestedScript_log_differs :
    ∃ a, Analysis.ofScript nestedScript {} = .ok a ∧
      (runScript nestedScript {}).toOption =
        some ⟨"undefined", none, ["undefineda", "undefinedab"]⟩ ∧
      (runScript (a.rewrite nestedScript) {}).toOption =
        some ⟨"undefined", none, ["undefineda", "undefinedb"]⟩ := by
  obtain ⟨a, ha, hrun⟩ := exists_ok_of_any
    (show (Analysis.ofScript nestedScript {}).toOption.any (fun a =>
        (runScript (a.rewrite nestedScript) {}).toOption ==
          some ⟨"undefined", none, ["undefineda", "undefinedb"]⟩) = true by decide +kernel)
  exact ⟨a, ha, by decide +kernel, eq_of_beq hrun⟩

end ScopeLowering
