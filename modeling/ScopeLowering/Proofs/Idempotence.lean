import ScopeLowering.Proofs.Timing

/-!
# Rewriting twice changes nothing

A `var` that is kept has a hazard, or shares a statement with one that has. All of these are found
again in the rewritten script, so the second analysis keeps the same `var`s and plans no edits.

## The model

Hazards need not stay the same. A use outside of the block of a `var` is one that would find
nothing, or one that would find something else, and which of the two it is can change when other
bindings move. Both block, and that is what is preserved: `Binding.Blocked`.
-/

namespace ScopeLowering

/-! ### Hazards of references -/

namespace Draft.Twins

variable {key : Nat → Keyword} {kw : BindingId → Keyword} {ids : List BindingId} {d d' : Draft}

/-- The uses inside the block are as dangerous as before. -/
theorem homeHazards_eq (h : Twins key kw ids d d') (hh : ∀ f, d.Handled f) (b : Binding)
    (hazards : List Hazard) :
    d'.finish.homeHazards { b with hazards } = d.finish.homeHazards b := by
  have ho := h.preserved.arena
  have hcaptured : d'.finish.isCaptured { b with hazards } = d.finish.isCaptured b := by
    funext r
    unfold Scoping.isCaptured
    rw [Graph.functionsBetween_of_outlines ho]
  have hearly : d'.finish.isTooEarly { b with hazards } = d.finish.isTooEarly b :=
    funext (h.isTooEarly_eq hh rfl rfl rfl)
  unfold Scoping.homeHazards
  rw [hcaptured, hearly, Graph.isWithin_of_outlines ho, Graph.loopBetween_of_outlines ho]

/-- A hazard that uses show is shown again, or another one blocks. -/
theorem captureHazards_kept (h : Twins key kw ids d d') (hh : ∀ f, d.Handled f) {b : Binding}
    {i : BindingId} {x : Hazard} (hx : x ∈ d.finish.captureHazards i b) (j : BindingId)
    (hazards : List Hazard) :
    x ∈ d'.finish.captureHazards j { b with hazards } ∨
      ∃ y ∈ blockers, y ∈ d'.finish.captureHazards j { b with hazards } := by
  rw [Scoping.captureHazards_eq] at hx ⊢
  rw [h.homeHazards_eq hh]
  rcases List.mem_append.mp hx with hx | hx
  · obtain ⟨r, hr, rfl⟩ := List.mem_map.mp hx
    refine .inr ⟨d'.finish.stray j { b with hazards } r, Scoping.stray_mem_blockers _ _ _ _, ?_⟩
    refine List.mem_append_left _ (List.mem_map_of_mem ?_)
    unfold Scoping.strays at hr ⊢
    rw [Graph.isWithin_of_outlines h.preserved.arena]
    exact hr
  · exact .inl (List.mem_append_right _ hx)

/-! ### Kept bindings -/

/-- Scopes that could be reached by any name still can. -/
theorem isReached_kept (h : Twins key kw ids d d') {s : ScopeId} (hs : d.isReached s = true) :
    d'.isReached s = true := by
  unfold isReached dynamicScopes at hs ⊢
  rw [h.frame.dynamic, h.frame.evalCalls, Graph.isWithin_of_outlines h.frame.outlines]
  simp only [List.any_eq_true] at hs ⊢
  obtain ⟨t, ht, hw⟩ := hs
  refine ⟨t, ?_, hw⟩
  rcases List.mem_append.mp ht with ht | ht
  · exact List.mem_append_left _ ht
  · obtain ⟨r, hr, rfl⟩ := List.mem_map.mp ht
    obtain ⟨hr, hn⟩ := List.mem_filter.mp hr
    refine List.mem_append_right _ (List.mem_map_of_mem (List.mem_filter.mpr ⟨hr, ?_⟩))
    rw [Option.isNone_iff_eq_none] at hn ⊢
    exact h.lookup_none hn

theorem touchesGlobals_eq (h : Twins key kw ids d d') :
    d'.resolve.touchesGlobals = d.resolve.touchesGlobals := by
  rw [resolve_eq, resolve_eq]
  unfold touchesGlobals
  simp only
  rw [h.frame.globalReach, h.frame.free, h.freeUses_eq]

theorem endangers_kept (h : Twins key kw ids d d') {i j : BindingId} (hij : ids[i]? = some j)
    {b : Binding} {x : Hazard} (hx : d.Endangers i b x) : d'.Endangers j b x := by
  rcases hx with hx | hx | ⟨hx, hr⟩ | ⟨hx, hg, hrest⟩
  · exact .inl hx
  · exact .inr (.inl ((h.mem_hoistTags_iff hij).mpr hx))
  · exact .inr (.inr (.inl ⟨hx, h.isReached_kept hr⟩))
  · exact .inr (.inr (.inr ⟨hx, h.touchesGlobals_eq.trans hg, hrest⟩))

/-- A binding that stays differs from its counterpart in hazards only, and loses none. -/
theorem finish_kept (h : Twins key kw ids d d') {i j : BindingId} (hij : ids[i]? = some j)
    (hl : ¬ IsLowered kw i) {b : Binding} (hb : d.finish.table.bindings[i]? = some b) :
    ∃ hazards, d'.finish.table.bindings[j]? = some { b with hazards } ∧
      ∀ x ∈ b.hazards, x ∈ hazards := by
  obtain ⟨b₀, _, hb₀, rfl, hm⟩ := binding_of_finish hb
  obtain ⟨j', hj', hbj⟩ := h.names.kept hb₀ hl
  rw [hij] at hj'
  cases hj'
  obtain ⟨hazards', hf, hm'⟩ := finish_binding hbj
  refine ⟨hazards', ?_, fun x hx => (hm' x).mpr (h.endangers_kept hij ((hm x).mp hx))⟩
  rw [hf, h.usesOf_eq hij]

/-- A binding that stays is of the same kind, and if it was blocked it still is. -/
theorem blocked_kept (h : Twins key kw ids d d') (hh : ∀ f, d.Handled f) {i j : BindingId}
    (hij : ids[i]? = some j) (hl : ¬ IsLowered kw i) {c : Binding}
    (hc : d.finish.withCaptures.table.bindings[i]? = some c) :
    ∃ c', d'.finish.withCaptures.table.bindings[j]? = some c' ∧ c'.kind = c.kind ∧
      ∀ o, c.isCandidate = true → c.Blocked o → c'.Blocked o := by
  rw [Scoping.withCaptures_binding] at hc ⊢
  obtain ⟨b, hb, rfl⟩ := Option.map_eq_some_iff.mp hc
  obtain ⟨hazards, hb', hsub⟩ := h.finish_kept hij hl hb
  obtain ⟨hs, _, he, hm⟩ := d.finish.inspect_spec i b
  obtain ⟨hs', _, he', hm'⟩ := d'.finish.inspect_spec j { b with hazards }
  refine ⟨_, by rw [hb']; rfl, by rw [he, he'], fun o hcand hblock => ?_⟩
  rw [he] at hcand hblock
  rw [he']
  -- a hazard of the first binding is one of the second, or another blocks
  have hkept : ∀ x ∈ hs, x ∈ hs' ∨ ∃ y ∈ blockers, y ∈ hs' := by
    intro x hx
    rcases (hm x).mp hx with hx | ⟨_, hx⟩
    · exact .inl ((hm' x).mpr (.inl (hsub x hx)))
    · rcases h.captureHazards_kept hh hx j hazards with hx | ⟨y, hy, hx⟩
      · exact .inl ((hm' x).mpr (.inr ⟨hcand, hx⟩))
      · exact .inr ⟨y, hy, (hm' y).mpr (.inr ⟨hcand, hx⟩)⟩
  rcases hblock with ⟨x, hx, hmem⟩ | ⟨hmem, ha⟩
  · rcases hkept x hmem with hx' | hy
    · exact .inl ⟨x, hx, hx'⟩
    · exact .inl hy
  · rcases hkept _ hmem with hx' | hy
    · exact .inr ⟨hx', ha⟩
    · exact .inl hy

/-! ### Kept statements -/

theorem isCandidate_iff (h : Twins key kw ids d d') (hh : ∀ f, d.Handled f) {i j : BindingId}
    (hij : ids[i]? = some j) (hl : ¬ IsLowered kw i) :
    d'.finish.withCaptures.table.IsCandidate j ↔ d.finish.withCaptures.table.IsCandidate i := by
  have hi : i < d.finish.table.bindings.length := by
    rw [← h.preserved.length]
    exact (List.getElem?_eq_some_iff.mp hij).1
  have hc := d.finish.withCaptures_binding i
  rw [List.getElem?_eq_getElem hi, Option.map_some] at hc
  obtain ⟨c', hc', hk, _⟩ := h.blocked_kept hh hij hl hc
  have hcand : c'.isCandidate = (d.finish.inspect i d.finish.table.bindings[i]).isCandidate := by
    unfold Binding.isCandidate
    rw [hk]
  constructor
  · rintro ⟨x, hx, hxc⟩
    rw [hc'] at hx
    cases hx
    exact ⟨_, hc, hcand ▸ hxc⟩
  · rintro ⟨x, hx, hxc⟩
    rw [hc] at hx
    cases hx
    exact ⟨_, hc', hcand.trans hxc⟩

/-- The members of a statement that keeps `var` are not lowered. -/
theorem not_low_of_member (h : Twins key kw ids d d') {n : Nat} {e : StatementEntry}
    (he : d.table.statements[n]? = some e) (hk : key n = .varWord) {i : BindingId}
    (hi : i ∈ e.members) : ¬ IsLowered kw i := by
  obtain ⟨_, hn⟩ := h.notes
  have hkw := h.lowering.keyword he (hn.noted e (List.mem_of_getElem? he)).1 hi
  exact fun hl => hl (hkw.trans hk)

theorem exists_id_of_member (h : Twins key kw ids d d') {e : StatementEntry}
    (he : e ∈ d.table.statements) {i : BindingId} (hi : i ∈ e.members) :
    ∃ j, ids[i]? = some j ∧ j ∈ (e.renumber ids).members := by
  obtain ⟨b, hb, _⟩ := h.sound.members he i hi
  obtain ⟨j, hj⟩ := h.names.exists_id hb
  refine ⟨j, hj, List.mem_map.mpr ⟨i, hi, ?_⟩⟩
  rw [List.getD_eq_getElem?_getD, hj, Option.getD_some]

/-- What has to be kept has to be kept again. -/
theorem forced_kept (h : Twins key kw ids d d') (hh : ∀ f, d.Handled f) {o : Options}
    (hkeep : ∀ {i}, Forced d.finish.withCaptures.table o i → ¬ IsLowered kw i) {i : BindingId}
    (hf : Forced d.finish.withCaptures.table o i) {j : BindingId} (hij : ids[i]? = some j) :
    Forced d'.finish.withCaptures.table o j := by
  obtain ⟨_, hn⟩ := h.notes
  -- a statement with a member that has to be kept is in the second table
  have hentry : ∀ {e : StatementEntry} {i}, e ∈ d.finish.withCaptures.table.statements →
      i ∈ e.members → ¬ IsLowered kw i →
      e.renumber ids ∈ d'.finish.withCaptures.table.statements ∧ e ∈ d.table.statements ∧
        ∀ x ∈ e.members, ¬ IsLowered kw x := by
    intro e i he hi hl
    have he₀ : e ∈ d.table.statements := d.finish_statements ▸ he
    obtain ⟨n, hget⟩ := List.mem_iff_getElem?.mp he₀
    have hkw := h.lowering.keyword hget (hn.noted e he₀).1 hi
    have hkey : key n = .varWord := Classical.byContradiction fun hk =>
      hl fun he => hk (hkw.symm.trans he)
    refine ⟨?_, he₀, fun x hx => h.not_low_of_member hget hkey hx⟩
    show e.renumber ids ∈ d'.finish.table.statements
    rw [finish_statements]
    exact List.mem_of_getElem? (hn.entry hget hkey)
  induction hf generalizing j with
  | own hb hc hk =>
    have hl := hkeep (.own hb hc hk)
    obtain ⟨c', hc', hkind, hblock⟩ := h.blocked_kept hh hij hl hb
    have hcand : c'.isCandidate = true := by
      unfold Binding.isCandidate at hc ⊢
      rw [hkind, hc]
    exact .own hc' hcand
      (Binding.decision_keep_iff.mpr (hblock o hc (Binding.decision_keep_iff.mp hk)))
  | undecided he hi hx hc hnc =>
    have hl := hkeep (.undecided he hi hx hc hnc)
    obtain ⟨he', he₀, hlx⟩ := hentry he hi hl
    obtain ⟨i', hi', him⟩ := h.exists_id_of_member he₀ hi
    obtain ⟨x', hx', hxm⟩ := h.exists_id_of_member he₀ hx
    rw [hij] at hi'
    cases hi'
    exact .undecided he' him hxm ((h.isCandidate_iff hh hij hl).mpr hc)
      fun hc' => hnc ((h.isCandidate_iff hh hx' (hlx _ hx)).mp hc')
  | shared he hi hx hc hfx ih =>
    have hl := hkeep (.shared he hi hx hc hfx)
    obtain ⟨he', he₀, _⟩ := hentry he hi hl
    obtain ⟨i', hi', him⟩ := h.exists_id_of_member he₀ hi
    obtain ⟨x', hx', hxm⟩ := h.exists_id_of_member he₀ hx
    rw [hij] at hi'
    cases hi'
    exact .shared he' him hxm ((h.isCandidate_iff hh hij hl).mpr hc) (ih hx')

/-- The statements of the second table are the kept ones of the first. -/
theorem exists_entry (h : Twins key kw ids d d') {e' : StatementEntry}
    (he' : e' ∈ d'.table.statements) :
    ∃ (n : Nat) (e : StatementEntry), d.table.statements[n]? = some e ∧ key n = .varWord ∧
      e' = e.renumber ids := by
  obtain ⟨_, hn⟩ := h.notes
  obtain ⟨m, hm⟩ := List.mem_iff_getElem?.mp he'
  have hlt := (List.getElem?_eq_some_iff.mp hm).1
  rw [hn.size] at hlt
  obtain ⟨n, hlen, hkey, rfl⟩ := exists_rank hlt
  have he := List.getElem?_eq_getElem hlen
  refine ⟨n, _, he, hkey, ?_⟩
  rw [hn.entry he hkey] at hm
  exact (Option.some.inj hm).symm

end Draft.Twins

/-! ### The theorem -/

/-- Where the rewritten script can be read, it is analyzed, and nothing is left to edit. -/
theorem Draft.Twins.emitPlan_nil {a : Analysis} {o : Options} {ids : List BindingId} {d d' : Draft}
    (h : Twins a.keywordAt a.keywordOf ids d d') (hh : ∀ f, d.Handled f)
    (hds : a.decisions = classify d.finish.withCaptures.table o) :
    emitPlan d'.finish.withCaptures.table (classify d'.finish.withCaptures.table o) = .ok [] := by
  obtain ⟨_, hn⟩ := h.notes
  have hkeep : ∀ {i}, Forced d.finish.withCaptures.table o i →
      ¬ IsLowered a.keywordOf i := by
    intro i hf hl
    obtain ⟨v, hv, hne, _⟩ := Analysis.verdict_of_isLowered hl
    rw [hds, hf.verdict] at hv
    exact hne (Option.some.inj hv).symm
  refine ScopeLowering.emitPlan_nil fun e' he' => ?_
  have he₀' : e' ∈ d'.table.statements := d'.finish_statements ▸ he'
  obtain ⟨n, e, he, hkey, rfl⟩ := h.exists_entry he₀'
  have he₀ := List.mem_of_getElem? he
  obtain ⟨hvar, hne⟩ := hn.noted e he₀
  refine statementEdit_none ?_ hvar ?_ ?_
  · exact fun hnil => hne (List.map_eq_nil_iff.mp hnil)
  · intro j hj
    obtain ⟨b, hb, _⟩ := h.sound'.members he₀' j hj
    obtain ⟨_, hf, _⟩ := finish_binding hb
    exact ⟨_, by rw [Scoping.withCaptures_binding, hf]; rfl⟩
  · intro j hj v hv
    obtain ⟨i, hi, rfl⟩ := List.mem_map.mp hj
    obtain ⟨j, hij, _⟩ := h.exists_id_of_member he₀ hi
    rw [List.getD_eq_getElem?_getD, hij, Option.getD_some] at hv
    have hl := h.not_low_of_member he hkey hi
    -- the member has a decision on both sides, and the first one keeps it
    obtain ⟨x, hx, _⟩ := Option.map_eq_some_iff.mp hv
    have hcand := (h.isCandidate_iff hh hij hl).mp (classify_find?_isSome.mp ⟨x, hx⟩)
    obtain ⟨y, hy⟩ := classify_find?_isSome.mpr hcand
    have hy' : (classify d.finish.withCaptures.table o).verdict? i = some y.verdict := by
      rw [Decisions.verdict?, hy]
      rfl
    have hyk : y.verdict = .keep := by
      refine Classical.byContradiction fun hne => hl fun hvar => hne ?_
      rw [Analysis.keywordOf, hds, hy'] at hvar
      exact Verdict.keyword_eq_var.mp hvar
    have hf := verdict_keep_iff.mp (hyk ▸ hy')
    rw [(h.forced_kept hh hkeep hf hij).verdict] at hv
    exact (Option.some.inj hv).symm

/-- The analysis of a rewritten script plans no edits. It fails only over the own name of a function
expression that stands outside of the function's text. -/
theorem Analysis.rewrite_idempotent {script : Node} {o : Options} {a : Analysis}
    (h : Analysis.ofScript script o = .ok a) :
    (∃ a', Analysis.ofScript (a.rewrite script) o = .ok a' ∧ a'.edits = []) ∨
      ∃ f, Event.Misplaced script f ∧
        Analysis.ofScript (a.rewrite script) o = .error (.scope f) := by
  obtain ⟨d, _, hscoping, hh, hrest⟩ := Analysis.twins h
  obtain ⟨_, _, _, hds, _⟩ := Analysis.ofScript_ok h
  unfold Analysis.ofScript
  rcases hrest with ⟨ids, d', hs', htwins⟩ | ⟨f, hf, hs'⟩ <;> rw [hs'] <;> simp only
  · rw [Analysis.table, hscoping] at hds
    rw [htwins.emitPlan_nil hh hds]
    exact .inl ⟨_, rfl, rfl⟩
  · exact .inr ⟨f, hf, rfl⟩

theorem rewrite_idempotent_hidingScript :
    ∃ a, Analysis.ofScript (hidingScript (.of 10 11)) {} = .ok a ∧ a.edits.length = 1 ∧
      ∃ a', Analysis.ofScript (a.rewrite (hidingScript (.of 10 11))) {} = .ok a' ∧
        a'.edits = [] := by
  obtain ⟨a, ha, he⟩ := exists_ok_of_any
    (show (Analysis.ofScript (hidingScript (.of 10 11)) {}).toOption.any (fun a =>
        decide (a.edits.length = 1 ∧
          (Analysis.ofScript (a.rewrite (hidingScript (.of 10 11))) {}).toOption.isSome)) = true by
      decide +kernel)
  obtain ⟨hedits, hread⟩ := of_decide_eq_true he
  rcases Analysis.rewrite_idempotent ha with h | ⟨f, -, hf⟩
  · exact ⟨a, ha, hedits, h⟩
  · rw [hf] at hread
    cases hread

/-- Where the own name of a function is misplaced, the second analysis fails. -/
theorem second_analysis_fails_misplaced :
    ∃ a, Analysis.ofScript (hidingScript (.of 90 91)) {} = .ok a ∧
      ∃ f, Analysis.ofScript (a.rewrite (hidingScript (.of 90 91))) {} = .error f := by
  obtain ⟨a, ha, he⟩ := exists_ok_of_any
    (show (Analysis.ofScript (hidingScript (.of 90 91)) {}).toOption.any
        (fun a => (Analysis.ofScript (a.rewrite (hidingScript (.of 90 91))) {}).toOption.isNone) =
          true
      by decide +kernel)
  refine ⟨a, ha, ?_⟩
  cases hs : Analysis.ofScript (a.rewrite (hidingScript (.of 90 91))) {} with
  | error f => exact ⟨f, rfl⟩
  | ok s => rw [hs] at he; cases he

end ScopeLowering
