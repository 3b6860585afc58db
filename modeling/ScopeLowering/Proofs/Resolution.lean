import ScopeLowering.Proofs.Simulation

/-!
# Names find the same declarations

Lowering moves many bindings into their blocks at the same time. Still every use of a name finds the
declaration that it found before, a name without a declaration stays so, and no two declarations get
into each other's way.

## The model

A lookup climbs from scope to scope. What it can meet in the rewritten script but not in the old one
is a lowered binding, and Lowering has seen to it that no name is looked up from outside of the
block such a binding moves into, and that nothing on the way from that block to the function has the
same name.
-/

namespace ScopeLowering

namespace Draft

/-- The last drafts of a script and of the rewritten one. -/
structure Twins (key : Nat → Keyword) (kw : BindingId → Keyword) (ids : List BindingId)
    (d d' : Draft) : Prop where
  names : Names kw ids d d'
  frame : d.Frame d'
  notes : ∃ t, Notes key kw ids t d d'
  lowering : Lowering d key kw
  sound : d.Sound
  sound' : d'.Sound

namespace Twins

variable {key : Nat → Keyword} {kw : BindingId → Keyword} {ids : List BindingId} {d d' : Draft}

/-! ### Lookups -/

/-- A binding that moves into a scope was found from there before. -/
theorem lookup_of_home (h : Twins key kw ids d d') {i : BindingId} {b : Binding}
    (hb : d.binding? i = some b) (hl : IsLowered kw i) :
    d.graph.lookup b.name b.first.scope = some i := by
  obtain ⟨B, hB⟩ := h.lowering.movable hl
  have := hB.binding
  rw [hb] at this
  cases this
  exact hB.lookup h.sound

/-- A name that finds a binding which stays finds its counterpart. -/
theorem lookup_kept (h : Twins key kw ids d d') {name : String} {s : ScopeId} {i : BindingId}
    (hi : d.graph.lookup name s = some i) (hl : ¬ IsLowered kw i) :
    ∃ j, ids[i]? = some j ∧ d'.graph.lookup name s = some j := by
  have hp := Graph.parent?_of_outlines h.frame.outlines
  have hd := h.sound
  have hd' := h.sound'
  induction s using hd.graph.induction with
  | root s hr =>
    rw [Graph.Sound.lookup_root hr] at hi
    obtain ⟨j, hj, hh⟩ := h.names.hereKept hi hl
    exact ⟨j, hj, hd'.graph.lookup_of_here hh⟩
  | up s up hr ih =>
    cases hs : d.graph.here? name s with
    | some x =>
      rw [hd.graph.lookup_of_here hs] at hi
      cases hi
      obtain ⟨j, hj, hh⟩ := h.names.hereKept hs hl
      exact ⟨j, hj, hd'.graph.lookup_of_here hh⟩
    | none =>
      have hn' : d'.graph.here? name s = none := by
        refine h.names.unheld hs fun {x b} hb hlx hname hhome => hl ?_
        have := h.lookup_of_home hb hlx
        rw [hname, hhome, hi] at this
        cases this
        exact hlx
      rw [hd.graph.lookup_up hr, hs, Option.none_or] at hi
      rw [hd'.graph.lookup_up (hp ▸ hr), hn', Option.none_or]
      exact ih hi

/-- A name that finds nothing still finds nothing. -/
theorem lookup_none (h : Twins key kw ids d d') {name : String} {s : ScopeId}
    (hi : d.graph.lookup name s = none) : d'.graph.lookup name s = none := by
  have hp := Graph.parent?_of_outlines h.frame.outlines
  have hd := h.sound
  have hd' := h.sound'
  have hunheld : ∀ {s}, d.graph.lookup name s = none → d.graph.here? name s = none →
      d'.graph.here? name s = none := by
    intro s hi hs
    refine h.names.unheld hs fun {x b} hb hlx hname hhome => ?_
    have := h.lookup_of_home hb hlx
    rw [hname, hhome, hi] at this
    cases this
  induction s using hd.graph.induction with
  | root s hr =>
    rw [Graph.Sound.lookup_root (hp ▸ hr)]
    exact hunheld hi (Graph.Sound.lookup_root hr ▸ hi)
  | up s up hr ih =>
    have hup := hi
    rw [hd.graph.lookup_up hr, Option.or_eq_none_iff] at hup
    rw [hd'.graph.lookup_up (hp ▸ hr), hunheld hi hup.1, Option.none_or]
    exact ih hup.2

/-- In the block of a lowered binding its name finds its counterpart. -/
theorem lookup_moved (h : Twins key kw ids d d') {s : ScopeId}
    {i : BindingId} {b : Binding} (hb : d.Movable i b) (hl : IsLowered kw i)
    (hi : d.graph.lookup b.name s = some i) (hw : d.graph.isWithin s b.first.scope = true) :
    ∃ j, ids[i]? = some j ∧ d'.graph.lookup b.name s = some j := by
  have hp := Graph.parent?_of_outlines h.frame.outlines
  have hd := h.sound
  have hd' := h.sound'
  obtain ⟨j, hj, _, hhome⟩ := h.names.moved hb.binding hl
  refine ⟨j, hj, ?_⟩
  induction s using hd.graph.induction with
  | root s hr =>
    rw [← (Graph.Sound.isWithin_root hr).mp hw]
    exact hd'.graph.lookup_of_here hhome
  | up s up hr ih =>
    by_cases hs : s = b.first.scope
    · rw [hs]
      exact hd'.graph.lookup_of_here hhome
    · have hs' : d.graph.here? b.name s = none := by
        cases hx : d.graph.here? b.name s with
        | none => rfl
        | some x =>
          rw [hd.graph.lookup_of_here hx] at hi
          cases hi
          obtain ⟨_, hscope⟩ := hb.scope_of_here hd hx
          exact absurd (hd.graph.isWithin_antisymm hw (hscope ▸ hb.isWithin_scope hd)) hs
      have hn' : d'.graph.here? b.name s = none := by
        refine h.names.unheld hs' fun {x c} hc hlx hname hscope => hs ?_
        have := h.lookup_of_home hc hlx
        rw [hname, hscope, hi] at this
        cases this
        rw [hb.binding] at hc
        cases hc
        exact hscope.symm
      rw [hd.graph.lookup_up hr, hs', Option.none_or] at hi
      rw [hd'.graph.lookup_up (hp ▸ hr), hn', Option.none_or]
      refine ih hi ?_
      exact ((hd.graph.isWithin_up hr).mp hw).resolve_left (Ne.symm hs)

/-! ### Uses -/

/-- Every use finds the counterpart of the binding it found. -/
theorem lookup_pending (h : Twins key kw ids d d') {r : Reference} (hr : r ∈ d.pending)
    {i : BindingId} (hi : d.graph.lookup r.name.text r.scope = some i) :
    ∃ j, ids[i]? = some j ∧ d'.graph.lookup r.name.text r.scope = some j := by
  by_cases hl : IsLowered kw i
  · obtain ⟨b, hb⟩ := h.lowering.movable hl
    obtain ⟨t, _, ht⟩ := h.sound.graph.exists_here_of_lookup hi
    obtain ⟨hname, _⟩ := hb.scope_of_here h.sound ht
    have hw := hb.uses r (List.mem_filter.mpr ⟨hr, beq_iff_eq.mpr hi⟩)
    rw [hname] at hi ⊢
    exact h.lookup_moved hb hl hi hw
  · exact h.lookup_kept hi hl

theorem lookup_pending_iff (h : Twins key kw ids d d') {r : Reference} (hr : r ∈ d.pending)
    {i j : BindingId} (hij : ids[i]? = some j) :
    d'.graph.lookup r.name.text r.scope = some j ↔ d.graph.lookup r.name.text r.scope = some i := by
  constructor
  · intro hj
    cases hi : d.graph.lookup r.name.text r.scope with
    | none => rw [h.lookup_none hi] at hj; cases hj
    | some x =>
      obtain ⟨y, hy, hl⟩ := h.lookup_pending hr hi
      rw [hj] at hl
      cases hl
      rw [eq_of_increasing h.names.increasing hy hij]
  · intro hi
    obtain ⟨y, hy, hl⟩ := h.lookup_pending hr hi
    rw [hij] at hy
    cases hy
    exact hl

theorem usesOf_eq (h : Twins key kw ids d d') {i j : BindingId} (hij : ids[i]? = some j) :
    d'.usesOf j = d.usesOf i := by
  unfold usesOf
  rw [h.frame.pending]
  refine List.filter_congr fun r hr => ?_
  rw [Bool.eq_iff_iff, beq_iff_eq, beq_iff_eq]
  exact h.lookup_pending_iff hr hij

/-- No use finds a binding that the first script does not have. -/
theorem usesOf_extra (h : Twins key kw ids d d') {j : BindingId} (hj : j ∉ ids) :
    d'.usesOf j = [] := by
  refine List.filter_eq_nil_iff.mpr fun r hr hl => ?_
  rw [h.frame.pending] at hr
  rw [beq_iff_eq] at hl
  cases hi : d.graph.lookup r.name.text r.scope with
  | none => rw [h.lookup_none hi] at hl; cases hl
  | some i =>
    obtain ⟨y, hy, hl'⟩ := h.lookup_pending hr hi
    rw [hl] at hl'
    cases hl'
    exact hj (List.mem_of_getElem? hy)

theorem freeUses_eq (h : Twins key kw ids d d') : d'.freeUses = d.freeUses := by
  unfold freeUses
  rw [h.frame.pending]
  refine List.filter_congr fun r hr => ?_
  cases hi : d.graph.lookup r.name.text r.scope with
  | none => rw [h.lookup_none hi]
  | some i =>
    obtain ⟨y, _, hl⟩ := h.lookup_pending hr hi
    rw [hl]
    rfl

/-! ### Collisions -/

/-- A lowered `var` passes no binding of its name, and no other `var` passes it. -/
theorem not_low_of_passes (h : Twins key kw ids d d') {v other : BindingId} {b : Binding}
    (hp : d.Passes v b other) : ¬ IsLowered kw v ∧ ¬ IsLowered kw other := by
  refine ⟨fun hl => ?_, fun hl => ?_⟩ <;> obtain ⟨B, hB⟩ := h.lowering.movable hl
  · obtain ⟨hb, site, t, hv, ht, ho⟩ := hp
    obtain ⟨b', hb', hsite, _⟩ := h.sound.varSites hv
    have he := hB.binding
    rw [hb] at hb' he
    cases hb'
    cases he
    rw [hB.clear t (hB.site_eq hsite ▸ ht)] at ho
    cases ho
  · refine hB.unpassed ((mem_hoistTags h.sound).mpr ⟨v, b, other, hp, .inr ⟨?_, .inr rfl, rfl⟩⟩)
    unfold kindOf
    rw [hB.binding, Option.map_some, Option.getD_some, hB.kind]
    exact nofun

theorem passes_kept (h : Twins key kw ids d d') {v other : BindingId} {b : Binding}
    (hp : d.Passes v b other) :
    ∃ v' other', ids[v]? = some v' ∧ ids[other]? = some other' ∧ d'.Passes v' b other' := by
  obtain ⟨hlv, hlo⟩ := h.not_low_of_passes hp
  obtain ⟨hb, site, t, hv, ht, ho⟩ := hp
  obtain ⟨_, hn⟩ := h.notes
  obtain ⟨v', hid, hb'⟩ := h.names.kept hb hlv
  obtain ⟨v'', hid', hv'⟩ := hn.site hv hlv
  rw [hid] at hid'
  cases hid'
  obtain ⟨other', hido, ho'⟩ := h.names.hereKept ho hlo
  refine ⟨v', other', hid, hido, hb', site, t, hv', ?_, ho'⟩
  rw [Graph.path_of_outlines h.frame.outlines]
  exact ht

/-- If a `var` passes another binding after lowering, it did so before. -/
theorem passes_of (h : Twins key kw ids d d') {v' other' : BindingId} {b : Binding}
    (hp : d'.Passes v' b other') :
    ∃ v other, ids[v]? = some v' ∧ ids[other]? = some other' ∧ d.Passes v b other := by
  obtain ⟨hb', site, t, hv', ht, ho'⟩ := hp
  obtain ⟨_, hn⟩ := h.notes
  obtain ⟨v, hid, hlv, hv⟩ := hn.siteOf hv'
  obtain ⟨b₀, hb, hsite, hfun⟩ := h.sound.varSites hv
  obtain ⟨v'', hid', hb''⟩ := h.names.kept hb hlv
  rw [hid] at hid'
  cases hid'
  rw [hb'] at hb''
  cases hb''
  rw [Graph.path_of_outlines h.frame.outlines] at ht
  rcases h.names.hereOf ho' with ⟨x, hx, _, ho⟩ | ⟨x, B, _, hlx, hB, hname, hhome⟩ | ⟨_, x, hlx, ho⟩
  · exact ⟨v, x, hid, hx, hb, site, t, hv, ht, ho⟩
  · -- a lowered binding of the same name and function would be the same binding
    obtain ⟨_, hM⟩ := h.lowering.movable hlx
    have he := hM.binding
    rw [hB] at he
    cases he
    obtain ⟨_, hlt, hscope⟩ := h.sound.sites hb site hsite
    rw [Graph.owner, if_pos hfun] at hscope
    rw [hscope] at ht
    have hsame : B.scope = b.scope := by
      rw [hM.scope_eq h.sound, hhome, h.sound.graph.nearestFunction_of_mem_path hlt ht, hscope]
    obtain ⟨old, hold, hrest⟩ := h.sound.owned hb
    rw [← hname, ← hsame, hM.here h.sound] at hold
    cases hold
    rcases hrest with rfl | ⟨htag, _⟩
    · exact absurd hlx hlv
    · exact absurd htag (hM.untagged (.refl d))
  · exact absurd hlx (h.not_low_of_passes ⟨hb, site, t, hv, ht, ho⟩).2

/-- Counterparts of passed bindings are of the same kind. -/
theorem kindOf_passed (h : Twins key kw ids d d') {v other other' : BindingId} {b : Binding}
    (hp : d.Passes v b other) (hid : ids[other]? = some other') :
    d'.kindOf other' = d.kindOf other := by
  have hl := (h.not_low_of_passes hp).2
  obtain ⟨_, _, _, _, _, ho⟩ := hp
  obtain ⟨_, hb, _⟩ := h.sound.held ho
  exact h.names.kindOf_eq hb hl hid

theorem mem_hoistTags_iff (h : Twins key kw ids d d') {i j : BindingId} (hij : ids[i]? = some j)
    {x : Hazard} : (j, x) ∈ d'.hoistTags ↔ (i, x) ∈ d.hoistTags := by
  have heq : ∀ {y}, ids[y]? = some j → i = y := fun hy =>
    eq_of_increasing h.names.increasing hij hy
  rw [mem_hoistTags h.sound, mem_hoistTags h.sound']
  constructor
  · rintro ⟨v', b, other', hp', hx⟩
    obtain ⟨v, other, hv, ho, hp⟩ := h.passes_of hp'
    rw [h.kindOf_passed hp ho] at hx
    refine ⟨v, b, other, hp, ?_⟩
    rcases hx with ⟨hk, rfl, hx⟩ | ⟨hk, rfl | rfl, hx⟩
    · exact .inl ⟨hk, heq hv, hx⟩
    · exact .inr ⟨hk, .inl (heq hv), hx⟩
    · exact .inr ⟨hk, .inr (heq ho), hx⟩
  · rintro ⟨v, b, other, hp, hx⟩
    obtain ⟨v', other', hv, ho, hp'⟩ := h.passes_kept hp
    rw [← h.kindOf_passed hp ho] at hx
    refine ⟨v', b, other', hp', ?_⟩
    rcases hx with ⟨hk, rfl, hx⟩ | ⟨hk, rfl | rfl, hx⟩
    · exact .inl ⟨hk, Option.some.inj (hij.symm.trans hv), hx⟩
    · exact .inr ⟨hk, .inl (Option.some.inj (hij.symm.trans hv)), hx⟩
    · exact .inr ⟨hk, .inr (Option.some.inj (hij.symm.trans ho)), hx⟩

/-- Bindings that the first script does not have collide with nothing. -/
theorem hoistTags_extra (h : Twins key kw ids d d') {j : BindingId} (hj : j ∉ ids) {x : Hazard} :
    (j, x) ∉ d'.hoistTags := by
  rw [mem_hoistTags h.sound']
  rintro ⟨v', b, other', hp', hx⟩
  obtain ⟨v, other, hv, ho, _⟩ := h.passes_of hp'
  rcases hx with ⟨_, rfl, _⟩ | ⟨_, rfl | rfl, _⟩
  · exact hj (List.mem_of_getElem? hv)
  · exact hj (List.mem_of_getElem? hv)
  · exact hj (List.mem_of_getElem? ho)

end Twins

theorem endangers_duplicate {d : Draft} {i : BindingId} {b : Binding} :
    d.Endangers i b .duplicateBlockBinding ↔
      .duplicateBlockBinding ∈ b.hazards ∨ (i, .duplicateBlockBinding) ∈ d.hoistTags := by
  unfold Endangers
  constructor
  · rintro (hx | hx | ⟨hx, _⟩ | ⟨hx, _⟩)
    · exact .inl hx
    · exact .inr hx
    · cases hx
    · cases hx
  · rintro (hx | hx)
    · exact .inl hx
    · exact .inr (.inl hx)

end Draft

/-! ### The theorem -/

/-- The bindings of the first scoping have counterparts in the second, with the same uses. Here
`ids` lists their numbers. -/
structure Scoping.Preserved (ids : List BindingId) (s s' : Scoping) : Prop where
  /-- The scopes have the same numbers, kinds, parents and spans. -/
  arena : s'.graph.outlines = s.graph.outlines
  length : ids.length = s.table.bindings.length
  increasing : ids.Pairwise (· < ·)
  counterpart : ∀ {i j : BindingId} {b : Binding}, ids[i]? = some j →
    s.table.bindings[i]? = some b →
    ∃ b', s'.table.bindings[j]? = some b' ∧ b'.first.name = b.first.name ∧
      b'.references = b.references ∧
      (.duplicateBlockBinding ∈ b'.hazards ↔ .duplicateBlockBinding ∈ b.hazards)
  /-- What is declared in the second script only is not used and does not collide. -/
  extra : ∀ {j : BindingId} {b' : Binding}, s'.table.bindings[j]? = some b' → j ∉ ids →
    b'.references = [] ∧ .duplicateBlockBinding ∉ b'.hazards
  free : s'.table.free = s.table.free

/-- The counterpart of a binding, as the draft has it. -/
theorem Draft.Names.counterpart {kw : BindingId → Keyword} {ids : List BindingId} {d d' : Draft}
    (h : Names kw ids d d') {i j : BindingId} {b : Binding} (hb : d.binding? i = some b)
    (hij : ids[i]? = some j) :
    ∃ b', d'.binding? j = some b' ∧ b'.first.name = b.first.name ∧
      b'.references = b.references ∧ b'.hazards = b.hazards := by
  by_cases hl : IsLowered kw i
  · obtain ⟨j', hj', hbj, _⟩ := h.moved hb hl
    rw [hij] at hj'
    cases hj'
    exact ⟨_, hbj, rfl, rfl, rfl⟩
  · obtain ⟨j', hj', hbj⟩ := h.kept hb hl
    rw [hij] at hj'
    cases hj'
    exact ⟨b, hbj, rfl, rfl, rfl⟩

theorem Draft.Twins.preserved {key : Nat → Keyword} {kw : BindingId → Keyword}
    {ids : List BindingId} {d d' : Draft} (h : Twins key kw ids d d') :
    Scoping.Preserved ids d.finish d'.finish := by
  constructor
  case arena => rw [finish_graph, finish_graph]; exact h.frame.outlines
  case length => rw [finish_length]; exact h.names.length
  case increasing => exact h.names.increasing
  case counterpart =>
    intro i j b hij hb
    obtain ⟨b₀, hazards, hb₀, rfl, hm⟩ := binding_of_finish hb
    obtain ⟨b₁, hb₁, hfirst, hrefs, hhaz⟩ := h.names.counterpart hb₀ hij
    obtain ⟨hazards', hf, hm'⟩ := finish_binding hb₁
    refine ⟨_, hf, hfirst, ?_, ?_⟩
    · show Table.inOrder (b₁.references ++ d'.usesOf j) = _
      rw [h.usesOf_eq hij, hrefs]
    · rw [hm', hm, endangers_duplicate, endangers_duplicate, h.mem_hoistTags_iff hij, hhaz]
  case extra =>
    intro j b' hb' hj
    obtain ⟨b₀, hazards, hb₀, rfl, hm⟩ := binding_of_finish hb'
    obtain ⟨_, hempty⟩ := h.names.extra hb₀ hj
    refine ⟨?_, fun hx => ?_⟩
    · show Table.inOrder (b₀.references ++ d'.usesOf j) = []
      rw [(h.sound'.bare hb₀).1, h.usesOf_extra hj]
      exact List.mergeSort_nil
    · rw [hm, endangers_duplicate, hempty] at hx
      rcases hx with hx | hx
      · cases hx
      · exact h.hoistTags_extra hj hx
  case free =>
    rw [finish_free, finish_free, h.frame.free, h.freeUses_eq]

/-- A rewritten script is read as a script. -/
theorem Scoping.ofScript_rewrite {script : Node} {s : Scoping} (a : Analysis)
    (h : Scoping.ofScript script = .ok s) : Scoping.ofScript (a.rewrite script) =
      (Draft.steps {} (Event.ofScript (a.rewrite script))).map Draft.finish := by
  cases script with
  | program => rfl
  | _ => cases h

/-- The own name of a function expression stands outside of the function's text. -/
def Event.Misplaced (script : Node) (f : ScopeFault) : Prop :=
  ∃ name ready, .callee name ready (some f) ∈ Event.ofScript script

/-- The last drafts of a script and of what the analysis turns it into. -/
theorem Analysis.twins {script : Node} {o : Options} {a : Analysis}
    (h : Analysis.ofScript script o = .ok a) :
    ∃ d : Draft, Scoping.ofScript script = .ok d.finish ∧ a.scoping = d.finish.withCaptures ∧
      (∀ f, d.Handled f) ∧
      ((∃ ids d', Scoping.ofScript (a.rewrite script) = .ok d'.finish ∧
          Draft.Twins a.keywordAt a.keywordOf ids d d') ∨
        ∃ f, Event.Misplaced script f ∧ Scoping.ofScript (a.rewrite script) = .error f) := by
  obtain ⟨d, hd, hscoping, hlow, hhandled, hrest⟩ := Analysis.mirrors h
  obtain ⟨s, hs, _⟩ := Analysis.ofScript_ok h
  obtain ⟨d₀, hd₀, rfl⟩ := Scoping.ofScript_ok hs
  rw [hd] at hd₀
  cases hd₀
  rw [Scoping.ofScript_rewrite a hs]
  refine ⟨d, hs, hscoping, hhandled, ?_⟩
  rcases hrest with ⟨ids, t, d', hd', hm⟩ | ⟨name, ready, f, hf, hd'⟩ <;> rw [hd']
  · exact .inl ⟨ids, d', rfl, hm.names, hm.frame, ⟨t, hm.notes⟩, hlow, Draft.sound_ofScript hd,
      Draft.sound_ofScript hd'⟩
  · exact .inr ⟨f, ⟨name, ready, hf⟩, rfl⟩

/-- Rewriting a script keeps its scopes, the declaration that each use finds, and the uses that find
none, and no declarations come to collide. It fails only over the own name of a function expression
that stands outside of the function's text. -/
theorem Analysis.rewrite_preserved {script : Node} {o : Options} {a : Analysis}
    (h : Analysis.ofScript script o = .ok a) :
    ∃ s, Scoping.ofScript script = .ok s ∧
      ((∃ ids s', Scoping.ofScript (a.rewrite script) = .ok s' ∧ Scoping.Preserved ids s s') ∨
        ∃ f, Event.Misplaced script f ∧ Scoping.ofScript (a.rewrite script) = .error f) := by
  obtain ⟨d, hs, _, _, ⟨ids, d', hs', htwins⟩ | hfault⟩ := Analysis.twins h
  · exact ⟨_, hs, .inl ⟨ids, _, hs', htwins.preserved⟩⟩
  · exact ⟨_, hs, .inr hfault⟩

/-- The script `(function f() { { var f = 1; f; } });`, with the own name of the function said to be
at some place. The `var` hides that name, until it is lowered. -/
def hidingScript (name : Span) : Node :=
  let f : Ident := ⟨"f", .of 22 23⟩
  let inside : List Node :=
    [.varDecl .varWord [.declarator f (.literal (.json (.int 1)) (.of 26 27)) (.of 22 27)]
        (.of 18 28),
      .exprStmt (.lookup ⟨"f", .of 29 30⟩) (.of 29 31)]
  .program [.exprStmt (.function .expression (some ⟨"f", name⟩) [] [.block inside (.of 16 33)] false
    (.of 1 35)) (.of 0 37)] (.of 0 37)

theorem rewrite_preserved_hidingScript :
    ∃ a, Analysis.ofScript (hidingScript (.of 10 11)) {} = .ok a ∧ a.edits.length = 1 ∧
      ∃ ids s s', Scoping.ofScript (hidingScript (.of 10 11)) = .ok s ∧
        Scoping.ofScript (a.rewrite (hidingScript (.of 10 11))) = .ok s' ∧
          Scoping.Preserved ids s s' := by
  obtain ⟨a, ha, he⟩ := exists_ok_of_any
    (show (Analysis.ofScript (hidingScript (.of 10 11)) {}).toOption.any (fun a =>
        decide (a.edits.length = 1 ∧
          (Scoping.ofScript (a.rewrite (hidingScript (.of 10 11)))).toOption.isSome)) = true by
      decide +kernel)
  obtain ⟨hedits, hread⟩ := of_decide_eq_true he
  obtain ⟨s, hs, ⟨ids, s', hs', hkept⟩ | ⟨f, -, hf⟩⟩ := Analysis.rewrite_preserved ha
  · exact ⟨a, ha, hedits, ids, s, s', hs, hs', hkept⟩
  · rw [hf] at hread
    cases hread

/-- Where the name is said to be outside of the function, the rewritten script cannot be read. -/
theorem rewrite_unreadable_misplaced :
    ∃ a, Analysis.ofScript (hidingScript (.of 90 91)) {} = .ok a ∧
      ∃ f, Scoping.ofScript (a.rewrite (hidingScript (.of 90 91))) = .error f := by
  obtain ⟨a, ha, he⟩ := exists_ok_of_any
    (show (Analysis.ofScript (hidingScript (.of 90 91)) {}).toOption.any
        (fun a => (Scoping.ofScript (a.rewrite (hidingScript (.of 90 91)))).toOption.isNone) = true
      by decide +kernel)
  refine ⟨a, ha, ?_⟩
  cases hs : Scoping.ofScript (a.rewrite (hidingScript (.of 90 91))) with
  | error f => exact ⟨f, rfl⟩
  | ok s => rw [hs] at he; cases he

end ScopeLowering
