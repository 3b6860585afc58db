import Mathlib.Data.List.Perm.Subperm
import ScopeLowering.Proofs.Resolution

/-!
# Code runs at the same moments

The earliest moment at which a reference can run is found by following functions to the names that
call them, those names to their reads, and so on. Lowering moves names into blocks, and some of them
are such handles. Still every moment stays what it was.

## The model

A handle is declared or used right where its function stands (`Handled`), so the lookup that finds
it is of the kind that lowering preserves. The search carries fuel, one unit for each binding, and a
list of the bindings that it follows at present. A rewritten script may have more bindings and so
more fuel, but the fuel never runs out: the list has no repeats, so once it is as long as there are
bindings, whatever handle comes next is on it.
-/

namespace ScopeLowering

/-! ### Moments of uses -/

namespace Scoping

/-- The moment at which a use of a binding can run first. -/
def momentOf (s : Scoping) (b : Binding) (r : Reference) : Moment :=
  s.effectivePosition b.first.scope b.first.ready.value s.table.bindings.length [] r.scope
    r.position

/-- Too early or not is told by the moment, and by the scopes without their names. -/
theorem isTooEarly_eq (s : Scoping) (b : Binding) (r : Reference) :
    s.isTooEarly b r = ((s.momentOf b r).isBefore b.first.ready.value ||
      s.graph.outlines[b.first.scope]?.any fun home => !home.cases.isEmpty &&
        home.caseAtMoment (s.momentOf b r) != home.caseAt b.first.name.position) := by
  unfold isTooEarly
  simp only
  rw [Graph.outline_eq]
  cases s.graph.scope? b.first.scope <;> rfl

end Scoping

namespace Draft.Twins

variable {key : Nat → Keyword} {kw : BindingId → Keyword} {ids : List BindingId} {d d' : Draft}

/-! ### Handles -/

/-- A name that a lowered binding is found by, where it is declared, is that binding's own. -/
theorem eq_of_mentioned (h : Twins key kw ids d d') {name : String} {s : ScopeId}
    {i x : BindingId} {B b : Binding} {site : Site} (hB : d.Movable i B)
    (hi : d.graph.lookup name s = some i) (hb : d.binding? x = some b) (hsite : site ∈ b.sites)
    (hname : site.name.text = name) (hscope : site.scope = s) : i = x := by
  obtain ⟨hn, hlt, howner⟩ := h.sound.sites hb site hsite
  rw [hscope] at hlt howner
  obtain ⟨old, hold, hrest⟩ := h.sound.owned hb
  rw [← hn, hname] at hold
  have hio : i = old := by
    unfold Graph.owner at howner
    split at howner
    · rw [howner] at hold
      rcases h.sound.graph.lookup_cases (h.sound.graph.isWithin_nearestFunction s) hold hi with
        he | ⟨t, ht, hh⟩
      · exact he
      · -- the function of a lowered binding is not strictly between a scope and its function
        obtain ⟨_, hts⟩ := hB.scope_of_here h.sound hh
        have hidem : d.graph.nearestFunction t = t := by
          rw [hts, hB.scope_eq h.sound]
          exact h.sound.graph.nearestFunction_idem (hB.home_lt h.sound)
        rw [h.sound.graph.nearestFunction_of_mem_path hlt ht] at hidem
        exact absurd hidem.symm (Graph.Sound.ne_of_mem_path ht)
    · rw [howner] at hold
      rw [h.sound.graph.lookup_of_here hold] at hi
      exact (Option.some.inj hi).symm
  rcases hrest with rfl | ⟨htag, _⟩
  · exact hio
  · exact absurd (hio ▸ htag) (hB.untagged (.refl d))

theorem lookup_mentioned (h : Twins key kw ids d d') {name : String} {s : ScopeId} {i : BindingId}
    (hm : d.Mentioned name s) (hi : d.graph.lookup name s = some i) :
    ∃ j, ids[i]? = some j ∧ d'.graph.lookup name s = some j := by
  by_cases hl : IsLowered kw i
  · obtain ⟨B, hB⟩ := h.lowering.movable hl
    obtain ⟨t, _, ht⟩ := h.sound.graph.exists_here_of_lookup hi
    obtain ⟨hname, _⟩ := hB.scope_of_here h.sound ht
    rcases hm with ⟨r, hr, rfl, rfl⟩ | ⟨x, b, hb, site, hsite, hn, hs⟩
    · exact h.lookup_pending hr hi
    · obtain rfl := h.eq_of_mentioned hB hi hb hsite hn hs
      have he := hB.binding
      rw [hb] at he
      cases he
      rw [hname] at hi ⊢
      refine h.lookup_moved hB hl hi ?_
      rw [← hs, hB.site_eq hsite]
      exact Graph.Sound.isWithin_self _
  · exact h.lookup_kept hi hl

theorem handleBinding_eq (g : Graph) (f : ScopeId) :
    Scoping.handleBinding g f = g.outlines[f]?.bind fun o =>
      (o.callable.bind (·.handle)).bind fun name =>
        o.parent.bind fun outer => g.lookup name.text outer := by
  rw [Graph.outline_eq, Option.bind_map]
  rfl

/-- A function has the same handle on both sides. -/
theorem handleBinding_some (h : Twins key kw ids d d') {f : ScopeId} (hf : d.Handled f)
    {i : BindingId} (hi : Scoping.handleBinding d.graph f = some i) :
    ∃ j, ids[i]? = some j ∧ Scoping.handleBinding d'.graph f = some j := by
  rw [handleBinding_eq] at hi ⊢
  rw [h.frame.outlines]
  obtain ⟨o, ho, hi⟩ := Option.bind_eq_some_iff.mp hi
  obtain ⟨name, hn, hi⟩ := Option.bind_eq_some_iff.mp hi
  obtain ⟨outer, hp, hi⟩ := Option.bind_eq_some_iff.mp hi
  have hm := hf name.text outer ⟨o, ho, hp, by rw [hn]; rfl⟩
  obtain ⟨j, hj, hl⟩ := h.lookup_mentioned hm hi
  exact ⟨j, hj, by rw [ho, Option.bind_some, hn, Option.bind_some, hp, Option.bind_some, hl]⟩

theorem handleBinding_none (h : Twins key kw ids d d') {f : ScopeId}
    (hi : Scoping.handleBinding d.graph f = none) : Scoping.handleBinding d'.graph f = none := by
  rw [handleBinding_eq] at hi ⊢
  rw [h.frame.outlines]
  cases ho : d.graph.outlines[f]? with
  | none => rfl
  | some o =>
    cases hn : o.callable.bind (·.handle) with
    | none => rw [Option.bind_some, hn]; rfl
    | some name =>
      cases hp : o.parent with
      | none => rw [Option.bind_some, hn, Option.bind_some, hp]; rfl
      | some outer =>
        rw [ho, Option.bind_some, hn, Option.bind_some, hp, Option.bind_some] at hi
        rw [Option.bind_some, hn, Option.bind_some, hp, Option.bind_some]
        exact h.lookup_none hi

/-- Where a function comes into being, told by the scopes without their names. -/
def creationIn (outlines : List Scope) (f : ScopeId) : Int :=
  match outlines[f]? with
  | none => 0
  | some s =>
    match s.callable, s.parent.bind (outlines[·]?) with
    | some ⟨.declaration, _, _⟩, some outer => outer.span.left
    | _, _ => s.span.left

theorem creation_eq_creationIn (g : Graph) (f : ScopeId) :
    Scoping.creation g f = creationIn g.outlines f := by
  unfold Scoping.creation creationIn
  rw [Graph.outline_eq]
  cases g.scope? f with
  | none => rfl
  | some s =>
    have hp : s.parent.bind (g.outlines[·]?) = (s.parent.bind g.scope?).map Scope.outline := by
      cases s.parent with
      | none => rfl
      | some up => exact g.outline_eq up
    simp only [Option.map_some, Scope.outline, hp]
    rcases s.callable with _ | ⟨_ | _, _, _⟩ <;> cases s.parent.bind g.scope? <;> rfl

/-- A function comes into being at the same place. -/
theorem creation_eq {g g' : Graph} (ho : g'.outlines = g.outlines) (f : ScopeId) :
    Scoping.creation g' f = Scoping.creation g f := by
  rw [creation_eq_creationIn, creation_eq_creationIn, ho]

/-! ### Moments -/

/-- The search follows no binding twice, so it follows fewer than there are. -/
theorem length_lt_of_not_mem {visiting : List BindingId} {n : Nat} {i : BindingId}
    (hn : visiting.Nodup) (hv : ∀ x ∈ visiting, x < n) (hi : i < n) (hni : i ∉ visiting) :
    visiting.length < n := by
  have hsub : i :: visiting ⊆ List.range n := by
    intro x hx
    rcases List.mem_cons.mp hx with rfl | hx
    · exact List.mem_range.mpr hi
    · exact List.mem_range.mpr (hv x hx)
  have := (List.subperm_of_subset (List.nodup_cons.mpr ⟨hni, hn⟩) hsub).length_le
  rwa [List.length_range] at this

/-- The counterparts of some bindings. -/
def images (ids : List BindingId) (is : List BindingId) : List BindingId :=
  is.map fun i => ids.getD i 0

theorem images_cons {i j : BindingId} (hij : ids[i]? = some j) (is : List BindingId) :
    images ids (i :: is) = j :: images ids is := by
  unfold images
  rw [List.map_cons, List.getD_eq_getElem?_getD, hij, Option.getD_some]

theorem mem_images (h : Twins key kw ids d d') {is : List BindingId}
    (hv : ∀ x ∈ is, x < ids.length) {i j : BindingId} (hij : ids[i]? = some j) :
    j ∈ images ids is ↔ i ∈ is := by
  unfold images
  rw [List.mem_map]
  constructor
  · rintro ⟨x, hx, he⟩
    rw [List.getD_eq_getElem?_getD, List.getElem?_eq_getElem (hv x hx), Option.getD_some] at he
    have hxj : ids[x]? = some j := by rw [List.getElem?_eq_getElem (hv x hx), he]
    rw [eq_of_increasing h.names.increasing hij hxj]
    exact hx
  · intro hi
    refine ⟨i, hi, ?_⟩
    rw [List.getD_eq_getElem?_getD, hij, Option.getD_some]

theorem reads_eq (h : Twins key kw ids d d') {i j : BindingId} (hij : ids[i]? = some j) :
    (d'.finish.table.bindings[j]?.map (·.reads)).getD [] =
      (d.finish.table.bindings[i]?.map (·.reads)).getD [] := by
  have hp := h.preserved
  have hi : i < d.finish.table.bindings.length := by
    rw [← hp.length]
    exact (List.getElem?_eq_some_iff.mp hij).1
  have hb := List.getElem?_eq_getElem hi
  obtain ⟨b', hb', _, hrefs, _⟩ := hp.counterpart hij hb
  rw [hb, hb', Option.map_some, Option.map_some, Option.getD_some, Option.getD_some]
  unfold Binding.reads
  rw [hrefs]

/-- A place in a function or in the code of its region is reached at the same moment. -/
theorem effectivePosition_eq (h : Twins key kw ids d d') (hh : ∀ f, d.Handled f)
    (region : ScopeId) (ready : Int) (fuel fuel' : Nat) (visiting : List BindingId)
    (scope : ScopeId) (offset : Int) (hf : ids.length ≤ fuel + visiting.length)
    (hf' : ids.length ≤ fuel' + visiting.length) (hn : visiting.Nodup)
    (hv : ∀ x ∈ visiting, x < ids.length) :
    d'.finish.effectivePosition region ready fuel' (images ids visiting) scope offset =
      d.finish.effectivePosition region ready fuel visiting scope offset := by
  have ho : d'.finish.graph.outlines = d.finish.graph.outlines := h.preserved.arena
  induction fuel using Nat.strongRecOn generalizing fuel' visiting scope offset with
  | ind fuel ih =>
    unfold Scoping.effectivePosition
    rw [Graph.functionsBetween_of_outlines ho]
    cases (d.finish.graph.functionsBetween scope region).getLast? with
    | none => rfl
    | some f =>
      simp only
      rw [creation_eq ho]
      split
      · rfl
      rw [finish_graph, finish_graph]
      cases hi : Scoping.handleBinding d.graph f with
      | none => rw [h.handleBinding_none hi]
      | some i =>
        obtain ⟨j, hij, hj⟩ := h.handleBinding_some (hh f) hi
        rw [hj]
        simp only
        by_cases hmem : i ∈ visiting
        · rw [if_pos (List.contains_iff_mem.mpr hmem),
            if_pos (List.contains_iff_mem.mpr ((h.mem_images hv hij).mpr hmem))]
        · rw [if_neg fun hc => hmem (List.contains_iff_mem.mp hc),
            if_neg fun hc => hmem ((h.mem_images hv hij).mp (List.contains_iff_mem.mp hc))]
          have hlt : i < ids.length := (List.getElem?_eq_some_iff.mp hij).1
          have hlen := length_lt_of_not_mem hn hv hlt hmem
          cases fuel with
          | zero => exact absurd hlen (by omega)
          | succ fuel =>
            cases fuel' with
            | zero => exact absurd hlen (by omega)
            | succ fuel' =>
              simp only
              rw [h.reads_eq hij, Graph.isWithin_of_outlines h.frame.outlines]
              refine List.foldl_ext _ _ _ fun m r _ => ?_
              rw [← images_cons hij, ih fuel (Nat.lt_succ_self _)]
              · rw [List.length_cons]; omega
              · rw [List.length_cons]; omega
              · exact List.nodup_cons.mpr ⟨hmem, hn⟩
              · exact List.forall_mem_cons.mpr ⟨hlt, hv⟩

theorem length_le (h : Twins key kw ids d d') :
    ids.length ≤ d'.finish.table.bindings.length := by
  have hn : ids.Nodup := h.names.increasing.imp fun hlt => Nat.ne_of_lt hlt
  have hsub : ids ⊆ List.range d'.table.bindings.length := fun j hj =>
    List.mem_range.mpr (h.names.bound j hj)
  have := (List.subperm_of_subset hn hsub).length_le
  rwa [List.length_range, ← finish_length] at this

/-- What is too early for a declaration is so on both sides. -/
theorem isTooEarly_eq (h : Twins key kw ids d d') (hh : ∀ f, d.Handled f) {b b' : Binding}
    (hscope : b'.first.scope = b.first.scope) (hready : b'.first.ready = b.first.ready)
    (hname : b'.first.name = b.first.name) (r : Reference) :
    d'.finish.isTooEarly b' r = d.finish.isTooEarly b r := by
  have hlen : ids.length = d.finish.table.bindings.length := h.preserved.length
  have hmoment : d'.finish.momentOf b' r = d.finish.momentOf b r := by
    unfold Scoping.momentOf
    rw [hscope, hready]
    exact h.effectivePosition_eq hh _ _ _ _ [] _ _ (Nat.le_of_eq hlen) h.length_le List.nodup_nil
      fun _ hx => absurd hx List.not_mem_nil
  rw [Scoping.isTooEarly_eq, Scoping.isTooEarly_eq, hmoment, hscope, hready, hname,
    h.preserved.arena]

end Draft.Twins

end ScopeLowering
