import ScopeLowering.Proofs.Lowering
import ScopeLowering.Proofs.ScopeTree

/-!
# Captures

A reference captures its binding if the function around the reference is not the one around the
scope of the binding. Each such reference has one edge, no other reference has any, and the closure
of the edge is the outermost function on the way from the reference to the scope (`edges_exact`).

## The model

Edges are found by listing the function scopes on the way up. That this agrees with the nearest
functions of the two ends rests on one fact about the scopes of a script: a scope inside another is
its own nearest function just if a function opens it (`Graph.Levelled`). It holds because the
script's own scope is the only one of its kind, so that climbing out of a scope never passes a
function level that is not a function's.
-/

namespace ScopeLowering

namespace Graph

/-! ### Function levels -/

/-- A scope inside another is its own nearest function just if a function opens it. -/
def Levelled (g : Graph) : Prop :=
  ∀ {id up : ScopeId}, g.parent? id = some up →
    (g.nearestFunction id = id ↔ g.kind? id = some .function)

variable {g : Graph}

/-- It is enough that no scope inside another is a whole script. -/
theorem Sound.levelled (hg : g.Sound)
    (h : ∀ {id up}, g.parent? id = some up → g.kind? id ≠ some .program) : g.Levelled := by
  intro id up hp
  have hrule := hg.level_rule (parent?_lt_size hp)
  have hkind := h hp
  unfold isLevel at hrule
  split at hrule
  · rename_i hlevel
    refine iff_of_true hrule ?_
    cases hk : g.kind? id with
    | none => rw [hk] at hlevel; cases hlevel
    | some kind => cases kind <;> simp_all [ScopeKind.isFunctionLevel]
  · -- the nearest function of a scope that is no function level is an earlier one
    rename_i hlevel
    obtain ⟨up', hup, hf⟩ := hrule
    refine iff_of_false (fun he => ?_) fun hk => hlevel (by rw [hk]; rfl)
    exact absurd (he ▸ hf ▸ hg.nearestFunction_le up') (Nat.not_le_of_lt (hg.parent_lt hup))

end Graph

/-- The function levels of a script are its functions and the script itself. -/
theorem Draft.levelled_ofScript {script : Node} {d : Draft}
    (h : Draft.steps {} (Event.ofScript script) = .ok d) : d.graph.Levelled :=
  (sound_ofScript h).graph.levelled fun hp => (fits_ofScript h hp).kind

/-! ### The outermost function on the way -/

namespace Graph

/-- A function stands around `inner` and inside of `home`, and what is around the function belongs
to the function that `home` belongs to. -/
structure IsOutermost (g : Graph) (inner home closure : ScopeId) : Prop where
  kind : g.kind? closure = some .function
  inner : g.isWithin inner closure = true
  outer : g.isWithin closure home = true
  ne : closure ≠ home
  parent : ∃ up, g.parent? closure = some up ∧ g.nearestFunction up = g.nearestFunction home

variable {g : Graph}

theorem functionsBetween_self (i : ScopeId) : g.functionsBetween i i = [] := by
  rw [functionsBetween, Sound.path_self, List.filter_nil]

theorem functionsBetween_up (hg : g.Sound) {i up stop : Nat} (h : g.parent? i = some up)
    (hi : i ≠ stop) : g.functionsBetween i stop =
      (if g.kind? i = some .function then [i] else []) ++ g.functionsBetween up stop := by
  rw [functionsBetween, hg.path_up h hi, List.filter_cons, functionsBetween]
  by_cases hk : g.kind? i = some .function <;> simp [hk]

/-- No function is between just if the two ends belong to the same function. -/
theorem functionsBetween_eq_nil_iff (hg : g.Sound) (hl : g.Levelled) {i stop : Nat}
    (hw : g.isWithin i stop = true) :
    g.functionsBetween i stop = [] ↔ g.nearestFunction i = g.nearestFunction stop := by
  induction i using hg.induction with
  | root i hp =>
    rw [(Sound.isWithin_root hp).mp hw, functionsBetween_self]
    exact iff_of_true rfl rfl
  | up i up hp ih =>
    by_cases hi : i = stop
    · rw [hi, functionsBetween_self]
      exact iff_of_true rfl rfl
    have hup := ((hg.isWithin_up hp).mp hw).resolve_left (Ne.symm hi)
    rw [functionsBetween_up hg hp hi, List.append_eq_nil_iff, ih hup]
    by_cases hk : g.kind? i = some .function
    · have hlt : stop < i := Nat.lt_of_le_of_lt (hg.isWithin_le hup) (hg.parent_lt hp)
      rw [if_pos hk, (hl hp).mpr hk]
      refine iff_of_false (fun h => List.cons_ne_nil _ _ h.1) fun h => ?_
      exact absurd (h ▸ hg.nearestFunction_le stop) (Nat.not_le_of_lt hlt)
    · have hnear : g.nearestFunction i = g.nearestFunction up := by
        rcases hg.function_rule (parent?_lt_size hp) with h | ⟨up', hp', h⟩
        · exact absurd ((hl hp).mp h) hk
        · rw [hp] at hp'
          cases hp'
          exact h
      rw [if_neg hk, hnear, eq_self_iff_true, true_and]

theorem not_isOutermost_self (hg : g.Sound) {i c : Nat} : ¬ g.IsOutermost i i c :=
  fun h => h.ne (hg.isWithin_antisymm h.outer h.inner)

theorem isOutermost_up (hg : g.Sound) {i up home c : Nat} (hp : g.parent? i = some up)
    (hw : g.isWithin up home = true) :
    g.IsOutermost i home c ↔ g.IsOutermost up home c ∨
      c = i ∧ g.kind? i = some .function ∧ g.nearestFunction up = g.nearestFunction home := by
  constructor
  · intro h
    rcases (hg.isWithin_up hp).mp h.inner with rfl | hup
    · obtain ⟨up', hp', hn⟩ := h.parent
      rw [hp] at hp'
      cases hp'
      exact .inr ⟨rfl, h.kind, hn⟩
    · exact .inl { h with inner := hup }
  · rintro (h | ⟨rfl, hk, hn⟩)
    · exact { h with inner := (hg.isWithin_up hp).mpr (.inr h.inner) }
    · have hlt : home < c := Nat.lt_of_le_of_lt (hg.isWithin_le hw) (hg.parent_lt hp)
      have hout := (hg.isWithin_up hp).mpr (.inr hw)
      exact ⟨hk, Sound.isWithin_self c, hout, Nat.ne_of_gt hlt, up, hp, hn⟩

/-- The last function on the way is the only one that stands in the function of the scope where the
way ends. -/
theorem getLast?_functionsBetween (hg : g.Sound) (hl : g.Levelled) {i home : Nat}
    (hw : g.isWithin i home = true) (c : Nat) :
    (g.functionsBetween i home).getLast? = some c ↔ g.IsOutermost i home c := by
  induction i using hg.induction with
  | root i hp =>
    rw [← (Sound.isWithin_root hp).mp hw, functionsBetween_self]
    exact iff_of_false (fun h => by cases h) (not_isOutermost_self hg)
  | up i up hp ih =>
    by_cases hi : i = home
    · rw [hi, functionsBetween_self]
      exact iff_of_false (fun h => by cases h) (not_isOutermost_self hg)
    have hup := ((hg.isWithin_up hp).mp hw).resolve_left (Ne.symm hi)
    have hnil := functionsBetween_eq_nil_iff hg hl hup
    rw [functionsBetween_up hg hp hi, isOutermost_up hg hp hup, ← ih hup, ← hnil,
      List.getLast?_append]
    -- a function further out wins over this one
    cases hlast : (g.functionsBetween up home).getLast? with
    | some c' =>
      have hne : g.functionsBetween up home ≠ [] := fun h => by rw [h] at hlast; cases hlast
      simp [hne]
    | none =>
      rw [List.getLast?_eq_none_iff.mp hlast]
      by_cases hk : g.kind? i = some .function <;> simp [hk, eq_comm]

end Graph

/-! ### Edges -/

namespace Scoping

variable {s : Scoping}

/-- What a reference that captures a binding leaves behind. -/
structure IsEdge (s : Scoping) (id : BindingId) (b : Binding) (r : Reference) (e : CaptureEdge) :
    Prop where
  binding : e.binding = id
  closure : ∀ c, e.closure = c ↔ s.graph.IsOutermost r.scope b.scope c
  kind : e.kind = if r.isWrite then .write else .read

/-- Does the reference belong to another function than the binding? -/
def captures (s : Scoping) (b : Binding) (r : Reference) : Bool :=
  s.graph.nearestFunction r.scope != s.graph.nearestFunction b.scope

/-- A binding is around its references. -/
theorem isWithin_of_mem_references {d : Draft} (hd : d.Sound) {id : BindingId} {b : Binding}
    (hb : d.finish.table.bindings[id]? = some b) {r : Reference} (hr : r ∈ b.references) :
    d.graph.isWithin r.scope b.scope = true := by
  obtain ⟨b₀, hazards, hb₀, rfl, _⟩ := Draft.binding_of_finish hb
  rw [Draft.mem_inOrder, (hd.bare hb₀).1, List.nil_append, Draft.usesOf, List.mem_filter] at hr
  obtain ⟨t, hw, hh⟩ := hd.graph.exists_here_of_lookup (eq_of_beq hr.2)
  obtain ⟨b₁, hb₁, _, ht⟩ := hd.held hh
  rw [hb₀] at hb₁
  cases hb₁
  rwa [ht]

/-- The edge of a reference. -/
def edge? (s : Scoping) (id : BindingId) (b : Binding) (r : Reference) : Option CaptureEdge :=
  (s.graph.functionsBetween r.scope b.scope).getLast?.map fun closure =>
    ⟨id, closure, if r.isWrite then .write else .read⟩

theorem edgesOf_eq {id : BindingId} {b : Binding} (hb : s.table.bindings[id]? = some b) :
    s.edgesOf id = b.references.filterMap (s.edge? id b) := by
  rw [edgesOf, hb]
  rfl

theorem binding_of_mem_edgesOf {id : BindingId} {e : CaptureEdge} (he : e ∈ s.edgesOf id) :
    e.binding = id ∧ ∃ b, s.table.bindings[id]? = some b := by
  cases hb : s.table.bindings[id]? with
  | none => rw [edgesOf, hb] at he; cases he
  | some b =>
    rw [edgesOf_eq hb] at he
    obtain ⟨r, _, hr⟩ := List.mem_filterMap.mp he
    obtain ⟨c, _, rfl⟩ := Option.map_eq_some_iff.mp hr
    exact ⟨rfl, b, rfl⟩

/-- A reference has an edge just if it captures its binding. -/
theorem edge?_cases (hg : s.graph.Sound) (hl : s.graph.Levelled) (id : BindingId) {b : Binding}
    {r : Reference} (hw : s.graph.isWithin r.scope b.scope = true) :
    (s.captures b r = false ∧ s.edge? id b r = none) ∨
      s.captures b r = true ∧ ∃ e, s.edge? id b r = some e ∧ s.IsEdge id b r e := by
  have hnil := Graph.functionsBetween_eq_nil_iff hg hl hw
  have hlast := Graph.getLast?_functionsBetween hg hl hw
  unfold edge? captures
  cases hc : (s.graph.functionsBetween r.scope b.scope).getLast? with
  | none =>
    rw [List.getLast?_eq_none_iff, hnil] at hc
    exact .inl ⟨by rw [hc, bne_self_eq_false], rfl⟩
  | some c =>
    refine .inr ⟨?_, _, rfl, rfl, fun c' => ?_, rfl⟩
    · rw [bne_iff_ne, Ne, ← hnil]
      intro h
      rw [h] at hc
      cases hc
    · rw [← hlast c', hc, Option.some_inj]

/-- The edges of some references are those of the ones that capture, in their order. -/
theorem forall₂_edges (hg : s.graph.Sound) (hl : s.graph.Levelled) (id : BindingId) {b : Binding}
    {rs : List Reference} (hw : ∀ r ∈ rs, s.graph.isWithin r.scope b.scope = true) :
    List.Forall₂ (s.IsEdge id b) (rs.filter (s.captures b)) (rs.filterMap (s.edge? id b)) := by
  induction rs with
  | nil => exact .nil
  | cons r rs ih =>
    have hrest := ih fun r hr => hw r (List.mem_cons_of_mem _ hr)
    rcases edge?_cases hg hl id (hw r List.mem_cons_self) with ⟨hc, he⟩ | ⟨hc, e, he, hedge⟩
    · rwa [List.filter_cons_of_neg (by rw [hc]; decide), List.filterMap_cons_none he]
    · rw [List.filter_cons_of_pos hc, List.filterMap_cons_some he]
      exact .cons hedge hrest

/-- The edges of one binding, among those of the first so many. -/
theorem filter_edges (s : Scoping) (id n : Nat) :
    ((List.range n).flatMap s.edgesOf).filter (·.binding == id) =
      if id < n then s.edgesOf id else [] := by
  induction n with
  | zero => rfl
  | succ n ih =>
    rw [List.range_succ, List.flatMap_append, List.filter_append, ih, List.flatMap_singleton]
    by_cases hn : n = id
    · subst hn
      rw [if_neg (Nat.lt_irrefl n), if_pos (Nat.lt_succ_self n), List.nil_append,
        List.filter_eq_self]
      exact fun e he => beq_iff_eq.mpr (binding_of_mem_edgesOf he).1
    · have hnone : (s.edgesOf n).filter (·.binding == id) = [] := by
        rw [List.filter_eq_nil_iff]
        intro e he heq
        exact hn ((binding_of_mem_edgesOf he).1.symm.trans (beq_iff_eq.mp heq))
      have hlt : id < n + 1 ↔ id < n := by omega
      rw [hnone, List.append_nil]
      simp only [hlt]

/-- Hazards make no difference to the edges. -/
theorem edges_withCaptures (s : Scoping) : s.withCaptures.edges = s.edges := by
  have hlen : s.withCaptures.table.ids = s.table.ids := by
    simp [Table.ids, withCaptures, Table.numbered]
  have hof : s.withCaptures.edgesOf = s.edgesOf := by
    funext id
    unfold edgesOf
    rw [withCaptures_binding]
    cases s.table.bindings[id]? with
    | none => rfl
    | some b =>
      obtain ⟨hazards, loop, he, _⟩ := s.inspect_spec id b
      rw [Option.map_some, he]
      rfl
  rw [edges, edges, hlen, hof]

end Scoping

/-- Exactly the references that belong to another function than their binding have an edge, one
each and in their order, to the outermost function on the way. -/
theorem edges_exact {script : Node} {s : Scoping} (h : Scoping.ofScript script = .ok s) :
    (∀ id b, s.table.bindings[id]? = some b →
      List.Forall₂ (s.IsEdge id b) (b.references.filter (s.captures b))
        (s.edges.filter (·.binding == id))) ∧
    (∀ e ∈ s.edges, ∃ b, s.table.bindings[e.binding]? = some b) ∧
    s.withCaptures.edges = s.edges ∧
    ∀ o a, Analysis.ofScript script o = .ok a → a.edges = s.edges := by
  refine ⟨fun id b hb => ?_, fun e he => ?_, s.edges_withCaptures, fun o a ha => ?_⟩
  · have hid : id < s.table.bindings.length := (List.getElem?_eq_some_iff.mp hb).1
    obtain ⟨d, hd, rfl⟩ := Scoping.ofScript_ok h
    have hsound := Draft.sound_ofScript hd
    have hgraph := d.finish_graph
    unfold Scoping.edges Table.ids
    rw [Scoping.filter_edges, if_pos hid, Scoping.edgesOf_eq hb]
    refine Scoping.forall₂_edges ?_ ?_ id fun r hr => ?_
    · rw [hgraph]; exact hsound.graph
    · rw [hgraph]; exact Draft.levelled_ofScript hd
    · rw [hgraph]; exact Scoping.isWithin_of_mem_references hsound hb hr
  · obtain ⟨id, _, he⟩ := List.mem_flatMap.mp he
    obtain ⟨rfl, hb⟩ := Scoping.binding_of_mem_edgesOf he
    exact hb
  · rw [← s.edges_withCaptures]
    unfold Analysis.ofScript at ha
    simp only [h] at ha
    split at ha <;> cases ha
    rfl

/-- `var x; (() => () => { x = 1; });`: the write is two functions deep. -/
def layeredScript : Node :=
  let write : Node :=
    .assign (.str "=") (.lookup ⟨"x", .of 22 23⟩) (.literal (.json (.int 1)) (.of 26 27))
      (.of 22 27)
  let inner : Node := .function .expression none [] [.exprStmt write (.of 22 28)] true (.of 14 30)
  .program [.varDecl .varWord [.declarator ⟨"x", .of 4 5⟩ .absent (.of 4 5)] (.of 0 6),
    .exprStmt (.function .expression none [] [.returnStmt inner (.of 14 30)] true (.of 8 30))
      (.of 7 32)] (.of 0 32)

theorem edges_exact_layeredScript :
    ∃ s b, Scoping.ofScript layeredScript = .ok s ∧ s.table.bindings[0]? = some b ∧
      s.edges = [⟨0, 1, .write⟩] ∧ (b.references.filter (s.captures b)).length = 1 ∧
      List.Forall₂ (s.IsEdge 0 b) (b.references.filter (s.captures b))
        (s.edges.filter (·.binding == 0)) := by
  obtain ⟨s, hs, hfacts⟩ := exists_ok_of_any
    (show (Scoping.ofScript layeredScript).toOption.any (fun s =>
        decide (s.edges = [⟨0, 1, .write⟩]) && s.table.bindings[0]?.any fun b =>
          (b.references.filter (s.captures b)).length == 1) = true by decide +kernel)
  rw [Bool.and_eq_true, Option.any_eq_true_iff_get] at hfacts
  obtain ⟨hedges, hb, hfacts⟩ := hfacts
  have hb := (Option.some_get hb).symm
  exact ⟨s, _, hs, hb, of_decide_eq_true hedges, eq_of_beq hfacts, (edges_exact hs).1 0 _ hb⟩

end ScopeLowering
