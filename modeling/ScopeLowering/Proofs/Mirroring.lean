import ScopeLowering.Proofs.Lowering
import ScopeLowering.Proofs.Nesting

/-!
# Two drafts side by side

The events of a script and those of the rewritten script are gone through in step. At each point the
two drafts go together (`Names`): the scopes are the same but for the names they hold, every binding
has a counterpart, and a lowered one stands in the block of its declaration.

## The model

The second draft may have more bindings. Where a function expression and a `var` of its body share a
name, the `var` hides the function's own name, which is then not declared. If the `var` is lowered
into a block further in, the own name is declared after all. So the counterparts are a list of
numbers: the `i`-th is the number that binding `i` has in the second draft.

The lowered bindings are given from the start, as those of the finished analysis. Hence the facts
about them, `Lowering`, speak of the last draft of the first script, and reach the drafts on the way
because drafts only grow.
-/

namespace ScopeLowering

/-- The declaration under another keyword. -/
def Site.withKeyword (s : Site) (k : Keyword) : Site :=
  { s with statement := s.statement.map (·.withKeyword k) }

/-- The binding as a declaration for its block. -/
def Binding.lowerTo (b : Binding) (k : Keyword) : Binding :=
  { b with
    kind := .declared k
    scope := b.first.scope
    first := b.first.withKeyword k }

namespace Draft

/-! ### Names -/

/-- The bindings of the second draft are those of the first, the lowered ones moved, and own names
of function expressions that a lowered binding hides no longer. -/
structure Names (kw : BindingId → Keyword) (ids : List BindingId) (d d' : Draft) : Prop where
  length : ids.length = d.table.bindings.length
  increasing : ids.Pairwise (· < ·)
  bound : ∀ j ∈ ids, j < d'.table.bindings.length
  kept : ∀ {i b}, d.binding? i = some b → ¬ IsLowered kw i →
    ∃ j, ids[i]? = some j ∧ d'.binding? j = some b
  moved : ∀ {i b}, d.binding? i = some b → IsLowered kw i →
    ∃ j, ids[i]? = some j ∧ d'.binding? j = some (b.lowerTo (kw i)) ∧
      d'.graph.here? b.name b.first.scope = some j
  hereKept : ∀ {name s i}, d.graph.here? name s = some i → ¬ IsLowered kw i →
    ∃ j, ids[i]? = some j ∧ d'.graph.here? name s = some j
  hereOf : ∀ {name s j}, d'.graph.here? name s = some j →
    (∃ i, ids[i]? = some j ∧ ¬ IsLowered kw i ∧ d.graph.here? name s = some i) ∨
    (∃ i b, ids[i]? = some j ∧ IsLowered kw i ∧ d.binding? i = some b ∧ b.name = name ∧
      b.first.scope = s) ∨
    (j ∉ ids ∧ ∃ i, IsLowered kw i ∧ d.graph.here? name s = some i)
  extra : ∀ {j b'}, d'.binding? j = some b' → j ∉ ids → b'.kind = .callee ∧ b'.hazards = []

section Lists

variable {ids : List BindingId} {x i j : BindingId}

theorem getElem?_snoc_old (h : ids[i]? = some j) : (ids ++ [x])[i]? = some j := by
  rw [List.getElem?_append_left (List.getElem?_eq_some_iff.mp h).1, h]

theorem getElem?_snoc_new (h : i = ids.length) : (ids ++ [x])[i]? = some x := by
  rw [h, List.getElem?_concat_length]

theorem increasing_snoc (h : ids.Pairwise (· < ·)) (hx : ∀ j ∈ ids, j < x) :
    (ids ++ [x]).Pairwise (· < ·) := by
  rw [List.pairwise_append]
  refine ⟨h, List.pairwise_singleton _ _, fun a ha b hb => ?_⟩
  rw [List.mem_singleton.mp hb]
  exact hx a ha

theorem eq_of_increasing (h : ids.Pairwise (· < ·)) {i' : BindingId} (hi : ids[i]? = some j)
    (hi' : ids[i']? = some j) : i = i' := by
  have hn : ids.Nodup := h.imp fun hlt => Nat.ne_of_lt hlt
  exact (List.getElem?_inj (List.getElem?_eq_some_iff.mp hi).1 hn).mp (hi.trans hi'.symm)

end Lists

namespace Names

variable {kw : BindingId → Keyword} {ids : List BindingId} {d d' : Draft}

/-- Nothing that names depend on changes. -/
theorem congr (h : Names kw ids d d') {e e' : Draft}
    (hl : e.table.bindings.length = d.table.bindings.length)
    (hb : ∀ i, e.binding? i = d.binding? i)
    (hn : ∀ name s, e.graph.here? name s = d.graph.here? name s)
    (hl' : e'.table.bindings.length = d'.table.bindings.length)
    (hb' : ∀ i, e'.binding? i = d'.binding? i)
    (hn' : ∀ name s, e'.graph.here? name s = d'.graph.here? name s) : Names kw ids e e' := by
  constructor
  case length => rw [hl]; exact h.length
  case increasing => exact h.increasing
  case bound => rw [hl']; exact h.bound
  case kept => intro i b; simp only [hb, hb']; exact h.kept
  case moved => intro i b; simp only [hb, hb', hn']; exact h.moved
  case hereKept => intro name s i; simp only [hn, hn']; exact h.hereKept
  case hereOf => intro name s j; simp only [hn, hn', hb]; exact h.hereOf
  case extra => intro j b'; simp only [hb']; exact h.extra

theorem length_lt (h : Names kw ids d d') {i : BindingId} {b : Binding}
    (hb : d.binding? i = some b) : i < ids.length := by
  rw [h.length]
  exact binding?_lt hb

/-- Every binding has a counterpart. -/
theorem exists_id (h : Names kw ids d d') {i : BindingId} {b : Binding}
    (hb : d.binding? i = some b) : ∃ j, ids[i]? = some j :=
  ⟨_, List.getElem?_eq_getElem (h.length_lt hb)⟩

/-- A new binding on both sides. -/
theorem grow (h : Names kw ids d d') (hd' : d'.Sound) {e e' : Draft} {x x' : Binding}
    (hlen : e.table.bindings.length = d.table.bindings.length + 1)
    (hlen' : e'.table.bindings.length = d'.table.bindings.length + 1)
    (hb : ∀ i, e.binding? i = if i = d.table.bindings.length then some x else d.binding? i)
    (hb' : ∀ i, e'.binding? i = if i = d'.table.bindings.length then some x' else d'.binding? i)
    (hn : ∀ {name s i}, d.graph.here? name s = some i → e.graph.here? name s = some i)
    (hn' : ∀ {name s i}, d'.graph.here? name s = some i → e'.graph.here? name s = some i)
    (hnew : (¬ IsLowered kw d.table.bindings.length ∧ x' = x) ∨
      (IsLowered kw d.table.bindings.length ∧ x' = x.lowerTo (kw d.table.bindings.length) ∧
        e'.graph.here? x.name x.first.scope = some d'.table.bindings.length))
    (hof : ∀ {name s i}, e.graph.here? name s = some i → d.graph.here? name s = some i ∨
      i = d.table.bindings.length ∧ (¬ IsLowered kw d.table.bindings.length →
        e'.graph.here? name s = some d'.table.bindings.length))
    (hof' : ∀ {name s j}, e'.graph.here? name s = some j → d'.graph.here? name s = some j ∨
      j = d'.table.bindings.length ∧
        (¬ IsLowered kw d.table.bindings.length ∧
            e.graph.here? name s = some d.table.bindings.length ∨
          IsLowered kw d.table.bindings.length ∧ x.name = name ∧ x.first.scope = s)) :
    Names kw (ids ++ [d'.table.bindings.length]) e e' := by
  have hold : ∀ {i b}, d.binding? i = some b → e.binding? i = some b := by
    intro i b hi
    rw [hb, if_neg (Nat.ne_of_lt (binding?_lt hi)), hi]
  have hold' : ∀ {i b}, d'.binding? i = some b → e'.binding? i = some b := by
    intro i b hi
    rw [hb', if_neg (Nat.ne_of_lt (binding?_lt hi)), hi]
  have hlast : (ids ++ [d'.table.bindings.length])[d.table.bindings.length]? =
      some d'.table.bindings.length := getElem?_snoc_new h.length.symm
  constructor
  case length => rw [hlen, List.length_append, h.length]; rfl
  case increasing => exact increasing_snoc h.increasing h.bound
  case bound =>
    intro j hj
    rw [hlen']
    rcases List.mem_append.mp hj with hj | hj
    · exact Nat.lt_succ_of_lt (h.bound j hj)
    · rw [List.mem_singleton.mp hj]; exact Nat.lt_succ_self _
  case kept =>
    intro i b hi hl
    rw [hb] at hi
    split at hi
    · rename_i he
      subst he
      cases hi
      rcases hnew with ⟨_, rfl⟩ | ⟨hlow, _⟩
      · exact ⟨_, hlast, by rw [hb', if_pos rfl]⟩
      · exact absurd hlow hl
    · obtain ⟨j, hj, hbj⟩ := h.kept hi hl
      exact ⟨j, getElem?_snoc_old hj, hold' hbj⟩
  case moved =>
    intro i b hi hl
    rw [hb] at hi
    split at hi
    · rename_i he
      subst he
      cases hi
      rcases hnew with ⟨hlow, _⟩ | ⟨_, rfl, hh⟩
      · exact absurd hl hlow
      · exact ⟨_, hlast, by rw [hb', if_pos rfl], hh⟩
    · obtain ⟨j, hj, hbj, hh⟩ := h.moved hi hl
      exact ⟨j, getElem?_snoc_old hj, hold' hbj, hn' hh⟩
  case hereKept =>
    intro name s i hi hl
    rcases hof hi with hi | ⟨rfl, hh⟩
    · obtain ⟨j, hj, hh⟩ := h.hereKept hi hl
      exact ⟨j, getElem?_snoc_old hj, hn' hh⟩
    · exact ⟨_, hlast, hh hl⟩
  case hereOf =>
    intro name s j hj
    rcases hof' hj with hj | ⟨rfl, ⟨hl, hh⟩ | ⟨hl, hrest⟩⟩
    · obtain ⟨bj, hbj, _⟩ := hd'.held hj
      rcases h.hereOf hj with ⟨i, hi, hl, hh⟩ | ⟨i, b, hi, hl, hbi, hrest⟩ | ⟨hnot, i, hl, hh⟩
      · exact .inl ⟨i, getElem?_snoc_old hi, hl, hn hh⟩
      · exact .inr (.inl ⟨i, b, getElem?_snoc_old hi, hl, hold hbi, hrest⟩)
      · refine .inr (.inr ⟨fun hm => ?_, i, hl, hn hh⟩)
        rcases List.mem_append.mp hm with hm | hm
        · exact hnot hm
        · exact absurd (List.mem_singleton.mp hm) (Nat.ne_of_lt (binding?_lt hbj))
    · exact .inl ⟨_, hlast, hl, hh⟩
    · exact .inr (.inl ⟨_, x, hlast, hl, by rw [hb, if_pos rfl], hrest⟩)
  case extra =>
    intro j b' hj hnot
    rw [List.mem_append, not_or, List.mem_singleton] at hnot
    rw [hb', if_neg hnot.2] at hj
    exact h.extra hj hnot.1

theorem length_addBinding (d : Draft) (x : Binding) :
    (d.addBinding x).table.bindings.length = d.table.bindings.length + 1 := List.length_append

/-- A new binding on both sides that no scope holds. -/
theorem add (h : Names kw ids d d') (hd' : d'.Sound) (hlow : ¬ IsLowered kw d.table.bindings.length)
    (x : Binding) :
    Names kw (ids ++ [d'.table.bindings.length]) (d.addBinding x) (d'.addBinding x) :=
  h.grow hd' (length_addBinding d x) (length_addBinding d' x) (binding?_addBinding d x)
    (binding?_addBinding d' x) (fun h => h) (fun h => h) (.inl ⟨hlow, rfl⟩) .inl .inl

theorem attachment_eq (ho : d'.graph.outlines = d.graph.outlines) (hc : d'.current = d.current)
    (kind : BindingKind) : d'.attachment kind = d.attachment kind := by
  unfold attachment
  rw [Graph.nearestFunction_of_outlines ho, hc]

/-- A new binding on both sides, held by the scope that owns it. -/
theorem own (h : Names kw ids d d') (hd : d.Sound) (hd' : d'.Sound)
    (ho : d'.graph.outlines = d.graph.outlines) (hc : d'.current = d.current)
    {kind : BindingKind} {site : Site} (hlow : ¬ IsLowered kw d.table.bindings.length)
    (hn : d.graph.here? site.name.text (d.attachment kind) = none)
    (hn' : d'.graph.here? site.name.text (d.attachment kind) = none) :
    Names kw (ids ++ [d'.table.bindings.length]) (d.own kind site) (d'.own kind site) := by
  have hatt := attachment_eq ho hc kind
  have hnone : d'.graph.here? site.name.text (d'.attachment kind) = none := by rw [hatt, hn']
  have hhere := here?_own (hd.attachment_lt kind) hn
  have hhere' := here?_own (hd'.attachment_lt kind) hnone
  rw [hatt] at hhere'
  refine h.grow hd' (length_addBinding _ _) (length_addBinding _ _) (binding?_own d kind site)
    (binding?_own d' kind site) (grows_own hn).here (grows_own hnone).here (.inl ⟨hlow, ?_⟩) ?_ ?_
  · unfold fresh
    rw [hatt]
  · intro name s i hi
    rw [hhere] at hi
    split at hi
    · rename_i hc
      exact .inr ⟨(Option.some.inj hi).symm, fun _ => by rw [hhere', if_pos hc]⟩
    · exact .inl hi
  · intro name s j hj
    rw [hhere'] at hj
    split at hj
    · rename_i hc
      exact .inr ⟨(Option.some.inj hj).symm, .inl ⟨hlow, by rw [hhere, if_pos hc]⟩⟩
    · exact .inl hj

theorem attachment_of_block {k : Keyword} (hk : k ≠ .varWord) :
    d.attachment (.declared k) = d.current := by
  unfold attachment
  rw [if_neg]
  cases k with
  | varWord => exact absurd rfl hk
  | letWord | constWord => exact Bool.false_ne_true

/-- A lowered `var` is held by its function on one side, and by its block on the other. -/
theorem lower (h : Names kw ids d d') (hd : d.Sound) (hd' : d'.Sound) (hc : d'.current = d.current)
    {site : Site} {k : Keyword} (hk : kw d.table.bindings.length = k) (hs : site.scope = d.current)
    (hlow : IsLowered kw d.table.bindings.length)
    (hn : d.graph.here? site.name.text (d.attachment (.declared .varWord)) = none)
    (hn' : d'.graph.here? site.name.text d.current = none) :
    Names kw (ids ++ [d'.table.bindings.length]) (d.own (.declared .varWord) site)
      (d'.own (.declared k) (site.withKeyword k)) := by
  have hatt : d'.attachment (.declared k) = d.current :=
    (attachment_of_block (hk ▸ hlow)).trans hc
  have hnone : d'.graph.here? (site.withKeyword k).name.text (d'.attachment (.declared k)) =
      none := by
    rw [hatt]
    exact hn'
  have hhere := here?_own (hd.attachment_lt (.declared .varWord)) hn
  have hhere' := here?_own (hd'.attachment_lt (.declared k)) hnone
  rw [hatt] at hhere'
  refine h.grow hd' (length_addBinding _ _) (length_addBinding _ _) (binding?_own d _ site)
    (binding?_own d' _ _) (grows_own hn).here (grows_own hnone).here
    (.inr ⟨hlow, ?_, ?_⟩) ?_ ?_
  · unfold fresh Binding.lowerTo
    rw [hatt, ← hs, hk]
  · show Graph.here? _ site.name.text site.scope = _
    rw [hhere', if_pos ⟨rfl, hs⟩]
  · intro name s i hi
    rw [hhere] at hi
    split at hi
    · exact .inr ⟨(Option.some.inj hi).symm, fun hnot => absurd hlow hnot⟩
    · exact .inl hi
  · intro name s j hj
    rw [hhere'] at hj
    split at hj
    · rename_i hc
      refine .inr ⟨(Option.some.inj hj).symm, .inr ⟨hlow, hc.1.symm, ?_⟩⟩
      exact hs.trans hc.2.symm
    · exact .inl hj

/-- A binding that is not lowered changes on both sides. -/
theorem touch (h : Names kw ids d d') {old old' : BindingId} (hid : ids[old]? = some old')
    (hl : ¬ IsLowered kw old) (f : Binding → Binding) {e e' : Draft}
    (hlen : e.table.bindings.length = d.table.bindings.length)
    (hlen' : e'.table.bindings.length = d'.table.bindings.length)
    (hn : e.graph = d.graph) (hn' : e'.graph = d'.graph)
    (hb : ∀ i, e.binding? i = (d.binding? i).map fun b => if old = i then f b else b)
    (hb' : ∀ i, e'.binding? i = (d'.binding? i).map fun b => if old' = i then f b else b) :
    Names kw ids e e' := by
  have hne : ∀ {i j}, ids[i]? = some j → IsLowered kw i → old' ≠ j := by
    rintro i j hi hlow rfl
    exact hl (eq_of_increasing h.increasing hi hid ▸ hlow)
  have hmoved : ∀ {i b}, e.binding? i = some b → IsLowered kw i → d.binding? i = some b := by
    intro i b he hlow
    rw [hb] at he
    obtain ⟨b₀, hb₀, rfl⟩ := Option.map_eq_some_iff.mp he
    rw [if_neg (by rintro rfl; exact hl hlow), hb₀]
  constructor
  case length => rw [hlen]; exact h.length
  case increasing => exact h.increasing
  case bound => rw [hlen']; exact h.bound
  case kept =>
    intro i b he hlow
    rw [hb] at he
    obtain ⟨b₀, hb₀, rfl⟩ := Option.map_eq_some_iff.mp he
    obtain ⟨j, hj, hb₁⟩ := h.kept hb₀ hlow
    refine ⟨j, hj, ?_⟩
    rw [hb', hb₁, Option.map_some]
    by_cases hi : old = i
    · subst hi
      rw [hid] at hj
      cases hj
      rw [if_pos rfl, if_pos rfl]
    · rw [if_neg hi, if_neg]
      rintro rfl
      exact hi (eq_of_increasing h.increasing hid hj)
  case moved =>
    intro i b he hlow
    obtain ⟨j, hj, hbj, hh⟩ := h.moved (hmoved he hlow) hlow
    refine ⟨j, hj, ?_, hn' ▸ hh⟩
    rw [hb', hbj, Option.map_some, if_neg (hne hj hlow)]
  case hereKept => intro name s i; rw [hn, hn']; exact h.hereKept
  case hereOf =>
    intro name s j hj
    rw [hn'] at hj
    rw [hn]
    rcases h.hereOf hj with hk | ⟨i, b, hi, hlow, hbi, hrest⟩ | hx
    · exact .inl hk
    · refine .inr (.inl ⟨i, b, hi, hlow, ?_, hrest⟩)
      rw [hb, hbi, Option.map_some, if_neg]
      rintro rfl
      exact hl hlow
    · exact .inr (.inr hx)
  case extra =>
    intro j b' he hnot
    rw [hb'] at he
    obtain ⟨b₀, hb₀, rfl⟩ := Option.map_eq_some_iff.mp he
    rw [if_neg]
    · exact h.extra hb₀ hnot
    · rintro rfl
      exact hnot (List.mem_of_getElem? hid)

theorem tag (h : Names kw ids d d') {i j : BindingId} (hid : ids[i]? = some j)
    (hl : ¬ IsLowered kw i) (x : Hazard) : Names kw ids (d.tag i x) (d'.tag j x) :=
  h.touch hid hl (·.addHazard x) (List.length_modify ..) (List.length_modify ..) rfl rfl
    (binding?_tag d i x) (binding?_tag d' j x)

theorem join (h : Names kw ids d d') {i j : BindingId} (hid : ids[i]? = some j)
    (hl : ¬ IsLowered kw i) (site : Site) : Names kw ids (d.join i site) (d'.join j site) := by
  have hlen : ∀ (d : Draft) (i : BindingId),
      (d.join i site).table.bindings.length = d.table.bindings.length := by
    intro d i
    unfold Draft.join
    split
    · exact (List.length_modify ..).trans (List.length_modify ..)
    · exact List.length_modify ..
  exact h.touch hid hl (joined site) (hlen d i) (hlen d' j) (d.graph_join i site)
    (d'.graph_join j site) (binding?_join d i site) (binding?_join d' j site)

/-- The own name of a function expression is declared on one side only. -/
theorem callee (h : Names kw ids d d') (hd' : d'.Sound) {site : Site} {i : BindingId}
    (hlow : IsLowered kw i) (hi : d.graph.here? site.name.text (d'.attachment .callee) = some i)
    (hn' : d'.graph.here? site.name.text (d'.attachment .callee) = none) :
    Names kw ids d (d'.own .callee site) := by
  have hhere' := here?_own (hd'.attachment_lt .callee) hn'
  have hg' := grows_own hn'
  have hold' : ∀ {j b}, d'.binding? j = some b → (d'.own .callee site).binding? j = some b := by
    intro j b hj
    rw [binding?_own, if_neg (Nat.ne_of_lt (binding?_lt hj)), hj]
  constructor
  case length => exact h.length
  case increasing => exact h.increasing
  case bound =>
    intro j hj
    exact Nat.lt_of_lt_of_eq (Nat.lt_succ_of_lt (h.bound j hj)) (length_addBinding _ _).symm
  case kept =>
    intro x b hb hl
    obtain ⟨j, hj, hbj⟩ := h.kept hb hl
    exact ⟨j, hj, hold' hbj⟩
  case moved =>
    intro x b hb hl
    obtain ⟨j, hj, hbj, hh⟩ := h.moved hb hl
    exact ⟨j, hj, hold' hbj, hg'.here hh⟩
  case hereKept =>
    intro name s x hx hl
    obtain ⟨j, hj, hh⟩ := h.hereKept hx hl
    exact ⟨j, hj, hg'.here hh⟩
  case hereOf =>
    intro name s j hj
    rw [hhere'] at hj
    split at hj
    · rename_i hc
      cases hj
      refine .inr (.inr ⟨fun hm => Nat.lt_irrefl _ (h.bound _ hm), i, hlow, ?_⟩)
      rw [hc.1, hc.2, hi]
    · exact h.hereOf hj
  case extra =>
    intro j b' hj hnot
    rw [binding?_own] at hj
    split at hj
    · cases hj; exact ⟨rfl, rfl⟩
    · exact h.extra hj hnot

/-- A name that is claimed twice on one side is claimed twice on the other. -/
theorem clash (h : Names kw ids d d') (hd' : d'.Sound) (ho : d'.graph.outlines = d.graph.outlines)
    (hc : d'.current = d.current) {i j : BindingId} (hid : ids[i]? = some j) (hl : ¬ IsLowered kw i)
    (hlow : ¬ IsLowered kw d.table.bindings.length) (kind : BindingKind) (site : Site) :
    Names kw (ids ++ [d'.table.bindings.length]) (d.clash i kind site) (d'.clash j kind site) := by
  have hlen : ∀ (d : Draft) (i : BindingId),
      (d.tag i .duplicateBlockBinding).table.bindings.length = d.table.bindings.length :=
    fun _ _ => List.length_modify ..
  have hfresh : d'.fresh kind site = d.fresh kind site := by
    unfold fresh
    rw [attachment_eq ho hc]
  have hadd := (h.tag hid hl .duplicateBlockBinding).add (hd'.tag j _) ((hlen d i).symm ▸ hlow)
    (d.fresh kind site)
  rw [hlen] at hadd
  unfold Draft.clash
  rw [hfresh]
  exact hadd.tag (getElem?_snoc_new h.length.symm) hlow _

end Names

/-! ### Lowered bindings on the way -/

namespace Sole

variable {d D : Draft} {i : BindingId} {b B : Binding}

/-- What the binding is on the way, it is in the end. -/
theorem early (h : D.Sole i B) (hg : d.Grows D) (hb : d.binding? i = some b) : b.Grows B := by
  obtain ⟨B', hB', hgb⟩ := hg.binding hb
  rw [h.binding] at hB'
  cases hB'
  exact hgb

theorem untagged (h : D.Sole i B) (hg : d.Grows D) : ¬ d.Tagged i .duplicateBlockBinding := by
  rintro ⟨b, hb, ht⟩
  exact h.unclaimed ((h.early hg hb).hazards ht)

/-- The binding is made by a declaration whose name was free. -/
theorem declare_own {kind : BindingKind} {site : Site} (h : D.Sole (d.declare kind site).2 B)
    (hd : d.Sound) (hg : (d.declare kind site).1.Grows D) :
    d.graph.here? site.name.text (d.attachment kind) = none ∧
      d.declare kind site = (d.own kind site, d.table.bindings.length) ∧
        (d.fresh kind site).Grows B := by
  rcases d.declare_cases kind site with ⟨hn, he⟩ | ⟨old, hold, hrest⟩
  · rw [he] at h hg
    exact ⟨hn, he, h.early hg (by rw [binding?_own, if_pos rfl])⟩
  · obtain ⟨b, hb, _⟩ := hd.held hold
    rcases hrest with ⟨_, _, he⟩ | ⟨_, he⟩ <;> rw [he] at hg h
    · have ho := (h.early (b := joined site b) hg (by
        rw [binding?_join, hb, Option.map_some, if_pos rfl])).others
      rw [h.others, joined_others] at ho
      exact absurd (List.prefix_nil.mp ho)
        (List.append_ne_nil_of_right_ne_nil _ (List.cons_ne_nil _ _))
    · have hnew := d.binding?_clash old kind site d.table.bindings.length
      rw [if_pos rfl] at hnew
      exact absurd ⟨_, hnew, Binding.mem_addHazard.mpr (.inr rfl)⟩ (h.untagged hg)

end Sole

namespace Movable

variable {d D : Draft} {i x : BindingId} {b B : Binding}

/-- Where a movable binding is declared, its name can be held by itself only. -/
theorem eq_of_here (h : D.Movable i B) (hD : D.Sound)
    (hx : D.graph.here? B.name B.first.scope = some x) : x = i := by
  by_cases hs : B.first.scope = B.scope
  · rw [hs, h.here hD] at hx
    exact (Option.some.inj hx).symm
  · rw [h.clear _ (hD.graph.mem_path_self hs)] at hx
    cases hx

/-- Two movable bindings of one name are not declared in the same block. -/
theorem eq_of_home {X : Binding} (h : D.Movable i B) (hx : D.Movable x X) (hD : D.Sound)
    (hname : B.name = X.name) (hscope : B.first.scope = X.first.scope) : i = x := by
  have hs : B.scope = X.scope := by rw [h.scope_eq hD, hx.scope_eq hD, hscope]
  have := h.here hD
  rw [hname, hs, hx.here hD] at this
  exact (Option.some.inj this).symm

/-- What a movable binding is in the end, it is on the way. -/
theorem early (h : D.Movable i B) (hg : d.Grows D) (hb : d.binding? i = some b) : b.Grows B :=
  h.sole.early hg hb

theorem untagged (h : D.Movable i B) (hg : d.Grows D) : ¬ d.Tagged i .duplicateBlockBinding :=
  h.sole.untagged hg

theorem braced_early {site : Site} (h : D.Movable i B) (hg : (d.mark i site).Grows D)
    (hb : d.binding? i = some b) : site.unbraced = false := by
  cases hu : site.unbraced with
  | false => rfl
  | true =>
    unfold Draft.mark at hg
    rw [if_pos hu] at hg
    refine absurd ((h.early (b := b.addHazard .unbracedDeclaration) hg ?_).hazards ?_) h.braced
    · rw [binding?_tag, hb, Option.map_some, if_pos rfl]
    · exact Binding.mem_addHazard.mpr (.inr rfl)

/-- A movable binding is made by a declaration whose name was free. -/
theorem declare_own {kind : BindingKind} {site : Site} (h : D.Movable (d.declare kind site).2 B)
    (hd : d.Sound) (hg : (d.declare kind site).1.Grows D) :
    d.graph.here? site.name.text (d.attachment kind) = none ∧
      d.declare kind site = (d.own kind site, d.table.bindings.length) ∧
        (d.fresh kind site).Grows B := h.sole.declare_own hd hg

end Movable

namespace Names

variable {kw : BindingId → Keyword} {ids : List BindingId} {d d' D : Draft}

/-- A name that is free in a scope stays free there, unless a lowered binding moves in. -/
theorem unheld (h : Names kw ids d d') {name : String} {s : ScopeId}
    (hn : d.graph.here? name s = none)
    (hm : ∀ {i b}, d.binding? i = some b → IsLowered kw i → b.name = name → b.first.scope ≠ s) :
    d'.graph.here? name s = none := by
  cases hj : d'.graph.here? name s with
  | none => rfl
  | some j =>
    rcases h.hereOf hj with ⟨i, _, _, hi⟩ | ⟨i, b, _, hl, hb, hname, hs⟩ | ⟨_, i, _, hi⟩
    · rw [hn] at hi; cases hi
    · exact absurd hs (hm hb hl hname)
    · rw [hn] at hi; cases hi

/-- No lowered binding is declared where a later binding is held. -/
theorem unheld_of_here (h : Names kw ids d d') (hlow : ∀ {i}, IsLowered kw i → ∃ b, D.Movable i b)
    (hD : D.Sound) (hg : d.Grows D) {name : String} {s : ScopeId} {x : BindingId}
    (hn : d.graph.here? name s = none) (hx : D.graph.here? name s = some x)
    (hnew : d.binding? x = none) : d'.graph.here? name s = none := by
  refine h.unheld hn fun {i b} hb hl hname hs => ?_
  obtain ⟨B, hB⟩ := hlow hl
  have hgb := hB.early hg hb
  have hxi : x = i := hB.eq_of_here hD (by rw [hgb.name, hgb.first, hname, hs, hx])
  rw [hxi, hb] at hnew
  cases hnew

/-- No binding has its name where a later lowered one is declared. -/
theorem unheld_of_movable (h : Names kw ids d d')
    (hlow : ∀ {i}, IsLowered kw i → ∃ b, D.Movable i b)
    (hd : d.Sound) (hD : D.Sound) (hg : d.Grows D) {x : BindingId} {X : Binding}
    (hx : D.Movable x X) (hnew : d.binding? x = none) :
    d'.graph.here? X.name X.first.scope = none := by
  refine h.unheld ?_ fun {i b} hb hl hname hs => ?_
  · cases hi : d.graph.here? X.name X.first.scope with
    | none => rfl
    | some i =>
      obtain ⟨b, hb, _⟩ := hd.held hi
      rw [hx.eq_of_here hD (hg.here hi), hnew] at hb
      cases hb
  · obtain ⟨B, hB⟩ := hlow hl
    have hgb := hB.early hg hb
    have hxi : i = x := hB.eq_of_home hx hD (hgb.name.trans hname) (by rw [hgb.first, hs])
    rw [← hxi, hb] at hnew
    cases hnew

/-- In the scope of a function a free name stays free. -/
theorem unheld_of_function (h : Names kw ids d d')
    (hlow : ∀ {i}, IsLowered kw i → ∃ b, D.Movable i b)
    (hd : d.Sound) (hg : d.Grows D) {name : String} {s : ScopeId}
    (hn : d.graph.here? name s = none) (hs : d.graph.nearestFunction s = s) :
    d'.graph.here? name s = none := by
  refine h.unheld hn fun {i b} hb hl hname hhome => ?_
  obtain ⟨B, hB⟩ := hlow hl
  obtain ⟨old, ho, _⟩ := hd.owned hb
  obtain ⟨_, _, hscope⟩ := hd.sites hb b.first List.mem_cons_self
  have hk : b.kind = .declared .varWord := (hB.early hg hb).kind ▸ hB.kind
  have : b.scope = s := by
    rw [hscope, Graph.owner, hk, hhome]
    exact hs
  rw [hname, this, hn] at ho
  cases ho

/-- Bindings that are not lowered are of the same kind on both sides. -/
theorem kindOf_eq (h : Names kw ids d d') {i j : BindingId} {b : Binding}
    (hb : d.binding? i = some b) (hl : ¬ IsLowered kw i) (hid : ids[i]? = some j) :
    d'.kindOf j = d.kindOf i := by
  obtain ⟨j', hj', hbj⟩ := h.kept hb hl
  rw [hid] at hj'
  cases hj'
  unfold kindOf
  rw [hb, hbj]

/-- A declaration that is not lowered does the same on both sides. -/
theorem declare (h : Names kw ids d d')
    (hlow : ∀ {i}, IsLowered kw i → ∃ b, D.Movable i b) (hd : d.Sound)
    (hd' : d'.Sound) (hD : D.Sound) (ho : d'.graph.outlines = d.graph.outlines)
    (hc : d'.current = d.current) {kind : BindingKind} {site : Site}
    (hg : (d.declare kind site).1.Grows D) (hl : ¬ IsLowered kw (d.declare kind site).2) :
    ∃ ids', ids <+: ids' ∧ Names kw ids' (d.declare kind site).1 (d'.declare kind site).1 ∧
      ids'[(d.declare kind site).2]? = some (d'.declare kind site).2 := by
  have hatt := attachment_eq ho hc kind
  have hgd := (d.grows_declare kind site).trans hg
  have hcases' := d'.declare_cases kind site
  rw [hatt] at hcases'
  rcases d.declare_cases kind site with ⟨hn, he⟩ | ⟨old, hold, hrest⟩
  · rw [he] at hg hl ⊢
    have hx : D.graph.here? site.name.text (d.attachment kind) = some d.table.bindings.length :=
      hg.here (by rw [here?_own (hd.attachment_lt kind) hn, if_pos ⟨rfl, rfl⟩])
    have hn' := h.unheld_of_here hlow hD hgd hn hx (List.getElem?_eq_none (Nat.le_refl _))
    rcases hcases' with ⟨_, he'⟩ | ⟨_, hold', _⟩
    · rw [he']
      exact ⟨_, List.prefix_append _ _, h.own hd hd' ho hc hl hn hn',
        getElem?_snoc_new h.length.symm⟩
    · rw [hn'] at hold'; cases hold'
  · obtain ⟨b, hb, _⟩ := hd.held hold
    -- a binding that takes part in a second claim is not lowered
    have hlold : ¬ IsLowered kw old := by
      rcases hrest with ⟨_, _, he⟩ | ⟨_, he⟩ <;> rw [he] at hg hl
      · exact hl
      · intro hlo
        obtain ⟨B, hB⟩ := hlow hlo
        refine hB.untagged hg ⟨b.addHazard .duplicateBlockBinding, ?_, ?_⟩
        · rw [binding?_clash, if_neg (Nat.ne_of_lt (binding?_lt hb)), hb, Option.map_some,
            if_pos rfl]
        · exact Binding.mem_addHazard.mpr (.inr rfl)
    obtain ⟨j, hid, hj⟩ := h.hereKept hold hlold
    have hkind := h.kindOf_eq hb hlold hid
    rcases hcases' with ⟨hn', _⟩ | ⟨j', hj', hrest'⟩
    · rw [hj] at hn'; cases hn'
    · rw [hj] at hj'
      cases hj'
      rw [hkind] at hrest'
      rcases hrest with ⟨hk, ho', he⟩ | ⟨hk, he⟩
      · rcases hrest' with ⟨_, _, he'⟩ | ⟨hk', _⟩
        · rw [he, he']
          exact ⟨ids, List.prefix_refl _, h.join hid hlold site, hid⟩
        · exact absurd ⟨hk, ho'⟩ hk'
      · rcases hrest' with ⟨hk₁, hk₂, _⟩ | ⟨_, he'⟩
        · exact absurd ⟨hk₁, hk₂⟩ hk
        · rw [he] at hl ⊢
          rw [he']
          exact ⟨_, List.prefix_append _ _, h.clash hd' ho hc hid hlold hl kind site,
            getElem?_snoc_new h.length.symm⟩

/-- A lowered declaration is the only one of its binding, and it is moved into its block. -/
theorem declare_lowered (h : Names kw ids d d') (hlow : ∀ {i}, IsLowered kw i → ∃ b, D.Movable i b)
    (hd : d.Sound) (hd' : d'.Sound) (hD : D.Sound) (hc : d'.current = d.current) {site : Site}
    {k : Keyword} (hk : kw (d.declare (.declared .varWord) site).2 = k)
    (hs : site.scope = d.current) (hg : (d.declare (.declared .varWord) site).1.Grows D)
    (hl : IsLowered kw (d.declare (.declared .varWord) site).2) :
    ∃ ids', ids <+: ids' ∧
      Names kw ids' (d.declare (.declared .varWord) site).1
        (d'.declare (.declared k) (site.withKeyword k)).1 := by
  obtain ⟨B, hB⟩ := hlow hl
  obtain ⟨hn, he, hgB⟩ := hB.declare_own hd hg
  rw [he] at hg hl hB hk ⊢
  have hn' := h.unheld_of_movable hlow hd hD ((grows_own hn).trans hg) hB
    (List.getElem?_eq_none (Nat.le_refl _))
  rw [hgB.name, hgB.first] at hn'
  have hnone : d'.graph.here? (site.withKeyword k).name.text d.current = none := hs ▸ hn'
  rcases d'.declare_cases (.declared k) (site.withKeyword k) with ⟨_, he'⟩ | ⟨_, ho', _⟩
  · rw [he']
    exact ⟨_, List.prefix_append _ _, h.lower hd hd' hc hk hs hl hn hnone⟩
  · rw [attachment_of_block (hk ▸ hl), hc, hnone] at ho'
    cases ho'

/-- A declaration without braces is marked on both sides. -/
theorem mark (h : Names kw ids d d') {i j : BindingId} (hid : ids[i]? = some j)
    (hl : ¬ IsLowered kw i) (site : Site) : Names kw ids (d.mark i site) (d'.mark j site) := by
  unfold Draft.mark
  split
  · exact h.tag hid hl _
  · exact h

end Names

end Draft

end ScopeLowering
