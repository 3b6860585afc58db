import ScopeLowering.Proofs.Coherence
import ScopeLowering.Proofs.Filing
import ScopeLowering.Proofs.Reading

/-!
# Rival claims to a name

Two bindings of one name in one scope are both tagged, and so are a `var` and what it hoists past,
in whatever order they are declared (`rivals_tagged`). A statement with a declarator of such a `var`
keeps its keyword.

## The model

The check that looks for names on the way from a `var` to its function goes through the declarators
that have been noted, and in each scope it sees the one binding that holds the name. So two things
have to be known of every draft. Every declarator of a `var` statement is noted, with the binding it
feeds, and this binding is a member of the statement (`Traced`). And a binding that does not hold
its name has been tagged together with the one that does (`Sound.owned`).
-/

namespace ScopeLowering

/-! ### Keywords of declarations -/

namespace Event

/-- Does the event, if it declares a name in a statement, have the statement's keyword? -/
def isKeyed : Event → Bool
  | declare kind _ (some s) .. => kind == .declared s.keyword
  | _ => true

/-- A mark for an event that has another keyword. -/
def unkeyed? (e : Event) : Option Unit := if e.isKeyed then none else some ()

theorem unkeyed?_of_isOrdinary (e : Event) (h : e.isOrdinary = true) : e.unkeyed? = none := by
  cases e with
  | declare _ _ st =>
    cases st with
    | none => rfl
    | some s => exact if_pos h
  | _ => rfl

/-- Names are declared with the keywords of their statements. -/
theorem isKeyed_ofNode (p : Place) (role : Role) (n : Node) :
    ∀ e ∈ ofNode p role n, e.isKeyed = true := by
  have hnone : (n.gather fun s => unkeyed? (openStatement s)) = [] := by
    rw [Node.gather, List.filterMap_eq_nil_iff]
    intro m _
    cases m.statement? <;> rfl
  have hcount := count_picked unkeyed?_of_isOrdinary () n p role
  rw [hnone, List.count_nil, Nat.le_zero, List.count_eq_zero] at hcount
  intro e he
  cases hk : e.isKeyed with
  | true => rfl
  | false =>
    refine absurd (List.mem_filterMap.mpr ⟨e, he, ?_⟩) hcount
    simp [unkeyed?, hk]

end Event

/-! ### Declarators are noted -/

namespace Draft

/-- Where the declarations of a binding come from when a name is declared. -/
theorem declareVariable_sites {d : Draft} {kind : BindingKind} {site : Site} {i : BindingId}
    {b : Binding} (hb : (d.declareVariable kind site).binding? i = some b) {x : Site}
    (hx : x ∈ b.sites) :
    (∃ b₀, d.binding? i = some b₀ ∧ x ∈ b₀.sites) ∨ i = (d.declare kind site).2 ∧ x = site := by
  rw [declareVariable_eq, record_binding?] at hb
  obtain ⟨b₁, hb₁, hx⟩ : ∃ b₁, (d.declare kind site).1.binding? i = some b₁ ∧ x ∈ b₁.sites := by
    unfold mark at hb
    split at hb
    · rw [binding?_tag] at hb
      obtain ⟨b₁, hb₁, rfl⟩ := Option.map_eq_some_iff.mp hb
      refine ⟨b₁, hb₁, ?_⟩
      split at hx
      · rwa [Binding.addHazard_sites] at hx
      · exact hx
    · exact ⟨b, hb, hx⟩
  rcases d.declare_cases kind site with ⟨_, he⟩ | ⟨old, _, ⟨_, _, he⟩ | ⟨_, he⟩⟩ <;>
    rw [he] at hb₁ ⊢
  · rw [binding?_own] at hb₁
    split at hb₁
    · cases hb₁
      exact .inr ⟨‹_›, List.mem_singleton.mp hx⟩
    · exact .inl ⟨b₁, hb₁, hx⟩
  · rw [binding?_join] at hb₁
    obtain ⟨b₀, hb₀, rfl⟩ := Option.map_eq_some_iff.mp hb₁
    split at hx
    · rename_i hi
      rw [Binding.sites, joined_others, (grows_joined site b₀).first, List.mem_cons,
        List.mem_append, ← or_assoc, List.mem_singleton] at hx
      rcases hx with hx | hx
      · exact .inl ⟨b₀, hb₀, List.mem_cons.mpr hx⟩
      · exact .inr ⟨hi.symm, hx⟩
    · exact .inl ⟨b₀, hb₀, hx⟩
  · rw [binding?_clash] at hb₁
    split at hb₁
    · cases hb₁
      rw [Binding.addHazard_sites] at hx
      exact .inr ⟨‹_›, List.mem_singleton.mp hx⟩
    · obtain ⟨b₀, hb₀, rfl⟩ := Option.map_eq_some_iff.mp hb₁
      refine .inl ⟨b₀, hb₀, ?_⟩
      split at hx
      · rwa [Binding.addHazard_sites] at hx
      · exact hx

/-- A declarator of a `var` statement is noted, and its binding is a member of the statement. -/
def IsNoted (d : Draft) (i : BindingId) (site : Site) (st : Statement) : Prop :=
  (i, site) ∈ d.varSites ∧ ∃ e ∈ d.table.statements, e.statement = st ∧ i ∈ e.members

theorem IsNoted.grows {d d' : Draft} {i : BindingId} {site : Site} {st : Statement}
    (h : d.IsNoted i site st) (hg : d.Grows d') : d'.IsNoted i site st := by
  obtain ⟨hv, e, he, hs, hi⟩ := h
  obtain ⟨n, hn⟩ := List.mem_iff_getElem?.mp he
  obtain ⟨e', he', hs', hm⟩ := hg.entry hn
  exact ⟨hg.varSites.subset hv, e', List.mem_of_getElem? he', hs'.trans hs, hm.subset hi⟩

/-- All declarators of `var` statements are noted, up to where a tally has counted. -/
structure Traced (t : Event.Tally) (d : Draft) : Prop where
  filed : Filed t d
  /-- An open statement with a number has the entry with that number. -/
  entry : ∀ o ∈ t.opened, ∀ n, o.number = some n →
    ∃ e, d.table.statements[n]? = some e ∧ e.statement = o.statement
  noted : ∀ {i b site st}, d.binding? i = some b → site ∈ b.sites → site.statement = some st →
    st.keyword = .varWord → d.IsNoted i site st

namespace Traced

variable {t : Event.Tally} {d d' : Draft} {n : Nat} {s : Statement} {k : Keyword}
  {os : List Event.Opened}

theorem declareVariable_noted (h : Traced t d) {kind : BindingKind} {site : Site}
    (hsite : ∀ st, site.statement = some st → st.keyword = .varWord →
      (d.declareVariable kind site).IsNoted (d.declare kind site).2 site st)
    {i : BindingId} {b : Binding} {x : Site} {st : Statement}
    (hb : (d.declareVariable kind site).binding? i = some b) (hx : x ∈ b.sites)
    (hst : x.statement = some st) (hk : st.keyword = .varWord) :
    (d.declareVariable kind site).IsNoted i x st := by
  rcases declareVariable_sites hb hx with ⟨b₀, hb₀, hx₀⟩ | ⟨rfl, rfl⟩
  · exact (h.noted hb₀ hx₀ hst hk).grows (d.grows_declareVariable kind site)
  · exact hsite st hst hk

/-- A step that leaves the open statements alone, and declares no name of a `var` statement. -/
theorem quiet (h : Traced t d) {e : Event} (hs : d.step e = .ok d')
    (ht : d'.table.statements = d.table.statements) (hst : d'.statements = d.statements)
    (hnew : ∀ {i b site st}, d'.binding? i = some b → site ∈ b.sites → site.statement = some st →
      st.keyword = .varWord → ∃ b₀, d.binding? i = some b₀ ∧ site ∈ b₀.sites) : Traced t d' where
  filed := h.filed.congr ht hst
  entry := ht ▸ h.entry
  noted hb hx hsite hk := by
    obtain ⟨b₀, hb₀, hx₀⟩ := hnew hb hx hsite hk
    exact (h.noted hb₀ hx₀ hsite hk).grows (grows_step hs)

theorem same (h : Traced t d) {e : Event} (hp : e.isPlain = true) (hk : e.isKeyed = true)
    (hs : d.step e = .ok d') : Traced t d' := by
  obtain ⟨ht, hst⟩ := step_statements hp hs
  refine h.quiet hs ht hst fun {i b site st} hb hx hsite hkw => ?_
  cases e with
  | openStatement | closeStatement | fault => cases hp
  | enter | leave | evalCall | dynamic | refer => cases hs; exact ⟨b, hb, hx⟩
  | thisUse =>
    obtain ⟨_, rfl⟩ := step_thisUse_ok hs
    exact ⟨b, hb, hx⟩
  | declare kind name st₀ =>
    cases hs
    rcases declareVariable_sites hb hx with hold | ⟨_, rfl⟩
    · exact hold
    · -- a name of a `var` statement is declared with this keyword
      obtain rfl : st₀ = some st := hsite
      obtain rfl : kind = .declared st.keyword := eq_of_beq hk
      rw [hkw] at hp
      cases hp
  | callee name ready problem =>
    rcases step_callee_ok hs with rfl | ⟨_, rfl⟩
    · exact ⟨b, hb, hx⟩
    · rcases declareVariable_sites hb hx with hold | ⟨_, rfl⟩
      · exact hold
      · cases hsite

theorem opened (h : Traced ⟨n, os⟩ d) (s : Statement) (k : Keyword) :
    Traced ⟨n, ⟨s, k, none⟩ :: os⟩ { d with statements := (s, none) :: d.statements } where
  filed := h.filed.opened s k
  entry o ho m hm := by
    rcases List.mem_cons.mp ho with rfl | ho
    · cases hm
    · exact h.entry o ho m hm
  noted := h.noted

theorem closed {o : Event.Opened} (h : Traced ⟨n, o :: os⟩ d) :
    Traced ⟨n, os⟩ { d with statements := d.statements.tail } where
  filed := h.filed.closed
  entry o ho := h.entry o (List.mem_cons_of_mem _ ho)
  noted := h.noted

theorem mem_varSites (d : Draft) (site : Site) :
    ((d.declare (.declared .varWord) site).2, site) ∈
      (d.declareVariable (.declared .varWord) site).varSites := by
  rw [declareVariable_eq, Draft.record, if_pos (beq_self_eq_true _)]
  exact List.mem_append_right _ (List.mem_singleton.mpr rfl)

/-- Entries keep their statements. -/
theorem entry_grows (h : ∃ e, d.table.statements[n]? = some e ∧ e.statement = s)
    (hg : d.Grows d') : ∃ e, d'.table.statements[n]? = some e ∧ e.statement = s := by
  obtain ⟨e, he, rfl⟩ := h
  obtain ⟨e', he', hs, _⟩ := hg.entry he
  exact ⟨e', he', hs⟩

theorem first (h : Traced ⟨n, ⟨s, k, none⟩ :: os⟩ d) (hs : s.keyword = .varWord) {site : Site}
    (hsite : site.statement = some s) :
    Traced ⟨n + 1, ⟨s, k, some n⟩ :: os⟩ (d.declareVariable (.declared .varWord) site) := by
  obtain ⟨hf, he⟩ := h.filed.first hs site
  refine ⟨hf, fun o ho m hm => ?_, h.declareVariable_noted fun st hst _ => ?_⟩
  · rcases List.mem_cons.mp ho with rfl | ho
    · cases hm
      exact ⟨_, he, rfl⟩
    · exact entry_grows (h.entry o (List.mem_cons_of_mem _ ho) m hm)
        (d.grows_declareVariable _ _)
  · obtain rfl : s = st := Option.some.inj (hsite.symm.trans hst)
    exact ⟨mem_varSites d site, _, List.mem_of_getElem? he, rfl, List.mem_singleton.mpr rfl⟩

theorem later {i : Nat} (h : Traced ⟨n, ⟨s, k, some i⟩ :: os⟩ d) {site : Site}
    (hsite : site.statement = some s) :
    Traced ⟨n, ⟨s, k, some i⟩ :: os⟩ (d.declareVariable (.declared .varWord) site) := by
  obtain ⟨hf, e, he, _, hi⟩ := h.filed.later site
  have hentry := fun o ho m hm =>
    entry_grows (h.entry o ho m hm) (d.grows_declareVariable (.declared .varWord) site)
  refine ⟨hf, hentry, h.declareVariable_noted fun st hst _ => ?_⟩
  obtain rfl : s = st := Option.some.inj (hsite.symm.trans hst)
  obtain ⟨e', he', hs⟩ := hentry _ List.mem_cons_self i rfl
  obtain rfl : e' = e := Option.some.inj (he'.symm.trans he)
  exact ⟨mem_varSites d site, e', List.mem_of_getElem? he', hs, hi⟩

theorem steps {key : Nat → Keyword} {t' : Event.Tally} {es es' : List Event}
    (hr : Event.Rekeyed key t es es' t') (hk : ∀ e ∈ es, e.isKeyed = true) (h : Traced t d)
    (hs : d.steps es = .ok d') : Traced t' d' := by
  induction hr generalizing d with
  | nil => cases hs; exact h
  | same he _ ih =>
    obtain ⟨m, hm, hs⟩ := steps_cons_ok.mp hs
    exact ih (fun e he => hk e (List.mem_cons_of_mem _ he))
      (h.same he (hk _ List.mem_cons_self) hm) hs
  | opened s k _ ih => exact ih (fun e he => hk e (List.mem_cons_of_mem _ he)) (h.opened s k) hs
  | closed _ ih => exact ih (fun e he => hk e (List.mem_cons_of_mem _ he)) h.closed hs
  | first hv _ ih => exact ih (fun e he => hk e (List.mem_cons_of_mem _ he)) (h.first hv rfl) hs
  | later _ _ ih => exact ih (fun e he => hk e (List.mem_cons_of_mem _ he)) (h.later rfl) hs

end Traced

/-- Every declarator of a `var` statement of a script is noted. -/
theorem isNoted_ofScript {script : Node} {d : Draft}
    (h : Draft.steps {} (Event.ofScript script) = .ok d) {i : BindingId} {b : Binding} {site : Site}
    {st : Statement} (hb : d.binding? i = some b) (hx : site ∈ b.sites)
    (hst : site.statement = some st) (hk : st.keyword = .varWord) : d.IsNoted i site st := by
  obtain ⟨m, hm, hbody⟩ := steps_cons_ok.mp h
  cases hm
  obtain ⟨_, hr⟩ := Event.ofScript_rekeyed (fun _ => .varWord) script (fault_not_mem_steps hbody)
  have hstart : Traced ⟨0, []⟩ (({} : Draft).openScope .program script.span none []) :=
    ⟨.start script.span, nofun, fun hb => by cases hb⟩
  exact (hstart.steps hr (Event.isKeyed_ofNode _ _ script) hbody).noted hb hx hst hk

end Draft

/-! ### Tags -/

namespace Draft

variable {d : Draft}

/-- Two bindings of one name in one scope are both tagged. -/
theorem Sound.tagged_of_same (h : d.Sound) {i j : BindingId} {b c : Binding} (hij : i ≠ j)
    (hb : d.binding? i = some b) (hc : d.binding? j = some c) (hs : b.scope = c.scope)
    (hn : b.name = c.name) :
    .duplicateBlockBinding ∈ b.hazards ∧ .duplicateBlockBinding ∈ c.hazards := by
  have htag : ∀ {i b}, d.binding? i = some b → d.Tagged i .duplicateBlockBinding →
      .duplicateBlockBinding ∈ b.hazards := by
    rintro i b hb ⟨b', hb', ht⟩
    rw [hb] at hb'
    cases hb'
    exact ht
  obtain ⟨old, ho, hbo⟩ := h.owned hb
  obtain ⟨old', ho', hco⟩ := h.owned hc
  rw [hs, hn, ho'] at ho
  obtain rfl : old' = old := Option.some.inj ho
  -- one of the two does not hold the name, and it was tagged together with the one that does
  rcases hbo with rfl | ⟨hto, htb⟩ <;> rcases hco with rfl | ⟨hto', htc⟩
  · exact absurd rfl hij
  · exact ⟨htag hb hto', htag hc htc⟩
  · exact ⟨htag hb htb, htag hc hto⟩
  · exact ⟨htag hb htb, htag hc htc⟩

/-- A `var` that hoists past a binding of its name is tagged, and so is the binding, unless it is
the parameter of a `catch` clause. -/
theorem Sound.endangers_of_passed (h : d.Sound) {i j : BindingId} {b c : Binding} {site : Site}
    (hb : d.binding? i = some b) (hv : (i, site) ∈ d.varSites) (hc : d.binding? j = some c)
    (hn : c.name = b.name) (hp : c.scope ∈ d.graph.path site.scope b.scope) :
    (d.Endangers i b .duplicateBlockBinding ∨ d.Endangers i b .scopeResolutionChange) ∧
      (c.kind ≠ .catchParam → d.Endangers j c .duplicateBlockBinding) := by
  obtain ⟨other, ho, hor⟩ := h.owned hc
  have hpass : d.Passes i b other := ⟨hb, site, c.scope, hv, hp, hn ▸ ho⟩
  have htags : ∀ x y, d.kindOf other = .catchParam ∧ x = i ∧ y = .scopeResolutionChange ∨
      d.kindOf other ≠ .catchParam ∧ (x = i ∨ x = other) ∧ y = .duplicateBlockBinding →
      (x, y) ∈ d.hoistTags :=
    fun x y hxy => (mem_hoistTags h).mpr ⟨i, b, other, hpass, hxy⟩
  refine ⟨?_, fun hk => ?_⟩
  · by_cases hko : d.kindOf other = .catchParam
    · exact .inr (.inr (.inl (htags _ _ (.inl ⟨hko, rfl, rfl⟩))))
    · exact .inl (.inr (.inl (htags _ _ (.inr ⟨hko, .inl rfl, rfl⟩))))
  · rcases hor with rfl | ⟨_, c', hc', ht⟩
    · have hko : d.kindOf other ≠ .catchParam := by
        rw [kindOf, hc]
        exact hk
      exact .inr (.inl (htags _ _ (.inr ⟨hko, .inr rfl, rfl⟩)))
    · rw [hc] at hc'
      cases hc'
      exact .inl ht

/-- The binding of a draft that becomes one of a table. -/
structure Becomes (d : Draft) (i : BindingId) (b₀ b : Binding) : Prop where
  binding : d.binding? i = some b₀
  kind : b.kind = b₀.kind
  scope : b.scope = b₀.scope
  name : b.name = b₀.name
  sites : b.sites = b₀.sites
  hazards : ∀ {x}, d.Endangers i b₀ x → x ∈ b.hazards

theorem becomes_of_isTable {t : Table} (ht : d.finish.IsTable t) {i : BindingId} {b : Binding}
    (hb : t.bindings[i]? = some b) : ∃ b₀, d.Becomes i b₀ b := by
  obtain ⟨b₁, hb₁, hg, hsites⟩ := ht.binding hb
  obtain ⟨b₀, hazards, hb₀, rfl, hm⟩ := binding_of_finish hb₁
  exact ⟨b₀, hb₀, hg.kind, hg.scope, hg.name, hsites, fun {x} hx => hg.hazards ((hm x).mpr hx)⟩

end Draft

/-! ### The result -/

/-- A declarator of a `var` statement feeds a binding of the table. -/
structure Table.Feeds (t : Table) (site : Site) (st : Statement) (i : BindingId) (b : Binding) :
    Prop where
  binding : t.bindings[i]? = some b
  listed : site ∈ b.sites
  statement : site.statement = some st
  keyword : st.keyword = .varWord

/-- A second binding has the name of the first, in the scope that owns it or in one that a
declarator of it hoists past. -/
structure Scoping.Rival (s : Scoping) (site : Site) (i : BindingId) (b : Binding) (j : BindingId)
    (c : Binding) : Prop where
  ne : i ≠ j
  name : c.name = b.name
  scope : c.scope = b.scope ∨ c.scope ∈ s.graph.path site.scope b.scope

section Table

variable {script : Node} {s : Scoping} (h : Scoping.ofScript script = .ok s) {t : Table}
  (ht : s.IsTable t)

include h ht

theorem tagged_of_same_scope {i j : BindingId} {b c : Binding} (hij : i ≠ j)
    (hb : t.bindings[i]? = some b) (hc : t.bindings[j]? = some c) (hs : b.scope = c.scope)
    (hn : b.name = c.name) :
    .duplicateBlockBinding ∈ b.hazards ∧ .duplicateBlockBinding ∈ c.hazards := by
  obtain ⟨d, hd, rfl⟩ := Scoping.ofScript_ok h
  obtain ⟨b₀, hb₀⟩ := Draft.becomes_of_isTable ht hb
  obtain ⟨c₀, hc₀⟩ := Draft.becomes_of_isTable ht hc
  rw [hb₀.scope, hc₀.scope] at hs
  rw [hb₀.name, hc₀.name] at hn
  obtain ⟨h₁, h₂⟩ := (Draft.sound_ofScript hd).tagged_of_same hij hb₀.binding hc₀.binding hs hn
  exact ⟨hb₀.hazards (.inl h₁), hc₀.hazards (.inl h₂)⟩

theorem tagged_of_passed {site : Site} {st : Statement} {i j : BindingId} {b c : Binding}
    (hf : t.Feeds site st i b) (hc : t.bindings[j]? = some c) (hn : c.name = b.name)
    (hp : c.scope ∈ s.graph.path site.scope b.scope) :
    (.duplicateBlockBinding ∈ b.hazards ∨ .scopeResolutionChange ∈ b.hazards) ∧
      (c.kind ≠ .catchParam → .duplicateBlockBinding ∈ c.hazards) := by
  obtain ⟨d, hd, rfl⟩ := Scoping.ofScript_ok h
  obtain ⟨b₀, hb₀⟩ := Draft.becomes_of_isTable ht hf.binding
  obtain ⟨c₀, hc₀⟩ := Draft.becomes_of_isTable ht hc
  obtain ⟨hv, _⟩ := Draft.isNoted_ofScript hd hb₀.binding (hb₀.sites ▸ hf.listed) hf.statement
    hf.keyword
  rw [hc₀.name, hb₀.name] at hn
  rw [d.finish_graph, hc₀.scope, hb₀.scope] at hp
  obtain ⟨h₁, h₂⟩ := (Draft.sound_ofScript hd).endangers_of_passed hb₀.binding hv hc₀.binding hn hp
  exact ⟨h₁.imp hb₀.hazards hb₀.hazards, fun hk => hc₀.hazards (h₂ (hc₀.kind ▸ hk))⟩

theorem exists_entry_of_feeds {site : Site} {st : Statement} {i : BindingId} {b : Binding}
    (hf : t.Feeds site st i b) : ∃ e ∈ t.statements, e.statement = st ∧ i ∈ e.members := by
  obtain ⟨d, hd, rfl⟩ := Scoping.ofScript_ok h
  obtain ⟨b₀, hb₀⟩ := Draft.becomes_of_isTable ht hf.binding
  obtain ⟨_, he⟩ := Draft.isNoted_ofScript hd hb₀.binding (hb₀.sites ▸ hf.listed) hf.statement
    hf.keyword
  rw [ht.statements, d.finish_statements]
  exact he

/-- A statement with a member that is blocked keeps its keyword. -/
theorem statementEdit_of_blocked (o : Options) {i : BindingId} {b : Binding}
    (hb : t.bindings[i]? = some b) {x : Hazard} (hx : x ∈ blockers) (hxb : x ∈ b.hazards)
    {e : StatementEntry} (he : e ∈ t.statements) (hi : i ∈ e.members) :
    statementEdit t (classify t o) e = .ok none := by
  obtain ⟨d, hd, rfl⟩ := Scoping.ofScript_ok h
  have he' : e ∈ d.table.statements := by
    rw [← d.finish_statements, ← ht.statements]
    exact he
  obtain ⟨hk, hne⟩ := Draft.filed_ofScript hd e he'
  have hkeeps : Assignment.Keeps (classify t o).verdict? i := by
    by_cases hcand : b.isCandidate = true
    · have hkeep := Binding.decision_keep_iff.mpr (.inl ⟨x, hx, hxb⟩ : b.Blocked o)
      exact .inr (Forced.own hb hcand hkeep).verdict
    · refine .inl (Option.map_eq_none_iff.mpr ?_)
      cases hv : (classify t o).find? i with
      | none => rfl
      | some v =>
        obtain ⟨b', hb', hc⟩ := classify_find?_isSome.mp ⟨v, hv⟩
        rw [hb] at hb'
        cases hb'
        exact absurd hc hcand
  refine statementEdit_none hne hk (fun j hj => ?_) ((classify_coherent t o e he).kept i hi hkeeps)
  obtain ⟨_, hb₁, _⟩ := (Draft.sound_ofScript hd).members he' j hj
  obtain ⟨_, hb₂, _⟩ := Draft.finish_binding hb₁
  exact ht.exists_binding ⟨_, hb₂⟩

/-- **No claim to a name that is already claimed goes unnoticed**, whatever the order of the
declarations. Two bindings of one name in one scope are both tagged as duplicates. Where a
declarator of a `var` statement hoists past a binding of its name, the `var` is tagged, as a
duplicate or because names would find something else; the other binding is tagged as a duplicate,
unless it is the parameter of a `catch` clause. And a `var` statement keeps its keyword if any of
its declarators has such a rival. -/
theorem rivals_tagged (o : Options) :
    (∀ (i j : BindingId) (b c : Binding), i ≠ j → t.bindings[i]? = some b →
      t.bindings[j]? = some c → b.scope = c.scope → b.name = c.name →
      .duplicateBlockBinding ∈ b.hazards ∧ .duplicateBlockBinding ∈ c.hazards) ∧
    (∀ site st i b (j : BindingId) (c : Binding), t.Feeds site st i b → t.bindings[j]? = some c →
      c.name = b.name → c.scope ∈ s.graph.path site.scope b.scope →
      (.duplicateBlockBinding ∈ b.hazards ∨ .scopeResolutionChange ∈ b.hazards) ∧
        (c.kind ≠ .catchParam → .duplicateBlockBinding ∈ c.hazards)) ∧
    ∀ site st i b, t.Feeds site st i b →
      (∃ e ∈ t.statements, e.statement = st ∧ i ∈ e.members) ∧
      ∀ (j : BindingId) (c : Binding), t.bindings[j]? = some c → s.Rival site i b j c →
        ∀ e ∈ t.statements, i ∈ e.members → statementEdit t (classify t o) e = .ok none := by
  refine ⟨fun i j b c => tagged_of_same_scope h ht,
    fun site st i b j c hf hc => tagged_of_passed h ht hf hc,
    fun site st i b hf => ⟨exists_entry_of_feeds h ht hf, fun j c hc hr e he hi => ?_⟩⟩
  have hdup : .duplicateBlockBinding ∈ b.hazards ∨ .scopeResolutionChange ∈ b.hazards := by
    rcases hr.scope with hs | hp
    · exact .inl (tagged_of_same_scope h ht hr.ne hf.binding hc hs.symm hr.name.symm).1
    · exact (tagged_of_passed h ht hf hc hr.name hp).1
  rcases hdup with hx | hx
  · exact statementEdit_of_blocked h ht o hf.binding (by decide) hx he hi
  · exact statementEdit_of_blocked h ht o hf.binding (by decide) hx he hi

end Table

/-- `{ let x; { var x; } }`. -/
def rivalScript : Node :=
  let x (l r : Int) : Node := .declarator ⟨"x", .of l r⟩ .absent (.of l r)
  .program [.block [.varDecl .letWord [x 6 7] (.of 2 8),
    .block [.varDecl .varWord [x 15 16] (.of 11 17)] (.of 9 19)] (.of 0 21)] (.of 0 21)

/-- The scopes and bindings of the script. -/
def rivalScoping : Scoping := (Scoping.ofScript rivalScript).toOption.getD default

theorem rivals_tagged_rivalScript :
    Scoping.ofScript rivalScript = .ok rivalScoping ∧ ∃ site st b c,
      rivalScoping.table.Feeds site st 1 b ∧ rivalScoping.table.bindings[0]? = some c ∧
      c.kind = .declared .letWord ∧ c.scope ∈ rivalScoping.graph.path site.scope b.scope ∧
      .duplicateBlockBinding ∈ c.hazards ∧
      (.duplicateBlockBinding ∈ b.hazards ∨ .scopeResolutionChange ∈ b.hazards) ∧
      ∃ e ∈ rivalScoping.table.statements, e.statement = st ∧
        statementEdit rivalScoping.table (classify rivalScoping.table {}) e = .ok none := by
  have h : Scoping.ofScript rivalScript = .ok rivalScoping := by
    obtain ⟨s, hs, _⟩ := exists_ok_of_any
      (show (Scoping.ofScript rivalScript).toOption.any (fun _ => true) = true by decide +kernel)
    rw [rivalScoping, hs]
    rfl
  let c := rivalScoping.table.bindings[0]?.getD default
  let b := rivalScoping.table.bindings[1]?.getD default
  let st := b.first.statement.getD default
  have hc : rivalScoping.table.bindings[0]? = some c := by decide +kernel
  have hf : rivalScoping.table.Feeds b.first st 1 b :=
    ⟨by decide +kernel, List.mem_cons_self, by decide +kernel, by decide +kernel⟩
  have hn : c.name = b.name := by decide +kernel
  have hp : c.scope ∈ rivalScoping.graph.path b.first.scope b.scope := by decide +kernel
  have hk : c.kind = .declared .letWord := by decide +kernel
  obtain ⟨_, hpassed, hkept⟩ := rivals_tagged h (.inl rfl) {}
  obtain ⟨hb, hdup⟩ := hpassed b.first st 1 b 0 c hf hc hn hp
  obtain ⟨⟨e, he, hst, hi⟩, hedit⟩ := hkept b.first st 1 b hf
  exact ⟨h, b.first, st, b, c, hf, hc, hk, hp, hdup (by rw [hk]; decide), hb, e, he, hst,
    hedit 0 c hc ⟨by decide, hn, .inr hp⟩ e he hi⟩

end ScopeLowering
