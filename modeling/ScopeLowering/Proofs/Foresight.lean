import ScopeLowering.Proofs.Conservation
import ScopeLowering.Proofs.Standing

/-!
# What the lookup without a binding foretells

Before a `var` is confined to its block, the uses of its name outside of the block are looked up as
if the binding did not exist (`Scoping.stray`). Here one `var` statement of a script is made a `let`
statement, the new script is read from the start, and every use of a `var` of that statement is
found again. A use in the block finds the same declaration. Outside of it a use is free, or finds
another declaration, just as foretold, with one exception: where the function around is a function
expression that has the name for its own, the `var` hid that name, and now the use finds it
(`Scoping.stray_foretells`, `namesakeScript_unforeseen`).

## The model

The other names of the statement may end up anywhere. So the two drafts are compared under one name
only: what a scope holds is the kind of a binding and its first declaration, `Draft.holder?`, and
`Draft.Confined` says how the holders of the name differ. All scopes but two hold the same. The
block holds the `let` as soon as the function holds the `var`, and the function holds nothing, or
its own name once that is met.
-/

namespace ScopeLowering

/-- The keywords of the statements when one of them becomes a `let`. -/
def confiningKey (n i : Nat) : Keyword := if i = n then .letWord else .varWord

/-- The script with one `var` statement, known by its number, as a `let` statement. -/
def Node.confine (script : Node) (n : Nat) : Node := (script.withKeywords (confiningKey n) 0).1

/-! ### Own names -/

/-- Is this the end of a function expression that has the name for its own? -/
def Event.isOwnName (name : String) : Event → Bool
  | callee own _ _ => own.text == name
  | _ => false

namespace Draft

/-- Is the own name of a function expression met in a scope? -/
def meetsOwnName (scope : ScopeId) (name : String) (d : Draft) : List Event → Bool
  | [] => false
  | e :: es =>
    d.current == scope && e.isOwnName name ||
      match d.step e with
      | .ok m => meetsOwnName scope name m es
      | .error _ => false

theorem meetsOwnName_cons {scope : ScopeId} {name : String} {d m : Draft} {e : Event}
    (h : d.step e = .ok m) (es : List Event) : meetsOwnName scope name d (e :: es) =
      (d.current == scope && e.isOwnName name || meetsOwnName scope name m es) := by
  rw [meetsOwnName, h]

theorem meetsOwnName_skip {scope : ScopeId} {name : String} {d m : Draft} {e : Event}
    (h : d.step e = .ok m) (he : e.isOwnName name = false) (es : List Event) :
    meetsOwnName scope name d (e :: es) = meetsOwnName scope name m es := by
  rw [meetsOwnName_cons h, he, Bool.and_false, Bool.false_or]

end Draft

/-- Is a scope that of a function expression with this name for its own? -/
def Node.hasOwnName (script : Node) (scope : ScopeId) (name : String) : Bool :=
  Draft.meetsOwnName scope name {} (Event.ofScript script)

namespace Draft

variable {d d' m D : Draft} {name : String} {s : ScopeId}

/-! ### Holders -/

/-- What a scope holds under a name: the kind of the binding and its first declaration. -/
def holder? (d : Draft) (name : String) (s : ScopeId) : Option (BindingKind × Site) :=
  ((d.graph.here? name s).bind d.binding?).map fun b => (b.kind, b.first)

theorem Sound.holder?_eq_none (h : d.Sound) :
    d.holder? name s = none ↔ d.graph.here? name s = none := by
  unfold holder?
  cases hj : d.graph.here? name s with
  | none => exact ⟨fun _ => rfl, fun _ => rfl⟩
  | some j =>
    obtain ⟨b, hb, _⟩ := h.held hj
    simp [hb]

theorem holder?_eq_some {k : BindingKind} {site : Site} :
    d.holder? name s = some (k, site) ↔
      ∃ j b, d.graph.here? name s = some j ∧ d.binding? j = some b ∧ b.kind = k ∧
        b.first = site := by
  unfold holder?
  simp only [Option.map_eq_some_iff, Option.bind_eq_some_iff, Prod.mk.injEq]
  constructor
  · rintro ⟨b, ⟨j, hj, hb⟩, hk, hf⟩
    exact ⟨j, b, hj, hb, hk, hf⟩
  · rintro ⟨j, b, hj, hb, hk, hf⟩
    exact ⟨b, ⟨j, hj, hb⟩, hk, hf⟩

/-- Growing changes no holder, it only adds some. -/
theorem Grows.holder?_eq (hg : d.Grows d') (hd : d.Sound)
    (h : d'.graph.here? name s = d.graph.here? name s) : d'.holder? name s = d.holder? name s := by
  unfold holder?
  rw [h]
  cases hj : d.graph.here? name s with
  | none => rfl
  | some j =>
    obtain ⟨b, hb, _⟩ := hd.held hj
    obtain ⟨b', hb', hgb⟩ := hg.binding hb
    simp only [Option.bind_some, hb, hb', Option.map_some, hgb.kind, hgb.first]

theorem Grows.holder?_eq_none (hg : d.Grows D) (hd : d.Sound) (hD : D.Sound)
    (h : D.holder? name s = none) : d.holder? name s = none := by
  rw [hd.holder?_eq_none]
  rw [hD.holder?_eq_none] at h
  cases hj : d.graph.here? name s with
  | none => rfl
  | some j => rw [hg.here hj] at h; cases h

theorem graph_declare_of_held {kind : BindingKind} {site : Site} {old : BindingId}
    (h : d.graph.here? site.name.text (d.attachment kind) = some old) :
    (d.declare kind site).1.graph = d.graph := by
  rcases d.declare_cases kind site with ⟨hn, _⟩ | ⟨_, _, ⟨_, _, he⟩ | ⟨_, he⟩⟩
  · rw [hn] at h; cases h
  · rw [he]; exact d.graph_join _ site
  · rw [he]; rfl

theorem graph_declareVariable (d : Draft) (kind : BindingKind) (site : Site) :
    (d.declareVariable kind site).graph = (d.declare kind site).1.graph := by
  rw [declareVariable_eq, record_graph]
  unfold mark
  split <;> rfl

/-- What is declared is then marked and recorded. -/
theorem grows_declared (d : Draft) (kind : BindingKind) (site : Site) :
    (d.declare kind site).1.Grows (d.declareVariable kind site) := by
  rw [declareVariable_eq]
  exact (grows_mark _ _ _).trans (grows_record _ _ _ _)

/-- A declaration takes hold of its name where nothing else does. -/
theorem holder?_declareVariable (hd : d.Sound) (kind : BindingKind) (site : Site) (name : String)
    (s : ScopeId) : (d.declareVariable kind site).holder? name s =
      if site.name.text = name ∧ d.attachment kind = s then
        (d.holder? name s).or (some (kind, site))
      else d.holder? name s := by
  have hg := d.grows_declareVariable kind site
  have hgraph := d.graph_declareVariable kind site
  rcases d.declare_cases kind site with ⟨hn, he⟩ | ⟨old, hold, _⟩
  · rw [he] at hgraph
    have hhere := here?_own (hd.attachment_lt kind) hn name s
    split
    · rename_i hc
      obtain ⟨rfl, rfl⟩ := hc
      rw [if_pos ⟨rfl, rfl⟩] at hhere
      have hgrow := d.grows_declared kind site
      rw [he] at hgrow
      obtain ⟨b, hb, hgb⟩ := hgrow.binding
        (show (d.own kind site).binding? d.table.bindings.length = some (d.fresh kind site) by
          rw [binding?_own, if_pos rfl])
      rw [hd.holder?_eq_none.mpr hn, Option.none_or, holder?_eq_some]
      exact ⟨_, b, hgraph ▸ hhere, hb, hgb.kind, hgb.first⟩
    · rename_i hc
      rw [if_neg fun h => hc ⟨h.1.symm, h.2.symm⟩] at hhere
      exact hg.holder?_eq hd (hgraph ▸ hhere)
  · rw [graph_declare_of_held hold] at hgraph
    rw [hg.holder?_eq hd (by rw [hgraph])]
    split
    · rename_i hc
      obtain ⟨rfl, rfl⟩ := hc
      cases hh : d.holder? site.name.text (d.attachment kind) with
      | none => rw [hd.holder?_eq_none.mp hh] at hold; cases hold
      | some x => rfl
    · rfl

/-- Declarations of other names, and in other scopes, do not change a holder. -/
theorem holder?_declareVariable_of_ne (hd : d.Sound) {kind : BindingKind} {site : Site}
    (h : site.name.text = name → d.attachment kind ≠ s) :
    (d.declareVariable kind site).holder? name s = d.holder? name s := by
  rw [holder?_declareVariable hd, if_neg fun hc => h hc.1 hc.2]

theorem holder?_openScope (d : Draft) (kind : ScopeKind) (span : Span) (callable : Option Callable)
    (cases : List Span) (name : String) (s : ScopeId) :
    (d.openScope kind span callable cases).holder? name s = d.holder? name s := by
  unfold holder?
  rw [here?_openScope]
  rfl

/-! ### A variable of one statement -/

/-- A `var` with one declaration, in the statement with a number, whose name nothing else lays claim
to. -/
structure Lone (D : Draft) (n : Nat) (i : BindingId) (b : Binding) : Prop extends D.Sole i b where
  sound : D.Sound
  /-- No other statement has it for a member. -/
  number : ∀ {k : Nat} {e : StatementEntry}, D.table.statements[k]? = some e → i ∈ e.members → k = n
  /-- Its fellow members belong to the same function. -/
  joint : ∀ {e : StatementEntry}, D.table.statements[n]? = some e → ∀ j ∈ e.members,
    ∀ {c}, D.binding? j = some c → c.scope = b.scope

namespace Lone

variable {n : Nat} {i : BindingId} {b : Binding}

/-- In its function the name is declared once, and that makes the binding. -/
theorem declares (h : D.Lone n i b) (hd : d.Sound) {kind : BindingKind} {site : Site}
    (hg : (d.declareVariable kind site).Grows D) (hname : site.name.text = b.name)
    (hatt : d.attachment kind = b.scope) :
    d.graph.here? b.name b.scope = none ∧ (d.declare kind site).2 = i ∧
      kind = .declared .varWord ∧ site = b.first := by
  have hgd := (d.grows_declared kind site).trans hg
  have hid : (d.declare kind site).2 = i := by
    rcases d.declare_cases kind site with ⟨hn, he⟩ | ⟨old, hold, hrest⟩
    · rw [he] at hgd ⊢
      have hi := hgd.here (by rw [here?_own (hd.attachment_lt kind) hn, if_pos ⟨rfl, rfl⟩])
      rw [hname, hatt, h.here h.sound] at hi
      exact (Option.some.inj hi).symm
    · have hi := ((d.grows_declareVariable kind site).trans hg).here hold
      rw [hname, hatt, h.here h.sound] at hi
      cases hi
      rcases hrest with ⟨_, _, he⟩ | ⟨_, he⟩
      · rw [he]
      · -- a second claim on the name
        obtain ⟨c, hc, _⟩ := hd.held hold
        rw [he] at hgd
        refine absurd ⟨c.addHazard .duplicateBlockBinding, ?_, ?_⟩ (h.untagged hgd)
        · rw [binding?_clash, if_neg (Nat.ne_of_lt (binding?_lt hc)), hc, Option.map_some,
            if_pos rfl]
        · exact Binding.mem_addHazard.mpr (.inr rfl)
  have hsole := h.toSole
  rw [← hid] at hsole
  obtain ⟨hn, _, hgb⟩ := hsole.declare_own hd hgd
  rw [hname, hatt] at hn
  exact ⟨hn, hid, hgb.kind.symm.trans h.kind, hgb.first.symm⟩

/-- Between a use of the binding and its function no scope holds the name. -/
theorem unheld (h : D.Lone n i b) {t : ScopeId} (hi : D.graph.lookup b.name s = some i)
    (hst : D.graph.isWithin s t = true) (ht : D.graph.isWithin t b.scope = true)
    (hne : t ≠ b.scope) : D.graph.here? b.name t = none := by
  have hg := h.sound.graph
  cases hj : D.graph.here? b.name t with
  | none => rfl
  | some j =>
    rcases hg.lookup_cases hst hj hi with rfl | ⟨u, hu, hhere⟩
    · exact absurd (h.scope_of_here h.sound hj).2 hne
    · obtain ⟨_, rfl⟩ := h.scope_of_here h.sound hhere
      exact absurd (hg.isWithin_antisymm ht (hg.isWithin_of_mem_path hst hu).2) hne

/-- The function of the binding is around all its uses. -/
theorem isWithin_of_lookup (h : D.Lone n i b) (hi : D.graph.lookup b.name s = some i) :
    D.graph.isWithin s b.scope = true := by
  obtain ⟨t, ht, hhere⟩ := h.sound.graph.exists_here_of_lookup hi
  obtain ⟨_, rfl⟩ := h.scope_of_here h.sound hhere
  exact ht

end Lone

/-! ### Two drafts under one name -/

/-- The second draft has the binding `b` of the last draft `D` confined to the block of its
declaration. Whether the own name of the function around has been met is `own`. -/
structure Confined (D : Draft) (b : Binding) (own : Bool) (d d' : Draft) : Prop where
  frame : d.Frame d'
  elsewhere : ∀ s, s ≠ b.first.scope → s ≠ b.scope → d'.holder? b.name s = d.holder? b.name s
  /-- The block holds the name as soon as the function does on the other side. -/
  home : (b.first.scope ≠ b.scope → D.holder? b.name b.first.scope = none) →
    d'.holder? b.name b.first.scope = (d.holder? b.name b.scope).map fun _ =>
      (.declared .letWord, b.first.withKeyword .letWord)
  unnamed : b.first.scope ≠ b.scope → own = false → d'.holder? b.name b.scope = none
  named : b.first.scope ≠ b.scope → own = true →
    ∃ site, d'.holder? b.name b.scope = some (.callee, site) ∧ site.scope = b.scope

namespace Confined

variable {m' : Draft} {n : Nat} {i : BindingId} {b : Binding} {own : Bool}

/-- Nothing changes that the name depends on. -/
theorem congr (h : Confined D b own d d') (hf : m.Frame m')
    (hm : ∀ s, m.holder? b.name s = d.holder? b.name s)
    (hm' : ∀ s, m'.holder? b.name s = d'.holder? b.name s) : Confined D b own m m' where
  frame := hf
  elsewhere s := by rw [hm, hm']; exact h.elsewhere s
  home := by rw [hm, hm']; exact h.home
  unnamed := by rw [hm']; exact h.unnamed
  named := by rw [hm']; exact h.named

theorem frame_declareVariables (h : Confined D b own d d') (kind kind' : BindingKind)
    (site site' : Site) :
    (d.declareVariable kind site).Frame (d'.declareVariable kind' site') :=
  (d.frame_declareVariable kind site).symm.trans
    (h.frame.trans (d'.frame_declareVariable kind' site'))

/-- Another name is declared on both sides. -/
theorem declareOther (h : Confined D b own d d') (hd : d.Sound) (hd' : d'.Sound)
    {kind kind' : BindingKind} {site site' : Site} (hx : site.name.text ≠ b.name)
    (hx' : site'.name.text ≠ b.name) :
    Confined D b own (d.declareVariable kind site) (d'.declareVariable kind' site') :=
  h.congr (h.frame_declareVariables kind kind' site site')
    (fun _ => holder?_declareVariable_of_ne hd fun he => absurd he hx)
    (fun _ => holder?_declareVariable_of_ne hd' fun he => absurd he hx')

/-- The name is declared on both sides, in another function or for a block alone. -/
theorem declareSame (h : Confined D b own d d') (hd : d.Sound) (hd' : d'.Sound) (hD : D.Sound)
    {kind : BindingKind} {site : Site} (hs : site.scope = d.current)
    (hg : (d.declareVariable kind site).Grows D)
    (hne : site.name.text = b.name → d.attachment kind ≠ b.scope) :
    Confined D b own (d.declareVariable kind site) (d'.declareVariable kind site) := by
  have hatt := Names.attachment_eq h.frame.outlines h.frame.current kind
  have hne' : site.name.text = b.name → d'.attachment kind ≠ b.scope := by rw [hatt]; exact hne
  constructor
  case frame => exact h.frame_declareVariables kind kind site site
  case elsewhere =>
    intro s hhome howner
    rw [holder?_declareVariable hd, holder?_declareVariable hd', hatt, h.elsewhere s hhome howner]
  case home =>
    intro hclear
    -- nothing that the block holds in the end is declared there on the way
    have hblock : site.name.text = b.name → d.attachment kind ≠ b.first.scope := by
      intro hx he
      have hnone := hg.holder?_eq_none (hd.declareVariable kind hs) hD
        (hclear (he ▸ hne hx))
      rw [holder?_declareVariable hd, if_pos ⟨hx, he⟩, Option.or_eq_none_iff] at hnone
      cases hnone.2
    rw [holder?_declareVariable_of_ne hd hne, holder?_declareVariable_of_ne hd' (hatt ▸ hblock)]
    exact h.home hclear
  case unnamed => rw [holder?_declareVariable_of_ne hd' hne']; exact h.unnamed
  case named => rw [holder?_declareVariable_of_ne hd' hne']; exact h.named

/-- The binding is declared for its function on one side, and for its block on the other. -/
theorem declareLowered (h : Confined D b own d d') (hb : D.Lone n i b) (hd : d.Sound)
    (hd' : d'.Sound) {site : Site} (hs : site.scope = d.current)
    (hg : (d.declareVariable (.declared .varWord) site).Grows D)
    (hname : site.name.text = b.name) (hatt : d.attachment (.declared .varWord) = b.scope) :
    Confined D b own (d.declareVariable (.declared .varWord) site)
      (d'.declareVariable (.declared .letWord) (site.withKeyword .letWord)) := by
  obtain ⟨hn, _, _, hsite⟩ := hb.declares hd hg hname hatt
  have hatt' : d'.attachment (.declared .letWord) = b.first.scope := by
    rw [Names.attachment_of_block (by decide), h.frame.current, ← hs, hsite]
  constructor
  case frame => exact h.frame_declareVariables _ _ _ _
  case elsewhere =>
    intro s hhome howner
    rw [holder?_declareVariable_of_ne hd fun _ he => howner (he.symm.trans hatt),
      holder?_declareVariable_of_ne hd' fun _ he => hhome (he.symm.trans hatt')]
    exact h.elsewhere s hhome howner
  case home =>
    intro hclear
    have hnone : d.holder? b.name b.scope = none := hd.holder?_eq_none.mpr hn
    have hnone' := h.home hclear
    rw [hnone, Option.map_none] at hnone'
    rw [holder?_declareVariable hd, if_pos ⟨hname, hatt⟩, holder?_declareVariable hd',
      if_pos ⟨hname, hatt'⟩, hnone, hnone', hsite]
    rfl
  case unnamed =>
    intro hne
    rw [holder?_declareVariable_of_ne hd' fun _ he => hne (hatt'.symm.trans he)]
    exact h.unnamed hne
  case named =>
    intro hne
    rw [holder?_declareVariable_of_ne hd' fun _ he => hne (hatt'.symm.trans he)]
    exact h.named hne

/-- A name of a `var` statement is declared. -/
theorem declareVar (h : Confined D b own d d') (hb : D.Lone n i b) (hd : d.Sound) (hd' : d'.Sound)
    {site : Site} {st : Statement} {k : Nat} (hs : site.scope = d.current)
    (hst : site.statement = some st) (hk : st.keyword = .varWord)
    (hg : (d.declareVariable (.declared .varWord) site).Grows D)
    (he : ∃ e ∈ (d.declareVariable (.declared .varWord) site).table.statements[k]?,
      (d.declare (.declared .varWord) site).2 ∈ e.members) :
    Confined D b own (d.declareVariable (.declared .varWord) site)
      (d'.declareVariable (.declared (confiningKey n k))
        (site.withKeyword (confiningKey n k))) := by
  obtain ⟨e₀, he₀, hm₀⟩ := he
  obtain ⟨e, he, _, hpre⟩ := hg.entry he₀
  have hmem := hpre.subset hm₀
  by_cases hx : site.name.text = b.name
  · by_cases hkn : k = n
    · subst hkn
      rw [confiningKey, if_pos rfl]
      refine h.declareLowered hb hd hd' hs hg hx ?_
      -- all names of the statement belong to one function
      obtain ⟨c₀, hc₀, hscope⟩ := hd.declare_scope (.declared .varWord) site
      obtain ⟨c, hc, hgc⟩ := ((d.grows_declared (.declared .varWord) site).trans hg).binding hc₀
      rw [← hscope, ← hgc.scope]
      exact hb.joint he _ hmem hc
    · have hkeep : site.withKeyword .varWord = site := by
        unfold Site.withKeyword Statement.withKeyword
        rw [hst, Option.map_some, ← hk, ← hst]
      rw [confiningKey, if_neg hkn, hkeep]
      refine h.declareSame hd hd' hb.sound hs hg fun hname hatt => hkn ?_
      obtain ⟨_, hi, _⟩ := hb.declares hd hg hname hatt
      exact hb.number he (hi ▸ hmem)
  · exact h.declareOther hd hd' hx hx

end Confined

/-! ### Own names on both sides -/

/-- The declaration of a function expression's own name. -/
def ownSite (d : Draft) (name : Ident) (ready : Offset) : Site :=
  { name, statement := none, scope := d.current, hasInit := true, ready }

/-- The own name of a function expression is declared where nothing else holds the name. -/
theorem Sound.callee_cases (h : d.Sound) (name : Ident) (ready : Offset)
    (problem : Option ScopeFault) :
    d.holder? name.text d.current ≠ none ∧ d.step (.callee name ready problem) = .ok d ∨
    d.holder? name.text d.current = none ∧
      (problem = none ∧ d.step (.callee name ready problem) =
          .ok (d.declareVariable .callee (d.ownSite name ready)) ∨
        ∃ f, problem = some f ∧ d.step (.callee name ready problem) = .error f) := by
  rw [ne_eq, h.holder?_eq_none]
  cases hj : d.graph.here? name.text d.current with
  | some j =>
    refine .inl ⟨Option.some_ne_none j, ?_⟩
    simp only [Draft.step, hj]
    rfl
  | none =>
    refine .inr ⟨rfl, ?_⟩
    simp only [Draft.step, hj]
    cases problem with
    | none => exact .inl ⟨rfl, rfl⟩
    | some f => exact .inr ⟨f, rfl, rfl⟩

/-- The own name of a function expression does nothing to other names. -/
theorem Sound.callee_other (h : d.Sound) {own : Ident} {ready : Offset}
    {problem : Option ScopeFault} (hx : own.text ≠ name)
    (hm : d.step (.callee own ready problem) = .ok m) :
    d.Frame m ∧ ∀ s, m.holder? name s = d.holder? name s := by
  rcases h.callee_cases own ready problem with ⟨_, he⟩ | ⟨_, ⟨_, he⟩ | ⟨f, _, he⟩⟩ <;>
    rw [he] at hm <;> cases hm
  · exact ⟨.refl d, fun _ => rfl⟩
  · exact ⟨d.frame_declareVariable _ _,
      fun _ => holder?_declareVariable_of_ne h fun hc => absurd hc hx⟩

namespace Confined

variable {m' : Draft} {n : Nat} {i : BindingId} {b : Binding} {own : Bool}

/-- The own name of the function around is met. The binding hides it on one side. -/
theorem calleeOwner (h : Confined D b own d d') (hb : D.Lone n i b) (hd : d.Sound) (hd' : d'.Sound)
    {name : Ident} {ready : Offset} {problem : Option ScopeFault}
    (hseat : d.graph.nearestFunction d.current = d.current) (hname : name.text = b.name)
    (hc : d.current = b.scope) (hm : d.step (.callee name ready problem) = .ok m)
    (hg : m.Grows D) :
    (∃ m', d'.step (.callee name ready problem) = .ok m' ∧ Confined D b true m m') ∨
      ∃ f, problem = some f ∧ d'.step (.callee name ready problem) = .error f := by
  have hc' : d'.current = b.scope := h.frame.current.trans hc
  rcases hd.callee_cases name ready problem with ⟨hheld, he⟩ | ⟨_, ⟨_, he⟩ | ⟨f, _, he⟩⟩ <;>
    rw [he] at hm <;> cases hm
  · rw [hname, hc] at hheld
    have hcases := hd'.callee_cases name ready problem
    rw [hname, hc'] at hcases
    by_cases hhome : b.first.scope = b.scope
    · -- the block is the function itself, and still hides the name
      have hheld' : d'.holder? b.name b.scope ≠ none := by
        rw [← hhome, h.home fun hne => absurd hhome hne, ne_eq, Option.map_eq_none_iff]
        exact hheld
      rcases hcases with ⟨_, he'⟩ | ⟨hn', _⟩
      · exact .inl ⟨d', he', { h with
          unnamed := fun hne => absurd hhome hne
          named := fun hne => absurd hhome hne }⟩
      · exact absurd hn' hheld'
    · rcases hcases with ⟨hheld', he'⟩ | ⟨hn', ⟨_, he'⟩ | hfault⟩
      · refine .inl ⟨d', he', { h with
          unnamed := fun _ ho => by cases ho
          named := fun hne _ => h.named hne ?_ }⟩
        cases own with
        | false => exact absurd (h.unnamed hne rfl) hheld'
        | true => rfl
      · have hatt' : d'.attachment .callee = b.scope := by
          rw [Names.attachment_eq h.frame.outlines h.frame.current, ← hc]
          exact hseat
        refine .inl ⟨_, he', ⟨?_, fun s hs ho => ?_, fun hclear => ?_, ?_, fun _ _ => ?_⟩⟩
        · exact h.frame.trans (d'.frame_declareVariable _ _)
        · rw [holder?_declareVariable_of_ne hd' fun _ hs => ho (hs.symm.trans hatt')]
          exact h.elsewhere s hs ho
        · rw [holder?_declareVariable_of_ne hd' fun _ hs => hhome (hs.symm.trans hatt')]
          exact h.home hclear
        · exact fun _ ho => by cases ho
        · rw [holder?_declareVariable hd', if_pos ⟨hname, hatt'⟩, hn', Option.none_or]
          exact ⟨_, rfl, hc'⟩
      · exact .inr hfault
  · -- nothing is declared for the function under this name but the binding
    obtain ⟨_, _, hk, _⟩ := hb.declares hd hg hname (hseat.trans hc)
    cases hk

/-- The own name of a function expression is met. -/
theorem callee (h : Confined D b own d d') (hb : D.Lone n i b) (hd : d.Sound) (hd' : d'.Sound)
    {name : Ident} {ready : Offset} {problem : Option ScopeFault}
    (hseat : d.graph.nearestFunction d.current = d.current)
    (hm : d.step (.callee name ready problem) = .ok m) (hg : m.Grows D) :
    (∃ m', d'.step (.callee name ready problem) = .ok m' ∧
        Confined D b (own || (d.current == b.scope && name.text == b.name)) m m') ∨
      ∃ f, problem = some f ∧ d'.step (.callee name ready problem) = .error f := by
  by_cases hname : name.text = b.name
  · by_cases hc : d.current = b.scope
    · rw [hc, hname, beq_self_eq_true, beq_self_eq_true, Bool.and_self, Bool.or_true]
      exact h.calleeOwner hb hd hd' hseat hname hc hm hg
    · -- in the scope of another function the two sides hold the same
      rw [beq_false_of_ne hc, Bool.false_and, Bool.or_false]
      have hgd : d.Grows D := (grows_step hm).trans hg
      have hhome : d.current ≠ b.first.scope := by
        intro he
        rw [hb.scope_eq hb.sound, ← he, hgd.nearestFunction hd.current, hseat] at hc
        exact hc rfl
      have hsame := h.elsewhere d.current hhome hc
      have hcases := hd'.callee_cases name ready problem
      rw [h.frame.current, hname, hsame] at hcases
      rcases hd.callee_cases name ready problem with ⟨hheld, he⟩ | ⟨hn, ⟨hp, he⟩ | ⟨f, _, he⟩⟩ <;>
        rw [he] at hm <;> cases hm
      · rw [hname] at hheld
        rcases hcases with ⟨_, he'⟩ | ⟨hn', _⟩
        · exact .inl ⟨d', he', h⟩
        · exact absurd hn' hheld
      · rw [hname] at hn
        rcases hcases with ⟨hheld', _⟩ | ⟨_, ⟨_, he'⟩ | ⟨f, hf, _⟩⟩
        · exact absurd hn hheld'
        · refine .inl ⟨_, he', ?_⟩
          have hsite : d'.ownSite name ready = d.ownSite name ready := by
            unfold ownSite
            rw [h.frame.current]
          rw [hsite]
          exact h.declareSame hd hd' hb.sound rfl hg fun _ he => hc (hseat.symm.trans he)
        · rw [hp] at hf; cases hf
  · rw [beq_false_of_ne hname, Bool.and_false, Bool.or_false]
    obtain ⟨hframe, hholder⟩ := hd.callee_other hname hm
    rcases hd'.callee_cases name ready problem with ⟨_, he'⟩ | ⟨_, ⟨_, he'⟩ | hfault⟩
    · obtain ⟨hframe', hholder'⟩ := hd'.callee_other hname he'
      exact .inl ⟨_, he', h.congr (hframe.symm.trans (h.frame.trans hframe')) hholder hholder'⟩
    · obtain ⟨hframe', hholder'⟩ := hd'.callee_other hname he'
      exact .inl ⟨_, he', h.congr (hframe.symm.trans (h.frame.trans hframe')) hholder hholder'⟩
    · exact .inr hfault

/-! ### All events -/

/-- An event outside of `var` statements that is no own name. -/
theorem quiet (h : Confined D b own d d') (hb : D.Lone n i b) (hd : d.Sound) (hd' : d'.Sound)
    {e : Event} (he : e.isPlain = true)
    (hown : ∀ name ready problem, e ≠ .callee name ready problem) (hm : d.step e = .ok m)
    (hg : m.Grows D) :
    ∃ m', d'.step e = .ok m' ∧ Confined D b own m m' := by
  have hf := h.frame
  cases e with
  | openStatement | closeStatement | fault => cases he
  | callee name ready problem => exact absurd rfl (hown name ready problem)
  | enter kind span callable cases =>
    cases hm
    exact ⟨_, rfl, h.congr (hf.openScope kind span callable cases)
      (d.holder?_openScope kind span callable cases b.name)
      (d'.holder?_openScope kind span callable cases b.name)⟩
  | leave =>
    cases hm
    exact ⟨_, rfl, h.congr hf.closeScope (fun _ => rfl) fun _ => rfl⟩
  | declare kind name st hasInit ready unbraced forEach =>
    cases hm
    have hk : kind ≠ .declared .varWord := by rintro rfl; cases he
    refine ⟨_, rfl, ?_⟩
    rw [hf.current]
    exact h.declareSame hd hd' hb.sound rfl hg fun hname hatt =>
      hk (hb.declares hd hg hname hatt).2.2.1
  | refer name kind =>
    cases hm
    refine ⟨_, rfl, h.congr { hf with pending := ?_ } (fun _ => rfl) fun _ => rfl⟩
    rw [hf.pending, hf.current]
  | evalCall name =>
    cases hm
    refine ⟨_, rfl, h.congr { hf with evalCalls := ?_ } (fun _ => rfl) fun _ => rfl⟩
    rw [hf.evalCalls, hf.current]
  | dynamic =>
    cases hm
    refine ⟨_, rfl, h.congr { hf with dynamic := ?_ } (fun _ => rfl) fun _ => rfl⟩
    rw [hf.dynamic, hf.current]
  | thisUse =>
    cases hm
    refine ⟨_, rfl, ?_⟩
    rw [Mirrors.thisIsGlobal_eq hf]
    split
    · exact h.congr { hf with globalReach := rfl } (fun _ => rfl) fun _ => rfl
    · exact h

/-- An event outside of `var` statements. -/
theorem step (h : Confined D b own d d') (hb : D.Lone n i b) (hd : d.Sound) (hd' : d'.Sound)
    {e : Event} (he : e.isPlain = true)
    (hseat : ∀ name ready problem, e = .callee name ready problem →
      d.graph.nearestFunction d.current = d.current) (hm : d.step e = .ok m) (hg : m.Grows D) :
    (∃ m', d'.step e = .ok m' ∧
        Confined D b (own || (d.current == b.scope && e.isOwnName b.name)) m m') ∨
      ∃ name ready f, e = .callee name ready (some f) ∧ d'.step e = .error f := by
  by_cases hown : ∃ name ready problem, e = .callee name ready problem
  · obtain ⟨name, ready, problem, rfl⟩ := hown
    rcases h.callee hb hd hd' (hseat name ready problem rfl) hm hg with hok | ⟨f, rfl, hfault⟩
    · exact .inl hok
    · exact .inr ⟨name, ready, f, rfl, hfault⟩
  · have hother : ∀ name ready problem, e ≠ .callee name ready problem :=
      fun name ready problem hc => hown ⟨name, ready, problem, hc⟩
    have hnot : e.isOwnName b.name = false := by
      unfold Event.isOwnName
      split
      · exact absurd rfl (hother _ _ _)
      · rfl
    rw [hnot, Bool.and_false, Bool.or_false]
    exact .inl (h.quiet hb hd hd' he hother hm hg)

/-- The second script has been read with the binding confined, or the own name of a function
expression was misplaced. -/
abbrev Reached (D : Draft) (b : Binding) (own : Bool) :=
  Mirrors.Followed fun D' => D'.Sound ∧ Confined D b own D D'

/-- The two scripts are read in step. -/
theorem steps {t t' : Event.Tally} {es es' : List Event}
    (hr : Event.Rekeyed (confiningKey n) t es es' t') (h : Confined D b own d d')
    (hb : D.Lone n i b) (hfiled : Filed t d) (hd : d.Sound) (hd' : d'.Sound)
    (hseat : d.Seated es) (hs : d.steps es = .ok D) :
    Reached D b (own || meetsOwnName b.scope b.name d es) es (d'.steps es') := by
  induction hr generalizing own d d' with
  | nil =>
    cases hs
    rw [meetsOwnName, Bool.or_false]
    exact .inl ⟨d', rfl, hd', h⟩
  | same he _ ih =>
    obtain ⟨m, hm, hs⟩ := steps_cons_ok.mp hs
    rw [meetsOwnName_cons hm, ← Bool.or_assoc]
    rcases h.step hb hd hd' he hseat.1 hm (grows_steps hs) with
      ⟨m', hm', hmir⟩ | ⟨name, ready, f, rfl, hf⟩
    · obtain ⟨h₁, h₂⟩ := step_statements he hm
      exact .cons hm' (ih hmir (hfiled.congr h₁ h₂) (hd.step hm) (hd'.step hm') (hseat.2 m hm) hs)
    · exact .inr ⟨name, ready, f, List.mem_cons_self, by rw [steps_cons, hf]; rfl⟩
  | opened s k _ ih =>
    obtain ⟨m, hm, hs⟩ := steps_cons_ok.mp hs
    have hsound := hd.step hm
    have hseat' := hseat.2 m hm
    rw [meetsOwnName_skip hm rfl]
    cases hm
    exact .cons rfl (ih (h.congr { h.frame with } (fun _ => rfl) fun _ => rfl) (hfiled.opened s k)
      hsound (hd'.step (e := .openStatement (s.withKeyword k)) rfl) hseat' hs)
  | closed _ ih =>
    obtain ⟨m, hm, hs⟩ := steps_cons_ok.mp hs
    have hsound := hd.step hm
    have hseat' := hseat.2 m hm
    rw [meetsOwnName_skip hm rfl]
    cases hm
    exact .cons rfl (ih (h.congr { h.frame with } (fun _ => rfl) fun _ => rfl) hfiled.closed
      hsound (hd'.step (e := .closeStatement) rfl) hseat' hs)
  | first hk _ ih =>
    obtain ⟨m, hm, hs⟩ := steps_cons_ok.mp hs
    have hsound := hd.step hm
    have hseat' := hseat.2 m hm
    rw [meetsOwnName_skip hm rfl]
    cases hm
    obtain ⟨hfiled', he⟩ := hfiled.first hk _
    have hc := h.frame.current
    have hm' := h.declareVar hb hd hd' rfl rfl hk (grows_steps hs)
      ⟨_, he, List.mem_singleton.mpr rfl⟩
    exact .cons (by rw [Mirrors.step_declare, hc]; rfl)
      (ih hm' hfiled' hsound (hd'.declareVariable _ hc.symm) hseat' hs)
  | later hk _ ih =>
    obtain ⟨m, hm, hs⟩ := steps_cons_ok.mp hs
    have hsound := hd.step hm
    have hseat' := hseat.2 m hm
    rw [meetsOwnName_skip hm rfl]
    cases hm
    obtain ⟨hfiled', e, he, _, hmem⟩ := hfiled.later _
    have hc := h.frame.current
    have hm' := h.declareVar hb hd hd' rfl rfl hk (grows_steps hs) ⟨e, he, hmem⟩
    exact .cons (by rw [Mirrors.step_declare, hc]; rfl)
      (ih hm' hfiled' hsound (hd'.declareVariable _ hc.symm) hseat' hs)

/-- At the start of a script no scope holds anything. -/
theorem start (D : Draft) (b : Binding) (span : Span) :
    Confined D b false (({} : Draft).openScope .program span none [])
      (({} : Draft).openScope .program span none []) where
  frame := .refl _
  elsewhere _ _ _ := rfl
  home _ := by rw [holder?_openScope, holder?_openScope]; rfl
  unnamed _ _ := by rw [holder?_openScope]; rfl
  named _ ho := by cases ho

/-! ### Lookups -/

section Lookups

variable {D' : Draft}

/-- In the block a use finds the `let`. -/
theorem lookup_home (h : Confined D b own D D') (hb : D.Lone n i b) (hD' : D'.Sound)
    (hi : D.graph.lookup b.name s = some i) (hw : D.graph.isWithin s b.first.scope = true) :
    ∃ j b', D'.graph.lookup b.name s = some j ∧ D'.binding? j = some b' ∧
      b'.first = b.first.withKeyword .letWord := by
  have hg := hb.sound.graph
  have hhome := h.home fun hne =>
    hb.sound.holder?_eq_none.mpr (hb.unheld hi hw (hb.isWithin_scope hb.sound) hne)
  have hheld : D.holder? b.name b.scope = some (b.kind, b.first) :=
    holder?_eq_some.mpr ⟨i, b, hb.here hb.sound, hb.binding, rfl, rfl⟩
  rw [hheld, Option.map_some] at hhome
  obtain ⟨j, b', hj, hb', _, hf⟩ := holder?_eq_some.mp hhome
  refine ⟨j, b', ?_, hb', hf⟩
  rw [← hD'.graph.lookup_of_here hj]
  refine hD'.graph.lookup_of_path ?_ fun t ht => ?_
  · rw [Graph.isWithin_of_outlines h.frame.outlines]
    exact hw
  · rw [Graph.path_of_outlines h.frame.outlines] at ht
    have hne := Graph.Sound.ne_of_mem_path ht
    obtain ⟨hst, hth⟩ := hg.isWithin_of_mem_path hw ht
    have hno : t ≠ b.scope := by
      rintro rfl
      exact hne (hg.isWithin_antisymm hth (hb.isWithin_scope hb.sound))
    rw [← hD'.holder?_eq_none, h.elsewhere t hne hno, hb.sound.holder?_eq_none]
    exact hb.unheld hi hst (hg.isWithin_trans hth (hb.isWithin_scope hb.sound)) hno

section Away

variable (h : Confined D b own D D') (hb : D.Lone n i b) (hD' : D'.Sound)
  (hi : D.graph.lookup b.name s = some i) (hw : D.graph.isWithin s b.first.scope = false)

include hb hi hw in
theorem home_ne : b.first.scope ≠ b.scope := by
  intro he
  rw [he, hb.isWithin_of_lookup hi] at hw
  cases hw

include h hb hD' hi hw in
/-- Outside of the block a use finds nothing when it would have found nothing without the binding,
unless the function has the name for its own. -/
theorem lookup_away : D'.graph.lookup b.name s = none ↔
    D.graph.lookupWithout b.name s i = none ∧ own = false := by
  have hne := home_ne hb hi hw
  have hsame : ∀ t ∈ D.graph.ancestors s, t ≠ b.scope →
      (D'.graph.here? b.name t = none ↔ D.graph.here? b.name t = none) := by
    intro t ht hto
    have hth : t ≠ b.first.scope := by
      rintro rfl
      rw [Graph.Sound.isWithin_iff.mpr ht] at hw
      cases hw
    rw [← hD'.holder?_eq_none, h.elsewhere t hth hto, hb.sound.holder?_eq_none]
  unfold Graph.lookup Graph.lookupWithout
  rw [List.findSome?_eq_none_iff, List.findSome?_eq_none_iff,
    Graph.ancestors_of_outlines h.frame.outlines]
  constructor
  · refine fun hall => ⟨fun t ht => ?_, ?_⟩
    · by_cases hto : t = b.scope
      · rw [hto, hb.here hb.sound]
        simp
      · rw [(hsame t ht hto).mp (hall t ht)]
        rfl
    · cases own with
      | false => rfl
      | true =>
        obtain ⟨site, hs, _⟩ := h.named hne rfl
        have hnone := hall b.scope (Graph.Sound.isWithin_iff.mp (hb.isWithin_of_lookup hi))
        rw [← hD'.holder?_eq_none, hs] at hnone
        cases hnone
  · rintro ⟨hall, rfl⟩ t ht
    by_cases hto : t = b.scope
    · rw [hto, ← hD'.holder?_eq_none]
      exact h.unnamed hne rfl
    · rw [hsame t ht hto]
      cases hj : D.graph.here? b.name t with
      | none => rfl
      | some j =>
        have hji := hall t ht
        rw [hj, Option.filter_eq_none_iff] at hji
        have hij : j = i := by simpa using hji j rfl
        exact absurd (hb.scope_of_here hb.sound (hij ▸ hj)).2 hto

include h hb hD' hi hw in
/-- Outside of the block no use finds the `let`. -/
theorem first_ne_away {j : BindingId} {b' : Binding} (hj : D'.graph.lookup b.name s = some j)
    (hb' : D'.binding? j = some b') : b'.first ≠ b.first.withKeyword .letWord := by
  intro hf
  have hne := home_ne hb hi hw
  obtain ⟨t, ht, hhere⟩ := hD'.graph.exists_here_of_lookup hj
  obtain ⟨c, hc, _, hscope⟩ := hD'.held hhere
  rw [hb'] at hc
  cases hc
  have hfirst : b'.first.scope = b.first.scope := by rw [hf]; rfl
  obtain ⟨_, _, howner⟩ := hD'.sites hb' b'.first List.mem_cons_self
  rw [hscope, Graph.owner, hfirst, Graph.nearestFunction_of_outlines h.frame.outlines,
    ← hb.scope_eq hb.sound] at howner
  split at howner
  · -- the function holds its own name only
    rw [howner] at hhere
    have hheld : D'.holder? b.name b.scope = some (b'.kind, b'.first) :=
      holder?_eq_some.mpr ⟨j, b', hhere, hb', rfl, rfl⟩
    cases own with
    | false => rw [h.unnamed hne rfl] at hheld; cases hheld
    | true =>
      obtain ⟨site, hsite, hs⟩ := h.named hne rfl
      have heq : site = b'.first := congrArg Prod.snd (Option.some.inj (hsite.symm.trans hheld))
      exact hne (hfirst.symm.trans (heq ▸ hs))
  · rw [howner, Graph.isWithin_of_outlines h.frame.outlines, hw] at ht
    cases ht

end Away

end Lookups

end Confined

/-! ### Finished tables -/

theorem mem_finish_free (hfree : d.table.free = []) {r : Reference} (hr : r ∈ d.pending) :
    r ∈ d.finish.table.free ↔ d.graph.lookup r.name.text r.scope = none := by
  rw [finish_free, hfree, List.nil_append, mem_inOrder, freeUses, List.mem_filter,
    Option.isNone_iff_eq_none, and_iff_right hr]

end Draft

/-- A use of a name finds a declaration. -/
def Scoping.Finds (s : Scoping) (r : Reference) (site : Site) : Prop :=
  ∃ b ∈ s.table.bindings, r ∈ b.references ∧ b.first = site

namespace Draft

variable {d : Draft}

theorem finish_finds (hd : d.Sound) {r : Reference} (hr : r ∈ d.pending) (site : Site) :
    d.finish.Finds r site ↔ ∃ j b, d.graph.lookup r.name.text r.scope = some j ∧
      d.binding? j = some b ∧ b.first = site := by
  constructor
  · rintro ⟨b', hb', hmem, hf⟩
    obtain ⟨j, hj⟩ := List.mem_iff_getElem?.mp hb'
    obtain ⟨b, _, hb, rfl, _⟩ := binding_of_finish hj
    rw [mem_inOrder, (hd.bare hb).1, List.nil_append, usesOf, List.mem_filter] at hmem
    exact ⟨j, b, eq_of_beq hmem.2, hb, hf⟩
  · rintro ⟨j, b, hj, hb, hf⟩
    obtain ⟨_, hfin, _⟩ := finish_binding hb
    refine ⟨_, List.mem_of_getElem? hfin, ?_, hf⟩
    rw [mem_inOrder]
    exact List.mem_append_right _ (List.mem_filter.mpr ⟨hr, beq_iff_eq.mpr hj⟩)

end Draft

namespace Scoping

variable {s : Scoping} {i : BindingId} {b : Binding} {r : Reference}

theorem stray_eq_free :
    s.stray i b r = .free ↔ s.graph.lookupWithout b.name r.scope i = none := by
  unfold stray
  split <;> simp [*]

theorem stray_eq_change :
    s.stray i b r = .scopeResolutionChange ↔ s.graph.lookupWithout b.name r.scope i ≠ none := by
  unfold stray
  split <;> simp [*]

end Scoping

/-- What becomes of a use of a `var` once its statement is a `let` statement and the script is read
again. Whether the function around has the name for its own is `own`. -/
structure Scoping.Foretells (s s' : Scoping) (i : BindingId) (b : Binding) (own : Bool)
    (r : Reference) : Prop where
  free : r ∈ s'.table.free ↔
    s.graph.isWithin r.scope b.first.scope = false ∧ s.stray i b r = .free ∧ own = false
  moved : (∃ site, site ≠ b.first.withKeyword .letWord ∧ s'.Finds r site) ↔
    s.graph.isWithin r.scope b.first.scope = false ∧
      (s.stray i b r = .scopeResolutionChange ∨ own = true)
  kept : s'.Finds r (b.first.withKeyword .letWord) ↔
    s.graph.isWithin r.scope b.first.scope = true

namespace Draft

variable {D D' : Draft} {n : Nat} {i : BindingId} {b : Binding} {own : Bool}

/-- The uses of the binding find what is foretold. -/
theorem Confined.foretells (h : Confined D b own D D') (hb : D.Lone n i b) (hD' : D'.Sound)
    (hfree : D.table.free = []) {r : Reference} (hr : r ∈ D.usesOf i) :
    D.finish.Foretells D'.finish i b own r := by
  obtain ⟨hpending, hi⟩ := List.mem_filter.mp hr
  replace hi := eq_of_beq hi
  obtain ⟨t, _, hhere⟩ := hb.sound.graph.exists_here_of_lookup hi
  have hpending' : r ∈ D'.pending := h.frame.pending ▸ hpending
  have hfree' := mem_finish_free (h.frame.free.trans hfree) hpending'
  have hfinds := finish_finds hD' hpending'
  rw [(hb.scope_of_here hb.sound hhere).1] at hi hfree' hfinds
  cases hw : D.graph.isWithin r.scope b.first.scope with
  | true =>
    obtain ⟨j, b', hj, hb', hf⟩ := h.lookup_home hb hD' hi hw
    constructor <;> rw [finish_graph, hw]
    case free => simp [hfree', hj]
    case moved =>
      refine iff_of_false ?_ fun hc => Bool.noConfusion hc.1
      rintro ⟨site, hne, hfind⟩
      obtain ⟨j', b'', hj', hb'', rfl⟩ := (hfinds site).mp hfind
      cases hj.symm.trans hj'
      cases hb'.symm.trans hb''
      exact hne hf
    case kept => exact iff_of_true ((hfinds _).mpr ⟨j, b', hj, hb', hf⟩) rfl
  | false =>
    have haway := h.lookup_away hb hD' hi hw
    constructor <;> rw [finish_graph, hw]
    case free =>
      rw [hfree', haway, Scoping.stray_eq_free, finish_graph]
      simp
    case moved =>
      rw [Scoping.stray_eq_change, finish_graph, and_iff_right rfl]
      have hsome : D'.graph.lookup b.name r.scope ≠ none ↔
          D.graph.lookupWithout b.name r.scope i ≠ none ∨ own = true := by
        rw [ne_eq, haway, not_and_or, Bool.not_eq_false]
      rw [← hsome]
      constructor
      · rintro ⟨site, _, hfind⟩
        obtain ⟨j, _, hj, _⟩ := (hfinds site).mp hfind
        rw [hj]
        exact Option.some_ne_none j
      · intro hne
        obtain ⟨j, hj⟩ := Option.ne_none_iff_exists'.mp hne
        obtain ⟨t', _, hhere'⟩ := hD'.graph.exists_here_of_lookup hj
        obtain ⟨b', hb', _⟩ := hD'.held hhere'
        exact ⟨b'.first, h.first_ne_away hb hD' hi hw hj hb', (hfinds _).mpr ⟨j, b', hj, hb', rfl⟩⟩
    case kept =>
      refine iff_of_false (fun hfind => ?_) Bool.false_ne_true
      obtain ⟨j, b', hj, hb', hf⟩ := (hfinds _).mp hfind
      exact h.first_ne_away hb hD' hi hw hj hb' hf

/-- A `var` of a script with one declaration and nothing else that claims its name. -/
theorem exists_lone {script : Node} (h : Draft.steps {} (Event.ofScript script) = .ok D)
    (hb : D.binding? i = some b) (hk : b.kind = .declared .varWord) (ho : b.others = [])
    (hu : .duplicateBlockBinding ∉ b.hazards) :
    ∃ n e, D.table.statements[n]? = some e ∧ b.first.statement = some e.statement ∧
      i ∈ e.members ∧ D.Lone n i b := by
  obtain ⟨e, hmem, hst, hi⟩ := exists_entry_ofScript h hb hk
  obtain ⟨n, he⟩ := List.mem_iff_getElem?.mp hmem
  have hone : D.listed i ≤ 1 := by
    have := enrolled_ofScript h hb
    rwa [Binding.sites, ho] at this
  refine ⟨n, e, he, hst, hi, ⟨hb, hk, ho, hu⟩, sound_ofScript h, fun he' hi' => ?_,
    fun he' j hj c hc => ?_⟩
  · exact number_eq_of_listed_once hone he' he hi' hi
  · rw [he] at he'
    cases he'
    exact joint_ofScript h hmem hj hi hc hb

/-- The last drafts of a script and of the one with the binding confined. -/
theorem Lone.reached {script : Node} (hb : D.Lone n i b)
    (h : Draft.steps {} (Event.ofScript script) = .ok D) :
    Confined.Reached D b (script.hasOwnName b.scope b.name) (Event.ofScript script)
      (Draft.steps {} (Event.ofScript (script.confine n))) := by
  obtain ⟨m, hm, hbody⟩ := steps_cons_ok.mp h
  have hseat := (Event.ofScript_nested script hm hbody).1
  obtain ⟨hscript', hr⟩ :=
    Event.ofScript_rekeyed (confiningKey n) script (fault_not_mem_steps hbody)
  have hown : script.hasOwnName b.scope b.name = _ := meetsOwnName_skip hm rfl _
  cases hm
  have hsound := Sound.start script.span
  have hrun := (Confined.start D b script.span).steps hr hb (Filed.start script.span) hsound hsound
    hseat hbody
  rw [Bool.false_or] at hrun
  rw [hown, Node.confine, hscript']
  exact .cons rfl hrun

end Draft

/-- A script with a `var` confined is read as a script. -/
theorem Scoping.ofScript_confine {script : Node} {s : Scoping} (n : Nat)
    (h : Scoping.ofScript script = .ok s) : Scoping.ofScript (script.confine n) =
      (Draft.steps {} (Event.ofScript (script.confine n))).map Draft.finish := by
  cases script with
  | program => rfl
  | _ => cases h

/-- **The lookup without a binding foretells where the uses go, but for own names.** A `var` with
one declaration, whose name nothing else claims, is a member of one statement. Once this is a `let`
statement, every use of the `var` goes where it was foretold, unless the function around is a
function expression with the name for its own: then the uses outside of the block find that name.
The script can be read again but for the own name of a function expression that stands outside of
the function's text. -/
theorem Scoping.stray_foretells {script : Node} {s : Scoping} (h : Scoping.ofScript script = .ok s)
    {i : BindingId} {b : Binding} (hb : s.table.bindings[i]? = some b)
    (hk : b.kind = .declared .varWord) (ho : b.others = [])
    (hu : .duplicateBlockBinding ∉ b.hazards) :
    ∃ n e, s.table.statements[n]? = some e ∧ b.first.statement = some e.statement ∧
      (∀ k e', s.table.statements[k]? = some e' → (i ∈ e'.members ↔ k = n)) ∧
      ((∃ s', Scoping.ofScript (script.confine n) = .ok s' ∧ ∀ r ∈ b.references,
          s.Foretells s' i b (script.hasOwnName b.scope b.name) r) ∨
        ∃ f, Event.Misplaced script f ∧ Scoping.ofScript (script.confine n) = .error f) := by
  obtain ⟨d, hd, rfl⟩ := Scoping.ofScript_ok h
  obtain ⟨b₀, hazards, hb₀, rfl, hm⟩ := Draft.binding_of_finish hb
  obtain ⟨n, e, he, hst, hi, hlone⟩ :=
    Draft.exists_lone hd hb₀ hk ho fun hx => hu ((hm _).mpr (.inl hx))
  rw [d.finish_statements]
  refine ⟨n, e, he, hst, fun k e' he' => ⟨fun hi' => hlone.number he' hi', ?_⟩, ?_⟩
  · rintro rfl
    cases he.symm.trans he'
    exact hi
  · rw [Scoping.ofScript_confine n h]
    rcases hlone.reached hd with ⟨d', hd', hsound', hconf⟩ | ⟨name, ready, f, hf, hd'⟩ <;> rw [hd']
    · refine .inl ⟨_, rfl, fun r hr => ?_⟩
      rw [Draft.mem_inOrder, (hlone.sound.bare hb₀).1, List.nil_append] at hr
      have hfree : d.table.free = [] := Draft.free_steps hd
      obtain ⟨free, moved, kept⟩ := hconf.foretells hlone hsound' hfree hr
      exact ⟨free, moved, kept⟩
    · exact .inr ⟨f, ⟨name, ready, hf⟩, rfl⟩

/-- `(function (x) { (function () { { var x; } x; }); });`. -/
def shadowingScript : Node :=
  let inside : List Node :=
    [.block [.varDecl .varWord [.declarator ⟨"x", .of 38 39⟩ .absent (.of 38 39)] (.of 34 40)]
        (.of 32 42),
      .exprStmt (.lookup ⟨"x", .of 43 44⟩) (.of 43 45)]
  .program [.exprStmt (.function .expression none [⟨"x", .of 11 12⟩]
    [.exprStmt (.function .expression none [] inside false (.of 17 47)) (.of 16 49)] false
    (.of 1 51)) (.of 0 53)] (.of 0 53)

theorem stray_foretells_shadowingScript :
    ∃ s b s', Scoping.ofScript shadowingScript = .ok s ∧ s.table.bindings[1]? = some b ∧
      b.kind = .declared .varWord ∧ b.others = [] ∧ .duplicateBlockBinding ∉ b.hazards ∧
      Scoping.ofScript (shadowingScript.confine 0) = .ok s' ∧
      ∃ r ∈ b.references, s.Foretells s' 1 b false r ∧
        ∃ site, site ≠ b.first.withKeyword .letWord ∧ s'.Finds r site := by
  obtain ⟨s, hs, hfacts⟩ := exists_ok_of_any
    (show (Scoping.ofScript shadowingScript).toOption.any (fun s =>
        decide (s.table.statements.length = 1) && s.table.bindings[1]?.any fun b =>
          decide (b.kind = .declared .varWord ∧ b.others = [] ∧
            .duplicateBlockBinding ∉ b.hazards ∧
            shadowingScript.hasOwnName b.scope b.name = false ∧
            ∃ r ∈ b.references, s.graph.isWithin r.scope b.first.scope = false ∧
              s.stray 1 b r = .scopeResolutionChange)) = true by decide +kernel)
  rw [Bool.and_eq_true, Option.any_eq_true_iff_get] at hfacts
  obtain ⟨hlength, hsome, hfacts⟩ := hfacts
  have hb := (Option.some_get hsome).symm
  obtain ⟨hk, ho, hu, hown, r, hr, hw, hstray⟩ := of_decide_eq_true hfacts
  obtain ⟨n, e, he, _, _, hread⟩ := Scoping.stray_foretells hs hb hk ho hu
  have hn : n = 0 := by
    have hlt := (List.getElem?_eq_some_iff.mp he).1
    rw [of_decide_eq_true hlength] at hlt
    exact Nat.lt_one_iff.mp hlt
  subst hn
  obtain ⟨s₁, hs₁, _⟩ := exists_ok_of_any
    (show (Scoping.ofScript (shadowingScript.confine 0)).toOption.any (fun _ => true) = true by
      decide +kernel)
  rcases hread with ⟨s', hs', hall⟩ | ⟨f, _, hf⟩
  · have hforetold := hall r hr
    rw [hown] at hforetold
    exact ⟨s, _, s', hs, hb, hk, ho, hu, hs', r, hr, hforetold,
      hforetold.moved.mpr ⟨hw, .inl hstray⟩⟩
  · rw [hs₁] at hf
    cases hf

/-- `(function f() { { var f; } f; });`. -/
def namesakeScript : Node :=
  let inside : List Node :=
    [.block [.varDecl .varWord [.declarator ⟨"f", .of 22 23⟩ .absent (.of 22 23)] (.of 18 24)]
        (.of 16 26),
      .exprStmt (.lookup ⟨"f", .of 27 28⟩) (.of 27 29)]
  .program [.exprStmt (.function .expression (some ⟨"f", .of 10 11⟩) [] inside false (.of 1 31))
    (.of 0 33)] (.of 0 33)

/-- The use after the block is foretold to be free, and finds the own name of the function. -/
theorem namesakeScript_unforeseen :
    ∃ s b s', Scoping.ofScript namesakeScript = .ok s ∧ s.table.bindings[0]? = some b ∧
      b.kind = .declared .varWord ∧ b.others = [] ∧ .duplicateBlockBinding ∉ b.hazards ∧
      Scoping.ofScript (namesakeScript.confine 0) = .ok s' ∧ s'.table.free = [] ∧
      ∃ r ∈ b.references, s.stray 0 b r = .free ∧
        ∃ b' ∈ s'.table.bindings, b'.kind = .callee ∧ r ∈ b'.references := by
  obtain ⟨s, hs, hfacts⟩ := exists_ok_of_any
    (show (Scoping.ofScript namesakeScript).toOption.any (fun s => s.table.bindings[0]?.any fun b =>
        decide (b.kind = .declared .varWord ∧ b.others = [] ∧
          .duplicateBlockBinding ∉ b.hazards ∧ ⟨⟨"f", .of 27 28⟩, 1, .read⟩ ∈ b.references ∧
          s.stray 0 b ⟨⟨"f", .of 27 28⟩, 1, .read⟩ = .free)) = true by decide +kernel)
  rw [Option.any_eq_true_iff_get] at hfacts
  obtain ⟨hsome, hfacts⟩ := hfacts
  obtain ⟨hk, ho, hu, hr, hstray⟩ := of_decide_eq_true hfacts
  obtain ⟨s', hs', hfacts'⟩ := exists_ok_of_any
    (show (Scoping.ofScript (namesakeScript.confine 0)).toOption.any (fun s =>
        decide (s.table.free = [] ∧ ∃ b ∈ s.table.bindings, b.kind = .callee ∧
          ⟨⟨"f", .of 27 28⟩, 1, .read⟩ ∈ b.references)) = true by decide +kernel)
  obtain ⟨hfree, hfound⟩ := of_decide_eq_true hfacts'
  exact ⟨s, _, s', hs, (Option.some_get hsome).symm, hk, ho, hu, hs', hfree, _, hr, hstray, hfound⟩

end ScopeLowering
