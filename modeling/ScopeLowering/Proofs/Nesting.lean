import ScopeLowering.Proofs.Consistency
import ScopeLowering.Proofs.Layout

/-!
# Nested scopes

The events of a node close every scope that they open. So the own name of a function expression is
met in the scope of the function (`Seated`), and the name through which a function can be called is
declared or used right where the function stands (`Handled`).

## The model

A function that is stored in a name as soon as it is made has that name for a handle. The name is
not met among the events of the function itself but next to them, in the declarator or assignment
around it. So `Nested` has a parameter: the name, if there is one, that is still *owed* to the
functions which stand directly in the scope at hand.
-/

namespace ScopeLowering

namespace Draft

/-! ### Handles -/

/-- The name is declared or used directly in the scope. -/
def Mentioned (d : Draft) (name : String) (s : ScopeId) : Prop :=
  (∃ r ∈ d.pending, r.name.text = name ∧ r.scope = s) ∨
    ∃ i b, d.binding? i = some b ∧ ∃ site ∈ b.sites, site.name.text = name ∧ site.scope = s

/-- The scope is that of a function which stands in `outer` and has `name` for a handle. -/
def HasHandle (d : Draft) (f : ScopeId) (name : String) (outer : ScopeId) : Prop :=
  ∃ o, d.graph.outlines[f]? = some o ∧ o.parent = some outer ∧
    (o.callable.bind (·.handle)).map (·.text) = some name

/-- The handle of a function is declared or used right where the function stands. -/
def Handled (d : Draft) (f : ScopeId) : Prop :=
  ∀ name outer, d.HasHandle f name outer → d.Mentioned name outer

variable {d d' : Draft}

theorem Mentioned.grows {name : String} {s : ScopeId} (h : d.Mentioned name s) (hg : d.Grows d') :
    d'.Mentioned name s := by
  rcases h with ⟨r, hr, hn, hs⟩ | ⟨i, b, hb, site, hsite, hn, hs⟩
  · exact .inl ⟨r, hg.pending.subset hr, hn, hs⟩
  · obtain ⟨b', hb', hgb⟩ := hg.binding hb
    exact .inr ⟨i, b', hb', site, hgb.sites hsite, hn, hs⟩

theorem HasHandle.of_grows {f : ScopeId} {name : String} {outer : ScopeId} (hg : d.Grows d')
    (hf : f < d.graph.size) (h : d'.HasHandle f name outer) : d.HasHandle f name outer := by
  obtain ⟨o, ho, h⟩ := h
  rw [hg.outline hf] at ho
  exact ⟨o, ho, h⟩

theorem Handled.grows {f : ScopeId} (h : d.Handled f) (hg : d.Grows d') (hf : f < d.graph.size) :
    d'.Handled f :=
  fun name outer hh => (h name outer (hh.of_grows hg hf)).grows hg

/-! ### Function expressions -/

/-- The own name of a function expression is met in the scope of a function. -/
def Seated (d : Draft) : List Event → Prop
  | [] => True
  | e :: es =>
    (∀ name ready problem, e = .callee name ready problem →
      d.graph.nearestFunction d.current = d.current) ∧
    ∀ m, d.step e = .ok m → m.Seated es

theorem seated_append {es fs : List Event} :
    d.Seated (es ++ fs) ↔ d.Seated es ∧ ∀ m, d.steps es = .ok m → m.Seated fs := by
  induction es generalizing d with
  | nil =>
    constructor
    · refine fun h => ⟨trivial, fun m hm => ?_⟩
      cases hm
      exact h
    · exact fun h => h.2 d rfl
  | cons e es ih =>
    constructor
    · rintro ⟨he, h⟩
      refine ⟨⟨he, fun m hm => (ih.mp (h m hm)).1⟩, fun m hm => ?_⟩
      obtain ⟨x, hx, hm⟩ := steps_cons_ok.mp hm
      exact (ih.mp (h x hx)).2 m hm
    · rintro ⟨⟨he, h⟩, h'⟩
      refine ⟨he, fun m hm => ih.mpr ⟨h m hm, fun x hx => ?_⟩⟩
      exact h' x (steps_cons_ok.mpr ⟨m, hm, hx⟩)

/-! ### Nested events -/

/-- The scopes that open among the events are closed again, and their handles are met, but for those
owed to the functions that stand directly in the current scope. -/
def Nested (owed : Option String) (es : List Event) : Prop :=
  ∀ d : Draft, d.Sound → d.Seated es ∧ ∀ d', d.steps es = .ok d' → d'.current = d.current ∧
    ∀ f, d.graph.size ≤ f → f < d'.graph.size →
      d'.Handled f ∨ ∃ name, owed = some name ∧ d'.HasHandle f name d.current

/-- A declaration is listed by the binding it feeds. -/
theorem declareVariable_site (h : d.Sound) (kind : BindingKind) (site : Site) :
    ∃ i b, (d.declareVariable kind site).binding? i = some b ∧ site ∈ b.sites := by
  obtain ⟨b, hb, hsite, _⟩ := h.declare_site kind site
  have hg := (grows_mark (d.declare kind site).1 (d.declare kind site).2 site).trans
    (grows_record _ kind (d.declare kind site).2 site)
  obtain ⟨b', hb', hgb⟩ := hg.binding hb
  exact ⟨_, b', hb', hgb.sites hsite⟩

namespace Nested

variable {es fs : List Event} {owed : Option String}

theorem nil : Nested owed [] := by
  refine fun d _ => ⟨trivial, fun d' h => ?_⟩
  cases h
  exact ⟨rfl, fun f hf hf' => absurd hf' (Nat.not_lt.mpr hf)⟩

theorem weaken (h : Nested none es) : Nested owed es := by
  intro d hd
  obtain ⟨hs, h⟩ := h d hd
  refine ⟨hs, fun d' hd' => ?_⟩
  obtain ⟨hc, hf⟩ := h d' hd'
  refine ⟨hc, fun f hlo hhi => ?_⟩
  rcases hf f hlo hhi with h | ⟨name, h, _⟩
  · exact .inl h
  · cases h

theorem append (h : Nested owed es) (h' : Nested owed fs) : Nested owed (es ++ fs) := by
  intro d hd
  obtain ⟨hs, h⟩ := h d hd
  refine ⟨seated_append.mpr ⟨hs, fun m hm => (h' m (hd.steps hm)).1⟩, fun d' hd' => ?_⟩
  obtain ⟨m, hm, hfs⟩ := steps_append_ok.mp hd'
  obtain ⟨hc, hf⟩ := h m hm
  obtain ⟨hc', hf'⟩ := (h' m (hd.steps hm)).2 d' hfs
  refine ⟨hc'.trans hc, fun f hlo hhi => ?_⟩
  have hg := grows_steps hfs
  rcases Nat.lt_or_ge f m.graph.size with hlt | hge
  · rcases hf f hlo hlt with hh | ⟨name, ho, o, hout, hrest⟩
    · exact .inl (hh.grows hg hlt)
    · exact .inr ⟨name, ho, o, (hg.outline hlt).trans hout, hrest⟩
  · rw [← hc]
    exact hf' f hge hhi

/-! ### Single events -/

/-- Does the event leave the scopes alone? -/
@[reducible] def isFlat : Event → Bool
  | .enter .. | .leave | .callee .. => false
  | _ => true

theorem flat {e : Event} (he : isFlat e = true) : Nested owed [e] := by
  refine fun d _ => ⟨⟨?_, fun _ _ => trivial⟩, fun d' h => ?_⟩
  · rintro name ready problem rfl
    cases he
  · obtain ⟨m, hm, h⟩ := steps_cons_ok.mp h
    cases h
    have hs := SameScopes.of_step (by cases e <;> first | rfl | cases he) hm
    refine ⟨hs.current, fun f hlo hhi => absurd hhi ?_⟩
    rw [Graph.size_of_outlines hs.outlines]
    exact Nat.not_lt.mpr hlo

/-- The name that is owed is met among the events. -/
theorem paid {name : String} (h : Nested (some name) es)
    (hp : ∀ {d d' : Draft}, d.Sound → d.steps es = .ok d' → d'.Mentioned name d.current) :
    Nested owed es := by
  intro d hd
  obtain ⟨hs, h⟩ := h d hd
  refine ⟨hs, fun d' hd' => ?_⟩
  obtain ⟨hc, hf⟩ := h d' hd'
  refine ⟨hc, fun f hlo hhi => .inl ?_⟩
  rcases hf f hlo hhi with hh | ⟨_, ⟨⟩, o, hout, hpar, hhandle⟩
  · exact hh
  · rintro name' outer ⟨o', hout', hpar', hhandle'⟩
    rw [hout] at hout'
    cases hout'
    rw [hpar] at hpar'
    rw [hhandle] at hhandle'
    cases hpar'
    cases hhandle'
    exact hp hd hd'

theorem mentioned_of_declare (hd : d.Sound) {kind : BindingKind} {name : Ident}
    {st : Option Statement} {hasInit unbraced forEach : Bool} {ready : Offset}
    (h : d.step (.declare kind name st hasInit ready unbraced forEach) = .ok d') :
    d'.Mentioned name.text d.current := by
  cases h
  obtain ⟨i, b, hb, hsite⟩ := declareVariable_site hd kind
    { name, statement := st, scope := d.current, hasInit, ready, unbraced, forEach }
  exact .inr ⟨i, b, hb, _, hsite, rfl, rfl⟩

/-- A declaration pays the name that is owed. -/
theorem thenDeclare {name : Ident} (h : Nested (some name.text) es) (kind : BindingKind)
    (st : Option Statement) (hasInit : Bool) (ready : Offset) (unbraced forEach : Bool) :
    Nested owed (es ++ [.declare kind name st hasInit ready unbraced forEach]) := by
  refine (h.append (flat rfl)).paid fun {d d'} hd hs => ?_
  obtain ⟨m, hm, hs⟩ := steps_append_ok.mp hs
  obtain ⟨_, hstep, hnil⟩ := steps_cons_ok.mp hs
  cases hnil
  rw [← ((h d hd).2 m hm).1]
  exact mentioned_of_declare (hd.steps hm) hstep

/-- A declaration pays the name that will be owed. -/
theorem declareFirst {name : Ident} (kind : BindingKind) (st : Option Statement) (hasInit : Bool)
    (ready : Offset) (unbraced forEach : Bool) (h : Nested (some name.text) es) :
    Nested owed (.declare kind name st hasInit ready unbraced forEach :: es) := by
  refine ((flat rfl).append h).paid fun hd hs => ?_
  obtain ⟨m, hm, hs⟩ := steps_cons_ok.mp hs
  exact (mentioned_of_declare hd hm).grows (grows_steps hs)

/-- A use pays the name that is owed. -/
theorem referThen {name : Ident} (kind : RefKind) (h : Nested (some name.text) es) :
    Nested owed (.refer name kind :: es) := by
  refine ((flat rfl).append h).paid fun {d d'} _ hs => ?_
  obtain ⟨m, hm, hs⟩ := steps_cons_ok.mp hs
  cases hm
  refine .inl ⟨⟨name, d.current, kind⟩, (grows_steps hs).pending.subset ?_, rfl, rfl⟩
  exact List.mem_append_right _ (List.mem_singleton.mpr rfl)

/-! ### Scopes -/

/-- Events that are nested when they are met in a scope of some kind. -/
def Inside (kind : ScopeKind) (es : List Event) : Prop :=
  ∀ d : Draft, d.Sound →
    (kind.isFunctionLevel = true → d.graph.nearestFunction d.current = d.current) →
    d.Seated es ∧ ∀ d', d.steps es = .ok d' → d'.current = d.current ∧
      ∀ f, d.graph.size ≤ f → f < d'.graph.size → d'.Handled f

theorem inside (h : Nested none es) (kind : ScopeKind) : Inside kind es := by
  intro d hd _
  obtain ⟨hs, h⟩ := h d hd
  refine ⟨hs, fun d' hd' => ?_⟩
  obtain ⟨hc, hf⟩ := h d' hd'
  refine ⟨hc, fun f hlo hhi => ?_⟩
  rcases hf f hlo hhi with h | ⟨_, h, _⟩
  · exact h
  · cases h

/-- The own name of a function expression comes last in the scope of the function. -/
theorem thenCallee (h : Nested none es) (name : Ident) (ready : Offset)
    (problem : Option ScopeFault) : Inside .function (es ++ [.callee name ready problem]) := by
  intro d hd hfun
  obtain ⟨hs, h⟩ := h.inside .function d hd hfun
  refine ⟨seated_append.mpr ⟨hs, fun m hm => ⟨fun _ _ _ _ => ?_, fun _ _ => trivial⟩⟩,
    fun d' hd' => ?_⟩
  · rw [(h m hm).1, (grows_steps hm).nearestFunction hd.current]
    exact hfun rfl
  · obtain ⟨m, hm, hfs⟩ := steps_append_ok.mp hd'
    obtain ⟨m', hstep, hnil⟩ := steps_cons_ok.mp hfs
    cases hnil
    obtain ⟨hc, hf⟩ := h m hm
    have hg := grows_step hstep
    have hsame := SameScopes.of_step rfl hstep
    refine ⟨hsame.current.trans hc, fun f hlo hhi => ?_⟩
    rw [Graph.size_of_outlines hsame.outlines] at hhi
    exact (hf f hlo hhi).grows hg hhi

/-- A scope with its events in it. Its handle is owed. -/
theorem enclose {kind : ScopeKind} (h : Inside kind es) (span : Span) (callable : Option Callable)
    (cases : List Span) :
    Nested ((callable.bind (·.handle)).map (·.text))
      (.enter kind span callable cases :: es ++ [.leave]) := by
  intro d hd
  have hm := hd.openScope kind span callable cases
  have hsize := Sound.size_openScope d kind span callable cases
  have hpos : 0 < d.graph.size := Nat.zero_lt_of_lt hd.current
  have hnew := d.outline_openScope kind span callable cases
  have hparent : (d.newScope kind span callable cases).parent = some d.current := by
    show (if d.graph.size == 0 then none else some d.current) = _
    rw [if_neg (by rw [beq_iff_eq]; exact Nat.ne_of_gt hpos)]
  have hfun : kind.isFunctionLevel = true →
      (d.openScope kind span callable cases).graph.nearestFunction
        (d.openScope kind span callable cases).current =
      (d.openScope kind span callable cases).current := by
    intro hk
    exact (Sound.nearestFunction_openScope d kind span callable cases).trans (if_pos hk)
  obtain ⟨hs, h⟩ := h _ hm hfun
  refine ⟨⟨(fun _ _ _ he => nomatch he), fun m hstep => ?_⟩, fun d' hd' => ?_⟩
  · cases hstep
    exact seated_append.mpr ⟨hs, fun x _ => ⟨(fun _ _ _ he => nomatch he), fun _ _ => trivial⟩⟩
  · obtain ⟨m, hstep, hes⟩ := steps_cons_ok.mp hd'
    cases hstep
    obtain ⟨x, hx, hleave⟩ := steps_append_ok.mp hes
    obtain ⟨y, hstep, hnil⟩ := steps_cons_ok.mp hleave
    cases hnil
    cases hstep
    obtain ⟨hc, hf⟩ := h x hx
    have hg := grows_steps hx
    have hout : x.graph.outlines[d.graph.size]? = some (d.newScope kind span callable cases) := by
      rw [hg.outline (by rw [hsize]; exact Nat.lt_succ_self _), hnew]
    have hcur : x.current = d.graph.size := hc
    refine ⟨?_, fun f hlo hhi => ?_⟩
    · show (x.graph.parent? x.current).getD 0 = d.current
      rw [hcur, hg.parent? (by rw [hsize]; exact Nat.lt_succ_self _),
        Sound.parent?_openScope hd.current, Option.getD_some]
    · rcases Nat.lt_or_ge d.graph.size f with hlt | hge
      · exact .inl (hf f (by omega) hhi)
      · obtain rfl : f = d.graph.size := Nat.le_antisymm hge hlo
        cases hh : (callable.bind (·.handle)).map (·.text) with
        | none =>
          refine .inl fun name outer hhas => ?_
          obtain ⟨o, ho, _, hn⟩ := hhas
          have hox : x.graph.outlines[d.graph.size]? = some o := ho
          rw [hout] at hox
          cases hox
          exact nomatch hh.symm.trans hn
        | some name => exact .inr ⟨name, rfl, _, hout, hparent, hh⟩

end Nested

end Draft

/-! ### The events of a node -/

/-- The name that is owed to a function in this role. -/
@[reducible] def Role.owed : Role → Option String
  | stored name => some name.text
  | _ => none

namespace Event

open Draft

theorem check_nested {owed : Option String} (n o : Node) : Nested owed (check n o) := by
  unfold check
  cases misplaced? n o with
  | none => exact .nil
  | some f => exact .flat rfl

theorem declareName_nested {owed : Option String} (kind : BindingKind) (name : Ident)
    (ready : Offset) (o : Node) : Nested owed (declareName kind name ready o) :=
  .append (check_nested _ o) (.flat rfl)

theorem flatMap_nested {α : Type} {owed : Option String} {f : α → List Event} {xs : List α}
    (h : ∀ x ∈ xs, Nested owed (f x)) : Nested owed (xs.flatMap f) := by
  induction xs with
  | nil => exact .nil
  | cons x xs ih =>
    obtain ⟨hx, hxs⟩ := List.forall_mem_cons.mp h
    exact hx.append (ih hxs)

theorem if_nested {owed : Option String} {c : Prop} [Decidable c] {es fs : List Event}
    (h : Nested owed es) (h' : Nested owed fs) : Nested owed (if c then es else fs) := by
  split
  · exact h
  · exact h'

theorem evalCalls_nested {owed : Option String} (n : Node) : Nested owed (evalCalls n) := by
  unfold evalCalls
  split
  · exact if_nested (.flat rfl) .nil
  · exact .nil

/-- The events of the node are nested, but for the handle that its role owes. -/
def IsNested (n : Node) : Prop := ∀ p role, Nested role.owed (ofNode p role n)

theorem IsNested.part {n : Node} (h : IsNested n) {role : Role} (hr : role.owed = none)
    {owed : Option String} {p : Place} : Nested owed (ofNode p role n) := (hr ▸ h p role).weaken

theorem IsNested.optional {n : Node} (h : IsNested n) {role : Role} (hr : role.owed = none)
    {owed : Option String} {p : Place} :
    Nested owed (if n.isAbsent then [] else ofNode p role n) := if_nested .nil (h.part hr)

theorem parts_nested {owed : Option String} {ns : List Node} (h : ∀ n ∈ ns, IsNested n)
    {p : Place} : Nested owed (ofNodes p ns) := by
  induction ns with
  | nil => exact .nil
  | cons n rest ih =>
    obtain ⟨hn, hrest⟩ := List.forall_mem_cons.mp h
    exact (hn.optional rfl).append (ih hrest)

theorem declarators_nested {owed : Option String} {ds : List Node}
    (h : ∀ d ∈ ds, ∀ x ∈ d.slots, IsNested x) {p : Place} {st : Statement} {unbraced : Bool}
    {each : Option Offset} : Nested owed (ofDeclarators p st unbraced each ds) := by
  induction ds with
  | nil => exact .nil
  | cons d rest ih =>
    obtain ⟨hd, hrest⟩ := List.forall_mem_cons.mp h
    cases d with
    | declarator name init s =>
      refine .append (.thenDeclare ?_ _ _ _ _ _ _) (ih hrest)
      exact ((check_nested _ _).append (if_nested .nil (hd init (by simp [Node.slots]) p _))).append
        (check_nested _ _)
    | absent => exact .append (.flat rfl) (ih hrest)
    | _ => exact .append ((check_nested _ _).append (.flat rfl)) (ih hrest)

theorem clauseBody_nested {body : Node} (h : ∀ x ∈ body.slots, IsNested x) (ready : Offset)
    (o : Node) : Nested none ((clauseBody body ready o).flatMap Piece.events) := by
  cases body with
  | block xs | program xs | function _ _ _ xs | caseClause _ xs =>
    have hxs : ∀ x ∈ xs, IsNested x := fun x hx => h x (by simp [hx])
    exact (check_nested _ _).append ((parts_nested hxs).append .nil)
  | absent => exact .flat rfl
  | _ => exact ((check_nested _ _).append (.flat rfl)).append .nil

/-- A scope that is no function's, with some pieces in it. -/
theorem room_nested {owed : Option String} {kind : ScopeKind} {span : Span} {cases : List Span}
    (ps : List Piece) (h : Nested none (ps.flatMap Piece.events)) :
    Nested owed ((.own [enter kind span none cases] :: (ps ++ [.own [leave]])).flatMap
      Piece.events) := by
  have hroom : Nested owed _ := (Nested.enclose (h.inside kind) span none cases).weaken
  simpa using hroom

theorem function_nested {xs : List Node} (h : ∀ x ∈ xs, IsNested x) (form : FunctionForm)
    (name : Option Ident) (params : List Ident) (isArrow : Bool) (s : Span) (p : Place)
    (role : Role) : Nested role.owed ((layout p role
      (.function form name params xs isArrow s)).flatMap Piece.events) := by
  have hlead : Nested role.owed _ := check_nested (.function form name params xs isArrow s) p.outer
  have hbody : Nested none _ := (flatMap_nested fun i (_ : i ∈ params) => declareName_nested .param
    i s.start (.function form name params xs isArrow s)).append
    (@parts_nested none xs h ⟨.function form name params xs isArrow s, s.start⟩)
  cases form with
  | declaration =>
    have hroom := Nested.enclose (hbody.inside .function) s
      (some ⟨.declaration, isArrow, handleOf .declaration name role⟩) []
    cases name with
    | none =>
      have hall := hlead.append (.append (.flat rfl : Nested _ [fault .noPart]) (.weaken hroom))
      simpa [layout, Node.span] using hall
    | some i =>
      have hown := hlead.append ((check_nested (.ident i)
        (.function .declaration (some i) params xs isArrow s)).append
        (.declareFirst .function none true p.scopeStart false false hroom))
      simpa [layout, Node.span, declareName] using hown
  | expression =>
    -- the handle of an expression is owed by what stores it
    have howed : (handleOf .expression name role).map (·.text) = role.owed := by cases role <;> rfl
    have hroom : ∀ es, Nested.Inside .function es → Nested role.owed (enter .function s
        (some ⟨.expression, isArrow, handleOf .expression name role⟩) [] :: es ++ [leave]) :=
      fun es h => howed ▸ Nested.enclose h s
        (some ⟨.expression, isArrow, handleOf .expression name role⟩) []
    cases name with
    | none => simpa [layout, Node.span] using hlead.append (hroom _ (hbody.inside .function))
    | some i =>
      have hcallee := hbody.thenCallee i s.start
        (misplaced? (.ident i) (.function .expression (some i) params xs isArrow s))
      simpa [layout, Node.span] using hlead.append (hroom _ hcallee)

/-- The events of a node are nested. -/
theorem ofNode_nested (n : Node) : IsNested n := by
  induction n using Node.byParts with | step n ih ih' =>
  intro p role
  rw [ofNode_eq_layout]
  have hlead : Nested role.owed (check n p.outer) := check_nested n p.outer
  cases n with
  | absent | ident => exact .flat rfl
  | assign op x y s =>
    by_cases hs : ∃ name, x = .lookup name ∧ op.isText "=" = true
    · obtain ⟨name, rfl, hop⟩ := hs
      have hrole : valueRole op (.lookup name) = .stored name := if_pos hop
      have hy := ih y (by simp) ⟨.assign op (.lookup name) y s, p.scopeStart⟩ (.stored name)
      show Nested role.owed (check _ _ ++ ((check _ _ ++ [refer name _]) ++
        (ofNode _ (valueRole op (.lookup name)) y ++ [])))
      rw [hrole, List.append_nil, List.append_assoc]
      exact hlead.append ((check_nested _ _).append (.referThen _ hy))
    · have hrole : valueRole op x = .plain := by
        unfold valueRole
        split
        · exact if_neg fun h => hs ⟨_, rfl, h⟩
        · rfl
      refine hlead.append (((ih x (by simp)).part rfl).append (.append ?_ .nil))
      exact (ih y (by simp)).part (congrArg Role.owed hrole)
  | function form name params xs isArrow s =>
    exact function_nested (fun x hx => ih x (by simp [hx])) form name params isArrow s p role
  | varDecl k ds =>
    exact hlead.append ((if_nested (.flat rfl) .nil).append (.append (.flat rfl)
      ((declarators_nested ih').append (.flat rfl))))
  | block xs => exact hlead.append (room_nested [.parts _ xs] ((parts_nested ih).append .nil))
  | forStmt x y z w =>
    simp only [Node.slots, List.forall_mem_cons] at ih
    exact hlead.append (room_nested [.optional _ _ x, .optional _ _ y, .optional _ _ z, .part _ _ w]
      (flatMap_nested (by simp [ih, IsNested.part, IsNested.optional])))
  | forEachStmt x y z =>
    simp only [Node.slots, List.forall_mem_cons] at ih
    exact hlead.append (room_nested [.part _ _ x, .part _ _ y, .part _ _ z]
      (flatMap_nested (by simp [ih, IsNested.part])))
  | whileStmt x y | doWhileStmt x y =>
    simp only [Node.slots, List.forall_mem_cons] at ih
    exact hlead.append (room_nested [.part _ _ x, .part _ _ y]
      (flatMap_nested (by simp [ih, IsNested.part])))
  | catchClause param x =>
    have hparam : ∀ ready o, Nested none (ofParam param ready o) := by
      cases param <;> simp [declareName_nested, Nested.nil]
    exact hlead.append (room_nested (.own (ofParam param _ _) :: clauseBody x _ _)
      ((hparam _ _).append (clauseBody_nested (ih' x (by simp)) _ _)))
  | switchStmt x xs =>
    obtain ⟨hx, hxs⟩ := List.forall_mem_cons.mp ih
    exact hlead.append ((hx.part rfl).append ((if_nested (.flat rfl) .nil).append
      (room_nested [.parts _ xs] ((parts_nested hxs).append .nil))))
  -- there is no scope, and each piece is nested by itself
  | arrayLit xs | objectLit xs | sequence xs | program xs =>
    have hxs : ∀ x ∈ xs, IsNested x := ih
    exact flatMap_nested (by simp [layout, hlead, parts_nested hxs])
  | call x xs | newCall x xs | caseClause x xs =>
    obtain ⟨hx, hxs⟩ : IsNested x ∧ ∀ y ∈ xs, IsNested y := List.forall_mem_cons.mp ih
    exact flatMap_nested (by
      simp [layout, hlead, hx.part, hx.optional, parts_nested hxs, evalCalls_nested, Role.owed])
  | member x y computed =>
    simp only [Node.slots, List.forall_mem_cons] at ih
    refine flatMap_nested ?_
    cases computed <;> simp [layout, hlead, IsNested.part, ih, Nested.nil, Role.owed]
  | _ =>
    simp only [Node.slots, List.forall_mem_cons] at ih
    refine flatMap_nested ?_
    simp [layout, hlead, IsNested.part, IsNested.optional, ih, Nested.flat, Nested.isFlat,
      Role.owed]

/-- The drafts of a script: function expressions are seated, and every handle is met. -/
theorem ofScript_nested (script : Node) : ∀ {m d : Draft},
    Draft.step {} (.enter .program script.span none []) = .ok m →
    m.steps (ofNode ⟨.absent, script.span.start⟩ .plain script) = .ok d →
    m.Seated (ofNode ⟨.absent, script.span.start⟩ .plain script) ∧ ∀ f, d.Handled f := by
  intro m d hm hd
  cases hm
  have hsound := Sound.start script.span
  obtain ⟨hs, h⟩ := ofNode_nested script ⟨.absent, script.span.start⟩ .plain _ hsound
  refine ⟨hs, fun f => ?_⟩
  obtain ⟨_, hf⟩ := h d hd
  rcases Nat.lt_or_ge f d.graph.size with hlt | hge
  · rcases Nat.lt_or_ge f 1 with h0 | h1
    · -- the script's own scope is no function's
      obtain rfl : f = 0 := Nat.lt_one_iff.mp h0
      rintro name outer ⟨o, ho, hp, _⟩
      rw [(grows_steps hd).outline (Nat.zero_lt_one)] at ho
      cases ho
      cases hp
    · rcases hf f h1 hlt with hh | ⟨_, hno, _⟩
      · exact hh
      · cases hno
  · rintro name outer ⟨o, ho, _⟩
    rw [← Graph.outlines_length] at hge
    rw [List.getElem?_eq_none hge] at ho
    cases ho

end Event

end ScopeLowering
