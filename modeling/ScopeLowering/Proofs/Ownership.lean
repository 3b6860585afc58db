import ScopeLowering.Proofs.Conservation
import ScopeLowering.Proofs.Judgement

/-!
# Which scope owns a declaration

The scopes of a script are those of the nodes that open one, in that order, and each owns the names
that stand in its node: a function or the script the names that are hoisted to it, and every scope
the `let` and `const` names that are written directly in it (`claims_ofScript`).

## The model

The events of a script make *declarations* (`Draft.declarations`): the kind of each, the scope that
it is attached to and its site. The table keeps their sites and owners
(`sites_ofScript`), but not every kind, since a name that is declared again keeps its binding. What
matters here of the kind is whether the name is hoisted, is lexical, or is neither: a parameter, or
the own name of a function expression. A *claim* is what is left of a declaration then.
-/

namespace ScopeLowering

/-! ### Declarations and claims -/

/-- How a declared name gets to the scope that owns it. -/
inductive Manner where
  /-- Through all scopes that are no function's. -/
  | hoisted
  /-- By being written in it. -/
  | lexical
  deriving Repr, DecidableEq

/-- The manner of the declarations in statements. Parameters and own names have none. -/
def BindingKind.manner? : BindingKind → Option Manner
  | declared .varWord | function => some .hoisted
  | declared _ => some .lexical
  | param | catchParam | callee => none

/-- A declaration, and the scope that it is attached to. -/
structure Declaration where
  kind : BindingKind
  owner : ScopeId
  site : Site
  deriving Repr, DecidableEq

/-- A scope owns a name. -/
structure Claim where
  manner : Manner
  scope : ScopeId
  name : String
  deriving Repr, DecidableEq

def Declaration.claim? (δ : Declaration) : Option Claim :=
  δ.kind.manner?.map fun m => ⟨m, δ.owner, δ.site.name.text⟩

namespace Node

/-- The kind and the span of the scope that a node opens. -/
def header (n : Node) : ScopeKind × Span := (n.scopeKind, n.span)

/-- The names that the scope of a node owns, if it has this number. -/
def claims (n : Node) (id : ScopeId) : List Claim :=
  (if n.scopeKind.isFunctionLevel then (n.inside.flatMap hoisted).map (⟨.hoisted, id, ·⟩)
    else []) ++ (n.inside.flatMap lexical).map (⟨.lexical, id, ·⟩)

end Node

/-- The names that scopes own which are numbered from some number on. -/
def claimsFrom (id : ScopeId) : List Node → List Claim
  | [] => []
  | n :: rest => n.claims id ++ claimsFrom (id + 1) rest

theorem claimsFrom_append (id : ScopeId) (ns ms : List Node) :
    claimsFrom id (ns ++ ms) = claimsFrom id ns ++ claimsFrom (id + ns.length) ms := by
  induction ns generalizing id with
  | nil => rfl
  | cons n ns ih =>
    simp only [List.cons_append, claimsFrom, ih, List.append_assoc, List.length_cons]
    rw [Nat.add_right_comm, Nat.add_assoc]

theorem Node.scope_of_mem_claims {n : Node} {id : ScopeId} {c : Claim} (h : c ∈ n.claims id) :
    c.scope = id := by
  rw [claims, List.mem_append] at h
  rcases h with h | h
  · split at h
    · obtain ⟨x, _, rfl⟩ := List.mem_map.mp h
      rfl
    · cases h
  · obtain ⟨x, _, rfl⟩ := List.mem_map.mp h
    rfl

theorem le_of_mem_claimsFrom {id : ScopeId} {ns : List Node} {c : Claim}
    (h : c ∈ claimsFrom id ns) : id ≤ c.scope := by
  induction ns generalizing id with
  | nil => cases h
  | cons n ns ih =>
    rcases List.mem_append.mp h with h | h
    · exact Nat.le_of_eq (Node.scope_of_mem_claims h).symm
    · exact Nat.le_of_succ_le (ih h)

/-- The claims of one scope among those of all. -/
theorem filter_claimsFrom {id i j : Nat} {ns : List Node} {n : Node} (h : ns[i]? = some n)
    (hj : j = id + i) : (claimsFrom id ns).filter (·.scope = j) = n.claims j := by
  induction ns generalizing id i with
  | nil => cases h
  | cons m ns ih =>
    rw [claimsFrom, List.filter_append]
    cases i with
    | zero =>
      cases h
      cases hj
      have hrest : (claimsFrom (id + 1) ns).filter (·.scope = id) = [] := by
        refine List.filter_eq_nil_iff.mpr fun c hc hs => ?_
        exact absurd (of_decide_eq_true hs) (Nat.ne_of_gt (le_of_mem_claimsFrom hc))
      rw [Nat.add_zero, hrest, List.append_nil, List.filter_eq_self]
      exact fun c hc => decide_eq_true (Node.scope_of_mem_claims hc)
    | succ i =>
      have hfirst : (m.claims id).filter (·.scope = j) = [] := by
        refine List.filter_eq_nil_iff.mpr fun c hc hs => ?_
        have he : id = j := (Node.scope_of_mem_claims hc).symm.trans (of_decide_eq_true hs)
        omega
      rw [hfirst, List.nil_append]
      exact ih h (by omega)

namespace Draft

/-- The declaration that an event makes. -/
def declaration? (d : Draft) : Event → Option Declaration
  | .declare kind name statement hasInit ready unbraced forEach =>
    some ⟨kind, d.attachment kind,
      { name, statement, scope := d.current, hasInit, ready, unbraced, forEach }⟩
  | .callee name ready _ =>
    if (d.graph.here? name.text d.current).isSome then none
    else some ⟨.callee, d.attachment .callee,
      { name, statement := none, scope := d.current, hasInit := true, ready }⟩
  | _ => none

/-- The declarations that some events make, up to the first fault. -/
def declarations (d : Draft) : List Event → List Declaration
  | [] => []
  | e :: es =>
    (d.declaration? e).toList ++
      match d.step e with
      | .ok d' => d'.declarations es
      | .error _ => []

/-- The names that come to belong to scopes by some events. -/
def claims (d : Draft) (es : List Event) : List Claim :=
  (d.declarations es).filterMap Declaration.claim?

theorem declarations_cons {d m : Draft} {e : Event} (h : d.step e = .ok m) (es : List Event) :
    d.declarations (e :: es) = (d.declaration? e).toList ++ m.declarations es := by
  rw [declarations, h]

theorem declarations_append {d m : Draft} {es : List Event} (h : d.steps es = .ok m)
    (fs : List Event) : d.declarations (es ++ fs) = d.declarations es ++ m.declarations fs := by
  induction es generalizing d with
  | nil => cases h; rfl
  | cons e es ih =>
    obtain ⟨m', he, hes⟩ := steps_cons_ok.mp h
    rw [List.cons_append, declarations_cons he, declarations_cons he, ih hes, List.append_assoc]

theorem claims_append {d m : Draft} {es : List Event} (h : d.steps es = .ok m) (fs : List Event) :
    d.claims (es ++ fs) = d.claims es ++ m.claims fs := by
  rw [claims, declarations_append h, List.filterMap_append]
  rfl

/-- An event that makes no declaration leaves the table as it is. -/
theorem step_declaration? {d d' : Draft} {e : Event} (h : d.step e = .ok d') :
    (d.declaration? e = none ∧ d'.table = d.table) ∨
      ∃ δ, d.declaration? e = some δ ∧ δ.owner = d.attachment δ.kind ∧ δ.site.scope = d.current ∧
        d' = d.declareVariable δ.kind δ.site := by
  cases e with
  | enter | leave | openStatement | closeStatement | evalCall | dynamic | refer =>
    cases h
    exact .inl ⟨rfl, rfl⟩
  | declare => cases h; exact .inr ⟨_, rfl, rfl, rfl, rfl⟩
  | callee name ready problem =>
    simp only [step] at h
    simp only [declaration?]
    split at h
    · cases h
      exact .inl ⟨if_pos ‹_›, rfl⟩
    · rw [if_neg ‹_›]
      split at h
      · cases h
      · cases h
        exact .inr ⟨_, rfl, rfl, rfl, rfl⟩
  | thisUse =>
    obtain ⟨_, rfl⟩ := step_thisUse_ok h
    exact .inl ⟨rfl, rfl⟩
  | fault f => cases h

/-! ### The declarations in the table -/

/-- What the table yields after some events: a new binding yields what its declaration does, and so
does one more declaration of an old binding. -/
theorem flatMap_steps {α : Type} {g : Binding → List α} {yield : Declaration → List α}
    (hg : ∀ b hazards, g { b with hazards } = g b)
    (hfresh : ∀ δ : Declaration, g { kind := δ.kind, scope := δ.owner, first := δ.site } = yield δ)
    (hmerge : ∀ (δ : Declaration) (b : Binding), δ.kind.isFunctionScoped = true →
      b.kind.isFunctionScoped = true → b.scope = δ.owner → g (b.merge δ.site) = g b ++ yield δ)
    {d d' : Draft} (hd : d.Sound) {es : List Event} (h : d.steps es = .ok d') :
    (d'.table.bindings.flatMap g).Perm
      (d.table.bindings.flatMap g ++ (d.declarations es).flatMap yield) := by
  induction es generalizing d with
  | nil =>
    cases h
    rw [declarations, List.flatMap_nil, List.append_nil]
  | cons e es ih =>
    obtain ⟨m, he, hes⟩ := steps_cons_ok.mp h
    refine (ih (hd.step he) hes).trans ?_
    rw [declarations_cons he, List.flatMap_append, ← List.append_assoc]
    refine List.Perm.append_right _ ?_
    rcases step_declaration? he with ⟨hn, ht⟩ | ⟨δ, hδ, ho, _, rfl⟩
    · rw [hn, ht, Option.toList_none, List.flatMap_nil, List.append_nil]
    · rw [hδ, Option.toList_some, List.flatMap_singleton, flatMap_declareVariable hg]
      refine flatMap_declare hg hd δ.kind δ.site ?_ fun b hk hb hs =>
        hmerge δ b hk hb (hs.trans ho.symm)
      rw [← hfresh δ, ho]
      rfl

/-- The sites of all bindings, with the scopes that own them. -/
def ownedSites (bs : List Binding) : List (ScopeId × Site) :=
  bs.flatMap fun b => b.sites.map (b.scope, ·)

/-- The table gets the declarations that the events make. -/
theorem ownedSites_steps {d d' : Draft} (hd : d.Sound) {es : List Event}
    (h : d.steps es = .ok d') :
    (ownedSites d'.table.bindings).Perm
      (ownedSites d.table.bindings ++ (d.declarations es).map fun δ => (δ.owner, δ.site)) := by
  rw [List.map_eq_flatMap]
  refine flatMap_steps (fun _ _ => rfl) (fun _ => rfl) (fun δ b _ _ hb => ?_) hd h
  simp [Binding.sites, Binding.merge, hb]

end Draft

/-! ### What the events of a stretch declare -/

/-- The kinds and spans of the scopes of a graph. -/
def Graph.headers (g : Graph) : List (ScopeKind × Span) := g.scopes.map fun s => (s.kind, s.span)

theorem Graph.headers_eq (g : Graph) : g.headers = g.outlines.map fun s => (s.kind, s.span) := by
  rw [headers, outlines, List.map_map]
  rfl

theorem Graph.headers_length (g : Graph) : g.headers.length = g.size := List.length_map _

namespace Draft

/-- The scopes after some events are those before and those of the nodes, and the names that came to
belong to scopes are those hoisted to the function around, those of the current scope, and those of
the new scopes. -/
structure Tells (d d' : Draft) (claims : List Claim) (xs ys : List String) (os : List Node) :
    Prop where
  current : d'.current = d.current
  headers : d'.graph.headers = d.graph.headers ++ os.map Node.header
  claims : claims.Perm (xs.map (⟨.hoisted, d.graph.nearestFunction d.current, ·⟩) ++
    ys.map (⟨.lexical, d.current, ·⟩) ++ claimsFrom d.graph.size os)

namespace Tells

variable {d d' d'' : Draft} {cs cs' : List Claim} {xs xs' ys ys' : List String} {os os' : List Node}

theorem size (h : Tells d d' cs xs ys os) : d'.graph.size = d.graph.size + os.length := by
  rw [← Graph.headers_length, h.headers, List.length_append, List.length_map, Graph.headers_length]

theorem same (hc : d'.current = d.current) (hg : d'.graph.outlines = d.graph.outlines) :
    Tells d d' [] [] [] [] :=
  ⟨hc, by rw [Graph.headers_eq, hg, ← Graph.headers_eq, List.map_nil, List.append_nil], .rfl⟩

theorem trans (h : Tells d d' cs xs ys os) (h' : Tells d' d'' cs' xs' ys' os') (hd : d.Sound)
    (hg : d.Grows d') : Tells d d'' (cs ++ cs') (xs ++ xs') (ys ++ ys') (os ++ os') where
  current := h'.current.trans h.current
  headers := by rw [h'.headers, h.headers, List.map_append, List.append_assoc]
  claims := by
    have hcs' := h'.claims
    rw [h.current, hg.nearestFunction hd.current, h.size] at hcs'
    refine (h.claims.append hcs').trans ?_
    rw [claimsFrom_append, List.map_append, List.map_append]
    refine List.perm_iff_count.mpr fun c => ?_
    simp only [List.count_append]
    omega

theorem declareVariable (d : Draft) (kind : BindingKind) (site : Site) :
    Tells d (d.declareVariable kind site)
      (Declaration.claim? ⟨kind, d.attachment kind, site⟩).toList
      (if kind.manner? = some .hoisted then [site.name.text] else [])
      (if kind.manner? = some .lexical then [site.name.text] else []) [] := by
  have hframe := d.frame_declareVariable kind site
  refine ⟨hframe.current, ?_, ?_⟩
  · rw [Graph.headers_eq, hframe.outlines, ← Graph.headers_eq, List.map_nil, List.append_nil]
  · unfold attachment Declaration.claim?
    cases kind with
    | declared k => cases k <;> exact .rfl
    | function | param | catchParam | callee => exact .rfl

/-- A scope opens, something is declared, and the scope closes. -/
theorem scope {o : Node} {callable : Option Callable} {cases : List Span} (hd : d.Sound)
    (h : Tells (d.openScope o.scopeKind o.span callable cases) d' cs
      (o.inside.flatMap Node.hoisted) (o.inside.flatMap Node.lexical) os)
    (hg : (d.openScope o.scopeKind o.span callable cases).Grows d') :
    Tells d d'.closeScope cs
      (if o.scopeKind.isFunctionLevel then [] else o.inside.flatMap Node.hoisted) [] (o :: os) := by
  have hsize := Sound.size_openScope d o.scopeKind o.span callable cases
  have hlt : d.graph.size < (d.openScope o.scopeKind o.span callable cases).graph.size := by omega
  have hcur : d'.current = d.graph.size := h.current
  refine ⟨?_, ?_, h.claims.trans ?_⟩
  · show (d'.graph.parent? d'.current).getD 0 = d.current
    rw [hcur, hg.parent? hlt, Sound.parent?_openScope hd.current, Option.getD_some]
  · have hopen : (d.openScope o.scopeKind o.span callable cases).graph.headers =
        d.graph.headers ++ [o.header] := by
      rw [Graph.headers_eq, outlines_openScope, List.map_append, ← Graph.headers_eq]
      rfl
    show d'.graph.headers = _
    rw [h.headers, hopen, List.append_assoc]
    rfl
  · have hfun := Sound.nearestFunction_openScope d o.scopeKind o.span callable cases
    rw [show (d.openScope o.scopeKind o.span callable cases).current = d.graph.size from rfl, hfun,
      hsize, claimsFrom, Node.claims]
    split <;> simp

end Tells

end Draft

namespace Event

/-- What the events declare does not depend on the draft. -/
def Owns (es : List Event) (xs ys : List String) (os : List Node) : Prop :=
  ∀ d d' : Draft, d.Sound → d.steps es = .ok d' → d.Tells d' (d.claims es) xs ys os

namespace Owns

variable {es fs : List Event} {xs xs' ys ys' : List String} {os os' : List Node}

theorem nil : Owns [] [] [] [] := by
  intro d d' _ h
  cases h
  exact .same rfl rfl

theorem append (h : Owns es xs ys os) (h' : Owns fs xs' ys' os') :
    Owns (es ++ fs) (xs ++ xs') (ys ++ ys') (os ++ os') := by
  intro d d' hd hs
  obtain ⟨m, hm, hs⟩ := Draft.steps_append_ok.mp hs
  rw [Draft.claims_append hm]
  exact (h d m hd hm).trans (h' m d' (hd.steps hm) hs) hd (Draft.grows_steps hm)

theorem congr (h : Owns es xs ys os) (hx : xs.Perm xs') (hy : ys.Perm ys') (ho : os = os') :
    Owns es xs' ys' os' := by
  subst ho
  intro d d' hd hs
  have ht := h d d' hd hs
  exact ⟨ht.current, ht.headers, ht.claims.trans
    (((hx.map _).append (hy.map _)).append_right _)⟩

/-- One event that makes a declaration, or none. -/
theorem single {e : Event} (h : ∀ d d' : Draft, d.step e = .ok d' →
      d.Tells d' ((d.declaration? e).bind Declaration.claim?).toList xs ys []) :
    Owns [e] xs ys [] := by
  intro d d' _ hs
  obtain ⟨m, hm, ⟨⟩⟩ := Draft.steps_cons_ok.mp hs
  have hclaims : d.claims [e] = ((d.declaration? e).bind Declaration.claim?).toList := by
    rw [Draft.claims, Draft.declarations_cons hm]
    cases hδ : d.declaration? e with
    | none => rfl
    | some δ => cases hc : δ.claim? <;> simp [Draft.declarations, hc]
  rw [hclaims]
  exact h d _ hm

theorem fault (f : ScopeFault) : Owns [.fault f] [] [] [] := single nofun

theorem check (n o : Node) : Owns (check n o) [] [] [] := by
  unfold Event.check
  cases misplaced? n o with
  | none => exact nil
  | some f => exact fault f

theorem mute {e : Event} (h : e.isMute = true) : Owns [e] [] [] [] := by
  refine single fun d d' hs => ?_
  cases e with
  | openStatement | closeStatement | refer | evalCall | dynamic => cases hs; exact .same rfl rfl
  | thisUse =>
    cases hs
    exact .same (by split <;> rfl) (by split <;> rfl)
  | _ => cases h

theorem declare (kind : BindingKind) (name : Ident) (st : Option Statement) (hasInit : Bool)
    (ready : Offset) (unbraced forEach : Bool) :
    Owns [.declare kind name st hasInit ready unbraced forEach]
      (if kind.manner? = some .hoisted then [name.text] else [])
      (if kind.manner? = some .lexical then [name.text] else []) [] := by
  refine single fun d d' hs => ?_
  cases hs
  exact .declareVariable d kind
    { name, statement := st, scope := d.current, hasInit, ready, unbraced, forEach }

/-- Parameters are neither hoisted nor lexical. -/
theorem declareName {kind : BindingKind} (hk : kind.manner? = none) (name : Ident) (ready : Offset)
    (o : Node) : Owns (declareName kind name ready o) [] [] [] :=
  ((check (.ident name) o).append (declare kind name none true ready false false)).congr
    (by simp [hk]) (by simp [hk]) rfl

theorem params (kind : BindingKind) (hk : kind.manner? = none) (names : List Ident)
    (ready : Offset) (o : Node) :
    Owns (names.flatMap fun i => Event.declareName kind i ready o) [] [] [] := by
  induction names with
  | nil => exact nil
  | cons i rest ih => exact (declareName hk i ready o).append ih

theorem calleeOf (self : Option Ident) (o : Node) : Owns (calleeOf self o) [] [] [] := by
  cases self with
  | none => exact nil
  | some i =>
    refine single fun d d' hs => ?_
    simp only [Draft.step] at hs
    simp only [Draft.declaration?]
    split at hs
    · cases hs
      rw [if_pos ‹_›]
      exact .same rfl rfl
    · rw [if_neg ‹_›]
      split at hs
      · cases hs
      · cases hs
        exact .declareVariable d .callee _

/-- A scope opens and closes around the events. -/
theorem scope (o : Node) (callable : Option Callable) (cases : List Span)
    (h : Owns es (o.inside.flatMap Node.hoisted) (o.inside.flatMap Node.lexical) os) :
    Owns ([enter o.scopeKind o.span callable cases] ++ es ++ [leave])
      (if o.scopeKind.isFunctionLevel then [] else o.inside.flatMap Node.hoisted) [] (o :: os) := by
  intro d d' hd hs
  obtain ⟨m, hm, ⟨⟩⟩ := Draft.steps_append_ok.mp hs
  obtain ⟨_, ⟨⟩, hes⟩ := Draft.steps_append_ok.mp hm
  have hclaims : d.claims ([enter o.scopeKind o.span callable cases] ++ es ++ [leave]) =
      (d.openScope o.scopeKind o.span callable cases).claims es := by
    rw [Draft.claims_append hm]
    exact List.append_nil _
  rw [hclaims]
  exact (h _ _ (hd.openScope o.scopeKind o.span callable cases) hes).scope hd
    (Draft.grows_steps hes)

end Owns

/-- What `Owns` says is a judgement. It does not look at the condition. -/
def ownership : Judgement where
  Holds es _ xs ys os := Owns es xs ys os
  nil := .nil
  append h h' := h.append h'
  congr h _ hx hy ho := h.congr hx hy ho
  check _ o := .check _ o
  mute h := .mute h
  declarator k name st hasInit ready unbraced forEach :=
    (Owns.declare (.declared k) name st hasInit ready unbraced forEach).congr
      (by cases k <;> simp [BindingKind.manner?]) (by cases k <;> simp [BindingKind.manner?]) rfl
  functionName name ready := .declare .function name none true ready false false
  enclosed o param cases ho h := by
    have hparam := Owns.params .catchParam rfl param.toList o.span.start o
    have hscope := (hparam.append h).scope o none cases
    rwa [ho] at hscope
  called o params self callable ho h := by
    have hkind : o.scopeKind = .function := by
      cases o with
      | function => rfl
      | _ => cases ho
    have hparams := Owns.params .param rfl params o.span.start o
    have hbody := (hparams.append h).append (.calleeOf self o)
    have hscope := (hbody.congr (.of_eq (List.append_nil _)) (.of_eq (List.append_nil _))
      (List.append_nil _)).scope o (some callable) []
    rwa [hkind] at hscope

end Event

/-! ### The scopes of a script -/

/-- The nodes of a script that open a scope, in the order in which they do. -/
def Node.scopes (script : Node) : List Node := script :: script.openers

/-- The declarations of a script. -/
def Node.declarations (script : Node) : List Declaration :=
  Draft.declarations {} (Event.ofScript script)

theorem Draft.claims_ofScript {xs : List Node} {span : Span}
    (hs : (Node.program xs span).isSorted = true) {d : Draft}
    (h : Draft.steps {} (Event.ofScript (.program xs span)) = .ok d) :
    d.graph.headers = (Node.program xs span).scopes.map Node.header ∧
    ((Node.program xs span).declarations.filterMap Declaration.claim?).Perm
      (claimsFrom 0 (Node.program xs span).scopes) := by
  obtain ⟨_, ⟨⟩, h⟩ := steps_cons_ok.mp h
  have hreads := (Event.Judgement.reads (J := Event.ownership) hs).1 rfl ⟨.absent, span.start⟩
    .plain rfl
  have ht := hreads _ _ (Sound.start span) h
  refine ⟨ht.headers, ht.claims.trans (.of_eq ?_)⟩
  rw [Node.hoisted_eq, Node.lexical_eq]
  rfl

theorem Draft.ownedSites_ofScript {script : Node} {d : Draft}
    (h : Draft.steps {} (Event.ofScript script) = .ok d) :
    (ownedSites d.table.bindings).Perm (script.declarations.map fun δ => (δ.owner, δ.site)) := by
  obtain ⟨_, ⟨⟩, h⟩ := steps_cons_ok.mp h
  exact ownedSites_steps (Sound.start script.span) h

/-- The scopes of a sorted script are those of the nodes that open one. The table holds the
declarations, and each scope owns the names that stand in its node. -/
structure Scoping.Owns (s : Scoping) (script : Node) : Prop where
  headers : s.graph.headers = script.scopes.map Node.header
  sites : (Draft.ownedSites s.table.bindings).Perm
    (script.declarations.map fun δ => (δ.owner, δ.site))
  claims : (script.declarations.filterMap Declaration.claim?).Perm (claimsFrom 0 script.scopes)

theorem Scoping.owns {script : Node} (hs : script.isSorted = true) {s : Scoping}
    (h : Scoping.ofScript script = .ok s) : s.Owns script := by
  obtain ⟨d, hd, rfl⟩ := Scoping.ofScript_ok h
  have hsites : Draft.ownedSites d.finish.table.bindings = Draft.ownedSites d.table.bindings :=
    Draft.finish_flatMap (fun _ _ _ => rfl) d
  cases script with
  | program xs span =>
    obtain ⟨hheaders, hclaims⟩ := Draft.claims_ofScript hs hd
    refine ⟨?_, ?_, hclaims⟩
    · rw [Draft.finish_graph, hheaders]
    · rw [hsites]
      exact Draft.ownedSites_ofScript hd
  | _ => cases h

/-- The names that scope number `id` owns in some manner. -/
theorem Scoping.Owns.claim_iff {s : Scoping} {script : Node} (h : s.Owns script) {id : Nat}
    {n : Node} (hn : script.scopes[id]? = some n) (m : Manner) (x : String) :
    (∃ δ ∈ script.declarations, δ.kind.manner? = some m ∧ δ.owner = id ∧ δ.site.name.text = x) ↔
      ⟨m, id, x⟩ ∈ n.claims id := by
  rw [← filter_claimsFrom hn (Nat.zero_add id).symm, List.mem_filter, ← h.claims.mem_iff,
    List.mem_filterMap]
  simp only [Declaration.claim?, Option.map_eq_some_iff, Claim.mk.injEq, decide_true, and_true]
  constructor
  · rintro ⟨δ, hδ, hm, ho, hx⟩
    exact ⟨δ, hδ, m, hm, rfl, ho, hx⟩
  · rintro ⟨δ, hδ, _, hm, rfl, ho, hx⟩
    exact ⟨δ, hδ, hm, ho, hx⟩

end ScopeLowering
