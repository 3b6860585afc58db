import ScopeLowering.Proofs.Judgement
import ScopeLowering.Proofs.Simulation

/-!
# What the events of a stretch come to

The judgement `Admits` says what going through some events comes to, from any draft: they go through
under one condition and fail in one way, and when they go through, the scopes hold the names that
they held and those that the events declare. There is one combinator for each way to put events
together, so that a recursion over the tree only has to use them.

The condition does not depend on the draft, although one event looks at it: the own name of a
function expression is declared only if the function's scope does not hold it. By then that scope
holds just the names that were declared in the function (`Admits.namedFunction`).
-/

namespace ScopeLowering

/-- A misplaced phrase makes the tree malformed. -/
theorem Event.misplaced?_cases {n : Node} (hn : n.isAbsent = false) (o : Node) :
    (n.isPlacedIn o = true ∧ misplaced? n o = none) ∨
    (n.isPlacedIn o = false ∧ ∃ message phrase,
      misplaced? n o = some (.malformed message phrase)) := by
  unfold misplaced? Node.isPlacedIn
  cases n.span.isSensible <;> cases o.isAbsent <;> cases n.span.isWithin o.span <;> simp [hn]

namespace Draft

/-- Does the scope hold the name? -/
def holds (d : Draft) (x : String) (s : ScopeId) : Bool := (d.graph.here? x s).isSome

/-- The one draft comes of the other by declaring names, some for the function around and some for
the current scope, and by things inside of new scopes. -/
structure Adds (hoisted lexical : List String) (d d' : Draft) : Prop where
  current : d'.current = d.current
  holds : ∀ x s, s < d.graph.size → (d'.holds x s = true ↔ d.holds x s = true ∨
    (s = d.graph.nearestFunction d.current ∧ x ∈ hoisted) ∨ (s = d.current ∧ x ∈ lexical))

namespace Adds

variable {xs ys xs' ys' : List String} {d d' d'' : Draft}

theorem same (hc : d'.current = d.current) (hg : d'.graph = d.graph) : Adds [] [] d d' :=
  ⟨hc, fun x s _ => by simp [Draft.holds, hg]⟩

theorem trans (h : Adds xs ys d d') (h' : Adds xs' ys' d' d'') (hg : d.Grows d') (hd : d.Sound) :
    Adds (xs ++ xs') (ys ++ ys') d d'' := by
  refine ⟨h'.current.trans h.current, fun x s hs => ?_⟩
  have hs' := h'.holds x s (Nat.lt_of_lt_of_le hs hg.size_le)
  rw [h.current, hg.nearestFunction hd.current, h.holds x s hs] at hs'
  grind

theorem congr (h : Adds xs ys d d') (hx : ∀ x, x ∈ xs ↔ x ∈ xs') (hy : ∀ x, x ∈ ys ↔ x ∈ ys') :
    Adds xs' ys' d d' := ⟨h.current, by simpa [hx, hy] using h.holds⟩

/-- A declaration puts its name into the scope that owns it. -/
theorem declareVariable (hd : d.Sound) (kind : BindingKind) (site : Site) :
    Adds (if kind.isFunctionScoped then [site.name.text] else [])
      (if kind.isFunctionScoped then [] else [site.name.text]) d (d.declareVariable kind site) := by
  refine ⟨(d.frame_declareVariable kind site).current, fun x s hs => ?_⟩
  have hholds : (d.declareVariable kind site).holds x s = true ↔
      d.holds x s = true ∨ (s = d.attachment kind ∧ x = site.name.text) := by
    have hgraph : (d.declareVariable kind site).graph = (d.declare kind site).1.graph := by
      rw [declareVariable_eq, record_graph]
      unfold mark
      split <;> rfl
    rw [Draft.holds, hgraph, Draft.holds]
    rcases d.declare_cases kind site with ⟨hn, he⟩ | ⟨old, hold, ⟨_, _, he⟩ | ⟨_, he⟩⟩
    · rw [he, here?_own (hd.attachment_lt kind) hn]
      grind
    · rw [he, graph_join]
      grind
    · rw [he]
      show (d.graph.here? x s).isSome = true ↔ _
      grind
  rw [hholds, attachment]
  cases kind.isFunctionScoped <;> simp

/-- A scope opens, names are added, and the scope closes. -/
theorem scope {kind : ScopeKind} {span : Span} {callable : Option Callable} {cases : List Span}
    (hd : d.Sound) (h : Adds xs ys (d.openScope kind span callable cases) d')
    (hg : (d.openScope kind span callable cases).Grows d') :
    Adds (if kind.isFunctionLevel then [] else xs) [] d d'.closeScope := by
  have hsize := Sound.size_openScope d kind span callable cases
  have hlt : d.graph.size < (d.openScope kind span callable cases).graph.size := by omega
  have hcur : d'.current = d.graph.size := h.current
  constructor
  · show (d'.graph.parent? d'.current).getD 0 = d.current
    rw [hcur, hg.parent? hlt, Sound.parent?_openScope hd.current, Option.getD_some]
  · intro x s hs
    have hs' := h.holds x s (by omega)
    have hfun := Sound.nearestFunction_openScope d kind span callable cases
    have hne : s ≠ d.graph.size := Nat.ne_of_lt hs
    rw [show (d.openScope kind span callable cases).current = d.graph.size from rfl, hfun,
      Draft.holds, Draft.holds, here?_openScope] at hs'
    show (d'.graph.here? x s).isSome = true ↔ (d.graph.here? x s).isSome = true ∨ _
    rw [hs']
    split <;> simp [hne]

end Adds

theorem steps_append (d : Draft) (es fs : List Event) :
    d.steps (es ++ fs) = (d.steps es).bind fun d => d.steps fs := List.foldlM_append ..

/-- From the draft the events go through, adding the names, if the condition holds, and otherwise
the tree is found to be malformed. -/
def Takes (d : Draft) (es : List Event) (ok : Prop) (hoisted lexical : List String) : Prop :=
  (ok ∧ ∃ d', d.steps es = .ok d' ∧ d.Adds hoisted lexical d') ∨
  (¬ ok ∧ ∃ message phrase, d.steps es = .error (.malformed message phrase))

namespace Takes

variable {d : Draft} {es fs : List Event} {p q : Prop} {xs ys xs' ys' : List String}

theorem append (hd : d.Sound) (h : d.Takes es p xs ys)
    (h' : ∀ d', d.steps es = .ok d' → d.Adds xs ys d' → d'.Takes fs q xs' ys') :
    d.Takes (es ++ fs) (p ∧ q) (xs ++ xs') (ys ++ ys') := by
  unfold Takes
  rw [steps_append]
  rcases h with ⟨hp, d₁, hs, ha⟩ | ⟨hp, message, phrase, hs⟩ <;> rw [hs]
  · rcases h' d₁ hs ha with ⟨hq, d₂, hs', ha'⟩ | ⟨hq, hs'⟩
    · exact .inl ⟨⟨hp, hq⟩, d₂, hs', ha.trans ha' (grows_steps hs) hd⟩
    · exact .inr ⟨fun h => hq h.2, hs'⟩
  · exact .inr ⟨fun h => hp h.1, message, phrase, rfl⟩

theorem congr (h : d.Takes es p xs ys) (hp : p ↔ q) (hx : ∀ x, x ∈ xs ↔ x ∈ xs')
    (hy : ∀ x, x ∈ ys ↔ x ∈ ys') : d.Takes es q xs' ys' := by
  unfold Takes
  rw [← hp]
  rcases h with ⟨hp, d', hs, ha⟩ | hbad
  · exact .inl ⟨hp, d', hs, ha.congr hx hy⟩
  · exact .inr hbad

/-- The own name of a function expression is declared unless the function's scope holds it, and only
then it matters where it stands. -/
theorem callee (hd : d.Sound) (name : Ident) (ready : Offset) (o : Node) :
    d.Takes [.callee name ready (Event.misplaced? (.ident name) o)]
      (d.holds name.text d.current = true ∨ (Node.ident name).isPlacedIn o = true)
      (if d.holds name.text d.current then [] else [name.text]) [] := by
  unfold Takes
  rw [steps_cons]
  cases hh : d.holds name.text d.current with
  | true =>
    have hstep : d.step (.callee name ready (Event.misplaced? (.ident name) o)) = .ok d := if_pos hh
    rw [hstep]
    exact .inl ⟨.inl rfl, d, rfl, .same rfl rfl⟩
  | false =>
    rcases Event.misplaced?_cases (n := .ident name) rfl o with
      ⟨hp, hm⟩ | ⟨hp, message, phrase, hm⟩ <;> rw [hm, hp]
    · let site : Site := { name, statement := none, scope := d.current, hasInit := true, ready }
      have hstep : d.step (.callee name ready none) = .ok (d.declareVariable .callee site) :=
        if_neg (by rw [← holds, hh]; exact Bool.false_ne_true)
      rw [hstep]
      exact .inl ⟨.inr rfl, _, rfl, .declareVariable hd .callee site⟩
    · have hstep : d.step (.callee name ready (some (.malformed message phrase))) =
          .error (.malformed message phrase) :=
        if_neg (by rw [← holds, hh]; exact Bool.false_ne_true)
      rw [hstep]
      exact .inr ⟨by simp, message, phrase, rfl⟩

end Takes

end Draft

namespace Event

/-- What the events come to does not depend on the draft. -/
def Admits (es : List Event) (ok : Prop) (hoisted lexical : List String) : Prop :=
  ∀ d : Draft, d.Sound → d.Takes es ok hoisted lexical

namespace Admits

variable {es fs : List Event} {p q : Prop} {xs ys xs' ys' : List String}

theorem nil : Admits [] True [] [] := fun d _ => .inl ⟨trivial, d, rfl, .same rfl rfl⟩

theorem append (h : Admits es p xs ys) (h' : Admits fs q xs' ys') :
    Admits (es ++ fs) (p ∧ q) (xs ++ xs') (ys ++ ys') :=
  fun d hd => (h d hd).append hd fun d' hs _ => h' d' (hd.steps hs)

theorem congr (h : Admits es p xs ys) (hp : p ↔ q) (hx : ∀ x, x ∈ xs ↔ x ∈ xs')
    (hy : ∀ x, x ∈ ys ↔ x ∈ ys') : Admits es q xs' ys' :=
  fun d hd => (h d hd).congr hp hx hy

theorem check {n : Node} (hn : n.isAbsent = false) (o : Node) :
    Admits (check n o) (n.isPlacedIn o = true) [] [] := by
  unfold Event.check
  rcases misplaced?_cases hn o with ⟨hp, hm⟩ | ⟨hp, message, phrase, hm⟩ <;> rw [hm, hp]
  · exact nil.congr (by simp) (by simp) (by simp)
  · exact fun d _ => .inr ⟨by simp, message, phrase, rfl⟩

theorem mute {e : Event} (h : e.isMute = true) : Admits [e] True [] [] := by
  have hstep : ∀ d : Draft, ∃ d', d.step e = .ok d' ∧ d'.current = d.current ∧
      d'.graph = d.graph := by
    intro d
    cases e with
    | openStatement | closeStatement | refer | evalCall | dynamic => exact ⟨_, rfl, by simp⟩
    | thisUse => exact ⟨_, rfl, by split <;> simp⟩
    | _ => cases h
  intro d _
  obtain ⟨d', hs, hc, hg⟩ := hstep d
  exact .inl ⟨trivial, d', Draft.steps_cons_ok.mpr ⟨d', hs, rfl⟩, .same hc hg⟩

theorem declare (kind : BindingKind) (name : Ident) (st : Option Statement) (hasInit : Bool)
    (ready : Offset) (unbraced forEach : Bool) :
    Admits [.declare kind name st hasInit ready unbraced forEach] True
      (if kind.isFunctionScoped then [name.text] else [])
      (if kind.isFunctionScoped then [] else [name.text]) := by
  intro d hd
  exact .inl ⟨trivial, _, rfl, .declareVariable hd kind
    { name, statement := st, scope := d.current, hasInit, ready, unbraced, forEach }⟩

theorem declareName (kind : BindingKind) (name : Ident) (ready : Offset) (o : Node) :
    Admits (declareName kind name ready o) ((Node.ident name).isPlacedIn o = true)
      (if kind.isFunctionScoped then [name.text] else [])
      (if kind.isFunctionScoped then [] else [name.text]) :=
  ((check rfl o).append (declare kind name none true ready false false)).congr (by simp) (by simp)
    (by simp)

theorem params (names : List Ident) (ready : Offset) (o : Node) :
    Admits (names.flatMap fun x => Event.declareName .param x ready o)
      (∀ c ∈ names.map Node.ident, c.isPlacedIn o = true) (names.map (·.text)) [] := by
  induction names with
  | nil => exact nil.congr (by simp) (by simp) (by simp)
  | cons x rest ih =>
    exact ((declareName .param x ready o).append ih).congr (by simp)
      (by simp [BindingKind.isFunctionScoped]) (by simp [BindingKind.isFunctionScoped])

/-- A scope opens and closes around the events. -/
theorem scope {kind : ScopeKind} {span : Span} {callable : Option Callable} {cases : List Span}
    (h : ∀ d : Draft, d.Sound → (d.openScope kind span callable cases).Takes es p xs ys) :
    Admits ([enter kind span callable cases] ++ es ++ [leave]) p
      (if kind.isFunctionLevel then [] else xs) [] := by
  intro d hd
  have hopen : d.steps ([enter kind span callable cases] ++ es ++ [leave]) =
      ((d.openScope kind span callable cases).steps es).bind fun m => .ok m.closeScope := by
    rw [List.append_assoc, List.singleton_append, Draft.steps_cons]
    exact Draft.steps_append ..
  unfold Draft.Takes
  rw [hopen]
  rcases h d hd with ⟨hp, m, hs, ha⟩ | ⟨hp, f, t, hs⟩ <;> rw [hs]
  · exact .inl ⟨hp, _, rfl, ha.scope hd (Draft.grows_steps hs)⟩
  · exact .inr ⟨hp, f, t, rfl⟩

/-- A scope that is no function's: what is hoisted in it goes on to the function around. -/
theorem enclosed (h : Admits es p xs ys) (kind : ScopeKind) (hk : kind.isFunctionLevel = false)
    (span : Span) (cases : List Span) :
    Admits ([enter kind span none cases] ++ es ++ [leave]) p xs [] :=
  (scope fun d hd => h _ (hd.openScope kind span none cases)).congr .rfl (by simp [hk]) (by simp)

theorem function (h : Admits es p xs ys) (span : Span) (callable : Option Callable) :
    Admits ([enter .function span callable []] ++ es ++ [leave]) p [] [] :=
  (scope fun d hd => h _ (hd.openScope .function span callable [])).congr .rfl
    (by simp [ScopeKind.isFunctionLevel]) (by simp)

/-- A function expression with a name of its own. -/
theorem namedFunction (h : Admits es p xs ys) (span : Span) (callable : Option Callable)
    (name : Ident) (ready : Offset) (o : Node) :
    Admits ([enter .function span callable []] ++
        (es ++ [callee name ready (misplaced? (.ident name) o)]) ++ [leave])
      (p ∧ (name.text ∈ xs ++ ys ∨ (Node.ident name).isPlacedIn o = true)) [] [] := by
  have htakes : ∀ d : Draft, d.Sound → (d.openScope .function span callable []).Takes
      (es ++ [callee name ready (misplaced? (.ident name) o)])
      (p ∧ (name.text ∈ xs ++ ys ∨ (Node.ident name).isPlacedIn o = true))
      (xs ++ if name.text ∈ xs ++ ys then [] else [name.text]) (ys ++ []) := by
    intro d hd
    have ho := hd.openScope .function span callable []
    refine (h _ ho).append ho fun d' hs ha => ?_
    -- at the end of the function its scope holds just the names that were declared in it
    have hheld : d'.holds name.text d'.current = true ↔ name.text ∈ xs ++ ys := by
      have hnew :
          (d.openScope .function span callable []).holds name.text d.graph.size = false := by
        rw [Draft.holds, Draft.here?_openScope]
        simp [Graph.here?, Graph.scope?, Graph.size]
      have hfun := Draft.Sound.nearestFunction_openScope d .function span callable []
      have := ha.holds name.text d.graph.size (by rw [Draft.Sound.size_openScope]; omega)
      rw [ha.current]
      show d'.holds name.text d.graph.size = true ↔ _
      rw [this, hnew]
      show _ ∨ (_ = Graph.nearestFunction _ d.graph.size ∧ _) ∨ (_ = d.graph.size ∧ _) ↔ _
      rw [hfun]
      simp [ScopeKind.isFunctionLevel]
    refine (Draft.Takes.callee (ho.steps hs) name ready o).congr (by rw [hheld]) ?_ (by simp)
    intro x
    by_cases hx : name.text ∈ xs ++ ys
    · rw [if_pos (hheld.mpr hx), if_pos hx]
    · rw [if_neg (mt hheld.mp hx), if_neg hx]
  exact (scope htakes).congr .rfl (by simp [ScopeKind.isFunctionLevel]) (by simp)

end Admits

end Event

end ScopeLowering
