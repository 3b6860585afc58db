import Mathlib.Data.List.Forall2
import ScopeLowering.Proofs.Layout
import ScopeLowering.Proofs.Lockstep

/-!
# Reading a script with its offsets moved

The events of a script and those of the script with its offsets moved are alike
(`Event.alike_ofScript`), provided that all its spans are known. A check on a span compares offsets,
and nothing else in the reading looks at them.

## The model

`KeepsPace` says of a node that its events are alike wherever it stands. The recursion over the tree
has one step for each sort of node.
-/

namespace ScopeLowering

variable (σ : Stretch)

def Role.stretch : Role → Role
  | eachHead stop => eachHead (stop.map (·.stretch σ))
  | stored name => stored (name.stretch σ)
  | plain => plain
  | soleBody => soleBody
  | target kind => target kind

def Place.stretch (p : Place) : Place := ⟨p.outer.stretch σ, p.scopeStart.stretch σ⟩

/-- A node with a known span is there. -/
theorem Node.isAbsent_of_isKnown {n : Node} (h : n.span.isKnown = true) : n.isAbsent = false := by
  cases n with
  | absent => cases h
  | _ => rfl

theorem isKnown_of_idents {names : List Ident}
    (h : ∀ c ∈ names.map Node.ident, ∀ m ∈ c.phrases, m.span.isKnown = true) :
    ∀ i ∈ names, i.span.isKnown = true := by
  intro i hi
  exact ((Node.forall_phrases rfl).mp (h _ (List.mem_map_of_mem hi))).1

namespace Event

/-! ### Names and places -/

theorem misplaced?_stretch {n : Node} (h : n.span.isKnown = true) (outer : Node) :
    (misplaced? (n.stretch σ) (outer.stretch σ)).map ScopeFault.bare =
      (misplaced? n outer).map ScopeFault.bare := by
  have hn := Node.span_stretch σ (Node.isAbsent_of_isKnown h)
  have hwithin : (!(outer.stretch σ).isAbsent && !(n.stretch σ).span.isWithin
      (outer.stretch σ).span) = (!outer.isAbsent && !n.span.isWithin outer.span) := by
    cases ha : outer.isAbsent with
    | true => simp [ha]
    | false => simp [ha, hn, Node.span_stretch σ ha]
  unfold misplaced?
  rw [hwithin, hn, Span.isSensible_stretch σ h]
  split
  · rfl
  · split <;> rfl

theorem valueRole_stretch (op : Json) (x : Node) :
    valueRole op (x.stretch σ) = (valueRole op x).stretch σ := by
  cases x with
  | lookup name =>
    show (if op.isText "=" then Role.stored (name.stretch σ) else .plain) =
      (if op.isText "=" then Role.stored name else .plain).stretch σ
    split <;> rfl
  | _ => rfl

theorem handleOf_stretch (form : FunctionForm) (name : Option Ident) (role : Role) :
    handleOf form (name.map (·.stretch σ)) (role.stretch σ) =
      (handleOf form name role).map (·.stretch σ) := by
  cases form <;> cases role <;> rfl

theorem subjectEnd_stretch (x : Node) :
    subjectEnd (x.stretch σ) = (subjectEnd x).map (·.stretch σ) := by
  unfold subjectEnd
  cases h : x.isAbsent with
  | true => simp [h]
  | false => simp [h, Node.span_stretch σ h, Span.stretch]

theorem evalCalls_stretch (fn : Node) :
    evalCalls (fn.stretch σ) = (evalCalls fn).map (·.stretch σ) := by
  cases fn with
  | lookup name =>
    show (if name.text == "eval" then [evalCall (name.stretch σ)] else []) =
      (if name.text == "eval" then [evalCall name] else []).map (·.stretch σ)
    split <;> rfl
  | _ => rfl

theorem statementOf_stretch (k : Keyword) (ds : List Node) (span : Span) :
    statementOf k (stretchAll σ ds) (span.stretch σ) = (statementOf k ds span).stretch σ := by
  simp [statementOf, Statement.stretch, stretchAll_eq, List.filterMap_map, Function.comp_def]

namespace Alike

theorem check {n : Node} (h : n.span.isKnown = true) (outer : Node) :
    Alike σ (check n outer) (check (n.stretch σ) (outer.stretch σ)) := by
  have hm := misplaced?_stretch σ h outer
  unfold Event.check
  cases hp : misplaced? n outer <;> cases hp' : misplaced? (n.stretch σ) (outer.stretch σ) <;>
    rw [hp, hp'] at hm
  · exact .nil
  · cases hm
  · cases hm
  · exact .fault (Option.some.inj hm) [] []

theorem single {σ : Stretch} (e : Event) : Alike σ [e] [e.stretch σ] := .same e .nil

theorem declareName (kind : BindingKind) {name : Ident} (h : name.span.isKnown = true)
    (ready : Offset) (outer : Node) :
    Alike σ (declareName kind name ready outer)
      (declareName kind (name.stretch σ) (ready.stretch σ) (outer.stretch σ)) :=
  (check σ (n := .ident name) h outer).append (single _)

theorem params {names : List Ident} (h : ∀ i ∈ names, i.span.isKnown = true) (ready : Offset)
    (outer : Node) :
    Alike σ (names.flatMap fun i => Event.declareName .param i ready outer)
      ((names.map (·.stretch σ)).flatMap fun i =>
        Event.declareName .param i (ready.stretch σ) (outer.stretch σ)) := by
  induction names with
  | nil => exact .nil
  | cons i names ih =>
    rw [List.forall_mem_cons] at h
    exact (declareName σ .param h.1 ready outer).append (ih h.2)

end Alike

/-! ### Nodes -/

/-- The events of the node are alike wherever it stands. -/
def KeepsPace (n : Node) : Prop :=
  ∀ p role, Alike σ (ofNode p role n) (ofNode (p.stretch σ) (role.stretch σ) (n.stretch σ))

variable {σ}

theorem alike_optional {n : Node} (h : KeepsPace σ n) (p : Place) (role : Role) :
    Alike σ (if n.isAbsent then [] else ofNode p role n)
      (if (n.stretch σ).isAbsent then []
        else ofNode (p.stretch σ) (role.stretch σ) (n.stretch σ)) := by
  rw [Node.isAbsent_stretch]
  split
  · exact .nil
  · exact h p role

theorem alike_ofNodes {ns : List Node} (h : ∀ c ∈ ns, KeepsPace σ c) (p : Place) :
    Alike σ (ofNodes p ns) (ofNodes (p.stretch σ) (stretchAll σ ns)) := by
  induction ns with
  | nil => exact .nil
  | cons n ns ih =>
    rw [List.forall_mem_cons] at h
    exact (alike_optional h.1 p .plain).append (ih h.2)

theorem alike_ofDeclarators {ds : List Node}
    (hknown : ∀ d ∈ ds, ∀ m ∈ d.phrases, m.span.isKnown = true)
    (h : ∀ d ∈ ds, ∀ c ∈ d.slots, KeepsPace σ c) (p : Place) (st : Statement) (unbraced : Bool)
    (each : Option Offset) :
    Alike σ (ofDeclarators p st unbraced each ds)
      (ofDeclarators (p.stretch σ) (st.stretch σ) unbraced (each.map (·.stretch σ))
        (stretchAll σ ds)) := by
  induction ds with
  | nil => exact .nil
  | cons d ds ih =>
    rw [List.forall_mem_cons] at hknown h
    have hrest := ih hknown.2 h.2
    cases d with
    | absent => exact .fault rfl _ _
    | declarator name x span =>
      obtain ⟨hd, hslots⟩ := (Node.forall_phrases rfl).mp hknown.1
      simp only [Node.slots, List.forall_mem_cons] at hslots h
      have hname := ((Node.forall_phrases rfl).mp hslots.1).1
      have hx := alike_optional h.1.2.1 p (.stored name)
      have hdeclare : Alike σ
          [declare (.declared st.keyword) name (some st) (!x.isAbsent) (each.getD span.stop)
            unbraced each.isSome]
          [declare (.declared st.keyword) (name.stretch σ) (some (st.stretch σ))
            (!(x.stretch σ).isAbsent) ((each.map (·.stretch σ)).getD (span.stretch σ).stop)
            unbraced (each.map (·.stretch σ)).isSome] := by
        rw [Node.isAbsent_stretch]
        cases each <;> exact Alike.single _
      change Alike σ ((check _ _ ++ (if x.isAbsent then [] else ofNode _ _ x) ++
          check (.ident name) _ ++ [declare ..]) ++ ofDeclarators _ _ _ _ ds)
        ((check _ _ ++ (if (x.stretch σ).isAbsent then [] else ofNode _ _ (x.stretch σ)) ++
          check (.ident (name.stretch σ)) _ ++ [declare ..]) ++ ofDeclarators _ _ _ _ _)
      exact ((((Alike.check σ hd _).append hx).append (Alike.check σ hname _)).append
        hdeclare).append hrest
    | _ =>
      have hd := ((Node.forall_phrases rfl).mp hknown.1).1
      change Alike σ ((check _ _ ++ [fault .noPart]) ++ ofDeclarators _ _ _ _ ds)
        ((check _ _ ++ [fault .noPart]) ++ ofDeclarators _ _ _ _ _)
      exact ((Alike.check σ hd _).append (.fault rfl [] [])).append hrest

/-- Events are alike piece by piece. -/
theorem keepsPace_of_pieces {n : Node}
    (h : ∀ p role, List.Forall₂ (fun x y => Alike σ x.events y.events) (layout p role n)
      (layout (p.stretch σ) (role.stretch σ) (n.stretch σ))) : KeepsPace σ n := by
  intro p role
  have hall := h p role
  rw [ofNode_eq_layout, ofNode_eq_layout]
  generalize layout p role n = ps, layout (p.stretch σ) _ _ = qs at hall ⊢
  induction hall with
  | nil => exact .nil
  | cons hx _ ih => exact hx.append ih

/-- The piece with all its offsets moved. -/
def Piece.stretch (σ : Stretch) : Piece → Piece
  | own es => own (es.map (·.stretch σ))
  | part p role c => part (p.stretch σ) (role.stretch σ) (c.stretch σ)
  | optional p role c => optional (p.stretch σ) (role.stretch σ) (c.stretch σ)
  | parts p cs => parts (p.stretch σ) (stretchAll σ cs)
  | declarators p st unbraced each ds =>
    declarators (p.stretch σ) (st.stretch σ) unbraced (each.map (·.stretch σ)) (stretchAll σ ds)

theorem alike_piece {x : Piece} (hknown : ∀ c ∈ x.nodes, ∀ m ∈ c.phrases, m.span.isKnown = true)
    (h : ∀ c ∈ x.nodes, KeepsPace σ c) (h' : ∀ c ∈ x.nodes, ∀ d ∈ c.slots, KeepsPace σ d) :
    Alike σ x.events (x.stretch σ).events := by
  cases x with
  | own es =>
    show Alike σ es (es.map _)
    induction es with
    | nil => exact .nil
    | cons e es ih => exact .same e (ih nofun nofun nofun)
  | part p role c => exact h c List.mem_cons_self p role
  | optional p role c => exact alike_optional (h c List.mem_cons_self) p role
  | parts p cs => exact alike_ofNodes h p
  | declarators p st unbraced each ds => exact alike_ofDeclarators hknown h' p st unbraced each

/-- A node whose pieces move along with it, after the check of its place. -/
theorem keepsPace_laid {n : Node} {ps : Place → Role → List Piece}
    (hknown : ∀ m ∈ n.phrases, m.span.isKnown = true) (hn : n.isAbsent = false)
    (hl : ∀ p role, layout p role n = .own (check n p.outer) :: ps p role)
    (hl' : ∀ p role, layout (p.stretch σ) (role.stretch σ) (n.stretch σ) =
      .own (check (n.stretch σ) (p.stretch σ).outer) :: (ps p role).map (Piece.stretch σ))
    (hs : ∀ p role, (ps p role).flatMap Piece.nodes ⊆ n.slots)
    (ih : ∀ c ∈ n.slots, KeepsPace σ c) (ih' : ∀ c ∈ n.slots, ∀ d ∈ c.slots, KeepsPace σ d) :
    KeepsPace σ n := by
  obtain ⟨hspan, hslots⟩ := (Node.forall_phrases hn).mp hknown
  refine keepsPace_of_pieces fun p role => ?_
  rw [hl, hl']
  refine .cons (Alike.check σ hspan _) (List.forall₂_map_right_iff.mpr
    (List.forall₂_same.mpr fun x hx => ?_))
  have hmem : ∀ c ∈ x.nodes, c ∈ n.slots := fun c hc =>
    hs p role (List.mem_flatMap.mpr ⟨x, hx, hc⟩)
  exact alike_piece (fun c hc => hslots c (hmem c hc)) (fun c hc => ih c (hmem c hc))
    fun c hc => ih' c (hmem c hc)

theorem keepsPace_varDecl (k : Keyword) {ds : List Node} {span : Span}
    (hs : span.isKnown = true) (hknown : ∀ d ∈ ds, ∀ m ∈ d.phrases, m.span.isKnown = true)
    (h : ∀ d ∈ ds, ∀ c ∈ d.slots, KeepsPace σ c) : KeepsPace σ (.varDecl k ds span) := by
  have hc := Alike.check σ (n := .varDecl k ds span) hs
  refine keepsPace_of_pieces fun p role => .cons (hc _) ?_
  have hfault : Alike σ [fault .noPart] [fault .noPart] := .fault rfl [] []
  have hrest (unbraced : Bool) (each : Option Offset) :
      List.Forall₂ (fun x y : Piece => Alike σ x.events y.events)
        [.own [openStatement (statementOf k ds span)],
          .declarators { p with outer := .varDecl k ds span } (statementOf k ds span) unbraced each
            ds, .own [closeStatement]]
        [.own [openStatement (statementOf k (stretchAll σ ds) (span.stretch σ))],
          .declarators (Place.stretch σ { p with outer := .varDecl k ds span })
            (statementOf k (stretchAll σ ds) (span.stretch σ)) unbraced (each.map (·.stretch σ))
            (stretchAll σ ds), .own [closeStatement]] := by
    rw [statementOf_stretch]
    exact .cons (.single _) (.cons (alike_ofDeclarators hknown h _ _ _ _) (.cons (.single _) .nil))
  cases role with
  | eachHead stop =>
    cases stop with
    | none => exact .cons hfault (hrest false none)
    | some stop => exact .cons .nil (hrest false (some stop))
  | soleBody => exact .cons .nil (hrest true none)
  | _ => exact .cons .nil (hrest false none)

theorem keepsPace_function (form : FunctionForm) {name : Option Ident} {params : List Ident}
    {xs : List Node} (isArrow : Bool) {span : Span} (hs : span.isKnown = true)
    (hname : ∀ i ∈ name.toList, i.span.isKnown = true)
    (hparams : ∀ i ∈ params, i.span.isKnown = true)
    (h : ∀ c ∈ xs, KeepsPace σ c) : KeepsPace σ (.function form name params xs isArrow span) := by
  have hc := Alike.check σ (n := .function form name params xs isArrow span) hs
  refine keepsPace_of_pieces fun p role => .cons (hc _) ?_
  have henter : Alike σ
      [enter .function span (some ⟨form, isArrow, handleOf form name role⟩) []]
      [enter .function (span.stretch σ) (some ⟨form, isArrow,
        handleOf form (name.map (·.stretch σ)) (role.stretch σ)⟩) []] := by
    rw [handleOf_stretch]
    exact .single _
  refine .cons ?_ (.cons henter (.cons (.params σ hparams _ _) (.cons (alike_ofNodes h _)
    (.cons ?_ (.cons (.single _) .nil)))))
  · cases form with
    | expression => exact .nil
    | declaration =>
      cases name with
      | none => exact .fault rfl [] []
      | some i => exact .declareName σ .function (hname i (by simp)) _ _
  · cases form with
    | declaration => exact .nil
    | expression =>
      cases name with
      | none => exact .nil
      | some i =>
        have hself := misplaced?_stretch σ (n := .ident i) (hname i (by simp))
        exact .callee i span.start (hself _) .nil

theorem keepsPace_catchClause {param : Option Ident} {x : Node} {span : Span}
    (hs : span.isKnown = true) (hparam : ∀ i ∈ param.toList, i.span.isKnown = true)
    (hknown : ∀ m ∈ x.phrases, m.span.isKnown = true) (h : ∀ c ∈ x.slots, KeepsPace σ c) :
    KeepsPace σ (.catchClause param x span) := by
  have hc := Alike.check σ (n := .catchClause param x span) hs
  refine keepsPace_of_pieces fun p role => .cons (hc _) (.cons (.single _) (.cons ?_ ?_))
  · cases param with
    | none => exact .nil
    | some i => exact .declareName σ .catchParam (hparam i (by simp)) _ _
  · cases x with
    | absent => exact .cons (.fault rfl [] []) (.cons (.single _) .nil)
    | block xs | program xs | function _ _ _ xs | caseClause _ xs =>
      have hx := Alike.check σ ((Node.forall_phrases rfl).mp hknown).1
      have hxs : ∀ c ∈ xs, KeepsPace σ c := fun c hc => h c (by simp [hc])
      exact .cons (hx _) (.cons (alike_ofNodes hxs _) (.cons (.single _) .nil))
    | _ =>
      have hx := Alike.check σ ((Node.forall_phrases rfl).mp hknown).1
      exact .cons ((hx _).append (.fault rfl [] [])) (.cons (.single _) .nil)

/-- Without a fault, every case of the switch is there and has a span. -/
theorem keepsPace_switchStmt {x : Node} {xs : List Node} {span : Span} (hs : span.isKnown = true)
    (hx : KeepsPace σ x) (hxs : ∀ c ∈ xs, KeepsPace σ c) : KeepsPace σ (.switchStmt x xs span) := by
  intro p role
  have hc := Alike.check σ (n := .switchStmt x xs span) hs p.outer
  have hany : (stretchAll σ xs).any (·.isAbsent) = xs.any (·.isAbsent) := by
    simp [stretchAll_eq, List.any_map, Function.comp_def]
  change Alike σ (check _ _ ++ ofNode _ _ x ++
      (if xs.any (·.isAbsent) then [fault .noPart] else []) ++
      [enter .block span none (xs.map (·.span))] ++ ofNodes _ xs ++ [leave])
    (check _ _ ++ ofNode _ _ (x.stretch σ) ++
      (if (stretchAll σ xs).any (·.isAbsent) then [fault .noPart] else []) ++
      [enter .block (span.stretch σ) none ((stretchAll σ xs).map (·.span))] ++
      ofNodes _ (stretchAll σ xs) ++ [leave])
  rw [hany]
  cases ha : xs.any (·.isAbsent) with
  | true =>
    -- an absent case has no span to move, but nothing counts after the fault
    simp only [if_true, List.append_assoc]
    exact hc.append ((hx _ _).append (.fault rfl _ _))
  | false =>
    have hcases : (stretchAll σ xs).map (·.span) = (xs.map (·.span)).map (·.stretch σ) := by
      rw [stretchAll_eq, List.map_map, List.map_map]
      refine List.map_congr_left fun c hc => Node.span_stretch σ ?_
      simpa using List.any_eq_false.mp ha c hc
    rw [hcases]
    exact ((((hc.append (hx _ _)).append .nil).append (.single _)).append
      (alike_ofNodes hxs _)).append (.single _)

/-- The events of a node are alike if those of its slots are. The declarators of a statement and the
body of a `catch` clause are not read by themselves, but their slots are. -/
theorem keepsPace_step {n : Node} (hknown : ∀ m ∈ n.phrases, m.span.isKnown = true)
    (ih : ∀ c ∈ n.slots, KeepsPace σ c) (ih' : ∀ c ∈ n.slots, ∀ d ∈ c.slots, KeepsPace σ d) :
    KeepsPace σ n := by
  cases n with
  | absent => exact fun _ _ => .fault rfl [] []
  | ident =>
    intro p role
    refine Alike.fault ?_ [] []
    rfl
  | lookup name =>
    intro p role
    have hkind : (role.stretch σ).refKind = role.refKind := by cases role <;> rfl
    change Alike σ (check _ _ ++ [refer name role.refKind])
      (check _ _ ++ [refer (name.stretch σ) (role.stretch σ).refKind])
    rw [hkind]
    exact (Alike.check σ ((Node.forall_phrases rfl).mp hknown).1 _).append (.single _)
  | member x y computed =>
    cases computed <;> exact keepsPace_laid hknown rfl (fun _ _ => rfl) (fun _ _ => rfl) (by simp)
      ih ih'
  | assign op x y =>
    refine keepsPace_laid hknown rfl (fun _ _ => rfl) (fun p _ => ?_) (by simp) ih ih'
    simp only [Node.stretch, layout, valueRole_stretch]
    rfl
  | call x xs =>
    refine keepsPace_laid hknown rfl (fun _ _ => rfl) (fun p _ => ?_) (by simp) ih ih'
    simp only [Node.stretch, layout, evalCalls_stretch]
    rfl
  | forEachStmt x y z =>
    refine keepsPace_laid hknown rfl (fun _ _ => rfl) (fun p _ => ?_) (by simp) ih ih'
    simp only [Node.stretch, layout, subjectEnd_stretch]
    rfl
  | function form name params xs isArrow span =>
    obtain ⟨hs, hslots⟩ := (Node.forall_phrases rfl).mp hknown
    simp only [Node.slots, List.forall_mem_append] at ih hslots
    exact keepsPace_function form isArrow hs (isKnown_of_idents hslots.1.1)
      (isKnown_of_idents hslots.1.2) ih.2
  | varDecl k ds span =>
    obtain ⟨hs, hslots⟩ := (Node.forall_phrases rfl).mp hknown
    exact keepsPace_varDecl k hs hslots ih'
  | catchClause param x span =>
    obtain ⟨hs, hslots⟩ := (Node.forall_phrases rfl).mp hknown
    simp only [Node.slots, List.forall_mem_append, List.forall_mem_cons] at hslots ih'
    exact keepsPace_catchClause hs (isKnown_of_idents hslots.1) hslots.2.1 ih'.2.1
  | switchStmt x xs span =>
    have hs := ((Node.forall_phrases rfl).mp hknown).1
    simp only [Node.slots, List.forall_mem_cons] at ih
    exact keepsPace_switchStmt hs ih.1 ih.2
  | _ => exact keepsPace_laid hknown rfl (fun _ _ => rfl) (fun _ _ => rfl) (by simp) ih ih'

/-- If all spans of a tree are known, its events are alike. -/
theorem keepsPace {n : Node} (hknown : ∀ m ∈ n.phrases, m.span.isKnown = true) :
    KeepsPace σ n ∧ ∀ c ∈ n.slots, KeepsPace σ c := by
  induction n using Node.byPhrases with
  | absent => exact ⟨fun _ _ => .fault rfl [] [], nofun⟩
  | step n ha ih =>
    have hslots := ((Node.forall_phrases ha).mp hknown).2
    have hpace := fun c hc => (ih c hc (hslots c hc)).1
    exact ⟨keepsPace_step hknown hpace fun c hc => (ih c hc (hslots c hc)).2, hpace⟩

/-- The two readings of a script are alike. -/
theorem alike_ofScript (σ : Stretch) {script : Node}
    (hknown : ∀ m ∈ script.phrases, m.span.isKnown = true) (ha : script.isAbsent = false) :
    Alike σ (ofScript script) (ofScript (script.stretch σ)) := by
  unfold ofScript
  rw [Node.span_stretch σ ha]
  exact .same (.enter .program script.span none []) ((keepsPace hknown).1 _ .plain)

end Event

end ScopeLowering
