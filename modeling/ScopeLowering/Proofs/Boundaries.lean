import Mathlib.Data.List.Basic
import ScopeLowering.Proofs.Admission
import ScopeLowering.Proofs.Layout
import ScopeLowering.Proofs.Lowering
import ScopeLowering.Proofs.Ownership

/-!
# Names within their script

Going through a tree that lacks no part (`Node.isWhole`) fails in one way only: the tree is found to
be malformed (`Scoping.isMalformed_of_isWhole`). And whatever tree has scopes, all the names that it
declares lie within the span of the script (`Scoping.isPlacedIn_script`).

## The model

`Event.Tidy` says both things about the events of a stretch: what goes wrong in it, and where the
names are that it declares if nothing goes wrong. Trees need not be sorted here, so this is a
recursion over all of them.
-/

namespace ScopeLowering

/-- Does the tree not hang together? -/
def ScopeFault.isMalformed : ScopeFault → Bool
  | malformed .. => true
  | noPart | notList => false

namespace Node

/-- Are there all the parts that going through the node cannot do without? -/
def hasParts : Node → Bool
  | function .declaration name .. => name.isSome
  | varDecl _ ds _ => ds.all isDeclarator
  | forEachStmt _ subject .. => !subject.isAbsent
  | catchClause _ body _ => body.isBlock
  | switchStmt _ cases _ => !cases.any (·.isAbsent)
  | _ => true

/-- Are there all the parts that going through the tree cannot do without? -/
def isWhole (n : Node) : Bool := n.phrases.all hasParts

theorem isWhole_iff {n : Node} (h : n.isAbsent = false) :
    n.isWhole = true ↔ n.hasParts = true ∧ ∀ c ∈ n.slots, c.isWhole = true := by
  simp only [isWhole, List.all_eq_true]
  exact forall_phrases h

theorem isWhole_of_slot {n c : Node} (h : n.isWhole = true) (hc : c ∈ n.slots) :
    c.isWhole = true := by
  cases n with
  | absent => cases hc
  | _ => exact ((isWhole_iff rfl).mp h).2 c hc

end Node

namespace Event

/-- What is wrong with the tree where the event is met. -/
def problem? : Event → Option ScopeFault
  | fault f => some f
  | callee _ _ problem => problem
  | _ => none

def isFault : Event → Bool
  | fault _ => true
  | _ => false

/-- The name that is declared by the event, if it goes through. -/
def bound? : Event → Option Ident
  | declare _ name .. | callee name _ none => some name
  | _ => none

/-- If the stretch is whole, it has no faults but those of a malformed tree; and without a fault it
declares names in their places only. -/
structure Tidy (whole : Prop) (es : List Event) (outer : Node) : Prop where
  problems : whole → ∀ e ∈ es, ∀ f ∈ e.problem?, f.isMalformed = true
  names : (∀ e ∈ es, e.isFault = false) → ∀ e ∈ es, ∀ name ∈ e.bound?,
    (Node.ident name).isPlacedIn outer = true

namespace Tidy

variable {whole : Prop} {es fs : List Event} {o n : Node}

theorem nil : Tidy whole [] o := ⟨fun _ => List.forall_mem_nil _, fun _ => List.forall_mem_nil _⟩

theorem append (h : Tidy whole es o) (h' : Tidy whole fs o) : Tidy whole (es ++ fs) o := by
  refine ⟨fun hw => List.forall_mem_append.mpr ⟨h.problems hw, h'.problems hw⟩, fun hno => ?_⟩
  obtain ⟨hes, hfs⟩ := List.forall_mem_append.mp hno
  exact List.forall_mem_append.mpr ⟨h.names hes, h'.names hfs⟩

/-- Events that neither declare a name nor find a fault. -/
theorem mute {e : Event} (hp : e.problem? = none) (hd : e.bound? = none) :
    Tidy whole [e] o := by
  refine ⟨fun _ => List.forall_mem_singleton.mpr ?_, fun _ => List.forall_mem_singleton.mpr ?_⟩
  · rw [hp]
    exact fun f hf => nomatch hf
  · rw [hd]
    exact fun name hname => nomatch hname

theorem fault {f : ScopeFault} (h : whole → f.isMalformed = true) :
    Tidy whole [Event.fault f] o := by
  refine ⟨fun hw => List.forall_mem_singleton.mpr ?_, fun hno => ?_⟩
  · rintro _ ⟨⟩
    exact h hw
  · cases hno _ List.mem_cons_self

theorem check (hn : n.isAbsent = false) : Tidy whole (check n o) o := by
  unfold Event.check
  rcases misplaced?_cases hn o with ⟨_, hm⟩ | ⟨_, message, phrase, hm⟩ <;> rw [hm]
  · exact nil
  · exact .fault fun _ => rfl

theorem isPlacedIn_of_check (hn : n.isAbsent = false)
    (h : ∀ e ∈ Event.check n o, e.isFault = false) : n.isPlacedIn o = true := by
  rcases misplaced?_cases hn o with ⟨hp, _⟩ | ⟨_, message, phrase, hm⟩
  · exact hp
  · rw [Event.check, hm] at h
    cases h _ List.mem_cons_self

/-- A name is declared where it has been checked. -/
theorem declareChecked {e : Event} {name : Ident} (hp : e.problem? = none)
    (hd : e.bound? = some name) : Tidy whole (Event.check (.ident name) o ++ [e]) o := by
  have hname : Tidy whole (Event.check (.ident name) o) o := check rfl
  refine ⟨fun hw => List.forall_mem_append.mpr ⟨hname.problems hw, ?_⟩, fun hno => ?_⟩
  · rw [List.forall_mem_singleton, hp]
    exact fun f hf => nomatch hf
  · obtain ⟨hcheck, _⟩ := List.forall_mem_append.mp hno
    refine List.forall_mem_append.mpr ⟨hname.names hcheck, ?_⟩
    rw [List.forall_mem_singleton, hd]
    rintro _ ⟨⟩
    exact isPlacedIn_of_check rfl hcheck

theorem declareName (kind : BindingKind) (name : Ident) (ready : Offset) :
    Tidy whole (declareName kind name ready o) o := declareChecked rfl rfl

theorem params (names : List Ident) (ready : Offset) :
    Tidy whole (names.flatMap fun i => Event.declareName .param i ready o) o := by
  induction names with
  | nil => exact nil
  | cons i rest ih => exact (declareName .param i ready).append ih

theorem ofParam (param : Option Ident) (ready : Offset) : Tidy whole (ofParam param ready o) o := by
  cases param with
  | none => exact nil
  | some i => exact declareName .catchParam i ready

/-- The own name of a function expression is declared only in its place. -/
theorem callee (name : Ident) (ready : Offset) :
    Tidy whole [Event.callee name ready (misplaced? (.ident name) o)] o := by
  rcases misplaced?_cases (n := .ident name) rfl o with ⟨hp, hm⟩ | ⟨_, message, phrase, hm⟩ <;>
    rw [hm]
  · refine ⟨fun _ => List.forall_mem_singleton.mpr (fun f hf => nomatch hf), fun _ =>
      List.forall_mem_singleton.mpr ?_⟩
    rintro _ ⟨⟩
    exact hp
  · refine ⟨fun _ => List.forall_mem_singleton.mpr ?_, fun _ =>
      List.forall_mem_singleton.mpr fun name hname => nomatch hname⟩
    rintro _ ⟨⟩
    rfl

theorem evalCalls (fn : Node) : Tidy whole (evalCalls fn) o := by
  unfold Event.evalCalls
  split
  · split
    · exact mute rfl rfl
    · exact nil
  · exact nil

theorem faultIf (c : Prop) [Decidable c] {f : ScopeFault} (h : whole → ¬ c) :
    Tidy whole (if c then [Event.fault f] else []) o := by
  split
  · exact .fault fun hw => absurd ‹_› (h hw)
  · exact nil

theorem optional (h : Tidy whole es o) (absent : Bool) :
    Tidy whole (if absent then [] else es) o := by
  split
  · exact nil
  · exact h

/-- What lies in a node lies where the node has been checked. -/
theorem within (hn : n.isAbsent = false) (h : Tidy whole es n) :
    Tidy whole (Event.check n o ++ es) o := by
  have hcheck : Tidy whole (Event.check n o) o := check hn
  refine ⟨fun hw => List.forall_mem_append.mpr ⟨hcheck.problems hw, h.problems hw⟩, fun hno => ?_⟩
  obtain ⟨hfirst, hes⟩ := List.forall_mem_append.mp hno
  refine List.forall_mem_append.mpr ⟨hcheck.names hfirst, fun e he name hname => ?_⟩
  exact Node.isPlacedIn_trans hn (h.names hes e he name hname) (isPlacedIn_of_check hn hfirst)

/-- The events of a node are tidy piece by piece. -/
theorem laid {p : Place} {role : Role} {ps : List Piece} (hn : n.isAbsent = false)
    (hl : layout p role n = .own (Event.check n p.outer) :: ps)
    (h : ps.Forall fun x => Tidy whole x.events n) : Tidy whole (ofNode p role n) p.outer := by
  rw [ofNode_eq_layout, hl]
  refine within hn ?_
  clear hl
  induction ps with
  | nil => exact nil
  | cons x ps ih =>
    rw [List.forall_cons] at h
    exact h.1.append (ih h.2)

end Tidy

/-- Are the events of the node tidy in every place? -/
def Neat (whole : Prop) (n : Node) : Prop :=
  ∀ p role, (whole → role.isHeadless = false) → Tidy whole (ofNode p role n) p.outer

variable {whole : Prop}

theorem Neat.parts {ns : List Node} (h : ∀ n ∈ ns, Neat whole n) (p : Place) :
    Tidy whole (ofNodes p ns) p.outer := by
  induction ns with
  | nil => exact .nil
  | cons n ns ih =>
    obtain ⟨hn, hns⟩ := List.forall_mem_cons.mp h
    exact .append (.optional (hn _ _ fun _ => rfl) _) (ih hns)

theorem Neat.declarators {ds : List Node} (h : ∀ d ∈ ds, ∀ x ∈ d.slots, Neat whole x)
    (hall : whole → ds.all Node.isDeclarator = true) (p : Place) (statement : Statement)
    (unbraced : Bool) (each : Option Offset) :
    Tidy whole (ofDeclarators p statement unbraced each ds) p.outer := by
  induction ds with
  | nil => exact .nil
  | cons d ds ih =>
    obtain ⟨hd, hds⟩ := List.forall_mem_cons.mp h
    simp only [List.all_cons, Bool.and_eq_true] at hall
    have hrest := ih hds fun hw => (hall hw).2
    cases d with
    | declarator name init span =>
      have hinit := hd init (by simp) p (.stored name) fun _ => rfl
      change Tidy whole (check _ _ ++ _ ++ check _ _ ++ [_] ++ _) _
      rw [List.append_assoc (check _ _ ++ _)]
      exact .append (.append (.append (.check rfl) (.optional hinit _)) (.declareChecked rfl rfl))
        hrest
    | absent => exact .append (.fault fun hw => (Bool.false_ne_true (hall hw).1).elim) hrest
    | _ =>
      have hfault : Tidy whole [fault .noPart] p.outer :=
        .fault fun hw => (Bool.false_ne_true (hall hw).1).elim
      exact .append (.append (.check rfl) hfault) hrest

theorem Neat.part {n : Node} (h : Neat whole n) (p : Place) {role : Role}
    (hr : role.isHeadless = false) : Tidy whole (ofNode p role n) p.outer := h p role fun _ => hr

theorem neat_step {n : Node} (hn : whole → n.hasParts = true) (ih : ∀ c ∈ n.slots, Neat whole c)
    (ih' : ∀ c ∈ n.slots, ∀ d ∈ c.slots, Neat whole d) : Neat whole n := by
  intro p role hrole
  cases n with
  | absent | ident => exact .fault fun _ => rfl
  | literal | emptyStmt | breakStmt | continueStmt => exact .laid rfl rfl trivial
  | lookup | thisExpr => exact .laid rfl rfl (.mute rfl rfl)
  | arrayLit xs | objectLit xs | sequence xs | program xs =>
    exact .laid rfl rfl (Neat.parts ih _)
  | block xs => exact .laid rfl rfl ⟨.mute rfl rfl, Neat.parts ih _, .mute rfl rfl⟩
  | property _ x | unary _ x | exprStmt x | throwStmt x | update _ x =>
    exact .laid rfl rfl ((ih x (by simp)).part _ rfl)
  | returnStmt x | declarator _ x =>
    exact .laid rfl rfl (.optional ((ih x (by simp)).part _ rfl) _)
  | binary _ x y | logical _ x y =>
    exact .laid rfl rfl ⟨(ih x (by simp)).part _ rfl, (ih y (by simp)).part _ rfl⟩
  | assign op x y =>
    have hvalue : (valueRole op x).isHeadless = false := by
      cases x with
      | lookup => unfold valueRole; dsimp only; split <;> rfl
      | _ => rfl
    exact .laid rfl rfl ⟨(ih x (by simp)).part _ rfl, (ih y (by simp)).part _ hvalue⟩
  | member x y computed =>
    refine .laid rfl rfl ⟨(ih x (by simp)).part _ rfl, ?_⟩
    cases computed with
    | true => exact (ih y (by simp)).part _ rfl
    | false => exact .nil
  | conditional x y z =>
    exact .laid rfl rfl ⟨(ih x (by simp)).part _ rfl, (ih y (by simp)).part _ rfl,
      (ih z (by simp)).part _ rfl⟩
  | ifStmt x y z =>
    exact .laid rfl rfl ⟨(ih x (by simp)).part _ rfl, (ih y (by simp)).part _ rfl,
      .optional ((ih z (by simp)).part _ rfl) _⟩
  | tryStmt x y z =>
    exact .laid rfl rfl ⟨(ih x (by simp)).part _ rfl, .optional ((ih y (by simp)).part _ rfl) _,
      .optional ((ih z (by simp)).part _ rfl) _⟩
  | whileStmt x y | doWhileStmt x y =>
    exact .laid rfl rfl ⟨.mute rfl rfl, (ih x (by simp)).part _ rfl, (ih y (by simp)).part _ rfl,
      .mute rfl rfl⟩
  | withStmt x y =>
    exact .laid rfl rfl ⟨.mute rfl rfl, (ih x (by simp)).part _ rfl, (ih y (by simp)).part _ rfl⟩
  | forStmt x y z w =>
    exact .laid rfl rfl ⟨.mute rfl rfl, .optional ((ih x (by simp)).part _ rfl) _,
      .optional ((ih y (by simp)).part _ rfl) _, .optional ((ih z (by simp)).part _ rfl) _,
      (ih w (by simp)).part _ rfl, .mute rfl rfl⟩
  | forEachStmt x y z =>
    have hhead : whole → (Role.eachHead (subjectEnd y)).isHeadless = false := fun hw => by
      have hpresent := hn hw
      rw [Node.hasParts, Bool.not_eq_true'] at hpresent
      rw [subjectEnd, hpresent]
      rfl
    exact .laid rfl rfl ⟨.mute rfl rfl, ih x (by simp) _ _ hhead, (ih y (by simp)).part _ rfl,
      (ih z (by simp)).part _ rfl, .mute rfl rfl⟩
  | call x xs =>
    obtain ⟨hx, hxs⟩ := List.forall_mem_cons.mp ih
    exact .laid rfl rfl ⟨.evalCalls x, hx.part _ rfl, Neat.parts hxs _⟩
  | newCall x xs =>
    obtain ⟨hx, hxs⟩ := List.forall_mem_cons.mp ih
    exact .laid rfl rfl ⟨hx.part _ rfl, Neat.parts hxs _⟩
  | caseClause x xs =>
    obtain ⟨hx, hxs⟩ := List.forall_mem_cons.mp ih
    exact .laid rfl rfl ⟨.optional (hx.part _ rfl) _, Neat.parts hxs _⟩
  | switchStmt x xs =>
    obtain ⟨hx, hxs⟩ := List.forall_mem_cons.mp ih
    have hcases : whole → ¬ xs.any (·.isAbsent) = true := fun hw => by
      have hpresent := hn hw
      rw [Node.hasParts, Bool.not_eq_true'] at hpresent
      simp [hpresent]
    exact .laid rfl rfl ⟨hx.part _ rfl, .faultIf _ hcases, .mute rfl rfl, Neat.parts hxs _,
      .mute rfl rfl⟩
  | function form name params xs =>
    have hxs : ∀ c ∈ xs, Neat whole c := fun c hc => ih c (by simp [hc])
    refine .laid rfl rfl ⟨?_, .mute rfl rfl, .params params _, Neat.parts hxs _, ?_, .mute rfl rfl⟩
    · cases form with
      | expression => exact .nil
      | declaration =>
        cases name with
        | none => exact .fault fun hw => (Bool.false_ne_true (hn hw)).elim
        | some i => exact .declareName _ _ _
    · cases form with
      | declaration => exact .nil
      | expression =>
        cases name with
        | none => exact .nil
        | some i => exact .callee _ _
  | varDecl keyword ds span =>
    refine .laid rfl rfl ⟨.faultIf _ fun hw heach => ?_, .mute rfl rfl,
      Neat.declarators ih' hn _ _ _ _, .mute rfl rfl⟩
    have hrole := hrole hw
    cases role with
    | eachHead stop =>
      cases stop with
      | none => cases hrole
      | some => cases heach
    | _ => cases heach
  | catchClause param body span =>
    have hbody := ih' body (by simp)
    cases body with
    | block xs | program xs | function _ _ _ xs | caseClause _ xs =>
      have hxs : ∀ c ∈ xs, Neat whole c := fun c hc => hbody c (by simp [hc])
      rw [ofNode_eq_layout]
      -- what stands in the block lies in the clause, since the block does
      exact .within rfl (.append (.mute rfl rfl) (.append (.ofParam param _) (.within rfl
        (.append (Neat.parts hxs _) (.append (.mute rfl rfl) .nil)))))
    | absent =>
      have hfault : Tidy whole [fault .noPart] (.catchClause param .absent span) :=
        .fault fun hw => (Bool.false_ne_true (hn hw)).elim
      exact .laid rfl rfl ⟨.mute rfl rfl, .ofParam param _, hfault, .mute rfl rfl⟩
    | _ =>
      exact .laid rfl rfl ⟨.mute rfl rfl, .ofParam param _,
        .append (.check rfl) (.fault fun hw => (Bool.false_ne_true (hn hw)).elim), .mute rfl rfl⟩

/-- The events of a tree are tidy. -/
theorem neat {n : Node} (hn : whole → n.isWhole = true) : Neat whole n := by
  induction n using Node.byParts with | step n ih ih' =>
  refine neat_step (fun hw => ?_) (fun c hc => ih c hc fun hw => Node.isWhole_of_slot (hn hw) hc)
    fun c hc d hd => ih' c hc d hd fun hw =>
      Node.isWhole_of_slot (Node.isWhole_of_slot (hn hw) hc) hd
  cases ha : n.isAbsent with
  | true =>
    cases n with
    | absent => rfl
    | _ => cases ha
  | false => exact ((Node.isWhole_iff ha).mp (hn hw)).1

end Event

namespace Draft

variable {d d' : Draft} {es : List Event}

/-- Events that do not go through have a problem. -/
theorem exists_problem {f : ScopeFault} (h : d.steps es = .error f) :
    ∃ e ∈ es, e.problem? = some f := by
  induction es generalizing d with
  | nil => cases h
  | cons e es ih =>
    rw [steps_cons] at h
    cases hstep : d.step e with
    | ok m =>
      rw [hstep] at h
      obtain ⟨x, hx, hf⟩ := ih h
      exact ⟨x, List.mem_cons_of_mem e hx, hf⟩
    | error g =>
      rw [hstep] at h
      cases h
      refine ⟨e, List.mem_cons_self, ?_⟩
      cases e with
      | fault => cases hstep; rfl
      | callee name ready problem =>
        simp only [step] at hstep
        split at hstep
        · cases hstep
        · split at hstep <;> cases hstep
          rfl
      | _ => cases hstep

theorem isFault_eq_false (h : d.steps es = .ok d') : ∀ e ∈ es, e.isFault = false := by
  intro e he
  cases e with
  | fault f => exact absurd he (fault_not_mem_steps h f)
  | _ => rfl

/-- A declaration is made by an event that binds its name. -/
theorem exists_bound (h : d.steps es = .ok d') :
    ∀ δ ∈ d.declarations es, ∃ e ∈ es, e.bound? = some δ.site.name := by
  induction es generalizing d with
  | nil => exact List.forall_mem_nil _
  | cons e es ih =>
    obtain ⟨m, he, hes⟩ := steps_cons_ok.mp h
    intro δ hδ
    rw [declarations_cons he, List.mem_append] at hδ
    rcases hδ with hδ | hδ
    · refine ⟨e, List.mem_cons_self, ?_⟩
      rw [Option.mem_toList] at hδ
      cases e with
      | declare => cases hδ; rfl
      | callee name ready problem =>
        simp only [declaration?] at hδ
        simp only [step] at he
        split at hδ
        · cases hδ
        · rw [if_neg ‹_›] at he
          cases hδ
          split at he
          · cases he
          · rfl
      | _ => cases hδ
    · obtain ⟨x, hx, hname⟩ := ih hes δ hδ
      exact ⟨x, List.mem_cons_of_mem e hx, hname⟩

end Draft

namespace Scoping

variable {script : Node}

/-- A tree that lacks no part either has scopes or is malformed. -/
theorem isMalformed_of_isWhole (hw : script.isWhole = true) {f : ScopeFault}
    (h : ofScript script = .error f) : f.isMalformed = true := by
  cases script with
  | program xs span =>
    cases hsteps : Draft.steps {} (Event.ofScript (.program xs span)) with
    | ok d =>
      rw [ofScript, hsteps] at h
      cases h
    | error g =>
      rw [ofScript, hsteps] at h
      cases h
      obtain ⟨e, he, hf⟩ := Draft.exists_problem hsteps
      rcases List.mem_cons.mp he with rfl | he
      · cases hf
      · exact (Event.neat (fun _ => hw) _ _ fun _ => rfl).problems trivial e he f hf
  | _ => cases h; rfl

/-- The names of a script lie within it. -/
theorem isPlacedIn_script {s : Scoping} (h : ofScript script = .ok s) :
    ∀ b ∈ s.table.bindings, (Node.ident b.first.name).isPlacedIn script = true := by
  obtain ⟨d, hd, rfl⟩ := ofScript_ok h
  intro b hb
  obtain ⟨i, hi⟩ := List.getElem?_of_mem hb
  obtain ⟨b₀, hazards, hb₀, rfl, _⟩ := Draft.binding_of_finish hi
  -- the first site of the binding is that of a declaration, which an event makes
  have hsite : (b₀.scope, b₀.first) ∈ Draft.ownedSites d.table.bindings :=
    List.mem_flatMap.mpr ⟨b₀, List.mem_of_getElem? hb₀, List.mem_map_of_mem List.mem_cons_self⟩
  obtain ⟨_, ⟨⟩, hsteps⟩ := Draft.steps_cons_ok.mp hd
  rw [(Draft.ownedSites_steps (Draft.Sound.start script.span) hsteps).mem_iff,
    List.mem_append] at hsite
  obtain ⟨δ, hδ, hfirst⟩ : ∃ δ ∈ Draft.declarations _ _, δ.site = b₀.first := by
    obtain ⟨δ, hδ, heq⟩ := List.mem_map.mp (hsite.resolve_left List.not_mem_nil)
    exact ⟨δ, hδ, congrArg Prod.snd heq⟩
  obtain ⟨e, he, hname⟩ := Draft.exists_bound hsteps δ hδ
  rw [hfirst] at hname
  have hno := Draft.isFault_eq_false hsteps
  cases script with
  | program xs span =>
    obtain ⟨hcheck, hinside⟩ := List.forall_mem_append.mp hno
    rcases List.mem_append.mp he with he | he
    · exact absurd (hcheck e he) (by
        obtain ⟨f, _, rfl⟩ := List.mem_map.mp he
        simp [Event.isFault])
    · have hxs : ∀ x ∈ xs, Event.Neat False x := fun x _ => Event.neat False.elim
      exact (Event.Neat.parts hxs _).names hinside e he _ hname
  | _ => cases h

end Scoping

/-- The names that are decided on lie within the script. -/
theorem Analysis.isPlacedIn_script {script : Node} {o : Options} {a : Analysis}
    (h : Analysis.ofScript script o = .ok a) :
    ∀ x ∈ a.decisionsInOrder, (Node.ident x.1.first.name).isPlacedIn script = true := by
  intro x hx
  obtain ⟨s, hs, hscoping, _⟩ := Analysis.ofScript_ok h
  obtain ⟨decision, _, hd⟩ := List.mem_filterMap.mp (List.mem_mergeSort.mp hx)
  obtain ⟨b, hb, rfl⟩ := Option.map_eq_some_iff.mp hd
  rw [Analysis.table, hscoping] at hb
  obtain ⟨b₀, hb₀, _, hsites⟩ := Scoping.IsTable.binding (.inr rfl) hb
  have hfirst : b.first = b₀.first := (List.cons.inj hsites).1
  rw [hfirst]
  exact Scoping.isPlacedIn_script hs b₀ (List.mem_of_getElem? hb₀)

end ScopeLowering
