import ScopeLowering.Machine.Run
import ScopeLowering.Proofs.Ownership
import ScopeLowering.Proofs.Planning

/-!
# Hoisted names, gathered and attached

Before the first statement of a function runs, its hoisted variables are made from the names that
`hoistedAll` gathers from the body. The scopes of a script attach `var` and function declarations to
functions in another way, one event at a time. The names are the same, with one exception: a
function declaration that stands in the initial value of a declarator is attached, and is not
gathered (`hoisted_names_agree`).

## The model

A tree may be sorted and still hold such a declaration, since it counts as an expression. `gathered`
leaves out what stands in a declaration statement, and `initialized` is what stands in initial
values.
-/

namespace ScopeLowering

namespace Node

/-- The names that a tree declares for the function around it outside of declarators. -/
def gathered (n : Node) : List String :=
  (n.reach fun m => m.isFunction || m.isVarDecl).flatMap hoistedHere

/-- The names that the initial value in a declarator declares for the function around it. -/
@[simp] def initializedHere : Node → List String
  | declarator _ x _ => x.hoisted
  | _ => []

/-- The names that the initial values in a tree declare for the function around it. -/
def initialized (n : Node) : List String := (n.reach isFunction).flatMap initializedHere

theorem gathered_eq (n : Node) :
    n.gathered = n.hoistedHere ++
      if n.isFunction || n.isVarDecl then [] else n.slots.flatMap gathered :=
  flatMap_reach rfl n

theorem initialized_eq (n : Node) :
    n.initialized = n.initializedHere ++ if n.isFunction then [] else n.slots.flatMap initialized :=
  flatMap_reach rfl n

/-- What is hoisted is gathered or stands in an initial value. -/
theorem mem_hoisted {n : Node} (hs : n.isSorted = true) (x : String) :
    x ∈ n.hoisted ↔ x ∈ n.gathered ∨ x ∈ n.initialized := by
  induction n using Node.byPhrases with
  | absent => simp [hoisted, gathered, initialized, reach]
  | step n ha ih =>
    obtain ⟨hf, hss⟩ := (isSorted_iff ha).mp hs
    have ih : ∀ c ∈ n.slots, (x ∈ c.hoisted ↔ x ∈ c.gathered ∨ x ∈ c.initialized) :=
      fun c hc => ih c hc (hss c hc)
    have hslots : x ∈ n.slots.flatMap hoisted ↔
        x ∈ n.slots.flatMap gathered ∨ x ∈ n.slots.flatMap initialized := by
      simp only [List.mem_flatMap]
      grind
    rw [hoisted_eq, gathered_eq, initialized_eq]
    cases n with
    | function => simp
    | varDecl k ds =>
      -- the declarators are not gathered from, and what they hoist stands in their values
      have hds : ∀ d ∈ ds, x ∈ d.hoisted → x ∈ d.initialized := by
        intro d hd hx
        have hdecl := List.all_eq_true.mp hf d hd
        cases d with
        | declarator name y span =>
          rw [hoisted_eq] at hx
          rw [initialized_eq]
          exact List.mem_append_left _ (by simpa using hx)
        | _ => cases hdecl
      have hvalues : x ∈ ds.flatMap hoisted ↔ x ∈ ds.flatMap initialized := by
        simp only [List.mem_flatMap]
        exact exists_congr fun d => and_congr_right fun hd =>
          ⟨hds d hd, fun hx => (ih d hd).mpr (.inr hx)⟩
      simp only [slots, isFunction, isVarDecl, List.mem_append] at hvalues ⊢
      simp [hvalues]
    | declarator name y span =>
      have hvalue : x ∈ y.hoisted ↔ x ∈ (declarator name y span).slots.flatMap hoisted := by simp
      show x ∈ (declarator name y span).slots.flatMap hoisted ↔
        x ∈ (declarator name y span).slots.flatMap gathered ∨
          x ∈ y.hoisted ++ (declarator name y span).slots.flatMap initialized
      rw [List.mem_append, hvalue, or_left_comm, ← hslots, or_self]
    | _ => exact hslots

/-- What is left to do after a part that may be missing. -/
theorem bind_optional {n : Node}
    (h : n.isAbsent = false → ScopeLowering.hoisted n = .ok n.gathered)
    (k : List String → Except Fault (List String)) :
    (if n.isAbsent then k [] else ScopeLowering.hoisted n >>= k) = k n.gathered := by
  cases hn : n.isAbsent with
  | true =>
    cases n with
    | absent => rfl
    | _ => cases hn
  | false =>
    rw [h hn]
    rfl

theorem hoistedAll_eq_gathered {ns : List Node}
    (h : ∀ c ∈ ns, c.isAbsent = false → ScopeLowering.hoisted c = .ok c.gathered) :
    hoistedAll ns = .ok (ns.flatMap gathered) := by
  induction ns with
  | nil => rfl
  | cons n ns ih =>
    rw [List.forall_mem_cons] at h
    rw [hoistedAll]
    refine (bind_optional h.1 _).trans ?_
    rw [ih h.2]
    rfl

theorem declaratorNames_eq {ds : List Node} (h : ∀ d ∈ ds, d.isDeclarator = true) :
    declaratorNames ds = .ok (boundNames ds) := by
  induction ds with
  | nil => rfl
  | cons d ds ih =>
    rw [List.forall_mem_cons] at h
    cases d with
    | declarator name x span =>
      rw [declaratorNames, ih h.2]
      rfl
    | _ => cases h.1

/-- The names of one part after the other. -/
theorem bind_parts {x y : Node} (hx : ScopeLowering.hoisted x = .ok x.gathered)
    (hy : ScopeLowering.hoisted y = .ok y.gathered) :
    (do return (← ScopeLowering.hoisted x) ++ (← ScopeLowering.hoisted y)) =
      Except.ok (x.gathered ++ y.gathered) := by
  rw [hx, hy]
  rfl

/-- The evaluator gathers the names of sorted trees. -/
theorem hoisted_eq_gathered {n : Node} (hs : n.isSorted = true) (hr : n.isReadable = true) :
    ScopeLowering.hoisted n = .ok n.gathered := by
  induction n using Node.bySlots with
  | step n ih =>
    obtain ⟨hf, hss⟩ := (isSorted_iff (isAbsent_of_isReadable hr)).mp hs
    have hparts : ∀ c ∈ n.slots, c.isReadable = true → ScopeLowering.hoisted c = .ok c.gathered :=
      fun c hc hr => ih c hc (hss c hc) hr
    clear ih hss hs
    rw [gathered_eq]
    cases n with
    | absent | ident | declarator => cases hr
    | literal | lookup | thisExpr | emptyStmt | breakStmt | continueStmt => rfl
    | varDecl k ds =>
      cases k with
      | varWord =>
        show declaratorNames ds = .ok (boundNames ds ++ [])
        rw [declaratorNames_eq (List.all_eq_true.mp hf), List.append_nil]
      | letWord | constWord => rfl
    | function form name =>
      cases form with
      | expression => rfl
      | declaration =>
        cases name with
        | none => cases hf
        | some => rfl
    | arrayLit xs | objectLit xs | sequence xs | block xs | program xs =>
      simp only [slots, isFormed, List.all_eq_true] at hparts hf
      exact hoistedAll_eq_gathered fun c hc ha => hparts c hc (by grind [isOptional])
    | property _ x | update _ x | unary _ x | exprStmt x | throwStmt x =>
      simp only [slots, List.forall_mem_cons, isFormed] at hparts hf
      show ScopeLowering.hoisted x = .ok (x.gathered ++ [])
      rw [hparts.1 (by grind), List.append_nil]
    | catchClause param x =>
      rw [isFormed] at hf
      show ScopeLowering.hoisted x = _
      rw [hparts x (by simp) (isReadable_of_isBlock hf)]
      cases param <;> simp [isVarDecl, gathered_eq (.ident _)]
    | member x y computed =>
      simp only [slots, List.forall_mem_cons, isFormed, Bool.and_eq_true] at hparts hf
      have hx := hparts.1 (isReadable_of_isExpression hf.1)
      cases computed with
      | true =>
        have hy := hparts.2.1 (isReadable_of_isExpression hf.2)
        show _ = Except.ok (x.gathered ++ (y.gathered ++ []))
        rw [List.append_nil]
        exact bind_parts hx hy
      | false =>
        cases y with
        | literal v s =>
          show (ScopeLowering.hoisted x >>= fun names => pure names) =
            Except.ok (x.gathered ++ [])
          rw [hx, List.append_nil]
          rfl
        | _ => cases hf.2
    | assign _ x y | binary _ x y | logical _ x y | whileStmt x y | doWhileStmt x y
    | withStmt x y =>
      simp only [slots, List.forall_mem_cons, isFormed, Bool.and_eq_true] at hparts hf
      show _ = Except.ok (x.gathered ++ (y.gathered ++ []))
      rw [List.append_nil]
      exact bind_parts (hparts.1 (by grind)) (hparts.2.1 (by grind))
    | conditional x y z | forEachStmt x y z =>
      simp only [slots, List.forall_mem_cons, isFormed, Bool.and_eq_true, Bool.or_eq_true]
        at hparts hf
      show (do return (← ScopeLowering.hoisted x) ++ (← ScopeLowering.hoisted y) ++
        (← ScopeLowering.hoisted z)) = Except.ok (x.gathered ++ (y.gathered ++ (z.gathered ++ [])))
      rw [hparts.1 (by grind), hparts.2.1 (by grind), hparts.2.2.1 (by grind), List.append_nil,
        ← List.append_assoc]
      rfl
    | call x xs | newCall x xs | switchStmt x xs =>
      simp only [slots, List.forall_mem_cons, isFormed, Bool.and_eq_true, List.all_eq_true]
        at hparts hf
      show (do return (← ScopeLowering.hoisted x) ++ (← hoistedAll xs)) =
        Except.ok (x.gathered ++ xs.flatMap gathered)
      rw [hparts.1 (by grind), hoistedAll_eq_gathered fun c hc _ => hparts.2 c hc (by grind)]
      rfl
    | caseClause x xs =>
      simp only [slots, List.forall_mem_cons, isFormed, Bool.and_eq_true, List.all_eq_true]
        at hparts hf
      refine (bind_optional (fun ha => hparts.1 (by grind [isOptional])) _).trans ?_
      rw [hoistedAll_eq_gathered fun c hc _ => hparts.2 c hc (by grind)]
      rfl
    | returnStmt x =>
      simp only [slots, List.forall_mem_cons, isFormed] at hparts hf
      have hx := fun ha => hparts.1 (isReadable_of_isExpression (of_isOptional hf ha))
      show (if x.isAbsent then .ok [] else ScopeLowering.hoisted x) = .ok (x.gathered ++ [])
      rw [List.append_nil, ← bind_optional hx .ok]
      cases ScopeLowering.hoisted x <;> rfl
    | ifStmt x y z =>
      simp only [slots, List.forall_mem_cons, isFormed, Bool.and_eq_true] at hparts hf
      rw [ScopeLowering.hoisted, hparts.1 (by grind), hparts.2.1 (by grind)]
      have hrest := bind_optional (fun ha => hparts.2.2.1 (by grind [isOptional]))
        fun names => .ok (x.gathered ++ y.gathered ++ names)
      rw [List.append_nil] at hrest
      exact hrest.trans (by simp [isVarDecl])
    | tryStmt x y z =>
      simp only [slots, List.forall_mem_cons, isFormed, Bool.and_eq_true] at hparts hf
      rw [ScopeLowering.hoisted, hparts.1 (by grind)]
      refine (bind_optional (fun ha => hparts.2.1 (by grind [isOptional])) _).trans
        ((bind_optional (fun ha => hparts.2.2.1 (by grind [isOptional])) _).trans ?_)
      simp [isVarDecl]
      rfl
    | forStmt x y z w =>
      simp only [slots, List.forall_mem_cons, isFormed, Bool.and_eq_true, Bool.or_eq_true]
        at hparts hf
      rw [ScopeLowering.hoisted, hparts.2.2.2.1 (by grind)]
      refine (bind_optional (fun ha => hparts.1 (by grind [isOptional])) _).trans
        ((bind_optional (fun ha => hparts.2.1 (by grind [isOptional])) _).trans
        ((bind_optional (fun ha => hparts.2.2.1 (by grind [isOptional])) _).trans ?_))
      simp [isVarDecl]

end Node

/-! ### Gathered and attached -/

/-- A function and the script own the names that are hoisted in their bodies. -/
theorem Node.mem_claims_hoisted {n : Node} (h : n.scopeKind.isFunctionLevel = true) (id : ScopeId)
    (x : String) : ⟨.hoisted, id, x⟩ ∈ n.claims id ↔ x ∈ n.inside.flatMap Node.hoisted := by
  simp [claims, h]

theorem Node.isSorted_of_mem_scopes {script n : Node} (hs : script.isSorted = true) {id : Nat}
    (hn : script.scopes[id]? = some n) : n.isSorted = true := by
  rcases List.mem_cons.mp (List.mem_of_getElem? hn) with rfl | hn
  · exact hs
  · exact isSorted_of_mem_openers hs hn

/-- The body of a function and of the script consists of statements. -/
theorem Node.inside_of_isFunctionLevel {n : Node} (hk : n.scopeKind.isFunctionLevel = true)
    (hs : n.isSorted = true) : ∀ c ∈ n.inside, c.isSorted = true ∧ c.isReadable = true := by
  intro c hc
  cases n with
  | function form name params body =>
    obtain ⟨hf, hss⟩ := (isSorted_iff rfl).mp hs
    simp only [isFormed, Bool.and_eq_true, List.all_eq_true] at hf
    exact ⟨hss c (List.mem_append_right _ hc), isReadable_of_isStatement (hf.2 c hc)⟩
  | program xs =>
    obtain ⟨hf, hss⟩ := (isSorted_iff rfl).mp hs
    exact ⟨hss c hc, isReadable_of_isStatement (List.all_eq_true.mp hf c hc)⟩
  | _ => cases hk

theorem Node.mem_scopes {script m : Node} (hm : m ∈ script.phrases) (hf : m.isFunction = true) :
    m ∈ script.scopes := by
  have hscope : m.isScope = true := by
    cases m with
    | function => rfl
    | _ => cases hf
  obtain ⟨o, ho, _, hfun⟩ := exists_opener hm hscope
  rw [← hfun hf]
  exact List.mem_cons_of_mem _ ho

/-- **The names gathered from a function are those attached to its scope, but for the function
declarations in initial values, which are only attached.** The scopes are those of the nodes of the
script that open one, in order, and every function is among them. -/
theorem hoisted_names_agree (script : Node) (hs : script.isSorted = true) {s : Scoping}
    (h : Scoping.ofScript script = .ok s) :
    s.graph.headers = script.scopes.map Node.header ∧
    (∀ m ∈ script.phrases, m.isFunction = true → m ∈ script.scopes) ∧
    (Draft.ownedSites s.table.bindings).Perm
      (script.declarations.map fun δ => (δ.owner, δ.site)) ∧
    ∀ id n, script.scopes[id]? = some n → n.scopeKind.isFunctionLevel = true →
      ∃ names, hoistedAll n.inside = .ok names ∧ ∀ x,
        (∃ δ ∈ script.declarations,
          δ.kind.manner? = some .hoisted ∧ δ.owner = id ∧ δ.site.name.text = x) ↔
        x ∈ names ∨ x ∈ n.inside.flatMap Node.initialized := by
  have howns := Scoping.owns hs h
  refine ⟨howns.headers, fun m hm hf => Node.mem_scopes hm hf, howns.sites, fun id n hn hk => ?_⟩
  have hbody := Node.inside_of_isFunctionLevel hk (Node.isSorted_of_mem_scopes hs hn)
  refine ⟨n.inside.flatMap Node.gathered,
    Node.hoistedAll_eq_gathered fun c hc _ =>
      Node.hoisted_eq_gathered (hbody c hc).1 (hbody c hc).2, fun x => ?_⟩
  rw [howns.claim_iff hn, Node.mem_claims_hoisted hk]
  simp only [List.mem_flatMap, ← exists_or, ← and_or_left]
  exact exists_congr fun c => and_congr_right fun hc => Node.mem_hoisted (hbody c hc).1 x

/-- `function g(a) { for (var i of a) { if (i) { var y; function h() { var z; } } } try {}
catch (e) { var w; } }`. -/
def gatheringScript : Node :=
  let var (x : String) (start : Int) : Node :=
    let name : Ident := ⟨x, .of (start + 4) (start + 5)⟩
    .varDecl .varWord [.declarator name .absent name.span] (.of start (start + 6))
  let inner : Node := .function .declaration (some ⟨"h", .of 58 59⟩) [] [var "z" 64] false
    (.of 49 72)
  let loop : Node := .forEachStmt (var "i" 21) (.lookup ⟨"a", .of 30 31⟩)
    (.block [.ifStmt (.lookup ⟨"i", .of 39 40⟩) (.block [var "y" 43, inner] (.of 42 74)) .absent
      (.of 35 74)] (.of 33 76)) true (.of 16 76)
  let handler : Node := .catchClause (some ⟨"e", .of 91 92⟩) (.block [var "w" 96] (.of 94 104))
    (.of 84 104)
  .program [.function .declaration (some ⟨"g", .of 9 10⟩) [⟨"a", .of 11 12⟩]
    [loop, .tryStmt (.block [] (.of 81 83)) handler .absent (.of 77 104)] false (.of 0 106)]
    (.of 0 106)

theorem hoisted_names_agree_gatheringScript :
    gatheringScript.isSorted = true ∧ ∃ s, Scoping.ofScript gatheringScript = .ok s ∧
      s.graph.headers.length = 8 ∧
      ∀ x, (∃ δ ∈ gatheringScript.declarations,
          δ.kind.manner? = some .hoisted ∧ δ.owner = 1 ∧ δ.site.name.text = x) ↔
        x ∈ ["i", "y", "h", "w"] := by
  have hs : gatheringScript.isSorted = true := by decide
  obtain ⟨s, h, _⟩ := exists_ok_of_any
    (show (Scoping.ofScript gatheringScript).toOption.any (fun _ => true) = true by decide +kernel)
  obtain ⟨hheaders, _, _, hnames⟩ := hoisted_names_agree gatheringScript hs h
  refine ⟨hs, s, h, by rw [hheaders]; decide, fun x => ?_⟩
  obtain ⟨names, hn, hx⟩ := hnames 1 _ rfl rfl
  cases hn
  exact (hx x).trans (or_iff_left (show x ∉ [] from List.not_mem_nil))

/-- `f; let x = function f() {}`, where the function is a declaration. -/
def valueScript : Node :=
  .program [.exprStmt (.lookup ⟨"f", .of 0 1⟩) (.of 0 2),
    .varDecl .letWord [.declarator ⟨"x", .of 7 8⟩
      (.function .declaration (some ⟨"f", .of 20 21⟩) [] [] false (.of 11 26)) (.of 7 26)]
      (.of 3 26)] (.of 0 26)

/-- The declaration is attached to the script, whose hoisted variables do not have it, so its name
is not found when the script runs. -/
theorem valueScript_not_gathered :
    valueScript.isSorted = true ∧ (Scoping.ofScript valueScript).toOption.isSome = true ∧
      (∃ δ ∈ valueScript.declarations,
        δ.kind.manner? = some .hoisted ∧ δ.owner = 0 ∧ δ.site.name.text = "f") ∧
      hoistedAll valueScript.inside = .ok [] ∧
      (runScript valueScript {}).toOption =
        some ⟨"undefined", some "ReferenceError: f is not defined", []⟩ :=
  ⟨by decide, by decide +kernel, by decide +kernel, rfl, by decide +kernel⟩

end ScopeLowering
