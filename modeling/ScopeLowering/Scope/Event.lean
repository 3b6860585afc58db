import ScopeLowering.Scope.Graph

/-!
# What a script declares and uses, in order

Reading a script from top to bottom, one meets scopes that open and close, names that are declared
and names that are used. This module turns a tree into that list of events; what they add up to is
the business of `ScopeLowering.Scope.Builder`.

## The model

`events` is a plain recursion over the tree. A tree that does not hang together (a node outside the
one that contains it, a part that is missing) leaves a `fault` among the events at the point where
it is met, and whoever goes through the events stops at the first one.
-/

namespace ScopeLowering

/-- Why a tree has no scopes. -/
inductive ScopeFault where
  /-- The tree does not hang together. The span is that of the offending part, if it has one. -/
  | malformed (message : String) (phrase : Option Span)
  /-- A part that is needed is missing. -/
  | noPart
  /-- A single node stands where a list is needed. -/
  | notList
  deriving Repr, DecidableEq, Inhabited

/-- Something met while going through a script. -/
inductive Event where
  /-- A scope opens. -/
  | enter (kind : ScopeKind) (span : Span) (callable : Option Callable) (cases : List Span)
  /-- The innermost open scope closes. -/
  | leave
  /-- A declaration statement begins. -/
  | openStatement (statement : Statement)
  /-- The innermost declaration statement ends. -/
  | closeStatement
  /-- A name is declared. -/
  | declare (kind : BindingKind) (name : Ident) (statement : Option Statement) (hasInit : Bool)
      (ready : Offset) (unbraced forEach : Bool)
  /-- A function expression ends that has a name of its own. The problem, if there is one, counts
  only when the name gets declared. -/
  | callee (name : Ident) (ready : Offset) (problem : Option ScopeFault)
  /-- A name is used. -/
  | refer (name : Ident) (kind : RefKind)
  /-- A call is made to something named `eval`. -/
  | evalCall (name : Ident)
  /-- The names of a `with` statement's object come into play. -/
  | dynamic
  /-- The value of `this` is used. -/
  | thisUse
  | fault (f : ScopeFault)
  deriving Repr, Inhabited

/-- The part that a node plays for the one that contains it. -/
inductive Role where
  | plain
  /-- The whole body of a statement, without braces. -/
  | soleBody
  /-- The head of a loop over items, whose subject ends at the offset, if there is one. -/
  | eachHead (subjectEnd : Option Offset)
  /-- The target of an assignment. -/
  | target (kind : RefKind)
  /-- A value that goes straight into a name. -/
  | stored (name : Ident)
  deriving Repr, Inhabited

/-- How a lookup in this role uses its name. -/
def Role.refKind : Role → RefKind
  | target kind => kind
  | eachHead _ => .write
  | _ => .read

/-- Where in the tree a node stands. -/
structure Place where
  /-- The node that contains it. -/
  outer : Node
  /-- Where the innermost open scope starts. -/
  scopeStart : Offset

namespace Event

/-- What is wrong with the place of a node, or a name, inside another node. -/
def misplaced? (phrase outer : Node) : Option ScopeFault :=
  if !phrase.span.isSensible then
    some (.malformed (phrase.display ++ " has no sensible source span") (some phrase.span))
  else if !outer.isAbsent && !phrase.span.isWithin outer.span then
    some (.malformed
      (phrase.display ++ " lies outside the " ++ outer.display ++ " that contains it")
      (some phrase.span))
  else none

/-- A fault if a node is out of place. -/
def check (phrase outer : Node) : List Event :=
  (misplaced? phrase outer).toList.map fault

/-- A name, and what is wrong with its place, declared without a statement. -/
def declareName (kind : BindingKind) (name : Ident) (ready : Offset) (outer : Node) : List Event :=
  check (.ident name) outer ++ [declare kind name none true ready false false]

/-- There is no rule for a node of this sort. -/
def noRule (sort : String) (phrase : Option Span) : Event :=
  fault (.malformed ("there is no scoping rule for " ++ sort) phrase)

/-- The statement that a declaration makes. -/
def statementOf (keyword : Keyword) (declarators : List Node) (span : Span) : Statement :=
  ⟨keyword, declarators.filterMap fun d => d.declared?.map (·.text), span⟩

/-- The role of an assigned value: a function put straight into a name is stored there. -/
def valueRole (op : Json) (target : Node) : Role :=
  match target with
  | .lookup name => if op.isText "=" then .stored name else .plain
  | _ => .plain

/-- The name under which a function can be called. -/
def handleOf (form : FunctionForm) (name : Option Ident) (role : Role) : Option Ident :=
  match form, role with
  | .declaration, _ => name
  | .expression, .stored place => some place
  | .expression, _ => none

/-- A call to something named `eval`. -/
def evalCalls (fn : Node) : List Event :=
  match fn with
  | .lookup name => if name.text == "eval" then [evalCall name] else []
  | _ => []

/-- The offset at which the subject of a loop ends. -/
def subjectEnd (subject : Node) : Option Offset :=
  if subject.isAbsent then none else some subject.span.stop

mutual

/-- The events of a node in its place. -/
def ofNode (p : Place) (role : Role) (n : Node) : List Event :=
  match n with
  | .absent => [noRule n.sort none]
  | .ident name => [noRule n.sort (some name.span)]
  | .literal .. | .emptyStmt _ | .breakStmt _ | .continueStmt _ => check n p.outer
  | .lookup name => check n p.outer ++ [refer name role.refKind]
  | .thisExpr _ => check n p.outer ++ [thisUse]
  | .arrayLit xs _ | .objectLit xs _ | .sequence xs _ | .program xs _ =>
    check n p.outer ++ ofNodes { p with outer := n } xs
  | .property _ value _ => check n p.outer ++ ofNode { p with outer := n } .plain value
  | .member target key computed _ =>
    check n p.outer ++ ofNode { p with outer := n } .plain target ++
      if computed then ofNode { p with outer := n } .plain key else []
  | .assign op target value _ =>
    check n p.outer ++
      ofNode { p with outer := n } (.target (if op.isText "=" then .write else .readwrite))
        target ++
      ofNode { p with outer := n } (valueRole op target) value
  | .update _ target _ _ =>
    check n p.outer ++ ofNode { p with outer := n } (.target .readwrite) target
  | .unary _ operand _ => check n p.outer ++ ofNode { p with outer := n } .plain operand
  | .binary _ lhs rhs _ | .logical _ lhs rhs _ =>
    check n p.outer ++ ofNode { p with outer := n } .plain lhs ++
      ofNode { p with outer := n } .plain rhs
  | .conditional test yes no _ =>
    check n p.outer ++ ofNode { p with outer := n } .plain test ++
      ofNode { p with outer := n } .plain yes ++ ofNode { p with outer := n } .plain no
  | .call fn args _ =>
    check n p.outer ++ evalCalls fn ++ ofNode { p with outer := n } .plain fn ++
      ofNodes { p with outer := n } args
  | .newCall fn args _ =>
    check n p.outer ++ ofNode { p with outer := n } .plain fn ++ ofNodes { p with outer := n } args
  | .function form name params body isArrow span =>
    let own :=
      match form, name with
      | .declaration, some i => declareName .function i p.scopeStart n
      | .declaration, none => [fault .noPart]
      | .expression, _ => []
    let self :=
      match form, name with
      | .expression, some i => [callee i span.start (misplaced? (.ident i) n)]
      | _, _ => []
    check n p.outer ++ own ++
      [enter .function span (some ⟨form, isArrow, handleOf form name role⟩) []] ++
      params.flatMap (fun i => declareName .param i span.start n) ++
      ofNodes ⟨n, span.start⟩ body ++ self ++ [leave]
  | .declarator _ init _ =>
    check n p.outer ++ if init.isAbsent then [] else ofNode { p with outer := n } .plain init
  | .varDecl keyword declarators span =>
    let statement := statementOf keyword declarators span
    let each :=
      match role with
      | .eachHead stop => some stop
      | _ => none
    let unbraced :=
      match role with
      | .soleBody => true
      | _ => false
    check n p.outer ++
      (if each == some none then [fault .noPart] else []) ++
      [openStatement statement] ++
      ofDeclarators { p with outer := n } statement unbraced (each.bind id) declarators ++
      [closeStatement]
  | .exprStmt expr _ => check n p.outer ++ ofNode { p with outer := n } .plain expr
  | .block body span =>
    check n p.outer ++ [enter .block span none []] ++ ofNodes ⟨n, span.start⟩ body ++ [leave]
  | .ifStmt test yes no _ =>
    check n p.outer ++ ofNode { p with outer := n } .plain test ++
      ofNode { p with outer := n } .soleBody yes ++
      if no.isAbsent then [] else ofNode { p with outer := n } .soleBody no
  | .forStmt init test update body span =>
    check n p.outer ++ [enter .loop span none []] ++
      (if init.isAbsent then [] else ofNode ⟨n, span.start⟩ .plain init) ++
      (if test.isAbsent then [] else ofNode ⟨n, span.start⟩ .plain test) ++
      (if update.isAbsent then [] else ofNode ⟨n, span.start⟩ .plain update) ++
      ofNode ⟨n, span.start⟩ .soleBody body ++ [leave]
  | .forEachStmt head subject body _ span =>
    check n p.outer ++ [enter .loop span none []] ++
      ofNode ⟨n, span.start⟩ (.eachHead (subjectEnd subject)) head ++
      ofNode ⟨n, span.start⟩ .plain subject ++
      ofNode ⟨n, span.start⟩ .soleBody body ++ [leave]
  | .whileStmt test body span =>
    check n p.outer ++ [enter .loop span none []] ++ ofNode ⟨n, span.start⟩ .plain test ++
      ofNode ⟨n, span.start⟩ .soleBody body ++ [leave]
  | .doWhileStmt body test span =>
    check n p.outer ++ [enter .loop span none []] ++ ofNode ⟨n, span.start⟩ .soleBody body ++
      ofNode ⟨n, span.start⟩ .plain test ++ [leave]
  | .returnStmt value _ =>
    check n p.outer ++ if value.isAbsent then [] else ofNode { p with outer := n } .plain value
  | .throwStmt value _ => check n p.outer ++ ofNode { p with outer := n } .plain value
  | .catchClause param body span =>
    -- the body shares the scope of the clause
    let inside :=
      match body with
      | .block xs _ | .program xs _ | .function _ _ _ xs _ _ | .caseClause _ xs _ =>
        check body n ++ ofNodes ⟨body, span.start⟩ xs
      | .absent => [fault .noPart]
      | .forStmt .. | .forEachStmt .. | .whileStmt .. | .doWhileStmt .. | .withStmt ..
      | .catchClause .. => check body n ++ [fault .notList]
      | _ => check body n ++ [fault .noPart]
    check n p.outer ++ [enter .catchClause span none []] ++
      (match param with
        | some i => declareName .catchParam i span.start n
        | none => []) ++
      inside ++ [leave]
  | .tryStmt body handler finalizer _ =>
    check n p.outer ++ ofNode { p with outer := n } .plain body ++
      (if handler.isAbsent then [] else ofNode { p with outer := n } .plain handler) ++
      if finalizer.isAbsent then [] else ofNode { p with outer := n } .plain finalizer
  | .caseClause test body _ =>
    check n p.outer ++
      (if test.isAbsent then [] else ofNode { p with outer := n } .plain test) ++
      ofNodes { p with outer := n } body
  | .switchStmt subject cases span =>
    check n p.outer ++ ofNode { p with outer := n } .plain subject ++
      (if cases.any (·.isAbsent) then [fault .noPart] else []) ++
      [enter .block span none (cases.map (·.span))] ++ ofNodes ⟨n, span.start⟩ cases ++ [leave]
  | .withStmt object body _ =>
    check n p.outer ++ [dynamic] ++ ofNode { p with outer := n } .plain object ++
      ofNode { p with outer := n } .soleBody body

/-- The events of some nodes one after the other. Absent ones have none. -/
def ofNodes (p : Place) (ns : List Node) : List Event :=
  match ns with
  | [] => []
  | n :: rest => (if n.isAbsent then [] else ofNode p .plain n) ++ ofNodes p rest

/-- The events of the declarators of a statement. A declarator itself contains nothing; its parts
lie in the statement. -/
def ofDeclarators (p : Place) (statement : Statement) (unbraced : Bool) (each : Option Offset)
    (ds : List Node) : List Event :=
  match ds with
  | [] => []
  | d :: rest =>
    (match d with
      | .declarator name init span =>
        check d p.outer ++ (if init.isAbsent then [] else ofNode p (.stored name) init) ++
          check (.ident name) p.outer ++
          [declare (.declared statement.keyword) name (some statement) (!init.isAbsent)
            (each.getD span.stop) unbraced each.isSome]
      | .absent => [fault .noPart]
      | other => check other p.outer ++ [fault .noPart]) ++
      ofDeclarators p statement unbraced each rest

end

/-- The events of a script. -/
def ofScript (script : Node) : List Event :=
  enter .program script.span none [] :: ofNode ⟨.absent, script.span.start⟩ .plain script

end Event

end ScopeLowering
