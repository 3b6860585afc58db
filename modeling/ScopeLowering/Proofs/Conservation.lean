import Mathlib.Data.List.Perm.Basic
import ScopeLowering.Proofs.Resolution

/-!
# No name is lost

The finished table of a script accounts for every name in it: each use of a name is a reference of
the binding that it finds, or is free, and each name that is declared is the site of a binding
(`Scoping.conserves`). The one thing that the table adds is the own names of function expressions.

## The model

What there is to account for is said by two plain recursions over the tree, `Node.uses` and
`Node.declaredNames`, which know nothing of scopes. The events of a node convey just that
(`ofNode_conveys`), every event adds to the draft what it conveys (`pendingUses_steps`,
`Accounts.steps`), and in the end every pending use goes to one place (`perm_places`).

Two sorts of trees that no script has do lose names, and are left out by `Node.isWellPlaced`: the
clause of a `catch` reads the statements of its body and nothing else of it
(`strayScript_loses_use`), and a declarator that stands by itself declares nothing
(`loneScript_loses_name`).
-/

namespace ScopeLowering

/-! ### The names in a tree -/

mutual

/-- The names that a node uses, in the order of the text, each with how it is used. A node that is
itself a name is used as `kind` says. -/
def Node.uses (kind : RefKind) : Node → List (Ident × RefKind)
  | .absent | .ident _ | .literal .. | .thisExpr _ | .emptyStmt _ | .breakStmt _
  | .continueStmt _ => []
  | .lookup name => [(name, kind)]
  | .arrayLit xs _ | .objectLit xs _ | .sequence xs _ | .varDecl _ xs _ | .block xs _
  | .program xs _ | .function _ _ _ xs _ _ => usesAll xs
  | .property _ x _ | .unary _ x _ | .declarator _ x _ | .exprStmt x _ | .returnStmt x _
  | .throwStmt x _ | .catchClause _ x _ => x.uses .read
  -- a key without brackets is no expression
  | .member x key computed _ => x.uses .read ++ if computed then key.uses .read else []
  | .assign op x y _ => x.uses (if op.isText "=" then .write else .readwrite) ++ y.uses .read
  | .update _ x _ _ => x.uses .readwrite
  | .binary _ x y _ | .logical _ x y _ | .whileStmt x y _ | .doWhileStmt x y _ | .withStmt x y _ =>
    x.uses .read ++ y.uses .read
  | .conditional x y z _ | .ifStmt x y z _ | .tryStmt x y z _ =>
    x.uses .read ++ y.uses .read ++ z.uses .read
  | .call x xs _ | .newCall x xs _ | .caseClause x xs _ | .switchStmt x xs _ =>
    x.uses .read ++ usesAll xs
  | .forStmt x y z w _ => x.uses .read ++ y.uses .read ++ z.uses .read ++ w.uses .read
  | .forEachStmt head x y _ _ => head.uses .write ++ x.uses .read ++ y.uses .read

/-- The names that some nodes use, one after the other. -/
def usesAll : List Node → List (Ident × RefKind)
  | [] => []
  | n :: rest => n.uses .read ++ usesAll rest

end

mutual

/-- The names that a node declares: those of declarators, parameters and function declarations. The
own name of a function expression is not among them. -/
def Node.declaredNames : Node → List Ident
  | .absent | .ident _ | .literal .. | .lookup _ | .thisExpr _ | .emptyStmt _ | .breakStmt _
  | .continueStmt _ => []
  | .arrayLit xs _ | .objectLit xs _ | .sequence xs _ | .varDecl _ xs _ | .block xs _
  | .program xs _ => declaredNamesAll xs
  | .function form name params body _ _ =>
    (if form = .declaration then name.toList else []) ++ params ++ declaredNamesAll body
  | .declarator name x _ => x.declaredNames ++ [name]
  | .catchClause param x _ => param.toList ++ x.declaredNames
  | .property _ x _ | .update _ x _ _ | .unary _ x _ | .exprStmt x _ | .returnStmt x _
  | .throwStmt x _ => x.declaredNames
  | .member x key computed _ => x.declaredNames ++ if computed then key.declaredNames else []
  | .assign _ x y _ | .binary _ x y _ | .logical _ x y _ | .whileStmt x y _ | .doWhileStmt x y _
  | .withStmt x y _ => x.declaredNames ++ y.declaredNames
  | .conditional x y z _ | .ifStmt x y z _ | .tryStmt x y z _ | .forEachStmt x y z _ _ =>
    x.declaredNames ++ y.declaredNames ++ z.declaredNames
  | .call x xs _ | .newCall x xs _ | .caseClause x xs _ | .switchStmt x xs _ =>
    x.declaredNames ++ declaredNamesAll xs
  | .forStmt x y z w _ =>
    x.declaredNames ++ y.declaredNames ++ z.declaredNames ++ w.declaredNames

/-- The names that some nodes declare. -/
def declaredNamesAll : List Node → List Ident
  | [] => []
  | n :: rest => n.declaredNames ++ declaredNamesAll rest

end

mutual

/-- Is the body of every `catch` clause a block, and every declarator part of a declaration? -/
def Node.isWellPlaced : Node → Bool
  | .absent | .ident _ | .literal .. | .lookup _ | .thisExpr _ | .emptyStmt _ | .breakStmt _
  | .continueStmt _ => true
  | .arrayLit xs _ | .objectLit xs _ | .sequence xs _ | .block xs _ | .program xs _
  | .function _ _ _ xs _ _ => isWellPlacedAll xs
  | .declarator .. => false
  | .varDecl _ ds _ => areDeclarators ds
  | .catchClause _ (.block xs _) _ => isWellPlacedAll xs
  | .catchClause .. => false
  | .property _ x _ | .update _ x _ _ | .unary _ x _ | .exprStmt x _ | .returnStmt x _
  | .throwStmt x _ => x.isWellPlaced
  | .member x key computed _ => x.isWellPlaced && (!computed || key.isWellPlaced)
  | .assign _ x y _ | .binary _ x y _ | .logical _ x y _ | .whileStmt x y _ | .doWhileStmt x y _
  | .withStmt x y _ => x.isWellPlaced && y.isWellPlaced
  | .conditional x y z _ | .ifStmt x y z _ | .tryStmt x y z _ | .forEachStmt x y z _ _ =>
    x.isWellPlaced && y.isWellPlaced && z.isWellPlaced
  | .call x xs _ | .newCall x xs _ | .caseClause x xs _ | .switchStmt x xs _ =>
    x.isWellPlaced && isWellPlacedAll xs
  | .forStmt x y z w _ =>
    x.isWellPlaced && y.isWellPlaced && z.isWellPlaced && w.isWellPlaced

/-- The same of some nodes. -/
def isWellPlacedAll : List Node → Bool
  | [] => true
  | n :: rest => n.isWellPlaced && isWellPlacedAll rest

/-- The same of the parts of a declaration, which are declarators. -/
def areDeclarators : List Node → Bool
  | [] => true
  | .declarator _ init _ :: rest => init.isWellPlaced && areDeclarators rest
  | _ :: _ => false

end

/-! ### What events convey -/

namespace Event

/-- The use of a name. -/
def use? : Event → Option (Ident × RefKind)
  | refer name kind => some (name, kind)
  | _ => none

/-- The name that is declared. -/
def declared? : Event → Option Ident
  | declare _ name .. => some name
  | _ => none

/-- Is this not the own name of a function expression, declared as if it were any other? -/
def isProper : Event → Bool
  | declare .callee .. => false
  | _ => true

/-- Some events are met that use and declare just these names. -/
structure Conveys (es : List Event) (uses : List (Ident × RefKind)) (names : List Ident) :
    Prop where
  uses : es.filterMap use? = uses
  names : es.filterMap declared? = names
  proper : es.all isProper = true

namespace Conveys

variable {es fs : List Event} {us vs : List (Ident × RefKind)} {xs ys : List Ident}

theorem nil : Conveys [] [] [] := ⟨rfl, rfl, rfl⟩

theorem append (h : Conveys es us xs) (hf : Conveys fs vs ys) :
    Conveys (es ++ fs) (us ++ vs) (xs ++ ys) := by
  constructor
  · rw [List.filterMap_append, h.uses, hf.uses]
  · rw [List.filterMap_append, h.names, hf.names]
  · rw [List.all_append, h.proper, hf.proper, Bool.and_self]

/-- Events that concern no name come before. -/
theorem after (h : Conveys es [] []) (hf : Conveys fs us xs) : Conveys (es ++ fs) us xs := by
  simpa using h.append hf

/-- Events that concern no name come after. -/
theorem before (h : Conveys es us xs) (hf : Conveys fs [] []) : Conveys (es ++ fs) us xs := by
  simpa using h.append hf

theorem check (n o : Node) : Conveys (check n o) [] [] := by
  unfold Event.check
  cases misplaced? n o <;> exact ⟨rfl, rfl, rfl⟩

theorem faultIf (c : Bool) (f : ScopeFault) : Conveys (if c then [fault f] else []) [] [] := by
  cases c <;> exact ⟨rfl, rfl, rfl⟩

theorem declareName (kind : BindingKind) (hk : kind ≠ .callee) (name : Ident) (ready : Offset)
    (o : Node) : Conveys (declareName kind name ready o) [] [name] := by
  refine (check _ _).after ⟨rfl, rfl, ?_⟩
  cases kind <;> first | rfl | exact absurd rfl hk

theorem params (params : List Ident) (ready : Offset) (o : Node) :
    Conveys (params.flatMap fun x => Event.declareName .param x ready o) [] params := by
  induction params with
  | nil => exact .nil
  | cons x rest ih =>
    rw [List.flatMap_cons]
    exact (declareName .param (by decide) x ready o).append ih

theorem evalCalls (fn : Node) : Conveys (evalCalls fn) [] [] := by
  unfold Event.evalCalls
  split
  · split <;> exact ⟨rfl, rfl, rfl⟩
  · exact .nil

/-- A part that may be missing. -/
theorem optional {n : Node} {p : Place} {role : Role} {kind : RefKind}
    (h : Conveys (ofNode p role n) (n.uses kind) n.declaredNames) :
    Conveys (if n.isAbsent then [] else ofNode p role n) (n.uses kind) n.declaredNames := by
  by_cases ha : n.isAbsent = true
  · rw [if_pos ha, Node.eq_absent ha]
    exact .nil
  · rw [if_neg ha]
    exact h

theorem valueRole_refKind (op : Json) (x : Node) : (valueRole op x).refKind = .read := by
  unfold valueRole
  split
  · split <;> rfl
  · rfl

end Conveys

mutual

/-- The events of a node convey the names in it. -/
theorem ofNode_conveys (n : Node) (p : Place) (role : Role) (h : n.isWellPlaced = true) :
    Conveys (ofNode p role n) (n.uses role.refKind) n.declaredNames := by
  cases n with try simp only [Node.isWellPlaced, Bool.and_eq_true] at h
  | absent | ident => exact ⟨rfl, rfl, rfl⟩
  | literal | emptyStmt | breakStmt | continueStmt => exact .check _ _
  | lookup | thisExpr => exact .after (.check _ _) ⟨rfl, rfl, rfl⟩
  | arrayLit xs s | objectLit xs s | sequence xs s | program xs s =>
    exact .after (.check _ _) (ofNodes_conveys xs _ h)
  | property k x s | unary op x s | exprStmt x s | throwStmt x s =>
    exact .after (.check _ _) (ofNode_conveys x _ .plain h)
  | update op x b s => exact .after (.check _ _) (ofNode_conveys x _ (.target .readwrite) h)
  | returnStmt x s => exact .after (.check _ _) (.optional (ofNode_conveys x _ .plain h))
  | declarator name x s => cases h
  | binary op x y s | logical op x y s =>
    obtain ⟨hx, hy⟩ := h
    exact .append (.after (.check _ _) (ofNode_conveys x _ .plain hx))
      (ofNode_conveys y _ .plain hy)
  | member x key computed s =>
    obtain ⟨hx, hkey⟩ := h
    refine .append (.after (.check _ _) (ofNode_conveys x _ .plain hx)) ?_
    cases computed with
    | true => exact ofNode_conveys key _ .plain hkey
    | false => exact .nil
  | assign op x y s =>
    obtain ⟨hx, hy⟩ := h
    have hvalue := ofNode_conveys y { p with outer := .assign op x y s } (valueRole op x) hy
    rw [Conveys.valueRole_refKind] at hvalue
    exact .append (.after (.check _ _) (ofNode_conveys x _ _ hx)) hvalue
  | conditional x y z s =>
    obtain ⟨⟨hx, hy⟩, hz⟩ := h
    exact .append (.append (.after (.check _ _) (ofNode_conveys x _ .plain hx))
      (ofNode_conveys y _ .plain hy)) (ofNode_conveys z _ .plain hz)
  | call fn args s =>
    obtain ⟨hf, ha⟩ := h
    exact .append (.after (.after (.check _ _) (.evalCalls fn)) (ofNode_conveys fn _ .plain hf))
      (ofNodes_conveys args _ ha)
  | newCall fn args s =>
    obtain ⟨hf, ha⟩ := h
    exact .append (.after (.check _ _) (ofNode_conveys fn _ .plain hf)) (ofNodes_conveys args _ ha)
  | function form name params body isArrow s =>
    have hbody := ofNodes_conveys body ⟨.function form name params body isArrow s, s.start⟩ h
    have hparams := Conveys.params params s.start (.function form name params body isArrow s)
    cases form with
    | declaration =>
      cases name with
      | none =>
        exact .before (.before (.append (.append (.before (.before (.check _ _) ⟨rfl, rfl, rfl⟩)
          ⟨rfl, rfl, rfl⟩) hparams) hbody) .nil) ⟨rfl, rfl, rfl⟩
      | some x =>
        have hown := Conveys.declareName .function (by decide) x p.scopeStart
          (.function .declaration (some x) params body isArrow s)
        exact .before (.before (.append (.append (.before (.after (.check _ _) hown)
          ⟨rfl, rfl, rfl⟩) hparams) hbody) .nil) ⟨rfl, rfl, rfl⟩
    | expression =>
      refine .before (.before (.append (.append (.before (.before (.check _ _) .nil)
        ⟨rfl, rfl, rfl⟩) hparams) hbody) ?_) ⟨rfl, rfl, rfl⟩
      cases name <;> exact ⟨rfl, rfl, rfl⟩
  | varDecl keyword ds s =>
    exact .before (.after (.after (.after (.check _ _) (.faultIf _ _)) ⟨rfl, rfl, rfl⟩)
      (ofDeclarators_conveys ds _ _ _ _ h)) ⟨rfl, rfl, rfl⟩
  | block xs s =>
    exact .before (.after (.before (.check _ _) ⟨rfl, rfl, rfl⟩) (ofNodes_conveys xs _ h))
      ⟨rfl, rfl, rfl⟩
  | ifStmt x y z s =>
    obtain ⟨⟨hx, hy⟩, hz⟩ := h
    exact .append (.append (.after (.check _ _) (ofNode_conveys x _ .plain hx))
      (ofNode_conveys y _ .soleBody hy)) (.optional (ofNode_conveys z _ .soleBody hz))
  | forStmt x y z w s =>
    obtain ⟨⟨⟨hx, hy⟩, hz⟩, hw⟩ := h
    exact .before (.append (.append (.append (.after (.before (.check _ _) ⟨rfl, rfl, rfl⟩)
      (.optional (ofNode_conveys x _ .plain hx))) (.optional (ofNode_conveys y _ .plain hy)))
      (.optional (ofNode_conveys z _ .plain hz))) (ofNode_conveys w _ .soleBody hw)) ⟨rfl, rfl, rfl⟩
  | forEachStmt x y z isOf s =>
    obtain ⟨⟨hx, hy⟩, hz⟩ := h
    exact .before (.append (.append (.after (.before (.check _ _) ⟨rfl, rfl, rfl⟩)
      (ofNode_conveys x _ (.eachHead (subjectEnd y)) hx)) (ofNode_conveys y _ .plain hy))
      (ofNode_conveys z _ .soleBody hz)) ⟨rfl, rfl, rfl⟩
  | whileStmt x y s =>
    obtain ⟨hx, hy⟩ := h
    exact .before (.append (.after (.before (.check _ _) ⟨rfl, rfl, rfl⟩)
      (ofNode_conveys x _ .plain hx)) (ofNode_conveys y _ .soleBody hy)) ⟨rfl, rfl, rfl⟩
  | doWhileStmt x y s =>
    obtain ⟨hx, hy⟩ := h
    exact .before (.append (.after (.before (.check _ _) ⟨rfl, rfl, rfl⟩)
      (ofNode_conveys x _ .soleBody hx)) (ofNode_conveys y _ .plain hy)) ⟨rfl, rfl, rfl⟩
  | catchClause param body s =>
    cases body with
    | block xs t =>
      have hxs := (Conveys.check (.block xs t) (.catchClause param (.block xs t) s)).after
        (ofNodes_conveys xs ⟨.block xs t, s.start⟩ h)
      cases param with
      | none =>
        exact .before (.after (.before (.before (.check _ _) ⟨rfl, rfl, rfl⟩) .nil) hxs)
          ⟨rfl, rfl, rfl⟩
      | some x =>
        have hparam := Conveys.declareName .catchParam (by decide) x s.start
          (.catchClause (some x) (.block xs t) s)
        exact .before (.append (.after (.before (.check _ _) ⟨rfl, rfl, rfl⟩) hparam) hxs)
          ⟨rfl, rfl, rfl⟩
    | _ => cases h
  | tryStmt x y z s =>
    obtain ⟨⟨hx, hy⟩, hz⟩ := h
    exact .append (.append (.after (.check _ _) (ofNode_conveys x _ .plain hx))
      (.optional (ofNode_conveys y _ .plain hy))) (.optional (ofNode_conveys z _ .plain hz))
  | caseClause x xs s =>
    obtain ⟨hx, hxs⟩ := h
    exact .append (.after (.check _ _) (.optional (ofNode_conveys x _ .plain hx)))
      (ofNodes_conveys xs _ hxs)
  | switchStmt x xs s =>
    obtain ⟨hx, hxs⟩ := h
    exact .before (.append (.before (.before (.after (.check _ _) (ofNode_conveys x _ .plain hx))
      (.faultIf _ _)) ⟨rfl, rfl, rfl⟩) (ofNodes_conveys xs _ hxs)) ⟨rfl, rfl, rfl⟩
  | withStmt x y s =>
    obtain ⟨hx, hy⟩ := h
    exact .append (.after (.before (.check _ _) ⟨rfl, rfl, rfl⟩) (ofNode_conveys x _ .plain hx))
      (ofNode_conveys y _ .soleBody hy)

theorem ofNodes_conveys (ns : List Node) (p : Place) (h : isWellPlacedAll ns = true) :
    Conveys (ofNodes p ns) (usesAll ns) (declaredNamesAll ns) := by
  cases ns with
  | nil => exact .nil
  | cons n rest =>
    obtain ⟨hn, hrest⟩ := Bool.and_eq_true_iff.mp h
    exact .append (.optional (ofNode_conveys n p .plain hn)) (ofNodes_conveys rest p hrest)

theorem ofDeclarators_conveys (ds : List Node) (p : Place) (st : Statement) (unbraced : Bool)
    (each : Option Offset) (h : areDeclarators ds = true) :
    Conveys (ofDeclarators p st unbraced each ds) (usesAll ds) (declaredNamesAll ds) := by
  cases ds with
  | nil => exact .nil
  | cons d rest =>
    cases d with
    | declarator name init s =>
      obtain ⟨hi, hrest⟩ := Bool.and_eq_true_iff.mp h
      have hinit := Conveys.optional (ofNode_conveys init p (.stored name) hi)
      have hone : Conveys [declare (.declared st.keyword) name (some st) (!init.isAbsent)
          (each.getD s.stop) unbraced each.isSome] [] [name] := ⟨rfl, rfl, rfl⟩
      have hall := ((((Conveys.check (.declarator name init s) p.outer).after hinit).before
        (.check (.ident name) p.outer)).append hone).append
        (ofDeclarators_conveys rest p st unbraced each hrest)
      rw [List.append_nil] at hall
      exact hall
    | _ => cases h

end

end Event

/-! ### Uses, event by event -/

namespace Draft

/-- The uses of names that are not yet resolved. -/
def pendingUses (d : Draft) : List (Ident × RefKind) := d.pending.map fun r => (r.name, r.kind)

theorem pendingUses_step {d d' : Draft} {e : Event} (h : d.step e = .ok d') :
    d'.pendingUses = d.pendingUses ++ e.use?.toList := by
  unfold pendingUses
  cases e with
  | enter | leave | openStatement | closeStatement | evalCall | dynamic =>
    cases h
    exact (List.append_nil _).symm
  | declare =>
    cases h
    rw [(d.frame_declareVariable _ _).pending]
    exact (List.append_nil _).symm
  | callee name ready problem =>
    rcases step_callee_ok h with rfl | ⟨_, rfl⟩
    · exact (List.append_nil _).symm
    · rw [(d.frame_declareVariable _ _).pending]
      exact (List.append_nil _).symm
  | refer name kind =>
    cases h
    exact List.map_append
  | thisUse =>
    obtain ⟨_, rfl⟩ := step_thisUse_ok h
    exact (List.append_nil _).symm
  | fault f => cases h

theorem pendingUses_steps {d d' : Draft} {es : List Event} (h : d.steps es = .ok d') :
    d'.pendingUses = d.pendingUses ++ es.filterMap Event.use? := by
  induction es generalizing d with
  | nil => cases h; simp
  | cons e es ih =>
    obtain ⟨m, hm, h⟩ := steps_cons_ok.mp h
    rw [ih h, pendingUses_step hm, List.filterMap_cons]
    cases e.use? <;> simp

theorem free_steps {d d' : Draft} {es : List Event} (h : d.steps es = .ok d') :
    d'.table.free = d.table.free := by
  refine steps_invariant (P := fun m => m.table.free = d.table.free)
    (fun {m _} _ _ hm he => Eq.trans ?_ hm) rfl h
  rcases step_declares he with ⟨ht, _⟩ | ⟨kind, site, _, rfl⟩
  · rw [ht]
  · exact (m.frame_declareVariable kind site).free

end Draft

/-! ### Declared names, event by event -/

/-- The names of all sites of all bindings. -/
def siteNames (bs : List Binding) : List Ident := bs.flatMap fun b => b.sites.map (·.name)

/-- The own names of function expressions that have become bindings. -/
def ownNames (bs : List Binding) : List Ident :=
  bs.flatMap fun b => if b.kind = .callee then [b.first.name] else []

theorem flatMap_modify_eq {α β : Type} {f : α → α} {g : α → List β} (h : ∀ a, g (f a) = g a)
    (xs : List α) (i : Nat) : (xs.modify i f).flatMap g = xs.flatMap g := by
  induction xs generalizing i with
  | nil => rw [List.modify_nil]
  | cons a xs ih =>
    cases i with
    | zero => simp only [List.modify_zero_cons, List.flatMap_cons, h]
    | succ i => simp only [List.modify_succ_cons, List.flatMap_cons, ih]

theorem flatMap_modify_perm {α β : Type} {f : α → α} {g : α → List β} {ys : List β} {xs : List α}
    {i : Nat} {a : α} (ha : xs[i]? = some a) (hf : g (f a) = g a ++ ys) :
    ((xs.modify i f).flatMap g).Perm (xs.flatMap g ++ ys) := by
  induction xs generalizing i with
  | nil => cases ha
  | cons x xs ih =>
    cases i with
    | zero =>
      cases ha
      simp only [List.modify_zero_cons, List.flatMap_cons, hf, List.append_assoc]
      exact List.Perm.append_left _ List.perm_append_comm
    | succ i =>
      simp only [List.modify_succ_cons, List.flatMap_cons, List.append_assoc]
      exact List.Perm.append_left _ (ih ha)

namespace Draft

section Yields

variable {α : Type} {g : Binding → List α} (hg : ∀ b hazards, g { b with hazards } = g b)

include hg

theorem flatMap_tag (d : Draft) (id : BindingId) (x : Hazard) :
    (d.tag id x).table.bindings.flatMap g = d.table.bindings.flatMap g := by
  refine flatMap_modify_eq (fun b => ?_) _ _
  rw [Binding.addHazard_eq, hg]

/-- What is noted about a declaration changes no more than hazards. -/
theorem flatMap_declareVariable (d : Draft) (kind : BindingKind) (site : Site) :
    (d.declareVariable kind site).table.bindings.flatMap g =
      (d.declare kind site).1.table.bindings.flatMap g := by
  rw [declareVariable_eq, record_bindings]
  unfold mark
  split
  · exact flatMap_tag hg _ _ _
  · rfl

/-- What bindings yield, after one more declaration: a new binding yields just what one more site
adds to an old one. -/
theorem flatMap_declare {d : Draft} (hd : d.Sound) (kind : BindingKind) (site : Site)
    {ys : List α} (hfresh : g (d.fresh kind site) = ys)
    (hmerge : ∀ b, kind.isFunctionScoped = true → b.kind.isFunctionScoped = true →
      b.scope = d.attachment kind → g (b.merge site) = g b ++ ys) :
    ((d.declare kind site).1.table.bindings.flatMap g).Perm
      (d.table.bindings.flatMap g ++ ys) := by
  rcases d.declare_cases kind site with ⟨_, he⟩ | ⟨old, hold, ⟨hk, hko, he⟩ | ⟨_, he⟩⟩ <;> rw [he]
  · refine .of_eq ?_
    show (d.table.bindings ++ [d.fresh kind site]).flatMap g = _
    rw [List.flatMap_append, List.flatMap_singleton, hfresh]
  · obtain ⟨b, hb, _, hscope⟩ := hd.held hold
    rw [kindOf, hb] at hko
    have hjoined : g (joined site b) = g b ++ ys := by
      rw [← hmerge b hk hko hscope]
      unfold joined
      split
      · rw [Binding.addHazard_eq, hg]
      · rfl
    have hbs : (d.join old site).table.bindings = d.table.bindings.modify old (joined site) := by
      refine List.ext_getElem? fun i => ?_
      rw [List.getElem?_modify]
      exact binding?_join d old site i
    rw [hbs]
    exact flatMap_modify_perm hb hjoined
  · refine .of_eq ?_
    rw [clash, flatMap_tag hg]
    show ((d.tag old _).table.bindings ++ [d.fresh kind site]).flatMap g = _
    rw [List.flatMap_append, flatMap_tag hg, List.flatMap_singleton, hfresh]

end Yields

/-- A declaration adds one site with its name. -/
theorem siteNames_declareVariable {d : Draft} (hd : d.Sound) (kind : BindingKind) (site : Site) :
    (siteNames (d.declareVariable kind site).table.bindings).Perm
      (siteNames d.table.bindings ++ [site.name]) := by
  refine (List.Perm.of_eq (flatMap_declareVariable (fun _ _ => rfl) d kind site)).trans ?_
  refine flatMap_declare (fun _ _ => rfl) hd kind site rfl fun b _ _ _ => ?_
  simp [Binding.sites, Binding.merge]

/-- Only function expressions have names of their own. -/
theorem ownNames_declareVariable {d : Draft} (hd : d.Sound) {kind : BindingKind}
    (hk : kind ≠ .callee) (site : Site) :
    (ownNames (d.declareVariable kind site).table.bindings).Perm (ownNames d.table.bindings) := by
  refine (List.Perm.of_eq (flatMap_declareVariable (fun _ _ => rfl) d kind site)).trans ?_
  rw [← List.append_nil (ownNames d.table.bindings)]
  exact flatMap_declare (fun _ _ => rfl) hd kind site (if_neg hk) fun b _ _ _ =>
    (List.append_nil _).symm

/-- The sites of a draft are for the names declared so far, and for the own names of functions. -/
def Accounts (d : Draft) (names : List Ident) : Prop :=
  (siteNames d.table.bindings).Perm (names ++ ownNames d.table.bindings)

theorem Accounts.step {d d' : Draft} {names : List Ident} (h : d.Accounts names) (hd : d.Sound)
    {e : Event} (hp : e.isProper = true)
    (hseat : ∀ name ready problem, e = .callee name ready problem →
      d.graph.nearestFunction d.current = d.current)
    (he : d.step e = .ok d') : d'.Accounts (names ++ e.declared?.toList) := by
  unfold Accounts at h ⊢
  cases e with
  | enter | leave | openStatement | closeStatement | evalCall | dynamic | refer =>
    cases he
    simp only [Event.declared?, Option.toList_none, List.append_nil]
    exact h
  | declare kind name =>
    cases he
    have hne : kind ≠ .callee := by rintro rfl; cases hp
    refine (siteNames_declareVariable hd kind _).trans ((h.append_right [name]).trans ?_)
    simp only [Event.declared?, Option.toList_some, List.append_assoc]
    exact List.Perm.append_left _ (List.perm_append_comm.trans
      ((ownNames_declareVariable hd hne _).symm.append_left _))
  | callee name ready problem =>
    simp only [Event.declared?, Option.toList_none, List.append_nil]
    rcases step_callee_ok he with rfl | ⟨hnone, rfl⟩
    · exact h
    · -- the name is new to the function, so it makes a binding
      have hatt : d.attachment .callee = d.current := hseat _ _ _ rfl
      rw [Mirrors.declareVariable_callee rfl (hatt ▸ hnone)]
      have hbs : (d.own .callee _).table.bindings =
          d.table.bindings ++ [d.fresh .callee
            { name, statement := none, scope := d.current, hasInit := true, ready }] := rfl
      rw [hbs, siteNames, ownNames, List.flatMap_append, List.flatMap_append, ← List.append_assoc]
      exact h.append_right _
  | thisUse =>
    obtain ⟨_, rfl⟩ := step_thisUse_ok he
    simp only [Event.declared?, Option.toList_none, List.append_nil]
    exact h
  | fault f => cases he

theorem Accounts.steps {d d' : Draft} {names : List Ident} (h : d.Accounts names) (hd : d.Sound)
    {es : List Event} (hp : es.all Event.isProper = true) (hseat : d.Seated es)
    (hs : d.steps es = .ok d') : d'.Accounts (names ++ es.filterMap Event.declared?) := by
  induction es generalizing d names with
  | nil =>
    cases hs
    rw [List.filterMap_nil, List.append_nil]
    exact h
  | cons e es ih =>
    obtain ⟨m, hm, hs⟩ := steps_cons_ok.mp hs
    rw [List.all_cons, Bool.and_eq_true] at hp
    have hall := ih (h.step hd hp.1 hseat.1 hm) (hd.step hm) hp.2 (hseat.2 m hm) hs
    rw [List.filterMap_cons]
    cases hn : e.declared? <;> rw [hn] at hall <;> simpa using hall

end Draft

/-! ### Every use goes to one place -/

theorem perm_flatMap_range {α : Type} (x : α) (f : Nat → List α) {j n : Nat} (h : j < n) :
    ((List.range n).flatMap fun i => if i = j then x :: f i else f i).Perm
      (x :: (List.range n).flatMap f) := by
  induction n with
  | zero => exact absurd h (Nat.not_lt_zero j)
  | succ n ih =>
    simp only [List.range_succ, List.flatMap_append, List.flatMap_singleton]
    by_cases hj : j = n
    · have hbefore : (List.range n).flatMap (fun i => if i = j then x :: f i else f i) =
          (List.range n).flatMap f := by
        rw [List.flatMap_def, List.flatMap_def]
        refine congrArg List.flatten (List.map_congr_left fun i hi => if_neg ?_)
        have := List.mem_range.mp hi
        omega
      rw [hbefore, if_pos hj.symm]
      exact List.perm_middle
    · rw [if_neg (Ne.symm hj)]
      exact (ih (by omega)).append_right _

/-- What goes to numbered places, or to none, is neither lost nor doubled. -/
theorem perm_places {α : Type} (f : α → Option Nat) {n : Nat} {xs : List α}
    (h : ∀ x ∈ xs, ∀ i, f x = some i → i < n) :
    ((List.range n).flatMap (fun i => xs.filter fun x => f x == some i) ++
      xs.filter fun x => (f x).isNone).Perm xs := by
  induction xs with
  | nil => simp
  | cons x xs ih =>
    have hxs := ih fun y hy => h y (List.mem_cons_of_mem x hy)
    cases hx : f x with
    | none =>
      simp only [List.filter_cons, hx, Option.isNone_none, if_true]
      exact List.perm_middle.trans (hxs.cons x)
    | some j =>
      have hj := h x List.mem_cons_self j hx
      have hone : ∀ i, (x :: xs).filter (fun y => f y == some i) =
          if i = j then x :: xs.filter (fun y => f y == some i)
          else xs.filter fun y => f y == some i := by
        intro i
        by_cases hij : i = j
        · simp [hx, hij]
        · simp [hx, hij, Ne.symm hij]
      simp only [hone, List.filter_cons, hx, Option.isNone_some, Bool.false_eq_true, if_false]
      exact ((perm_flatMap_range x _ hj).append_right _).trans (hxs.cons x)

/-! ### The finished table -/

namespace Draft

/-- What does not depend on references and hazards is in the finished table as in the draft. -/
theorem finish_flatMap {α : Type} {g : Binding → List α}
    (hg : ∀ b references hazards, g { b with references, hazards } = g b) (d : Draft) :
    d.finish.table.bindings.flatMap g = d.table.bindings.flatMap g := by
  rw [List.flatMap_def, List.flatMap_def]
  refine congrArg List.flatten (List.ext_getElem? fun i => ?_)
  rw [List.getElem?_map, List.getElem?_map]
  cases hb : d.table.bindings[i]? with
  | none =>
    rw [List.getElem?_eq_none_iff] at hb
    rw [List.getElem?_eq_none (by rw [finish_length]; exact hb)]
  | some b =>
    obtain ⟨hazards, hf, _⟩ := finish_binding hb
    rw [hf]
    exact congrArg some (hg b _ _)

theorem finish_references {d : Draft} (hd : d.Sound) :
    d.finish.table.bindings.map (·.references) =
      (List.range d.table.bindings.length).map fun i => Table.inOrder (d.usesOf i) := by
  refine List.ext_getElem? fun i => ?_
  rw [List.getElem?_map, List.getElem?_map]
  by_cases hi : i < d.table.bindings.length
  · have hb : d.binding? i = some d.table.bindings[i] := List.getElem?_eq_getElem hi
    obtain ⟨hazards, hf, _⟩ := finish_binding hb
    rw [hf, List.getElem?_range hi, (hd.bare hb).1]
    rfl
  · rw [List.getElem?_eq_none (by rw [finish_length]; omega),
      List.getElem?_eq_none (by rw [List.length_range]; omega)]
    rfl

/-- The references and free uses of the finished table are the uses of the draft. -/
theorem finish_uses {d : Draft} (hd : d.Sound) (hfree : d.table.free = []) :
    (d.finish.table.bindings.flatMap (·.references) ++ d.finish.table.free).Perm d.pending := by
  have hlt : ∀ r ∈ d.pending, ∀ i, d.graph.lookup r.name.text r.scope = some i →
      i < d.table.bindings.length := by
    intro r _ i hi
    obtain ⟨s, _, hs⟩ := hd.graph.exists_here_of_lookup hi
    obtain ⟨b, hb, _⟩ := hd.held hs
    exact binding?_lt hb
  rw [finish_free, hfree, List.nil_append, List.flatMap_def, finish_references hd,
    ← List.flatMap_def]
  refine (List.Perm.append ?_ (List.mergeSort_perm _ _)).trans
    (perm_places (fun r : Reference => d.graph.lookup r.name.text r.scope) hlt)
  exact .flatMap_left _ fun i _ => List.mergeSort_perm _ _

end Draft

/-! ### The result -/

/-- The table of a script accounts for all names in it. -/
structure Scoping.Conserves (s : Scoping) (script : Node) : Prop where
  /-- The references and the free uses are the uses in the script, each in its kind. -/
  uses : ((s.table.bindings.flatMap (·.references) ++ s.table.free).map
    fun r => (r.name, r.kind)).Perm (script.uses .read)
  /-- A reference belongs to the binding that its name finds. -/
  found : ∀ {i : BindingId} {b : Binding}, s.table.bindings[i]? = some b →
    ∀ r ∈ b.references, s.graph.lookup r.name.text r.scope = some i
  /-- A free use finds none. -/
  free : ∀ r ∈ s.table.free, s.graph.lookup r.name.text r.scope = none
  /-- The sites are the declarations in the script, and one for each function expression that is
  bound to its own name. -/
  declared : ((s.table.bindings.flatMap (·.sites)).map (·.name)).Perm
    (script.declaredNames ++ ownNames s.table.bindings)
  /-- References are in the order of the text. -/
  ordered : ∀ b ∈ s.table.bindings, b.references.Pairwise (·.position ≤ ·.position)
  freeOrdered : s.table.free.Pairwise (·.position ≤ ·.position)

theorem inOrder_pairwise (rs : List Reference) :
    (Table.inOrder rs).Pairwise (·.position ≤ ·.position) := by
  have hsorted : (Table.inOrder rs).Pairwise fun a b =>
      decide (a.position ≤ b.position) = true := by
    refine List.pairwise_mergeSort (fun a b c hab hbc => ?_) (fun a b => ?_) rs
    · exact decide_eq_true (Int.le_trans (of_decide_eq_true hab) (of_decide_eq_true hbc))
    · simp only [Bool.or_eq_true, decide_eq_true_eq]
      omega
  exact hsorted.imp of_decide_eq_true

/-- **No name is lost and none is counted twice.** -/
theorem Scoping.conserves {script : Node} {s : Scoping} (hp : script.isWellPlaced = true)
    (h : Scoping.ofScript script = .ok s) : s.Conserves script := by
  obtain ⟨d, hd, rfl⟩ := Scoping.ofScript_ok h
  obtain ⟨m, hm, hbody⟩ := Draft.steps_cons_ok.mp hd
  have hseat := (Event.ofScript_nested script hm hbody).1
  have hconveys := Event.ofNode_conveys script ⟨.absent, script.span.start⟩ .plain hp
  cases hm
  have hstart := Draft.Sound.start script.span
  have hsound := hstart.steps hbody
  have hfree : d.table.free = [] := Draft.free_steps hbody
  constructor
  case uses =>
    refine ((Draft.finish_uses hsound hfree).map _).trans (.of_eq ?_)
    have huses := Draft.pendingUses_steps hbody
    rw [hconveys.uses] at huses
    exact huses
  case found =>
    intro i b hb r hr
    obtain ⟨b₀, hazards, hb₀, rfl, _⟩ := Draft.binding_of_finish hb
    have hmem := Draft.mem_inOrder.mp hr
    rw [(hsound.bare hb₀).1, List.nil_append] at hmem
    rw [Draft.finish_graph]
    exact eq_of_beq (List.mem_filter.mp hmem).2
  case free =>
    intro r hr
    rw [Draft.finish_free, hfree, Draft.mem_inOrder, List.nil_append] at hr
    rw [Draft.finish_graph]
    exact Option.isNone_iff_eq_none.mp (List.mem_filter.mp hr).2
  case declared =>
    have hnames : siteNames d.finish.table.bindings = siteNames d.table.bindings :=
      Draft.finish_flatMap (fun _ _ _ => rfl) d
    have hown : ownNames d.finish.table.bindings = ownNames d.table.bindings :=
      Draft.finish_flatMap (fun _ _ _ => rfl) d
    have hnone : (({} : Draft).openScope .program script.span none []).Accounts [] :=
      List.Perm.refl _
    have haccounts := hnone.steps hstart hconveys.proper hseat hbody
    rw [hconveys.names, List.nil_append, Draft.Accounts, ← hnames, ← hown] at haccounts
    rw [List.map_flatMap]
    exact haccounts
  case ordered =>
    intro b hb
    obtain ⟨i, hi⟩ := List.mem_iff_getElem?.mp hb
    obtain ⟨b₀, hazards, _, rfl, _⟩ := Draft.binding_of_finish hi
    exact inOrder_pairwise _
  case freeOrdered =>
    rw [Draft.finish_free]
    exact inOrder_pairwise _

/-- The script `(function f(x) { var y = x; y += 1; });`. -/
def countingScript : Node :=
  let init : Node := .declarator ⟨"y", .of 21 22⟩ (.lookup ⟨"x", .of 25 26⟩) (.of 21 26)
  let sum : Node := .assign (.str "+=") (.lookup ⟨"y", .of 28 29⟩)
    (.literal (.json (.int 1)) (.of 33 34)) (.of 28 34)
  .program [.exprStmt (.function .expression (some ⟨"f", .of 10 11⟩) [⟨"x", .of 12 13⟩]
    [.varDecl .varWord [init] (.of 17 27), .exprStmt sum (.of 28 35)] false (.of 1 37)) (.of 0 39)]
    (.of 0 39)

theorem conserves_countingScript :
    countingScript.isWellPlaced = true ∧
      countingScript.uses .read = [(⟨"x", .of 25 26⟩, .read), (⟨"y", .of 28 29⟩, .readwrite)] ∧
      countingScript.declaredNames = [⟨"x", .of 12 13⟩, ⟨"y", .of 21 22⟩] ∧
      ∃ s, Scoping.ofScript countingScript = .ok s ∧ s.Conserves countingScript := by
  have hp : countingScript.isWellPlaced = true := by decide
  obtain ⟨s, hs, _⟩ := exists_ok_of_any
    (show (Scoping.ofScript countingScript).toOption.any (fun _ => true) = true by decide +kernel)
  exact ⟨hp, by decide, by decide, s, hs, Scoping.conserves hp hs⟩

/-- A `catch` clause with the case of a `switch` for its body, `case x:`. -/
def strayScript : Node :=
  let stray : Node := .caseClause (.lookup ⟨"x", .of 18 19⟩) [] (.of 13 20)
  .program [.tryStmt (.block [] (.of 4 6)) (.catchClause none stray (.of 7 22)) .absent (.of 0 22)]
    (.of 0 22)

/-- The clause reads the statements of the case, and not what the case tests. -/
theorem strayScript_loses_use :
    strayScript.uses .read = [(⟨"x", .of 18 19⟩, .read)] ∧
      ∃ s, Scoping.ofScript strayScript = .ok s ∧ ¬ s.Conserves strayScript := by
  obtain ⟨s, hs, hn⟩ := exists_ok_of_any
    (show (Scoping.ofScript strayScript).toOption.any
      (fun s => (s.table.bindings.flatMap (·.references) ++ s.table.free).length == 0) = true
      by decide +kernel)
  have huses : strayScript.uses .read = [(⟨"x", .of 18 19⟩, .read)] := by decide
  refine ⟨huses, s, hs, fun hc => ?_⟩
  have hlen := hc.uses.length_eq
  rw [huses, List.length_map, eq_of_beq hn] at hlen
  cases hlen

/-- The declarator `x`, with no declaration around it. -/
def loneScript : Node := .program [.declarator ⟨"x", .of 0 1⟩ .absent (.of 0 1)] (.of 0 1)

/-- There is no binding for its name. -/
theorem loneScript_loses_name :
    loneScript.declaredNames = [⟨"x", .of 0 1⟩] ∧
      ∃ s, Scoping.ofScript loneScript = .ok s ∧ ¬ s.Conserves loneScript := by
  obtain ⟨s, hs, hn⟩ := exists_ok_of_any
    (show (Scoping.ofScript loneScript).toOption.any (·.table.bindings.isEmpty) = true by
      decide +kernel)
  have hnames : loneScript.declaredNames = [⟨"x", .of 0 1⟩] := by decide
  refine ⟨hnames, s, hs, fun hc => ?_⟩
  have hlen := hc.declared.length_eq
  rw [hnames, List.isEmpty_iff.mp hn] at hlen
  cases hlen

end ScopeLowering
