import Mathlib.Data.List.Forall2
import ScopeLowering.Proofs.Layout
import ScopeLowering.Proofs.Rivals

/-!
# Where declaration statements stand

Every `var` is a member of the statement that holds its first declaration
(`exists_entry_ofScript`), and all members of a statement belong to the same function
(`joint_ofScript`), whatever functions stand in the values between them.

## The model

Scopes and statements open and close like brackets. `walk` goes through some events with the stack
of open brackets; it fails where a bracket closes that is not the innermost one, or where a
declarator is met outside of its statement. The events of a node lead back to the stack they start
from, so a statement that is open stands in the scope at hand once the scopes inside of it are
closed (`seats`).
-/

namespace ScopeLowering

/-! ### The statement of a variable -/

/-- A `var` is declared in a `var` statement. -/
theorem Event.Rekeyed.exists_statement {key : Nat → Keyword} {t t' : Tally} {es es' : List Event}
    (h : Rekeyed key t es es' t') {name : Ident} {st : Option Statement}
    {hasInit unbraced each : Bool} {ready : Offset}
    (hd : declare (.declared .varWord) name st hasInit ready unbraced each ∈ es) :
    ∃ s, st = some s ∧ s.keyword = .varWord := by
  induction h with
  | nil => cases hd
  | same hp _ ih =>
    rcases List.mem_cons.mp hd with rfl | hd
    · cases hp
    · exact ih hd
  | opened s k _ ih => exact ih ((List.mem_cons.mp hd).resolve_left (by simp))
  | closed _ ih => exact ih ((List.mem_cons.mp hd).resolve_left (by simp))
  | first hs _ ih | later hs _ ih =>
    rcases List.mem_cons.mp hd with he | hd
    · cases he
      exact ⟨_, rfl, hs⟩
    · exact ih hd

namespace Draft

/-- A declaration leaves the bindings there were, or makes a new one. -/
theorem declareVariable_binding {d : Draft} {kind : BindingKind} {site : Site} {i : BindingId}
    {b : Binding} (h : (d.declareVariable kind site).binding? i = some b) :
    (∃ b₀, d.binding? i = some b₀ ∧ b₀.Grows b) ∨ b.kind = kind ∧ b.first = site := by
  rw [declareVariable_eq, record_binding?] at h
  obtain ⟨b₁, hb₁, hg⟩ := mark_binding h
  rcases declare_binding hb₁ with ⟨b₀, hb₀, hg₀⟩ | ⟨_, hk, hf⟩
  · exact .inl ⟨b₀, hb₀, hg₀.trans hg⟩
  · exact .inr ⟨hg.kind.trans hk, hg.first.trans hf⟩

/-- The first declaration of a `var` is in a `var` statement. -/
def Stated (d : Draft) : Prop :=
  ∀ {i b}, d.binding? i = some b → b.kind = .declared .varWord →
    ∃ s, b.first.statement = some s ∧ s.keyword = .varWord

theorem Stated.steps {d d' : Draft} {es : List Event} (h : d.Stated)
    (hes : ∀ {name st hasInit ready unbraced each},
      .declare (.declared .varWord) name st hasInit ready unbraced each ∈ es →
        ∃ s, st = some s ∧ s.keyword = .varWord)
    (hs : d.steps es = .ok d') : d'.Stated := by
  refine steps_invariant (P := Stated) (fun e he h hm i b hb hk => ?_) h hs
  cases e with
  | declare kind name st hasInit ready unbraced each =>
    cases hm
    rcases declareVariable_binding hb with ⟨b₀, hb₀, hg⟩ | ⟨rfl, hf⟩
    · rw [hg.first]
      exact h hb₀ (hg.kind ▸ hk)
    · rw [hf]
      rw [hk] at he
      exact hes he
  | callee name ready problem =>
    rcases step_callee_ok hm with rfl | ⟨_, rfl⟩
    · exact h hb hk
    · rcases declareVariable_binding hb with ⟨b₀, hb₀, hg⟩ | ⟨hc, _⟩
      · rw [hg.first]
        exact h hb₀ (hg.kind ▸ hk)
      · rw [hk] at hc; cases hc
  | thisUse =>
    obtain ⟨_, rfl⟩ := step_thisUse_ok hm
    exact h hb hk
  | fault => cases hm
  | _ => cases hm; exact h hb hk

/-- Every `var` of a script is a member of the statement of its first declaration. -/
theorem exists_entry_ofScript {script : Node} {d : Draft}
    (h : Draft.steps {} (Event.ofScript script) = .ok d) {i : BindingId} {b : Binding}
    (hb : d.binding? i = some b) (hk : b.kind = .declared .varWord) :
    ∃ e ∈ d.table.statements, b.first.statement = some e.statement ∧ i ∈ e.members := by
  obtain ⟨m, hm, hbody⟩ := steps_cons_ok.mp h
  obtain ⟨_, hr⟩ := Event.ofScript_rekeyed (fun _ => .varWord) script (fault_not_mem_steps hbody)
  cases hm
  have hstart : (({} : Draft).openScope .program script.span none []).Stated :=
    fun hb => by cases hb
  obtain ⟨s, hs, hv⟩ := hstart.steps (fun hd => hr.exists_statement hd) hbody hb hk
  obtain ⟨_, e, he, hes, hi⟩ := isNoted_ofScript h hb List.mem_cons_self hs hv
  exact ⟨e, he, hes ▸ hs, hi⟩

end Draft

/-! ### Brackets -/

/-- What opens among the events, and closes again. -/
inductive Bracket where
  | scope (span : Span)
  | statement
  deriving DecidableEq

namespace Bracket

/-- The spans of the open scopes, innermost first. -/
@[simp] def rooms : List Bracket → List Span
  | [] => []
  | scope span :: bs => span :: rooms bs
  | statement :: bs => rooms bs

/-- The brackets around the innermost one, if that is a scope. -/
@[simp] def leave? : List Bracket → Option (List Bracket)
  | scope _ :: bs => some bs
  | _ => none

/-- Does the innermost open scope reach as far as the node? -/
def Covers (bs : List Bracket) (n : Node) : Prop :=
  n.isAbsent = false ∧ (rooms bs).head?.any n.span.isWithin = true

end Bracket

namespace Event

open ScopeLowering.Bracket

/-- The open brackets after an event. A scope opens within the one around it, and a declarator is
met directly inside of a statement. The script's own scope is open before all others, and no second
one of its kind opens. -/
def brackets? (bs : List Bracket) : Event → Option (List Bracket)
  | enter .program .. => none
  | enter _ span .. => if (rooms bs).head?.any span.isWithin then some (.scope span :: bs) else none
  | openStatement _ => some (.statement :: bs)
  | leave => leave? bs
  | closeStatement => if bs.head? = some .statement then some bs.tail else none
  | declare (.declared _) .. => if bs.head? = some .statement then some bs else none
  | declare .. | callee .. | refer .. | evalCall _ | dynamic | thisUse | fault _ => some bs

/-- The open brackets after some events. -/
def walk (bs : List Bracket) (es : List Event) : Option (List Bracket) := es.foldlM brackets? bs

@[simp] theorem walk_nil (bs : List Bracket) : walk bs [] = some bs := rfl

@[simp] theorem walk_cons (bs : List Bracket) (e : Event) (es : List Event) :
    walk bs (e :: es) = (brackets? bs e).bind fun cs => walk cs es := rfl

@[simp] theorem walk_append (bs : List Bracket) (es fs : List Event) :
    walk bs (es ++ fs) = (walk bs es).bind fun cs => walk cs fs := by
  rw [walk, List.foldlM_append]
  rfl

@[simp] theorem walk_check (bs : List Bracket) (n o : Node) : walk bs (check n o) = some bs := by
  unfold check
  cases misplaced? n o <;> rfl

@[simp] theorem walk_declareName (bs : List Bracket) {kind : BindingKind}
    (hk : ∀ k, kind ≠ .declared k) (name : Ident) (ready : Offset) (o : Node) :
    walk bs (declareName kind name ready o) = some bs := by
  rw [declareName, walk_append, walk_check]
  cases kind with
  | declared k => exact absurd rfl (hk k)
  | _ => rfl

@[simp] theorem walk_params (bs : List Bracket) (params : List Ident) (ready : Offset)
    (o : Node) : walk bs (params.flatMap fun i => declareName .param i ready o) = some bs := by
  induction params with
  | nil => rfl
  | cons i params ih => simp [ih]

@[simp] theorem walk_evalCalls (bs : List Bracket) (fn : Node) :
    walk bs (evalCalls fn) = some bs := by
  unfold evalCalls
  split
  · split <;> rfl
  · rfl

@[simp] theorem walk_faultIf (bs : List Bracket) (c : Prop) [Decidable c] (f : ScopeFault) :
    walk bs (if c then [fault f] else []) = some bs := by
  split <;> rfl

/-- A node in its place is covered by what covers the node around it. -/
theorem covers_of_check {n o : Node} {bs : List Bracket} (hn : n.isAbsent = false)
    (hc : Calm (check n o)) (ho : Covers bs o) : Covers bs n := by
  have hplaced : n.span.isWithin o.span = true := by
    have hm := misplaced?_of_calm hc
    unfold misplaced? at hm
    cases hw : n.span.isWithin o.span <;> cases hs : n.span.isSensible <;>
      simp [ho.1, hw, hs] at hm ⊢
  have htop := ho.2
  refine ⟨hn, ?_⟩
  cases hr : (rooms bs).head? with
  | none => rw [hr] at htop; cases htop
  | some top =>
    rw [hr] at htop
    simp only [Option.any_some, Span.isWithin, Bool.and_eq_true, decide_eq_true_eq] at *
    omega

theorem covers_of_calm {n : Node} {p : Place} {role : Role} {bs : List Bracket}
    (hc : Calm (ofNode p role n)) (ho : Covers bs p.outer) : Covers bs n := by
  rw [ofNode_eq_layout] at hc
  cases n with
  | absent | ident => exact absurd hc not_calm_fault
  | _ => exact covers_of_check rfl (calm_append.mp hc).1 ho

/-- Do the events of the node close the brackets that they open, unless there is a fault? -/
def Balances (n : Node) : Prop :=
  ∀ p role bs, Calm (ofNode p role n) → Covers bs n → walk bs (ofNode p role n) = some bs

theorem Balances.part {n : Node} (h : Balances n) (p : Place) (role : Role) (bs : List Bracket)
    (hc : Calm (ofNode p role n)) (ho : Covers bs p.outer) : walk bs (ofNode p role n) = some bs :=
  h p role bs hc (covers_of_calm hc ho)

theorem Balances.optional {n : Node} (h : Balances n) (p : Place) (role : Role) (bs : List Bracket)
    (hc : Calm (if n.isAbsent then [] else ofNode p role n)) (ho : Covers bs p.outer) :
    walk bs (if n.isAbsent then [] else ofNode p role n) = some bs := by
  split
  · rfl
  · rw [if_neg ‹_›] at hc
    exact h.part p role bs hc ho

theorem Balances.parts {ns : List Node} (h : ∀ n ∈ ns, Balances n) (p : Place) (bs : List Bracket)
    (hc : Calm (ofNodes p ns)) (ho : Covers bs p.outer) : walk bs (ofNodes p ns) = some bs := by
  induction ns with
  | nil => rfl
  | cons n ns ih =>
    obtain ⟨hn, hns⟩ := List.forall_mem_cons.mp h
    rw [ofNodes, calm_append] at hc
    simp [ofNodes, hn.optional _ _ _ hc.1 ho, ih hns hc.2]

theorem Balances.declarators {ds : List Node} (h : ∀ d ∈ ds, ∀ x ∈ d.slots, Balances x) (p : Place)
    (st : Statement) (unbraced : Bool) (each : Option Offset) (bs : List Bracket)
    (hc : Calm (ofDeclarators p st unbraced each ds)) (ho : Covers bs p.outer) :
    walk (.statement :: bs) (ofDeclarators p st unbraced each ds) = some (.statement :: bs) := by
  induction ds with
  | nil => rfl
  | cons d ds ih =>
    obtain ⟨hd, hds⟩ := List.forall_mem_cons.mp h
    cases d with
    | declarator name x =>
      have hx := (hd x (by simp [Node.slots])).optional p (.stored name) (.statement :: bs)
      simp only [ofDeclarators, calm_append] at hc
      simp [ofDeclarators, brackets?, hx hc.1.1.1.2 ho, ih hds hc.2]
    | _ => simp [ofDeclarators, brackets?, ih hds (calm_append.mp hc).2]

theorem walk_clauseBody {n : Node} (h : ∀ x ∈ n.slots, Balances x) {ready : Offset} {o : Node}
    {bs : List Bracket} (hc : Calm ((clauseBody n ready o).flatMap Piece.events))
    (ho : Covers bs o) : walk bs ((clauseBody n ready o).flatMap Piece.events) = some bs := by
  cases n with
  | block xs | program xs | function _ _ _ xs | caseClause _ xs =>
    have hxs : ∀ x ∈ xs, Balances x := fun x hx => h x (by simp [hx])
    simp only [clauseBody, List.flatMap_cons, calm_append, Piece.events] at hc
    have hall := Balances.parts hxs _ bs hc.2.1 (covers_of_check rfl hc.1 ho)
    simp [hall]
  | absent => rfl
  | _ =>
    show walk bs ((check _ o ++ [fault _]) ++ []) = some bs
    rw [List.append_nil, walk_append, walk_check]
    rfl

/-- The events of a node close the brackets that they open. -/
theorem walk_ofNode (n : Node) : Balances n := by
  induction n using Node.byParts with | step n ih ih' =>
  intro p role bs hc hn
  have hroom : (rooms bs).head?.any n.span.isWithin = true := hn.2
  have hin : Covers (.scope n.span :: bs) n := ⟨hn.1, by simp [Span.isWithin]⟩
  rw [ofNode_eq_layout] at hc ⊢
  cases n with
  | absent | ident => rfl
  | arrayLit xs | objectLit xs | sequence xs | program xs | block xs =>
    have hxs : ∀ x ∈ xs, Balances x := ih
    simp only [Node.span] at hroom hin
    simp [layout, calm_append, calm_cons, Node.span] at hc
    simp [layout, brackets?, Balances.parts hxs, hc, hn, hin, hroom, Node.span]
  | call x xs | newCall x xs | caseClause x xs | switchStmt x xs =>
    obtain ⟨hx, hxs⟩ : Balances x ∧ ∀ y ∈ xs, Balances y := List.forall_mem_cons.mp ih
    simp only [Node.span] at hroom hin
    simp [layout, calm_append, calm_cons, Node.span] at hc
    simp [layout, brackets?, hx.part, hx.optional, Balances.parts hxs, hc, hn, hin, hroom,
      Node.span]
  | function form name params xs =>
    have hxs : ∀ x ∈ xs, Balances x := fun x hx => ih x (by simp [hx])
    simp only [Node.span] at hroom hin
    simp [layout, calm_append, calm_cons, Node.span] at hc
    cases form <;> cases name <;>
      simp [layout, brackets?, Balances.parts hxs, hc, hin, hroom, Node.span]
  | varDecl k ds =>
    have hds : ∀ d ∈ ds, ∀ x ∈ d.slots, Balances x := ih'
    simp [layout, calm_append, calm_cons] at hc
    simp [layout, brackets?, Balances.declarators hds, hc, hn]
  | catchClause param x =>
    have hx : ∀ y ∈ x.slots, Balances y := ih' x (by simp)
    simp only [Node.span] at hroom hin
    simp [-clauseBody, layout, calm_append, calm_cons] at hc
    have hbody := walk_clauseBody hx hc.2.2.1 hin
    cases param <;> simp [-clauseBody, layout, brackets?, hbody, hroom]
  | member x y computed =>
    have hx := ih x (by simp)
    have hy := ih y (by simp)
    cases computed <;> simp [layout, calm_append] at hc <;>
      simp [layout, hx.part, hy.part, hc, hn]
  | _ =>
    simp only [Node.slots, List.forall_mem_cons] at ih
    simp only [Node.span] at hroom hin
    simp [layout, calm_append, calm_cons, Node.span] at hc
    simp [layout, brackets?, ih, Balances.part, Balances.optional, hc, hn, hin, hroom, Node.span]

/-- The events of a script close the brackets that they open. -/
theorem walk_script {script : Node} {start : Offset}
    (hc : Calm (ofNode ⟨.absent, start⟩ .plain script)) :
    walk [.scope script.span] (ofNode ⟨.absent, start⟩ .plain script) =
      some [.scope script.span] := by
  refine walk_ofNode script _ _ _ hc ⟨?_, by simp [Span.isWithin]⟩
  cases script with
  | absent => exact absurd hc not_calm_fault
  | _ => rfl

theorem brackets?_enter {bs bs' : List Bracket} {kind : ScopeKind} {span : Span}
    {callable : Option Callable} {cases : List Span}
    (h : brackets? bs (enter kind span callable cases) = some bs') :
    kind ≠ .program ∧ (rooms bs).head?.any span.isWithin = true ∧ bs' = .scope span :: bs := by
  cases kind with
  | program => cases h
  | _ =>
    obtain ⟨hroom, ⟨⟩⟩ := Option.ite_none_right_eq_some.mp h
    exact ⟨by simp, hroom, rfl⟩

end Event

namespace Draft

section Bracketed

variable {P : List Bracket → Draft → Prop}
  (hstep : ∀ {bs bs' : List Bracket} {d d' : Draft} {e : Event}, P bs d → d.Sound →
    e.brackets? bs = some bs' → d.step e = .ok d' → P bs' d')
include hstep

/-- What each event keeps along with the open brackets, all of them keep. -/
theorem bracketed_steps {bs bs' : List Bracket} {d d' : Draft} {es : List Event} (h : P bs d)
    (hd : d.Sound) (hb : Event.walk bs es = some bs') (hs : d.steps es = .ok d') : P bs' d' := by
  induction es generalizing bs d with
  | nil =>
    cases hb
    cases hs
    exact h
  | cons e es ih =>
    obtain ⟨cs, he, hes⟩ := Option.bind_eq_some_iff.mp hb
    obtain ⟨m, hm, hs⟩ := steps_cons_ok.mp hs
    exact ih (hstep h hd he hm) (hd.step hm) hes hs

theorem bracketed_ofScript {script : Node} {d : Draft}
    (h : Draft.steps {} (Event.ofScript script) = .ok d)
    (hstart : P [.scope script.span] (({} : Draft).openScope .program script.span none [])) :
    P [.scope script.span] d := by
  obtain ⟨m, hm, hbody⟩ := steps_cons_ok.mp h
  cases hm
  have hwalk := Event.walk_script (fault_not_mem_steps hbody)
  exact bracketed_steps hstep hstart (Sound.start script.span) hwalk hbody

end Bracketed

end Draft

/-! ### Seats of statements -/

/-- The scopes in which the open statements stand, innermost first. -/
def Graph.seats (g : Graph) : List Bracket → ScopeId → List ScopeId
  | [], _ => []
  | .scope _ :: bs, c => g.seats bs ((g.parent? c).getD 0)
  | .statement :: bs, c => c :: g.seats bs c

namespace Draft

variable {d d' : Draft}

theorem Grows.seats_eq (hg : d.Grows d') (hd : d.Sound) (bs : List Bracket) {c : ScopeId}
    (hc : c < d.graph.size) : d'.graph.seats bs c = d.graph.seats bs c := by
  induction bs generalizing c with
  | nil => rfl
  | cons b bs ih =>
    cases b with
    | statement => exact congrArg (c :: ·) (ih hc)
    | scope =>
      have hup : (d.graph.parent? c).getD 0 < d.graph.size := by
        cases hp : d.graph.parent? c with
        | none => exact Nat.zero_lt_of_lt hc
        | some up => exact Nat.lt_trans (hd.graph.parent_lt hp) hc
      rw [Graph.seats, Graph.seats, hg.parent? hc, ih hup]

/-- A binding belongs to the scope that its declaration is attached to. -/
theorem Sound.declare_scope (h : d.Sound) (kind : BindingKind) (site : Site) :
    ∃ b, (d.declare kind site).1.binding? (d.declare kind site).2 = some b ∧
      b.scope = d.attachment kind := by
  rcases d.declare_cases kind site with ⟨_, hd⟩ | ⟨old, hold, ⟨_, _, hd⟩ | ⟨_, hd⟩⟩ <;> rw [hd]
  · exact ⟨d.fresh kind site, by rw [binding?_own, if_pos rfl], rfl⟩
  · obtain ⟨b, hb, _, hscope⟩ := h.held hold
    refine ⟨joined site b, by rw [binding?_join, hb, Option.map_some, if_pos rfl], ?_⟩
    rw [(grows_joined site b).scope, hscope]
  · refine ⟨_, by rw [binding?_clash, if_pos rfl], ?_⟩
    rw [Binding.addHazard_scope]
    rfl

/-- The statement with a number has members, and they all belong to one scope. -/
def United (d : Draft) (n : Nat) (f : ScopeId) : Prop :=
  ∃ e, d.table.statements[n]? = some e ∧ e.members ≠ [] ∧
    ∀ j ∈ e.members, ∃ b, d.binding? j = some b ∧ b.scope = f

namespace United

variable {n : Nat} {f f' : ScopeId}

theorem unique (h : d.United n f) (h' : d.United n f') : f = f' := by
  obtain ⟨e, he, hne, hall⟩ := h
  obtain ⟨e', he', _, hall'⟩ := h'
  rw [he] at he'
  cases he'
  obtain ⟨j, hj⟩ := List.exists_mem_of_ne_nil _ hne
  obtain ⟨b, hb, rfl⟩ := hall j hj
  obtain ⟨b', hb', rfl⟩ := hall' j hj
  rw [hb] at hb'
  cases hb'
  rfl

theorem grows (h : d.United n f) (hg : d.Grows d')
    (ht : d'.table.statements = d.table.statements) : d'.United n f := by
  obtain ⟨e, he, hne, hall⟩ := h
  refine ⟨e, ht ▸ he, hne, fun j hj => ?_⟩
  obtain ⟨b, hb, rfl⟩ := hall j hj
  obtain ⟨b', hb', hgb⟩ := hg.binding hb
  exact ⟨b', hb', hgb.scope⟩

end United

/-- The members of every statement belong to one scope: for an open one, to the function around the
scope in which it stands. -/
structure Joint (bs : List Bracket) (d : Draft) : Prop where
  all : ∀ {n : Nat} {e : StatementEntry}, d.table.statements[n]? = some e → ∃ f, d.United n f
  stack : List.Forall₂ (fun x c => c < d.graph.size ∧
    ∀ n, x.2 = some n → d.United n (d.graph.nearestFunction c)) d.statements
    (d.graph.seats bs d.current)

namespace Joint

variable {bs bs' : List Bracket}

/-- No note changes. -/
theorem quiet (h : Joint bs d) (hg : d.Grows d')
    (ht : d'.table.statements = d.table.statements) (hs : d'.statements = d.statements)
    (hseats : d'.graph.seats bs' d'.current = d.graph.seats bs d.current) : Joint bs' d' where
  all {n e} he := by
    obtain ⟨f, hf⟩ := h.all (ht ▸ he)
    exact ⟨f, hf.grows hg ht⟩
  stack := by
    rw [hs, hseats]
    refine h.stack.imp fun x c hx => ⟨?_, fun n hn => ?_⟩
    · exact Nat.lt_of_lt_of_le hx.1 hg.size_le
    · rw [hg.nearestFunction hx.1]
      exact (hx.2 n hn).grows hg ht

/-- A name is noted in the innermost statement. -/
theorem record (h : Joint (.statement :: bs) d) {i : BindingId} {b : Binding}
    (hb : d.binding? i = some b) (hscope : b.scope = d.graph.nearestFunction d.current)
    (site : Site) : Joint (.statement :: bs) (d.record (.declared .varWord) i site) := by
  obtain ⟨⟨s, num⟩, rest, htop, hrest, hd⟩ := List.forall₂_cons_right_iff.mp h.stack
  have hbinding := d.record_binding? (.declared .varWord) i site
  have hgraph := d.record_graph (.declared .varWord) i site
  have hcurrent : (d.record (.declared .varWord) i site).current = d.current :=
    (d.frame_record _ _ _).current
  cases num with
  | none =>
    have hrec := record_new hd i site
    have hstatements : (d.record (.declared .varWord) i site).statements =
        (s, some d.table.statements.length) :: rest := by rw [hrec]
    have hold : ∀ {n f}, d.United n f → (d.record (.declared .varWord) i site).United n f := by
      rintro n f ⟨e, he, hne, hmem⟩
      refine ⟨e, ?_, hne, fun j hj => hbinding j ▸ hmem j hj⟩
      rw [hrec]
      exact (List.getElem?_append_left (List.getElem?_eq_some_iff.mp he).1).trans he
    have hnew : (d.record (.declared .varWord) i site).United d.table.statements.length
        (d.graph.nearestFunction d.current) := by
      refine ⟨⟨s, [i]⟩, ?_, List.cons_ne_nil _ _, fun j hj => ?_⟩
      · rw [hrec]
        exact List.getElem?_concat_length
      · rw [List.mem_singleton.mp hj, hbinding]
        exact ⟨b, hb, hscope⟩
    refine ⟨fun {n e} he => ?_, ?_⟩
    · rw [hrec] at he
      have hlt := (List.getElem?_eq_some_iff.mp he).1
      rw [List.length_append, List.length_singleton] at hlt
      by_cases hn : n < d.table.statements.length
      · obtain ⟨f, hf⟩ := h.all (List.getElem?_eq_getElem hn)
        exact ⟨f, hold hf⟩
      · obtain rfl : n = d.table.statements.length := by omega
        exact ⟨_, hnew⟩
    · rw [hstatements, hgraph, hcurrent]
      refine .cons ⟨htop.1, fun n hn => ?_⟩
        (hrest.imp fun x c hx => ⟨hx.1, fun n hn => hold (hx.2 n hn)⟩)
      cases hn
      exact hnew
  | some m =>
    have hrec := record_old hd i site
    have hstatements : (d.record (.declared .varWord) i site).statements = d.statements := by
      rw [hrec]
    have hold : ∀ {n f}, d.United n f → (d.record (.declared .varWord) i site).United n f := by
      intro n f hf
      obtain ⟨e, he, hne, hmem⟩ := id hf
      by_cases hn : m = n
      · -- the members there are and the new one belong to the function around the statement
        subst hn
        refine ⟨{ e with members := e.members ++ [i] }, ?_, by simp, fun j hj => ?_⟩
        · rw [hrec]
          show (d.table.statements.modify m _)[m]? = _
          rw [List.getElem?_modify, he]
          exact congrArg some (if_pos rfl)
        · rw [hbinding]
          rcases List.mem_append.mp hj with hj | hj
          · exact hmem j hj
          · rw [List.mem_singleton.mp hj, ← (htop.2 m rfl).unique hf]
            exact ⟨b, hb, hscope⟩
      · refine ⟨e, ?_, hne, fun j hj => hbinding j ▸ hmem j hj⟩
        rw [hrec]
        show (d.table.statements.modify m _)[n]? = _
        rw [List.getElem?_modify, he]
        exact congrArg some (if_neg hn)
    refine ⟨fun {n e} he => ?_, ?_⟩
    · rw [hrec] at he
      have hlt := (List.getElem?_eq_some_iff.mp he).1
      rw [List.length_modify] at hlt
      obtain ⟨f, hf⟩ := h.all (List.getElem?_eq_getElem hlt)
      exact ⟨f, hold hf⟩
    · rw [hstatements, hgraph, hcurrent]
      exact h.stack.imp fun x c hx => ⟨hx.1, fun n hn => hold (hx.2 n hn)⟩

/-- A name of a `var` statement is declared. -/
theorem declareVariable (h : Joint (.statement :: bs) d) (hd : d.Sound) (site : Site) :
    Joint (.statement :: bs) (d.declareVariable (.declared .varWord) site) := by
  obtain ⟨b, hb, hscope⟩ := hd.declare_scope (.declared .varWord) site
  obtain ⟨ht, hs, _⟩ := d.notes_marked (.declared .varWord) site
    (d.declare (.declared .varWord) site).2
  have hf := (d.frame_declare (.declared .varWord) site).trans
    (frame_mark _ (d.declare (.declared .varWord) site).2 site)
  have hg := (d.grows_declare (.declared .varWord) site).trans
    (grows_mark _ (d.declare (.declared .varWord) site).2 site)
  obtain ⟨b', hb', hgb⟩ := (grows_mark _ (d.declare (.declared .varWord) site).2 site).binding hb
  have hquiet : Joint (.statement :: bs) ((d.declare (.declared .varWord) site).1.mark
      (d.declare (.declared .varWord) site).2 site) :=
    h.quiet hg ht hs (by rw [hf.current]; exact hg.seats_eq hd _ hd.current)
  rw [declareVariable_eq]
  refine hquiet.record hb' ?_ site
  rw [hgb.scope, hscope, hf.current, hg.nearestFunction hd.current]
  rfl

/-- An event that leaves the scope at hand and all statements alone. -/
theorem still (h : Joint bs d) (hd : d.Sound) {e : Event} (hp : e.isPlain = true)
    (hs : d.step e = .ok d') (hc : d'.current = d.current) : Joint bs d' := by
  obtain ⟨ht, hst⟩ := step_statements hp hs
  exact h.quiet (grows_step hs) ht hst (by rw [hc]; exact (grows_step hs).seats_eq hd bs hd.current)

theorem step (h : Joint bs d) (hd : d.Sound) {e : Event} (hb : e.brackets? bs = some bs')
    (hs : d.step e = .ok d') : Joint bs' d' := by
  cases e with
  | enter kind span callable cases =>
    obtain ⟨_, _, rfl⟩ := Event.brackets?_enter hb
    cases hs
    refine h.quiet (d.grows_openScope kind span callable cases) rfl rfl ?_
    show Graph.seats _ bs ((Graph.parent? _ d.graph.size).getD 0) = _
    rw [Sound.parent?_openScope hd.current, Option.getD_some]
    exact (d.grows_openScope kind span callable cases).seats_eq hd bs hd.current
  | leave =>
    cases hs
    cases bs with
    | nil => cases hb
    | cons b bs =>
      cases b with
      | statement => cases hb
      | scope => cases hb; exact ⟨h.all, h.stack⟩
  | openStatement s =>
    cases hb
    cases hs
    exact ⟨h.all, .cons ⟨hd.current, fun n hn => by cases hn⟩ h.stack⟩
  | closeStatement =>
    obtain ⟨htop, ⟨⟩⟩ := Option.ite_none_right_eq_some.mp hb
    obtain ⟨cs, rfl⟩ := List.head?_eq_some_iff.mp htop
    cases hs
    obtain ⟨x, rest, _, hrest, hd⟩ := List.forall₂_cons_right_iff.mp h.stack
    refine ⟨h.all, ?_⟩
    show List.Forall₂ _ d.statements.tail _
    rw [hd]
    exact hrest
  | declare kind name st hasInit ready unbraced each =>
    have hc : d'.current = d.current := (SameScopes.of_step rfl hs).current
    cases kind with
    | declared k =>
      obtain ⟨htop, ⟨⟩⟩ := Option.ite_none_right_eq_some.mp hb
      obtain ⟨cs, rfl⟩ := List.head?_eq_some_iff.mp htop
      cases k with
      | varWord =>
        cases hs
        exact h.declareVariable hd _
      | letWord | constWord => exact h.still hd rfl hs hc
    | _ =>
      cases hb
      exact h.still hd rfl hs hc
  | fault => cases hs
  | _ =>
    cases hb
    exact h.still hd rfl hs (SameScopes.of_step rfl hs).current

end Joint

/-- All members of a statement of a script belong to the same function. -/
theorem joint_ofScript {script : Node} {d : Draft}
    (h : Draft.steps {} (Event.ofScript script) = .ok d) {e : StatementEntry}
    (he : e ∈ d.table.statements) {i j : BindingId} (hi : i ∈ e.members) (hj : j ∈ e.members)
    {b c : Binding} (hb : d.binding? i = some b) (hc : d.binding? j = some c) :
    b.scope = c.scope := by
  have hend := bracketed_ofScript (fun h hd he hm => Joint.step h hd he hm) h
    ⟨(fun he => by cases he), .nil⟩
  obtain ⟨n, hn⟩ := List.mem_iff_getElem?.mp he
  obtain ⟨f, e', he', _, hall⟩ := hend.all hn
  rw [hn] at he'
  cases he'
  obtain ⟨b', hb', rfl⟩ := hall i hi
  obtain ⟨c', hc', hs⟩ := hall j hj
  rw [hb] at hb'
  rw [hc] at hc'
  cases hb'
  cases hc'
  exact hs.symm

end Draft

end ScopeLowering
