import ScopeLowering.Proofs.Arena
import ScopeLowering.Proofs.Phrases
import ScopeLowering.Scope.Capture

/-!
# Moving offsets

Inserting text into a script moves the offsets behind it, and keeps them in order. A `Stretch` is
such a map of offsets, and this module applies it to everything that has offsets: to the nodes of a
script, to what is met when it is read, and to the scopes and bindings that come of it. Nothing but
the offsets changes. The lemmas say which questions have the same answer afterwards.

## The model

A map of natural numbers that keeps their order is one of all integers (`Stretch.ofNat`), so that no
lemma has to ask for offsets that make sense.
-/

namespace ScopeLowering

/-- A map of offsets that keeps their order, and those before the start of the text there. -/
structure Stretch where
  move : Int → Int
  lt : ∀ {a b}, a < b → move a < move b
  nonneg : ∀ {a}, 0 ≤ move a ↔ 0 ≤ a

namespace Stretch

/-- Offsets in the text move as the map says, and others stay. -/
def ofNat (f : Nat → Nat) (hf : ∀ {m n}, m < n → f m < f n) : Stretch where
  move a := if 0 ≤ a then f a.toNat else a
  lt {a b} h := by
    by_cases ha : 0 ≤ a
    · have hb : 0 ≤ b := by omega
      have := hf (m := a.toNat) (n := b.toNat) (by omega)
      simp only [ha, hb, if_true]
      omega
    · by_cases hb : 0 ≤ b
      · simp only [ha, hb, if_true, if_false]
        omega
      · simpa only [ha, hb, if_false] using h
  nonneg {a} := by
    by_cases ha : 0 ≤ a
    · simp only [ha, if_true, iff_true]
      omega
    · simp only [ha, if_false]

variable (σ : Stretch)

@[simp] theorem move_lt {a b : Int} : σ.move a < σ.move b ↔ a < b := by
  constructor
  · intro h
    rcases Int.lt_trichotomy a b with hab | rfl | hba
    · exact hab
    · exact absurd h (Int.lt_irrefl _)
    · exact absurd (σ.lt hba) (by omega)
  · exact σ.lt

@[simp] theorem move_le {a b : Int} : σ.move a ≤ σ.move b ↔ a ≤ b := by
  rw [← Int.not_lt, move_lt, Int.not_lt]

theorem move_min (a b : Int) : σ.move (min a b) = min (σ.move a) (σ.move b) := by
  rcases Int.le_total a b with h | h
  · rw [Int.min_eq_left h, Int.min_eq_left (σ.move_le.mpr h)]
  · rw [Int.min_eq_right h, Int.min_eq_right (σ.move_le.mpr h)]

end Stretch

section Maps

variable (σ : Stretch)

/-! ### Spans and names -/

def Offset.stretch (o : Offset) : Offset := .known (σ.move o.value)

@[simp] theorem Offset.value_stretch (o : Offset) : (o.stretch σ).value = σ.move o.value := rfl

def Span.stretch (s : Span) : Span := ⟨s.start.stretch σ, s.stop.stretch σ⟩

@[simp] theorem Span.left_stretch (s : Span) : (s.stretch σ).left = σ.move s.left := rfl

@[simp] theorem Span.right_stretch (s : Span) : (s.stretch σ).right = σ.move s.right := rfl

/-- Are both ends of the span known? -/
def Span.isKnown (s : Span) : Bool := s.start.isKnown && s.stop.isKnown

theorem Span.isSensible_stretch {s : Span} (h : s.isKnown = true) :
    (s.stretch σ).isSensible = s.isSensible := by
  have hs : (s.stretch σ).isKnown = true := rfl
  unfold isKnown at h hs
  simp [isSensible, h, hs, σ.nonneg]

@[simp] theorem Span.isWithin_stretch (s t : Span) :
    (s.stretch σ).isWithin (t.stretch σ) = s.isWithin t := by simp [isWithin]

def Ident.stretch (name : Ident) : Ident := { name with span := name.span.stretch σ }

@[simp] theorem Ident.text_stretch (name : Ident) : (name.stretch σ).text = name.text := rfl

@[simp] theorem Ident.position_stretch (name : Ident) :
    (name.stretch σ).position = σ.move name.position := rfl

/-! ### Nodes -/

mutual

/-- The node with all its offsets moved. -/
def Node.stretch (n : Node) : Node :=
  match n with
  | .absent => .absent
  | .ident name => .ident (name.stretch σ)
  | .literal value s => .literal value (s.stretch σ)
  | .lookup name => .lookup (name.stretch σ)
  | .thisExpr s => .thisExpr (s.stretch σ)
  | .arrayLit xs s => .arrayLit (stretchAll xs) (s.stretch σ)
  | .property key x s => .property key x.stretch (s.stretch σ)
  | .objectLit xs s => .objectLit (stretchAll xs) (s.stretch σ)
  | .member x key computed s => .member x.stretch key.stretch computed (s.stretch σ)
  | .assign op x y s => .assign op x.stretch y.stretch (s.stretch σ)
  | .update op x before s => .update op x.stretch before (s.stretch σ)
  | .unary op x s => .unary op x.stretch (s.stretch σ)
  | .binary op x y s => .binary op x.stretch y.stretch (s.stretch σ)
  | .logical op x y s => .logical op x.stretch y.stretch (s.stretch σ)
  | .conditional x y z s => .conditional x.stretch y.stretch z.stretch (s.stretch σ)
  | .call x xs s => .call x.stretch (stretchAll xs) (s.stretch σ)
  | .newCall x xs s => .newCall x.stretch (stretchAll xs) (s.stretch σ)
  | .sequence xs s => .sequence (stretchAll xs) (s.stretch σ)
  | .function form name params body isArrow s =>
    .function form (name.map (·.stretch σ)) (params.map (·.stretch σ)) (stretchAll body) isArrow
      (s.stretch σ)
  | .declarator name x s => .declarator (name.stretch σ) x.stretch (s.stretch σ)
  | .varDecl keyword ds s => .varDecl keyword (stretchAll ds) (s.stretch σ)
  | .exprStmt x s => .exprStmt x.stretch (s.stretch σ)
  | .block xs s => .block (stretchAll xs) (s.stretch σ)
  | .emptyStmt s => .emptyStmt (s.stretch σ)
  | .ifStmt x y z s => .ifStmt x.stretch y.stretch z.stretch (s.stretch σ)
  | .forStmt x y z w s => .forStmt x.stretch y.stretch z.stretch w.stretch (s.stretch σ)
  | .forEachStmt x y z isOf s => .forEachStmt x.stretch y.stretch z.stretch isOf (s.stretch σ)
  | .whileStmt x y s => .whileStmt x.stretch y.stretch (s.stretch σ)
  | .doWhileStmt x y s => .doWhileStmt x.stretch y.stretch (s.stretch σ)
  | .returnStmt x s => .returnStmt x.stretch (s.stretch σ)
  | .breakStmt s => .breakStmt (s.stretch σ)
  | .continueStmt s => .continueStmt (s.stretch σ)
  | .throwStmt x s => .throwStmt x.stretch (s.stretch σ)
  | .catchClause param x s => .catchClause (param.map (·.stretch σ)) x.stretch (s.stretch σ)
  | .tryStmt x y z s => .tryStmt x.stretch y.stretch z.stretch (s.stretch σ)
  | .caseClause x xs s => .caseClause x.stretch (stretchAll xs) (s.stretch σ)
  | .switchStmt x xs s => .switchStmt x.stretch (stretchAll xs) (s.stretch σ)
  | .withStmt x y s => .withStmt x.stretch y.stretch (s.stretch σ)
  | .program xs s => .program (stretchAll xs) (s.stretch σ)

/-- The nodes with all their offsets moved. -/
def stretchAll (ns : List Node) : List Node :=
  match ns with
  | [] => []
  | n :: rest => n.stretch :: stretchAll rest

end

@[simp] theorem Node.isAbsent_stretch (n : Node) : (n.stretch σ).isAbsent = n.isAbsent := by
  cases n <;> rfl

theorem Node.span_stretch {n : Node} (h : n.isAbsent = false) :
    (n.stretch σ).span = n.span.stretch σ := by
  cases n with
  | absent => cases h
  | _ => rfl

@[simp] theorem Node.declared?_stretch (n : Node) :
    (n.stretch σ).declared? = n.declared?.map (·.stretch σ) := by
  cases n <;> rfl

theorem stretchAll_eq (ns : List Node) : stretchAll σ ns = ns.map (·.stretch σ) := by
  induction ns with
  | nil => rfl
  | cons n ns ih => rw [stretchAll, ih, List.map_cons]

/-! ### Bindings -/

def Statement.stretch (s : Statement) : Statement := { s with span := s.span.stretch σ }

def Site.stretch (s : Site) : Site :=
  { s with
    name := s.name.stretch σ
    statement := s.statement.map (·.stretch σ)
    ready := s.ready.stretch σ }

@[simp] theorem Site.name_stretch (s : Site) : (s.stretch σ).name = s.name.stretch σ := rfl

@[simp] theorem Site.scope_stretch (s : Site) : (s.stretch σ).scope = s.scope := rfl

@[simp] theorem Site.ready_stretch (s : Site) : (s.stretch σ).ready = s.ready.stretch σ := rfl

@[simp] theorem Site.isInitialized_stretch (s : Site) :
    (s.stretch σ).isInitialized = s.isInitialized := rfl

def Reference.stretch (r : Reference) : Reference := { r with name := r.name.stretch σ }

@[simp] theorem Reference.scope_stretch (r : Reference) : (r.stretch σ).scope = r.scope := rfl

@[simp] theorem Reference.isRead_stretch (r : Reference) : (r.stretch σ).isRead = r.isRead := rfl

@[simp] theorem Reference.isWrite_stretch (r : Reference) : (r.stretch σ).isWrite = r.isWrite := rfl

@[simp] theorem Reference.position_stretch (r : Reference) :
    (r.stretch σ).position = σ.move r.position := rfl

def Binding.stretch (b : Binding) : Binding :=
  { b with
    first := b.first.stretch σ
    others := b.others.map (·.stretch σ)
    references := b.references.map (·.stretch σ) }

@[simp] theorem Binding.scope_stretch (b : Binding) : (b.stretch σ).scope = b.scope := rfl

@[simp] theorem Binding.name_stretch (b : Binding) : (b.stretch σ).name = b.name := rfl

@[simp] theorem Binding.first_stretch (b : Binding) : (b.stretch σ).first = b.first.stretch σ := rfl

@[simp] theorem Binding.references_stretch (b : Binding) :
    (b.stretch σ).references = b.references.map (·.stretch σ) := rfl

@[simp] theorem Binding.isCandidate_stretch (b : Binding) :
    (b.stretch σ).isCandidate = b.isCandidate := rfl

def StatementEntry.stretch (e : StatementEntry) : StatementEntry :=
  { e with statement := e.statement.stretch σ }

def Table.stretch (t : Table) : Table where
  bindings := t.bindings.map (·.stretch σ)
  free := t.free.map (·.stretch σ)
  statements := t.statements.map (·.stretch σ)

/-! ### Scopes -/

def Callable.stretch (c : Callable) : Callable := { c with handle := c.handle.map (·.stretch σ) }

def Scope.stretch (s : Scope) : Scope :=
  { s with
    span := s.span.stretch σ
    callable := s.callable.map (·.stretch σ)
    cases := s.cases.map (·.stretch σ) }

def Graph.stretch (g : Graph) : Graph := ⟨g.scopes.map (·.stretch σ)⟩

def Scoping.stretch (s : Scoping) : Scoping := ⟨s.graph.stretch σ, s.table.stretch σ⟩

@[simp] theorem Scoping.graph_stretch (s : Scoping) : (s.stretch σ).graph = s.graph.stretch σ := rfl

@[simp] theorem Scoping.table_stretch (s : Scoping) : (s.stretch σ).table = s.table.stretch σ := rfl

namespace Graph

variable (g : Graph)

@[simp] theorem scope?_stretch (id : ScopeId) :
    (g.stretch σ).scope? id = (g.scope? id).map (·.stretch σ) := List.getElem?_map

@[simp] theorem size_stretch : (g.stretch σ).size = g.size := List.length_map _

@[simp] theorem parent?_stretch (id : ScopeId) : (g.stretch σ).parent? id = g.parent? id := by
  cases h : g.scope? id <;> simp [parent?, h, Scope.stretch]

@[simp] theorem kind?_stretch (id : ScopeId) : (g.stretch σ).kind? id = g.kind? id := by
  cases h : g.scope? id <;> simp [kind?, h, Scope.stretch]

@[simp] theorem nearestFunction_stretch (id : ScopeId) :
    (g.stretch σ).nearestFunction id = g.nearestFunction id := by
  cases h : g.scope? id <;> simp [nearestFunction, h, Scope.stretch]

@[simp] theorem here?_stretch (name : String) (id : ScopeId) :
    (g.stretch σ).here? name id = g.here? name id := by
  cases h : g.scope? id <;> simp [here?, h, Scope.stretch]

@[simp] theorem ancestors_stretch (id : ScopeId) : (g.stretch σ).ancestors id = g.ancestors id := by
  unfold ancestors
  rw [size_stretch]
  exact climb_congr (g.parent?_stretch σ) _ id

@[simp] theorem isWithin_stretch (i o : ScopeId) : (g.stretch σ).isWithin i o = g.isWithin i o := by
  simp [isWithin]

@[simp] theorem path_stretch (i o : ScopeId) : (g.stretch σ).path i o = g.path i o := by
  simp [path]

@[simp] theorem functionsBetween_stretch (i o : ScopeId) :
    (g.stretch σ).functionsBetween i o = g.functionsBetween i o := by simp [functionsBetween]

@[simp] theorem loopBetween_stretch (i o : ScopeId) :
    (g.stretch σ).loopBetween i o = g.loopBetween i o := by simp [loopBetween]

@[simp] theorem lookup_stretch (name : String) (id : ScopeId) :
    (g.stretch σ).lookup name id = g.lookup name id := by
  simp only [lookup, ancestors_stretch]
  exact congrFun (congrArg _ (funext fun s => g.here?_stretch σ name s)) _

@[simp] theorem lookupWithout_stretch (name : String) (id : ScopeId) (excluded : BindingId) :
    (g.stretch σ).lookupWithout name id excluded = g.lookupWithout name id excluded := by
  simp [lookupWithout]

end Graph

end Maps

end ScopeLowering
