import Mathlib.Data.List.Flatten
import ScopeLowering.Proofs.Lifetimes
import ScopeLowering.Proofs.Ownership
import ScopeLowering.Proofs.Rivals

/-!
# Orderly scripts

A script of which no binding is tagged as a duplicate or for missing braces is orderly
(`Scoping.isOrderly`): no two lexical declarations of one frame share a name, and none is run
without a frame.

## The model

Lexical declarations are never put together in one binding. So two of them that claim one name of
one scope make two bindings, which are tagged (`Scoping.nodup_lexicalClaims`). The frames of a run
are not the scopes of the script, but the names that a node declares in one frame are among those of
one scope (`Node.frameNames_sublist`).

The other tag is put on what is declared where braces are missing. Going through a sorted tree reads
every statement that is run without a frame in that role (`Event.isBraced`).
-/

namespace ScopeLowering

/-! ### One binding for each lexical declaration -/

/-- The claim of a lexical declaration. -/
def Declaration.lexical? (δ : Declaration) : Option Claim :=
  δ.claim?.filter (·.manner = .lexical)

/-- The first declaration of a binding. -/
def Binding.declaration (b : Binding) : Declaration := ⟨b.kind, b.scope, b.first⟩

theorem Declaration.lexical?_eq_some {δ : Declaration} {c : Claim} (h : δ.lexical? = some c) :
    δ.kind.manner? = some .lexical ∧ c = ⟨.lexical, δ.owner, δ.site.name.text⟩ := by
  simp only [lexical?, claim?, Option.filter_eq_some_iff, Option.map_eq_some_iff] at h
  obtain ⟨⟨m, hm, rfl⟩, hl⟩ := h
  simp only [decide_eq_true_eq] at hl
  subst hl
  exact ⟨hm, rfl⟩

theorem Declaration.lexical?_eq_none {δ : Declaration} (h : δ.kind.isFunctionScoped = true) :
    δ.lexical? = none := by
  cases hc : δ.lexical? with
  | none => rfl
  | some c =>
    have hm := (lexical?_eq_some hc).1
    cases hk : δ.kind with
    | declared k => cases k <;> simp_all [BindingKind.manner?, BindingKind.isFunctionScoped]
    | _ => simp_all [BindingKind.manner?, BindingKind.isFunctionScoped]

/-- The lexical names in a table, with the scopes that own them. -/
def Table.lexicalClaims (t : Table) : List Claim := t.bindings.filterMap (·.declaration.lexical?)

/-- Lexical declarations are never put together, so the table has them all. -/
theorem Draft.lexicalClaims_ofScript {script : Node} {d : Draft}
    (h : Draft.steps {} (Event.ofScript script) = .ok d) :
    d.table.lexicalClaims.Perm (script.declarations.filterMap Declaration.lexical?) := by
  obtain ⟨_, ⟨⟩, hd⟩ := steps_cons_ok.mp h
  rw [Table.lexicalClaims, List.filterMap_eq_flatMap_toList, List.filterMap_eq_flatMap_toList]
  refine flatMap_steps (fun _ _ => rfl) (fun δ => (rfl : _ = δ.lexical?.toList))
    (fun δ b hk hb _ => ?_) (Sound.start script.span) hd
  have hnew : (b.merge δ.site).declaration.lexical? = none := Declaration.lexical?_eq_none hb
  have hold : b.declaration.lexical? = none := Declaration.lexical?_eq_none hb
  simp [hnew, hold, Declaration.lexical?_eq_none hk]

section Table

variable {script : Node} {s : Scoping} (h : Scoping.ofScript script = .ok s)

include h

theorem Scoping.perm_lexicalClaims :
    s.table.lexicalClaims.Perm (script.declarations.filterMap Declaration.lexical?) := by
  obtain ⟨d, hd, rfl⟩ := Scoping.ofScript_ok h
  refine .trans (.of_eq ?_) (Draft.lexicalClaims_ofScript hd)
  rw [Table.lexicalClaims, Table.lexicalClaims, List.filterMap_eq_flatMap_toList,
    List.filterMap_eq_flatMap_toList]
  exact Draft.finish_flatMap (fun _ _ _ => rfl) d

/-- If no binding is tagged as a duplicate, no two lexical declarations claim one name of one
scope. -/
theorem Scoping.nodup_lexicalClaims
    (hunique : ∀ b ∈ s.table.bindings, .duplicateBlockBinding ∉ b.hazards) :
    s.table.lexicalClaims.Nodup := by
  have hpairs : s.table.bindings.Pairwise fun b c => ¬ (b.scope = c.scope ∧ b.name = c.name) := by
    refine List.pairwise_iff_getElem.mpr fun i j hi hj hij => ?_
    rintro ⟨hscope, hname⟩
    exact hunique _ (List.getElem_mem hi) (tagged_of_same_scope h (.inl rfl) (Nat.ne_of_lt hij)
      (List.getElem?_eq_getElem hi) (List.getElem?_eq_getElem hj) hscope hname).1
  refine hpairs.filterMap _ fun b c hne x hx y hy hxy => hne ?_
  obtain ⟨_, rfl⟩ := Declaration.lexical?_eq_some hx
  obtain ⟨_, rfl⟩ := Declaration.lexical?_eq_some hy
  rw [Claim.mk.injEq] at hxy
  exact hxy.2

/-- The lexical names in each scope are different ones. -/
theorem Scoping.nodup_inside (hs : script.isSorted = true)
    (hunique : ∀ b ∈ s.table.bindings, .duplicateBlockBinding ∉ b.hazards) {o : Node}
    (ho : o ∈ script.scopes) : (o.inside.flatMap Node.lexical).Nodup := by
  obtain ⟨id, hid⟩ := List.getElem?_of_mem ho
  have hall : ((claimsFrom 0 script.scopes).filter (·.manner = .lexical)).Nodup := by
    rw [← ((Scoping.owns hs h).claims.filter _).nodup_iff, List.filter_filterMap]
    exact (Scoping.perm_lexicalClaims h).nodup_iff.mp (Scoping.nodup_lexicalClaims h hunique)
  have hown : ((o.inside.flatMap Node.lexical).map (⟨.lexical, id, ·⟩ : String → Claim)).Sublist
      (claimsFrom 0 script.scopes) := by
    refine .trans ?_ (List.filter_sublist (p := (·.scope = id)))
    rw [filter_claimsFrom hid (Nat.zero_add id).symm]
    exact List.sublist_append_right _ _
  have hlexical := hown.filter (·.manner = .lexical)
  rw [List.filter_map, List.filter_eq_self.mpr (by simp)] at hlexical
  exact (hall.sublist hlexical).of_map _

end Table

/-! ### Frames and scopes -/

namespace Node

theorem lexicalHere_sublist (n : Node) : n.lexicalHere.Sublist n.lexical := by
  rw [lexical_eq]
  exact List.sublist_append_left _ _

theorem lexicalNames_sublist (ns : List Node) : (lexicalNames ns).Sublist (ns.flatMap lexical) :=
  .flatMap_right ns fun n _ => n.lexicalHere_sublist

/-- The names that a node declares in one frame are among those of its scope. -/
theorem frameNames_sublist {n : Node} (hf : n.isFormed = true)
    (h : (n.isScope || n.isProgram) = true) : n.frameNames.Sublist (n.inside.flatMap lexical) := by
  cases n with
  | function | block | program => exact lexicalNames_sublist _
  | switchStmt x xs =>
    rw [isFormed, Bool.and_eq_true, List.all_eq_true] at hf
    refine .flatMap_right xs fun c hc => ?_
    have hcase := hf.2 c hc
    cases c with
    | caseClause test body =>
      rw [lexical_eq]
      exact (lexicalNames_sublist body).trans (List.sublist_append_right test.lexical _)
    | _ => cases hcase
  | forStmt init test update body =>
    exact init.lexicalHere_sublist.trans (List.sublist_append_left _ _)
  | forEachStmt | whileStmt | doWhileStmt | catchClause => exact List.nil_sublist _
  | _ => cases h

/-- A phrase of a tree is its root or stands in a slot of a phrase. -/
theorem exists_slot {n m : Node} (hm : m ∈ n.phrases) :
    m = n ∨ ∃ q ∈ n.phrases, m ∈ q.slots := by
  induction n using Node.byPhrases with
  | absent => cases hm
  | step n ha ih =>
    rw [phrases_eq ha] at hm ⊢
    rcases List.mem_cons.mp hm with rfl | hm
    · exact .inl rfl
    · obtain ⟨c, hc, hm⟩ := List.mem_flatMap.mp hm
      rcases ih c hc hm with rfl | ⟨q, hq, hmq⟩
      · exact .inr ⟨n, List.mem_cons_self, hc⟩
      · exact .inr ⟨q, List.mem_cons_of_mem _ (List.mem_flatMap.mpr ⟨c, hc, hq⟩), hmq⟩

/-- Only a `switch` has a case in a slot, and nothing has a program there. -/
theorem exists_switch {q c : Node} (hf : q.isFormed = true) (hc : c ∈ q.slots)
    (h : (c.isCaseClause || c.isProgram) = true) :
    c.isCaseClause = true ∧ ∃ x xs s, q = switchStmt x xs s ∧ c ∈ xs := by
  have hno : ([isExpression, isStatement, isTarget, isLiteral, isProperty, isDeclarator, isVarDecl,
      isBlock, isCatchClause, isAbsent].any (· c)) = false := by
    cases c with
    | caseClause | program => rfl
    | _ => cases h
  simp only [List.any_cons, Bool.or_eq_false_iff] at hno
  have hident : ∀ name, c ≠ ident name := by rintro name rfl; cases h
  cases q with
  | switchStmt x xs s =>
    rw [isFormed, Bool.and_eq_true, List.all_eq_true] at hf
    rcases List.mem_cons.mp hc with rfl | hc
    · cases hno.1.symm.trans hf.1
    · exact ⟨hf.2 c hc, x, xs, s, rfl, hc⟩
  | absent | ident | literal | thisExpr | emptyStmt | breakStmt | continueStmt => cases hc
  | _ =>
    simp only [slots, List.mem_append, List.mem_cons, List.mem_map, List.not_mem_nil, or_false]
      at hc
    simp only [isFormed, isOptional, Bool.and_eq_true, Bool.or_eq_true, List.all_eq_true] at hf
    grind

end Node

/-- The names that a phrase declares in one frame are different ones. -/
theorem Scoping.nodup_frameNames {script : Node} {s : Scoping} (h : Scoping.ofScript script = .ok s)
    (hs : script.isSorted = true)
    (hunique : ∀ b ∈ s.table.bindings, .duplicateBlockBinding ∉ b.hazards) {m : Node}
    (hm : m ∈ script.phrases) : m.frameNames.Nodup := by
  have hformed : ∀ q ∈ script.phrases, q.isFormed = true := List.all_eq_true.mp hs
  have hscope : ∀ q ∈ script.phrases, q.isScope = true → q.frameNames.Nodup := by
    intro q hq hscope
    obtain ⟨o, ho, hin, _⟩ := Node.exists_opener hq hscope
    have hnodup := Scoping.nodup_inside h hs hunique (List.mem_cons_of_mem _ ho)
    rw [hin] at hnodup
    exact hnodup.sublist (Node.frameNames_sublist (hformed q hq) (by rw [hscope]; rfl))
  cases m with
  | program xs span =>
    rcases Node.exists_slot hm with rfl | ⟨q, hq, hmq⟩
    · exact (Scoping.nodup_inside h hs hunique List.mem_cons_self).sublist
        (Node.frameNames_sublist (hformed _ hm) rfl)
    · cases (Node.exists_switch (hformed q hq) hmq rfl).1
  | caseClause test body span =>
    rcases Node.exists_slot hm with rfl | ⟨q, hq, hmq⟩
    · cases h
    · obtain ⟨_, x, xs, s, rfl, hc⟩ := Node.exists_switch (hformed q hq) hmq rfl
      exact (List.nodup_flatMap.mp (hscope _ hq rfl)).1 _ hc
  | function | block | forStmt | forEachStmt | whileStmt | doWhileStmt | catchClause
  | switchStmt => exact hscope _ hm rfl
  | _ => exact List.nodup_nil

/-! ### Declarations without braces -/

namespace Node

/-- Does the tree run no lexical declaration without a frame? -/
def IsBraced (n : Node) : Prop := ∀ m ∈ n.phrases, ∀ c ∈ m.inPlace, c.lexicalHere = []

theorem inPlace_subset (n : Node) : n.inPlace ⊆ n.slots := by
  cases n <;> simp [inPlace]

theorem IsBraced.of_present {n : Node} (h : n.isAbsent = false → n.IsBraced) : n.IsBraced := by
  cases n with
  | absent => exact fun _ hm => by cases hm
  | _ => exact h rfl

theorem isBraced_of_slots_eq_nil {n : Node} (h : n.slots = []) : n.IsBraced := by
  have hplace : n.inPlace = [] := List.subset_nil.mp (h ▸ n.inPlace_subset)
  refine .of_present fun ha => (forall_phrases ha).mpr ⟨?_, ?_⟩
  · simp [hplace]
  · rw [h]
    exact List.forall_mem_nil _

end Node

namespace Event

/-- Does the event declare a name where braces are missing? -/
def isUnbraced : Event → Bool
  | declare _ _ _ _ _ unbraced _ => unbraced
  | _ => false

/-- Are no names declared where braces are missing? -/
def Braced (es : List Event) : Prop := ∀ e ∈ es, e.isUnbraced = false

variable {es fs : List Event} {p : Place} {role : Role} {n c : Node} {ns : List Node}

theorem braced_append : Braced (es ++ fs) ↔ Braced es ∧ Braced fs := List.forall_mem_append

theorem braced_optional : Braced (if n.isAbsent then [] else ofNode p role n) ↔
    (n.isAbsent = false → Braced (ofNode p role n)) := by
  cases n.isAbsent <;> simp [Braced]

theorem braced_ofNodes :
    Braced (ofNodes p ns) ↔ ∀ n ∈ ns, n.isAbsent = false → Braced (ofNode p .plain n) := by
  induction ns with
  | nil => simp [ofNodes, Braced]
  | cons n ns ih => rw [ofNodes, braced_append, braced_optional, ih, List.forall_mem_cons]

theorem braced_ofNode :
    Braced (ofNode p role n) ↔ ∀ x ∈ layout p role n, Braced x.events := by
  rw [ofNode_eq_layout]
  exact List.forall_mem_flatMap

namespace Braced

theorem declarator {st : Statement} {unbraced : Bool} {each : Option Offset} {ds : List Node}
    (hb : Braced (ofDeclarators p st unbraced each ds)) {name : Ident} {x : Node} {span : Span}
    (hd : .declarator name x span ∈ ds) :
    unbraced = false ∧ (x.isAbsent = false → Braced (ofNode p (.stored name) x)) := by
  induction ds with
  | nil => cases hd
  | cons d ds ih =>
    unfold ofDeclarators at hb
    rw [braced_append] at hb
    rcases List.mem_cons.mp hd with rfl | hd
    · simp only [braced_append, braced_optional] at hb
      exact ⟨hb.1.2 _ List.mem_cons_self, hb.1.1.1.2⟩
    · exact ih hb.2 hd

/-- No lexical declaration takes the place of a statement. -/
theorem sole (hb : Braced (ofNode p .soleBody c)) (hs : c.isSorted = true) :
    c.lexicalHere = [] := by
  cases c with
  | varDecl k ds span =>
    have hf := ((Node.isSorted_iff rfl).mp hs).1
    rw [braced_ofNode] at hb
    simp only [layout, List.forall_mem_cons] at hb
    cases ds with
    | nil => simp [boundNames]
    | cons d ds =>
      cases d with
      | declarator => cases (hb.2.2.2.1.declarator List.mem_cons_self).1
      | _ => cases hf
  | _ => rfl

theorem inPlace (hb : Braced (ofNode p role n)) (hf : n.isFormed = true)
    (hs : ∀ c ∈ n.slots, c.isSorted = true) (hc : c ∈ n.inPlace) : c.lexicalHere = [] := by
  have hsole := fun p h => sole (p := p) h (hs c (n.inPlace_subset hc))
  have hblock : c.isOptional Node.isBlock = true → c.lexicalHere = [] := by
    cases c with
    | varDecl => nofun
    | _ => exact fun _ => rfl
  cases n with
  | tryStmt =>
    simp only [Node.isFormed, Node.inPlace, List.mem_cons, List.not_mem_nil, or_false] at hf hc
    grind [Node.isOptional]
  | ifStmt | forStmt | forEachStmt | whileStmt | doWhileStmt | withStmt =>
    rw [braced_ofNode] at hb
    simp only [layout, List.forall_mem_cons, Piece.events, braced_optional] at hb
    simp only [Node.inPlace, List.mem_cons, List.not_mem_nil, or_false] at hc
    grind [Node.isOptional]
  | _ => cases hc

/-- A node is read with what stands in its slots, but for declarators and the block of a `catch`
clause. -/
theorem slot (hb : Braced (ofNode p role n)) (hf : n.isFormed = true)
    (hv : n.isVarDecl = false) (hk : n.isCatchClause = false) (hc : c ∈ n.slots) :
    c.slots = [] ∨ ∃ q r, Braced (ofNode q r c) := by
  have habsent : c.isAbsent = true → c.slots = [] := by
    cases c with
    | absent => simp
    | _ => nofun
  have hliteral : c.isLiteral = true → c.slots = [] := by
    cases c with
    | literal => simp
    | _ => nofun
  have hident : ∀ name, c = .ident name → c.slots = [] := by
    rintro name rfl
    rfl
  cases n with
  | varDecl => cases hv
  | catchClause => cases hk
  | absent | ident | literal | thisExpr | emptyStmt | breakStmt | continueStmt => cases hc
  | _ =>
    rw [braced_ofNode] at hb
    simp only [layout, List.forall_mem_cons, Piece.events, braced_optional,
      braced_ofNodes] at hb
    simp only [Node.slots, List.mem_append, List.mem_cons, List.mem_map, List.not_mem_nil, or_false]
      at hc
    simp only [Node.isFormed] at hf
    grind

end Braced

/-- If no names are declared where braces are missing, the tree runs no lexical declaration without
a frame. -/
theorem isBraced {n : Node} (hs : n.isSorted = true) :
    (∀ p role, Braced (ofNode p role n) → n.IsBraced) ∧
      ∀ c ∈ n.slots, ∀ p role, Braced (ofNode p role c) → c.IsBraced := by
  -- declarators and the block of a `catch` clause are not read, so this goes by two levels
  induction n using Node.byPhrases with
  | absent => exact ⟨fun _ _ _ => Node.isBraced_of_slots_eq_nil rfl, List.forall_mem_nil _⟩
  | step n ha ih =>
    obtain ⟨hf, hss⟩ := (Node.isSorted_iff ha).mp hs
    replace ih := fun c hc => ih c hc (hss c hc)
    refine ⟨fun p role hb => (Node.forall_phrases ha).mpr
      ⟨fun c hc => hb.inPlace hf hss hc, fun c hc => ?_⟩, fun c hc => (ih c hc).1⟩
    change c.IsBraced
    cases n with
    | varDecl k ds span =>
      have hd := List.all_eq_true.mp hf c hc
      rw [braced_ofNode] at hb
      simp only [layout, List.forall_mem_cons] at hb
      cases c with
      | declarator name x s =>
        refine (Node.forall_phrases rfl).mpr ⟨List.forall_mem_nil _, ?_⟩
        refine List.forall_mem_cons.mpr ⟨Node.isBraced_of_slots_eq_nil rfl, ?_⟩
        refine List.forall_mem_singleton.mpr (Node.IsBraced.of_present fun hx => ?_)
        exact (ih _ hc).2 x (by simp) _ _ ((hb.2.2.2.1.declarator hc).2 hx)
      | _ => cases hd
    | catchClause param x span =>
      cases x with
      | block xs s =>
        rw [braced_ofNode] at hb
        simp only [layout, clauseBody, List.cons_append, List.nil_append, List.forall_mem_cons,
          Piece.events, braced_ofNodes] at hb
        simp only [Node.slots, List.mem_append, List.mem_map, List.mem_singleton] at hc
        rcases hc with ⟨i, _, rfl⟩ | rfl
        · exact Node.isBraced_of_slots_eq_nil rfl
        · refine (Node.forall_phrases rfl).mpr ⟨List.forall_mem_nil _, fun c hc => ?_⟩
          exact Node.IsBraced.of_present fun hx =>
            (ih _ (by simp)).2 c hc _ _ (hb.2.2.2.2.1 c hc hx)
      | _ => cases hf
    | _ =>
      rcases hb.slot hf rfl rfl hc with h | ⟨q, r, h⟩
      · exact Node.isBraced_of_slots_eq_nil h
      · exact (ih c hc).1 q r h

end Event

namespace Draft

/-- A declaration where braces are missing tags its binding. -/
theorem Sound.tagged_of_unbraced {d : Draft} (hd : d.Sound) (kind : BindingKind) {site : Site}
    (h : site.unbraced = true) :
    (d.declareVariable kind site).Tagged (d.declare kind site).2 .unbracedDeclaration := by
  obtain ⟨b, hb, _⟩ := hd.declare_site kind site
  refine ⟨b.addHazard .unbracedDeclaration, ?_, Binding.mem_addHazard.mpr (.inr rfl)⟩
  rw [declareVariable_eq, record_binding?, Draft.mark, if_pos h, binding?_tag, hb,
    Option.map_some, if_pos rfl]

theorem braced_of_untagged {d d' : Draft} (hd : d.Sound) {es : List Event}
    (h : d.steps es = .ok d') (hb : ∀ i, ¬ d'.Tagged i .unbracedDeclaration) :
    Event.Braced es := by
  induction es generalizing d with
  | nil => exact List.forall_mem_nil _
  | cons e es ih =>
    obtain ⟨m, he, hes⟩ := steps_cons_ok.mp h
    refine List.forall_mem_cons.mpr ⟨?_, ih (hd.step he) hes⟩
    cases e with
    | declare kind name st hasInit ready unbraced forEach =>
      cases he
      cases unbraced with
      | false => rfl
      | true => exact absurd ((hd.tagged_of_unbraced kind rfl).grows (grows_steps hes)) (hb _)
    | _ => rfl

end Draft

/-! ### The result -/

/-- A script is orderly if none of its bindings is tagged as a duplicate or for missing braces. -/
theorem Scoping.isOrderly {script : Node} {s : Scoping} (h : Scoping.ofScript script = .ok s)
    (hs : script.isSorted = true)
    (htags : ∀ b ∈ s.table.bindings,
      .duplicateBlockBinding ∉ b.hazards ∧ .unbracedDeclaration ∉ b.hazards) :
    script.IsOrderly := by
  obtain ⟨d, hd, hfinish⟩ := Scoping.ofScript_ok h
  obtain ⟨_, ⟨⟩, hsteps⟩ := Draft.steps_cons_ok.mp hd
  have huntagged : ∀ i, ¬ d.Tagged i .unbracedDeclaration := by
    rintro i ⟨b, hb, htag⟩
    obtain ⟨hazards, hb', hmem⟩ := Draft.finish_binding hb
    rw [← hfinish] at hb'
    exact (htags _ (List.mem_of_getElem? hb')).2 ((hmem _).mpr (.inl htag))
  have hbraced : script.IsBraced :=
    (Event.isBraced hs).1 _ _ (Draft.braced_of_untagged (.start script.span) hsteps huntagged)
  exact fun m hm => ⟨Scoping.nodup_frameNames h hs (fun b hb => (htags b hb).1) hm, hbraced m hm⟩

end ScopeLowering
