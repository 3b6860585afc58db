import ScopeLowering.Proofs.Coherence
import ScopeLowering.Proofs.Filing
import ScopeLowering.Proofs.Reading

/-!
# When a plan comes out

A script that has scopes has a decision for every candidate, and the declarators of each of its
statements agree. So all that can keep a plan from coming out is that two edits overlap, and the
plan comes out exactly if the edits stand apart (`plan_iff_apart`). Edits cover the keywords of
`var` statements, so it is enough that these stand apart.

Nothing in the scopes makes them stand apart. A tree from a careless parser may put two statements
on one stretch of text; each of them lies within the script, so the scopes are there, and the plan
is not (`overlapping_pairScript`).

## The model

Edits are sorted before neighbours are compared. On sorted edits that each cover some text, no
neighbours overlap just if no two edits do (`firstOverlap_none_iff`), and standing apart does not
depend on the order.
-/

namespace ScopeLowering

/-! ### Standing apart -/

/-- The spans have no character in common. -/
def Span.Apart (a b : Span) : Prop := a.right ≤ b.left ∨ b.right ≤ a.left

instance (a b : Span) : Decidable (a.Apart b) := inferInstanceAs (Decidable (_ ∨ _))

/-- The edits change different stretches of the text. -/
def Edit.Apart (a b : Edit) : Prop := a.span.Apart b.span

theorem Edit.Apart.symm {a b : Edit} (h : a.Apart b) : b.Apart a := Or.symm h

/-- The keywords of the statements are different stretches of the text. -/
def Statement.Apart (a b : Statement) : Prop := a.keywordSpan.Apart b.keywordSpan

instance (a b : Edit) : Decidable (a.Apart b) := inferInstanceAs (Decidable (Span.Apart _ _))

instance (a b : Statement) : Decidable (a.Apart b) := inferInstanceAs (Decidable (Span.Apart _ _))

theorem Edit.left_le_of_isOrdered {a b : Edit} (h : a.isOrdered b = true) :
    a.span.left ≤ b.span.left := by
  simp only [isOrdered, Bool.or_eq_true, Bool.and_eq_true, decide_eq_true_eq, beq_iff_eq] at h
  omega

/-- Neighbours that overlap are two edits that do. -/
theorem firstOverlap_some {plan : List Edit} {a b : Edit}
    (hs : plan.Pairwise (Edit.isOrdered · ·)) (hw : ∀ e ∈ plan, e.span.left < e.span.right)
    (h : firstOverlap plan = some (a, b)) : a ∈ plan ∧ b ∈ plan ∧ ¬ a.Apart b := by
  induction plan with
  | nil => cases h
  | cons x rest ih =>
    cases rest with
    | nil => cases h
    | cons y rest =>
      rw [List.pairwise_cons] at hs
      unfold firstOverlap at h
      split at h
      · cases h
        have hle := Edit.left_le_of_isOrdered (hs.1 b List.mem_cons_self)
        have hb := hw b (by simp)
        refine ⟨by simp, by simp, ?_⟩
        rintro (h | h) <;> omega
      · obtain ⟨ha, hb, hab⟩ := ih hs.2 (fun e he => hw e (List.mem_cons_of_mem _ he)) h
        exact ⟨List.mem_cons_of_mem _ ha, List.mem_cons_of_mem _ hb, hab⟩

theorem firstOverlap_of_pairwise {plan : List Edit} (hs : plan.Pairwise (Edit.isOrdered · ·))
    (hw : ∀ e ∈ plan, e.span.left < e.span.right) (h : plan.Pairwise Edit.Apart) :
    firstOverlap plan = none := by
  induction plan with
  | nil => rfl
  | cons x rest ih =>
    cases rest with
    | nil => rfl
    | cons y rest =>
      rw [List.pairwise_cons] at hs h
      have hxy : x.span.right ≤ y.span.left := by
        have hle := Edit.left_le_of_isOrdered (hs.1 y List.mem_cons_self)
        have hy := hw y (by simp)
        have hx := hw x (by simp)
        rcases h.1 y List.mem_cons_self with h | h <;> omega
      unfold firstOverlap
      rw [if_neg (by omega)]
      exact ih hs.2 (fun e he => hw e (List.mem_cons_of_mem _ he)) h.2

/-- Without an overlap of neighbours each edit ends before all later ones start. -/
theorem pairwise_le_of_firstOverlap {plan : List Edit}
    (hw : ∀ e ∈ plan, e.span.left < e.span.right) (h : firstOverlap plan = none) :
    plan.Pairwise fun a b => a.span.right ≤ b.span.left := by
  induction plan with
  | nil => exact .nil
  | cons x rest ih =>
    cases rest with
    | nil => exact List.pairwise_singleton _ x
    | cons y rest =>
      unfold firstOverlap at h
      split at h
      · cases h
      · have hrest := ih (fun e he => hw e (List.mem_cons_of_mem _ he)) h
        refine .cons (fun e he => ?_) hrest
        rcases List.mem_cons.mp he with rfl | he
        · omega
        · -- what follows a neighbour is further on still
          have hy := hw y (by simp)
          have hye := List.rel_of_pairwise_cons hrest he
          omega

theorem pairwise_of_firstOverlap {plan : List Edit}
    (hw : ∀ e ∈ plan, e.span.left < e.span.right) (h : firstOverlap plan = none) :
    plan.Pairwise Edit.Apart := (pairwise_le_of_firstOverlap hw h).imp .inl

theorem Edit.pairwise_sorted (edits : List Edit) :
    (edits.mergeSort isOrdered).Pairwise (isOrdered · ·) :=
  List.pairwise_mergeSort isOrdered_trans isOrdered_total edits

/-- Sorted edits: no neighbours overlap just if no two edits do. -/
theorem firstOverlap_none_iff {edits : List Edit} (hw : ∀ e ∈ edits, e.span.left < e.span.right) :
    firstOverlap (edits.mergeSort Edit.isOrdered) = none ↔ edits.Pairwise Edit.Apart := by
  have hw' : ∀ e ∈ edits.mergeSort Edit.isOrdered, e.span.left < e.span.right :=
    fun e he => hw e (List.mem_mergeSort.mp he)
  rw [← (List.mergeSort_perm edits Edit.isOrdered).pairwise_iff Edit.Apart.symm]
  constructor
  · exact pairwise_of_firstOverlap hw'
  · exact firstOverlap_of_pairwise (Edit.pairwise_sorted edits) hw'

/-! ### Plans and edits -/

theorem editOf?_span {t : Table} {ds : Decisions} {e : StatementEntry} {edit : Edit}
    (h : editOf? t ds e = some edit) : edit.span = e.statement.keywordSpan := by
  unfold editOf? at h
  cases hs : statementEdit t ds e with
  | error f => rw [hs] at h; cases h
  | ok r =>
    rw [hs] at h
    cases h
    exact (statementEdit_some hs).1

theorem left_lt_right_of_mem_edits {t : Table} {ds : Decisions} {edit : Edit}
    (h : edit ∈ t.statements.filterMap (editOf? t ds)) : edit.span.left < edit.span.right := by
  obtain ⟨e, _, he⟩ := List.mem_filterMap.mp h
  rw [editOf?_span he]
  exact e.statement.keywordSpan_left_lt_right

theorem mapM_ok_iff {α β ε : Type} {f : α → Except ε β} {xs : List α} :
    (∃ ys, xs.mapM f = .ok ys) ↔ ∀ x ∈ xs, ∃ y, f x = .ok y := by
  induction xs with
  | nil => exact ⟨fun _ => nofun, fun _ => ⟨[], rfl⟩⟩
  | cons x xs ih =>
    rw [List.forall_mem_cons, ← ih, List.mapM_cons]
    cases f x with
    | error e => simp [bind, Except.bind]
    | ok y => cases xs.mapM f <;> simp [bind, Except.bind, pure, Except.pure]

section Plan

variable {t : Table} {ds : Decisions} (hc : ∀ c ∈ t.candidates, ∃ d, ds.find? c.1 = some d)
  (hs : ∀ e ∈ t.statements, ∃ r, statementEdit t ds e = .ok r)

include hc hs

/-- Where every candidate has a decision and every statement an answer, the plan is a matter of
overlaps. -/
theorem emitPlan_cases :
    (firstOverlap ((t.statements.filterMap (editOf? t ds)).mergeSort Edit.isOrdered) = none ∧
      emitPlan t ds = .ok ((t.statements.filterMap (editOf? t ds)).mergeSort Edit.isOrdered)) ∨
    ∃ a b, firstOverlap ((t.statements.filterMap (editOf? t ds)).mergeSort Edit.isOrdered) =
      some (a, b) ∧ emitPlan t ds = .error (.overlap a b) := by
  have hdecided : (t.candidates.find? fun c => (ds.find? c.1).isNone) = none := by
    rw [List.find?_eq_none]
    intro c hm
    obtain ⟨d, hd⟩ := hc c hm
    simp [hd]
  obtain ⟨edits, hm⟩ := mapM_ok_iff.mpr hs
  unfold emitPlan
  split
  · rename_i h
    cases hdecided.symm.trans h
  · simp only [hm, filterMap_edits hm]
    cases firstOverlap ((t.statements.filterMap (editOf? t ds)).mergeSort Edit.isOrdered) with
    | none => exact .inl ⟨rfl, rfl⟩
    | some ab => exact .inr ⟨ab.1, ab.2, rfl, rfl⟩

/-- The plan comes out just if the edits stand apart. -/
theorem emitPlan_ok_iff :
    (∃ plan, emitPlan t ds = .ok plan) ↔
      (t.statements.filterMap (editOf? t ds)).Pairwise Edit.Apart := by
  rw [← firstOverlap_none_iff fun _ => left_lt_right_of_mem_edits]
  rcases emitPlan_cases hc hs with ⟨hn, hp⟩ | ⟨a, b, hn, hp⟩ <;> simp [hn, hp]

/-- All that a plan can fail on is two edits that overlap. -/
theorem overlap_of_emitPlan {f : Defect} (h : emitPlan t ds = .error f) :
    ∃ a b, f = .overlap a b ∧ a ∈ t.statements.filterMap (editOf? t ds) ∧
      b ∈ t.statements.filterMap (editOf? t ds) ∧ ¬ a.Apart b := by
  rcases emitPlan_cases hc hs with ⟨_, hp⟩ | ⟨a, b, hn, hp⟩
  · rw [hp] at h
    cases h
  · rw [hp] at h
    cases h
    obtain ⟨ha, hb, hab⟩ := firstOverlap_some (Edit.pairwise_sorted _)
      (fun e he => left_lt_right_of_mem_edits (List.mem_mergeSort.mp he)) hn
    exact ⟨a, b, rfl, List.mem_mergeSort.mp ha, List.mem_mergeSort.mp hb, hab⟩

end Plan

/-- The members of a statement that reconciling is done with have one keyword. -/
theorem statementEdit_ok {t : Table} {o : Options} {e : StatementEntry} (he : e ∈ t.statements)
    (hne : e.members ≠ []) (hin : ∀ i ∈ e.members, ∃ b, t.bindings[i]? = some b) :
    ∃ r, statementEdit t (classify t o) e = .ok r := by
  obtain ⟨found, hf⟩ := memberDecisions_classify (o := o) hin
  unfold statementEdit
  rw [hf]
  cases found with
  | none => exact ⟨none, rfl⟩
  | some vs =>
    have hagree := classify_coherent t o e he
    obtain ⟨k, hkeys⟩ : ∃ k, (vs.map (·.keyword)).eraseDups = [k] := by
      obtain ⟨j, hj⟩ := List.exists_mem_of_ne_nil _ hne
      by_cases hk : ∃ i ∈ e.members, Assignment.Keeps (classify t o).verdict? i
      · obtain ⟨i, hi, hk⟩ := hk
        exact ⟨_, keywords_of_members hne (memberDecisions_some hf) fun x hx v hv =>
          congrArg Verdict.keyword (hagree.kept i hi hk x hx v hv)⟩
      · have hnone : ∀ i ∈ e.members, ¬ Assignment.Keeps (classify t o).verdict? i :=
          fun i hi h => hk ⟨i, hi, h⟩
        refine ⟨(((classify t o).verdict? j).map (·.keyword)).getD .varWord,
          keywords_of_members hne (memberDecisions_some hf) fun x hx v hv => ?_⟩
        simp [hagree.same hnone j hj x hx, hv]
    simp only [hkeys]
    split <;> exact ⟨_, rfl⟩

/-! ### Statements of a table and of its script -/

/-- The `var` statements of a tree. -/
def Node.varStatements (n : Node) : List Statement :=
  (n.gather some).filter (·.keyword == .varWord)

/-- The statement that an event opens. -/
def Event.opened? : Event → Option Statement
  | openStatement s => some s
  | _ => none

theorem Event.opened?_of_isOrdinary (e : Event) (h : e.isOrdinary = true) : e.opened? = none := by
  cases e with
  | openStatement => cases h
  | _ => rfl

namespace Draft

/-- The open statements that no entry is for yet. -/
def waiting (d : Draft) : List Statement := (d.statements.filter (·.2.isNone)).map (·.1)

/-- The statements that have an entry, and those that may still get one. -/
def known (d : Draft) : List Statement := d.table.statements.map (·.statement) ++ d.waiting

/-- A statement that gets its entry no longer waits for it. -/
theorem known_noteStatement (d : Draft) (id : BindingId) (s : Statement) :
    (d.noteStatement id).known.count s = d.known.count s := by
  unfold noteStatement
  split
  · rfl
  · rename_i st i rest hs
    have hmap : (d.table.statements.modify i
        fun e => { e with members := e.members ++ [id] }).map (·.statement) =
        d.table.statements.map (·.statement) := by
      refine List.ext_getElem? fun j => ?_
      simp only [List.getElem?_map, List.getElem?_modify]
      cases d.table.statements[j]? with
      | none => rfl
      | some e => by_cases hi : i = j <;> simp [hi]
    simp only [known, waiting, hmap]
  · rename_i st rest hs
    simp only [known, waiting, hs, List.filter_cons, List.map_append, List.map_cons, List.map_nil,
      List.count_append, List.count_cons, List.count_nil, Option.isNone_none, Option.isNone_some,
      if_true, if_false, Bool.false_eq_true]
    omega

theorem known_declareVariable (d : Draft) (kind : BindingKind) (site : Site) (s : Statement) :
    (d.declareVariable kind site).known.count s = d.known.count s := by
  obtain ⟨h₁, h₂, _⟩ := d.notes_marked kind site (d.declare kind site).2
  have hmarked : ((d.declare kind site).1.mark (d.declare kind site).2 site).known = d.known := by
    simp only [known, waiting, h₁, h₂]
  rw [declareVariable_eq, ← hmarked]
  unfold record
  split
  · exact known_noteStatement _ _ s
  · rfl

theorem known_step {d d' : Draft} {e : Event} (h : d.step e = .ok d') (s : Statement) :
    d'.known.count s ≤ d.known.count s + (e.opened?.toList).count s := by
  cases e with
  | enter | leave | evalCall | dynamic | refer => cases h; exact Nat.le_add_right _ _
  | openStatement st =>
    cases h
    simp only [known, waiting, Event.opened?, List.filter_cons, List.map_cons, List.count_append,
      List.count_cons, List.count_nil, Option.toList_some, Option.isNone_none, if_true]
    omega
  | closeStatement =>
    cases h
    have hle := (((List.tail_sublist d.statements).filter (·.2.isNone)).map (·.1)).count_le s
    simp only [known, waiting, List.count_append]
    omega
  | declare =>
    cases h
    rw [known_declareVariable]
    omega
  | callee name ready problem =>
    rcases step_callee_ok h with rfl | ⟨_, rfl⟩
    · exact Nat.le_add_right _ _
    · rw [known_declareVariable]
      exact Nat.le_add_right _ _
  | thisUse =>
    obtain ⟨_, rfl⟩ := step_thisUse_ok h
    exact Nat.le_add_right _ _
  | fault f => cases h

theorem known_steps {d d' : Draft} {es : List Event} (h : d.steps es = .ok d') (s : Statement) :
    d'.known.count s ≤ d.known.count s + (Event.picked Event.opened? es).count s := by
  induction es generalizing d with
  | nil => cases h; simp
  | cons e es ih =>
    obtain ⟨m, he, h⟩ := steps_cons_ok.mp h
    have h₁ := known_step he s
    have h₂ := ih h
    rw [Event.picked_cons, List.count_append]
    omega

/-- The table has no statement more often than the script. -/
theorem count_statements {script : Node} {d : Draft}
    (h : Draft.steps {} (Event.ofScript script) = .ok d) (s : Statement) :
    (d.table.statements.map (·.statement)).count s ≤ script.varStatements.count s := by
  by_cases hs : s.keyword = .varWord
  · have hknown := known_steps h s
    have hopen : _ ≤ (script.gather some).count s :=
      Event.count_picked Event.opened?_of_isOrdinary s script ⟨.absent, script.span.start⟩ .plain
    have hcount : script.varStatements.count s = (script.gather some).count s :=
      List.count_filter (by simp [hs])
    simp only [known, waiting, Event.ofScript, Event.picked_cons, Event.opened?,
      List.count_append, Option.toList_none, List.nil_append, List.map_nil, List.filter_nil,
      List.append_nil, List.count_nil, Nat.zero_add] at hknown
    omega
  · have hnone : s ∉ d.table.statements.map (·.statement) := by
      intro hm
      obtain ⟨e, he, rfl⟩ := List.mem_map.mp hm
      exact hs (filed_ofScript h e he).1
    rw [List.count_eq_zero.mpr hnone]
    exact Nat.zero_le _

end Draft

/-! ### The result -/

theorem pairwise_of_count_le {α : Type} [BEq α] [LawfulBEq α] {R : α → α → Prop}
    (hR : ∀ {a b}, R a b → R b a) {xs ys : List α} (h : ∀ a, xs.count a ≤ ys.count a)
    (hy : ys.Pairwise R) : xs.Pairwise R := by
  induction xs generalizing ys with
  | nil => exact .nil
  | cons x xs ih =>
    have hx : x ∈ ys := by
      have := h x
      rw [List.count_cons_self] at this
      exact List.count_pos_iff.mp (by omega)
    have hrest : ∀ a, xs.count a ≤ (ys.erase x).count a := by
      intro a
      have := h a
      rw [List.count_cons] at this
      rw [List.count_erase]
      omega
    rw [(List.perm_cons_erase hx).pairwise_iff hR, List.pairwise_cons] at hy
    refine .cons (fun a ha => hy.1 a ?_) (ih hrest hy.2)
    exact List.count_pos_iff.mp (Nat.lt_of_lt_of_le (List.count_pos_iff.mpr ha) (hrest a))

/-- Edits stand apart if their statements do. -/
theorem edits_apart {t : Table} {ds : Decisions}
    (h : (t.statements.map (·.statement)).Pairwise Statement.Apart) :
    (t.statements.filterMap (editOf? t ds)).Pairwise Edit.Apart := by
  refine (List.pairwise_map.mp h).filterMap _ fun e e' hee a ha b hb => ?_
  unfold Edit.Apart
  rw [editOf?_span ha, editOf?_span hb]
  exact hee

section Table

variable {script : Node} {s : Scoping} (h : Scoping.ofScript script = .ok s) {t : Table}
  (ht : s.IsTable t) (o : Options)

theorem candidates_decided (t : Table) (o : Options) :
    ∀ c ∈ t.candidates, ∃ d, (classify t o).find? c.1 = some d := by
  intro c hm
  obtain ⟨hb, hcand⟩ := List.mem_filter.mp hm
  exact classify_find?_isSome.mpr ⟨c.2, Table.mem_numbered.mp hb, hcand⟩

include h ht

theorem declarators_agree : ∀ e ∈ t.statements, ∃ r, statementEdit t (classify t o) e = .ok r := by
  intro e he
  obtain ⟨d, hd, rfl⟩ := Scoping.ofScript_ok h
  have he' : e ∈ d.table.statements := by
    rw [← d.finish_statements, ← ht.statements]
    exact he
  refine statementEdit_ok he (Draft.filed_ofScript hd e he').2 fun i hi => ?_
  obtain ⟨b, hb, _⟩ := (Draft.sound_ofScript hd).members he' i hi
  obtain ⟨_, hf, _⟩ := Draft.finish_binding hb
  exact ht.exists_binding ⟨_, hf⟩

theorem statements_apart (hapart : script.varStatements.Pairwise Statement.Apart) :
    (t.statements.map (·.statement)).Pairwise Statement.Apart := by
  obtain ⟨d, hd, rfl⟩ := Scoping.ofScript_ok h
  rw [ht.statements, d.finish_statements]
  exact pairwise_of_count_le Or.symm (Draft.count_statements hd) hapart

/-- **A plan comes out exactly if its edits stand apart.** In the table of a script that has scopes,
every candidate has a decision and the declarators of every statement agree. Nothing but two edits
that overlap keeps the plan from coming out, so it does if the `var` statements of the script have
their keywords at different places. -/
theorem plan_iff_apart :
    (∀ c ∈ t.candidates, ∃ d, (classify t o).find? c.1 = some d) ∧
    (∀ e ∈ t.statements, ∃ r, statementEdit t (classify t o) e = .ok r) ∧
    ((∃ plan, emitPlan t (classify t o) = .ok plan) ↔
      (t.statements.filterMap (editOf? t (classify t o))).Pairwise Edit.Apart) ∧
    (∀ f, emitPlan t (classify t o) = .error f → ∃ a b, f = .overlap a b ∧ ¬ a.Apart b ∧
      a ∈ t.statements.filterMap (editOf? t (classify t o)) ∧
      b ∈ t.statements.filterMap (editOf? t (classify t o))) ∧
    (script.varStatements.Pairwise Statement.Apart →
      ∃ plan, emitPlan t (classify t o) = .ok plan) := by
  have hc := candidates_decided t o
  have hs := declarators_agree h ht o
  refine ⟨hc, hs, emitPlan_ok_iff hc hs, fun f hf => ?_, fun hapart => ?_⟩
  · obtain ⟨a, b, rfl, ha, hb, hab⟩ := overlap_of_emitPlan hc hs hf
    exact ⟨a, b, rfl, hab, ha, hb⟩
  · exact (emitPlan_ok_iff hc hs).mpr (edits_apart (statements_apart h ht hapart))

end Table

/-- `var a; var b;`, where the second statement is said to start at some offset. -/
def pairScript (start : Int) : Node :=
  let a : Node := .declarator ⟨"a", .of 4 5⟩ .absent (.of 4 5)
  let b : Node := .declarator ⟨"b", .of 11 12⟩ .absent (.of 11 12)
  .program [.varDecl .varWord [a] (.of 0 6), .varDecl .varWord [b] (.of start 13)] (.of 0 13)

theorem plan_iff_apart_pairScript :
    ∃ s, Scoping.ofScript (pairScript 7) = .ok s ∧
      (pairScript 7).varStatements.Pairwise Statement.Apart ∧
      ∃ plan, emitPlan s.withCaptures.table (classify s.withCaptures.table {}) = .ok plan := by
  have hapart : (pairScript 7).varStatements.Pairwise Statement.Apart := by decide +kernel
  obtain ⟨s, hs, _⟩ := exists_ok_of_any
    (show (Scoping.ofScript (pairScript 7)).toOption.any (fun _ => true) = true by decide +kernel)
  exact ⟨s, hs, hapart, (plan_iff_apart hs (.inr rfl) {}).2.2.2.2 hapart⟩

/-- Two statements at one place, each within the script, have scopes and no plan. -/
theorem overlapping_pairScript :
    ∃ s, Scoping.ofScript (pairScript 0) = .ok s ∧ ∃ a b,
      emitPlan s.withCaptures.table (classify s.withCaptures.table {}) = .error (.overlap a b) := by
  obtain ⟨s, hs, hp⟩ := exists_ok_of_any
    (show (Scoping.ofScript (pairScript 0)).toOption.any (fun s => !decide
      ((s.withCaptures.table.statements.filterMap
        (editOf? s.withCaptures.table (classify s.withCaptures.table {}))).Pairwise Edit.Apart)) =
      true by decide +kernel)
  have hc := candidates_decided s.withCaptures.table {}
  have hd := declarators_agree hs (.inr rfl) {}
  refine ⟨s, hs, ?_⟩
  rcases emitPlan_cases hc hd with ⟨_, hok⟩ | ⟨a, b, _, herror⟩
  · have hpair := (emitPlan_ok_iff hc hd).mp ⟨_, hok⟩
    simp [hpair] at hp
  · exact ⟨a, b, herror⟩

end ScopeLowering
