import ScopeLowering.Proofs.Entries
import ScopeLowering.Proofs.Overlap

/-!
# The plan and the statements of the script

A plan has one edit for each `var` statement all of whose declarators are decided for one new
keyword, and no other (`edits_exact`). The edit covers the keyword, and its notes are what the
decisions accepted. A statement becomes constant only if its declarators have values and the
bindings are never assigned.

An edit is told from others by its place. Statements of a tree may start at one offset, if the tree
comes from a careless parser; then an edit at the place of a statement that is kept is that of
another (`edit_at_kept_tiedScript`).
-/

namespace ScopeLowering

/-- Does the declarator give its name a value? -/
def Node.hasValue : Node → Bool
  | declarator _ init _ => !init.isAbsent
  | _ => false

/-! ### Lists side by side -/

section SideBySide

variable {α β : Type} {R S : α → β → Prop} {xs : List α} {ys : List β}

theorem exists_right_of_forall₂ (h : List.Forall₂ R xs ys) {x : α} (hx : x ∈ xs) :
    ∃ y ∈ ys, R x y := by
  induction h with
  | nil => cases hx
  | cons hxy _ ih =>
    rcases List.mem_cons.mp hx with rfl | hx
    · exact ⟨_, List.mem_cons_self, hxy⟩
    · obtain ⟨y, hy, hr⟩ := ih hx
      exact ⟨y, List.mem_cons_of_mem _ hy, hr⟩

theorem forall₂_imp_mem (h : List.Forall₂ R xs ys) (hi : ∀ x, ∀ y ∈ ys, R x y → S x y) :
    List.Forall₂ S xs ys := by
  induction h with
  | nil => exact .nil
  | cons hxy _ ih =>
    exact .cons (hi _ _ List.mem_cons_self hxy)
      (ih fun x y hy => hi x y (List.mem_cons_of_mem _ hy))

end SideBySide

namespace Analysis

/-! ### What an edit says -/

/-- All declarators of a statement are decided for a new keyword. -/
def Lowers (a : Analysis) (e : StatementEntry) (k : Keyword) : Prop :=
  k ≠ .varWord ∧ ∀ i ∈ e.members, ∃ d, a.decisions.find? i = some d ∧ d.keyword = k

/-- The edit of a statement that takes a new keyword. -/
structure IsEditOf (a : Analysis) (v : VarStatement) (e : StatementEntry) (k : Keyword)
    (edit : Edit) : Prop where
  span : edit.span = ⟨v.span.start, .known (v.span.left + 3)⟩
  old : edit.old = "var"
  new : edit.new = k.text
  notes : ∀ x, x ∈ edit.notes ↔
    ∃ i ∈ e.members, ∃ d, a.decisions.find? i = some d ∧ ∃ h ∈ d.accepted, h.text = x

/-- A statement with its entry, and the edit that the plan has for it. -/
structure Settles (a : Analysis) (v : VarStatement) (e : StatementEntry) (edit? : Option Edit) :
    Prop where
  entry : a.table.IsEntryOf v e
  lowered : ∀ k, a.Lowers e k → ∃ edit, edit? = some edit ∧ a.IsEditOf v e k edit
  kept : (∀ k, ¬ a.Lowers e k) → edit? = none
  /-- What becomes constant has a value from the start and is never assigned. -/
  constant : a.Lowers e .constWord → (∀ n ∈ v.declarators, n.hasValue = true ∨ v.isHead = true) ∧
    ∀ i ∈ e.members, ∀ b, a.table.bindings[i]? = some b → b.isReassigned = false

end Analysis

theorem VarStatement.keywordSpan_eq (v : VarStatement) :
    v.statement.keywordSpan = ⟨v.span.start, .known (v.span.left + 3)⟩ := by
  have hlen : (Keyword.varWord.length : Int) = 3 := by decide
  show Span.mk v.span.start (.known (v.span.left + Keyword.varWord.length)) = _
  rw [hlen]

/-- An edit replaces the keyword of its statement. -/
theorem statementEdit_old {t : Table} {ds : Decisions} {e : StatementEntry} {edit : Edit}
    (h : statementEdit t ds e = .ok (some edit)) : edit.old = e.statement.keyword.text := by
  unfold statementEdit at h
  split at h
  · cases h
  · cases h
  · split at h
    · split at h <;> cases h
      rfl
    · cases h

/-- Edits that start at one place are the same. -/
theorem eq_of_left_eq {plan : List Edit}
    (hp : plan.Pairwise fun x y => x.span.right ≤ y.span.left)
    (hw : ∀ x ∈ plan, x.span.left < x.span.right) {x y : Edit} (hx : x ∈ plan) (hy : y ∈ plan)
    (h : x.span.left = y.span.left) : x = y := by
  induction plan with
  | nil => cases hx
  | cons z rest ih =>
    rw [List.pairwise_cons] at hp
    rw [List.forall_mem_cons] at hw
    rcases List.mem_cons.mp hx with rfl | hx' <;> rcases List.mem_cons.mp hy with rfl | hy'
    · rfl
    · have := hp.1 y hy'
      omega
    · have := hp.1 x hx'
      omega
    · exact ih hp.2 hw.2 hx' hy'

section Statement

variable {script : Node} {o : Options} {a : Analysis} {v : VarStatement} {e : StatementEntry}

/-- The notes of an edit are what the decisions on its members accepted. -/
theorem mem_notes {ds : Decisions} {ms : List BindingId} {vs : List Decision}
    (h : ms.map ds.find? = vs.map some) (x : String) :
    x ∈ (vs.flatMap (·.accepted)).map (·.text) ↔
      ∃ i ∈ ms, ∃ d, ds.find? i = some d ∧ ∃ z ∈ d.accepted, z.text = x := by
  have hvs : ∀ d, d ∈ vs ↔ ∃ i ∈ ms, ds.find? i = some d := by
    intro d
    have hmap : d ∈ vs ↔ some d ∈ vs.map some := by simp
    rw [hmap, ← h, List.mem_map]
  simp only [List.mem_map, List.mem_flatMap, hvs]
  constructor
  · rintro ⟨z, ⟨d, ⟨i, hi, hd⟩, hz⟩, rfl⟩
    exact ⟨i, hi, d, hd, z, hz, rfl⟩
  · rintro ⟨i, hi, d, hd, z, hz, rfl⟩
    exact ⟨z, ⟨d, ⟨i, hi, hd⟩, hz⟩, rfl⟩

namespace Analysis

variable (h : Analysis.ofScript script o = .ok a)
include h

/-- The members of a statement are some. -/
theorem members_ne_nil (he : e ∈ a.table.statements) : e.members ≠ [] := by
  obtain ⟨s, hs, hscoping, _⟩ := Analysis.ofScript_ok h
  obtain ⟨d, hd, rfl⟩ := Scoping.ofScript_ok hs
  rw [Analysis.table, hscoping] at he
  exact (Draft.filed_ofScript hd e (d.finish_statements ▸ he)).2

/-- A statement has an edit just if all its declarators are decided for one new keyword. -/
theorem settles_edit (he : e ∈ a.table.statements) (hv : e.statement = v.statement) :
    (∀ k, a.Lowers e k → ∃ edit, editOf? a.table a.decisions e = some edit ∧
      a.IsEditOf v e k edit) ∧
    ((∀ k, ¬ a.Lowers e k) → editOf? a.table a.decisions e = none) := by
  obtain ⟨s, hs, hscoping, hds, hplan⟩ := Analysis.ofScript_ok h
  obtain ⟨r, hr⟩ := exists_edit_of_emitPlan hplan he
  obtain ⟨j, hj⟩ := List.exists_mem_of_ne_nil _ (members_ne_nil h he)
  have hk : e.statement.keyword = .varWord := by rw [hv]; rfl
  have hcases := edit_cases he hk (hds ▸ hr)
  rw [editOf?_eq hr]
  have hverdict : ∀ {i d}, a.decisions.find? i = some d →
      (classify a.table o).verdict? i = some d.verdict := by
    intro i d hd
    rw [← hds, Decisions.verdict?, hd, Option.map_some]
  rcases hcases with ⟨rfl, hkeep⟩ | ⟨k, edit, rfl, hnew, hne, hall⟩
  · refine ⟨fun k hlow => ?_, fun _ => rfl⟩
    obtain ⟨d, hd, hdk⟩ := hlow.2 j hj
    have hkept := hkeep j hj _ (hverdict hd)
    rw [Decision.keyword, hkept] at hdk
    exact absurd hdk.symm hlow.1
  · obtain ⟨hspan, vs, hvs, hnotes⟩ := statementEdit_some hr
    have hlowers : a.Lowers e k := by
      refine ⟨hne, fun i hi => ?_⟩
      obtain ⟨w, hw, hwk⟩ := hall i hi
      rw [← hds] at hw
      obtain ⟨d, hd, rfl⟩ := Option.map_eq_some_iff.mp hw
      exact ⟨d, hd, hwk⟩
    refine ⟨fun k' hlow => ⟨edit, rfl, ?_⟩, fun hno => absurd hlowers (hno k)⟩
    obtain rfl : k' = k := by
      obtain ⟨d, hd, hdk⟩ := hlow.2 j hj
      obtain ⟨d', hd', hdk'⟩ := hlowers.2 j hj
      rw [hd] at hd'
      cases hd'
      exact hdk.symm.trans hdk'
    refine ⟨?_, ?_, hnew, fun x => ?_⟩
    · rw [hspan, hv, v.keywordSpan_eq]
    · rw [statementEdit_old hr, hk]
      rfl
    · rw [hnotes]
      exact mem_notes hvs x

/-- What becomes constant has one declaration, which gives it a value, and is never assigned. -/
theorem constant_of_verdict {i : BindingId} {d : Decision} (hd : a.decisions.find? i = some d)
    (hk : d.keyword = .constWord) {b : Binding} (hb : a.table.bindings[i]? = some b) :
    b.isReassigned = false ∧ ∀ site ∈ b.sites, site.isInitialized = true := by
  obtain ⟨s, hs, hscoping, hds, _⟩ := Analysis.ofScript_ok h
  obtain ⟨dr, hdr, rfl⟩ := Scoping.ofScript_ok hs
  have hconst : d.verdict = .toBlockConst := by
    revert hk
    unfold Decision.keyword
    cases d.verdict <;> decide
  have hverdict : (classify a.table o).verdict? i = some .toBlockConst := by
    rw [← hds, Decisions.verdict?, hd, Option.map_some, hconst]
  obtain ⟨b', hb', hc, _⟩ := decision_of_verdict hverdict (by decide)
  rw [hb] at hb'
  cases hb'
  obtain ⟨hfixed, hinit⟩ := Binding.decision_const (decision_const_of_verdict hb hc hverdict)
  refine ⟨hfixed, fun site hsite => ?_⟩
  rw [Analysis.table, hscoping] at hb hverdict
  obtain ⟨b₀, hbecomes⟩ := Draft.becomes_of_isTable (.inr rfl) hb
  obtain ⟨b₁, hmovable⟩ := Draft.movable_of_verdict (Draft.sound_ofScript hdr)
    (Draft.noted_ofScript hdr) hverdict (by decide)
  have hsame : some b₁ = some b₀ := hmovable.binding.symm.trans hbecomes.binding
  cases hsame
  -- the only declaration is the first
  have hfirst : ∀ x ∈ b.sites, x = b₀.first := fun x hx => hmovable.site_eq (hbecomes.sites ▸ hx)
  rw [hfirst site hsite, ← hfirst b.first List.mem_cons_self]
  exact hinit

/-- What the plan has for a statement, what it says and what it takes. -/
theorem settles (he : e ∈ a.table.statements) (hv : a.table.IsEntryOf v e) :
    a.Settles v e (editOf? a.table a.decisions e) := by
  obtain ⟨hlowered, hkept⟩ := settles_edit h he hv.statement
  refine ⟨hv, hlowered, hkept, fun hlow => ⟨fun n hn => ?_, fun i hi b hb => ?_⟩⟩
  · obtain ⟨i, hi, name, init, span, b, site, rfl, hfeeds, _, hinit, hhead⟩ :=
      exists_right_of_forall₂ hv.members hn
    obtain ⟨d, hd, hk⟩ := hlow.2 i hi
    have hsite := (constant_of_verdict h hd hk hfeeds.binding).2 site hfeeds.listed
    rwa [Site.isInitialized, Bool.or_eq_true, hinit, hhead] at hsite
  · obtain ⟨d, hd, hk⟩ := hlow.2 i hi
    exact (constant_of_verdict h hd hk hb).1

end Analysis

end Statement

/-- **The plan is exactly the lowered statements.** Each `var` statement with a declarator that is
read in the script has one edit if all its declarators are decided for one new keyword, and none
otherwise, and the plan is these edits in order. No other edit is at the place of a lowered
statement, and none is at that of a kept one unless a lowered one starts there. -/
theorem Analysis.edits_exact {script : Node} {o : Options} {a : Analysis}
    (h : Analysis.ofScript script o = .ok a) :
    ∃ rows : List (StatementEntry × Option Edit),
      List.Forall₂ (fun v row => a.Settles v row.1 row.2) (script.varDecls false) rows ∧
      a.edits.Perm (rows.filterMap (·.2)) ∧
      a.edits.Pairwise (fun x y => x.span.right ≤ y.span.left) ∧
      (∀ row ∈ rows, ∀ edit, row.2 = some edit →
        ∀ x ∈ a.edits, x.span.left = row.1.statement.span.left → x = edit) ∧
      (∀ row ∈ rows, (∀ other ∈ rows, other.2.isSome = true →
          other.1.statement.span.left ≠ row.1.statement.span.left) →
        ∀ x ∈ a.edits, x.span.left ≠ row.1.statement.span.left) ∧
      (script.isSorted = true → (script.varDecls false).map VarStatement.node =
        script.phrases.filter Node.isVarStatement) := by
  obtain ⟨s, hs, hscoping, _, hplan⟩ := Analysis.ofScript_ok h
  have ht : s.IsTable a.table := .inr (by rw [Analysis.table, hscoping])
  obtain ⟨entries, hperm, hentries⟩ := Scoping.lists_ofScript hs ht
  obtain ⟨hedits, hover⟩ := emitPlan_ok hplan
  have hrows : (entries.map fun e => (e, editOf? a.table a.decisions e)).filterMap (·.2) =
      entries.filterMap (editOf? a.table a.decisions) := by
    rw [List.filterMap_map]
    rfl
  have hmem : ∀ x ∈ a.edits, ∃ e ∈ entries, editOf? a.table a.decisions e = some x := by
    intro x hx
    rw [hedits, List.mem_mergeSort] at hx
    obtain ⟨e, he, hex⟩ := List.mem_filterMap.mp hx
    exact ⟨e, hperm.mem_iff.mpr he, hex⟩
  have hwide : ∀ x ∈ a.edits, x.span.left < x.span.right := by
    intro x hx
    obtain ⟨e, _, hex⟩ := hmem x hx
    rw [editOf?_span hex]
    exact e.statement.keywordSpan_left_lt_right
  refine ⟨entries.map fun e => (e, editOf? a.table a.decisions e), ?_, ?_, ?_, ?_, ?_,
    fun hsorted => Node.map_varDecls hsorted false⟩
  · rw [List.forall₂_map_right_iff]
    exact forall₂_imp_mem hentries fun v e he hv => settles h (hperm.mem_iff.mp he) hv
  · rw [hrows, hedits]
    exact (List.mergeSort_perm _ _).trans (hperm.symm.filterMap _)
  · exact pairwise_le_of_firstOverlap hwide hover
  · intro row hrow edit hedit x hx hleft
    obtain ⟨e, he, rfl⟩ := List.mem_map.mp hrow
    have hin : edit ∈ a.edits := by
      rw [hedits, List.mem_mergeSort]
      exact List.mem_filterMap.mpr ⟨e, hperm.mem_iff.mp he, hedit⟩
    refine eq_of_left_eq (pairwise_le_of_firstOverlap hwide hover) hwide hx hin ?_
    rw [hleft, editOf?_span hedit]
    rfl
  · intro row hrow hno x hx hleft
    obtain ⟨e, he, hex⟩ := hmem x hx
    refine hno _ (List.mem_map_of_mem he) (by rw [hex]; rfl) ?_
    rw [← hleft, editOf?_span hex]
    rfl

/-- `for (var x of [1]) {}`. -/
def itemScript : Node :=
  .program [.forEachStmt
    (.varDecl .varWord [.declarator ⟨"x", .of 9 10⟩ .absent (.of 9 10)] (.of 5 10))
    (.arrayLit [.literal (.json (.int 1)) (.of 15 16)] (.of 14 17)) (.block [] (.of 19 21)) true
    (.of 0 21)] (.of 0 21)

theorem edits_exact_itemScript :
    ∃ a, Analysis.ofScript itemScript {} = .ok a ∧
      a.edits = [⟨.of 5 8, "var", "const", []⟩] ∧
      ∃ rows : List (StatementEntry × Option Edit),
        List.Forall₂ (fun v row => a.Settles v row.1 row.2) (itemScript.varDecls false) rows ∧
        a.edits.Perm (rows.filterMap (·.2)) ∧
        (itemScript.varDecls false).map (·.isHead) = [true] ∧
        (itemScript.varDecls false).map VarStatement.node =
          itemScript.phrases.filter Node.isVarStatement := by
  obtain ⟨a, ha, hedits⟩ := exists_ok_of_any
    (show (Analysis.ofScript itemScript {}).toOption.any (fun a =>
        decide (a.edits = [⟨.of 5 8, "var", "const", []⟩])) = true by decide +kernel)
  obtain ⟨rows, hrows, hperm, _, _, _, hread⟩ := Analysis.edits_exact ha
  exact ⟨a, ha, of_decide_eq_true hedits, rows, hrows, hperm, rfl, hread (by decide +kernel)⟩

/-- `var b, b`, which is kept because the name is declared twice. -/
def keptStatement : VarStatement :=
  ⟨[.declarator ⟨"b", .of 4 5⟩ .absent (.of 4 5), .declarator ⟨"b", .of 7 8⟩ .absent (.of 7 8)],
    .of 0 12, false⟩

/-- The statement `var a` and the one that is kept, said to start at the same offset. -/
def tiedScript : Node :=
  .program [.varDecl .varWord [.declarator ⟨"a", .of 4 5⟩ .absent (.of 4 5)] (.of 0 6),
    keptStatement.node] (.of 0 12)

/-- There is an edit at the place of a statement whose declarators are decided for `var`. -/
theorem edit_at_kept_tiedScript :
    ∃ a e, Analysis.ofScript tiedScript {} = .ok a ∧
      keptStatement ∈ tiedScript.varDecls false ∧ e ∈ a.table.statements ∧
      e.statement = keptStatement.statement ∧
      (∀ i ∈ e.members, (a.decisions.find? i).map (·.keyword) = some .varWord) ∧
      ∃ edit ∈ a.edits, edit.span = ⟨keptStatement.span.start, .known (keptStatement.span.left + 3)⟩
        ∧ edit.new = "let" := by
  obtain ⟨a, ha, hfacts⟩ := exists_ok_of_any
    (show (Analysis.ofScript tiedScript {}).toOption.any (fun a =>
        a.edits.any (fun edit => decide (edit.new = "let" ∧
          edit.span = ⟨keptStatement.span.start, .known (keptStatement.span.left + 3)⟩)) &&
        a.table.statements.any (fun e => decide (e.statement = keptStatement.statement ∧
          ∀ i ∈ e.members, (a.decisions.find? i).map (·.keyword) = some .varWord))) = true by
      decide +kernel)
  rw [Bool.and_eq_true, List.any_eq_true, List.any_eq_true] at hfacts
  obtain ⟨⟨edit, hedit, hplace⟩, e, he, hkept⟩ := hfacts
  obtain ⟨hnew, hspan⟩ := of_decide_eq_true hplace
  obtain ⟨hst, hkeep⟩ := of_decide_eq_true hkept
  exact ⟨a, e, ha, List.mem_cons_of_mem _ List.mem_cons_self, he, hst, hkeep, edit, hedit, hspan,
    hnew⟩

end ScopeLowering
