import Mathlib.Data.List.Basic
import ScopeLowering.Proofs.Coherence
import ScopeLowering.Proofs.Filing
import ScopeLowering.Proofs.Resolution

/-!
# What accepting captured loop variables adds

The one option of the analysis is to lower loop variables although closures capture them. It adds
edits and does nothing else: the plan without the option is the plan with it, less the edits that
carry a note, and the one thing that such a note names is the change that the option accepts
(`Analysis.accepting_adds_noted_edits`).

## The model

Accepting can only raise decisions, so what is coherent without the option stays below what comes
out with it (`classify_below_accepting`). In the other direction take a statement that is lowered
with nothing accepted. Its members are members of no other statement, so the verdicts that they have
with the option may be set into those without it, and what comes out is still coherent
(`find?_eq_of_unnoted`). As the decisions without the option are the greatest coherent ones, they
are no lower there.
-/

namespace ScopeLowering

/-! ### One binding -/

/-- Accepting changes the decision on a captured loop variable and on nothing else. -/
theorem Binding.decision_accepting (b : Binding) :
    (b.decision ⟨true⟩ = b.decision {} ∧ (b.decision {}).accepted = []) ∨
      ((b.decision {}).verdict = .keep ∧
        (b.decision ⟨true⟩).accepted = [.iterationSemanticsChange]) := by
  unfold decision
  cases hf : blockers.find? (fun x => b.hazards.contains x) with
  | some h =>
    left
    simp only [hf, and_self]
  | none =>
    simp only [hf]
    cases b.hazards.contains .iterationSemanticsChange with
    | true =>
      refine .inr ⟨rfl, ?_⟩
      cases b.isReassigned <;> cases b.first.isInitialized <;> rfl
    | false =>
      refine .inl ⟨rfl, ?_⟩
      cases b.isReassigned <;> cases b.first.isInitialized <;> rfl

theorem decideEach_below_accepting (t : Table) :
    Assignment.Below (decideEach t {}).verdict? (decideEach t ⟨true⟩).verdict? := by
  intro i x hx
  obtain ⟨d, hd, rfl⟩ := Option.map_eq_some_iff.mp hx
  obtain ⟨b, hb, hc, rfl⟩ := mem_decideEach.mp (Decisions.mem_of_find? hd)
  refine ⟨(b.decision ⟨true⟩).verdict, ?_, ?_⟩
  · rw [Decisions.verdict?, decideEach_find? t ⟨true⟩ hb hc, Option.map_some]
  · rcases b.decision_accepting with ⟨he, _⟩ | ⟨hk, _⟩
    · rw [he]
      exact Verdict.le_refl _
    · rw [hk]
      exact Verdict.keep_le _

/-- Accepting never lowers a verdict. -/
theorem classify_below_accepting (t : Table) :
    Assignment.Below (classify t {}).verdict? (classify t ⟨true⟩).verdict? :=
  below_classify (classify_coherent t {})
    ((classify_below t {}).trans (decideEach_below_accepting t))

/-- A lowered binding has accepted what it accepts by itself. -/
theorem accepted_of_lowered {t : Table} {o : Options} {i : BindingId} {b : Binding} {d : Decision}
    (hb : t.bindings[i]? = some b) (hc : b.isCandidate = true)
    (hd : (classify t o).find? i = some d) (hv : d.verdict ≠ .keep) :
    d.accepted = (b.decision o).accepted := by
  obtain ⟨d', hd', hdem⟩ := classify_demotes (o := o) hb hc
  rw [hd] at hd'
  cases hd'
  obtain rfl | ⟨v, _, rfl⟩ := hdem
  · rfl
  · exact if_neg hv

/-! ### One statement -/

section Statement

variable {t : Table} {e : StatementEntry}

/-- Lowered with nothing accepted, a statement that shares no member is lowered without the option
as well. -/
theorem find?_eq_of_unnoted
    (hown : ∀ i ∈ e.members, ∀ e' ∈ t.statements, i ∈ e'.members → e' = e)
    (hall : ∀ i ∈ e.members, ∃ d, (classify t ⟨true⟩).find? i = some d ∧ d.verdict ≠ .keep ∧
      d.accepted = []) {i : BindingId} (hi : i ∈ e.members) :
    (classify t {}).find? i = (classify t ⟨true⟩).find? i := by
  have hsame : ∀ j ∈ e.members, ∃ b, t.bindings[j]? = some b ∧ b.isCandidate = true ∧
      b.decision ⟨true⟩ = b.decision {} := by
    intro j hj
    obtain ⟨d, hd, hv, ha⟩ := hall j hj
    obtain ⟨b, hb, hc⟩ := classify_find?_isSome.mp ⟨d, hd⟩
    refine ⟨b, hb, hc, ?_⟩
    rcases b.decision_accepting with ⟨he, _⟩ | ⟨_, hacc⟩
    · exact he
    · rw [← accepted_of_lowered hb hc hd hv, ha] at hacc
      cases hacc
  -- the verdicts without the option, but with those of the statement taken from the other side
  let v : Assignment := fun j =>
    if j ∈ e.members then (classify t ⟨true⟩).verdict? j else (classify t {}).verdict? j
  have hcoherent : v.Coherent t := by
    intro e' he'
    by_cases hee : e' = e
    · have hv : ∀ j ∈ e'.members, v j = (classify t ⟨true⟩).verdict? j :=
        fun j hj => if_pos (hee ▸ hj)
      exact (classify_coherent t ⟨true⟩ e' he').congr hv
    · have hv : ∀ j ∈ e'.members, v j = (classify t {}).verdict? j :=
        fun j hj => if_neg fun hje => hee (hown j hje e' he' hj)
      exact (classify_coherent t {} e' he').congr hv
  have hbelow : v.Below (decideEach t {}).verdict? := by
    intro j x hx
    by_cases hj : j ∈ e.members
    · obtain ⟨b, hb, hc, he⟩ := hsame j hj
      have hd := decideEach_find? t ⟨true⟩ hb hc
      rw [he, ← decideEach_find? t {} hb hc] at hd
      rw [Decisions.verdict?, ← hd]
      exact classify_below t ⟨true⟩ j x ((if_pos hj).symm.trans hx)
    · exact classify_below t {} j x ((if_neg hj).symm.trans hx)
  obtain ⟨d, hd, _⟩ := hall i hi
  obtain ⟨b, hb, hc, he⟩ := hsame i hi
  obtain ⟨d', hd', hdem'⟩ := classify_demotes (o := ⟨true⟩) hb hc
  obtain ⟨d₀, hd₀, hdem₀⟩ := classify_demotes (o := {}) hb hc
  have hvi : (classify t ⟨true⟩).verdict? i = some d'.verdict := by
    rw [Decisions.verdict?, hd', Option.map_some]
  have hv₀ : (classify t {}).verdict? i = some d₀.verdict := by
    rw [Decisions.verdict?, hd₀, Option.map_some]
  obtain ⟨x, hx, hle⟩ := below_classify hcoherent hbelow i d'.verdict ((if_pos hi).trans hvi)
  obtain ⟨y, hy, hle'⟩ := classify_below_accepting t i d₀.verdict hv₀
  rw [hv₀] at hx
  rw [hvi] at hy
  cases hx
  cases hy
  rw [hd₀, hd', hdem₀.eq_of_verdict (he ▸ hdem') (Verdict.le_antisymm hle' hle)]

/-- The notes of a statement that is lowered with the option: there are none and nothing is
accepted, or they name the one thing there is to accept and some member is kept without the
option. -/
theorem notes_cases (he : e ∈ t.statements) (hk : e.statement.keyword = .varWord) {edit : Edit}
    (h : statementEdit t (classify t ⟨true⟩) e = .ok (some edit)) :
    (edit.notes = [] ∧ ∀ i ∈ e.members, ∃ d, (classify t ⟨true⟩).find? i = some d ∧
        d.verdict ≠ .keep ∧ d.accepted = []) ∨
      ((∀ n, n ∈ edit.notes ↔ n = Hazard.text .iterationSemanticsChange) ∧
        ∃ i ∈ e.members, (classify t {}).verdict? i = some .keep) := by
  obtain ⟨_, vs, hfound, hnotes⟩ := statementEdit_some h
  have hlow : ∀ i ∈ e.members, ∃ d, (classify t ⟨true⟩).find? i = some d ∧ d.verdict ≠ .keep := by
    obtain ⟨hr, _⟩ | ⟨k, _, _, _, hne, hall⟩ := edit_cases he hk h
    · cases hr
    · intro i hi
      obtain ⟨v, hv, hvk⟩ := hall i hi
      obtain ⟨d, hd, rfl⟩ := Option.map_eq_some_iff.mp hv
      exact ⟨d, hd, fun hkeep => hne (hvk ▸ Verdict.keyword_eq_var.mpr hkeep)⟩
  have hof : ∀ d ∈ vs, ∃ i ∈ e.members, (classify t ⟨true⟩).find? i = some d := by
    intro d hd
    have hmem : some d ∈ e.members.map (classify t ⟨true⟩).find? := hfound ▸ List.mem_map_of_mem hd
    exact List.mem_map.mp hmem
  -- a lowered member accepts nothing, or is kept without the option
  have hown : ∀ i ∈ e.members, ∀ d, (classify t ⟨true⟩).find? i = some d → d.accepted = [] ∨
      d.accepted = [.iterationSemanticsChange] ∧ (classify t {}).verdict? i = some .keep := by
    intro i hi d hd
    obtain ⟨d', hd', hv⟩ := hlow i hi
    rw [hd] at hd'
    cases hd'
    obtain ⟨b, hb, hc⟩ := classify_find?_isSome.mp ⟨d, hd⟩
    rw [accepted_of_lowered hb hc hd hv]
    rcases b.decision_accepting with ⟨heq, hnone⟩ | ⟨hkeep, hacc⟩
    · exact .inl (heq ▸ hnone)
    · exact .inr ⟨hacc, (Forced.own hb hc hkeep).verdict⟩
  by_cases hall : ∀ d ∈ vs, d.accepted = []
  · refine .inl ⟨?_, fun i hi => ?_⟩
    · rw [hnotes, List.flatMap_eq_nil_iff.mpr hall, List.map_nil]
    · obtain ⟨d, hd, hv⟩ := hlow i hi
      have hmem : some d ∈ vs.map some := by
        rw [← hfound, ← hd]
        exact List.mem_map_of_mem hi
      obtain ⟨d', hd', hdd⟩ := List.mem_map.mp hmem
      cases hdd
      exact ⟨d, hd, hv, hall d hd'⟩
  · obtain ⟨d, hd, hacc⟩ : ∃ d ∈ vs, d.accepted ≠ [] := by
      simpa only [Classical.not_forall, exists_prop] using hall
    obtain ⟨i, hi, hdi⟩ := hof d hd
    obtain ⟨hiter, hkeep⟩ := (hown i hi d hdi).resolve_left hacc
    refine .inr ⟨fun n => ?_, i, hi, hkeep⟩
    simp only [hnotes, List.mem_map, List.mem_flatMap]
    constructor
    · rintro ⟨x, ⟨d', hd', hx⟩, rfl⟩
      obtain ⟨j, hj, hdj⟩ := hof d' hd'
      rcases hown j hj d' hdj with hnil | ⟨hone, _⟩
      · rw [hnil] at hx
        cases hx
      · rw [hone] at hx
        rw [List.mem_singleton.mp hx]
    · rintro rfl
      exact ⟨_, ⟨d, hd, by rw [hiter]; exact List.mem_singleton.mpr rfl⟩, rfl⟩

/-- What the option does to the edit of one statement. -/
theorem edit_eq_filter (he : e ∈ t.statements) (hk : e.statement.keyword = .varWord)
    (hne : e.members ≠ [])
    (hown : ∀ i v, (classify t ⟨true⟩).verdict? i = some v → v ≠ .keep → i ∈ e.members →
      ∀ e' ∈ t.statements, i ∈ e'.members → e' = e) {r r' : Option Edit}
    (hr : statementEdit t (classify t {}) e = .ok r)
    (hr' : statementEdit t (classify t ⟨true⟩) e = .ok r') :
    r = r'.filter (·.notes.isEmpty) := by
  -- lowered without the option, all members are lowered with it
  have hrise : r ≠ none → ∀ i ∈ e.members, ∃ x y, (classify t {}).verdict? i = some x ∧
      x ≠ .keep ∧ (classify t ⟨true⟩).verdict? i = some y ∧ y ≠ .keep := by
    intro hsome i hi
    obtain ⟨hnone, _⟩ | ⟨k, _, _, _, hkne, hall⟩ := edit_cases he hk hr
    · exact absurd hnone hsome
    · obtain ⟨x, hx, hxk⟩ := hall i hi
      have hxne : x ≠ .keep := fun hkeep => hkne (hxk ▸ Verdict.keyword_eq_var.mpr hkeep)
      obtain ⟨y, hy, hle⟩ := classify_below_accepting t i x hx
      exact ⟨x, y, hx, hxne, hy, fun hkeep => hxne (Verdict.eq_keep_of_le (hkeep ▸ hle))⟩
  cases r' with
  | none =>
    refine Classical.byContradiction fun hsome => ?_
    obtain ⟨i, hi⟩ := List.exists_mem_of_ne_nil e.members hne
    obtain ⟨x, y, _, _, hy, hyne⟩ := hrise hsome i hi
    obtain ⟨_, hkeep⟩ | ⟨_, _, hr'', _⟩ := edit_cases he hk hr'
    · exact hyne (hkeep i hi y hy)
    · cases hr''
  | some edit =>
    rcases notes_cases he hk hr' with ⟨hnil, hall⟩ | ⟨hnotes, i, hi, hkeep⟩
    · have hfind : ∀ i ∈ e.members, (classify t {}).find? i = (classify t ⟨true⟩).find? i := by
        refine fun i hi => find?_eq_of_unnoted (fun j hj => ?_) hall hi
        obtain ⟨d, hd, hv, _⟩ := hall j hj
        exact hown j d.verdict (by rw [Decisions.verdict?, hd, Option.map_some]) hv hj
      rw [statementEdit_congr hfind, hr'] at hr
      cases hr
      simp [Option.filter, hnil]
    · have hfilled : edit.notes ≠ [] := List.ne_nil_of_mem ((hnotes _).mpr rfl)
      have hnone : r = none := by
        refine Classical.byContradiction fun hsome => ?_
        obtain ⟨x, _, hx, hxne, _⟩ := hrise hsome i hi
        rw [hkeep] at hx
        exact hxne (Option.some.inj hx).symm
      simp [hnone, Option.filter, hfilled]

end Statement

/-! ### Whole plans -/

/-- A lowered `var` is a member of one statement. -/
theorem Draft.statement_eq_of_lowered {d : Draft} (hd : d.Sound) (hn : d.Noted) (he : d.Enrolled)
    {o : Options} {i : BindingId} {v : Verdict}
    (h : (classify d.finish.withCaptures.table o).verdict? i = some v) (hv : v ≠ .keep)
    {e e' : StatementEntry} (hmem : e ∈ d.table.statements) (hmem' : e' ∈ d.table.statements)
    (hi : i ∈ e.members) (hi' : i ∈ e'.members) : e' = e := by
  obtain ⟨b, hb⟩ := Draft.movable_of_verdict hd hn h hv
  have hlisted := he hb.binding
  have hone : b.sites.length = 1 := by simp [Binding.sites, hb.others]
  rw [hone] at hlisted
  exact eq_of_listed_once hlisted hmem' hmem hi' hi

/-- **The option only adds edits, and marks them.** The plan without the option is, edit by edit and
in the same order, what is left of the plan with it when the edits with notes are dropped, and those
notes all name the change that the option accepts. -/
theorem Analysis.accepting_adds_noted_edits {script : Node} {a b : Analysis}
    (ha : Analysis.ofScript script { allowLoopCaptureRebinding := false } = .ok a)
    (hb : Analysis.ofScript script { allowLoopCaptureRebinding := true } = .ok b) :
    a.edits = b.edits.filter (·.notes.isEmpty) ∧
      ∀ e ∈ b.edits, e.notes ≠ [] →
        ∀ n, n ∈ e.notes ↔ n = "IntentionalIterationSemanticsChange" := by
  obtain ⟨s, hs, hscoping, hds, hplan⟩ := Analysis.ofScript_ok ha
  obtain ⟨s', hs', hscoping', hds', hplan'⟩ := Analysis.ofScript_ok hb
  rw [hs] at hs'
  cases hs'
  obtain ⟨d, hd, rfl⟩ := Scoping.ofScript_ok hs
  rw [hds, Analysis.table, hscoping] at hplan
  rw [hds', Analysis.table, hscoping'] at hplan'
  have hstatements : d.finish.withCaptures.table.statements = d.table.statements :=
    d.finish_statements
  have hedit : ∀ e ∈ d.table.statements, ∃ r r',
      statementEdit d.finish.withCaptures.table
        (classify d.finish.withCaptures.table ⟨false⟩) e = .ok r ∧
      statementEdit d.finish.withCaptures.table
        (classify d.finish.withCaptures.table ⟨true⟩) e = .ok r' := by
    intro e he
    rw [← hstatements] at he
    obtain ⟨r, hr⟩ := exists_edit_of_emitPlan hplan he
    obtain ⟨r', hr'⟩ := exists_edit_of_emitPlan hplan' he
    exact ⟨r, r', hr, hr'⟩
  obtain ⟨hsorted, _⟩ := emitPlan_ok hplan
  obtain ⟨hsorted', hover⟩ := emitPlan_ok hplan'
  have hof : ∀ edit ∈ b.edits, ∃ e ∈ d.table.statements, statementEdit d.finish.withCaptures.table
      (classify d.finish.withCaptures.table ⟨true⟩) e = .ok (some edit) := by
    intro edit hin
    rw [hsorted', List.mem_mergeSort, List.mem_filterMap, hstatements] at hin
    obtain ⟨e, he, hr⟩ := hin
    obtain ⟨_, r', _, hr'⟩ := hedit e he
    rw [editOf?_eq hr'] at hr
    exact ⟨e, he, hr ▸ hr'⟩
  constructor
  · have hstep : ∀ e ∈ d.table.statements,
        editOf? d.finish.withCaptures.table (classify d.finish.withCaptures.table ⟨false⟩) e =
          (editOf? d.finish.withCaptures.table
            (classify d.finish.withCaptures.table ⟨true⟩) e).filter (·.notes.isEmpty) := by
      intro e he
      obtain ⟨r, r', hr, hr'⟩ := hedit e he
      obtain ⟨hk, hne⟩ := Draft.filed_ofScript hd e he
      rw [editOf?_eq hr, editOf?_eq hr']
      refine edit_eq_filter (hstatements ▸ he) hk hne (fun i v hv hvne hi e' he' hi' => ?_) hr hr'
      exact Draft.statement_eq_of_lowered (Draft.sound_ofScript hd) (Draft.noted_ofScript hd)
        (Draft.enrolled_ofScript hd) hv hvne he (hstatements ▸ he') hi hi'
    have hplaced : b.edits.Pairwise fun x y => x.span.left < y.span.left := by
      refine lefts_increasing hover fun edit hin => ?_
      obtain ⟨e, _, hr⟩ := hof edit hin
      rw [(statementEdit_some hr).1]
      exact Statement.keywordSpan_left_lt_right e.statement
    rw [hsorted'] at hplaced
    rw [hsorted, hsorted', ← mergeSort_filter hplaced, List.filter_filterMap, hstatements]
    exact congrArg (List.mergeSort · Edit.isOrdered) (List.filterMap_congr hstep)
  · intro edit hin hnotes
    obtain ⟨e, he, hr⟩ := hof edit hin
    rcases notes_cases (hstatements ▸ he) (Draft.filed_ofScript hd e he).1 hr with
      ⟨hnil, _⟩ | ⟨hiter, _⟩
    · exact absurd hnil hnotes
    · exact hiter

/-- The script `for (var x of xs) { f(function () { return x; }); }`, whose loop variable is
captured in every round. -/
def capturingScript : Node :=
  let x : Ident := ⟨"x", .of 9 10⟩
  let closure : Node := .function .expression none []
    [.returnStmt (.lookup ⟨"x", .of 43 44⟩) (.of 36 45)] false (.of 22 47)
  let body : Node := .block
    [.exprStmt (.call (.lookup ⟨"f", .of 20 21⟩) [closure] (.of 20 48)) (.of 20 49)] (.of 18 51)
  .program [.forEachStmt (.varDecl .varWord [.declarator x .absent (.of 9 10)] (.of 5 10))
    (.lookup ⟨"xs", .of 14 16⟩) body true (.of 0 51)] (.of 0 51)

theorem accepting_adds_noted_edits_capturingScript :
    ∃ a b, Analysis.ofScript capturingScript { allowLoopCaptureRebinding := false } = .ok a ∧
      Analysis.ofScript capturingScript { allowLoopCaptureRebinding := true } = .ok b ∧
      a.edits.length = 0 ∧ b.edits.length = 1 ∧
      a.edits = b.edits.filter (·.notes.isEmpty) ∧
      ∀ e ∈ b.edits, e.notes ≠ [] →
        ∀ n, n ∈ e.notes ↔ n = "IntentionalIterationSemanticsChange" := by
  obtain ⟨a, ha, hna⟩ := exists_ok_of_any
    (show (Analysis.ofScript capturingScript { allowLoopCaptureRebinding := false }).toOption.any
      (·.edits.length == 0) = true by decide +kernel)
  obtain ⟨b, hb, hnb⟩ := exists_ok_of_any
    (show (Analysis.ofScript capturingScript { allowLoopCaptureRebinding := true }).toOption.any
      (·.edits.length == 1) = true by decide +kernel)
  exact ⟨a, b, ha, hb, eq_of_beq hna, eq_of_beq hnb, Analysis.accepting_adds_noted_edits ha hb⟩

end ScopeLowering
