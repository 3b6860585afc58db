import ScopeLowering.Analysis
import ScopeLowering.Proofs.Reconciling

/-!
# What a plan says about the decisions

A plan that comes out at all says of every statement that its members agree: either none of them is
lowered and the keyword stays, or all of them are and the keyword is theirs (`edit_cases`). In the
other direction, a table in which no member of a statement is lowered has the empty plan
(`emitPlan_nil`).
-/

namespace ScopeLowering

/-! ### Members of a statement -/

theorem memberDecisions_some {t : Table} {ds : Decisions} {ms : List BindingId} {vs : List Decision}
    (h : memberDecisions t ds ms = .ok (some vs)) : ms.map ds.find? = vs.map some := by
  induction ms generalizing vs with
  | nil => cases h; rfl
  | cons m ms ih =>
    unfold memberDecisions at h
    cases hm : ds.find? m with
    | none =>
      simp only [hm] at h
      split at h <;> cases h
    | some d =>
      simp only [hm] at h
      cases hr : memberDecisions t ds ms with
      | error x => rw [hr] at h; cases h
      | ok found =>
        rw [hr] at h
        cases found with
        | none => cases h
        | some vs' =>
          cases h
          rw [List.map_cons, List.map_cons, hm, ih hr]

theorem memberDecisions_none {t : Table} {ds : Decisions} {ms : List BindingId}
    (h : memberDecisions t ds ms = .ok none) : ∃ m ∈ ms, ds.find? m = none := by
  induction ms with
  | nil => cases h
  | cons m ms ih =>
    unfold memberDecisions at h
    cases hm : ds.find? m with
    | none => exact ⟨m, List.mem_cons_self, hm⟩
    | some d =>
      simp only [hm] at h
      cases hr : memberDecisions t ds ms with
      | error x => rw [hr] at h; cases h
      | ok found =>
        rw [hr] at h
        cases found with
        | none =>
          obtain ⟨m', hm', hn⟩ := ih hr
          exact ⟨m', List.mem_cons_of_mem _ hm', hn⟩
        | some vs' => cases h

/-- Members are found, or something that is no `var` is. -/
theorem memberDecisions_ok {t : Table} {ds : Decisions} {ms : List BindingId}
    (h : ∀ m ∈ ms, ds.find? m = none → ∃ b, t.bindings[m]? = some b ∧ b.isCandidate = false) :
    ∃ found, memberDecisions t ds ms = .ok found := by
  induction ms with
  | nil => exact ⟨_, rfl⟩
  | cons m ms ih =>
    unfold memberDecisions
    cases hm : ds.find? m with
    | none =>
      obtain ⟨b, hb, hc⟩ := h m List.mem_cons_self hm
      simp only [hb, Option.getD_some, hc]
      exact ⟨_, rfl⟩
    | some d =>
      obtain ⟨found, hf⟩ := ih fun x hx => h x (List.mem_cons_of_mem _ hx)
      simp only [hf]
      exact ⟨_, rfl⟩

theorem eraseDups_eq_singleton {α : Type} [BEq α] [LawfulBEq α] {xs : List α} {x : α}
    (h : xs.eraseDups = [x]) : ∀ y ∈ xs, y = x := by
  intro y hy
  have := List.mem_eraseDups.mpr hy
  rw [h] at this
  exact List.mem_singleton.mp this

theorem eraseDups_of_forall {α : Type} [BEq α] [LawfulBEq α] {xs : List α} {x : α}
    (hne : xs ≠ []) (h : ∀ y ∈ xs, y = x) : xs.eraseDups = [x] := by
  cases xs with
  | nil => exact absurd rfl hne
  | cons y ys =>
    have hf : ys.filter (fun b => !(b == y)) = [] := by
      rw [List.filter_eq_nil_iff]
      intro z hz
      rw [h z (List.mem_cons_of_mem _ hz), h y List.mem_cons_self]
      simp
    rw [List.eraseDups_cons, hf, h y List.mem_cons_self]
    rfl

theorem Keyword.ofText?_text (k : Keyword) : Keyword.ofText? k.text = some k := by
  cases k <;> rfl

theorem Verdict.keyword_eq_var {v : Verdict} : v.keyword = .varWord ↔ v = .keep := by
  cases v <;> decide

/-! ### Edits of a statement -/

/-- What an edit of a `var` statement, or its absence, says about the members. -/
theorem edit_cases {t : Table} {o : Options} {e : StatementEntry} {r : Option Edit}
    (he : e ∈ t.statements) (hk : e.statement.keyword = .varWord)
    (h : statementEdit t (classify t o) e = .ok r) :
    (r = none ∧ ∀ i ∈ e.members, ∀ v, (classify t o).verdict? i = some v → v = .keep) ∨
    ∃ k edit, r = some edit ∧ edit.new = k.text ∧ k ≠ .varWord ∧
      ∀ i ∈ e.members, ∃ v, (classify t o).verdict? i = some v ∧ v.keyword = k := by
  unfold statementEdit at h
  cases hm : memberDecisions t (classify t o) e.members with
  | error x => rw [hm] at h; cases h
  | ok found =>
    cases found with
    | none =>
      rw [hm] at h
      cases h
      obtain ⟨j, hj, hn⟩ := memberDecisions_none hm
      refine .inl ⟨rfl, fun i hi v hv => ?_⟩
      have hnone : (classify t o).verdict? j = none := by rw [Decisions.verdict?, hn]; rfl
      exact keep_of_fixed (classify_fixed t o) he hi hj (.inl hnone) hv
    | some vs =>
      rw [hm] at h
      simp only at h
      have hfound := memberDecisions_some hm
      split at h
      · rename_i k hd
        have hall : ∀ i ∈ e.members, ∃ v, (classify t o).verdict? i = some v ∧ v.keyword = k := by
          intro i hi
          have hmem : (classify t o).find? i ∈ vs.map some := hfound ▸ List.mem_map_of_mem hi
          obtain ⟨d, hdv, hdi⟩ := List.mem_map.mp hmem
          refine ⟨d.verdict, by rw [Decisions.verdict?, ← hdi]; rfl, ?_⟩
          exact eraseDups_eq_singleton hd _ (List.mem_map_of_mem hdv)
        split at h
        · rename_i hkw
          cases h
          refine .inl ⟨rfl, fun i hi v hv => ?_⟩
          obtain ⟨v', hv', hk'⟩ := hall i hi
          rw [hv] at hv'
          cases hv'
          exact Verdict.keyword_eq_var.mp (hk'.trans (hkw.trans hk))
        · rename_i hkw
          cases h
          exact .inr ⟨k, _, rfl, rfl, fun hv => hkw (hv.trans hk.symm), hall⟩
      · cases h

/-- An edit covers the keyword of its statement, and has the notes of the members. -/
theorem statementEdit_some {t : Table} {ds : Decisions} {e : StatementEntry} {edit : Edit}
    (h : statementEdit t ds e = .ok (some edit)) :
    edit.span = e.statement.keywordSpan ∧ ∃ vs : List Decision,
      e.members.map ds.find? = vs.map some ∧
        edit.notes = (vs.flatMap (·.accepted)).map (·.text) := by
  unfold statementEdit at h
  cases hm : memberDecisions t ds e.members with
  | error x => rw [hm] at h; cases h
  | ok found =>
    rw [hm] at h
    cases found with
    | none => cases h
    | some vs =>
      simp only at h
      split at h
      · split at h
        · cases h
        · cases h
          exact ⟨rfl, vs, memberDecisions_some hm, rfl⟩
      · cases h

theorem memberDecisions_congr {t : Table} {ds ds' : Decisions} {ms : List BindingId}
    (h : ∀ m ∈ ms, ds.find? m = ds'.find? m) :
    memberDecisions t ds ms = memberDecisions t ds' ms := by
  induction ms with
  | nil => rfl
  | cons m ms ih =>
    simp only [memberDecisions, h m List.mem_cons_self,
      ih fun x hx => h x (List.mem_cons_of_mem _ hx)]

/-- The edit of a statement depends on the decisions on its members. -/
theorem statementEdit_congr {t : Table} {ds ds' : Decisions} {e : StatementEntry}
    (h : ∀ m ∈ e.members, ds.find? m = ds'.find? m) :
    statementEdit t ds e = statementEdit t ds' e := by
  unfold statementEdit
  rw [memberDecisions_congr h]

/-- Members that are bindings are found, or one is no `var`. -/
theorem memberDecisions_classify {t : Table} {o : Options} {ms : List BindingId}
    (hin : ∀ i ∈ ms, ∃ b, t.bindings[i]? = some b) :
    ∃ found, memberDecisions t (classify t o) ms = .ok found := by
  refine memberDecisions_ok fun m hm hn => ?_
  obtain ⟨b, hb⟩ := hin m hm
  refine ⟨b, hb, ?_⟩
  cases hc : b.isCandidate with
  | false => rfl
  | true =>
    obtain ⟨d, hd⟩ := classify_find?_isSome.mpr ⟨b, hb, hc⟩
    rw [hn] at hd
    cases hd

/-- The members of a statement have one keyword if their verdicts do. -/
theorem keywords_of_members {ds : Decisions} {ms : List BindingId} {vs : List Decision}
    {k : Keyword} (hne : ms ≠ []) (hvs : ms.map ds.find? = vs.map some)
    (h : ∀ i ∈ ms, ∀ v, ds.verdict? i = some v → v.keyword = k) :
    (vs.map (·.keyword)).eraseDups = [k] := by
  refine eraseDups_of_forall (fun hnil => ?_) fun x hx => ?_
  · rw [List.map_eq_nil_iff.mp hnil, List.map_nil] at hvs
    exact hne (List.map_eq_nil_iff.mp hvs)
  · obtain ⟨d, hd, rfl⟩ := List.mem_map.mp hx
    have hmem : some d ∈ ms.map ds.find? := hvs ▸ List.mem_map_of_mem hd
    obtain ⟨i, hi, hid⟩ := List.mem_map.mp hmem
    exact h i hi _ (by rw [Decisions.verdict?, hid]; rfl)

/-- A `var` statement none of whose members is lowered has no edit. -/
theorem statementEdit_none {t : Table} {o : Options} {e : StatementEntry}
    (hne : e.members ≠ []) (hk : e.statement.keyword = .varWord)
    (hin : ∀ i ∈ e.members, ∃ b, t.bindings[i]? = some b)
    (h : ∀ i ∈ e.members, ∀ v, (classify t o).verdict? i = some v → v = .keep) :
    statementEdit t (classify t o) e = .ok none := by
  obtain ⟨found, hf⟩ := memberDecisions_classify (o := o) hin
  unfold statementEdit
  rw [hf]
  cases found with
  | none => rfl
  | some vs =>
    have hkeys : (vs.map (·.keyword)).eraseDups = [.varWord] :=
      keywords_of_members hne (memberDecisions_some hf) fun i hi v hv =>
        Verdict.keyword_eq_var.mpr (h i hi v hv)
    simp only [hkeys, hk, if_true]

/-! ### Whole plans -/

theorem mapM_ok {α β ε : Type} {f : α → Except ε β} {xs : List α} {ys : List β}
    (h : xs.mapM f = .ok ys) : xs.map f = ys.map .ok := by
  induction xs generalizing ys with
  | nil => cases h; rfl
  | cons x xs ih =>
    rw [List.mapM_cons] at h
    cases hx : f x with
    | error e => rw [hx] at h; cases h
    | ok y =>
      rw [hx] at h
      cases hxs : xs.mapM f with
      | error e => rw [hxs] at h; cases h
      | ok zs =>
        rw [hxs] at h
        cases h
        rw [List.map_cons, hx, ih hxs, List.map_cons]

theorem mapM_of_forall {α β ε : Type} {f : α → Except ε β} {xs : List α} {y : β}
    (h : ∀ x ∈ xs, f x = .ok y) : xs.mapM f = .ok (xs.map fun _ => y) := by
  induction xs with
  | nil => rfl
  | cons x xs ih =>
    rw [List.mapM_cons, h x List.mem_cons_self, ih fun z hz => h z (List.mem_cons_of_mem _ hz)]
    rfl

/-- A plan that comes out has an answer for every statement. -/
theorem exists_edit_of_emitPlan {t : Table} {ds : Decisions} {plan : List Edit}
    (h : emitPlan t ds = .ok plan) {e : StatementEntry} (he : e ∈ t.statements) :
    ∃ r, statementEdit t ds e = .ok r := by
  unfold emitPlan at h
  split at h
  · cases h
  · cases hm : t.statements.mapM (statementEdit t ds) with
    | error x => rw [hm] at h; cases h
    | ok edits =>
      have hmem := List.mem_map_of_mem (f := statementEdit t ds) he
      rw [mapM_ok hm] at hmem
      obtain ⟨r, _, hr⟩ := List.mem_map.mp hmem
      exact ⟨r, hr.symm⟩

/-- The edit of a statement, where there is one. -/
def editOf? (t : Table) (ds : Decisions) (e : StatementEntry) : Option Edit :=
  (statementEdit t ds e).toOption.join

theorem editOf?_eq {t : Table} {ds : Decisions} {e : StatementEntry} {r : Option Edit}
    (h : statementEdit t ds e = .ok r) : editOf? t ds e = r := by
  unfold editOf?
  rw [h]
  rfl

theorem filterMap_edits {t : Table} {ds : Decisions} {edits : List (Option Edit)}
    (h : t.statements.mapM (statementEdit t ds) = .ok edits) :
    edits.filterMap id = t.statements.filterMap (editOf? t ds) := by
  have hmap : t.statements.filterMap (editOf? t ds) =
      (t.statements.map (statementEdit t ds)).filterMap (·.toOption.join) := by
    rw [List.filterMap_map]
    rfl
  rw [hmap, mapM_ok h, List.filterMap_map]
  rfl

/-- A plan is the sorted edits of the statements, and no two neighbours overlap. -/
theorem emitPlan_ok {t : Table} {ds : Decisions} {plan : List Edit} (h : emitPlan t ds = .ok plan) :
    plan = (t.statements.filterMap (editOf? t ds)).mergeSort Edit.isOrdered ∧
      firstOverlap plan = none := by
  unfold emitPlan at h
  split at h
  · cases h
  · cases hm : t.statements.mapM (statementEdit t ds) with
    | error x => rw [hm] at h; cases h
    | ok edits =>
      simp only [hm] at h
      split at h
      · cases h
      · rename_i hover
        cases h
        exact ⟨by rw [filterMap_edits hm], hover⟩

theorem Statement.keywordSpan_left_lt_right (s : Statement) :
    s.keywordSpan.left < s.keywordSpan.right := by
  have hlen : 0 < s.keyword.length := by cases s.keyword <;> decide
  show s.span.left < s.span.left + s.keyword.length
  omega

/-- Edits that do not overlap stand at different places. -/
theorem lefts_increasing {plan : List Edit} (h : firstOverlap plan = none)
    (hs : ∀ e ∈ plan, e.span.left < e.span.right) :
    plan.Pairwise fun a b => a.span.left < b.span.left := by
  induction plan with
  | nil => exact .nil
  | cons a rest ih =>
    cases rest with
    | nil => exact List.pairwise_singleton _ a
    | cons b rest =>
      unfold firstOverlap at h
      split at h
      · cases h
      · rename_i hab
        have ha := hs a List.mem_cons_self
        have hrest := ih h fun e he => hs e (List.mem_cons_of_mem _ he)
        refine .cons (fun e he => ?_) hrest
        rcases List.mem_cons.mp he with rfl | he
        · omega
        · have hbe := List.rel_of_pairwise_cons hrest he
          omega

theorem Edit.isOrdered_trans (a b c : Edit) (h : a.isOrdered b = true) (h' : b.isOrdered c = true) :
    a.isOrdered c = true := by
  simp only [isOrdered, Bool.or_eq_true, Bool.and_eq_true, decide_eq_true_eq, beq_iff_eq] at *
  omega

theorem Edit.isOrdered_total (a b : Edit) : (a.isOrdered b || b.isOrdered a) = true := by
  simp only [isOrdered, Bool.or_eq_true, Bool.and_eq_true, decide_eq_true_eq, beq_iff_eq]
  omega

/-- Sorting edits that stand at different places can wait until some of them are left out. -/
theorem mergeSort_filter {edits : List Edit}
    (h : (edits.mergeSort Edit.isOrdered).Pairwise fun a b => a.span.left < b.span.left)
    (p : Edit → Bool) :
    (edits.filter p).mergeSort Edit.isOrdered = (edits.mergeSort Edit.isOrdered).filter p := by
  have hperm : ((edits.filter p).mergeSort Edit.isOrdered).Perm
      ((edits.mergeSort Edit.isOrdered).filter p) :=
    (List.mergeSort_perm _ _).trans ((List.mergeSort_perm edits _).filter p).symm
  refine List.Perm.eq_of_pairwise (fun a b ha hb hab hba => ?_)
    (List.pairwise_mergeSort Edit.isOrdered_trans Edit.isOrdered_total _) ?_ hperm
  · -- two edits at one place are the same edit
    have hleft : a.span.left = b.span.left := by
      simp only [Edit.isOrdered, Bool.or_eq_true, Bool.and_eq_true, decide_eq_true_eq,
        beq_iff_eq] at hab hba
      omega
    obtain ⟨i, hi, rfl⟩ := List.getElem_of_mem (List.mem_filter.mp (hperm.subset ha)).1
    obtain ⟨j, hj, rfl⟩ := List.getElem_of_mem (List.mem_filter.mp hb).1
    have hlt := List.pairwise_iff_getElem.mp h
    rcases Nat.lt_trichotomy i j with hij | rfl | hij
    · have := hlt i j hi hj hij
      omega
    · rfl
    · have := hlt j i hj hi hij
      omega
  · refine (h.filter p).imp fun {a b} hab => ?_
    simp [Edit.isOrdered, hab]

/-- The plan is empty if no statement has an edit. -/
theorem emitPlan_nil {t : Table} {o : Options}
    (h : ∀ e ∈ t.statements, statementEdit t (classify t o) e = .ok none) :
    emitPlan t (classify t o) = .ok [] := by
  have hnone : ∀ n : List StatementEntry, (n.map fun _ => (none : Option Edit)).filterMap id = [] :=
    fun n => by simp
  unfold emitPlan
  split
  case h_1 i b hfind =>
    -- every candidate has a decision
    have hmem := List.mem_of_find?_eq_some hfind
    have hundecided := List.find?_some hfind
    obtain ⟨hb, hc⟩ := List.mem_filter.mp hmem
    obtain ⟨d, hd⟩ := (classify_find?_isSome (o := o)).mpr ⟨b, Table.mem_numbered.mp hb, hc⟩
    simp [hd] at hundecided
  case h_2 =>
    rw [mapM_of_forall h]
    simp only [hnone, List.mergeSort_nil]
    rfl

/-! ### Whole analyses -/

theorem exists_ok_of_any {ε α : Type} {r : Except ε α} {p : α → Bool}
    (h : r.toOption.any p = true) : ∃ a, r = .ok a ∧ p a = true := by
  cases r with
  | error _ => cases h
  | ok a => exact ⟨a, rfl, h⟩

theorem Scoping.ofScript_ok {script : Node} {s : Scoping} (h : Scoping.ofScript script = .ok s) :
    ∃ d : Draft, Draft.steps {} (Event.ofScript script) = .ok d ∧ s = d.finish := by
  cases script with
  | program xs t =>
    unfold Scoping.ofScript at h
    simp only at h
    cases hd : Draft.steps {} (Event.ofScript (.program xs t)) with
    | error f => rw [hd] at h; cases h
    | ok d => rw [hd] at h; cases h; exact ⟨d, rfl, rfl⟩
  | _ => cases h

theorem Analysis.ofScript_ok {script : Node} {o : Options} {a : Analysis}
    (h : Analysis.ofScript script o = .ok a) :
    ∃ s : Scoping, Scoping.ofScript script = .ok s ∧ a.scoping = s.withCaptures ∧
      a.decisions = classify a.table o ∧ emitPlan a.table a.decisions = .ok a.edits := by
  unfold Analysis.ofScript at h
  cases hs : Scoping.ofScript script with
  | error f => rw [hs] at h; cases h
  | ok s =>
    simp only [hs] at h
    cases hp : emitPlan s.withCaptures.table (classify s.withCaptures.table o) with
    | error x => rw [hp] at h; cases h
    | ok edits =>
      rw [hp] at h
      cases h
      exact ⟨s, rfl, rfl, rfl, hp⟩

end ScopeLowering
