import ScopeLowering.Proofs.Planning

/-!
# The greatest coherent verdicts

The members of a statement share its keyword. Verdicts are *coherent* if every statement can follow
them: a statement with a member that is kept, or that has no verdict, keeps all its members, and the
members of any other statement have one verdict. The decisions on a table are the greatest coherent
verdicts below the decisions on each binding by itself (`classify_greatest_coherent`): reconciling
gives up no more than a keyword per statement takes, and the order of the statements is of no
account.

## The model

Reconciling a statement with which some coherent verdicts agree never goes below them
(`Assignment.Below.reconcile`), so the passes never do. What the passes end with is coherent, since
a last pass changed nothing (`coherent_of_fixed`). Along the way a decision is its binding's own or
a demotion of it (`Decision.Demotes`), and its verdict says which.
-/

namespace ScopeLowering

/-! ### The order of verdicts -/

/-- To keep is least, to make constant is most. -/
instance : LE Verdict := ⟨fun v w => v.rank ≤ w.rank⟩

namespace Verdict

theorem le_refl (v : Verdict) : v ≤ v := Nat.le_refl v.rank

theorem le_trans {u v w : Verdict} (h : u ≤ v) (h' : v ≤ w) : u ≤ w :=
  Nat.le_trans (m := v.rank) h h'

theorem rank_inj {v w : Verdict} (h : v.rank = w.rank) : v = w := by
  revert h
  cases v <;> cases w <;> decide

theorem le_antisymm {v w : Verdict} (h : v ≤ w) (h' : w ≤ v) : v = w :=
  rank_inj (Nat.le_antisymm h h')

theorem keep_le (v : Verdict) : keep ≤ v := Nat.zero_le v.rank

theorem eq_keep_of_le {v : Verdict} (h : v ≤ keep) : v = keep := le_antisymm h v.keep_le

theorem le_const (v : Verdict) : v ≤ toBlockConst := v.rank_le

theorem eq_const_of_le {v : Verdict} (h : toBlockConst ≤ v) : v = toBlockConst :=
  le_antisymm v.le_const h

theorem le_let_of_ne {v : Verdict} (h : v ≠ toBlockConst) : v ≤ toBlockLet := by
  have hne : v.rank ≠ 2 := fun he => h (rank_inj he)
  have hle := v.rank_le
  show v.rank ≤ 1
  omega

end Verdict

/-! ### Coherent verdicts -/

/-- Verdicts on some of the bindings. -/
abbrev Assignment := BindingId → Option Verdict

namespace Assignment

/-- The binding has no verdict, or it is kept. -/
def Keeps (v : Assignment) (i : BindingId) : Prop := v i = none ∨ v i = some .keep

/-- A statement can follow the verdicts on its members. -/
structure AgreesOn (v : Assignment) (e : StatementEntry) : Prop where
  /-- One member that is not lowered keeps them all. -/
  kept : ∀ j ∈ e.members, v.Keeps j → ∀ i ∈ e.members, ∀ x, v i = some x → x = .keep
  /-- Members that are all lowered are lowered alike. -/
  same : (∀ j ∈ e.members, ¬ v.Keeps j) → ∀ i ∈ e.members, ∀ j ∈ e.members, v i = v j

theorem AgreesOn.congr {v w : Assignment} {e : StatementEntry} (h : v.AgreesOn e)
    (hw : ∀ i ∈ e.members, w i = v i) : w.AgreesOn e := by
  have hk : ∀ i ∈ e.members, w.Keeps i → v.Keeps i := by
    intro i hi hk
    rwa [Keeps, hw i hi] at hk
  refine ⟨fun j hj hkj i hi x hx => ?_, fun hnone i hi j hj => ?_⟩
  · exact h.kept j hj (hk j hj hkj) i hi x ((hw i hi).symm.trans hx)
  · rw [hw i hi, hw j hj]
    exact h.same (fun k hkm hkk => hnone k hkm (by rwa [Keeps, hw k hkm])) i hi j hj

/-- Every statement of a table can follow the verdicts. -/
def Coherent (v : Assignment) (t : Table) : Prop := ∀ e ∈ t.statements, v.AgreesOn e

/-- No verdict is above the other one on its binding. -/
def Below (v w : Assignment) : Prop := ∀ i x, v i = some x → ∃ y, w i = some y ∧ x ≤ y

theorem Below.trans {u v w : Assignment} (h : u.Below v) (h' : v.Below w) : u.Below w := by
  intro i x hx
  obtain ⟨y, hy, hxy⟩ := h i x hx
  obtain ⟨z, hz, hyz⟩ := h' i y hy
  exact ⟨z, hz, Verdict.le_trans hxy hyz⟩

theorem Below.antisymm {v w : Assignment} (h : v.Below w) (h' : w.Below v) : v = w := by
  funext i
  cases hv : v i with
  | none =>
    cases hw : w i with
    | none => rfl
    | some y =>
      obtain ⟨x, hx, _⟩ := h' i y hw
      rw [hv] at hx
      cases hx
  | some x =>
    obtain ⟨y, hy, hxy⟩ := h i x hv
    obtain ⟨x', hx', hyx⟩ := h' i y hy
    rw [hv] at hx'
    cases hx'
    rw [hy, Verdict.le_antisymm hxy hyx]

theorem Below.keeps {v w : Assignment} (h : v.Below w) {i : BindingId} (hw : w.Keeps i) :
    v.Keeps i := by
  cases hv : v i with
  | none => exact .inl hv
  | some x =>
    obtain ⟨y, hy, hxy⟩ := h i x hv
    rcases hw with hn | hk
    · rw [hy] at hn
      cases hn
    · rw [hy] at hk
      cases hk
      exact .inr (by rw [hv, Verdict.eq_keep_of_le hxy])

end Assignment

/-! ### One statement never goes below coherent verdicts -/

/-- Members that are all constant already share a verdict. -/
theorem exists_of_common_let {ds : Decisions} {e : StatementEntry}
    (h : ds.common? e = some .toBlockLet) :
    ∃ j ∈ e.members, ds.verdict? j ≠ some .toBlockConst := by
  refine Classical.byContradiction fun hno => ?_
  have hall : ∀ v ∈ e.members.map ds.verdict?, v = some .toBlockConst := by
    intro v hv
    obtain ⟨j, hj, rfl⟩ := List.mem_map.mp hv
    exact Decidable.not_not.mp fun hne => hno ⟨j, hj, hne⟩
  unfold Decisions.common? commonVerdict at h
  split at h
  · cases h
  · split at h
    · rename_i hlen
      by_cases hnil : e.members.map ds.verdict? = []
      · simp [hnil] at hlen
      · simp [eraseDups_of_forall hnil hall] at hlen
    · cases h

theorem Assignment.Below.reconcile {v : Assignment} {ds : Decisions} {e : StatementEntry}
    (h : v.Below ds.verdict?) (hv : v.AgreesOn e) : v.Below (reconcile ds e).verdict? := by
  intro i x hx
  obtain ⟨y, hy, hxy⟩ := h i x hx
  obtain ⟨d, hd, rfl⟩ := Option.map_eq_some_iff.mp hy
  have hfind := (reconcile_spec ds e).2 i
  cases hc : ds.common? e with
  | none =>
    refine ⟨d.verdict, ?_, hxy⟩
    simp only [hc] at hfind
    rw [Decisions.verdict?, hfind, hd, Option.map_some]
  | some target =>
    simp only [hc, hd, Option.map_some] at hfind
    by_cases hi : i ∈ e.members
    · rw [if_pos hi] at hfind
      refine ⟨(d.settle target).verdict, by rw [Decisions.verdict?, hfind, Option.map_some], ?_⟩
      rcases d.settle_cases target with hs | ⟨_, _, hs⟩
      · rw [hs]
        exact hxy
      · rw [hs]
        -- the member is lowered: some other member holds the verdicts down as well
        cases target with
        | keep =>
          obtain ⟨j, hj, hk⟩ := exists_of_common_keep hc
          rw [hv.kept j hj (h.keeps hk) i hi x hx]
          exact Verdict.le_refl _
        | toBlockLet =>
          obtain ⟨j, hj, hne⟩ := exists_of_common_let hc
          refine Verdict.le_let_of_ne fun hconst => hne ?_
          have hnone : ∀ k ∈ e.members, ¬ v.Keeps k := by
            intro k hk hkeep
            have := hv.kept k hk hkeep i hi x hx
            rw [hconst] at this
            cases this
          have hvj : v j = some .toBlockConst := by rw [← hv.same hnone i hi j hj, hx, hconst]
          obtain ⟨z, hz, hle⟩ := h j _ hvj
          rw [hz, Verdict.eq_const_of_le hle]
        | toBlockConst => exact absurd rfl (commonVerdict_ne_const hc)
    · rw [if_neg hi] at hfind
      exact ⟨d.verdict, by rw [Decisions.verdict?, hfind, Option.map_some], hxy⟩

/-! ### What the passes end with -/

theorem verdict?_eq_of_common_none {ds : Decisions} {e : StatementEntry} (h : ds.common? e = none)
    {i j : BindingId} (hi : i ∈ e.members) (hj : j ∈ e.members) :
    ds.verdict? i = ds.verdict? j := by
  unfold Decisions.common? commonVerdict at h
  split at h
  · cases h
  · split at h
    · cases h
    · rename_i hlen
      have hmem : ∀ k ∈ e.members, ds.verdict? k ∈ (e.members.map ds.verdict?).eraseDups :=
        fun k hk => List.mem_eraseDups.mpr (List.mem_map_of_mem hk)
      have hi' := hmem i hi
      have hj' := hmem j hj
      obtain ⟨v, hv⟩ : ∃ v, (e.members.map ds.verdict?).eraseDups = [v] :=
        List.length_eq_one_iff.mp (by have := List.length_pos_of_mem hi'; omega)
      rw [hv] at hi' hj'
      rw [List.mem_singleton.mp hi', List.mem_singleton.mp hj']

/-- Decisions that no pass changes are coherent. -/
theorem coherent_of_fixed {t : Table} {ds : Decisions} (h : t.statements.foldl reconcile ds = ds) :
    Assignment.Coherent ds.verdict? t := by
  intro e he
  refine ⟨fun j hj hk i hi x hx => keep_of_fixed h he hi hj hk hx, fun hnone i hi j hj => ?_⟩
  cases hc : ds.common? e with
  | none => exact verdict?_eq_of_common_none hc hi hj
  | some target =>
    have hall : ∀ k ∈ e.members, ds.verdict? k = some target := by
      intro k hk
      cases hv : ds.verdict? k with
      | none => exact absurd (.inl hv) (hnone k hk)
      | some x =>
        rcases verdict_of_fixed h he hc hk hv with rfl | rfl
        · rfl
        · exact absurd (.inr hv) (hnone k hk)
    rw [hall i hi, hall j hj]

theorem Decisions.Lowers.below {ds ds' : Decisions} (h : ds.Lowers ds') :
    Assignment.Below ds'.verdict? ds.verdict? := by
  intro i x hx
  obtain ⟨d', hd', rfl⟩ := Option.map_eq_some_iff.mp hx
  rcases h.found i with he | ⟨d, e, hd, he, hr⟩
  · refine ⟨d'.verdict, ?_, Verdict.le_refl _⟩
    rw [Decisions.verdict?, ← he, hd', Option.map_some]
  · rw [hd'] at he
    cases he
    exact ⟨d.verdict, by rw [Decisions.verdict?, hd, Option.map_some], Nat.le_of_lt hr⟩

theorem classify_coherent (t : Table) (o : Options) :
    Assignment.Coherent (classify t o).verdict? t :=
  coherent_of_fixed (classify_fixed t o)

theorem classify_below (t : Table) (o : Options) :
    Assignment.Below (classify t o).verdict? (decideEach t o).verdict? :=
  (classify_lowers t o).below

/-- Coherent verdicts below the bindings' own are below the final ones. -/
theorem below_classify {t : Table} {o : Options} {v : Assignment} (hc : v.Coherent t)
    (hv : v.Below (decideEach t o).verdict?) : v.Below (classify t o).verdict? :=
  reconcileAll_invariant (P := fun ds => v.Below ds.verdict?)
    (fun _ h e he => h.reconcile (hc e he)) _ hv

/-! ### Reasons -/

/-- The second decision is the first, or a demotion of it for the sake of a shared statement. -/
def Decision.Demotes (d d' : Decision) : Prop :=
  d' = d ∨ ∃ v : Verdict, v.rank < d.verdict.rank ∧ d' = d.demote v .sharedDeclaration

namespace Decision.Demotes

variable {d d' : Decision}

theorem settle (h : d.Demotes d') {target : Verdict} (ht : target ≠ .toBlockConst) :
    d.Demotes (d'.settle target) := by
  unfold Decision.settle
  split
  · rename_i hs
    have hlt : target.rank < d'.verdict.rank := by
      obtain ⟨hne, hk⟩ := hs
      revert ht hne hk
      cases d'.verdict <;> cases target <;> decide
    obtain rfl | ⟨v, hv, rfl⟩ := h
    · exact .inr ⟨target, hlt, rfl⟩
    · refine .inr ⟨target, Nat.lt_trans hlt hv, ?_⟩
      have hk : v ≠ .keep := hs.2
      simp only [Decision.demote, if_neg hk]
  · exact h

/-- A demotion is known by its verdict. -/
theorem eq_of_verdict {e : Decision} (h : d.Demotes d') (he : d.Demotes e)
    (hv : d'.verdict = e.verdict) : d' = e := by
  obtain rfl | ⟨v, hlt, rfl⟩ := h <;> obtain rfl | ⟨w, hlt', rfl⟩ := he
  · rfl
  · rw [hv] at hlt'
    exact absurd hlt' (Nat.lt_irrefl _)
  · rw [← hv] at hlt
    exact absurd hlt (Nat.lt_irrefl _)
  · obtain rfl : v = w := hv
    rfl

theorem reason_iff (h : d.Demotes d') (hr : d.reason ≠ .sharedDeclaration) :
    d'.reason = .sharedDeclaration ↔ d'.verdict ≠ d.verdict := by
  obtain rfl | ⟨v, hlt, rfl⟩ := h
  · exact ⟨fun he => absurd he hr, fun hne => absurd rfl hne⟩
  · exact ⟨fun _ he => absurd hlt (by rw [← he]; exact Nat.lt_irrefl _), fun _ => rfl⟩

end Decision.Demotes

/-- A binding by itself has other reasons. -/
theorem Binding.decision_reason_ne (b : Binding) (o : Options) :
    (b.decision o).reason ≠ .sharedDeclaration := by
  unfold decision
  simp only
  split
  · simp
  · split
    · simp
    · split
      · simp
      · split <;> simp

theorem classify_demotes {t : Table} {o : Options} {i : BindingId} {b : Binding}
    (hb : t.bindings[i]? = some b) (hc : b.isCandidate = true) :
    ∃ d, (classify t o).find? i = some d ∧ (b.decision o).Demotes d := by
  refine reconcileAll_invariant
    (P := fun ds => ∃ d, ds.find? i = some d ∧ (b.decision o).Demotes d) ?_ _
    ⟨b.decision o, decideEach_find? t o hb hc, .inl rfl⟩
  rintro ds ⟨d, hd, hdem⟩ e _
  have hfind := (reconcile_spec ds e).2 i
  cases ht : ds.common? e with
  | none =>
    simp only [ht] at hfind
    exact ⟨d, hfind.trans hd, hdem⟩
  | some target =>
    simp only [ht, hd, Option.map_some] at hfind
    split at hfind
    · exact ⟨_, hfind, hdem.settle (commonVerdict_ne_const ht)⟩
    · exact ⟨d, hfind, hdem⟩

/-! ### The order of the statements -/

theorem Decisions.ext_find? {ds ds' : Decisions} (hn : ds.keys.Nodup) (hk : ds'.keys = ds.keys)
    (h : ∀ i, ds'.find? i = ds.find? i) : ds' = ds :=
  (Decisions.Lowers.rank_lt hn ⟨hk, fun i => .inl (h i)⟩).resolve_right fun hr =>
    absurd (Decisions.Lowers.rank_lt (hk ▸ hn) ⟨hk.symm, fun i => .inl (h i).symm⟩) (by
      rintro (rfl | hr')
      · exact Nat.lt_irrefl _ hr
      · exact Nat.lt_asymm hr hr')

theorem classify_congr_statements {t : Table} {o : Options} {es : List StatementEntry}
    (h : ∀ e, e ∈ es ↔ e ∈ t.statements) :
    classify { t with statements := es } o = classify t o := by
  have hverdict : (classify { t with statements := es } o).verdict? = (classify t o).verdict? := by
    refine Assignment.Below.antisymm (below_classify (fun e he => ?_) (classify_below _ o))
      (below_classify (fun e he => ?_) (classify_below t o))
    · exact classify_coherent { t with statements := es } o e ((h e).mpr he)
    · exact classify_coherent t o e ((h e).mp he)
  have hlow := classify_lowers { t with statements := es } o
  have hlow' := classify_lowers t o
  refine Decisions.ext_find? (hlow'.keys ▸ decideEach_nodup t o) (hlow.keys.trans hlow'.keys.symm)
    fun i => ?_
  by_cases hcand : t.IsCandidate i
  · obtain ⟨b, hb, hc⟩ := hcand
    obtain ⟨d, hd, hdem⟩ := classify_demotes (t := t) (o := o) hb hc
    obtain ⟨d', hd', hdem'⟩ := classify_demotes (t := { t with statements := es }) (o := o) hb hc
    have hv := congrFun hverdict i
    rw [Decisions.verdict?, Decisions.verdict?, hd, hd'] at hv
    rw [hd, hd', hdem'.eq_of_verdict hdem (Option.some.inj hv)]
  · have hnone : ∀ t' : Table, ¬ t'.IsCandidate i → (classify t' o).find? i = none := by
      intro t' hn
      cases hf : (classify t' o).find? i with
      | none => rfl
      | some d => exact absurd (classify_find?_isSome.mp ⟨d, hf⟩) hn
    rw [hnone t hcand, hnone { t with statements := es } hcand]

/-! ### The result -/

/-- **The decisions on a table are the greatest coherent ones.** Passes over the statements come to
an end, and with these decisions. They are there for the candidates and for nothing else, they are
coherent, and each is at most the binding's own; coherent verdicts that are also at most the
bindings' own, whichever bindings they are on, are at most these. A decision names the shared
statement as its reason just where it is not the binding's own, and the statements may come in any
order. -/
theorem classify_greatest_coherent (t : Table) (o : Options) :
    Settles t.statements (decideEach t o) (classify t o) ∧
    (∀ i, (∃ d, (classify t o).find? i = some d) ↔ t.IsCandidate i) ∧
    Assignment.Coherent (classify t o).verdict? t ∧
    Assignment.Below (classify t o).verdict? (decideEach t o).verdict? ∧
    (∀ v : Assignment, v.Coherent t → v.Below (decideEach t o).verdict? →
      v.Below (classify t o).verdict?) ∧
    (∀ i b, t.bindings[i]? = some b → b.isCandidate = true →
      ∃ d, (classify t o).find? i = some d ∧
        (d.reason = .sharedDeclaration ↔ d.verdict ≠ (b.decision o).verdict)) ∧
    ∀ es : List StatementEntry, es.Perm t.statements →
      classify { t with statements := es } o = classify t o := by
  refine ⟨classify_settles t o, fun i => classify_find?_isSome, classify_coherent t o,
    classify_below t o, fun v => below_classify, fun i b hb hc => ?_, fun es hes => ?_⟩
  · obtain ⟨d, hd, hdem⟩ := classify_demotes (o := o) hb hc
    exact ⟨d, hd, hdem.reason_iff (b.decision_reason_ne o)⟩
  · exact classify_congr_statements fun e => hes.mem_iff

end ScopeLowering
