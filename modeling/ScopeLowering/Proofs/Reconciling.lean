import ScopeLowering.Scope.Decision

/-!
# What reconciling comes to

Statements are reconciled one after the other, again and again, until nothing changes. This module
shows that the passes suffice, and says which bindings are kept in the end without speaking of
passes: those that are *forced*, because they are kept by themselves, or share a statement with a
binding that has no decision, or with one that is forced (`verdict_keep_iff`).

## The model

A verdict can be lowered twice, from `toBlockConst` to `toBlockLet` to `keep`. A pass that changes
anything lowers some verdict, so the sum of the ranks falls with every pass but the last.
-/

namespace ScopeLowering

/-! ### Decisions by themselves -/

/-- A hazard that is not accepted keeps a `var` as it is. -/
def Binding.Blocked (b : Binding) (o : Options) : Prop :=
  (∃ x ∈ blockers, x ∈ b.hazards) ∨
    (.iterationSemanticsChange ∈ b.hazards ∧ o.allowLoopCaptureRebinding = false)

theorem Binding.decision_keep_iff {b : Binding} {o : Options} :
    (b.decision o).verdict = .keep ↔ b.Blocked o := by
  unfold decision Blocked
  simp only
  split
  · rename_i x hx
    refine ⟨fun _ => .inl ⟨x, List.mem_of_find?_eq_some hx, ?_⟩, fun _ => rfl⟩
    exact List.contains_iff_mem.mp (List.find?_some hx)
  · rename_i hx
    have hnone : ¬ ∃ x ∈ blockers, x ∈ b.hazards := by
      rintro ⟨x, hx', hb⟩
      exact List.find?_eq_none.mp hx x hx' (List.contains_iff_mem.mpr hb)
    split
    · rename_i hi
      rw [Bool.and_eq_true, Bool.not_eq_true'] at hi
      exact ⟨fun _ => .inr ⟨List.contains_iff_mem.mp hi.1, hi.2⟩, fun _ => rfl⟩
    · rename_i hi
      refine ⟨fun hv => ?_, ?_⟩
      · split at hv
        · cases hv
        · split at hv <;> cases hv
      · rintro (hb | ⟨hm, ha⟩)
        · exact absurd hb hnone
        · refine absurd ?_ hi
          rw [List.contains_iff_mem.mpr hm, ha]
          rfl

/-- Only what is initialized and never assigned becomes constant. -/
theorem Binding.decision_const {b : Binding} {o : Options}
    (h : (b.decision o).verdict = .toBlockConst) :
    b.isReassigned = false ∧ b.first.isInitialized = true := by
  unfold decision at h
  simp only at h
  split at h
  · cases h
  · split at h
    · cases h
    · split at h
      · cases h
      · rename_i hr
        split at h
        · cases h
        · rename_i hi
          rw [Bool.not_eq_true] at hr
          rw [Bool.not_eq_true, Bool.not_eq_false'] at hi
          exact ⟨hr, hi⟩

/-! ### Ranks -/

/-- How often a verdict can still be lowered. -/
def Verdict.rank : Verdict → Nat
  | toBlockConst => 2
  | toBlockLet => 1
  | keep => 0

theorem Verdict.rank_le (v : Verdict) : v.rank ≤ 2 := by cases v <;> decide

namespace Decisions

/-! ### Finding decisions -/

/-- The numbers of the bindings with a decision. -/
def keys (ds : Decisions) : List BindingId := ds.map (·.1)

theorem find?_cons (id : BindingId) (d : Decision) (ds : Decisions) (i : BindingId) :
    Decisions.find? ((id, d) :: ds) i = if i = id then some d else ds.find? i := by
  unfold find?
  rw [List.lookup_cons]
  by_cases h : i = id
  · rw [if_pos h, beq_iff_eq.mpr h]
  · rw [if_neg h, beq_false_of_ne h]

theorem mem_of_find? {ds : Decisions} {i : BindingId} {d : Decision} (h : ds.find? i = some d) :
    (i, d) ∈ ds := by
  induction ds with
  | nil => cases h
  | cons x ds ih =>
    obtain ⟨id, e⟩ := x
    rw [find?_cons] at h
    split at h
    · rename_i hi
      cases h
      rw [hi]
      exact List.mem_cons_self
    · exact List.mem_cons_of_mem _ (ih h)

theorem find?_of_mem {ds : Decisions} (hn : ds.keys.Nodup) {i : BindingId} {d : Decision}
    (h : (i, d) ∈ ds) : ds.find? i = some d := by
  induction ds with
  | nil => cases h
  | cons x ds ih =>
    obtain ⟨id, e⟩ := x
    obtain ⟨hx, hrest⟩ := List.nodup_cons.mp hn
    rw [find?_cons]
    rcases List.mem_cons.mp h with he | hm
    · cases he
      rw [if_pos rfl]
    · have hi : i ∈ Decisions.keys ds := List.mem_map_of_mem (f := fun x => x.1) hm
      have hne : i ≠ id := fun he => hx (he ▸ hi)
      rw [if_neg hne, ih hrest hm]

theorem find?_eq_none {ds : Decisions} {i : BindingId} (h : i ∉ ds.keys) : ds.find? i = none := by
  cases hf : ds.find? i with
  | none => rfl
  | some d => exact absurd (List.mem_map_of_mem (mem_of_find? hf)) h

theorem replace_keys (ds : Decisions) (id : BindingId) (d : Decision) :
    (ds.replace id d).keys = ds.keys := by
  unfold keys replace
  rw [List.map_map]
  refine List.map_congr_left fun x _ => ?_
  obtain ⟨i, e⟩ := x
  show (if i == id then (i, d) else (i, e)).1 = i
  split <;> rfl

theorem replace_find? (ds : Decisions) (id : BindingId) (d : Decision) (i : BindingId) :
    (ds.replace id d).find? i = (ds.find? i).map fun e => if i = id then d else e := by
  induction ds with
  | nil => rfl
  | cons x ds ih =>
    obtain ⟨j, e⟩ := x
    have hc : Decisions.replace ((j, e) :: ds) id d =
        (j, if j = id then d else e) :: Decisions.replace ds id d := by
      show (if j == id then (j, d) else (j, e)) :: _ = _
      by_cases hj : j = id
      · rw [if_pos hj, if_pos (beq_iff_eq.mpr hj)]; rfl
      · rw [if_neg hj, if_neg (by rw [beq_iff_eq]; exact hj)]; rfl
    rw [hc, find?_cons, find?_cons, ih]
    by_cases hi : i = j
    · rw [if_pos hi, if_pos hi, Option.map_some, hi]
    · rw [if_neg hi, if_neg hi]

/-! ### Lowering -/

/-- The second decisions are the first with some verdicts lowered. -/
structure Lowers (ds ds' : Decisions) : Prop where
  keys : ds'.keys = ds.keys
  found : ∀ i, ds'.find? i = ds.find? i ∨ ∃ d d', ds.find? i = some d ∧ ds'.find? i = some d' ∧
    d'.verdict.rank < d.verdict.rank

namespace Lowers

theorem refl (ds : Decisions) : ds.Lowers ds := ⟨rfl, fun _ => .inl rfl⟩

theorem trans {a b c : Decisions} (h : a.Lowers b) (h' : b.Lowers c) : a.Lowers c := by
  refine ⟨h'.keys.trans h.keys, fun i => ?_⟩
  rcases h.found i with e | ⟨d, d', hd, hd', hr⟩
  · rw [← e]; exact h'.found i
  · rcases h'.found i with e' | ⟨x, x', hx, hx', hr'⟩
    · exact .inr ⟨d, d', hd, e'.trans hd', hr⟩
    · rw [hd'] at hx
      cases hx
      exact .inr ⟨d, x', hd, hx', Nat.lt_trans hr' hr⟩

theorem antisymm {a b : Decisions} (h : a.Lowers b) (h' : b.Lowers a) (i : BindingId) :
    b.find? i = a.find? i := by
  rcases h.found i with e | ⟨d, d', hd, hd', hr⟩
  · exact e
  · rcases h'.found i with e' | ⟨x, x', hx, hx', hr'⟩
    · exact e'.symm
    · rw [hd'] at hx
      rw [hd] at hx'
      cases hx
      cases hx'
      exact absurd hr' (Nat.lt_asymm hr)

end Lowers

/-- How many times the verdicts can still be lowered. -/
def rank (ds : Decisions) : Nat := ds.foldr (fun x n => x.2.verdict.rank + n) 0

theorem rank_cons (i : BindingId) (d : Decision) (ds : Decisions) :
    rank ((i, d) :: ds) = d.verdict.rank + ds.rank := rfl

theorem rank_le (ds : Decisions) : ds.rank ≤ 2 * ds.length := by
  induction ds with
  | nil => exact Nat.le_refl 0
  | cons x ds ih =>
    have hx := x.2.verdict.rank_le
    rw [rank_cons, List.length_cons]
    omega

/-- Lowering any verdict lowers the rank. -/
theorem Lowers.rank_lt {ds ds' : Decisions} (hn : ds.keys.Nodup) (h : ds.Lowers ds') :
    ds' = ds ∨ ds'.rank < ds.rank := by
  induction ds generalizing ds' with
  | nil => exact .inl (List.map_eq_nil_iff.mp h.keys)
  | cons x ds ih =>
    obtain ⟨i, d⟩ := x
    cases ds' with
    | nil => exact absurd h.keys (by simp [Decisions.keys])
    | cons x' ds' =>
      obtain ⟨i', d'⟩ := x'
      obtain ⟨hi, hk⟩ := List.cons.inj h.keys
      obtain ⟨hx, hrest⟩ := List.nodup_cons.mp hn
      obtain rfl : i' = i := hi
      have htail : Decisions.Lowers ds ds' := by
        refine ⟨hk, fun j => ?_⟩
        have hj := h.found j
        rw [find?_cons, find?_cons] at hj
        by_cases he : j = i'
        · have hx' : i' ∉ Decisions.keys ds' := by
            rw [Decisions.keys, hk]
            exact hx
          rw [he, find?_eq_none hx, find?_eq_none hx']
          exact .inl rfl
        · rw [if_neg he, if_neg he] at hj
          exact hj
      have hhead := h.found i'
      rw [find?_cons, find?_cons, if_pos rfl, if_pos rfl] at hhead
      rw [rank_cons, rank_cons]
      rcases ih hrest htail with rfl | hr
      · rcases hhead with e | ⟨x, x', hx, hx', hr⟩
        · cases e; exact .inl rfl
        · cases hx
          cases hx'
          exact .inr (by omega)
      · rcases hhead with e | ⟨x, x', hx, hx', hr'⟩
        · cases e; exact .inr (by omega)
        · cases hx
          cases hx'
          exact .inr (by omega)

end Decisions

/-! ### One statement -/

/-- A decision brought down to a common verdict. -/
def Decision.settle (target : Verdict) (d : Decision) : Decision :=
  if d.verdict ≠ target ∧ d.verdict ≠ .keep then d.demote target .sharedDeclaration else d

theorem Decision.settle_cases (target : Verdict) (d : Decision) :
    d.settle target = d ∨
      (d.verdict ≠ target ∧ d.verdict ≠ .keep ∧ (d.settle target).verdict = target) := by
  unfold settle
  split
  · exact .inr ⟨‹_ ∧ _›.1, ‹_ ∧ _›.2, rfl⟩
  · exact .inl rfl

theorem Decision.settle_verdict (target : Verdict) (d : Decision) :
    (d.settle target).verdict = target ∨ (d.settle target).verdict = .keep := by
  unfold settle
  split
  · exact .inl rfl
  · rename_i h
    by_cases ht : d.verdict = target
    · exact .inl ht
    · exact .inr (Decidable.not_not.mp fun hk => h ⟨ht, hk⟩)

namespace Decisions

/-- The verdict on a binding. -/
def verdict? (ds : Decisions) (i : BindingId) : Option Verdict := (ds.find? i).map (·.verdict)

/-- The verdict that the members of a statement must share. -/
def common? (ds : Decisions) (e : StatementEntry) : Option Verdict :=
  commonVerdict (e.members.map ds.verdict?)

/-- The decisions after one member is settled, given its decision before. -/
def settleOne (target : Verdict) (ds : Decisions) : BindingId × Option Decision → Decisions
  | (id, some d) =>
    if d.verdict ≠ target ∧ d.verdict ≠ .keep then
      ds.replace id (d.demote target .sharedDeclaration)
    else ds
  | (_, none) => ds

theorem settleOne_keys (target : Verdict) (ds : Decisions) (x : BindingId × Option Decision) :
    (ds.settleOne target x).keys = ds.keys := by
  unfold settleOne
  split
  · split
    · exact replace_keys ds _ _
    · rfl
  · rfl

theorem settleOne_find? {target : Verdict} {ds₀ ds : Decisions} {id : BindingId}
    (h : ds.find? id = ds₀.find? id ∨ ds.find? id = (ds₀.find? id).map (Decision.settle target))
    (i : BindingId) :
    (ds.settleOne target (id, ds₀.find? id)).find? i =
      if i = id then (ds₀.find? i).map (Decision.settle target) else ds.find? i := by
  cases hd : ds₀.find? id with
  | none =>
    rw [hd, Option.map_none, or_self] at h
    rw [settleOne]
    split
    · rename_i hi
      rw [hi, h, hd, Option.map_none]
    · rfl
  | some d =>
    rw [hd, Option.map_some] at h
    rw [settleOne]
    by_cases hc : d.verdict ≠ target ∧ d.verdict ≠ .keep
    · rw [if_pos hc, replace_find?]
      by_cases hi : i = id
      · rw [hi, hd, Option.map_some, Decision.settle, if_pos hc]
        rcases h with h | h <;> simp [h]
      · simp [hi]
    · have hs : d.settle target = d := if_neg hc
      rw [hs, or_self] at h
      rw [if_neg hc]
      by_cases hi : i = id
      · rw [if_pos hi, hi, h, hd, Option.map_some, hs]
      · rw [if_neg hi]

end Decisions

theorem reconcile_eq (ds : Decisions) (e : StatementEntry) :
    reconcile ds e =
      match ds.common? e with
      | none => ds
      | some target =>
        (e.members.map fun id => (id, ds.find? id)).foldl (Decisions.settleOne target) ds := by
  have hbefore : (e.members.map fun id => (id, ds.find? id)).map
      (fun x => x.2.map (·.verdict)) = e.members.map ds.verdict? := by
    rw [List.map_map]; rfl
  unfold reconcile Decisions.common?
  simp only [hbefore]
  cases commonVerdict (e.members.map ds.verdict?) with
  | none => rfl
  | some target =>
    refine congrArg (fun f => List.foldl f ds _) (funext fun ds => funext fun x => ?_)
    obtain ⟨id, d⟩ := x
    cases d <;> rfl

/-- Reconciling a statement touches its members only, each by itself. -/
theorem reconcile_spec (ds : Decisions) (e : StatementEntry) :
    (reconcile ds e).keys = ds.keys ∧ ∀ i, (reconcile ds e).find? i =
      match ds.common? e with
      | none => ds.find? i
      | some target =>
        if i ∈ e.members then (ds.find? i).map (Decision.settle target) else ds.find? i := by
  rw [reconcile_eq]
  cases ds.common? e with
  | none => exact ⟨rfl, fun _ => rfl⟩
  | some target =>
    -- a member that is listed twice is settled twice by its decision at the start
    have hfold : ∀ (ms : List BindingId) (ds' : Decisions), ds'.keys = ds.keys →
        (∀ i, ds'.find? i = ds.find? i ∨ ds'.find? i = (ds.find? i).map (Decision.settle target)) →
        ((ms.map fun id => (id, ds.find? id)).foldl (Decisions.settleOne target) ds').keys =
          ds.keys ∧
        ∀ i, ((ms.map fun id => (id, ds.find? id)).foldl (Decisions.settleOne target) ds').find? i =
          if i ∈ ms then (ds.find? i).map (Decision.settle target) else ds'.find? i := by
      intro ms
      induction ms with
      | nil => exact fun ds' hk _ => ⟨hk, fun i => by simp⟩
      | cons m ms ih =>
        intro ds' hk h
        have hone := Decisions.settleOne_find? (h m)
        obtain ⟨hkeys, hfind⟩ := ih (ds'.settleOne target (m, ds.find? m))
          ((Decisions.settleOne_keys target ds' _).trans hk) fun i => by
            rw [hone]
            split
            · exact .inr rfl
            · exact h i
        refine ⟨hkeys, fun i => ?_⟩
        rw [List.map_cons, List.foldl_cons, hfind, hone]
        by_cases hi : i ∈ ms
        · rw [if_pos hi, if_pos (List.mem_cons_of_mem m hi)]
        · rw [if_neg hi]
          simp only [List.mem_cons, hi, or_false]
    exact hfold e.members ds rfl fun _ => .inl rfl

/-- The common verdict, where there is one, is lower than those that are settled. -/
theorem commonVerdict_ne_const {vs : List (Option Verdict)} {target : Verdict}
    (h : commonVerdict vs = some target) : target ≠ .toBlockConst := by
  unfold commonVerdict at h
  split at h
  · cases h; decide
  · split at h
    · cases h; decide
    · cases h

theorem reconcile_lowers (ds : Decisions) (e : StatementEntry) : ds.Lowers (reconcile ds e) := by
  obtain ⟨hkeys, hfind⟩ := reconcile_spec ds e
  refine ⟨hkeys, fun i => ?_⟩
  rw [hfind]
  cases hc : ds.common? e with
  | none => exact .inl rfl
  | some target =>
    simp only
    split
    · cases hd : ds.find? i with
      | none => exact .inl rfl
      | some d =>
        rcases d.settle_cases target with hs | ⟨ht, hk, hs⟩
        · exact .inl (by rw [Option.map_some, hs])
        · refine .inr ⟨d, _, rfl, rfl, ?_⟩
          rw [hs]
          have hne := commonVerdict_ne_const hc
          revert ht hk hne
          cases d.verdict <;> cases target <;> decide
    · exact .inl rfl

/-! ### All statements -/

/-- What reconciling any of the statements preserves, all the passes preserve. -/
theorem reconcileAll_invariant {es : List StatementEntry} {P : Decisions → Prop}
    (hstep : ∀ ds, P ds → ∀ e ∈ es, P (reconcile ds e)) (passes : Nat) {ds : Decisions}
    (h : P ds) : P (reconcileAll es passes ds) := by
  induction passes generalizing ds with
  | zero => exact h
  | succ passes ih =>
    unfold reconcileAll
    simp only
    split
    · exact h
    · exact ih (List.foldlRecOn es reconcile h hstep)

theorem foldl_reconcile_lowers (es : List StatementEntry) (ds : Decisions) :
    ds.Lowers (es.foldl reconcile ds) :=
  List.foldlRecOn es reconcile (.refl ds) fun _ h e _ => h.trans (reconcile_lowers _ e)

theorem reconcileAll_lowers (es : List StatementEntry) (passes : Nat) (ds : Decisions) :
    ds.Lowers (reconcileAll es passes ds) :=
  reconcileAll_invariant (fun _ h e _ => h.trans (reconcile_lowers _ e)) passes (.refl ds)

/-- Passes over the statements, one after the other, up to the first that changes nothing. -/
inductive Settles (es : List StatementEntry) : Decisions → Decisions → Prop where
  /-- A pass changes nothing. -/
  | done {ds : Decisions} : es.foldl reconcile ds = ds → Settles es ds ds
  /-- A pass changes something. -/
  | again {ds ds' : Decisions} : es.foldl reconcile ds ≠ ds →
      Settles es (es.foldl reconcile ds) ds' → Settles es ds ds'

theorem Settles.fixed {es : List StatementEntry} {ds ds' : Decisions} (h : Settles es ds ds') :
    es.foldl reconcile ds' = ds' := by
  induction h with
  | done h => exact h
  | again _ _ ih => exact ih

/-- More passes than verdicts can be lowered leave nothing to do. -/
theorem settles_reconcileAll (es : List StatementEntry) {passes : Nat} {ds : Decisions}
    (hn : ds.keys.Nodup) (h : ds.rank < passes) : Settles es ds (reconcileAll es passes ds) := by
  induction passes generalizing ds with
  | zero => exact absurd h (Nat.not_lt_zero _)
  | succ passes ih =>
    have hl := foldl_reconcile_lowers es ds
    unfold reconcileAll
    simp only
    split
    · exact .done ‹_›
    · rename_i hne
      have hr := (hl.rank_lt hn).resolve_left hne
      exact .again hne (ih (hl.keys ▸ hn) (by omega))

/-- When a whole pass changes nothing, reconciling any statement changes nothing. -/
theorem find?_reconcile_of_fixed {es : List StatementEntry} {ds : Decisions}
    (h : es.foldl reconcile ds = ds) {e : StatementEntry} (he : e ∈ es) :
    ∃ ds' : Decisions, (∀ i, ds'.find? i = ds.find? i) ∧
      ∀ i, (reconcile ds' e).find? i = ds.find? i := by
  have hall : ∀ (es : List StatementEntry) (m : Decisions), ds.Lowers m →
      es.foldl reconcile m = ds → e ∈ es → ∃ ds' : Decisions,
        (∀ i, ds'.find? i = ds.find? i) ∧ ∀ i, (reconcile ds' e).find? i = ds.find? i := by
    intro es
    induction es with
    | nil => exact fun m _ _ he => by cases he
    | cons x es ih =>
      intro m hm hf he
      have hx := reconcile_lowers m x
      have hback : (reconcile m x).Lowers ds := hf ▸ foldl_reconcile_lowers es (reconcile m x)
      rcases List.mem_cons.mp he with rfl | he
      · exact ⟨m, hm.antisymm (hx.trans hback), (hm.trans hx).antisymm hback⟩
      · exact ih _ (hm.trans hx) hf he
  exact hall es ds (.refl ds) h he

/-- In the end a statement whose members must share a verdict has them at it, or kept. -/
theorem verdict_of_fixed {es : List StatementEntry} {ds : Decisions}
    (h : es.foldl reconcile ds = ds) {e : StatementEntry} (he : e ∈ es) {target : Verdict}
    (hc : ds.common? e = some target) {i : BindingId} (hi : i ∈ e.members) {v : Verdict}
    (hv : ds.verdict? i = some v) : v = target ∨ v = .keep := by
  obtain ⟨m, hm, hr⟩ := find?_reconcile_of_fixed h he
  have hverdict : m.verdict? = ds.verdict? := by
    funext i
    rw [Decisions.verdict?, hm, Decisions.verdict?]
  have hcommon : m.common? e = some target := by
    rw [Decisions.common?, hverdict]
    exact hc
  obtain ⟨d, hd, rfl⟩ := Option.map_eq_some_iff.mp hv
  have hfind := (reconcile_spec m e).2 i
  simp only [hr, hcommon, if_pos hi, hm, hd, Option.map_some, Option.some.injEq] at hfind
  rw [hfind]
  exact d.settle_verdict target

theorem common?_keep {ds : Decisions} {e : StatementEntry} {j : BindingId} (hj : j ∈ e.members)
    (hv : ds.verdict? j = none ∨ ds.verdict? j = some .keep) : ds.common? e = some .keep := by
  unfold Decisions.common? commonVerdict
  rw [if_pos]
  refine List.any_eq_true.mpr ⟨ds.verdict? j, List.mem_map_of_mem hj, ?_⟩
  rcases hv with hv | hv <;> rw [hv] <;> rfl

/-- In the end a statement with a member that is kept, or has no decision, keeps them all. -/
theorem keep_of_fixed {es : List StatementEntry} {ds : Decisions} (h : es.foldl reconcile ds = ds)
    {e : StatementEntry} (he : e ∈ es) {i j : BindingId} (hi : i ∈ e.members) (hj : j ∈ e.members)
    (hv : ds.verdict? j = none ∨ ds.verdict? j = some .keep) {v : Verdict}
    (hiv : ds.verdict? i = some v) : v = .keep :=
  (verdict_of_fixed h he (common?_keep hj hv) hi hiv).elim id id

/-! ### The decisions on a table -/

theorem Table.mem_numbered {t : Table} {i : BindingId} {b : Binding} :
    (i, b) ∈ t.numbered ↔ t.bindings[i]? = some b := by
  unfold numbered
  simp only [List.mem_map, Prod.mk.injEq, Prod.exists]
  constructor
  · rintro ⟨b', i', h, rfl, rfl⟩
    exact List.mem_zipIdx_iff_getElem?.mp h
  · exact fun h => ⟨b, i, List.mem_zipIdx_iff_getElem?.mpr h, rfl, rfl⟩

theorem mem_decideEach {t : Table} {o : Options} {i : BindingId} {d : Decision} :
    (i, d) ∈ decideEach t o ↔
      ∃ b, t.bindings[i]? = some b ∧ b.isCandidate = true ∧ b.decision o = d := by
  unfold decideEach Table.candidates
  simp only [List.mem_map, List.mem_filter, Prod.mk.injEq, Prod.exists, Table.mem_numbered]
  constructor
  · rintro ⟨i', b, ⟨hb, hc⟩, rfl, rfl⟩
    exact ⟨b, hb, hc, rfl⟩
  · rintro ⟨b, hb, hc, rfl⟩
    exact ⟨i, b, ⟨hb, hc⟩, rfl, rfl⟩

theorem decideEach_nodup (t : Table) (o : Options) : (decideEach t o).keys.Nodup := by
  have hk : (decideEach t o).keys = t.candidates.map (·.1) := by
    unfold Decisions.keys decideEach
    rw [List.map_map]
    rfl
  have hr : t.numbered.map (·.1) = List.range t.bindings.length := by
    unfold Table.numbered
    rw [List.map_map]
    exact List.zipIdx_map_snd 0 _ |>.trans (List.range_eq_range' ..).symm
  rw [hk]
  refine List.Nodup.sublist (List.Sublist.map _ List.filter_sublist) ?_
  rw [hr]
  exact List.nodup_range

theorem decideEach_find? (t : Table) (o : Options) {i : BindingId} {b : Binding}
    (hb : t.bindings[i]? = some b) (hc : b.isCandidate = true) :
    (decideEach t o).find? i = some (b.decision o) :=
  Decisions.find?_of_mem (decideEach_nodup t o) (mem_decideEach.mpr ⟨b, hb, hc, rfl⟩)

theorem classify_lowers (t : Table) (o : Options) : (decideEach t o).Lowers (classify t o) :=
  reconcileAll_lowers _ _ _

theorem classify_settles (t : Table) (o : Options) :
    Settles t.statements (decideEach t o) (classify t o) :=
  settles_reconcileAll _ (decideEach_nodup t o)
    (Nat.lt_succ_of_le (Decisions.rank_le (decideEach t o)))

theorem classify_fixed (t : Table) (o : Options) :
    t.statements.foldl reconcile (classify t o) = classify t o :=
  (classify_settles t o).fixed

/-- The number is that of a `var`. -/
def Table.IsCandidate (t : Table) (i : BindingId) : Prop :=
  ∃ b, t.bindings[i]? = some b ∧ b.isCandidate = true

/-- The candidates are the bindings with a decision. -/
theorem classify_find?_isSome {t : Table} {o : Options} {i : BindingId} :
    (∃ d, (classify t o).find? i = some d) ↔ t.IsCandidate i := by
  constructor
  · rintro ⟨d, hd⟩
    rcases (classify_lowers t o).found i with h | ⟨e, _, he, _⟩
    · obtain ⟨b, hb, hc, _⟩ := mem_decideEach.mp (Decisions.mem_of_find? (h ▸ hd))
      exact ⟨b, hb, hc⟩
    · obtain ⟨b, hb, hc, _⟩ := mem_decideEach.mp (Decisions.mem_of_find? he)
      exact ⟨b, hb, hc⟩
  · rintro ⟨b, hb, hc⟩
    have hd := decideEach_find? t o hb hc
    rcases (classify_lowers t o).found i with h | ⟨_, d, _, hd, _⟩
    · exact ⟨_, h.trans hd⟩
    · exact ⟨d, hd⟩

/-- A `var` that has to be kept. -/
inductive Forced (t : Table) (o : Options) : BindingId → Prop where
  /-- It is kept by itself. -/
  | own {i : BindingId} {b : Binding} : t.bindings[i]? = some b → b.isCandidate = true →
      (b.decision o).verdict = .keep → Forced t o i
  /-- It shares a statement with something that is no `var`. -/
  | undecided {e : StatementEntry} {i j : BindingId} : e ∈ t.statements → i ∈ e.members →
      j ∈ e.members → t.IsCandidate i → ¬ t.IsCandidate j → Forced t o i
  /-- It shares a statement with one that has to be kept. -/
  | shared {e : StatementEntry} {i j : BindingId} : e ∈ t.statements → i ∈ e.members →
      j ∈ e.members → t.IsCandidate i → Forced t o j → Forced t o i

theorem Forced.verdict {t : Table} {o : Options} {i : BindingId} (h : Forced t o i) :
    (classify t o).verdict? i = some .keep := by
  have hany : ∀ {i : BindingId} {e : StatementEntry} {j : BindingId}, e ∈ t.statements →
      i ∈ e.members → j ∈ e.members → t.IsCandidate i →
      ((classify t o).verdict? j = none ∨ (classify t o).verdict? j = some .keep) →
      (classify t o).verdict? i = some .keep := by
    intro i e j he hi hj hc hv
    obtain ⟨d, hd⟩ := classify_find?_isSome.mpr hc
    have hiv : (classify t o).verdict? i = some d.verdict := by rw [Decisions.verdict?, hd]; rfl
    rw [hiv, keep_of_fixed (classify_fixed t o) he hi hj hv hiv]
  induction h with
  | @own i b hb hc hk =>
    have hd := decideEach_find? t o hb hc
    rcases (classify_lowers t o).found i with h | ⟨d, _, hd', _, hr⟩
    · rw [Decisions.verdict?, h, hd, Option.map_some, hk]
    · rw [hd] at hd'
      cases hd'
      rw [hk] at hr
      exact absurd hr (Nat.not_lt_zero _)
  | @undecided e i j he hi hj hc hn =>
    refine hany he hi hj hc (.inl ?_)
    cases hf : (classify t o).find? j with
    | none => rw [Decisions.verdict?, hf]; rfl
    | some d => exact absurd (classify_find?_isSome.mp ⟨d, hf⟩) hn
  | shared he hi hj hc _ ih => exact hany he hi hj hc (.inr ih)

theorem exists_of_common_keep {ds : Decisions} {e : StatementEntry}
    (h : ds.common? e = some .keep) :
    ∃ j ∈ e.members, ds.verdict? j = none ∨ ds.verdict? j = some .keep := by
  unfold Decisions.common? commonVerdict at h
  split at h
  · rename_i hany
    obtain ⟨v, hv, hk⟩ := List.any_eq_true.mp hany
    obtain ⟨j, hj, rfl⟩ := List.mem_map.mp hv
    rw [Bool.or_eq_true, beq_iff_eq, beq_iff_eq] at hk
    exact ⟨j, hj, hk⟩
  · split at h <;> cases h

/-- The decisions are those on the candidates, and what is kept has to be. -/
structure Justified (t : Table) (o : Options) (ds : Decisions) : Prop where
  keys : ds.keys = (decideEach t o).keys
  forced : ∀ {i}, ds.verdict? i = some .keep → Forced t o i

namespace Justified

variable {t : Table} {o : Options} {ds : Decisions}

theorem isCandidate_iff (h : Justified t o ds) {i : BindingId} :
    t.IsCandidate i ↔ ∃ d, ds.find? i = some d := by
  have hkeys : t.IsCandidate i ↔ i ∈ ds.keys := by
    rw [h.keys]
    constructor
    · rintro ⟨b, hb, hc⟩
      exact List.mem_map_of_mem (f := fun x => x.1) (mem_decideEach.mpr ⟨b, hb, hc, rfl⟩)
    · intro hi
      obtain ⟨⟨j, d⟩, hj, rfl⟩ := List.mem_map.mp hi
      obtain ⟨b, hb, hc, _⟩ := mem_decideEach.mp hj
      exact ⟨b, hb, hc⟩
  rw [hkeys]
  constructor
  · intro hi
    obtain ⟨⟨j, d⟩, hj, rfl⟩ := List.mem_map.mp hi
    exact ⟨d, Decisions.find?_of_mem (h.keys ▸ decideEach_nodup t o) hj⟩
  · rintro ⟨d, hd⟩
    exact List.mem_map_of_mem (f := fun x => x.1) (Decisions.mem_of_find? hd)

theorem start (t : Table) (o : Options) : Justified t o (decideEach t o) := by
  refine ⟨rfl, fun {i} hv => ?_⟩
  obtain ⟨d, hd, hk⟩ := Option.map_eq_some_iff.mp hv
  obtain ⟨b, hb, hc, rfl⟩ := mem_decideEach.mp (Decisions.mem_of_find? hd)
  exact .own hb hc hk

theorem reconcile (h : Justified t o ds) {e : StatementEntry} (he : e ∈ t.statements) :
    Justified t o (ScopeLowering.reconcile ds e) := by
  obtain ⟨hkeys, hfind⟩ := reconcile_spec ds e
  refine ⟨hkeys.trans h.keys, fun {i} hv => ?_⟩
  rw [Decisions.verdict?, hfind] at hv
  cases hc : ds.common? e with
  | none => rw [hc] at hv; exact h.forced hv
  | some target =>
    simp only [hc] at hv
    split at hv
    · rename_i hi
      rw [Option.map_map] at hv
      obtain ⟨d, hd, hk⟩ := Option.map_eq_some_iff.mp hv
      rw [Function.comp_apply] at hk
      rcases d.settle_cases target with hs | ⟨_, _, hs⟩
      · rw [hs] at hk
        exact h.forced (by rw [Decisions.verdict?, hd, Option.map_some, hk])
      · rw [hk] at hs
        obtain ⟨j, hj, hv | hv⟩ := exists_of_common_keep (hs ▸ hc)
        · refine .undecided he hi hj (h.isCandidate_iff.mpr ⟨d, hd⟩) fun hcand => ?_
          obtain ⟨d', hd'⟩ := h.isCandidate_iff.mp hcand
          rw [Decisions.verdict?, hd'] at hv
          cases hv
        · exact .shared he hi hj (h.isCandidate_iff.mpr ⟨d, hd⟩) (h.forced hv)
    · exact h.forced hv

theorem reconcileAll (h : Justified t o ds) (passes : Nat) :
    Justified t o (ScopeLowering.reconcileAll t.statements passes ds) :=
  reconcileAll_invariant (fun _ h _ he => h.reconcile he) passes h

end Justified

/-- What becomes constant in the end is constant by itself. -/
theorem decision_const_of_verdict {t : Table} {o : Options} {i : BindingId} {b : Binding}
    (hb : t.bindings[i]? = some b) (hc : b.isCandidate = true)
    (h : (classify t o).verdict? i = some .toBlockConst) :
    (b.decision o).verdict = .toBlockConst := by
  obtain ⟨x, hx, hv⟩ := Option.map_eq_some_iff.mp h
  have hd := decideEach_find? t o hb hc
  rcases (classify_lowers t o).found i with he | ⟨y, y', hy, hy', hr⟩
  · rw [hx, hd] at he
    cases he
    exact hv
  · rw [hx] at hy'
    cases hy'
    rw [hv] at hr
    exact absurd y.verdict.rank_le (Nat.not_le.mpr hr)

/-- A `var` is kept in the end just when it has to be. -/
theorem verdict_keep_iff {t : Table} {o : Options} {i : BindingId} :
    (classify t o).verdict? i = some .keep ↔ Forced t o i :=
  ⟨((Justified.start t o).reconcileAll _).forced, Forced.verdict⟩

end ScopeLowering
