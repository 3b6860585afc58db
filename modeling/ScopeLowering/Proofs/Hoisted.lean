import ScopeLowering.Proofs.Conservation
import ScopeLowering.Proofs.Filing

/-!
# What is declared for a function

The names of `var`s, parameters and functions are *hoisted*: they are declared for all of the
function. Every such declaration adds its name to those of the function
(`Draft.hoisted_declareVariable`), and a `var` that can be lowered has its name to itself in the end
(`Draft.Movable.count_hoisted`). So what a stretch of a script hoists has a name that moves once at
most (`Draft.Reads.once`).

## The model

`Runs` says what the events of a stretch do on the way to the final draft: how the statements are
numbered, which names are hoisted, and what shows of the scope in which the stretch starts. `Reads`
is the same whatever statements are open. There is one combinator for each way to put stretches
together, so that a recursion over the tree only has to use them.
-/

namespace ScopeLowering

/-! ### Hoisted names -/

/-- The names that a binding declares for all of a function. -/
def Binding.hoisted (f : ScopeId) (b : Binding) : List String :=
  if b.kind.isFunctionScoped = true ∧ b.scope = f then b.sites.map (·.name.text) else []

theorem Binding.Grows.hoisted {b b' : Binding} (h : b.Grows b') (f : ScopeId) :
    (b.hoisted f).Sublist (b'.hoisted f) := by
  unfold Binding.hoisted
  rw [h.kind, h.scope]
  split
  · refine List.Sublist.map _ ?_
    rw [Binding.sites, Binding.sites, h.first]
    exact h.others.sublist.cons_cons _
  · exact List.Sublist.refl _

theorem flatMap_sublist {α β : Type} {g : α → List β} {xs ys : List α}
    (h : ∀ {i : Nat} {a}, xs[i]? = some a → ∃ b, ys[i]? = some b ∧ (g a).Sublist (g b)) :
    (xs.flatMap g).Sublist (ys.flatMap g) := by
  induction xs generalizing ys with
  | nil => exact List.nil_sublist _
  | cons a xs ih =>
    obtain ⟨b, hb, hab⟩ := h (i := 0) rfl
    cases ys with
    | nil => cases hb
    | cons y ys =>
      cases hb
      rw [List.flatMap_cons, List.flatMap_cons]
      exact hab.append (ih fun {i a} ha => h (i := i + 1) ha)

/-- What only one item yields is there as often as in that item. -/
theorem count_flatMap_le {α β : Type} [BEq β] [LawfulBEq β] {g : α → List β} {x : β} {xs : List α}
    {i : Nat} {a : α} (ha : xs[i]? = some a)
    (h : ∀ {j : Nat} {b}, xs[j]? = some b → x ∈ g b → j = i) :
    (xs.flatMap g).count x ≤ (g a).count x := by
  induction xs generalizing i with
  | nil => cases ha
  | cons y ys ih =>
    rw [List.flatMap_cons, List.count_append]
    cases i with
    | zero =>
      cases ha
      have hys : (ys.flatMap g).count x = 0 := by
        refine List.count_eq_zero.mpr fun hx => ?_
        obtain ⟨b, hb, hxb⟩ := List.mem_flatMap.mp hx
        obtain ⟨j, hj⟩ := List.mem_iff_getElem?.mp hb
        exact absurd (h (j := j + 1) hj hxb) (Nat.succ_ne_zero j)
      omega
    | succ i =>
      have hy : (g y).count x = 0 :=
        List.count_eq_zero.mpr fun hx => absurd (h (j := 0) rfl hx) (Nat.succ_ne_zero i).symm
      have := ih ha fun {j b} hj hx => Nat.succ.inj (h (j := j + 1) hj hx)
      omega

namespace Draft

/-- The names that are declared for all of a function, each as often as it is. -/
def hoisted (d : Draft) (f : ScopeId) : List String := d.table.bindings.flatMap (·.hoisted f)

theorem Grows.hoisted {d d' : Draft} (h : d.Grows d') (f : ScopeId) :
    (d.hoisted f).Sublist (d'.hoisted f) := by
  refine flatMap_sublist fun {i b} hb => ?_
  obtain ⟨b', hb', hg⟩ := h.binding hb
  exact ⟨b', hb', hg.hoisted f⟩

/-- Every declaration for a function adds its name. -/
theorem hoisted_declareVariable {d : Draft} (hd : d.Sound) {kind : BindingKind}
    (hk : kind.isFunctionScoped = true) (site : Site) :
    ((d.declareVariable kind site).hoisted (d.attachment kind)).Perm
      (d.hoisted (d.attachment kind) ++ [site.name.text]) := by
  refine (List.Perm.of_eq (flatMap_declareVariable (fun _ _ => rfl) d kind site)).trans ?_
  refine flatMap_declare (fun _ _ => rfl) hd kind site (if_pos ⟨hk, rfl⟩) fun b _ hb hs => ?_
  rw [Binding.hoisted, if_pos ⟨hb, hs⟩, Binding.hoisted, if_pos ⟨hb, hs⟩]
  simp [Binding.sites, Binding.merge]

/-- A movable `var` has its name to itself. -/
theorem Movable.count_hoisted {D : Draft} {i : BindingId} {b : Binding} (h : D.Movable i b)
    (hD : D.Sound) : (D.hoisted b.scope).count b.name ≤ 1 := by
  have hone : (b.hoisted b.scope).count b.name ≤ 1 := by
    refine Nat.le_trans List.count_le_length ?_
    unfold Binding.hoisted
    split <;> simp [Binding.sites, h.others]
  refine Nat.le_trans (count_flatMap_le h.binding fun {j b'} hb' hx => ?_) hone
  unfold Binding.hoisted at hx
  split at hx
  · rename_i hb
    obtain ⟨site, hsite, hname⟩ := List.mem_map.mp hx
    obtain ⟨old, ho, hor⟩ := hD.owned hb'
    rw [← (hD.sites hb' site hsite).1, hname, hb.2, h.here hD] at ho
    cases ho
    rcases hor with hj | ⟨⟨b₀, hb₀, htag⟩, _⟩
    · exact hj.symm
    · rw [h.binding] at hb₀
      cases hb₀
      exact absurd htag h.unclaimed
  · cases hx

/-! ### Names that move -/

/-- A `var` of the name can be declared for a block inside of the scope. -/
def Moves (D : Draft) (c : ScopeId) (x : String) : Prop :=
  ∃ i b, D.Movable i b ∧ b.name = x ∧ b.scope = D.graph.nearestFunction c ∧
    D.graph.isWithin b.first.scope c = true

/-- The one scope stands in the other, and is no function's. -/
structure Inner (D : Draft) (c' c : ScopeId) : Prop where
  parent : D.graph.parent? c' = some c
  function : D.graph.nearestFunction c' = D.graph.nearestFunction c

variable {D : Draft}

theorem Moves.outward (hD : D.Sound) {c c' : ScopeId} {x : String} (hc : D.Inner c' c)
    (h : D.Moves c' x) : D.Moves c x := by
  obtain ⟨i, b, hb, hname, hscope, hin⟩ := h
  exact ⟨i, b, hb, hname, hscope.trans hc.function,
    hD.graph.isWithin_trans hin ((hD.graph.isWithin_up hc.parent).mpr
      (.inr (Graph.Sound.isWithin_self c)))⟩

/-- A name does not move past a scope that holds it. -/
theorem Moves.not_held (hD : D.Sound) {c c' : ScopeId} {x : String} (hc : D.Inner c' c)
    (h : D.Moves c' x) : D.graph.here? x c' = none := by
  obtain ⟨i, b, hb, rfl, hscope, hin⟩ := h
  refine hb.clear c' (hD.graph.mem_path hin ?_ ?_)
  · rw [hscope]
    exact hD.graph.isWithin_nearestFunction c'
  · have hle := hD.graph.nearestFunction_le c
    have hlt := hD.graph.parent_lt hc.parent
    rw [hscope, hc.function]
    exact Nat.ne_of_gt (Nat.lt_of_le_of_lt hle hlt)

/-! ### Going through a stretch of a script -/

/-- What the events of a stretch lead to: the statements are numbered as the tallies say, the scope
is the one at the start, and all the names are hoisted to its function. -/
structure Reaches (t t' : Event.Tally) (names : List String) (d d' : Draft) : Prop where
  filed : Filed t' d'
  current : d'.current = d.current
  hoisted : ∀ x, (d.hoisted (d.graph.nearestFunction d.current)).count x + names.count x ≤
    (d'.hoisted (d.graph.nearestFunction d.current)).count x

/-- Going through the events on the way to the draft `D` leads from one tally to the other, hoists
the names, and shows `P` of the scope that it starts in. -/
def Runs (D : Draft) (t : Event.Tally) (es : List Event) (t' : Event.Tally) (names : List String)
    (P : ScopeId → Prop) : Prop :=
  ∀ d d' : Draft, d.Sound → Filed t d → d.steps es = .ok d' → d'.Grows D →
    Reaches t t' names d d' ∧ P d.current

namespace Runs

variable {t t' t'' : Event.Tally} {es fs : List Event} {xs ys : List String}
  {P Q : ScopeId → Prop}

theorem nil : Runs D t [] t [] fun _ => True := by
  intro d d' _ ht h _
  cases h
  exact ⟨⟨ht, rfl, fun _ => Nat.le_refl _⟩, trivial⟩

theorem append (h : Runs D t es t' xs P) (h' : Runs D t' fs t'' ys Q) :
    Runs D t (es ++ fs) t'' (xs ++ ys) fun c => P c ∧ Q c := by
  intro d d' hd ht hs hg
  obtain ⟨m, hm, hs⟩ := steps_append_ok.mp hs
  obtain ⟨hr, hp⟩ := h d m hd ht hm ((grows_steps hs).trans hg)
  obtain ⟨hr', hq⟩ := h' m d' (hd.steps hm) hr.filed hs hg
  have hf : m.graph.nearestFunction m.current = d.graph.nearestFunction d.current := by
    rw [hr.current]
    exact (grows_steps hm).nearestFunction hd.current
  refine ⟨⟨hr'.filed, hr'.current.trans hr.current, fun x => ?_⟩, hp, hr.current ▸ hq⟩
  have h₁ := hr.hoisted x
  have h₂ := hr'.hoisted x
  rw [hf] at h₂
  rw [List.count_append]
  omega

theorem imp (h : Runs D t es t' xs P) (hpq : ∀ c, P c → Q c) : Runs D t es t' xs Q :=
  fun d d' hd ht hs hg => (h d d' hd ht hs hg).imp_right (hpq _)

theorem fewer (h : Runs D t es t' xs P) (hle : ∀ x, ys.count x ≤ xs.count x) :
    Runs D t es t' ys P := by
  intro d d' hd ht hs hg
  obtain ⟨hr, hp⟩ := h d d' hd ht hs hg
  refine ⟨{ hr with hoisted := fun x => ?_ }, hp⟩
  exact Nat.le_trans (Nat.add_le_add_left (hle x) _) (hr.hoisted x)

/-- A name that moves is hoisted once at most. -/
theorem once (hD : D.Sound) (h : Runs D t es t' xs P) :
    Runs D t es t' xs fun c => (∀ x, D.Moves c x → xs.count x ≤ 1) ∧ P c := by
  intro d d' hd ht hs hg
  obtain ⟨hr, hp⟩ := h d d' hd ht hs hg
  refine ⟨hr, fun x hx => ?_, hp⟩
  obtain ⟨i, b, hb, rfl, hscope, _⟩ := hx
  have hf := ((grows_steps hs).trans hg).nearestFunction hd.current
  have hone := hb.count_hoisted hD
  rw [hscope, hf] at hone
  have hle := (hg.hoisted (d.graph.nearestFunction d.current)).count_le b.name
  have := hr.hoisted b.name
  omega

/-- No draft comes of events with a fault among them. -/
theorem faulty (h : ¬ Event.Calm es) : Runs D t es t' xs P :=
  fun _ _ _ _ hs _ => absurd (fault_not_mem_steps hs) h

theorem fault (f : ScopeFault) : Runs D t [.fault f] t' xs P := faulty Event.not_calm_fault

/-- An event that opens and closes nothing and belongs to no `var` statement. -/
theorem plain {e : Event} (he : e.isPlain = true) (hf : ∀ {d d' : Draft}, d.step e = .ok d' →
    d'.current = d.current) : Runs D t [e] t [] fun _ => True := by
  intro d d' _ ht hs _
  obtain ⟨m, hm, hs⟩ := steps_cons_ok.mp hs
  cases hs
  obtain ⟨h₁, h₂⟩ := step_statements he hm
  exact ⟨⟨ht.congr h₁ h₂, hf hm, fun x => ((grows_step hm).hoisted _).count_le x⟩, trivial⟩

/-- A name is declared for the function. -/
theorem declares {kind : BindingKind} (hk : kind.isFunctionScoped = true) {name : Ident}
    {st : Option Statement} {hasInit unbraced forEach : Bool} {ready : Offset}
    (h : ∀ d : Draft, d.Sound → Filed t d → ∀ d', d' = d.declareVariable kind
        { name, statement := st, scope := d.current, hasInit, ready, unbraced, forEach } →
      d'.Grows D → Filed t' d' ∧ P d.current) :
    Runs D t [.declare kind name st hasInit ready unbraced forEach] t' [name.text] P := by
  intro d d' hd ht hs hg
  cases hs
  obtain ⟨hfiled, hp⟩ := h d hd ht _ rfl hg
  refine ⟨⟨hfiled, (d.frame_declareVariable kind _).current, fun x => ?_⟩, hp⟩
  have hperm := hoisted_declareVariable hd hk
    { name, statement := st, scope := d.current, hasInit, ready, unbraced, forEach }
  rw [attachment, if_pos hk] at hperm
  exact Nat.le_of_eq ((hperm.count_eq x).trans List.count_append).symm

theorem opened {n : Nat} {os : List Event.Opened} (st : Statement) (k : Keyword) :
    Runs D ⟨n, os⟩ [.openStatement st] ⟨n, ⟨st, k, none⟩ :: os⟩ [] fun _ => True := by
  intro d d' _ ht hs _
  cases hs
  exact ⟨⟨ht.opened st k, rfl, fun _ => Nat.le_refl _⟩, trivial⟩

theorem closed {n : Nat} {o : Event.Opened} {os : List Event.Opened} :
    Runs D ⟨n, o :: os⟩ [.closeStatement] ⟨n, os⟩ [] fun _ => True := by
  intro d d' _ ht hs _
  cases hs
  exact ⟨⟨ht.closed, rfl, fun _ => Nat.le_refl _⟩, trivial⟩

end Runs

/-- The scope that a name is declared for holds the name. -/
theorem declareVariable_here {d : Draft} (hd : d.Sound) (kind : BindingKind) (site : Site) :
    ∃ id, (d.declareVariable kind site).graph.here? site.name.text (d.attachment kind) =
      some id := by
  have hhere : ∃ id, (d.declare kind site).1.graph.here? site.name.text (d.attachment kind) =
      some id := by
    rcases d.declare_cases kind site with ⟨hn, he⟩ | ⟨old, hold, ⟨_, _, he⟩ | ⟨_, he⟩⟩ <;> rw [he]
    · exact ⟨_, (here?_own (hd.attachment_lt kind) hn _ _).trans (if_pos ⟨rfl, rfl⟩)⟩
    · refine ⟨old, ?_⟩
      show (d.join old site).graph.here? _ _ = _
      rw [graph_join]
      exact hold
    · exact ⟨old, hold⟩
  obtain ⟨id, hid⟩ := hhere
  exact ⟨id, ((grows_mark _ _ site).trans (grows_record _ kind _ site)).here hid⟩

/-- Going through the events leads from one number of statements to the other, whatever statements
are open. -/
def Reads (D : Draft) (i : Nat) (es : List Event) (j : Nat) (names : List String)
    (P : ScopeId → Prop) : Prop :=
  ∀ os, Runs D ⟨i, os⟩ es ⟨j, os⟩ names P

namespace Reads

variable {i j k : Nat} {es fs : List Event} {xs ys : List String} {P Q : ScopeId → Prop}

theorem append (h : Reads D i es j xs P) (h' : Reads D j fs k ys Q) :
    Reads D i (es ++ fs) k (xs ++ ys) fun c => P c ∧ Q c := fun os => (h os).append (h' os)

theorem imp (h : Reads D i es j xs P) (hpq : ∀ c, P c → Q c) : Reads D i es j xs Q :=
  fun os => (h os).imp hpq

theorem fewer (h : Reads D i es j xs P) (hle : ∀ x, ys.count x ≤ xs.count x) :
    Reads D i es j ys P := fun os => (h os).fewer hle

theorem once (hD : D.Sound) (h : Reads D i es j xs P) :
    Reads D i es j xs fun c => (∀ x, D.Moves c x → xs.count x ≤ 1) ∧ P c :=
  fun os => (h os).once hD

/-- Nothing that matters comes before. -/
theorem after (h : Reads D i es j [] P) (h' : Reads D j fs k xs Q) : Reads D i (es ++ fs) k xs Q :=
  (h.append h').imp fun _ => And.right

/-- Nothing that matters comes after. -/
theorem before (h : Reads D i es j xs P) (h' : Reads D j fs k [] Q) :
    Reads D i (es ++ fs) k xs P :=
  ((h.append h').imp fun _ => And.left).fewer fun x => by simp

/-- A statement opens and closes around the events. -/
theorem statement {st : Statement} {o : Event.Opened}
    (h : ∀ os, Runs D ⟨i, ⟨st, st.keyword, none⟩ :: os⟩ es ⟨j, o :: os⟩ xs P) :
    Reads D i ([.openStatement st] ++ es ++ [.closeStatement]) j xs P := by
  intro os
  have hall := ((Runs.opened st st.keyword).append (h os)).append .closed
  exact (hall.imp fun _ hc => hc.1.2).fewer fun x => by simp

theorem check (n o : Node) : Reads D i (Event.check n o) i [] fun _ => True := by
  unfold Event.check
  cases Event.misplaced? n o with
  | none => exact fun _ => .nil
  | some f => exact fun _ => .fault f

/-- A parameter, or a function under its name. -/
theorem declareName (kind : BindingKind) (hk : kind.isFunctionScoped = true)
    (hv : kind ≠ .declared .varWord) (name : Ident) (ready : Offset) (o : Node) :
    Reads D i (Event.declareName kind name ready o) i [name.text] fun _ => True :=
  (check _ o).after fun os => .declares hk fun d _ ht d' he _ => by
    obtain ⟨h₁, h₂⟩ := d.declareVariable_statements hv
      { name, statement := none, scope := d.current, hasInit := true, ready }
    subst he
    exact ⟨ht.congr h₁ h₂, trivial⟩

theorem params (params : List Ident) (ready : Offset) (o : Node) :
    Reads D i (params.flatMap fun x => Event.declareName .param x ready o) i
      (params.map (·.text)) fun _ => True := by
  induction params with
  | nil => exact fun _ => .nil
  | cons x rest ih =>
    rw [List.flatMap_cons]
    exact ((declareName .param rfl (by decide) x ready o).append ih).imp fun _ _ => trivial

/-- The parameter of a `catch` clause, which the scope of the clause holds. -/
theorem catchParam (name : Ident) (ready : Offset) (o : Node) :
    Reads D i (Event.declareName .catchParam name ready o) i [] fun c =>
      D.graph.here? name.text c ≠ none := by
  refine (check _ o).after fun os d d' hd ht hs hg => ?_
  cases hs
  have hplain : Runs D ⟨i, os⟩ [.declare .catchParam name none true ready false false] ⟨i, os⟩ []
      fun _ => True := .plain rfl fun h => (SameScopes.of_step rfl h).current
  refine ⟨(hplain d _ hd ht rfl hg).1, ?_⟩
  obtain ⟨id, hid⟩ := declareVariable_here hd .catchParam
    { name, statement := none, scope := d.current, hasInit := true, ready }
  exact fun hnone => nomatch (hg.here hid).symm.trans hnone

/-- A scope opens and closes around the events. -/
theorem scope {d d' : Draft} {os : List Event.Opened} {kind : ScopeKind} {span : Span}
    {callable : Option Callable} {cases : List Span} (h : Reads D i es j xs P) (hd : d.Sound)
    (ht : Filed ⟨i, os⟩ d)
    (hs : d.steps ([.enter kind span callable cases] ++ es ++ [.leave]) = .ok d')
    (hg : d'.Grows D) :
    ∃ m, Reaches ⟨i, os⟩ ⟨j, os⟩ xs (d.openScope kind span callable cases) m ∧
      P d.graph.size ∧ Filed ⟨j, os⟩ d' ∧ d'.current = d.current ∧ d'.table = m.table ∧
      D.graph.parent? d.graph.size = some d.current ∧
      D.graph.nearestFunction d.graph.size =
        if kind.isFunctionLevel then d.graph.size else D.graph.nearestFunction d.current := by
  obtain ⟨x, hx, hleave⟩ := steps_append_ok.mp hs
  obtain ⟨m, hm, hx⟩ := steps_cons_ok.mp hx
  obtain ⟨y, hy, hnil⟩ := steps_cons_ok.mp hleave
  cases hnil
  cases hm
  cases hy
  have hes : (d.openScope kind span callable cases).steps es = .ok x := hx
  have hsize := Sound.size_openScope d kind span callable cases
  have hlt : d.graph.size < (d.openScope kind span callable cases).graph.size := by omega
  have hxD : x.Grows D := Grows.trans (grows_step (e := .leave) rfl) hg
  have hoD := (grows_steps hes).trans hxD
  have hdD := (d.grows_openScope kind span callable cases).trans hoD
  have hopen := Sound.parent?_openScope hd.current kind span callable cases
  obtain ⟨hr, hp⟩ := h os _ x (hd.openScope kind span callable cases) (ht.congr rfl rfl) hes hxD
  refine ⟨x, hr, hp, hr.filed.congr rfl rfl, ?_, rfl, ?_, ?_⟩
  · show (x.graph.parent? x.current).getD 0 = d.current
    rw [hr.current]
    show (x.graph.parent? d.graph.size).getD 0 = d.current
    rw [(grows_steps hes).parent? hlt, hopen, Option.getD_some]
  · rw [hoD.parent? hlt, hopen]
  · rw [hoD.nearestFunction hlt, Sound.nearestFunction_openScope, hdD.nearestFunction hd.current]

/-- A scope that is no function's: its `var`s go on to the function around. -/
theorem enclosed {kind : ScopeKind} (hk : kind.isFunctionLevel = false) (h : Reads D i es j xs P)
    (span : Span) (cases : List Span) :
    Reads D i ([.enter kind span none cases] ++ es ++ [.leave]) j xs fun c =>
      ∃ c', D.Inner c' c ∧ P c' := by
  intro os d d' hd ht hs hg
  obtain ⟨m, hr, hp, hfiled, hcur, htable, hparent, hfun⟩ := h.scope hd ht hs hg
  rw [hk, if_neg Bool.false_ne_true] at hfun
  refine ⟨⟨hfiled, hcur, fun x => ?_⟩, d.graph.size, ⟨hparent, hfun⟩, hp⟩
  have hx := hr.hoisted x
  have hopen := Sound.nearestFunction_openScope d kind span none cases
  rw [hk, if_neg Bool.false_ne_true] at hopen
  rw [show (d.openScope kind span none cases).graph.nearestFunction
    (d.openScope kind span none cases).current = _ from hopen] at hx
  rw [Draft.hoisted, Draft.hoisted, htable]
  exact hx

/-- A function: nothing that it declares is of concern outside. -/
theorem function (h : Reads D i es j xs P) (span : Span) (callable : Option Callable) :
    Reads D i ([.enter .function span callable []] ++ es ++ [.leave]) j [] fun _ => ∃ c', P c' := by
  intro os d d' hd ht hs hg
  obtain ⟨m, hr, hp, hfiled, hcur, _⟩ := h.scope hd ht hs hg
  exact ⟨⟨hfiled, hcur, fun x => ((grows_steps hs).hoisted _).count_le x⟩, d.graph.size, hp⟩

end Reads

end Draft

end ScopeLowering
