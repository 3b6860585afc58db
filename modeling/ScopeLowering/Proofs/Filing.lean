import ScopeLowering.Proofs.Mirroring

/-!
# The statements of a table

Going through a script files its `var` statements in the table, each when its first name is
declared. This module says what the entries are like: every entry is that of a `var` statement and
has members (`filed_ofScript`), and a binding is a member no more often than it has declarations
(`enrolled_ofScript`). So a `var` with one declaration is a member of one statement, once.

## The model

How far the filing has come is a `Tally`, as for the events of a script that takes other keywords:
the number of the next statement, and the open statements with their numbers. `Filed` ties a draft
to a tally.
-/

namespace ScopeLowering

namespace Draft

/-! ### Notes on statements -/

/-- The first name of a statement makes a new entry. -/
theorem record_new {d : Draft} {rest : List (Statement × Option Nat)} {s : Statement}
    (hs : d.statements = (s, none) :: rest) (i : BindingId) (site : Site) :
    d.record (.declared .varWord) i site =
      { d with
        table := { d.table with statements := d.table.statements ++ [⟨s, [i]⟩] }
        statements := (s, some d.table.statements.length) :: rest
        varSites := d.varSites ++ [(i, site)] } := by
  cases d
  cases hs
  rfl

/-- A later name is added to the entry. -/
theorem record_old {d : Draft} {rest : List (Statement × Option Nat)} {s : Statement} {n : Nat}
    (hs : d.statements = (s, some n) :: rest) (i : BindingId) (site : Site) :
    d.record (.declared .varWord) i site =
      { d with
        table := { d.table with
          statements := d.table.statements.modify n fun e =>
            { e with members := e.members ++ [i] } }
        varSites := d.varSites ++ [(i, site)] } := by
  cases d
  cases hs
  rfl

/-- A declaration takes no notes before it is recorded. -/
theorem notes_marked (d : Draft) (kind : BindingKind) (site : Site) (i : BindingId) :
    ((d.declare kind site).1.mark i site).table.statements = d.table.statements ∧
    ((d.declare kind site).1.mark i site).statements = d.statements ∧
    ((d.declare kind site).1.mark i site).varSites = d.varSites := by
  have hmark : ∀ d : Draft, (d.mark i site).table.statements = d.table.statements ∧
      (d.mark i site).statements = d.statements ∧ (d.mark i site).varSites = d.varSites := by
    intro d
    unfold mark
    split <;> exact ⟨rfl, rfl, rfl⟩
  obtain ⟨h₁, h₂, h₃⟩ := hmark (d.declare kind site).1
  rw [h₁, h₂, h₃]
  rcases d.declare_cases kind site with ⟨_, hd⟩ | ⟨old, _, ⟨_, _, hd⟩ | ⟨_, hd⟩⟩ <;> rw [hd]
  · exact ⟨rfl, rfl, rfl⟩
  · show (d.join old site).table.statements = _ ∧ (d.join old site).statements = _ ∧
      (d.join old site).varSites = _
    unfold join
    split <;> exact ⟨rfl, rfl, rfl⟩
  · exact ⟨rfl, rfl, rfl⟩

theorem record_of_ne {d : Draft} {kind : BindingKind} (hk : kind ≠ .declared .varWord)
    (i : BindingId) (site : Site) : d.record kind i site = d := by
  unfold record
  rw [if_neg fun h => hk (eq_of_beq h)]

/-! ### Entries -/

/-- The statements of a draft are those that a tally has counted. -/
structure Filed (t : Event.Tally) (d : Draft) : Prop where
  next : t.next = d.table.statements.length
  stack : d.statements = t.opened.map fun o => (o.statement, o.number)
  numbered : ∀ o ∈ t.opened, ∀ n, o.number = some n → n < d.table.statements.length
  /-- Only `var` statements are filed, and only with what they declare. -/
  noted : ∀ e ∈ d.table.statements, e.statement.keyword = .varWord ∧ e.members ≠ []

theorem declareVariable_statements (d : Draft) {kind : BindingKind}
    (hk : kind ≠ .declared .varWord) (site : Site) :
    (d.declareVariable kind site).table.statements = d.table.statements ∧
      (d.declareVariable kind site).statements = d.statements := by
  obtain ⟨h₁, h₂, _⟩ := d.notes_marked kind site (d.declare kind site).2
  rw [declareVariable_eq, record_of_ne hk]
  exact ⟨h₁, h₂⟩

/-- An event outside of `var` statements leaves the statements alone. -/
theorem step_statements {d d' : Draft} {e : Event} (he : e.isPlain = true)
    (h : d.step e = .ok d') :
    d'.table.statements = d.table.statements ∧ d'.statements = d.statements := by
  cases e with
  | enter | leave | evalCall | dynamic | refer => cases h; exact ⟨rfl, rfl⟩
  | openStatement | closeStatement | fault => cases he
  | declare kind =>
    cases h
    exact d.declareVariable_statements (by rintro rfl; cases he) _
  | callee name ready problem =>
    rcases step_callee_ok h with rfl | ⟨_, rfl⟩
    · exact ⟨rfl, rfl⟩
    · exact d.declareVariable_statements (by simp) _
  | thisUse =>
    obtain ⟨_, rfl⟩ := step_thisUse_ok h
    exact ⟨rfl, rfl⟩

namespace Filed

variable {t : Event.Tally} {d d' : Draft} {n : Nat} {s : Statement} {k : Keyword}
  {os : List Event.Opened}

theorem congr (h : Filed t d) (ht : d'.table.statements = d.table.statements)
    (hs : d'.statements = d.statements) : Filed t d' :=
  ⟨ht ▸ h.next, hs ▸ h.stack, ht ▸ h.numbered, ht ▸ h.noted⟩

theorem opened (h : Filed ⟨n, os⟩ d) (s : Statement) (k : Keyword) :
    Filed ⟨n, ⟨s, k, none⟩ :: os⟩ { d with statements := (s, none) :: d.statements } := by
  refine { h with stack := congrArg (_ :: ·) h.stack, numbered := fun o ho m hm => ?_ }
  rcases List.mem_cons.mp ho with rfl | ho
  · cases hm
  · exact h.numbered o ho m hm

theorem closed {o : Event.Opened} (h : Filed ⟨n, o :: os⟩ d) :
    Filed ⟨n, os⟩ { d with statements := d.statements.tail } :=
  { h with
    stack := congrArg List.tail h.stack
    numbered := fun o ho => h.numbered o (List.mem_cons_of_mem _ ho) }

/-- The first name of a statement makes an entry. -/
theorem record_first (h : Filed ⟨n, ⟨s, k, none⟩ :: os⟩ d) (hs : s.keyword = .varWord)
    (i : BindingId) (site : Site) :
    Filed ⟨n + 1, ⟨s, k, some n⟩ :: os⟩ (d.record (.declared .varWord) i site) ∧
      (d.record (.declared .varWord) i site).table.statements[n]? = some ⟨s, [i]⟩ := by
  have hn : n = d.table.statements.length := h.next
  rw [record_new h.stack]
  refine ⟨⟨?_, ?_, fun o ho m hm => ?_, fun e he => ?_⟩, ?_⟩
  · simp [hn]
  · simp [hn]
  · rw [List.length_append]
    rcases List.mem_cons.mp ho with rfl | ho
    · cases hm
      exact hn ▸ Nat.lt_succ_self n
    · exact Nat.lt_succ_of_lt (h.numbered o (List.mem_cons_of_mem _ ho) m hm)
  · rcases List.mem_append.mp he with he | he
    · exact h.noted e he
    · rw [List.mem_singleton.mp he]
      exact ⟨hs, List.cons_ne_nil _ _⟩
  · rw [hn]
    exact List.getElem?_concat_length

/-- A later name is added to the entry. -/
theorem record_later {m : Nat} (h : Filed ⟨n, ⟨s, k, some m⟩ :: os⟩ d) (i : BindingId)
    (site : Site) :
    Filed ⟨n, ⟨s, k, some m⟩ :: os⟩ (d.record (.declared .varWord) i site) ∧
      ∃ e ∈ (d.record (.declared .varWord) i site).table.statements[m]?,
        e.statement.keyword = .varWord ∧ i ∈ e.members := by
  have hm : m < d.table.statements.length := h.numbered _ List.mem_cons_self m rfl
  have he := List.getElem?_eq_getElem hm
  rw [record_old h.stack]
  refine ⟨⟨?_, h.stack, fun o ho x hx => ?_, fun e he => ?_⟩,
    { d.table.statements[m] with members := d.table.statements[m].members ++ [i] }, ?_,
    (h.noted _ (List.mem_of_getElem? he)).1, List.mem_append_right _ (List.mem_singleton.mpr rfl)⟩
  · exact h.next.trans (List.length_modify ..).symm
  · exact Nat.lt_of_lt_of_eq (h.numbered o ho x hx) (List.length_modify ..).symm
  · obtain ⟨x, hx⟩ := List.mem_iff_getElem?.mp he
    rw [List.getElem?_modify] at hx
    obtain ⟨e₀, he₀, rfl⟩ := Option.map_eq_some_iff.mp hx
    obtain ⟨hk, hm⟩ := h.noted e₀ (List.mem_of_getElem? he₀)
    split
    · exact ⟨hk, List.append_ne_nil_of_left_ne_nil hm _⟩
    · exact ⟨hk, hm⟩
  · show (d.table.statements.modify m _)[m]? = _
    rw [List.getElem?_modify, he]
    exact congrArg some (if_pos rfl)

/-- The first name of a statement files it. -/
theorem first (h : Filed ⟨n, ⟨s, k, none⟩ :: os⟩ d) (hs : s.keyword = .varWord) (site : Site) :
    Filed ⟨n + 1, ⟨s, k, some n⟩ :: os⟩ (d.declareVariable (.declared .varWord) site) ∧
      (d.declareVariable (.declared .varWord) site).table.statements[n]? =
        some ⟨s, [(d.declare (.declared .varWord) site).2]⟩ := by
  obtain ⟨h₁, h₂, _⟩ := d.notes_marked (.declared .varWord) site
    (d.declare (.declared .varWord) site).2
  rw [declareVariable_eq]
  exact (h.congr h₁ h₂).record_first hs _ site

/-- A later name joins the entry of its statement. -/
theorem later {i : Nat} (h : Filed ⟨n, ⟨s, k, some i⟩ :: os⟩ d) (site : Site) :
    Filed ⟨n, ⟨s, k, some i⟩ :: os⟩ (d.declareVariable (.declared .varWord) site) ∧
      ∃ e ∈ (d.declareVariable (.declared .varWord) site).table.statements[i]?,
        e.statement.keyword = .varWord ∧ (d.declare (.declared .varWord) site).2 ∈ e.members := by
  obtain ⟨h₁, h₂, _⟩ := d.notes_marked (.declared .varWord) site
    (d.declare (.declared .varWord) site).2
  rw [declareVariable_eq]
  exact (h.congr h₁ h₂).record_later _ site

/-- Whatever new keywords the statements are to have, their events file them. -/
theorem steps {key : Nat → Keyword} {t' : Event.Tally} {es es' : List Event}
    (hr : Event.Rekeyed key t es es' t') (h : Filed t d) (hs : d.steps es = .ok d') :
    Filed t' d' := by
  induction hr generalizing d with
  | nil => cases hs; exact h
  | same he _ ih =>
    obtain ⟨m, hm, hs⟩ := steps_cons_ok.mp hs
    obtain ⟨h₁, h₂⟩ := step_statements he hm
    exact ih (h.congr h₁ h₂) hs
  | opened s k _ ih => exact ih (h.opened s k) hs
  | closed _ ih => exact ih h.closed hs
  | first hk _ ih => exact ih (h.first hk _).1 hs
  | later _ _ ih => exact ih (h.later _).1 hs

theorem start (span : Span) : Filed ⟨0, []⟩ (({} : Draft).openScope .program span none []) := by
  constructor
  case next | stack => rfl
  all_goals (intros; contradiction)

end Filed

theorem filed_ofScript {script : Node} {d : Draft}
    (h : Draft.steps {} (Event.ofScript script) = .ok d) :
    ∀ e ∈ d.table.statements, e.statement.keyword = .varWord ∧ e.members ≠ [] := by
  obtain ⟨m, hm, hbody⟩ := steps_cons_ok.mp h
  cases hm
  obtain ⟨_, hr⟩ := Event.ofScript_rekeyed (fun _ => .varWord) script (fault_not_mem_steps hbody)
  exact ((Filed.start script.span).steps hr hbody).noted

/-! ### Members -/

/-- How often the statements have a binding for a member. -/
def listed (d : Draft) (i : BindingId) : Nat := (d.table.statements.flatMap (·.members)).count i

/-- A binding is a member no more often than it has declarations. -/
def Enrolled (d : Draft) : Prop :=
  ∀ {i b}, d.binding? i = some b → d.listed i ≤ b.sites.length

/-- What has no binding yet is no member. -/
theorem Sound.listed_eq_zero {d : Draft} (h : d.Sound) {i : BindingId}
    (hi : d.table.bindings.length ≤ i) : d.listed i = 0 := by
  refine List.count_eq_zero.mpr fun hm => ?_
  obtain ⟨e, he, hie⟩ := List.mem_flatMap.mp hm
  obtain ⟨b, hb, _⟩ := h.members he i hie
  exact Nat.not_lt.mpr hi (binding?_lt hb)

theorem count_members_modify (es : List StatementEntry) (n : Nat) (id i : BindingId) :
    ((es.modify n fun e => { e with members := e.members ++ [id] }).flatMap (·.members)).count i ≤
      (es.flatMap (·.members)).count i + if i = id then 1 else 0 := by
  induction es generalizing n with
  | nil => simp
  | cons e es ih =>
    cases n with
    | zero =>
      simp only [List.modify_zero_cons, List.flatMap_cons, List.count_append]
      by_cases hi : i = id
      · simp only [hi, List.count_singleton_self, if_true]
        omega
      · simp only [hi, List.count_singleton, beq_false_of_ne (Ne.symm hi), if_false,
          Bool.false_eq_true]
        omega
    | succ n =>
      have := ih n
      simp only [List.modify_succ_cons, List.flatMap_cons, List.count_append]
      omega

/-- Noting a name in its statement lists one binding once more, at most. -/
theorem listed_noteStatement (d : Draft) (id i : BindingId) :
    (d.noteStatement id).listed i ≤ d.listed i + if i = id then 1 else 0 := by
  unfold noteStatement
  split
  · omega
  · exact count_members_modify ..
  · unfold listed
    rw [List.flatMap_append, List.count_append, List.flatMap_singleton]
    by_cases hi : i = id
    · simp [hi]
    · simp [hi, Ne.symm hi]

theorem Enrolled.declare {d : Draft} (h : d.Enrolled) (hd : d.Sound) {kind : BindingKind}
    {site : Site} {i : BindingId} {b : Binding}
    (hb : (d.declare kind site).1.binding? i = some b) :
    d.listed i + (if i = (d.declare kind site).2 then 1 else 0) ≤ b.sites.length := by
  have hfresh := hd.listed_eq_zero (Nat.le_refl _)
  rcases d.declare_cases kind site with ⟨_, he⟩ | ⟨old, _, ⟨_, _, he⟩ | ⟨_, he⟩⟩ <;>
    rw [he] at hb ⊢
  · rw [binding?_own] at hb
    split at hb
    · rename_i hi
      cases hb
      simp [hi, hfresh, Binding.sites]
    · simp [*, h hb]
  · rw [binding?_join] at hb
    obtain ⟨b₀, hb₀, rfl⟩ := Option.map_eq_some_iff.mp hb
    have hle := h hb₀
    by_cases hi : old = i
    · simp only [if_pos hi, if_pos hi.symm, Binding.sites, joined_others, List.length_cons,
        List.length_append, List.length_nil] at hle ⊢
      omega
    · simp [hi, Ne.symm hi, hle]
  · rw [binding?_clash] at hb
    split at hb
    · rename_i hi
      cases hb
      simp [hi, hfresh, Binding.sites, fresh]
    · rename_i hi
      obtain ⟨b₀, hb₀, rfl⟩ := Option.map_eq_some_iff.mp hb
      have hle := h hb₀
      simp only [if_neg hi, Nat.add_zero]
      split
      · rw [Binding.addHazard_sites]; exact hle
      · exact hle

theorem Enrolled.declareVariable {d : Draft} (h : d.Enrolled) (hd : d.Sound) (kind : BindingKind)
    (site : Site) : (d.declareVariable kind site).Enrolled := by
  intro i b hb
  rw [declareVariable_eq] at hb ⊢
  obtain ⟨h₁, _⟩ := d.notes_marked kind site (d.declare kind site).2
  rw [record_binding?] at hb
  obtain ⟨b₀, hb₀, hs⟩ : ∃ b₀, (d.declare kind site).1.binding? i = some b₀ ∧
      b₀.sites = b.sites := by
    unfold mark at hb
    split at hb
    · rw [binding?_tag] at hb
      obtain ⟨b₀, hb₀, rfl⟩ := Option.map_eq_some_iff.mp hb
      exact ⟨b₀, hb₀, by split <;> simp⟩
    · exact ⟨b, hb, rfl⟩
  have hle := h.declare hd hb₀
  rw [hs] at hle
  have hlisted : ((d.declare kind site).1.mark (d.declare kind site).2 site).listed i =
      d.listed i := by
    unfold listed
    rw [h₁]
  unfold record
  split
  · have hnote := listed_noteStatement ((d.declare kind site).1.mark (d.declare kind site).2 site)
      (d.declare kind site).2 i
    rw [hlisted] at hnote
    exact Nat.le_trans hnote hle
  · rw [hlisted]
    omega

theorem Enrolled.step {d d' : Draft} (h : d.Enrolled) (hd : d.Sound) {e : Event}
    (he : d.step e = .ok d') : d'.Enrolled := by
  rcases step_declares he with ⟨ht, _⟩ | ⟨kind, site, _, rfl⟩
  · intro i b hb
    rw [binding?, ht] at hb
    rw [listed, ht]
    exact h hb
  · exact h.declareVariable hd kind site

theorem Enrolled.steps {d d' : Draft} (h : d.Enrolled) (hd : d.Sound) {es : List Event}
    (hs : d.steps es = .ok d') : d'.Enrolled :=
  hd.invariant (P := Enrolled) (fun h hd he => h.step hd he) h hs

theorem enrolled_ofScript {script : Node} {d : Draft}
    (h : Draft.steps {} (Event.ofScript script) = .ok d) : d.Enrolled := by
  obtain ⟨m, hm, hbody⟩ := steps_cons_ok.mp h
  cases hm
  exact Enrolled.steps (fun hb => by cases hb) (Sound.start script.span) hbody

end Draft

/-! ### One statement for each declaration -/

/-- What is listed once is a member of one statement. -/
theorem number_eq_of_listed_once {es : List StatementEntry} {i : BindingId}
    (h : (es.flatMap (·.members)).count i ≤ 1) {m n : Nat} {e e' : StatementEntry}
    (he : es[m]? = some e) (he' : es[n]? = some e') (hi : i ∈ e.members) (hi' : i ∈ e'.members) :
    m = n := by
  induction es generalizing m n with
  | nil => cases he
  | cons x es ih =>
    rw [List.flatMap_cons, List.count_append] at h
    have hin : ∀ {k : Nat} {y : StatementEntry}, es[k]? = some y → i ∈ y.members →
        0 < (es.flatMap (·.members)).count i := fun hy hiy =>
      List.count_pos_iff.mpr (List.mem_flatMap.mpr ⟨_, List.mem_of_getElem? hy, hiy⟩)
    cases m with
    | zero =>
      cases he
      cases n with
      | zero => rfl
      | succ n =>
        have h₁ := List.count_pos_iff.mpr hi
        have h₂ := hin he' hi'
        omega
    | succ m =>
      cases n with
      | zero =>
        cases he'
        have h₁ := List.count_pos_iff.mpr hi'
        have h₂ := hin he hi
        omega
      | succ n => exact congrArg (· + 1) (ih (by omega) he he')

theorem eq_of_listed_once {es : List StatementEntry} {i : BindingId}
    (h : (es.flatMap (·.members)).count i ≤ 1) {e e' : StatementEntry} (he : e ∈ es)
    (he' : e' ∈ es) (hi : i ∈ e.members) (hi' : i ∈ e'.members) : e = e' := by
  obtain ⟨m, hm⟩ := List.mem_iff_getElem?.mp he
  obtain ⟨n, hn⟩ := List.mem_iff_getElem?.mp he'
  cases number_eq_of_listed_once h hm hn hi hi'
  exact Option.some.inj (hm.symm.trans hn)

end ScopeLowering
