import ScopeLowering.Proofs.EarlyErrors
import ScopeLowering.Proofs.Hoisted

/-!
# Rewritten scripts are legal

A script that obeys the rules on declarations obeys them with the keywords of its plan as well, but
for one rule that the plan does not look at: a `let` or `const` must not declare the name `let`. The
rewritten script keeps all the other rules, and it keeps that one just if no statement with a new
keyword declares the name (`Analysis.rewrite_isLegal_iff`). With `var let = 1` it does not
(`lettingScript_illegal`).

## The model

The rules count names. A name that moves into a scope is hoisted once (`Draft.Reads.once`), and no
scope that it would move past holds it (`Draft.Moves.not_held`), so the scope that gets it has it
from nowhere else.

`Keeps` says this of a stretch of a script: what its events hoist, which statements it numbers, and
what its inventory becomes. There is one combinator for each sort of scope, and the recursion over
the tree is their use (`Event.ofNode_keeps`).
-/

namespace ScopeLowering

namespace Draft

variable {D : Draft}

/-! ### `var` statements -/

/-- What is known of a name that is declared with the keyword `k` in place of `var`. -/
structure Landed (D : Draft) (k : Keyword) (c : ScopeId) (unbraced valued : Bool) (x : String) :
    Prop where
  moves : k ≠ .varWord → D.Moves c x
  braced : k ≠ .varWord → unbraced = false
  valued : k = .constWord → valued = true

/-- What the scopes of a script are like when its plan is made. -/
structure Settled (D : Draft) (key : Nat → Keyword) (kw : BindingId → Keyword) : Prop extends
    Lowering D key kw where
  sound : D.Sound
  /-- A constant has its value from the start. -/
  valued : ∀ {i b}, kw i = .constWord → D.binding? i = some b → b.first.isInitialized = true

namespace Settled

variable {key : Nat → Keyword} {kw : BindingId → Keyword} {st : Statement} {k : Keyword}
  {os : List Event.Opened} {n i : Nat} {name : Ident} {hasInit unbraced forEach : Bool}
  {ready : Offset}

/-- A name of a statement that is in the table. -/
theorem landed (h : Settled D key kw) {d : Draft} (hd : d.Sound) {site : Site}
    (hs : site.scope = d.current) (hg : (d.declareVariable (.declared .varWord) site).Grows D)
    {e : StatementEntry}
    (he : (d.declareVariable (.declared .varWord) site).table.statements[n]? = some e)
    (hk : e.statement.keyword = .varWord)
    (hm : (d.declare (.declared .varWord) site).2 ∈ e.members) :
    D.Landed (key n) d.current site.unbraced site.isInitialized site.name.text := by
  by_cases hn : key n = .varWord
  · exact ⟨(absurd hn ·), (absurd hn ·), fun hc => nomatch hn.symm.trans hc⟩
  -- the name is a member of the statement, so its binding takes the same keyword
  obtain ⟨e', he', hst, hpre⟩ := hg.entry he
  have hkw := h.keyword he' (hst ▸ hk) (hpre.subset hm)
  obtain ⟨B, hB⟩ := h.movable (i := (d.declare (.declared .varWord) site).2)
    (by rw [IsLowered, hkw]; exact hn)
  have hmark := (grows_record _ (.declared .varWord) _ site).trans hg
  obtain ⟨_, _, hfresh⟩ := hB.declare_own hd ((grows_mark _ _ site).trans hmark)
  obtain ⟨b, hb, _⟩ := hd.declare_site (.declared .varWord) site
  refine ⟨fun _ => ⟨_, B, hB, hfresh.name, ?_, ?_⟩, fun _ => hB.braced_early hmark hb,
    fun hc => ?_⟩
  · rw [((d.grows_declareVariable _ site).trans hg).nearestFunction hd.current]
    exact hfresh.scope
  · rw [hfresh.first]
    show D.graph.isWithin site.scope d.current = true
    rw [hs]
    exact Graph.Sound.isWithin_self _
  · have hvalued := h.valued (hkw.trans hc) hB.binding
    rw [hfresh.first] at hvalued
    exact hvalued

/-- The first name gives a statement its number. -/
theorem first (h : Settled D key kw) (hs : st.keyword = .varWord) :
    Runs D ⟨n, ⟨st, k, none⟩ :: os⟩
      [.declare (.declared .varWord) name (some st) hasInit ready unbraced forEach]
      ⟨n + 1, ⟨st, k, some n⟩ :: os⟩ [name.text] fun c =>
        (∃ e ∈ D.table.statements[n]?, e.statement = st) ∧
          D.Landed (key n) c unbraced (hasInit || forEach) name.text := by
  refine .declares rfl fun d hd ht d' he hg => ?_
  subst he
  obtain ⟨hfiled, hentry⟩ := ht.first hs
    { name, statement := some st, scope := d.current, hasInit, ready, unbraced, forEach }
  obtain ⟨e', he', hst, _⟩ := hg.entry hentry
  exact ⟨hfiled, ⟨e', he', hst⟩, h.landed hd rfl hg hentry hs (List.mem_singleton.mpr rfl)⟩

/-- Later names join their statement. -/
theorem later (h : Settled D key kw) :
    Runs D ⟨i, ⟨st, k, some n⟩ :: os⟩
      [.declare (.declared .varWord) name (some st) hasInit ready unbraced forEach]
      ⟨i, ⟨st, k, some n⟩ :: os⟩ [name.text] fun c =>
        D.Landed (key n) c unbraced (hasInit || forEach) name.text := by
  refine .declares rfl fun d hd ht d' he hg => ?_
  subst he
  obtain ⟨hfiled, e, hentry, hk, hm⟩ := ht.later
    { name, statement := some st, scope := d.current, hasInit, ready, unbraced, forEach }
  exact ⟨hfiled, h.landed hd rfl hg hentry hk hm⟩

end Settled

/-! ### What inventories become -/

/-- None of the statements with these numbers gets a new keyword and declares the name `let`. -/
def Sober (D : Draft) (key : Nat → Keyword) (i j : Nat) : Prop :=
  ∀ n, i ≤ n → n < j → ∀ e ∈ D.table.statements[n]?, key n ≠ .varWord →
    "let" ∉ e.statement.names

theorem sober_self (D : Draft) (key : Nat → Keyword) (i : Nat) : D.Sober key i i :=
  fun n h h' => by omega

theorem sober_append {key : Nat → Keyword} {i j k : Nat} (hij : i ≤ j) (hjk : j ≤ k) :
    D.Sober key i j ∧ D.Sober key j k ↔ D.Sober key i k := by
  constructor
  · rintro ⟨h, h'⟩ n hi hk
    by_cases hj : n < j
    · exact h n hi hj
    · exact h' n (by omega) hk
  · exact fun h => ⟨fun n hi hj => h n hi (by omega), fun n hj hk => h n (by omega) hk⟩

/-- What the inventory of a stretch in a scope becomes with the new keywords of its statements,
which have the numbers from `i` up to `j`. -/
structure Turns (D : Draft) (key : Nat → Keyword) (i j : Nat) (s s' : Inventory) (c : ScopeId) :
    Prop where
  ordered : i ≤ j
  becomes : s.Becomes (D.Moves c) (D.Sober key i j) s'

namespace Turns

variable {key : Nat → Keyword} {i j k : Nat} {s s' t t' : Inventory} {c : ScopeId}

theorem refl (i : Nat) (s : Inventory) (c : ScopeId) : D.Turns key i i s s c :=
  ⟨Nat.le_refl i, (Inventory.Becomes.refl _ s).weaken (fun _ h => h)
    (iff_of_true trivial (D.sober_self key i))⟩

theorem append (h : D.Turns key i j s s' c) (h' : D.Turns key j k t t' c) :
    D.Turns key i k (s ++ t) (s' ++ t') c :=
  ⟨Nat.le_trans h.ordered h'.ordered, (h.becomes.append h'.becomes).weaken (fun _ h => h)
    (sober_append h.ordered h'.ordered)⟩

end Turns

/-- The events of a stretch of a script with this inventory, and the inventory that it gets with the
new keywords. -/
def Keeps (D : Draft) (key : Nat → Keyword) (i : Nat) (es : List Event) (j : Nat)
    (s s' : Inventory) : Prop :=
  Reads D i es j (s.vars ++ s.functions) (D.Turns key i j s s')

namespace Keeps

variable {key : Nat → Keyword} {i j k : Nat} {es fs : List Event} {s s' t t' : Inventory}
  {P : ScopeId → Prop}

/-- A stretch without `var` statements. -/
theorem same (s : Inventory) (h : Reads D i es i (s.vars ++ s.functions) P) :
    Keeps D key i es i s s := h.imp fun c _ => .refl i s c

/-- A stretch that declares nothing. -/
theorem bare (h : Reads D i es i [] P) : Keeps D key i es i {} {} := same {} h

/-- A stretch that is no legal part of a script. -/
theorem illegal (h : Keeps D key i es j s s') :
    Keeps D key i es j { regular := false, sober := false } { regular := false, sober := false } :=
  (Reads.imp h fun _ hc => ⟨hc.ordered, { Inventory.Becomes.refl _ _ with
    sober := fun h => nomatch h }⟩).fewer fun _ => Nat.zero_le _

/-- A stretch that has no scopes. -/
theorem faulty (h : ¬ Event.Calm es) : Keeps D key i es j s s' :=
  fun _ => .faulty h

theorem append (h : Keeps D key i es j s s') (h' : Keeps D key j fs k t t') :
    Keeps D key i (es ++ fs) k (s ++ t) (s' ++ t') := by
  refine ((Reads.append h h').imp fun c hc => hc.1.append hc.2).fewer fun x => ?_
  show ((s.vars ++ t.vars) ++ (s.functions ++ t.functions)).count x ≤ _
  simp only [List.count_append]
  omega

/-- What comes before declares nothing. -/
theorem after (h : Reads D i es i [] P) (h' : Keeps D key i fs j s s') :
    Keeps D key i (es ++ fs) j s s' := Reads.after h h'

/-- What comes after declares nothing. -/
theorem before (h : Keeps D key i es j s s') (h' : Reads D j fs j [] P) :
    Keeps D key i (es ++ fs) j s s' := Reads.before h h'

theorem sole (h : Keeps D key i es j s s') : Keeps D key i es j s.sole s'.sole :=
  (Reads.imp h fun _ hc => ⟨hc.ordered, hc.becomes.sole⟩).fewer fun x => by simp [Inventory.sole]

variable (hD : D.Sound)

include hD

/-- A scope without a rule of its own. -/
theorem inside (h : Keeps D key i es j s s') (span : Span) :
    Keeps D key i ([.enter .loop span none []] ++ es ++ [.leave]) j s s' := by
  refine (Reads.enclosed rfl h span []).imp fun c hc => ?_
  obtain ⟨c', hin, hij, hb⟩ := hc
  exact ⟨hij, hb.weaken (fun _ hx => hx.outward hD hin) Iff.rfl⟩

theorem block (h : Keeps D key i es j s s') (span : Span) (cases : List Span) :
    Keeps D key i ([.enter .block span none cases] ++ es ++ [.leave]) j (s.block [])
      (s'.block []) := by
  refine ((Reads.enclosed rfl (h.once hD) span cases).imp fun c hc => ?_).fewer fun x => ?_
  · obtain ⟨c', hin, hone, hij, hb⟩ := hc
    refine ⟨hij, (hb.block fun x hx => ?_).weaken (fun _ hx => hx.outward hD hin) Iff.rfl⟩
    have := hone x hx
    simpa using this
  · simp [Inventory.block]

/-- A loop with a head. -/
theorem loop (h : Keeps D key i es j s s') (h' : Keeps D key j fs k t t') (span : Span) :
    Keeps D key i ([.enter .loop span none []] ++ (es ++ fs) ++ [.leave]) k (s.loop t)
      (s'.loop t') := by
  have hall := (Reads.append h h').once hD
  refine ((Reads.enclosed rfl hall span []).imp fun c hc => ?_).fewer fun x => ?_
  · obtain ⟨c', hin, hone, ⟨hij, hb⟩, hjk, hb'⟩ := hc
    refine ⟨Nat.le_trans hij hjk, (hb.loop hb' fun x hx => ?_).weaken
      (fun _ hx => hx.outward hD hin) (sober_append hij hjk)⟩
    have := hone x hx
    simp only [List.count_append] at this
    omega
  · simp only [Inventory.loop, List.count_append, List.count_nil]
    omega

/-- A `catch` clause, whose scope holds the parameter. -/
theorem clause (h : Keeps D key i es j s s') (span : Span) (param : Option Ident) (ready : Offset)
    (o : Node) :
    Keeps D key i ([.enter .catchClause span none []] ++ (Event.ofParam param ready o ++ es) ++
      [.leave]) j (s.block (param.toList.map (·.text))) (s'.block (param.toList.map (·.text))) := by
  have hparam : Reads D i (Event.ofParam param ready o) i [] fun c =>
      ∀ x ∈ param.toList.map (·.text), D.graph.here? x c ≠ none := by
    cases param with
    | none => exact fun _ => Runs.nil.imp fun _ _ => by simp
    | some x => exact (Reads.catchParam x ready o).imp fun _ hx => by simpa using hx
  have hall := hparam.append (h.once hD)
  refine ((Reads.enclosed rfl hall span []).imp fun c hc => ?_).fewer fun x => ?_
  · obtain ⟨c', hin, hheld, hone, hij, hb⟩ := hc
    refine ⟨hij, (hb.block fun x hx => ?_).weaken (fun _ hx => hx.outward hD hin) Iff.rfl⟩
    -- the parameter would stand in the way of a name that moves past the clause
    have hnot : x ∉ param.toList.map (·.text) := fun hm => hheld x hm (hx.not_held hD hin)
    have := hone x hx
    simp only [List.count_append, List.count_eq_zero.mpr hnot] at this ⊢
    omega
  · simp [Inventory.block]

/-- The body of a function, after its parameters. -/
theorem function (h : Keeps D key i es j s s') (h' : Reads D j fs j [] P) (span : Span)
    (callable : Option Callable) (params : List Ident) (ready : Offset) (o : Node) :
    Keeps D key i ([.enter .function span callable []] ++
      (params.flatMap (fun x => Event.declareName .param x ready o) ++ es ++ fs) ++ [.leave]) j
      (({ functions := params.map (·.text) } : Inventory) ++ s).closed
      (({ functions := params.map (·.text) } : Inventory) ++ s').closed := by
  have hall := ((Reads.params params ready o).append h).once hD
  refine (Reads.function (hall.before h') span callable).imp fun c hc => ?_
  obtain ⟨c', hone, _, hij, hb⟩ := hc
  have hparams := Inventory.Becomes.refl (D.Moves c') { functions := params.map (·.text) }
  refine ⟨hij, ((hparams.append hb).closed fun x hx => ?_).weaken (fun _ h => h)
    (and_iff_right trivial)⟩
  have := hone x hx
  show ([] ++ s.vars).count x + (params.map (·.text) ++ s.functions).count x ≤ 1
  simp only [List.count_append, List.count_nil] at this ⊢
  omega

/-- A whole script. -/
theorem whole (h : Keeps D key i es j s s') : Keeps D key i es j s.closed s'.closed := by
  refine ((h.once hD).imp fun c hc => ?_).fewer fun x => ?_
  · obtain ⟨hone, hij, hb⟩ := hc
    refine ⟨hij, hb.closed fun x hx => ?_⟩
    have := hone x hx
    rwa [List.count_append] at this
  · exact Nat.zero_le _

end Keeps

end Draft

/-! ### The events of a node -/

/-- How a node in this role stands. -/
def Role.position : Role → Position
  | soleBody => .sole
  | eachHead _ => .head
  | _ => .listed

theorem Node.withKeywords_isValued (key : Nat → Keyword) (n : Node) (i : Nat) :
    (n.withKeywords key i).1.isValued = n.isValued := by
  cases n with
  | declarator _ init _ => exact congrArg (!·) (init.withKeywords_isAbsent key i)
  | member _ _ computed _ => cases computed <;> rfl
  | varDecl keyword ds _ => cases keyword <;> cases ds <;> rfl
  | catchClause _ body _ => cases body <;> rfl
  | _ => rfl

theorem withKeywordsAll_all_isValued (key : Nat → Keyword) (ns : List Node) (i : Nat) :
    (withKeywordsAll key ns i).1.all (·.isValued) = ns.all (·.isValued) := by
  induction ns generalizing i with
  | nil => rfl
  | cons n rest ih =>
    show List.all ((n.withKeywords key i).1 :: _) _ = _
    simp only [List.all_cons, Node.withKeywords_isValued, ih]

namespace Event

open Draft

variable {D : Draft} {key : Nat → Keyword} {kw : BindingId → Keyword}

theorem valueRole_position (op : Json) (n : Node) : (valueRole op n).position = .listed := by
  unfold valueRole
  split
  · split <;> rfl
  · rfl

theorem faultIf_reads {i : Nat} (c : Bool) (f : ScopeFault) :
    Reads D i (if c then [fault f] else []) i [] fun _ => True := by
  cases c with
  | false => exact fun _ => .nil
  | true => exact fun _ => .fault f

theorem evalCalls_reads {i : Nat} (n : Node) : Reads D i (evalCalls n) i [] fun _ => True := by
  unfold evalCalls
  split
  · split
    · exact fun _ => .plain rfl fun h => (SameScopes.of_step rfl h).current
    · exact fun _ => .nil
  · exact fun _ => .nil

theorem callee_reads {i : Nat} (name : Ident) (ready : Offset) (problem : Option ScopeFault) :
    Reads D i [callee name ready problem] i [] fun _ => True := by
  refine fun _ => .plain rfl fun {d d'} h => ?_
  exact (SameScopes.of_step rfl h).current

/-- A part that may be missing. -/
theorem optional_keeps {n : Node} {i : Nat} {p : Place} {role : Role} {pos : Position}
    (ih : Keeps D key i (ofNode p role n) (n.withKeywords key i).2 (n.inventory pos)
      ((n.withKeywords key i).1.inventory pos)) :
    Keeps D key i (if n.isAbsent then [] else ofNode p role n) (n.withKeywords key i).2
      (n.inventory pos) ((n.withKeywords key i).1.inventory pos) := by
  by_cases ha : n.isAbsent = true
  · rw [if_pos ha, Node.eq_absent ha]
    exact .bare fun _ => .nil
  · rw [if_neg ha]
    exact ih

/-- One declarator, given what the declaration of its name leads to. -/
theorem declarator_runs {name : Ident} {init : Node} {s : Span} {i k : Nat} {p : Place}
    {unbraced : Bool} {each : Option Offset} {os os' : List Opened} {xs : List String}
    {Q : Bool → ScopeId → Prop}
    (ih : Keeps D key i (ofNode p (.stored name) init) (init.withKeywords key i).2
      (init.inventory .listed) ((init.withKeywords key i).1.inventory .listed))
    (st : Statement) (hd : ∀ hasInit ready, Runs D ⟨(init.withKeywords key i).2, os⟩
      [declare (.declared st.keyword) name (some st) hasInit ready unbraced each.isSome]
      ⟨k, os'⟩ xs (Q hasInit)) :
    Runs D ⟨i, os⟩
      (check (.declarator name init s) p.outer ++
        (if init.isAbsent then [] else ofNode p (.stored name) init) ++
        check (.ident name) p.outer ++
        [declare (.declared st.keyword) name (some st) (!init.isAbsent) (each.getD s.stop) unbraced
          each.isSome])
      ⟨k, os'⟩ ((init.inventory .listed).vars ++ (init.inventory .listed).functions ++ xs)
      fun c => D.Turns key i (init.withKeywords key i).2 (init.inventory .listed)
        ((init.withKeywords key i).1.inventory .listed) c ∧ Q (!init.isAbsent) c := by
  have hinit := ((optional_keeps ih).after (.check (.declarator name init s) p.outer)).before
    (.check (.ident name) p.outer)
  exact (hinit os).append (hd _ _)

/-- The names that declarators declare, one by one. -/
theorem flatMap_declared? (ds : List Node) :
    (ds.flatMap fun d => (d.declared?.map fun x => [x.text]).getD []) = boundNames ds := by
  induction ds with
  | nil => rfl
  | cons d rest ih =>
    unfold boundNames at ih ⊢
    rw [List.flatMap_cons, ih, List.filterMap_cons]
    cases d.declared? <;> rfl

/-- A `var` statement takes another keyword, for all its names. -/
theorem statement_becomes {ds : List Node} {st : Statement} {c : ScopeId} {n : Nat} {pos : Position}
    {unbraced each : Bool} (hpos : unbraced = false → pos ≠ .sole)
    (heach : pos = .head ∨ each = false) (hne : ds ≠ [])
    (he : ∃ e ∈ D.table.statements[n]?, e.statement = st) (hst : st.names = boundNames ds)
    (hds : ∀ d ∈ ds, ∃ x, d.declared? = some x ∧
      D.Landed (key n) c unbraced (d.isValued || each) x.text) :
    (Inventory.ofStatement pos .varWord (boundNames ds) (ds.all (·.isValued))).Becomes (D.Moves c)
      (D.Sober key n (n + 1))
      (.ofStatement pos (key n) (boundNames ds) (ds.all (·.isValued))) := by
  refine .statement (fun hk => ⟨fun x hx => ?_, ?_, fun hc => ?_⟩) ⟨fun hs hk => ?_, fun hs => ?_⟩
  · obtain ⟨d, hd, hx⟩ := List.mem_filterMap.mp hx
    obtain ⟨y, hy, hland⟩ := hds d hd
    rw [hy] at hx
    cases hx
    exact hland.moves hk
  · obtain ⟨d, hd⟩ := List.exists_mem_of_ne_nil ds hne
    obtain ⟨y, _, hland⟩ := hds d hd
    exact hpos (hland.braced hk)
  · refine heach.imp_right fun hfalse => List.all_eq_true.mpr fun d hd => ?_
    obtain ⟨y, _, hland⟩ := hds d hd
    simpa [hfalse] using hland.valued hc
  · obtain ⟨e, he, rfl⟩ := he
    have hlet := hs n (Nat.le_refl n) (Nat.lt_succ_self n) e he hk
    rwa [hst] at hlet
  · intro m hm hm' e' he' hk
    obtain rfl : m = n := by omega
    obtain ⟨e, he, rfl⟩ := he
    cases Option.mem_unique he he'
    rw [hst]
    exact hs hk

/-- The names of a `var` statement are hoisted along with what its values hoist. -/
theorem count_statement {k : Keyword} {pos : Position} {names : List String} {valued : Bool}
    {t : Inventory} (x : String) :
    ((Inventory.ofStatement pos k names valued ++ t).vars ++
      (Inventory.ofStatement pos k names valued ++ t).functions).count x =
      (t.vars ++ t.functions ++ if k = .varWord then names else []).count x := by
  show (((Inventory.ofStatement pos k names valued).vars ++ t.vars) ++
    ((Inventory.ofStatement pos k names valued).functions ++ t.functions)).count x = _
  unfold Inventory.ofStatement
  split <;> simp only [List.count_append, List.count_nil] <;> omega

/-- A clause that catches, as the events of its node have it. -/
theorem clause_keeps (hD : D.Sound) {n o body : Node} {param : Option Ident} {span : Span}
    {i j : Nat} {es : List Event} {s s' : Inventory} (h : Keeps D key i es j s s') :
    Keeps D key i (check n o ++ [enter .catchClause span none []] ++ ofParam param span.start n ++
      (check body n ++ es) ++ [leave]) j
      (s.block (param.toList.map (·.text))) (s'.block (param.toList.map (·.text))) := by
  have hall := Keeps.after (.check n o)
    (Keeps.clause hD (.after (.check body n) h) span param span.start n)
  rw [← List.append_assoc, ← List.append_assoc, ← List.append_assoc] at hall
  exact hall

/-- A function, given how its own name is declared outside and inside. -/
theorem function_keeps (hD : D.Sound) {n o : Node} {own self body : List Event} {i j : Nat}
    {names : List String} {s s' : Inventory} {span : Span} {callable : Option Callable}
    {params : List Ident} (h : Keeps D key i body j s s')
    (hown : Keeps D key i own i { functions := names } { functions := names })
    (hself : Reads D j self j [] fun _ => True) :
    Keeps D key i (check n o ++ own ++ [enter .function span callable []] ++
        params.flatMap (fun x => declareName .param x span.start n) ++ body ++ self ++ [leave]) j
      (({ functions := names } : Inventory) ++
        (({ functions := params.map (·.text) } : Inventory) ++ s).closed)
      (({ functions := names } : Inventory) ++
        (({ functions := params.map (·.text) } : Inventory) ++ s').closed) := by
  have hall := Keeps.append (.after (.check n o) hown)
    (Keeps.function hD h hself span callable params span.start n)
  simp only [← List.append_assoc] at hall
  exact hall

/-- A statement in its place. -/
theorem statement_keeps {n o : Node} {st : Statement} {i j : Nat} {es : List Event} {c : Bool}
    {f : ScopeFault} {s s' : Inventory}
    (h : Keeps D key i ([openStatement st] ++ es ++ [closeStatement]) j s s') :
    Keeps D key i (check n o ++ (if c then [fault f] else []) ++ [openStatement st] ++ es ++
      [closeStatement]) j s s' := by
  have hall := Keeps.after (Reads.after (.check n o) (faultIf_reads c f)) h
  simp only [← List.append_assoc] at hall
  exact hall

/-- A `var` statement, which has its number after those in its first value. -/
theorem varWord_runs {name : Ident} {init : Node} {t : Span} {rest : List Node} {st : Statement}
    {i m k : Nat} {o o' : Opened} {os : List Opened} {es fs : List Event} {unbraced each : Bool}
    {pos : Position} {u u' v v' : Inventory} (hpos : unbraced = false → pos ≠ .sole)
    (heach : pos = .head ∨ each = false)
    (hst : st.names = boundNames (.declarator name init t :: rest))
    (hfirst : Runs D ⟨i, o :: os⟩ es ⟨m + 1, o' :: os⟩ (u.vars ++ u.functions ++ [name.text])
      fun c => D.Turns key i m u u' c ∧ (∃ e ∈ D.table.statements[m]?, e.statement = st) ∧
        D.Landed (key m) c unbraced (!init.isAbsent || each) name.text)
    (hrest : Runs D ⟨m + 1, o' :: os⟩ fs ⟨k, o' :: os⟩
      (v.vars ++ v.functions ++ rest.flatMap fun d => (d.declared?.map fun x => [x.text]).getD [])
      fun c => D.Turns key (m + 1) k v v' c ∧
        ∀ d ∈ rest, ∃ x, d.declared? = some x ∧
          D.Landed (key m) c unbraced (d.isValued || each) x.text) :
    Runs D ⟨i, o :: os⟩ (es ++ fs) ⟨k, o' :: os⟩
      ((u ++ v).vars ++ (u ++ v).functions ++ boundNames (.declarator name init t :: rest))
      (D.Turns key i k
        (.ofStatement pos .varWord (boundNames (.declarator name init t :: rest))
          ((Node.declarator name init t :: rest).all (·.isValued)) ++ (u ++ v))
        (.ofStatement pos (key m) (boundNames (.declarator name init t :: rest))
          ((Node.declarator name init t :: rest).all (·.isValued)) ++ (u' ++ v'))) := by
  rw [flatMap_declared?] at hrest
  refine ((hfirst.append hrest).imp fun c hc => ?_).fewer fun x => ?_
  · obtain ⟨⟨⟨him, hu⟩, he, hd⟩, ⟨hmk, hv⟩, hds⟩ := hc
    have hbecomes := statement_becomes hpos heach (List.cons_ne_nil _ rest) he hst
      (List.forall_mem_cons.mpr ⟨⟨name, rfl, hd⟩, hds⟩)
    -- the number of the statement stands between those in its first value and in the others
    have hmk' := Nat.le_of_succ_le hmk
    refine ⟨Nat.le_trans him hmk', (hbecomes.append (hu.append hv)).weaken (fun _ h => h) ?_⟩
    rw [← sober_append him hmk', ← sober_append (Nat.le_succ m) hmk]
    exact and_left_comm
  · show ((u.vars ++ v.vars) ++ (u.functions ++ v.functions) ++
      (name.text :: boundNames rest)).count x ≤ _
    simp only [List.count_append, List.count_cons, List.count_nil]
    omega

/-- A `var` statement with its new keyword. -/
theorem inventory_varWord (d : Node) (rest : List Node) (s : Span) (i : Nat) (pos : Position) :
    ((Node.varDecl .varWord (d :: rest) s).withKeywords key i).1.inventory pos =
      .ofStatement pos (key (d.withKeywords key i).2) (boundNames (d :: rest))
        ((d :: rest).all (·.isValued)) ++ ((d.withKeywords key i).1.inventory .listed ++
          inventoryAll (withKeywordsAll key rest ((d.withKeywords key i).2 + 1)).1) := by
  show Inventory.ofStatement pos _
    (boundNames ((d.withKeywords key i).1 :: (withKeywordsAll key rest _).1))
    (List.all ((d.withKeywords key i).1 :: (withKeywordsAll key rest _).1) _) ++ _ = _
  rw [boundNames, List.filterMap_cons, withKeywordsAll_declared?, Node.withKeywords_declared?,
    List.all_cons, Node.withKeywords_isValued, withKeywordsAll_all_isValued]
  rfl

/-- Other statements keep their keyword. -/
theorem withKeywords_varDecl {keyword : Keyword} (hk : keyword ≠ .varWord) (ds : List Node)
    (s : Span) (i : Nat) :
    (Node.varDecl keyword ds s).withKeywords key i =
      (.varDecl keyword (withKeywordsAll key ds i).1 s, (withKeywordsAll key ds i).2) := by
  cases keyword with
  | varWord => exact absurd rfl hk
  | letWord | constWord => rfl

theorem inventory_varDecl (keyword : Keyword) (ds : List Node) (s : Span) (i : Nat)
    (pos : Position) :
    (Node.varDecl keyword (withKeywordsAll key ds i).1 s).inventory pos =
      .ofStatement pos keyword (boundNames ds) (ds.all (·.isValued)) ++
        inventoryAll (withKeywordsAll key ds i).1 := by
  show Inventory.ofStatement pos keyword (boundNames (withKeywordsAll key ds i).1) _ ++ _ = _
  rw [boundNames, withKeywordsAll_declared?, withKeywordsAll_all_isValued]
  rfl

/-- A `let` or `const` statement, given what its declarators lead to. -/
theorem otherWord_keeps {keyword : Keyword} (hk : keyword ≠ .varWord) {n o : Node} {c : Bool}
    {f : ScopeFault} {ds : List Node} {s : Span} {i : Nat} {es : List Event} {xs : List String}
    {pos : Position} {R : ScopeId → Prop}
    (h : ∀ os, Runs D ⟨i, ⟨statementOf keyword ds s, keyword, none⟩ :: os⟩ es
      ⟨(withKeywordsAll key ds i).2, ⟨statementOf keyword ds s, keyword, none⟩ :: os⟩
      ((inventoryAll ds).vars ++ (inventoryAll ds).functions ++ xs)
      fun c => D.Turns key i (withKeywordsAll key ds i).2 (inventoryAll ds)
        (inventoryAll (withKeywordsAll key ds i).1) c ∧ R c) :
    Keeps D key i (check n o ++ (if c then [fault f] else []) ++
        [openStatement (statementOf keyword ds s)] ++ es ++ [closeStatement])
      ((Node.varDecl keyword ds s).withKeywords key i).2
      ((Node.varDecl keyword ds s).inventory pos)
      (((Node.varDecl keyword ds s).withKeywords key i).1.inventory pos) := by
  rw [withKeywords_varDecl hk]
  refine statement_keeps ((Reads.imp (.statement h) fun c hc => ?_).fewer fun x => ?_)
  · rw [inventory_varDecl]
    exact (Turns.refl i _ c).append hc.1
  · refine Nat.le_trans (Nat.le_of_eq (count_statement x)) ?_
    rw [if_neg hk]
    simp only [List.count_append, List.count_nil]
    omega

mutual

/-- Reading a node with its place in the plan. -/
theorem ofNode_keeps (h : Settled D key kw) (n : Node) (i : Nat) (p : Place) (role : Role) :
    Keeps D key i (ofNode p role n) (n.withKeywords key i).2 (n.inventory role.position)
      ((n.withKeywords key i).1.inventory role.position) := by
  have hD := h.sound
  cases n with
  | absent | ident => exact .faulty not_calm_fault
  | literal | emptyStmt | breakStmt | continueStmt => exact .bare (.check _ _)
  | lookup | thisExpr =>
    exact .bare (Reads.after (.check _ _) fun _ => .plain rfl fun h =>
      (SameScopes.of_step rfl h).current)
  | arrayLit xs | objectLit xs | sequence xs => exact .after (.check _ _) (ofNodes_keeps h xs i _)
  | program xs => exact .after (.check _ _) ((ofNodes_keeps h xs i _).whole hD)
  | property _ x | unary _ x | exprStmt x | throwStmt x =>
    exact .after (.check _ _) (ofNode_keeps h x i _ .plain)
  | update _ x => exact .after (.check _ _) (ofNode_keeps h x i _ (.target .readwrite))
  | declarator _ x | returnStmt x =>
    exact .after (.check _ _) (optional_keeps (ofNode_keeps h x i _ .plain))
  | binary _ x y | logical _ x y =>
    exact .append (.after (.check _ _) (ofNode_keeps h x i _ .plain)) (ofNode_keeps h y _ _ .plain)
  | member x y computed =>
    cases computed with
    | true =>
      exact .append (.after (.check _ _) (ofNode_keeps h x i _ .plain))
        (ofNode_keeps h y _ _ .plain)
    | false =>
      exact .append (.after (.check _ _) (ofNode_keeps h x i _ .plain)) (.bare fun _ => .nil)
  | assign op x y =>
    have hy := ofNode_keeps h y (x.withKeywords key i).2 ⟨.assign op x y ‹_›, p.scopeStart⟩
      (valueRole op x)
    rw [valueRole_position] at hy
    exact .append (.after (.check _ _) (ofNode_keeps h x i _ (.target _))) hy
  | conditional x y z =>
    exact .append (.append (.after (.check _ _) (ofNode_keeps h x i _ .plain))
      (ofNode_keeps h y _ _ .plain)) (ofNode_keeps h z _ _ .plain)
  | call fn args =>
    exact .append (.after (Reads.after (.check _ _) (evalCalls_reads fn))
      (ofNode_keeps h fn i _ .plain)) (ofNodes_keeps h args _ _)
  | newCall fn args =>
    exact .append (.after (.check _ _) (ofNode_keeps h fn i _ .plain)) (ofNodes_keeps h args _ _)
  | function form name params body isArrow s =>
    have hbody := ofNodes_keeps h body i ⟨.function form name params body isArrow s, s.start⟩
    cases form with
    | declaration =>
      cases name with
      | none => exact function_keeps hD hbody (.faulty not_calm_fault) fun _ => .nil
      | some x =>
        exact function_keeps hD hbody (.same { functions := [x.text] }
          (Reads.declareName .function rfl (by decide) x p.scopeStart _)) fun _ => .nil
    | expression =>
      cases name with
      | none => exact function_keeps hD hbody (.bare fun _ => .nil) fun _ => .nil
      | some x => exact function_keeps hD hbody (.bare fun _ => .nil) (callee_reads _ _ _)
  | varDecl keyword ds s =>
    by_cases hk : keyword = .varWord
    · subst hk
      cases role with
      | plain | target | stored => exact ofVars_keeps h ds i p s (fun _ => nofun) (.inr rfl)
      | soleBody => exact ofVars_keeps h ds i p s nofun (.inr rfl)
      | eachHead stop => exact ofVars_keeps h ds i p s (fun _ => nofun) (.inl rfl)
    · have hds := fun unbraced each os => ofDeclarators_runs h ds i
        ⟨.varDecl keyword ds s, p.scopeStart⟩ (statementOf keyword ds s) unbraced each
        (⟨statementOf keyword ds s, keyword, none⟩ :: os) fun _ _ _ _ =>
          .plain (isPlain_declare fun h => hk (BindingKind.declared.inj h)) fun h =>
            (SameScopes.of_step rfl h).current
      cases role with
      | plain | target | stored | soleBody | eachHead => exact otherWord_keeps hk (hds _ _)
  | block xs s =>
    have hall := Keeps.after (.check (.block xs s) p.outer)
      ((ofNodes_keeps h xs i ⟨.block xs s, s.start⟩).block hD s [])
    simp only [← List.append_assoc] at hall
    exact hall
  | ifStmt x y z =>
    exact .append (.append (.after (.check _ _) (ofNode_keeps h x i _ .plain))
      (ofNode_keeps h y _ _ .soleBody).sole) (optional_keeps (ofNode_keeps h z _ _ .soleBody)).sole
  | forStmt x y z w s =>
    have hall := Keeps.after (.check (.forStmt x y z w s) p.outer) (Keeps.loop hD
      (optional_keeps (ofNode_keeps h x i ⟨.forStmt x y z w s, s.start⟩ .plain))
      (.append (.append (optional_keeps (ofNode_keeps h y _ ⟨.forStmt x y z w s, s.start⟩ .plain))
        (optional_keeps (ofNode_keeps h z _ ⟨.forStmt x y z w s, s.start⟩ .plain)))
        (ofNode_keeps h w _ ⟨.forStmt x y z w s, s.start⟩ .soleBody).sole) s)
    simp only [← List.append_assoc] at hall
    exact hall
  | forEachStmt x y z isOf s =>
    have hall := Keeps.after (.check (.forEachStmt x y z isOf s) p.outer) (Keeps.loop hD
      (ofNode_keeps h x i ⟨.forEachStmt x y z isOf s, s.start⟩ (.eachHead (subjectEnd y)))
      (.append (ofNode_keeps h y _ ⟨.forEachStmt x y z isOf s, s.start⟩ .plain)
        (ofNode_keeps h z _ ⟨.forEachStmt x y z isOf s, s.start⟩ .soleBody).sole) s)
    simp only [← List.append_assoc] at hall
    exact hall
  | whileStmt x y s =>
    have hall := Keeps.after (.check (.whileStmt x y s) p.outer) (Keeps.inside hD
      (.append (ofNode_keeps h x i ⟨.whileStmt x y s, s.start⟩ .plain)
        (ofNode_keeps h y _ ⟨.whileStmt x y s, s.start⟩ .soleBody).sole) s)
    simp only [← List.append_assoc] at hall
    exact hall
  | doWhileStmt x y s =>
    have hall := Keeps.after (.check (.doWhileStmt x y s) p.outer) (Keeps.inside hD
      (.append (ofNode_keeps h x i ⟨.doWhileStmt x y s, s.start⟩ .soleBody).sole
        (ofNode_keeps h y _ ⟨.doWhileStmt x y s, s.start⟩ .plain)) s)
    simp only [← List.append_assoc] at hall
    exact hall
  | catchClause param body s =>
    cases body with
    | block xs => exact clause_keeps hD (ofNodes_keeps h xs i _)
    | program xs | function _ _ _ xs | caseClause _ xs =>
      exact .illegal (clause_keeps hD (ofNodes_keeps h xs i _))
    | absent =>
      exact .faulty fun hc => not_calm_fault (calm_append.mp (calm_append.mp hc).1).2
    | _ =>
      exact .faulty fun hc =>
        not_calm_fault (calm_append.mp (calm_append.mp (calm_append.mp hc).1).2).2
  | tryStmt x y z =>
    exact .append (.append (.after (.check _ _) (ofNode_keeps h x i _ .plain))
      (optional_keeps (ofNode_keeps h y _ _ .plain))) (optional_keeps (ofNode_keeps h z _ _ .plain))
  | caseClause x xs =>
    exact .append (.after (.check _ _) (optional_keeps (ofNode_keeps h x i _ .plain)))
      (ofNodes_keeps h xs _ _)
  | switchStmt x xs s =>
    have hall := Keeps.append (.before (.after (.check (.switchStmt x xs s) p.outer)
      (ofNode_keeps h x i ⟨.switchStmt x xs s, p.scopeStart⟩ .plain))
      (faultIf_reads (xs.any (·.isAbsent)) .noPart))
      ((ofNodes_keeps h xs _ ⟨.switchStmt x xs s, s.start⟩).block hD s (xs.map (·.span)))
    simp only [← List.append_assoc] at hall
    exact hall
  | withStmt x y =>
    exact .append (.after (Reads.after (.check _ _) fun _ => .plain rfl fun h =>
      (SameScopes.of_step rfl h).current) (ofNode_keeps h x i _ .plain))
      (ofNode_keeps h y _ _ .soleBody).sole

/-- Reading a `var` statement, however it stands. -/
theorem ofVars_keeps (h : Settled D key kw) (ds : List Node) (i : Nat) (p : Place) (s : Span)
    {pos : Position} {unbraced : Bool} {each : Option (Option Offset)}
    (hpos : unbraced = false → pos ≠ .sole)
    (heach : pos = .head ∨ (each.bind id).isSome = false) :
    Keeps D key i
      (check (.varDecl .varWord ds s) p.outer ++
        (if each == some none then [fault .noPart] else []) ++
        [openStatement (statementOf .varWord ds s)] ++
        ofDeclarators { p with outer := .varDecl .varWord ds s } (statementOf .varWord ds s)
          unbraced (each.bind id) ds ++ [closeStatement])
      ((Node.varDecl .varWord ds s).withKeywords key i).2
      ((Node.varDecl .varWord ds s).inventory pos)
      (((Node.varDecl .varWord ds s).withKeywords key i).1.inventory pos) := by
  cases ds with
  | nil => exact statement_keeps (.same _ (.statement fun _ => .nil))
  | cons d rest =>
    cases d with
    | declarator name init t =>
      have hinit := ofNode_keeps h init i
        ⟨.varDecl .varWord (.declarator name init t :: rest) s, p.scopeStart⟩ (.stored name)
      have hrest := fun os => ofDeclarators_runs h rest ((init.withKeywords key i).2 + 1)
        ⟨.varDecl .varWord (.declarator name init t :: rest) s, p.scopeStart⟩
        (statementOf .varWord (.declarator name init t :: rest) s) unbraced (each.bind id)
        (⟨statementOf .varWord (.declarator name init t :: rest) s, .varWord,
          some (init.withKeywords key i).2⟩ :: os) fun _ _ _ _ => h.later
      have hall := Reads.statement fun os => varWord_runs (t := t) hpos heach rfl
        (declarator_runs (s := t) hinit (statementOf .varWord (.declarator name init t :: rest) s)
          fun _ _ => h.first rfl) (hrest os)
      refine statement_keeps ((Reads.imp hall fun c hc => ?_).fewer fun x => ?_)
      · rw [inventory_varWord]
        exact hc
      · exact Nat.le_of_eq (count_statement x)
    | absent =>
      exact .faulty fun hc => not_calm_fault
        (calm_append.mp (calm_append.mp (calm_append.mp hc).1).2).1
    | _ =>
      exact .faulty fun hc => not_calm_fault
        (calm_append.mp (calm_append.mp (calm_append.mp (calm_append.mp hc).1).2).1).2

/-- Reading the declarators of a statement, given what the declaration of a name leads to. -/
theorem ofDeclarators_runs (h : Settled D key kw) (ds : List Node) (i : Nat) (p : Place)
    (st : Statement) (unbraced : Bool) (each : Option Offset) (os : List Opened)
    {f : Ident → List String} {Q : Ident → Bool → ScopeId → Prop}
    (hd : ∀ j name hasInit ready, Runs D ⟨j, os⟩
      [declare (.declared st.keyword) name (some st) hasInit ready unbraced each.isSome] ⟨j, os⟩
      (f name) (Q name hasInit)) :
    Runs D ⟨i, os⟩ (ofDeclarators p st unbraced each ds) ⟨(withKeywordsAll key ds i).2, os⟩
      ((inventoryAll ds).vars ++ (inventoryAll ds).functions ++
        ds.flatMap fun d => (d.declared?.map f).getD [])
      fun c => D.Turns key i (withKeywordsAll key ds i).2 (inventoryAll ds)
          (inventoryAll (withKeywordsAll key ds i).1) c ∧
        ∀ d ∈ ds, ∃ x, d.declared? = some x ∧ Q x d.isValued c := by
  cases ds with
  | nil =>
    exact Runs.nil.imp fun c _ => ⟨.refl i _ c, List.forall_mem_nil _⟩
  | cons d rest =>
    cases d with
    | declarator name init s =>
      refine (((declarator_runs (ofNode_keeps h init i p (.stored name)) st (hd _ name)).append
        (ofDeclarators_runs h rest _ p st unbraced each os hd)).imp fun c hc => ?_).fewer
          fun x => ?_
      · obtain ⟨⟨hinit, hq⟩, hrest, hall⟩ := hc
        exact ⟨hinit.append hrest, List.forall_mem_cons.mpr ⟨⟨name, rfl, hq⟩, hall⟩⟩
      · show (((init.inventory .listed).vars ++ (inventoryAll rest).vars) ++
          ((init.inventory .listed).functions ++ (inventoryAll rest).functions) ++
          (f name ++ rest.flatMap fun d => (d.declared?.map f).getD [])).count x ≤ _
        simp only [List.count_append]
        omega
    | absent => exact .faulty fun hc => not_calm_fault (calm_append.mp hc).1
    | _ =>
      exact .faulty fun hc => not_calm_fault (calm_append.mp (calm_append.mp hc).1).2

theorem ofNodes_keeps (h : Settled D key kw) (ns : List Node) (i : Nat) (p : Place) :
    Keeps D key i (ofNodes p ns) (withKeywordsAll key ns i).2 (inventoryAll ns)
      (inventoryAll (withKeywordsAll key ns i).1) := by
  cases ns with
  | nil => exact .bare fun _ => .nil
  | cons n rest =>
    exact .append (optional_keeps (ofNode_keeps h n i p .plain)) (ofNodes_keeps h rest _ p)

end

end Event

/-! ### Whole scripts -/

/-- A lowered binding of a script with an analysis has what its keyword asks for. -/
theorem Analysis.settled {script : Node} {o : Options} {a : Analysis}
    (h : Analysis.ofScript script o = .ok a) :
    ∃ d : Draft, Draft.steps {} (Event.ofScript script) = .ok d ∧
      a.table.statements = d.table.statements ∧ d.Settled a.keywordAt a.keywordOf := by
  obtain ⟨d, hd, hscoping, hlow⟩ := Analysis.lowering h
  obtain ⟨_, _, _, hds, _⟩ := Analysis.ofScript_ok h
  rw [Analysis.table, hscoping] at hds
  refine ⟨d, hd, ?_, { hlow with
    sound := Draft.sound_ofScript hd
    valued := fun {i b} hk hb => ?_ }⟩
  · rw [Analysis.table, hscoping]
    exact d.finish_statements
  · have hl : IsLowered a.keywordOf i := by
      rw [IsLowered, hk]
      decide
    obtain ⟨v, hv, hne, hkey⟩ := Analysis.verdict_of_isLowered hl
    rw [hds] at hv
    obtain ⟨b', hb', _, _, _, hconst⟩ := Draft.unblocked_of_verdict hv hne
    obtain ⟨b₀, _, hb₀, rfl, _⟩ := Draft.binding_of_finish hb'
    cases hb.symm.trans hb₀
    rw [hk] at hkey
    cases v with
    | toBlockConst => exact (hconst rfl).2
    | toBlockLet | keep => cases hkey

/-- The rewritten form of a legal script obeys the rules on declarations, but for the one on the
name `let`, and it obeys that one just if no statement with a new keyword declares the name. -/
theorem Analysis.rewrite_isLegal_iff {script : Node} {o : Options} {a : Analysis}
    (hl : script.isLegal = true) (h : Analysis.ofScript script o = .ok a) :
    (a.rewrite script).isRegular = true ∧
      ((a.rewrite script).isLegal = true ↔ ∀ (n : Nat) (e : StatementEntry),
        a.table.statements[n]? = some e → a.keywordAt n ≠ .varWord →
          "let" ∉ e.statement.names) := by
  obtain ⟨d, hd, hstatements, hs⟩ := Analysis.settled h
  obtain ⟨m, hm, hbody⟩ := Draft.steps_cons_ok.mp hd
  cases hm
  obtain ⟨hr, hb⟩ := Event.ofNode_keeps hs script 0 ⟨.absent, script.span.start⟩ .plain [] _ d
    (Draft.Sound.start script.span) (Draft.Filed.start script.span) hbody (.refl d)
  obtain ⟨hregular, hsober⟩ := Bool.and_eq_true_iff.mp hl
  have hregular' : (a.rewrite script).isRegular = true := hb.becomes.regular hregular
  refine ⟨hregular', ?_⟩
  calc (a.rewrite script).isLegal = true
      ↔ ((a.rewrite script).inventory .listed).sober = true := by
        rw [Node.isLegal, Bool.and_eq_true, and_iff_right hregular']
    _ ↔ d.Sober a.keywordAt 0 (script.withKeywords a.keywordAt 0).2 := hb.becomes.sober hsober
    _ ↔ _ := ?_
  have hnext : (script.withKeywords a.keywordAt 0).2 = d.table.statements.length := hr.filed.next
  rw [hstatements, hnext]
  constructor
  · exact fun hall n e he => hall n (Nat.zero_le n) (List.getElem?_eq_some_iff.mp he).1 e he
  · exact fun hall n _ _ e he => hall n e he

/-- `{ const y = 1; var x = 2; }` -/
def pairingScript : Node :=
  .program [.block
    [.varDecl .constWord [.declarator ⟨"y", .of 8 9⟩ (.literal (.json (.int 1)) (.of 12 13))
        (.of 8 13)] (.of 2 14),
      .varDecl .varWord [.declarator ⟨"x", .of 19 20⟩ (.literal (.json (.int 2)) (.of 23 24))
        (.of 19 24)] (.of 15 25)] (.of 0 27)] (.of 0 27)

theorem rewrite_isLegal_iff_pairingScript :
    pairingScript.isLegal = true ∧ ∃ a, Analysis.ofScript pairingScript {} = .ok a ∧
      a.edits.length = 1 ∧ (a.rewrite pairingScript).isLegal = true := by
  have hl : pairingScript.isLegal = true := by decide +kernel
  obtain ⟨a, ha, he⟩ := exists_ok_of_any
    (show (Analysis.ofScript pairingScript {}).toOption.any (fun a => decide (a.edits.length = 1 ∧
      ∀ e ∈ a.table.statements, "let" ∉ e.statement.names)) = true by decide +kernel)
  obtain ⟨hedits, hnames⟩ := of_decide_eq_true he
  exact ⟨hl, a, ha, hedits, (Analysis.rewrite_isLegal_iff hl ha).2.mpr
    fun _ e hn _ => hnames e (List.mem_of_getElem? hn)⟩

/-- `var let = 1;` -/
def lettingScript : Node :=
  .program [.varDecl .varWord [.declarator ⟨"let", .of 4 7⟩ (.literal (.json (.int 1)) (.of 10 11))
    (.of 4 11)] (.of 0 12)] (.of 0 12)

/-- A legal script that its plan makes illegal: the `var` becomes a `const` of the name `let`. -/
theorem lettingScript_illegal :
    lettingScript.isLegal = true ∧ ∃ a, Analysis.ofScript lettingScript {} = .ok a ∧
      (a.rewrite lettingScript).isLegal = false := by
  refine ⟨by decide +kernel, ?_⟩
  obtain ⟨a, ha, hn⟩ := exists_ok_of_any
    (show (Analysis.ofScript lettingScript {}).toOption.any
        (fun a => !(a.rewrite lettingScript).isLegal) = true by decide +kernel)
  exact ⟨a, ha, (Bool.not_eq_true' _).mp hn⟩

end ScopeLowering
