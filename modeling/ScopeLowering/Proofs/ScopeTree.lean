import ScopeLowering.Proofs.Standing

/-!
# The tree of scopes

The scopes of a script form a tree, kept in an arena (`arena_ofScript`). Scopes are numbered as they
open, so a scope comes right before all that stands inside of it, and parents and lists of children
say the same.

## The model

Opening and closing scopes is enough for the numbers to come out this way, whatever the events are
(`Draft.Numbered`): the scopes around the current one are those that still grow. That a scope is
written within its parent depends on the script, so the spans are followed along the brackets of its
events (`Draft.Placed`).
-/

namespace ScopeLowering

namespace Graph

/-- The scopes with the numbers from `id` up to `stop` are `id` and those inside of it. -/
structure IsRun (g : Graph) (id stop : Nat) : Prop where
  lt : id < stop
  le : stop ≤ g.size
  isWithin_iff : ∀ t < g.size, g.isWithin t id = true ↔ id ≤ t ∧ t < stop

/-- The scope is written within the other one, and is not a whole script. -/
structure Fits (g : Graph) (id up : ScopeId) : Prop where
  kind : g.kind? id ≠ some .program
  span : ∃ s t, g.span? id = some s ∧ g.span? up = some t ∧ s.isWithin t = true

/-- A tree of scopes in an arena. -/
structure IsArena (g : Graph) : Prop where
  /-- The first scope is the script's own. -/
  root : g.kind? 0 = some .program ∧ g.parent? 0 = none
  /-- Every other scope comes after its parent, and is written within it. -/
  parent : ∀ id < g.size, id ≠ 0 → ∃ up < id, g.parent? id = some up ∧ g.Fits id up
  /-- Climbing takes one parent after the other, and ends at the first scope. -/
  ancestors : ∀ id < g.size, g.ancestors id = id :: (g.parent? id).elim [] g.ancestors ∧
    (g.ancestors id).getLast? = some 0
  children : ∀ id < g.size,
    g.children? id = some ((List.range g.size).filter fun c => g.parent? c == some id)
  preorder : ∀ id < g.size, ∃ stop, g.IsRun id stop
  function : ∀ id < g.size, (g.ancestors id).find? g.isLevel = some (g.nearestFunction id)

variable {g : Graph}

namespace Sound

theorem ancestors_eq (hg : g.Sound) (id : Nat) :
    g.ancestors id = id :: (g.parent? id).elim [] g.ancestors := by
  cases hp : g.parent? id with
  | none => exact ancestors_root hp
  | some up => exact hg.ancestors_up hp

theorem getLast?_ancestors (hg : g.Sound) {id : Nat} (h : id < g.size) :
    (g.ancestors id).getLast? = some 0 := by
  induction id using hg.induction with
  | root id hp => rw [ancestors_root hp, hg.rooted h hp]; rfl
  | up id up hp ih =>
    rw [hg.ancestors_up hp, List.getLast?_cons, ih (Nat.lt_trans (hg.parent_lt hp) h)]
    rfl

/-- The nearest function of a scope is the first function level on the way up. -/
theorem find?_isLevel (hg : g.Sound) {id : Nat} (h : id < g.size) :
    (g.ancestors id).find? g.isLevel = some (g.nearestFunction id) := by
  have hrule := hg.level_rule h
  induction id using hg.induction with
  | root id hp =>
    rw [ancestors_root hp]
    split at hrule
    · rw [List.find?_cons_of_pos ‹_›, hrule]
    · obtain ⟨up, hup, _⟩ := hrule
      rw [hp] at hup
      cases hup
  | up id up hp ih =>
    rw [hg.ancestors_up hp]
    split at hrule
    · rw [List.find?_cons_of_pos ‹_›, hrule]
    · obtain ⟨up', hup, hf⟩ := hrule
      rw [hp] at hup
      cases hup
      have hlt := Nat.lt_trans (hg.parent_lt hp) h
      rw [List.find?_cons_of_neg ‹_›, hf, ih hlt (hg.level_rule hlt)]

theorem isLevel_nearestFunction (hg : g.Sound) {id : Nat} (h : id < g.size) :
    g.isLevel (g.nearestFunction id) = true := List.find?_some (hg.find?_isLevel h)

end Sound

end Graph

/-- Only scopes change the spans of the open ones. -/
theorem Event.rooms_of_brackets? {bs bs' : List Bracket} {e : Event} (he : e.keepsScopes = true)
    (h : e.brackets? bs = some bs') : Bracket.rooms bs' = Bracket.rooms bs := by
  cases e with
  | enter | leave => cases he
  | closeStatement =>
    obtain ⟨htop, ⟨⟩⟩ := Option.ite_none_right_eq_some.mp h
    obtain ⟨cs, rfl⟩ := List.head?_eq_some_iff.mp htop
    rfl
  | declare kind =>
    cases kind with
    | declared =>
      obtain ⟨_, ⟨⟩⟩ := Option.ite_none_right_eq_some.mp h
      rfl
    | _ => cases h; rfl
  | _ => cases h; rfl

namespace Draft

variable {d d' : Draft}

theorem Grows.ancestors_eq (hg : d.Grows d') (hd : d.graph.Sound) (hd' : d'.graph.Sound) {t : Nat}
    (ht : t < d.graph.size) : d'.graph.ancestors t = d.graph.ancestors t := by
  induction t using hd.induction with
  | root t hp =>
    rw [Graph.Sound.ancestors_root hp, Graph.Sound.ancestors_root (hg.parent? ht ▸ hp)]
  | up t up hp ih =>
    rw [hd.ancestors_up hp, hd'.ancestors_up (hg.parent? ht ▸ hp),
      ih (Nat.lt_trans (hd.parent_lt hp) ht)]

/-! ### Numbers -/

/-- Scopes list their children, and what is inside of a scope comes right after it. The scopes
around the current one are those that reach up to the last. -/
structure Numbered (d : Draft) : Prop where
  children : ∀ id < d.graph.size, d.graph.children? id =
    some ((List.range d.graph.size).filter fun c => d.graph.parent? c == some id)
  run : ∀ id < d.graph.size, ∃ stop, d.graph.IsRun id stop ∧
    (d.graph.isWithin d.current id = true → stop = d.graph.size)

/-- A new scope has no children, and is one of the current scope. -/
theorem children?_openScope (hc : d.current < d.graph.size) (kind : ScopeKind) (span : Span)
    (callable : Option Callable) (cases : List Span) :
    (d.openScope kind span callable cases).graph.children? d.graph.size = some [] ∧
    ∀ id < d.graph.size, (d.openScope kind span callable cases).graph.children? id =
      (d.graph.children? id).map fun cs =>
        if d.current = id then cs ++ [d.graph.size] else cs := by
  have hs : (d.openScope kind span callable cases).graph.scopes =
      d.graph.scopes.modify d.current (fun s => { s with children := s.children ++ [d.graph.size] })
        ++ [d.newScope kind span callable cases] := by
    have h0 : (d.graph.size == 0) = false := beq_false_of_ne (Nat.ne_of_gt (Nat.zero_lt_of_lt hc))
    simp only [openScope, newScope, h0]
    rfl
  unfold Graph.children? Graph.scope?
  rw [hs]
  refine ⟨?_, fun id hid => ?_⟩
  · rw [List.getElem?_append_right (by rw [List.length_modify]; exact Nat.le_refl _),
      List.length_modify]
    simp [Graph.size, newScope]
  · rw [List.getElem?_append_left (by rw [List.length_modify]; exact hid), List.getElem?_modify]
    cases d.graph.scopes[id]? with
    | none => rfl
    | some s => by_cases hi : d.current = id <;> simp [hi]

namespace Numbered

section Open

variable (h : d.Numbered) (hd : d.Sound) (kind : ScopeKind) (span : Span)
  (callable : Option Callable) (cases : List Span)
include h hd

theorem children_openScope (id : Nat) (hid : id < d.graph.size + 1) :
    (d.openScope kind span callable cases).graph.children? id =
      some ((List.range (d.graph.size + 1)).filter fun c =>
        (d.openScope kind span callable cases).graph.parent? c == some id) := by
  obtain ⟨hnew, hold⟩ := children?_openScope hd.current kind span callable cases
  have hrange : ((List.range d.graph.size).filter fun c =>
      (d.openScope kind span callable cases).graph.parent? c == some id) =
      (List.range d.graph.size).filter fun c => d.graph.parent? c == some id :=
    List.filter_congr fun c hc => by
      rw [(d.grows_openScope kind span callable cases).parent? (List.mem_range.mp hc)]
  rw [List.range_succ, List.filter_append, hrange, List.filter_singleton,
    Sound.parent?_openScope hd.current]
  rcases Nat.lt_succ_iff_lt_or_eq.mp hid with hlt | rfl
  · rw [hold id hlt, h.children id hlt]
    by_cases hi : d.current = id
    · simp [hi]
    · simp [hi, beq_false_of_ne hi]
  · -- no scope is made before its parent
    have hnone : ((List.range d.graph.size).filter fun c =>
        d.graph.parent? c == some d.graph.size) = [] := by
      rw [List.filter_eq_nil_iff]
      intro c hc hp
      exact absurd (hd.graph.parent_lt (eq_of_beq hp)) (Nat.lt_asymm (List.mem_range.mp hc))
    rw [hnew, hnone, beq_false_of_ne fun h => Nat.ne_of_lt hd.current (Option.some.inj h)]
    rfl

theorem run_openScope (id : Nat) (hid : id < d.graph.size + 1) :
    ∃ stop, (d.openScope kind span callable cases).graph.IsRun id stop ∧
      ((d.openScope kind span callable cases).graph.isWithin d.graph.size id = true →
        stop = d.graph.size + 1) := by
  have hm := (hd.openScope kind span callable cases).graph
  have hsize := Sound.size_openScope d kind span callable cases
  have hold : ∀ t < d.graph.size, ∀ id,
      (d.openScope kind span callable cases).graph.isWithin t id = d.graph.isWithin t id := by
    intro t ht id
    rw [Graph.isWithin, Graph.isWithin,
      (d.grows_openScope kind span callable cases).ancestors_eq hd.graph hm ht]
  have hnew : ∀ id : Nat,
      (d.openScope kind span callable cases).graph.isWithin d.graph.size id = true ↔
        id = d.graph.size ∨ d.graph.isWithin d.current id = true := by
    intro id
    rw [hm.isWithin_up (Sound.parent?_openScope hd.current ..), hold _ hd.current]
  -- the new scope is the last one of a run just if the run is around it
  by_cases hw : (d.openScope kind span callable cases).graph.isWithin d.graph.size id = true
  · refine ⟨d.graph.size + 1, ⟨hid, Nat.le_of_eq hsize.symm, fun t ht => ?_⟩, fun _ => rfl⟩
    rcases Nat.lt_succ_iff_lt_or_eq.mp (hsize ▸ ht) with hlt | rfl
    · rcases (hnew id).mp hw with rfl | hc
      · exact iff_of_false (fun h => absurd (hm.isWithin_le h) (by omega)) (by omega)
      · obtain ⟨stop, hrun, hlast⟩ := h.run id (Nat.lt_of_le_of_lt
          (hd.graph.isWithin_le hc) hd.current)
        rw [hold t hlt, hrun.isWithin_iff t hlt, hlast hc]
        omega
    · exact iff_of_true hw (by omega)
  · have hlt : id < d.graph.size := by
      rw [hnew, not_or] at hw
      omega
    obtain ⟨stop, ⟨hstop, hle, hin⟩, _⟩ := h.run id hlt
    refine ⟨stop, ⟨hstop, by omega, fun t ht => ?_⟩, fun h => absurd h hw⟩
    rcases Nat.lt_succ_iff_lt_or_eq.mp (hsize ▸ ht) with ht | rfl
    · rw [hold t ht, hin t ht]
    · exact iff_of_false hw (by omega)

theorem openScope : (d.openScope kind span callable cases).Numbered := by
  constructor <;> rw [Sound.size_openScope]
  · exact h.children_openScope hd kind span callable cases
  · exact h.run_openScope hd kind span callable cases

end Open

theorem closeScope (h : d.Numbered) (hd : d.Sound) : d.closeScope.Numbered := by
  refine ⟨h.children, fun id hid => ?_⟩
  obtain ⟨stop, hrun, hlast⟩ := h.run id hid
  refine ⟨stop, hrun, fun hw => hlast ?_⟩
  change d.graph.isWithin ((d.graph.parent? d.current).getD 0) id = true at hw
  cases hp : d.graph.parent? d.current with
  | none => rwa [hp, Option.getD_none, ← hd.graph.rooted hd.current hp] at hw
  | some up =>
    rw [hp] at hw
    exact (hd.graph.isWithin_up hp).mpr (.inr hw)

theorem step (h : d.Numbered) (hd : d.Sound) {e : Event} (hs : d.step e = .ok d') :
    d'.Numbered := by
  rcases step_scopes hs with ⟨kind, span, callable, cases, _, rfl⟩ | ⟨_, rfl⟩ | ⟨_, hsame⟩
  · exact h.openScope hd kind span callable cases
  · exact h.closeScope hd
  · have hsize := Graph.size_of_outlines hsame.outlines
    refine ⟨fun id hid => ?_, fun id hid => ?_⟩
    · rw [hsame.children, h.children id (hsize ▸ hid), hsize,
        Graph.parent?_of_outlines hsame.outlines]
    · obtain ⟨stop, ⟨hlt, hle, hin⟩, hlast⟩ := h.run id (hsize ▸ hid)
      refine ⟨stop, ⟨hlt, hsize ▸ hle, ?_⟩, ?_⟩
      · rwa [hsize, Graph.isWithin_of_outlines hsame.outlines]
      · rwa [hsize, Graph.isWithin_of_outlines hsame.outlines, hsame.current]

theorem steps (h : d.Numbered) (hd : d.Sound) {es : List Event} (hs : d.steps es = .ok d') :
    d'.Numbered :=
  hd.invariant (fun h hd he => h.step hd he) h hs

theorem start (span : Span) : (({} : Draft).openScope .program span none []).Numbered := by
  refine ⟨fun id hid => ?_, fun id hid => ?_⟩ <;> obtain rfl := Nat.lt_one_iff.mp hid
  · rfl
  · refine ⟨1, ⟨Nat.zero_lt_one, Nat.le_refl 1, fun t ht => ?_⟩, fun _ => rfl⟩
    obtain rfl := Nat.lt_one_iff.mp ht
    exact iff_of_true rfl (by omega)

end Numbered

/-! ### Spans -/

/-- Every scope is written within its parent, and the open brackets hold the spans of the scopes
around the current one. -/
structure Placed (bs : List Bracket) (d : Draft) : Prop where
  fits : ∀ {id up : Nat}, d.graph.parent? id = some up → d.graph.Fits id up
  rooms : Bracket.rooms bs <+: (d.graph.ancestors d.current).filterMap d.graph.span?

namespace Placed

variable {bs bs' : List Bracket}

theorem openScope (h : Placed bs d) (hd : d.Sound) {kind : ScopeKind} (hk : kind ≠ .program)
    {span : Span} (hroom : (Bracket.rooms bs).head?.any span.isWithin = true)
    (callable : Option Callable) (cases : List Span) :
    Placed (.scope span :: bs) (d.openScope kind span callable cases) := by
  have hg := d.grows_openScope kind span callable cases
  have hm := (hd.openScope kind span callable cases).graph
  have hparent := Sound.parent?_openScope hd.current kind span callable cases
  have hspan : ∀ t < d.graph.size,
      (d.openScope kind span callable cases).graph.span? t = d.graph.span? t := by
    intro t ht
    rw [Graph.span?_eq, hg.outline ht, Graph.span?_eq]
  have hnew : (d.openScope kind span callable cases).graph.span? d.graph.size = some span := by
    rw [Graph.span?_eq, outline_openScope]
    rfl
  refine ⟨fun {id up} hp => ?_, ?_⟩
  · rcases Nat.lt_or_ge id d.graph.size with hi | hi
    · rw [hg.parent? hi] at hp
      obtain ⟨hkind, s, t, hs, ht, hw⟩ := h.fits hp
      have hup := Nat.lt_trans (hd.graph.parent_lt hp) hi
      refine ⟨?_, s, t, hspan id hi ▸ hs, hspan up hup ▸ ht, hw⟩
      rwa [Graph.kind?_eq, hg.outline hi, ← Graph.kind?_eq]
    · obtain rfl : id = d.graph.size := by
        have hlt := Graph.parent?_lt_size hp
        rw [Sound.size_openScope] at hlt
        omega
      rw [hparent] at hp
      cases hp
      refine ⟨?_, span, ?_⟩
      · rw [Graph.kind?_eq, outline_openScope]
        exact fun he => hk (Option.some.inj he)
      · -- the innermost open bracket is the current scope
        obtain ⟨x, hx⟩ : ∃ x, d.graph.span? d.current = some x :=
          ⟨_, congrArg (Option.map _) (List.getElem?_eq_getElem hd.current)⟩
        have hrooms := h.rooms
        rw [hd.graph.ancestors_eq, List.filterMap_cons_some hx] at hrooms
        cases hb : Bracket.rooms bs with
        | nil => rw [hb] at hroom; cases hroom
        | cons y ys =>
          rw [hb, List.cons_prefix_cons] at hrooms
          rw [hb, hrooms.1] at hroom
          exact ⟨x, hnew, (hspan _ hd.current).trans hx, hroom⟩
  · have hrest : ((d.openScope kind span callable cases).graph.ancestors d.current).filterMap
        (d.openScope kind span callable cases).graph.span? =
        (d.graph.ancestors d.current).filterMap d.graph.span? := by
      rw [hg.ancestors_eq hd.graph hm hd.current]
      refine List.filterMap_congr fun t ht => hspan t ?_
      exact Nat.lt_of_le_of_lt (hd.graph.isWithin_le (Graph.Sound.isWithin_iff.mpr ht)) hd.current
    show _ <+: ((d.openScope kind span callable cases).graph.ancestors d.graph.size).filterMap _
    rw [hm.ancestors_up hparent, List.filterMap_cons_some hnew, hrest]
    exact List.cons_prefix_cons.mpr ⟨rfl, h.rooms⟩

theorem closeScope {span : Span} (h : Placed (.scope span :: bs) d) (hd : d.Sound) :
    Placed bs d.closeScope := by
  refine ⟨h.fits, ?_⟩
  obtain ⟨x, hx⟩ : ∃ x, d.graph.span? d.current = some x :=
    ⟨_, congrArg (Option.map _) (List.getElem?_eq_getElem hd.current)⟩
  have hrooms := h.rooms
  rw [hd.graph.ancestors_eq, List.filterMap_cons_some hx] at hrooms
  have hrest := (List.cons_prefix_cons.mp hrooms).2
  show _ <+: (d.graph.ancestors ((d.graph.parent? d.current).getD 0)).filterMap d.graph.span?
  cases hp : d.graph.parent? d.current with
  | none =>
    rw [hp] at hrest
    rw [List.prefix_nil.mp hrest]
    exact List.nil_prefix
  | some up => rwa [hp] at hrest

theorem step (h : Placed bs d) (hd : d.Sound) {e : Event} (hb : e.brackets? bs = some bs')
    (hs : d.step e = .ok d') : Placed bs' d' := by
  rcases step_scopes hs with ⟨kind, span, callable, cases, rfl, rfl⟩ | ⟨rfl, rfl⟩ | ⟨he, hsame⟩
  · obtain ⟨hk, hroom, rfl⟩ := Event.brackets?_enter hb
    exact h.openScope hd hk hroom callable cases
  · cases bs with
    | nil => cases hb
    | cons b bs =>
      cases b with
      | statement => cases hb
      | scope => cases hb; exact h.closeScope hd
  · have hspan : d'.graph.span? = d.graph.span? := by
      funext id
      rw [Graph.span?_eq, hsame.outlines, Graph.span?_eq]
    refine ⟨fun {id up} hp => ?_, ?_⟩
    · rw [Graph.parent?_of_outlines hsame.outlines] at hp
      obtain ⟨hkind, hfits⟩ := h.fits hp
      exact ⟨Graph.kind?_of_outlines hsame.outlines ▸ hkind, hspan ▸ hfits⟩
    · rw [Event.rooms_of_brackets? he hb, hspan, Graph.ancestors_of_outlines hsame.outlines,
        hsame.current]
      exact h.rooms

end Placed

/-- Every scope of a script is written within its parent. -/
theorem fits_ofScript {script : Node} (h : Draft.steps {} (Event.ofScript script) = .ok d)
    {id up : Nat} (hp : d.graph.parent? id = some up) : d.graph.Fits id up := by
  have hend := bracketed_ofScript (fun h hd he hm => Placed.step h hd he hm) h
    ⟨(fun {id up} hp => by cases id <;> cases hp), List.prefix_refl _⟩
  exact hend.fits hp

theorem isArena_ofScript {script : Node} (h : Draft.steps {} (Event.ofScript script) = .ok d) :
    d.graph.IsArena := by
  have hfits := @fits_ofScript d script h
  have hd := sound_ofScript h
  obtain ⟨m, hm, hbody⟩ := steps_cons_ok.mp h
  cases hm
  have hnumbered := (Numbered.start script.span).steps (Sound.start script.span) hbody
  have hg := grows_steps hbody
  constructor
  case root =>
    rw [Graph.kind?_eq, hg.outline Nat.zero_lt_one, hg.parent? Nat.zero_lt_one]
    exact ⟨rfl, rfl⟩
  case parent =>
    intro id hid hne
    cases hp : d.graph.parent? id with
    | none => exact absurd (hd.graph.rooted hid hp) hne
    | some up => exact ⟨up, hd.graph.parent_lt hp, rfl, hfits hp⟩
  case ancestors => exact fun id hid => ⟨hd.graph.ancestors_eq id, hd.graph.getLast?_ancestors hid⟩
  case children => exact hnumbered.children
  case preorder =>
    intro id hid
    obtain ⟨stop, hrun, _⟩ := hnumbered.run id hid
    exact ⟨stop, hrun⟩
  case function => exact fun id hid => hd.graph.find?_isLevel hid

end Draft

/-- The scopes of a script are a tree, numbered in preorder, and names that are hoisted belong to
the function around each of their declarations. -/
theorem arena_ofScript {script : Node} {s : Scoping} (h : Scoping.ofScript script = .ok s) :
    s.graph.IsArena ∧
    ∀ b ∈ s.table.bindings, b.kind ∈ [.declared .varWord, .function, .param, .callee] →
      s.graph.isLevel b.scope = true ∧
      ∀ site ∈ b.sites,
        site.scope < s.graph.size ∧ s.graph.nearestFunction site.scope = b.scope := by
  obtain ⟨d, hd, rfl⟩ := Scoping.ofScript_ok h
  have hsound := Draft.sound_ofScript hd
  rw [d.finish_graph]
  refine ⟨Draft.isArena_ofScript hd, fun b hb hk => ?_⟩
  obtain ⟨i, hi⟩ := List.mem_iff_getElem?.mp hb
  obtain ⟨b₀, hazards, hb₀, rfl, _⟩ := Draft.binding_of_finish hi
  have hfs : b₀.kind.isFunctionScoped = true := by
    simp only [List.mem_cons, List.not_mem_nil, or_false] at hk
    rcases hk with hk | hk | hk | hk <;> rw [show b₀.kind = _ from hk] <;> rfl
  have hsites : ∀ site ∈ b₀.sites,
      site.scope < d.graph.size ∧ d.graph.nearestFunction site.scope = b₀.scope := by
    intro site hs
    obtain ⟨_, hlt, hscope⟩ := hsound.sites hb₀ site hs
    rw [Graph.owner, if_pos hfs] at hscope
    exact ⟨hlt, hscope.symm⟩
  obtain ⟨hlt, hscope⟩ := hsites b₀.first List.mem_cons_self
  exact ⟨hscope ▸ hsound.graph.isLevel_nearestFunction hlt, hsites⟩

/-- `var a; function f(p) { { var b; } } while (a) {}`. -/
def hoistingScript : Node :=
  let var (name : String) (l : Int) : Node :=
    .varDecl .varWord [.declarator ⟨name, .of (l + 4) (l + 5)⟩ .absent (.of (l + 4) (l + 5))]
      (.of l (l + 6))
  .program [var "a" 0,
    .function .declaration (some ⟨"f", .of 16 17⟩) [⟨"p", .of 18 19⟩]
      [.block [var "b" 25] (.of 23 33)] false (.of 7 35),
    .whileStmt (.lookup ⟨"a", .of 43 44⟩) (.block [] (.of 46 48)) (.of 36 48)] (.of 0 48)

theorem arena_ofScript_hoistingScript :
    ∃ s, Scoping.ofScript hoistingScript = .ok s ∧ s.graph.IsArena ∧
      s.graph.scopes.map (·.children) = [[1, 3], [2], [], [4], []] ∧
      s.table.bindings.map (fun b => (b.name, b.scope)) =
        [("a", 0), ("f", 0), ("p", 1), ("b", 1)] := by
  obtain ⟨s, hs, hfacts⟩ := exists_ok_of_any
    (show (Scoping.ofScript hoistingScript).toOption.any (fun s =>
        decide (s.graph.scopes.map (·.children) = [[1, 3], [2], [], [4], []] ∧
          s.table.bindings.map (fun b => (b.name, b.scope)) =
            [("a", 0), ("f", 0), ("p", 1), ("b", 1)])) = true by decide +kernel)
  exact ⟨s, hs, (arena_ofScript hs).1, of_decide_eq_true hfacts⟩

end ScopeLowering
