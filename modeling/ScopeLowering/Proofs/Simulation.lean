import ScopeLowering.Proofs.Filing

/-!
# The rewritten script, event by event

Every event of a script takes its draft and that of the rewritten script from one pair that mirror
each other to the next (`Mirrors`). The one way in which the second script can fail where the first
does not is the own name of a function expression that stands outside of the function's text.

## The model

Statements that keep `var` are numbered anew in the second script, with the lowered ones left out:
statement `n` of the first script is statement `rank key n` of the second.
-/

namespace ScopeLowering

/-! ### Statements that keep their keyword -/

/-- How many statements before this one keep `var`. -/
def rank (key : Nat → Keyword) : Nat → Nat
  | 0 => 0
  | n + 1 => rank key n + if key n = .varWord then 1 else 0

theorem rank_succ_kept {key : Nat → Keyword} {n : Nat} (h : key n = .varWord) :
    rank key (n + 1) = rank key n + 1 := by
  rw [rank, if_pos h]

theorem rank_succ_lowered {key : Nat → Keyword} {n : Nat} (h : key n ≠ .varWord) :
    rank key (n + 1) = rank key n := by
  rw [rank, if_neg h, Nat.add_zero]

theorem rank_le {key : Nat → Keyword} {i n : Nat} (h : i ≤ n) : rank key i ≤ rank key n := by
  induction h with
  | refl => exact Nat.le_refl _
  | step _ ih => exact Nat.le_trans ih (Nat.le_add_right _ _)

theorem rank_lt {key : Nat → Keyword} {i n : Nat} (hi : key i = .varWord) (h : i < n) :
    rank key i < rank key n := by
  have : rank key (i + 1) ≤ rank key n := rank_le h
  rw [rank_succ_kept hi] at this
  exact this

theorem rank_inj {key : Nat → Keyword} {i n : Nat} (hi : key i = .varWord) (hn : key n = .varWord)
    (h : rank key i = rank key n) : i = n := by
  rcases Nat.lt_trichotomy i n with hlt | he | hlt
  · exact absurd h (Nat.ne_of_lt (rank_lt hi hlt))
  · exact he
  · exact absurd h.symm (Nat.ne_of_lt (rank_lt hn hlt))

theorem exists_rank {key : Nat → Keyword} {m n : Nat} (h : m < rank key n) :
    ∃ i, i < n ∧ key i = .varWord ∧ rank key i = m := by
  induction n with
  | zero => exact absurd h (Nat.not_lt_zero m)
  | succ n ih =>
    by_cases hm : m < rank key n
    · obtain ⟨i, hi, hrest⟩ := ih hm
      exact ⟨i, Nat.lt_succ_of_lt hi, hrest⟩
    · by_cases hk : key n = .varWord
      · rw [rank_succ_kept hk] at h
        exact ⟨n, Nat.lt_succ_self n, hk, Nat.le_antisymm (Nat.not_lt.mp hm) (Nat.le_of_lt_succ h)⟩
      · rw [rank_succ_lowered hk] at h
        exact absurd h hm

/-- An open statement as the second draft has it. -/
def Event.Opened.mirror (key : Nat → Keyword) (o : Opened) : Statement × Option Nat :=
  (o.statement.withKeyword o.keyword,
    if o.keyword = .varWord then o.number.map (rank key) else none)

section Opened

variable {key : Nat → Keyword} {s : Statement} {k : Keyword}

theorem mirror_new : Event.Opened.mirror key ⟨s, k, none⟩ = (s.withKeyword k, none) := by
  unfold Event.Opened.mirror
  rw [Option.map_none, ite_self]

theorem mirror_kept {n : Nat} (hk : k = .varWord) :
    Event.Opened.mirror key ⟨s, k, some n⟩ = (s.withKeyword k, some (rank key n)) := by
  unfold Event.Opened.mirror
  rw [if_pos hk, Option.map_some]

theorem mirror_lowered {n : Option Nat} (hk : k ≠ .varWord) :
    Event.Opened.mirror key ⟨s, k, n⟩ = (s.withKeyword k, none) := by
  unfold Event.Opened.mirror
  rw [if_neg hk]

end Opened

/-- The entry with the numbers that its members have in the second draft. -/
def StatementEntry.renumber (e : StatementEntry) (ids : List BindingId) : StatementEntry :=
  { e with members := e.members.map fun i => ids.getD i 0 }

theorem StatementEntry.renumber_of_prefix {e : StatementEntry} {ids ids' : List BindingId}
    (h : ids <+: ids') (he : ∀ i ∈ e.members, i < ids.length) :
    e.renumber ids' = e.renumber ids := by
  unfold renumber
  congr 1
  refine List.map_congr_left fun i hi => ?_
  obtain ⟨_, rfl⟩ := h
  rw [List.getD_eq_getElem?_getD, List.getElem?_append_left (he i hi), List.getD_eq_getElem?_getD]

namespace Draft

/-! ### Notes on statements -/

/-- The second draft has notes on the same statements, but for the lowered ones. -/
structure Notes (key : Nat → Keyword) (kw : BindingId → Keyword) (ids : List BindingId)
    (t : Event.Tally) (d d' : Draft) : Prop where
  next : t.next = d.table.statements.length
  size : d'.table.statements.length = rank key d.table.statements.length
  entry : ∀ {n : Nat} {e : StatementEntry}, d.table.statements[n]? = some e → key n = .varWord →
    d'.table.statements[rank key n]? = some (e.renumber ids)
  /-- Only `var` statements are noted, and only with what they declare. -/
  noted : ∀ e ∈ d.table.statements, e.statement.keyword = .varWord ∧ e.members ≠ []
  stack : d.statements = t.opened.map fun o => (o.statement, o.number)
  stack' : d'.statements = t.opened.map (·.mirror key)
  numbered : ∀ o ∈ t.opened, ∀ n, o.number = some n → n < d.table.statements.length
  site : ∀ {i s}, (i, s) ∈ d.varSites → ¬ IsLowered kw i →
    ∃ j, ids[i]? = some j ∧ (j, s) ∈ d'.varSites
  siteOf : ∀ {j s}, (j, s) ∈ d'.varSites →
    ∃ i, ids[i]? = some j ∧ ¬ IsLowered kw i ∧ (i, s) ∈ d.varSites

namespace Notes

variable {key : Nat → Keyword} {kw : BindingId → Keyword} {ids : List BindingId} {t : Event.Tally}
  {d d' : Draft}

theorem filed (h : Notes key kw ids t d d') : Filed t d := { h with }

/-- No note changes, and more bindings have a counterpart. -/
theorem extend (h : Notes key kw ids t d d') (hd : d.Sound)
    (hlen : ids.length = d.table.bindings.length) {ids' : List BindingId} (hp : ids <+: ids')
    {e e' : Draft} (he : e.table.statements = d.table.statements) (hs : e.statements = d.statements)
    (hv : e.varSites = d.varSites) (he' : e'.table.statements = d'.table.statements)
    (hs' : e'.statements = d'.statements) (hv' : e'.varSites = d'.varSites) :
    Notes key kw ids' t e e' := by
  have hid : ∀ {i j : BindingId}, ids[i]? = some j → ids'[i]? = some j := by
    intro i j hi
    obtain ⟨_, rfl⟩ := hp
    rw [List.getElem?_append_left (List.getElem?_eq_some_iff.mp hi).1, hi]
  refine { h.filed.congr he hs with
    size := ?size, entry := ?entry, stack' := ?stack', site := ?sites, siteOf := ?siteOf }
  case size => rw [he, he']; exact h.size
  case entry =>
    intro n x hx hk
    rw [he] at hx
    rw [he', h.entry hx hk, StatementEntry.renumber_of_prefix hp]
    intro i hi
    obtain ⟨b, hb, _⟩ := hd.members (List.mem_of_getElem? hx) i hi
    rw [hlen]
    exact binding?_lt hb
  case stack' => rw [hs']; exact h.stack'
  case sites =>
    intro i s hi hl
    rw [hv] at hi
    obtain ⟨j, hj, hm⟩ := h.site hi hl
    exact ⟨j, hid hj, hv' ▸ hm⟩
  case siteOf =>
    intro j s hj
    rw [hv'] at hj
    obtain ⟨i, hi, hl, hm⟩ := h.siteOf hj
    exact ⟨i, hid hi, hl, hv ▸ hm⟩

theorem mem_snoc_sites {sites : List (BindingId × Site)} {i x : BindingId} {s site : Site} :
    (i, s) ∈ sites ++ [(x, site)] ↔ (i, s) ∈ sites ∨ i = x ∧ s = site := by
  rw [List.mem_append, List.mem_singleton, Prod.mk.injEq]

section Sites

variable {i j : BindingId} {site : Site} {s : Site} {x : BindingId}

theorem site_kept (h : Notes key kw ids t d d') (hid : ids[i]? = some j)
    (hx : (x, s) ∈ d.varSites ++ [(i, site)]) (hlx : ¬ IsLowered kw x) :
    ∃ y, ids[x]? = some y ∧ (y, s) ∈ d'.varSites ++ [(j, site)] := by
  rcases mem_snoc_sites.mp hx with hx | ⟨rfl, rfl⟩
  · obtain ⟨y, hy, hm⟩ := h.site hx hlx
    exact ⟨y, hy, List.mem_append_left _ hm⟩
  · exact ⟨j, hid, mem_snoc_sites.mpr (.inr ⟨rfl, rfl⟩)⟩

theorem siteOf_kept (h : Notes key kw ids t d d') (hid : ids[i]? = some j) (hl : ¬ IsLowered kw i)
    (hx : (x, s) ∈ d'.varSites ++ [(j, site)]) :
    ∃ y, ids[y]? = some x ∧ ¬ IsLowered kw y ∧ (y, s) ∈ d.varSites ++ [(i, site)] := by
  rcases mem_snoc_sites.mp hx with hx | ⟨rfl, rfl⟩
  · obtain ⟨y, hy, hly, hm⟩ := h.siteOf hx
    exact ⟨y, hy, hly, List.mem_append_left _ hm⟩
  · exact ⟨i, hid, hl, mem_snoc_sites.mpr (.inr ⟨rfl, rfl⟩)⟩

theorem site_lowered (h : Notes key kw ids t d d') (hl : IsLowered kw i)
    (hx : (x, s) ∈ d.varSites ++ [(i, site)]) (hlx : ¬ IsLowered kw x) :
    ∃ y, ids[x]? = some y ∧ (y, s) ∈ d'.varSites := by
  rcases mem_snoc_sites.mp hx with hx | ⟨rfl, _⟩
  · exact h.site hx hlx
  · exact absurd hl hlx

theorem siteOf_lowered (h : Notes key kw ids t d d') (hx : (x, s) ∈ d'.varSites) :
    ∃ y, ids[y]? = some x ∧ ¬ IsLowered kw y ∧ (y, s) ∈ d.varSites ++ [(i, site)] := by
  obtain ⟨y, hy, hly, hm⟩ := h.siteOf hx
  exact ⟨y, hy, hly, List.mem_append_left _ hm⟩

end Sites

/-! The four ways to note a name: the first or a later one, kept or lowered. -/

section Noting

variable {n m : Nat} {s : Statement} {os : List Event.Opened} {i j : BindingId}

theorem first_kept (h : Notes key kw ids ⟨n, ⟨s, key n, none⟩ :: os⟩ d d') (hk : key n = .varWord)
    (hs : s.keyword = .varWord) (hid : ids[i]? = some j) (hl : ¬ IsLowered kw i) (site : Site) :
    Notes key kw ids ⟨n + 1, ⟨s, key n, some n⟩ :: os⟩ (d.record (.declared .varWord) i site)
      (d'.record (.declared .varWord) j site) := by
  have hn : n = d.table.statements.length := h.next
  have hself : s.withKeyword (key n) = s := by rw [hk, ← hs]; rfl
  have hstack' : d'.statements = (s, none) :: os.map (·.mirror key) := by
    rw [h.stack', List.map_cons, mirror_new, hself]
  have hfiled := (h.filed.record_first hs i site).1
  rw [record_new h.stack] at hfiled ⊢
  rw [record_new hstack']
  refine { hfiled with
    size := ?size, entry := ?entry, stack' := ?stack', site := ?sites, siteOf := ?siteOf }
  case size =>
    show (d'.table.statements ++ [_]).length = rank key (d.table.statements ++ [_]).length
    rw [List.length_append, List.length_append, h.size, ← hn]
    exact (rank_succ_kept hk).symm
  case entry =>
    intro x e he hx
    show (d'.table.statements ++ [_])[rank key x]? = _
    by_cases hlt : x < d.table.statements.length
    · rw [List.getElem?_append_left hlt] at he
      have := h.entry he hx
      rw [List.getElem?_append_left (List.getElem?_eq_some_iff.mp this).1, this]
    · have hle : x < d.table.statements.length + 1 := by
        have := (List.getElem?_eq_some_iff.mp he).1
        rwa [List.length_append] at this
      have hxn : x = d.table.statements.length :=
        Nat.le_antisymm (Nat.le_of_lt_succ hle) (Nat.not_lt.mp hlt)
      rw [hxn, List.getElem?_concat_length] at he
      cases he
      rw [hxn, ← h.size, List.getElem?_concat_length]
      unfold StatementEntry.renumber
      rw [List.map_singleton, List.getD_eq_getElem?_getD, hid]
      rfl
  case stack' =>
    rw [List.map_cons, mirror_kept hk, hself, hn, ← h.size]
  case sites => exact h.site_kept hid
  case siteOf => exact h.siteOf_kept hid hl

theorem first_lowered (h : Notes key kw ids ⟨n, ⟨s, key n, none⟩ :: os⟩ d d')
    (hk : key n ≠ .varWord) (hs : s.keyword = .varWord) (hl : IsLowered kw i) (site : Site) :
    Notes key kw ids ⟨n + 1, ⟨s, key n, some n⟩ :: os⟩ (d.record (.declared .varWord) i site)
      d' := by
  have hn : n = d.table.statements.length := h.next
  have hfiled := (h.filed.record_first hs i site).1
  rw [record_new h.stack] at hfiled ⊢
  refine { hfiled with
    size := ?size, entry := ?entry, stack' := ?stack', site := ?sites, siteOf := ?siteOf }
  case size =>
    show d'.table.statements.length = rank key (d.table.statements ++ [_]).length
    rw [List.length_append, h.size, ← hn]
    exact (rank_succ_lowered hk).symm
  case entry =>
    intro x e he hx
    by_cases hlt : x < d.table.statements.length
    · rw [List.getElem?_append_left hlt] at he
      exact h.entry he hx
    · have hle := (List.getElem?_eq_some_iff.mp he).1
      rw [List.length_append, List.length_singleton] at hle
      have hxn : x = n := by omega
      exact absurd (hxn ▸ hx) hk
  case stack' =>
    rw [h.stack', List.map_cons, List.map_cons, mirror_lowered hk, mirror_lowered hk]
  case sites => exact h.site_lowered hl
  case siteOf => exact h.siteOf_lowered

theorem later_kept (h : Notes key kw ids ⟨n, ⟨s, key m, some m⟩ :: os⟩ d d')
    (hk : key m = .varWord) (hid : ids[i]? = some j) (hl : ¬ IsLowered kw i) (site : Site) :
    Notes key kw ids ⟨n, ⟨s, key m, some m⟩ :: os⟩ (d.record (.declared .varWord) i site)
      (d'.record (.declared .varWord) j site) := by
  have hstack' : d'.statements =
      (s.withKeyword (key m), some (rank key m)) :: os.map (·.mirror key) := by
    rw [h.stack', List.map_cons, mirror_kept hk]
  have hfiled := (h.filed.record_later i site).1
  rw [record_old h.stack] at hfiled ⊢
  rw [record_old hstack']
  refine { hfiled with
    size := ?size, entry := ?entry, stack' := ?stack', site := ?sites, siteOf := ?siteOf }
  case size =>
    refine (List.length_modify ..).trans (h.size.trans ?_)
    exact congrArg (rank key) (List.length_modify ..).symm
  case entry =>
    intro x e he hx
    rw [List.getElem?_modify] at he ⊢
    obtain ⟨e₀, he₀, rfl⟩ := Option.map_eq_some_iff.mp he
    rw [h.entry he₀ hx, Option.map_eq_map, Option.map_some]
    by_cases hm : m = x
    · subst hm
      rw [if_pos rfl, if_pos rfl]
      unfold StatementEntry.renumber
      rw [List.map_append, List.map_singleton, List.getD_eq_getElem?_getD, hid]
      rfl
    · rw [if_neg hm, if_neg fun he => hm (rank_inj hk hx he)]
  case stack' => exact h.stack'
  case sites => exact h.site_kept hid
  case siteOf => exact h.siteOf_kept hid hl

theorem later_lowered (h : Notes key kw ids ⟨n, ⟨s, key m, some m⟩ :: os⟩ d d')
    (hk : key m ≠ .varWord) (hl : IsLowered kw i) (site : Site) :
    Notes key kw ids ⟨n, ⟨s, key m, some m⟩ :: os⟩ (d.record (.declared .varWord) i site) d' := by
  have hfiled := (h.filed.record_later i site).1
  rw [record_old h.stack] at hfiled ⊢
  refine { hfiled with
    size := ?size, entry := ?entry, stack' := ?stack', site := ?sites, siteOf := ?siteOf }
  case size => exact h.size.trans (congrArg (rank key) (List.length_modify ..).symm)
  case entry =>
    intro x e he hx
    rw [List.getElem?_modify] at he
    obtain ⟨e₀, he₀, rfl⟩ := Option.map_eq_some_iff.mp he
    rw [if_neg (by rintro rfl; exact hk hx)]
    exact h.entry he₀ hx
  case stack' => exact h.stack'
  case sites => exact h.site_lowered hl
  case siteOf => exact h.siteOf_lowered

end Noting

end Notes

/-! ### One event -/

/-- The second draft mirrors the first. -/
structure Mirrors (key : Nat → Keyword) (kw : BindingId → Keyword) (ids : List BindingId)
    (t : Event.Tally) (d d' : Draft) : Prop where
  names : Names kw ids d d'
  frame : d.Frame d'
  notes : Notes key kw ids t d d'

section Record

variable (d : Draft) (kind : BindingKind) (i : BindingId) (site : Site)

theorem record_bindings : (d.record kind i site).table.bindings = d.table.bindings := by
  unfold record
  split
  · rw [Sound.noteStatement_eq]
  · rfl

end Record

/-- A scope opens in both drafts. -/
theorem Frame.openScope {d d' : Draft} (h : d.Frame d') (kind : ScopeKind) (span : Span)
    (callable : Option Callable) (cases : List Span) :
    (d.openScope kind span callable cases).Frame (d'.openScope kind span callable cases) := by
  have ho := h.outlines
  have hnew : d'.newScope kind span callable cases = d.newScope kind span callable cases := by
    unfold newScope
    rw [Graph.size_of_outlines ho, Graph.nearestFunction_of_outlines ho, h.current]
  refine { h with outlines := ?_, current := Graph.size_of_outlines ho }
  rw [outlines_openScope, outlines_openScope, hnew, ho]

theorem Frame.closeScope {d d' : Draft} (h : d.Frame d') : d.closeScope.Frame d'.closeScope := by
  refine { h with current := ?_ }
  unfold Draft.closeScope
  rw [Graph.parent?_of_outlines h.outlines, h.current]

namespace Mirrors

variable {key : Nat → Keyword} {kw : BindingId → Keyword} {ids : List BindingId} {t : Event.Tally}
  {d d' D : Draft}

/-- A declaration that is not lowered, up to the notes on it. -/
theorem declare_kept (h : Mirrors key kw ids t d d')
    (hlow : ∀ {i}, IsLowered kw i → ∃ b, D.Movable i b)
    (hd : d.Sound) (hd' : d'.Sound) (hD : D.Sound) {kind : BindingKind} {site : Site}
    (hg : ((d.declare kind site).1.mark (d.declare kind site).2 site).Grows D)
    (hl : ¬ IsLowered kw (d.declare kind site).2) :
    ∃ ids', ids'[(d.declare kind site).2]? = some (d'.declare kind site).2 ∧
      Mirrors key kw ids' t ((d.declare kind site).1.mark (d.declare kind site).2 site)
        ((d'.declare kind site).1.mark (d'.declare kind site).2 site) := by
  obtain ⟨ids', hp, hn, hid⟩ := h.names.declare hlow hd hd' hD h.frame.outlines h.frame.current
    ((grows_mark _ _ _).trans hg) hl
  obtain ⟨h₁, h₂, h₃⟩ := d.notes_marked kind site (d.declare kind site).2
  obtain ⟨h₁', h₂', h₃'⟩ := d'.notes_marked kind site (d'.declare kind site).2
  refine ⟨ids', hid, hn.mark hid hl site, ?_, ?_⟩
  · exact ((d.frame_declare kind site).trans (frame_mark _ _ _)).symm.trans
      (h.frame.trans ((d'.frame_declare kind site).trans (frame_mark _ _ _)))
  · exact h.notes.extend hd h.names.length hp h₁ h₂ h₃ h₁' h₂' h₃'

/-- A lowered declaration, up to the notes on it. -/
theorem declare_lowered (h : Mirrors key kw ids t d d')
    (hlow : ∀ {i}, IsLowered kw i → ∃ b, D.Movable i b) (hd : d.Sound) (hd' : d'.Sound)
    (hD : D.Sound) {site : Site} {k : Keyword} (hk : kw (d.declare (.declared .varWord) site).2 = k)
    (hs : site.scope = d.current) (hg : ((d.declare (.declared .varWord) site).1.mark
      (d.declare (.declared .varWord) site).2 site).Grows D)
    (hl : IsLowered kw (d.declare (.declared .varWord) site).2) :
    ∃ ids', Mirrors key kw ids' t
      ((d.declare (.declared .varWord) site).1.mark (d.declare (.declared .varWord) site).2 site)
      (d'.declareVariable (.declared k)
        (site.withKeyword k)) := by
  obtain ⟨ids', hp, hn⟩ := h.names.declare_lowered hlow hd hd' hD h.frame.current hk hs
    ((grows_mark _ _ _).trans hg) hl
  obtain ⟨B, hB⟩ := hlow hl
  obtain ⟨b, hb, _⟩ := hd.declare_site (.declared .varWord) site
  have hbr := hB.braced_early hg hb
  have hmark : ∀ (m : Draft) (s : Site) (i : BindingId), s.unbraced = false → m.mark i s = m := by
    intro m s i hu
    unfold mark
    rw [hu]
    rfl
  have hk' : BindingKind.declared k ≠ .declared .varWord := by
    rintro ⟨⟩
    exact hl hk
  obtain ⟨h₁, h₂, h₃⟩ := d.notes_marked (.declared .varWord) site
    (d.declare (.declared .varWord) site).2
  obtain ⟨h₁', h₂', h₃'⟩ := d'.notes_marked (.declared k)
    (site.withKeyword k)
    (d'.declare (.declared k) (site.withKeyword k)).2
  rw [hmark _ _ _ hbr] at h₁ h₂ h₃ ⊢
  rw [hmark _ (site.withKeyword k) _ hbr] at h₁' h₂' h₃'
  rw [declareVariable_eq, hmark _ (site.withKeyword k) _ hbr, record_of_ne hk']
  refine ⟨ids', hn, ?_, ?_⟩
  · exact (d.frame_declare _ _).symm.trans (h.frame.trans (d'.frame_declare _ _))
  · exact h.notes.extend hd h.names.length hp h₁ h₂ h₃ h₁' h₂' h₃'

/-- What is noted about a declaration does not touch the names. -/
theorem record {t' : Event.Tally} {e e' : Draft} (h : Mirrors key kw ids t d d')
    (hn : Notes key kw ids t' e e') (hf : d.Frame e) (hf' : d'.Frame e')
    (hg : e.graph = d.graph) (hg' : e'.graph = d'.graph)
    (hb : e.table.bindings = d.table.bindings) (hb' : e'.table.bindings = d'.table.bindings) :
    Mirrors key kw ids t' e e' := by
  refine ⟨?_, hf.symm.trans (h.frame.trans hf'), hn⟩
  refine h.names.congr (by rw [hb]) (fun i => ?_) (fun _ _ => by rw [hg]) (by rw [hb'])
    (fun i => ?_) (fun _ _ => by rw [hg'])
  · unfold binding?; rw [hb]
  · unfold binding?; rw [hb']

/-- A name of a `var` statement is declared, given what is noted about it. -/
theorem declareVariable (h : Mirrors key kw ids t d d') (hlow : Lowering D key kw) (hd : d.Sound)
    (hd' : d'.Sound) (hD : D.Sound) {t' : Event.Tally} {site : Site} {s : Statement} {n : Nat}
    (hs : site.scope = d.current) (hst : site.statement = some s) (hk : s.keyword = .varWord)
    (hg : (d.declareVariable (.declared .varWord) site).Grows D)
    (hmem : ∃ e ∈ (d.declareVariable (.declared .varWord) site).table.statements[n]?,
      e.statement.keyword = .varWord ∧ (d.declare (.declared .varWord) site).2 ∈ e.members)
    (hkept : key n = .varWord → ∀ {ids i j e e'}, ids[i]? = some j → ¬ IsLowered kw i →
      Notes key kw ids t e e' → Notes key kw ids t' (e.record (.declared .varWord) i site)
        (e'.record (.declared .varWord) j site))
    (hmoved : key n ≠ .varWord → ∀ {ids i e e'}, IsLowered kw i →
      Notes key kw ids t e e' → Notes key kw ids t' (e.record (.declared .varWord) i site) e') :
    ∃ ids', Mirrors key kw ids' t' (d.declareVariable (.declared .varWord) site)
      (d'.declareVariable (.declared (key n)) (site.withKeyword (key n))) := by
  obtain ⟨e, he, hek, hi⟩ := hmem
  obtain ⟨e', he', hst', hpre⟩ := hg.entry he
  have hkw := hlow.keyword he' (hst' ▸ hek) (hpre.subset hi)
  have hg' := (grows_record _ _ _ _).trans hg
  by_cases hkey : key n = .varWord
  · have hl : ¬ IsLowered kw (d.declare (.declared .varWord) site).2 :=
      fun hl => hl (hkw.trans hkey)
    obtain ⟨ids', hid, hm⟩ := h.declare_kept hlow.movable hd hd' hD hg' hl
    have hsame : site.withKeyword (key n) = site := by
      unfold Site.withKeyword
      rw [hst, hkey, ← hk]
      show { site with statement := some s } = site
      rw [← hst]
    refine ⟨ids', ?_⟩
    rw [hsame, hkey, declareVariable_eq, declareVariable_eq]
    exact hm.record (hkept hkey hid hl hm.notes) (frame_record _ _ _ _) (frame_record _ _ _ _)
      (record_graph _ _ _ _) (record_graph _ _ _ _) (record_bindings _ _ _ _)
      (record_bindings _ _ _ _)
  · have hl : IsLowered kw (d.declare (.declared .varWord) site).2 := fun he =>
      hkey (hkw.symm.trans he)
    obtain ⟨ids', hm⟩ := h.declare_lowered hlow.movable hd hd' hD hkw hs hg' hl
    refine ⟨ids', ?_⟩
    rw [d.declareVariable_eq]
    exact hm.record (hmoved hkey hl hm.notes) (frame_record _ _ _ _) (.refl _)
      (record_graph _ _ _ _) rfl (record_bindings _ _ _ _) rfl

/-- Any other name is declared. -/
theorem declareOther (h : Mirrors key kw ids t d d') (hlow : Lowering D key kw) (hd : d.Sound)
    (hd' : d'.Sound) (hD : D.Sound) {kind : BindingKind} {site : Site}
    (hk : kind ≠ .declared .varWord) (hg : (d.declareVariable kind site).Grows D) :
    ∃ ids', Mirrors key kw ids' t (d.declareVariable kind site)
      (d'.declareVariable kind site) := by
  rw [declareVariable_eq, record_of_ne hk] at hg
  have hl : ¬ IsLowered kw (d.declare kind site).2 := by
    intro hl
    obtain ⟨B, hB⟩ := hlow.movable hl
    obtain ⟨_, _, hgB⟩ := hB.declare_own hd ((grows_mark _ _ _).trans hg)
    exact hk (hgB.kind.symm.trans hB.kind)
  obtain ⟨ids', _, hm⟩ := h.declare_kept hlow.movable hd hd' hD hg hl
  refine ⟨ids', ?_⟩
  rw [declareVariable_eq, declareVariable_eq, record_of_ne hk, record_of_ne hk]
  exact hm

/-- A scope opens on both sides. -/
theorem openScope (h : Mirrors key kw ids t d d') (kind : ScopeKind) (span : Span)
    (callable : Option Callable) (cases : List Span) :
    Mirrors key kw ids t (d.openScope kind span callable cases)
      (d'.openScope kind span callable cases) := by
  refine ⟨?_, h.frame.openScope kind span callable cases, { h.notes with }⟩
  exact h.names.congr rfl (fun _ => rfl) (d.here?_openScope kind span callable cases) rfl
    (fun _ => rfl) (d'.here?_openScope kind span callable cases)

theorem closeScope (h : Mirrors key kw ids t d d') :
    Mirrors key kw ids t d.closeScope d'.closeScope := by
  exact ⟨{ h.names with }, h.frame.closeScope, { h.notes with }⟩

/-- A statement begins. -/
theorem openStatement {n : Nat} {os : List Event.Opened} (h : Mirrors key kw ids ⟨n, os⟩ d d')
    (s : Statement) (k : Keyword) :
    Mirrors key kw ids ⟨n, ⟨s, k, none⟩ :: os⟩ { d with statements := (s, none) :: d.statements }
      { d' with statements := (s.withKeyword k, none) :: d'.statements } := by
  refine ⟨{ h.names with }, { h.frame with },
    { h.notes.filed.opened s k, h.notes with stack' := ?_ }⟩
  rw [List.map_cons, mirror_new]
  exact congrArg (_ :: ·) h.notes.stack'

/-- A statement ends. -/
theorem closeStatement {n : Nat} {o : Event.Opened} {os : List Event.Opened}
    (h : Mirrors key kw ids ⟨n, o :: os⟩ d d') :
    Mirrors key kw ids ⟨n, os⟩ { d with statements := d.statements.tail }
      { d' with statements := d'.statements.tail } := by
  exact ⟨{ h.names with }, { h.frame with },
    { h.notes.filed.closed, h.notes with stack' := congrArg List.tail h.notes.stack' }⟩

theorem thisIsGlobal_eq (hf : d.Frame d') : d'.thisIsGlobal = d.thisIsGlobal := by
  have houter : ∀ d : Draft, d.thisIsGlobal = !(d.graph.ancestors d.current).any fun id =>
      d.graph.outlines[id]?.any fun s => s.kind == .function && !(s.callable.any (·.isArrow)) := by
    intro d
    unfold thisIsGlobal
    congr 2
    funext id
    rw [Graph.outline_eq]
    cases d.graph.scope? id <;> rfl
  rw [houter, houter, Graph.ancestors_of_outlines hf.outlines, hf.current, hf.outlines]

/-- The own name of a function expression, where no name stands in its way. -/
theorem declareVariable_callee {site : Site} (hu : site.unbraced = false)
    (hn : d.graph.here? site.name.text (d.attachment .callee) = none) :
    d.declareVariable .callee site = d.own .callee site := by
  rw [declareVariable_eq, record_of_ne (fun he => by cases he), mark, hu,
    if_neg (fun he => by cases he)]
  rcases d.declare_cases .callee site with ⟨_, he⟩ | ⟨_, ho, _⟩
  · rw [he]
  · rw [hn] at ho; cases ho

/-- The own name of a function expression is met. -/
theorem callee (h : Mirrors key kw ids t d d') (hlow : Lowering D key kw) (hd : d.Sound)
    (hd' : d'.Sound) (hD : D.Sound) {name : Ident} {ready : Offset} {problem : Option ScopeFault}
    (hseat : d.graph.nearestFunction d.current = d.current) {m : Draft}
    (hm : d.step (.callee name ready problem) = .ok m) (hg : m.Grows D) :
    (∃ ids' m', d'.step (.callee name ready problem) = .ok m' ∧ Mirrors key kw ids' t m m') ∨
      ∃ f, problem = some f ∧ d'.step (.callee name ready problem) = .error f := by
  have hgd : d.Grows D := (grows_step hm).trans hg
  have hc := h.frame.current
  have hatt : d'.attachment .callee = d.current := by
    show d'.graph.nearestFunction d'.current = _
    rw [Graph.nearestFunction_of_outlines h.frame.outlines, hc, hseat]
  simp only [Draft.step] at hm ⊢
  rw [hc]
  cases hi : d.graph.here? name.text d.current with
  | none =>
    rw [h.names.unheld_of_function hlow.movable hd hgd hi hseat]
    rw [hi] at hm
    cases problem with
    | some f => cases hm
    | none =>
      cases hm
      obtain ⟨ids', hm'⟩ := h.declareOther hlow hd hd' hD (fun he => by cases he) hg
      exact .inl ⟨ids', _, rfl, hm'⟩
  | some i =>
    rw [hi] at hm
    cases hm
    cases hi' : d'.graph.here? name.text d.current with
    | some j => exact .inl ⟨ids, d', rfl, h⟩
    | none =>
      -- the name was hidden by a lowered binding, which has moved on
      have hl : IsLowered kw i := by
        refine Classical.byContradiction fun hl => ?_
        obtain ⟨j, _, hj⟩ := h.names.hereKept hi hl
        rw [hi'] at hj
        cases hj
      cases problem with
      | some f => exact .inr ⟨f, rfl, rfl⟩
      | none =>
        refine .inl ⟨ids, _, rfl, ?_⟩
        rw [declareVariable_callee rfl (by rw [hatt]; exact hi')]
        refine ⟨h.names.callee hd' hl (by rw [hatt]; exact hi) (by rw [hatt]; exact hi'), ?_, ?_⟩
        · exact { h.frame with outlines := (d'.outlines_own _ _).trans h.frame.outlines }
        · exact { h.notes with }

/-- An event outside of `var` statements. -/
theorem step (h : Mirrors key kw ids t d d') (hlow : Lowering D key kw) (hd : d.Sound)
    (hd' : d'.Sound) (hD : D.Sound) {e : Event} (he : e.isPlain = true)
    (hseat : ∀ name ready problem, e = .callee name ready problem →
      d.graph.nearestFunction d.current = d.current) {m : Draft} (hm : d.step e = .ok m)
    (hg : m.Grows D) :
    (∃ ids' m', d'.step e = .ok m' ∧ Mirrors key kw ids' t m m') ∨
      ∃ name ready f, e = .callee name ready (some f) ∧ d'.step e = .error f := by
  have hf := h.frame
  cases e with
  | enter kind span callable cases =>
    cases hm
    exact .inl ⟨ids, _, rfl, h.openScope kind span callable cases⟩
  | leave => cases hm; exact .inl ⟨ids, _, rfl, h.closeScope⟩
  | openStatement | closeStatement | fault => cases he
  | declare kind name st hasInit ready unbraced forEach =>
    cases hm
    have hk : kind ≠ .declared .varWord := by rintro rfl; cases he
    obtain ⟨ids', hm'⟩ := h.declareOther hlow hd hd' hD hk hg
    refine .inl ⟨ids', _, rfl, ?_⟩
    rw [hf.current]
    exact hm'
  | callee name ready problem =>
    rcases h.callee hlow hd hd' hD (hseat name ready problem rfl) hm hg with hok | ⟨f, rfl, hf⟩
    · exact .inl hok
    · exact .inr ⟨name, ready, f, rfl, hf⟩
  | refer name kind =>
    cases hm
    refine .inl ⟨ids, _, rfl, { h.names with }, { hf with pending := ?_ }, { h.notes with }⟩
    rw [hf.pending, hf.current]
  | evalCall name =>
    cases hm
    refine .inl ⟨ids, _, rfl, { h.names with }, { hf with evalCalls := ?_ }, { h.notes with }⟩
    rw [hf.evalCalls, hf.current]
  | dynamic =>
    cases hm
    refine .inl ⟨ids, _, rfl, { h.names with }, { hf with dynamic := ?_ }, { h.notes with }⟩
    rw [hf.dynamic, hf.current]
  | thisUse =>
    cases hm
    refine .inl ⟨ids, _, rfl, ?_⟩
    rw [thisIsGlobal_eq hf]
    split
    · exact ⟨{ h.names with }, { hf with globalReach := rfl }, { h.notes with }⟩
    · exact h

/-! ### All events -/

theorem step_declare (d : Draft) (kind : BindingKind) (name : Ident) (st : Option Statement)
    (hasInit : Bool) (ready : Offset) (unbraced forEach : Bool) :
    d.step (.declare kind name st hasInit ready unbraced forEach) = .ok (d.declareVariable kind
      { name, statement := st, scope := d.current, hasInit, ready, unbraced, forEach }) := rfl

/-- The second script has been read to a draft as it should be, or the own name of a function
expression was misplaced. -/
def Followed (P : Draft → Prop) (es : List Event) (r : Except ScopeFault Draft) : Prop :=
  (∃ D', r = .ok D' ∧ P D') ∨ ∃ name ready f, .callee name ready (some f) ∈ es ∧ r = .error f

theorem Followed.cons {P : Draft → Prop} {e e' : Event} {es es' : List Event} {m' : Draft}
    (hm' : d'.step e' = .ok m') (h : Followed P es (m'.steps es')) :
    Followed P (e :: es) (d'.steps (e' :: es')) := by
  have hs : d'.steps (e' :: es') = m'.steps es' := by rw [steps_cons, hm']; rfl
  rw [hs]
  rcases h with h | ⟨name, ready, f, hf, h⟩
  · exact .inl h
  · exact .inr ⟨name, ready, f, List.mem_cons_of_mem _ hf, h⟩

/-- The two scripts are read in step. -/
theorem steps {t t' : Event.Tally} {es es' : List Event} (hr : Event.Rekeyed key t es es' t')
    (h : Mirrors key kw ids t d d') (hlow : Lowering D key kw) (hd : d.Sound) (hd' : d'.Sound)
    (hseat : d.Seated es) (hs : d.steps es = .ok D) :
    Followed (fun D' => ∃ ids, Mirrors key kw ids t' D D') es (d'.steps es') := by
  have hD := hd.steps hs
  induction hr generalizing ids d d' with
  | nil =>
    cases hs
    exact .inl ⟨d', rfl, ids, h⟩
  | same he _ ih =>
    obtain ⟨m, hm, hs⟩ := steps_cons_ok.mp hs
    rcases h.step hlow hd hd' hD he hseat.1 hm (grows_steps hs) with
      ⟨ids', m', hm', hmir⟩ | ⟨name, ready, f, rfl, hf⟩
    · exact .cons hm' (ih hmir (hd.step hm) (hd'.step hm') (hseat.2 m hm) hs)
    · exact .inr ⟨name, ready, f, List.mem_cons_self, by rw [steps_cons, hf]; rfl⟩
  | opened s k _ ih =>
    obtain ⟨m, hm, hs⟩ := steps_cons_ok.mp hs
    have hsound := hd.step hm
    have hseat' := hseat.2 m hm
    cases hm
    exact .cons rfl (ih (h.openStatement s k) hsound
      (hd'.step (e := .openStatement (s.withKeyword k)) rfl) hseat' hs)
  | closed _ ih =>
    obtain ⟨m, hm, hs⟩ := steps_cons_ok.mp hs
    have hsound := hd.step hm
    have hseat' := hseat.2 m hm
    cases hm
    exact .cons rfl (ih h.closeStatement hsound (hd'.step (e := .closeStatement) rfl) hseat' hs)
  | first hk _ ih =>
    obtain ⟨m, hm, hs⟩ := steps_cons_ok.mp hs
    have hsound := hd.step hm
    have hseat' := hseat.2 m hm
    cases hm
    obtain ⟨ids', hm'⟩ := h.declareVariable hlow hd hd' hD rfl rfl hk (grows_steps hs)
      ⟨_, (h.notes.filed.first hk _).2, hk, List.mem_singleton.mpr rfl⟩
      (fun hkey _ _ _ _ _ hid hl hn => hn.first_kept hkey hk hid hl _)
      fun hkey _ _ _ _ hl hn => hn.first_lowered hkey hk hl _
    have hc := h.frame.current
    exact .cons (by rw [step_declare, hc]; rfl)
      (ih hm' hsound (hd'.declareVariable _ hc.symm) hseat' hs)
  | later hk _ ih =>
    obtain ⟨m, hm, hs⟩ := steps_cons_ok.mp hs
    have hsound := hd.step hm
    have hseat' := hseat.2 m hm
    cases hm
    obtain ⟨ids', hm'⟩ := h.declareVariable hlow hd hd' hD rfl rfl hk (grows_steps hs)
      (h.notes.filed.later _).2 (fun hkey _ _ _ _ _ hid hl hn => hn.later_kept hkey hid hl _)
      fun hkey _ _ _ _ hl hn => hn.later_lowered hkey hl _
    have hc := h.frame.current
    exact .cons (by rw [step_declare, hc]; rfl)
      (ih hm' hsound (hd'.declareVariable _ hc.symm) hseat' hs)

end Mirrors

/-- At the start of a script the two drafts are the same. -/
theorem Mirrors.start (key : Nat → Keyword) (kw : BindingId → Keyword) (span : Span) :
    Mirrors key kw [] ⟨0, []⟩ (({} : Draft).openScope .program span none [])
      (({} : Draft).openScope .program span none []) := by
  have hnames : Names kw [] ({} : Draft) {} := by
    constructor
    case length => rfl
    case increasing => exact List.Pairwise.nil
    case bound => exact fun _ h => absurd h List.not_mem_nil
    all_goals (intros; contradiction)
  have hnotes : Notes key kw [] ⟨0, []⟩ ({} : Draft) {} := by
    constructor
    case next | size | stack | stack' => rfl
    all_goals (intros; contradiction)
  exact (⟨hnames, .refl _, hnotes⟩ : Mirrors key kw [] ⟨0, []⟩ {} {}).openScope _ _ _ _

end Draft

/-- The drafts of a script and of what the analysis turns it into. -/
theorem Analysis.mirrors {script : Node} {o : Options} {a : Analysis}
    (h : Analysis.ofScript script o = .ok a) :
    ∃ d : Draft, Draft.steps {} (Event.ofScript script) = .ok d ∧
      a.scoping = d.finish.withCaptures ∧ Lowering d a.keywordAt a.keywordOf ∧ (∀ f, d.Handled f) ∧
      ((∃ ids t d', Draft.steps {} (Event.ofScript (a.rewrite script)) = .ok d' ∧
          Draft.Mirrors a.keywordAt a.keywordOf ids t d d') ∨
        ∃ name ready f, .callee name ready (some f) ∈ Event.ofScript script ∧
          Draft.steps {} (Event.ofScript (a.rewrite script)) = .error f) := by
  obtain ⟨d, hd, hscoping, hlow⟩ := Analysis.lowering h
  obtain ⟨m, hm, hbody⟩ := Draft.steps_cons_ok.mp hd
  obtain ⟨hseat, hhandled⟩ := Event.ofScript_nested script hm hbody
  obtain ⟨hscript', hr⟩ := Event.ofScript_rekeyed a.keywordAt script
    (Draft.fault_not_mem_steps hbody)
  cases hm
  have hsound := Draft.Sound.start script.span
  have hrun := (Draft.Mirrors.start a.keywordAt a.keywordOf script.span).steps hr hlow hsound hsound
    hseat hbody
  refine ⟨d, hd, hscoping, hlow, hhandled, ?_⟩
  rw [Analysis.rewrite, hscript']
  rcases hrun with ⟨d', hd', ids, hmir⟩ | ⟨name, ready, f, hf, hd'⟩
  · exact .inl ⟨ids, _, d', hd', hmir⟩
  · exact .inr ⟨name, ready, f, List.mem_cons_of_mem _ hf, hd'⟩

end ScopeLowering
