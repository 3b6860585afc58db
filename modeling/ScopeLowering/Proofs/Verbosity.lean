import ScopeLowering.Proofs.Contract

/-!
# Chatter

How much chatter is wanted should make no difference but to what is printed. Work is steady
(`Reporting.IsSteady`) if it ends in the same way with two levels of chatter. All of the work on a
unit is steady, apart from advice on names that are not in its text
(`Reporting.IsSteady.analyzeUnit`), and on these the levels differ if just one of them is zero
(`analyzeUnit_alike_iff`).
-/

namespace ScopeLowering

/-- Two reports with the same issues and other levels of chatter. -/
structure Report.Alike (v w : Int) (r r' : Report) : Prop where
  issues : r.issues = r'.issues
  maxIssues : r.maxIssues = r'.maxIssues
  left : r.verbose = v
  right : r'.verbose = w

namespace Reporting

/-- Two pieces of work that end in the same way, with reports that are alike. -/
inductive Alike {α : Type} (v w : Int) :
    EStateM.Result Stop Report α → EStateM.Result Stop Report α → Prop
  | ok {a : α} {r r' : Report} (h : r.Alike v w r') : Alike v w (.ok a r) (.ok a r')
  | error {stop : Stop} {r r' : Report} (h : r.Alike v w r') :
      Alike v w (.error stop r) (.error stop r')

/-- The work ends in the same way with either level of chatter. -/
def IsSteady {α : Type} (v w : Int) (x : Reporting α) : Prop :=
  ∀ r r', Report.Alike v w r r' → Alike v w (x r) (x r')

namespace IsSteady

variable {α β : Type} {v w : Int} {tools : Toolkit}

theorem pure (a : α) : IsSteady v w (Pure.pure a) := fun _ _ h => .ok h

theorem throw (stop : Stop) : IsSteady v w (throw stop : Reporting α) := fun _ _ h => .error h

/-- Steady work goes on steadily from whatever its first part may come to. -/
theorem bind_of {x : Reporting α} {f : α → Reporting β} (hx : IsSteady v w x)
    (hf : ∀ a r r', x r = .ok a r' → IsSteady v w (f a)) : IsSteady v w (x >>= f) := by
  intro r r' h
  have hstep := hx r r' h
  simp only [Bind.bind, EStateM.bind]
  generalize hres : x r = res at hstep
  generalize x r' = res' at hstep
  cases hstep with
  | ok hr => exact hf _ r _ hres _ _ hr
  | error hr => exact .error hr

theorem bind {x : Reporting α} {f : α → Reporting β} (hx : IsSteady v w x)
    (hf : ∀ a, IsSteady v w (f a)) : IsSteady v w (x >>= f) := hx.bind_of fun a _ _ _ => hf a

/-- What is done with the report may depend on it, so long as the levels of chatter are treated
alike. -/
theorem get_bind {f : Report → Reporting α}
    (hf : ∀ r r', Report.Alike v w r r' → Alike v w (f r r) (f r' r')) :
    IsSteady v w (get >>= f) := fun r r' h => hf r r' h

theorem info (line : String) (level : Int) : IsSteady v w (info line level) := by
  refine get_bind fun r r' h => ?_
  have hend : ∀ s s', Report.Alike v w s s' → Alike v w (.ok () s) (.ok () s') := fun _ _ => .ok
  split <;> split <;> exact hend _ _ ⟨h.issues, h.maxIssues, h.left, h.right⟩

theorem issue (p : Picture) : IsSteady v w (issue p) := by
  have hadd : IsSteady v w
      (modify fun r => { r with issues := r.issues ++ [p] } : Reporting Unit) := fun _ _ h =>
    .ok ⟨congrArg (· ++ [p]) h.issues, h.maxIssues, h.left, h.right⟩
  refine hadd.bind fun _ => get_bind fun r r' h => ?_
  rw [h.issues, h.maxIssues]
  split
  · exact throw _ r r' h
  · exact pure () r r' h

/-- Issues are reported alike, and then the unit fails alike. -/
theorem fail (p : Picture) (phase : Phase) :
    IsSteady v w (Reporting.issue p >>= fun _ => MonadExcept.throw (.failed phase) : Reporting α) :=
  (issue p).bind fun _ => throw _

theorem readUnit (parser : Parser) (u : SourceUnit) (isDocument : Bool) :
    IsSteady v w (readUnit parser u isDocument) := by
  unfold Reporting.readUnit
  dsimp only
  split
  · exact pure _
  · exact fail _ _
  · exact fail _ _
  · exact fail _ _
  · exact throw _

/-- Advice is steady if both levels ask for it or neither does, or if the name is in the text. -/
theorem advise {u : SourceUnit} {b : Binding} (d : Decision)
    (h : (v = 0 ↔ w = 0) ∨ u.fits b.first.name.span.left b.first.name.span.right = true) :
    IsSteady v w (advise tools u b d) := by
  intro r r' hr
  have hsame : ∀ printed printed', Report.Alike v w { r with printed := printed }
      { r' with printed := printed' } := fun _ _ => ⟨hr.issues, hr.maxIssues, hr.left, hr.right⟩
  by_cases hquiet : (v = 0 ∧ w = 0) ∨
      u.fits b.first.name.span.left b.first.name.span.right = true
  · obtain ⟨_, hl⟩ := advise_eq tools u b d r (hquiet.imp_left fun hz => hr.left.trans hz.1)
    obtain ⟨_, hr'⟩ := advise_eq tools u b d r' (hquiet.imp_left fun hz => hr.right.trans hz.2)
    rw [hl, hr']
    exact .ok (hsame _ _)
  · obtain ⟨hwanted, hfits⟩ := not_or.mp hquiet
    have hsame := h.resolve_right hfits
    rw [Bool.not_eq_true] at hfits
    rw [advise_outside tools u b d r (by rw [hr.left]; tauto) hfits,
      advise_outside tools u b d r' (by rw [hr.right]; tauto) hfits]
    exact .error hr

theorem adviseAll {u : SourceUnit} {ds : List (Binding × Decision)} (h : (v = 0 ↔ w = 0) ∨
      ds.all (fun x => u.fits x.1.first.name.span.left x.1.first.name.span.right) = true) :
    IsSteady v w (adviseAll tools u ds) := by
  induction ds with
  | nil => exact pure _
  | cons x ds ih =>
    rw [List.all_cons, Bool.and_eq_true] at h
    rw [adviseAll_cons]
    exact (advise x.2 (h.imp_right And.left)).bind fun _ => ih (h.imp_right And.right)

/-- The work on a unit is steady if advice on its names is. -/
theorem analyzeUnit {u : SourceUnit} {options : Options} {isDocument : Bool}
    (h : (v = 0 ↔ w = 0) ∨ ∀ tree a, u.tree tools.parser isDocument = .ok tree →
      Analysis.ofScript tree options = .ok a → a.isShownIn u = true) :
    IsSteady v w (analyzeUnit tools u options isDocument) := by
  refine (readUnit _ u isDocument).bind_of fun tree r r' htree => (info _ _).bind fun _ => ?_
  have ht := tree_of_readUnit htree
  cases ha : Analysis.ofScript tree options with
  | error f =>
    cases f with
    | plan d => exact fail _ _
    | scope f =>
      cases f with
      | malformed => exact fail _ _
      | noPart | notList => exact throw _
  | ok a =>
    exact (info _ _).bind fun _ => (adviseAll (h.imp_right fun hall => hall tree a ht ha)).bind
      fun _ => pure (tree, a)

end IsSteady

end Reporting

/-- **Chatter and the result.** Two levels of chatter make no difference to the work on a unit,
other than to what is printed, exactly if both ask for advice or neither does, or if all names that
are decided on are in the text. The latter is so if the script ends within the text, as it does if
it was read from the text. -/
theorem analyzeUnit_alike_iff (tools : Toolkit) (u : SourceUnit) (options : Options)
    (isDocument : Bool) (r : Report) (v w : Int) :
    (Reporting.Alike v w
        (Reporting.analyzeUnit tools u options isDocument { r with verbose := v })
        (Reporting.analyzeUnit tools u options isDocument { r with verbose := w }) ↔
      (v = 0 ↔ w = 0) ∨ ∀ tree a, u.tree tools.parser isDocument = .ok tree →
        Analysis.ofScript tree options = .ok a → a.isShownIn u = true) ∧
    (Reporting.Alike v w
        (Reporting.analyzeUnit tools u options isDocument { r with verbose := v })
        (Reporting.analyzeUnit tools u options isDocument { r with verbose := w }) ∨
      ∃ tree, u.tree tools.parser isDocument = .ok tree ∧ u.text.length < tree.span.right) := by
  have hstart : Report.Alike v w { r with verbose := v } { r with verbose := w } :=
    ⟨rfl, rfl, rfl, rfl⟩
  refine ⟨⟨fun halike => ?_, fun h => Reporting.IsSteady.analyzeUnit h _ _ hstart⟩, ?_⟩
  · by_cases hlevels : v = 0 ↔ w = 0
    · exact .inl hlevels
    refine .inr fun tree a ht ha => ?_
    by_contra hshown
    rw [Bool.not_eq_true] at hshown
    -- the level that asks for no advice gets the analysis, and the other one stops
    by_cases hv : v = 0
    · have hw : w ≠ 0 := fun hw => hlevels (iff_of_true hv hw)
      obtain ⟨_, hok⟩ := Reporting.analyzeUnit_ok (r := { r with verbose := v }) ht ha (.inl hv)
      obtain ⟨_, hstop⟩ := Reporting.analyzeUnit_outside (r := { r with verbose := w }) ht ha hw
        hshown
      rw [hok, hstop] at halike
      cases halike
    · have hw : w = 0 := by_contra fun hw => hlevels (iff_of_false hv hw)
      obtain ⟨_, hstop⟩ := Reporting.analyzeUnit_outside (r := { r with verbose := v }) ht ha hv
        hshown
      obtain ⟨_, hok⟩ := Reporting.analyzeUnit_ok (r := { r with verbose := w }) ht ha (.inl hw)
      rw [hok, hstop] at halike
      cases halike
  · by_cases hlong :
        ∃ tree, u.tree tools.parser isDocument = .ok tree ∧ u.text.length < tree.span.right
    · exact .inr hlong
    · refine .inl (Reporting.IsSteady.analyzeUnit (.inr fun tree a ht ha => ?_) _ _ hstart)
      exact Analysis.isShownIn_of_right_le ha (Int.not_lt.mp fun hlt => hlong ⟨tree, ht, hlt⟩)

/-- A document about `var a` in another text, at an offset beyond the end of the document. -/
def distantUnit : SourceUnit where
  text := "\x7b\"type\":\"Program\",\"range\":[0,999],\"body\":[" ++
    "\x7b\"type\":\"VariableDeclaration\",\"range\":[900,905],\"kind\":\"var\"," ++
    "\"declarations\":[\x7b\"type\":\"VariableDeclarator\",\"range\":[904,905]," ++
    "\"id\":\x7b\"type\":\"Identifier\",\"range\":[904,905],\"name\":\"a\"\x7d\x7d]\x7d]\x7d"

/-- With some chatter the work on the unit stops, and without it does not. -/
theorem distantUnit_interferes : [0, 1].map (fun v => Reporting.escapes
    (Reporting.analyzeUnit { parser := fun _ => .error default } distantUnit {} true
      { verbose := v })) = [false, true] := by
  decide +kernel

end ScopeLowering
