import ScopeLowering.Proofs.Documents
import ScopeLowering.Source.Work

/-!
# What comes of a unit

The work on a unit ends in one of five ways (`SourceUnit.Concludes`). Two of them are meant: an
analysis comes out, or one issue is reported and the unit fails. The other three leave no issue
behind: the document cannot be read, its tree cannot be gone through, or advice is given about a
name outside of the text. `analyzeUnit_keeps_contract` says when that can be: the document is not
complete, or advice is wanted on a script that does not end within the text.

## The model

The text of a unit is either source, for which the parser answers with a document, or the text of a
document itself. In both cases a complete document (`SourceUnit.isComplete`) is all that is asked.
Reading a document and going through a tree are recursions, for which the stack is taken to suffice.
-/

namespace ScopeLowering

/-- Is the failure one that is reported as an issue? -/
def SourceFault.isReported : SourceFault → Bool
  | parse _ => true
  | read f => f.isReported

namespace SourceUnit

section

variable (u : SourceUnit) (parser : Parser) (options : Options) (isDocument : Bool)

/-- The tree of a unit, read as a document if `isDocument`. -/
def tree : Except SourceFault Node :=
  if isDocument then Script.ofDocument u.text else Script.ofText parser u.text

/-- Is the unit read from a complete document, if from any? A number with too many digits cannot
be part of one. -/
def isComplete : Bool :=
  if isDocument then
    match Json.parse u.text with
    | .ok document => Document.isComplete document
    | .error e => Decidable.decide (e.complaint ≠ .tooManyDigits)
  else
    match parser u.text with
    | .ok document => document.fields?.isSome && Document.isComplete document
    | .error _ => true

/-- The reason for which a unit fails at a step. -/
def Fails : Phase → Prop
  | .parse => ∃ f, u.tree parser isDocument = .error f ∧ f.isReported = true
  | .scope => ∃ tree message phrase, u.tree parser isDocument = .ok tree ∧
      Scoping.ofScript tree = .error (.malformed message phrase)
  | .emit => ∃ tree d, u.tree parser isDocument = .ok tree ∧
      Analysis.ofScript tree options = .error (.plan d)
  | .read | .verify => False

end

section

variable {u : SourceUnit} {parser : Parser} {isDocument : Bool}
  (h : u.isComplete parser isDocument = true)
include h

/-- The tree of a complete unit lacks no part, or the unit fails for a reason that is reported. -/
theorem whole_or_reported : (∃ tree, u.tree parser isDocument = .ok tree ∧ tree.isWhole = true) ∨
    ∃ f, u.tree parser isDocument = .error f ∧ f.isReported = true := by
  unfold isComplete at h
  unfold tree
  cases isDocument with
  | true =>
    simp only [if_true, Script.ofDocument, Document.readText] at h ⊢
    cases hparse : Json.parse u.text with
    | ok document =>
      rw [hparse] at h
      have hread := Document.fares_read h
      dsimp only
      cases htree : Document.read document with
      | ok tree =>
        rw [htree] at hread
        exact .inl ⟨tree, rfl, hread⟩
      | error f =>
        rw [htree] at hread
        exact .inr ⟨.read f, rfl, hread⟩
    | error e =>
      rw [hparse] at h
      dsimp only at h ⊢
      rw [if_neg (of_decide_eq_true h)]
      exact .inr ⟨_, rfl, rfl⟩
  | false =>
    simp only [Bool.false_eq_true, if_false, Script.ofText] at h ⊢
    cases hparse : parser u.text with
    | error f => exact .inr ⟨_, rfl, rfl⟩
    | ok document =>
      rw [hparse] at h
      cases document with
      | obj fields =>
        have hread := @Document.fares_readProgram fields h
        dsimp only
        cases htree : Document.readProgram fields with
        | ok tree =>
          rw [htree] at hread
          exact .inl ⟨_, rfl, Script.isWhole_widen u.text hread⟩
        | error f =>
          rw [htree] at hread
          exact .inr ⟨.read f, rfl, hread⟩
      | _ => cases h

omit h in
theorem isComplete_of_unreadable {f : ReadFault} (ht : u.tree parser isDocument = .error (.read f))
    (hf : f.isReported = false) : u.isComplete parser isDocument = false := by
  by_contra hc
  rcases whole_or_reported (Bool.not_eq_false _ ▸ hc) with ⟨tree, htree, _⟩ | ⟨g, hg, hreported⟩
  · cases ht.symm.trans htree
  · cases ht.symm.trans hg
    cases hf.symm.trans hreported

omit h in
theorem isComplete_of_unscopable {tree : Node} {f : ScopeFault}
    (ht : u.tree parser isDocument = .ok tree) (hs : Scoping.ofScript tree = .error f)
    (hf : f.isMalformed = false) : u.isComplete parser isDocument = false := by
  by_contra hc
  rcases whole_or_reported (Bool.not_eq_false _ ▸ hc) with ⟨tree', htree, hwhole⟩ | ⟨g, hg, _⟩
  · cases ht.symm.trans htree
    cases hf.symm.trans (Scoping.isMalformed_of_isWhole hwhole hs)
  · cases ht.symm.trans hg

end

end SourceUnit

theorem Analysis.scope_error {script : Node} {o : Options} {f : ScopeFault}
    (h : Analysis.ofScript script o = .error (.scope f)) : Scoping.ofScript script = .error f := by
  unfold Analysis.ofScript at h
  split at h
  · cases h
    assumption
  · dsimp only at h
    split at h <;> cases h

/-- Are all names that are decided on in the text of a unit? -/
def Analysis.isShownIn (a : Analysis) (u : SourceUnit) : Bool :=
  a.decisionsInOrder.all fun x => u.fits x.1.first.name.span.left x.1.first.name.span.right

/-- A text shows the names of a script that ends within it. -/
theorem Analysis.isShownIn_of_right_le {script : Node} {o : Options} {a : Analysis}
    {u : SourceUnit} (h : Analysis.ofScript script o = .ok a)
    (hr : script.span.right ≤ u.text.length) : a.isShownIn u = true := by
  refine List.all_eq_true.mpr fun x hx => ?_
  have hthere : script.isAbsent = false := by
    cases script with
    | absent => cases h
    | _ => rfl
  obtain ⟨hsense, hin⟩ := (Node.isPlacedIn_iff rfl script).mp (Analysis.isPlacedIn_script h x hx)
  rw [hthere] at hin
  have hname : (Node.ident x.1.first.name).span = x.1.first.name.span := rfl
  rw [hname] at hsense hin
  simp only [Span.isSensible, Span.isWithin, SourceUnit.fits, Bool.false_eq_true, false_or,
    Bool.and_eq_true, decide_eq_true_eq] at hsense hin ⊢
  omega

/-- Names that the text does not show belong to a script that does not end within it. -/
theorem Analysis.lt_right_of_isShownIn {script : Node} {o : Options} {a : Analysis}
    {u : SourceUnit} (h : Analysis.ofScript script o = .ok a) (hs : a.isShownIn u = false) :
    u.text.length < script.span.right := by
  by_contra hle
  cases hs.symm.trans (Analysis.isShownIn_of_right_le h (Int.not_lt.mp hle))

/-! ### Issues -/

/-- Do all stretches that a picture shows have their captions? -/
def Picture.isCaptioned (p : Picture) : Bool := p.pins.all (·.caption.isSome)

/-- A stretch with a caption can be drawn. -/
theorem Pin.exists_illustration (pencil : Illustrator) {p : Pin} (h : p.caption.isSome = true) :
    ∃ t, p.illustrate? pencil = some t := by
  obtain ⟨row, col, line, hrow, hline, hdraw⟩ :=
    pencil.returns p.unit.text p.left (Nat.le_trans p.le p.inText)
  obtain ⟨caption, hcaption⟩ := Option.isSome_iff_exists.mp h
  simp only [illustrate?, hrow, hcaption, Option.bind_eq_bind, Option.bind_some, hline]
  exact Option.isSome_iff_exists.mp (hdraw _ _ caption)

theorem Picture.exists_illustrations (pencil : Illustrator) {pins : List Pin}
    (h : pins.all (·.caption.isSome) = true) (last : Option (Option String)) :
    ∃ shown, illustrations? pencil last pins = some shown := by
  induction pins generalizing last with
  | nil => exact ⟨[], rfl⟩
  | cons pin rest ih =>
    rw [List.all_cons, Bool.and_eq_true] at h
    obtain ⟨shown, hshown⟩ := Pin.exists_illustration pencil h.1
    obtain ⟨others, hothers⟩ := ih h.2 (some pin.unit.path)
    simp only [illustrations?, hshown, hothers]
    exact ⟨_, rfl⟩

/-- A picture with all its captions can be shown. -/
theorem Picture.exists_text (pencil : Illustrator) {p : Picture} (h : p.isCaptioned = true) :
    ∃ t, p.text? pencil = some t := by
  obtain ⟨shown, hshown⟩ := exists_illustrations pencil h none
  rw [text?, hshown]
  exact ⟨_, rfl⟩

theorem SourceUnit.all_pin? (u : SourceUnit) (left right : Int) {caption : Option String}
    (h : caption.isSome = true) :
    (u.pin? left right caption).toList.all (·.caption.isSome) = true := by
  unfold pin?
  split <;> simp [h]

/-- Is this the stop of a unit that has failed? -/
def Stop.isFailure : Stop → Bool
  | failed _ | tooManyIssues => true
  | _ => false

/-- Why a unit stops that has failed at a step: there, or because of too many issues. -/
def Report.stopAt (r : Report) (phase : Phase) : Stop :=
  if (r.issues.length : Int) ≥ r.maxIssues then .tooManyIssues else .failed phase

theorem Report.isFailure_stopAt (r : Report) (phase : Phase) :
    (r.stopAt phase).isFailure = true := by
  unfold stopAt
  split <;> rfl

namespace Reporting

variable {α : Type}

theorem bind_ok {β : Type} {x : Reporting α} {f : α → Reporting β} {r r' : Report} {a : α}
    (h : x r = .ok a r') : (x >>= f) r = f a r' := by
  simp only [bind, EStateM.bind, h]

theorem bind_error {β : Type} {x : Reporting α} {f : α → Reporting β} {r r' : Report} {e : Stop}
    (h : x r = .error e r') : (x >>= f) r = .error e r' := by
  simp only [bind, EStateM.bind, h]

/-- An issue is reported, and then the unit fails. -/
theorem issue_throw (p : Picture) (phase : Phase) (r : Report) :
    (issue p >>= fun _ => throw (.failed phase) : Reporting α) r =
      .error (({ r with issues := r.issues ++ [p] } : Report).stopAt phase)
        { r with issues := r.issues ++ [p] } := by
  unfold Report.stopAt
  rw [issue, bind_assoc, bind_ok (show (modify _ : Reporting Unit) r = .ok () _ from rfl),
    bind_assoc, bind_ok (show (get : Reporting Report) _ = .ok _ _ from rfl)]
  split
  · rfl
  · rfl

/-! ### Advice -/

theorem info_eq (line : String) (level : Int) (r : Report) :
    ∃ printed, info line level r = .ok () { r with printed := printed } := by
  rw [info, bind_ok (show (get : Reporting Report) r = .ok r r from rfl)]
  split
  · exact ⟨_, rfl⟩
  · exact ⟨_, rfl⟩

theorem advise_eq (tools : Toolkit) (u : SourceUnit) (b : Binding) (d : Decision) (r : Report)
    (h : r.verbose = 0 ∨ u.fits b.first.name.span.left b.first.name.span.right = true) :
    ∃ printed, advise tools u b d r = .ok () { r with printed := printed } := by
  rw [advise, bind_ok (show (get : Reporting Report) r = .ok r r from rfl)]
  split
  · exact ⟨_, rfl⟩
  · rename_i hv
    have hfits := h.resolve_left (by simpa using hv)
    simp only [SourceUnit.pin?, dif_pos hfits]
    generalize hshown : Picture.text? tools.pencil _ = shown
    cases shown with
    | some t => exact ⟨_, rfl⟩
    | none =>
      exact absurd hshown (Option.ne_none_iff_exists'.mpr (Picture.exists_text tools.pencil rfl))

theorem advise_outside (tools : Toolkit) (u : SourceUnit) (b : Binding) (d : Decision) (r : Report)
    (hv : r.verbose ≠ 0) (h : u.fits b.first.name.span.left b.first.name.span.right = false) :
    advise tools u b d r = .error .outsideText r := by
  rw [advise, bind_ok (show (get : Reporting Report) r = .ok r r from rfl)]
  simp only [beq_iff_eq, hv, if_false, SourceUnit.pin?, h, Bool.false_eq_true, dite_false]
  rfl

/-- Advice on some decisions. -/
def adviseAll (tools : Toolkit) (u : SourceUnit) (ds : List (Binding × Decision)) :
    Reporting PUnit :=
  forIn ds PUnit.unit fun x _ => do
    advise tools u x.1 x.2
    return .yield PUnit.unit

variable {tools : Toolkit}

theorem adviseAll_cons (u : SourceUnit) (x : Binding × Decision) (ds : List (Binding × Decision)) :
    adviseAll tools u (x :: ds) = advise tools u x.1 x.2 >>= fun _ => adviseAll tools u ds := by
  simp only [adviseAll, List.forIn_cons, bind_assoc, pure_bind]

/-- Advice prints and does no more, if it is not wanted or the names are in the text. -/
theorem adviseAll_eq {u : SourceUnit} {ds : List (Binding × Decision)} {r : Report}
    (h : r.verbose = 0 ∨
      ds.all (fun x => u.fits x.1.first.name.span.left x.1.first.name.span.right) = true) :
    ∃ printed, adviseAll tools u ds r = .ok PUnit.unit { r with printed := printed } := by
  induction ds generalizing r with
  | nil => exact ⟨_, rfl⟩
  | cons x ds ih =>
    rw [List.all_cons, Bool.and_eq_true] at h
    obtain ⟨printed, hx⟩ := advise_eq tools u x.1 x.2 r (h.imp_right And.left)
    rw [adviseAll_cons, bind_ok hx]
    exact ih (h.imp_right And.right)

/-- Advice that is wanted stops at the first name that is not in the text. -/
theorem adviseAll_outside {u : SourceUnit} {ds : List (Binding × Decision)} {r : Report}
    (hv : r.verbose ≠ 0)
    (h : ds.all (fun x => u.fits x.1.first.name.span.left x.1.first.name.span.right) = false) :
    ∃ printed, adviseAll tools u ds r = .error .outsideText { r with printed := printed } := by
  induction ds generalizing r with
  | nil => cases h
  | cons x ds ih =>
    rw [List.all_cons] at h
    rw [adviseAll_cons]
    cases hfits : u.fits x.1.first.name.span.left x.1.first.name.span.right with
    | true =>
      rw [hfits, Bool.true_and] at h
      obtain ⟨printed, hx⟩ := advise_eq tools u x.1 x.2 r (.inr hfits)
      rw [bind_ok hx]
      exact ih hv h
    | false => exact ⟨r.printed, bind_error (advise_outside tools u x.1 x.2 r hv hfits)⟩

/-! ### Units -/

section

variable {parser : Parser} {u : SourceUnit} {isDocument : Bool} {r : Report}

theorem readUnit_ok {tree : Node} (h : u.tree parser isDocument = .ok tree) :
    readUnit parser u isDocument r = .ok tree r := by
  unfold SourceUnit.tree at h
  simp only [readUnit, h]
  rfl

/-- A unit that has no tree for a reason that is reported. Only a construct that is not named by a
text is left without a caption. -/
theorem readUnit_reported {f : SourceFault} (h : u.tree parser isDocument = .error f)
    (hf : f.isReported = true) : ∃ p : Picture,
      (p.isCaptioned = false → ∃ construct span,
        f = .read (.unsupported construct span) ∧ construct.text? = none) ∧
      readUnit parser u isDocument r =
        .error (({ r with issues := r.issues ++ [p] } : Report).stopAt .parse)
          { r with issues := r.issues ++ [p] } := by
  unfold SourceUnit.tree at h
  simp only [readUnit, h]
  cases f with
  | parse f =>
    refine ⟨_, fun hc => ?_, issue_throw _ _ r⟩
    cases hc.symm.trans (u.all_pin? _ _ rfl)
  | read f =>
    cases f with
    | unsupported construct span =>
      refine ⟨_, fun hc => ⟨construct, span, rfl, ?_⟩, issue_throw _ _ r⟩
      by_contra hnone
      cases hc.symm.trans (u.all_pin? _ _ (Option.isSome_iff_ne_none.mpr hnone))
    | notTree =>
      refine ⟨_, fun hc => ?_, issue_throw _ _ r⟩
      cases hc
    | _ => cases hf

theorem readUnit_unreadable {f : ReadFault} (h : u.tree parser isDocument = .error (.read f))
    (hf : f.isReported = false) : readUnit parser u isDocument r = .error (.unreadable f) r := by
  unfold SourceUnit.tree at h
  simp only [readUnit, h]
  cases f with
  | unsupported | notTree => cases hf
  | _ => rfl

/-- The tree that is read is the tree of the unit. -/
theorem tree_of_readUnit {tree : Node} {r' : Report}
    (h : readUnit parser u isDocument r = .ok tree r') : u.tree parser isDocument = .ok tree := by
  cases ht : u.tree parser isDocument with
  | ok tree' => cases (readUnit_ok ht).symm.trans h; rfl
  | error f =>
    cases hf : f.isReported with
    | true =>
      obtain ⟨p, _, hread⟩ := readUnit_reported (r := r) ht hf
      cases hread.symm.trans h
    | false =>
      cases f with
      | parse => cases hf
      | read f => cases (readUnit_unreadable ht hf).symm.trans h

variable {options : Options} {tree : Node} {a : Analysis}
  (ht : u.tree tools.parser isDocument = .ok tree)
  (ha : Analysis.ofScript tree options = .ok a)
include ht ha

/-- Once there is an analysis, nothing is left but advice. -/
theorem analyzeUnit_of_analysis : ∃ printed, analyzeUnit tools u options isDocument r =
    (adviseAll tools u a.decisionsInOrder >>= fun _ => pure (tree, a))
      { r with printed := printed } := by
  obtain ⟨printed, hinfo⟩ := info_eq ("Parsed " ++ u.display) 1 r
  obtain ⟨printed', hinfo'⟩ := info_eq (toString a.decisions.length ++ " var bindings, " ++
    toString a.edits.length ++ " edits") 1 { r with printed := printed }
  refine ⟨printed', ?_⟩
  rw [analyzeUnit, bind_ok (readUnit_ok ht), bind_ok hinfo, ha]
  dsimp only
  rw [bind_ok hinfo']
  rfl

theorem analyzeUnit_ok (h : r.verbose = 0 ∨ a.isShownIn u = true) :
    ∃ printed, analyzeUnit tools u options isDocument r =
      .ok (tree, a) { r with printed := printed } := by
  obtain ⟨printed, heq⟩ := analyzeUnit_of_analysis (r := r) ht ha
  obtain ⟨printed', hadvise⟩ := adviseAll_eq (r := { r with printed := printed }) h
  exact ⟨printed', by rw [heq, bind_ok hadvise]; rfl⟩

theorem analyzeUnit_outside (hv : r.verbose ≠ 0) (h : a.isShownIn u = false) :
    ∃ printed, analyzeUnit tools u options isDocument r =
      .error .outsideText { r with printed := printed } := by
  obtain ⟨printed, heq⟩ := analyzeUnit_of_analysis (r := r) ht ha
  obtain ⟨printed', hadvise⟩ := adviseAll_outside (r := { r with printed := printed }) hv h
  exact ⟨printed', by rw [heq, bind_error hadvise]⟩

end

end Reporting

namespace SourceUnit

/-- How the work on a unit ends, with the reason for it and what has become of the report. -/
inductive Concludes (u : SourceUnit) (parser : Parser) (options : Options) (isDocument : Bool)
    (r : Report) : EStateM.Result Stop Report (Node × Analysis) → Prop
  /-- An analysis comes out. -/
  | analyzed {tree : Node} {a : Analysis} {r' : Report} (ht : u.tree parser isDocument = .ok tree)
      (ha : Analysis.ofScript tree options = .ok a)
      (hshown : r.verbose = 0 ∨ a.isShownIn u = true) (hr : r'.issues = r.issues) :
      Concludes u parser options isDocument r (.ok (tree, a) r')
  /-- An issue is reported. It has its captions, unless it is about a construct without a name. -/
  | reported {phase : Phase} {p : Picture} {r' : Report}
      (hf : u.Fails parser options isDocument phase) (hr : r'.issues = r.issues ++ [p])
      (hmax : r'.maxIssues = r.maxIssues)
      (hp : p.isCaptioned = false → ∃ construct span, u.tree parser isDocument =
        .error (.read (.unsupported construct span)) ∧ construct.text? = none) :
      Concludes u parser options isDocument r (.error (r'.stopAt phase) r')
  | unreadable {f : ReadFault} {r' : Report} (ht : u.tree parser isDocument = .error (.read f))
      (hf : f.isReported = false) (hr : r'.issues = r.issues) :
      Concludes u parser options isDocument r (.error (.unreadable f) r')
  | unscopable {tree : Node} {f : ScopeFault} {r' : Report}
      (ht : u.tree parser isDocument = .ok tree) (hs : Scoping.ofScript tree = .error f)
      (hf : f.isMalformed = false) (hr : r'.issues = r.issues) :
      Concludes u parser options isDocument r (.error (.unscopable f) r')
  /-- Advice is wanted about a name that is not in the text. -/
  | outsideText {tree : Node} {a : Analysis} {r' : Report}
      (ht : u.tree parser isDocument = .ok tree) (ha : Analysis.ofScript tree options = .ok a)
      (hv : r.verbose ≠ 0) (hshown : a.isShownIn u = false) (hr : r'.issues = r.issues) :
      Concludes u parser options isDocument r (.error .outsideText r')

theorem concludes (u : SourceUnit) (tools : Toolkit) (options : Options) (isDocument : Bool)
    (r : Report) : u.Concludes tools.parser options isDocument r
      (Reporting.analyzeUnit tools u options isDocument r) := by
  cases ht : u.tree tools.parser isDocument with
  | error f =>
    unfold Reporting.analyzeUnit
    cases hf : f.isReported with
    | true =>
      have hfails : u.Fails tools.parser options isDocument .parse := ⟨f, ht, hf⟩
      obtain ⟨p, hp, hread⟩ := Reporting.readUnit_reported (r := r) ht hf
      rw [Reporting.bind_error hread]
      refine .reported hfails rfl rfl fun hc => ?_
      obtain ⟨construct, span, rfl, hnone⟩ := hp hc
      exact ⟨construct, span, ht, hnone⟩
    | false =>
      cases f with
      | parse f => cases hf
      | read f =>
        rw [Reporting.bind_error (Reporting.readUnit_unreadable ht hf)]
        exact .unreadable ht hf rfl
  | ok tree =>
    cases ha : Analysis.ofScript tree options with
    | error f =>
      obtain ⟨printed, hinfo⟩ := Reporting.info_eq ("Parsed " ++ u.display) 1 r
      rw [Reporting.analyzeUnit, Reporting.bind_ok (Reporting.readUnit_ok ht),
        Reporting.bind_ok hinfo, ha]
      cases f with
      | plan d =>
        have hfails : u.Fails tools.parser options isDocument .emit := ⟨tree, d, ht, ha⟩
        dsimp only
        rw [Reporting.defect, Reporting.issue_throw]
        refine .reported hfails rfl rfl fun hc => ?_
        cases hc
      | scope f =>
        have hs := Analysis.scope_error ha
        cases f with
        | malformed message phrase =>
          have hfails : u.Fails tools.parser options isDocument .scope :=
            ⟨tree, message, phrase, ht, hs⟩
          dsimp only
          rw [Reporting.malformed, Reporting.issue_throw]
          refine .reported hfails rfl rfl fun hc => ?_
          cases phrase with
          | none => cases hc
          | some s =>
            simp only [Picture.isCaptioned, Option.bind_some] at hc
            split at hc
            · cases hc.symm.trans (u.all_pin? _ _ rfl)
            · cases hc
        | noPart | notList => exact .unscopable ht hs rfl rfl
    | ok a =>
      by_cases hshown : r.verbose = 0 ∨ a.isShownIn u = true
      · obtain ⟨printed, hok⟩ := Reporting.analyzeUnit_ok ht ha hshown
        rw [hok]
        exact .analyzed ht ha hshown rfl
      · obtain ⟨hv, hshown⟩ := not_or.mp hshown
        rw [Bool.not_eq_true] at hshown
        obtain ⟨printed, hstop⟩ := Reporting.analyzeUnit_outside ht ha hv hshown
        rw [hstop]
        exact .outsideText ht ha hv hshown rfl

/-- What is promised of the work on a unit. Either an analysis comes out and no issue is added, or
exactly one issue is added, for a reason, and the unit fails at that step, unless the issue was one
too many. -/
def KeepsContract (u : SourceUnit) (parser : Parser) (options : Options) (isDocument : Bool)
    (r : Report) : EStateM.Result Stop Report (Node × Analysis) → Prop
  | .ok (tree, a) r' => u.tree parser isDocument = .ok tree ∧
      Analysis.ofScript tree options = .ok a ∧ r'.issues = r.issues
  | .error stop r' => ∃ phase p, u.Fails parser options isDocument phase ∧
      r'.issues = r.issues ++ [p] ∧
      stop = if (r.issues.length + 1 : Int) < r.maxIssues then .failed phase else .tooManyIssues

end SourceUnit

/-- **The contract of a unit.** Whatever the text, the tools, the options and the report, the
contract is kept, or the work stops with no issue added. The latter has two causes only. The
document lacks a field that a node of its type must have, or has something else in its place. Or
advice is wanted, and the script is said to end after the end of the text. -/
theorem analyzeUnit_keeps_contract (tools : Toolkit) (u : SourceUnit) (options : Options)
    (isDocument : Bool) (r : Report) :
    u.KeepsContract tools.parser options isDocument r
      (Reporting.analyzeUnit tools u options isDocument r) ∨
    ∃ stop r', Reporting.analyzeUnit tools u options isDocument r = .error stop r' ∧
      r'.issues = r.issues ∧
      ((u.isComplete tools.parser isDocument = false ∧
          ((∃ f, stop = .unreadable f) ∨ ∃ f, stop = .unscopable f)) ∨
        (r.verbose ≠ 0 ∧ stop = .outsideText ∧
          ∃ tree, u.tree tools.parser isDocument = .ok tree ∧
            u.text.length < tree.span.right)) := by
  generalize hres : Reporting.analyzeUnit tools u options isDocument r = res
  cases hres ▸ u.concludes tools options isDocument r with
  | analyzed ht ha _ hr => exact .inl ⟨ht, ha, hr⟩
  | @reported phase p r' hf hr hmax _ =>
    refine .inl ⟨phase, p, hf, hr, ?_⟩
    rw [Report.stopAt, hmax, hr, List.length_append, List.length_singleton]
    split
    · rw [if_neg (by omega)]
    · rw [if_pos (by omega)]
  | @unreadable f r' ht hf hr =>
    exact .inr ⟨_, r', rfl, hr, .inl ⟨SourceUnit.isComplete_of_unreadable ht hf, .inl ⟨f, rfl⟩⟩⟩
  | @unscopable tree f r' ht hs hf hr =>
    exact .inr ⟨_, r', rfl, hr, .inl ⟨SourceUnit.isComplete_of_unscopable ht hs hf, .inr ⟨f, rfl⟩⟩⟩
  | @outsideText tree a r' ht ha hv hshown hr =>
    exact .inr ⟨_, r', rfl, hr, .inr ⟨hv, rfl, tree, ht, Analysis.lt_right_of_isShownIn ha hshown⟩⟩

/-- Does the work stop with no issue to show for it? -/
def Reporting.escapes {α : Type} : EStateM.Result Stop Report α → Bool
  | .ok .. => false
  | .error stop r => !stop.isFailure && r.issues.isEmpty

/-- A document with a statement that lacks its expression. -/
def lackingUnit : SourceUnit where
  text := "\x7b\"type\":\"Program\",\"range\":[0,0],\"body\":[" ++
    "\x7b\"type\":\"ExpressionStatement\",\"range\":[0,0]\x7d]\x7d"

theorem lackingUnit_escapes :
    Reporting.escapes (Reporting.analyzeUnit { parser := fun _ => .error default } lackingUnit {}
      true {}) = true := by
  decide +kernel

end ScopeLowering
