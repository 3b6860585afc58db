import ScopeLowering.CommandLine.Session
import ScopeLowering.Proofs.Contract

/-!
# Files by themselves

A session does to each of its files what a session with that file alone does (`runFiles_isolates`):
if it comes to an end, then so do the others, and its output is theirs, one after another. But there
are files that stop a session of their own, and they stop any session that they are part of.
`Settings.Derails` lists what is the matter with such a file.

## The model

All files are worked on before any result is shown, so that the first file to stop the work need not
be the first one that would stop a session of its own. With several files at fault it is left open
here which of them it is. The stack is taken to suffice for each of them.
-/

namespace ScopeLowering

/-- The text of a file, if there is one. -/
def FileContent.text? : FileContent → Option String
  | bytes bs => (Text.decodeStrict bs).toOption.map fun text =>
      String.ofList (Text.unifyLineEnds text.toList)
  | missing | unreadable _ | impossible => none

namespace Settings

section

variable (s : Settings) (read : String → FileContent) (canWrite : String → String → Bool)
  (tools : Toolkit) (path : String)

/-- The file has this text, which has this tree, which has this analysis. -/
structure Analyzes (text : String) (tree : Node) (a : Analysis) : Prop where
  hasText : (read path).text? = some text
  hasTree : SourceUnit.tree ⟨text, some path⟩ tools.parser s.estree = .ok tree
  hasAnalysis : Analysis.ofScript tree ⟨s.allow⟩ = .ok a

/-- What is the matter with a file that stops a session. -/
inductive Derails : Stop → Prop
  | impossiblePath (h : read path = .impossible) : Derails .impossiblePath
  /-- A document lacks a field. -/
  | unreadable {text : String} {f : ReadFault} (htext : (read path).text? = some text)
      (hc : SourceUnit.isComplete ⟨text, some path⟩ tools.parser s.estree = false) :
      Derails (.unreadable f)
  | unscopable {text : String} {f : ScopeFault} (htext : (read path).text? = some text)
      (hc : SourceUnit.isComplete ⟨text, some path⟩ tools.parser s.estree = false) :
      Derails (.unscopable f)
  /-- Advice is wanted on a script that does not end within the text. -/
  | outsideText {text : String} {tree : Node} {a : Analysis} (hv : s.verbose ≠ 0)
      (ha : s.Analyzes read tools path text tree a) (hlong : text.length < tree.span.right) :
      Derails .outsideText
  /-- An unsupported construct has no name. -/
  | noCaption {text : String} {construct : Json} {span : Span}
      (htext : (read path).text? = some text)
      (ht : SourceUnit.tree ⟨text, some path⟩ tools.parser s.estree =
        .error (.read (.unsupported construct span))) (hc : construct.text? = none) :
      Derails .noCaption
  /-- The keywords to be changed are not in the text. -/
  | mismatch {text : String} {tree : Node} {a : Analysis} {m : Mismatch} (he : s.estree = false)
      (ha : s.Analyzes read tools path text tree a) (hm : applyEdits text a.edits = .error m) :
      Derails (.mismatch m)
  /-- The changed text is no script. -/
  | unparsable {text newText : String} {tree : Node} {a : Analysis} {f : SourceFault}
      (he : s.estree = false) (hv : s.verify = true) (ha : s.Analyzes read tools path text tree a)
      (hnew : applyEdits text a.edits = .ok newText)
      (hf : Script.ofText tools.parser newText = .error f) : Derails (.unparsable f)
  /-- One of the scripts that are to be compared has no outcome. -/
  | noOutcome {text newText : String} {tree script : Node} {a : Analysis} {signal : Signal}
      (he : s.estree = false) (hv : s.verify = true) (ha : s.Analyzes read tools path text tree a)
      (hnew : applyEdits text a.edits = .ok newText)
      (hscript : script = tree ∨ Script.ofText tools.parser newText = .ok script)
      (hrun : runScript script { platform := tools.platform } = .error signal) :
      Derails (.noOutcome signal)
  /-- The file cannot be overwritten with the changed text. -/
  | unwritable {text newText : String} {tree : Node} {a : Analysis} (he : s.estree = false)
      (hw : s.write = true) (ha : s.Analyzes read tools path text tree a) (hne : a.edits ≠ [])
      (hnew : applyEdits text a.edits = .ok newText) (hno : canWrite path newText = false) :
      Derails .unwritable

end

end Settings

namespace Reporting

variable {α β : Type} {r r' : Report}

theorem bind_eq_error {x : Reporting α} {f : α → Reporting β} {e : Stop}
    (h : (x >>= f) r = .error e r') :
    x r = .error e r' ∨ ∃ a r₁, x r = .ok a r₁ ∧ f a r₁ = .error e r' := by
  cases hx : x r with
  | ok a r₁ => exact .inr ⟨a, r₁, rfl, (bind_ok hx).symm.trans h⟩
  | error e' r₁ =>
    rw [bind_error hx] at h
    cases h
    exact .inl rfl

theorem bind_eq_ok {x : Reporting α} {f : α → Reporting β} {b : β}
    (h : (x >>= f) r = .ok b r') : ∃ a r₁, x r = .ok a r₁ ∧ f a r₁ = .ok b r' := by
  cases hx : x r with
  | ok a r₁ => exact ⟨a, r₁, rfl, (bind_ok hx).symm.trans h⟩
  | error e r₁ =>
    rw [bind_error hx] at h
    cases h

/-- The unit has failed, and all issues have their captions. -/
def HasFailed (stop : Stop) (r : Report) : Prop :=
  stop.isFailure = true ∧ ∀ p ∈ r.issues, p.isCaptioned = true

/-- The first issue is reported, and with it the unit fails. -/
theorem hasFailed_of_issue {p : Picture} {phase : Phase} {stop : Stop} (hr : r.issues = [])
    (hp : p.isCaptioned = true)
    (h : (issue p >>= fun _ => throw (.failed phase) : Reporting α) r = .error stop r') :
    HasFailed stop r' := by
  rw [issue_throw] at h
  cases h
  refine ⟨Report.isFailure_stopAt _ _, ?_⟩
  rw [hr]
  exact List.forall_mem_singleton.mpr hp

theorem issue_throw_ne_ok {p : Picture} {phase : Phase} {a : α}
    (h : (issue p >>= fun _ => throw (.failed phase) : Reporting α) r = .ok a r') : False := by
  rw [issue_throw] at h
  cases h

theorem readFile_ok {content : FileContent} {path text : String}
    (h : readFile content path r = .ok text r') : content.text? = some text ∧ r' = r := by
  unfold readFile at h
  cases content with
  | missing => exact (issue_throw_ne_ok h).elim
  | unreadable why => exact (issue_throw_ne_ok h).elim
  | impossible => cases h
  | bytes bs =>
    cases hd : Text.decodeStrict bs with
    | ok text =>
      simp only [hd] at h
      cases h
      exact ⟨by simp [FileContent.text?, hd, Except.toOption], rfl⟩
    | error e =>
      simp only [hd] at h
      exact (issue_throw_ne_ok h).elim

theorem readFile_error {content : FileContent} {path : String} {stop : Stop} (hr : r.issues = [])
    (h : readFile content path r = .error stop r') :
    HasFailed stop r' ∨ content = .impossible ∧ stop = .impossiblePath := by
  unfold readFile at h
  cases content with
  | missing => exact .inl (hasFailed_of_issue hr rfl h)
  | unreadable why => exact .inl (hasFailed_of_issue hr rfl h)
  | impossible =>
    cases h
    exact .inr ⟨rfl, rfl⟩
  | bytes bs =>
    cases hd : Text.decodeStrict bs with
    | ok text =>
      simp only [hd] at h
      cases h
    | error e =>
      simp only [hd] at h
      exact .inl (hasFailed_of_issue hr rfl h)

theorem lowered_ok {text newText : String} {edits : List Edit}
    (h : lowered text edits r = .ok newText r') : applyEdits text edits = .ok newText ∧ r' = r := by
  cases hedits : applyEdits text edits with
  | ok t =>
    simp only [lowered, hedits] at h
    cases h
    exact ⟨rfl, rfl⟩
  | error m =>
    simp only [lowered, hedits] at h
    cases h

theorem lowered_error {text : String} {edits : List Edit} {stop : Stop}
    (h : lowered text edits r = .error stop r') :
    ∃ m, stop = .mismatch m ∧ applyEdits text edits = .error m := by
  cases hedits : applyEdits text edits with
  | ok t =>
    simp only [lowered, hedits] at h
    cases h
  | error m =>
    simp only [lowered, hedits] at h
    cases h
    exact ⟨m, rfl, rfl⟩

theorem outcomeOf_ok {platform : Platform} {tree : Node} {o : Outcome}
    (h : outcomeOf platform tree r = .ok o r') : r' = r := by
  cases hrun : runScript tree { platform } with
  | ok o =>
    simp only [outcomeOf, hrun] at h
    cases h
    rfl
  | error signal =>
    simp only [outcomeOf, hrun] at h
    cases h

theorem outcomeOf_error {platform : Platform} {tree : Node} {stop : Stop}
    (h : outcomeOf platform tree r = .error stop r') :
    ∃ signal, stop = .noOutcome signal ∧ runScript tree { platform } = .error signal := by
  cases hrun : runScript tree { platform } with
  | ok o =>
    simp only [outcomeOf, hrun] at h
    cases h
  | error signal =>
    simp only [outcomeOf, hrun] at h
    cases h
    exact ⟨signal, rfl, rfl⟩

/-- Comparing two runs ends in a failure, or one of the runs could not be made. -/
theorem verify_error {tools : Toolkit} {tree : Node} {newText : String} {stop : Stop}
    (hr : r.issues = []) (h : verify tools tree newText r = .error stop r') :
    HasFailed stop r' ∨
    (∃ f, stop = .unparsable f ∧ Script.ofText tools.parser newText = .error f) ∨
    ∃ signal script, stop = .noOutcome signal ∧
      runScript script { platform := tools.platform } = .error signal ∧
      (script = tree ∨ Script.ofText tools.parser newText = .ok script) := by
  rcases bind_eq_error h with hstop | ⟨before, r₁, hbefore, hrest⟩
  · obtain ⟨signal, rfl, hrun⟩ := outcomeOf_error hstop
    exact .inr (.inr ⟨signal, tree, rfl, hrun, .inl rfl⟩)
  obtain rfl := outcomeOf_ok hbefore
  cases hnew : Script.ofText tools.parser newText with
  | error f =>
    simp only [hnew] at hrest
    cases hrest
    exact .inr (.inl ⟨f, rfl, rfl⟩)
  | ok newTree =>
    simp only [hnew] at hrest
    rcases bind_eq_error hrest with hstop | ⟨after, r₂, hafter, hend⟩
    · obtain ⟨signal, rfl, hrun⟩ := outcomeOf_error hstop
      exact .inr (.inr ⟨signal, newTree, rfl, hrun, .inr rfl⟩)
    obtain rfl := outcomeOf_ok hafter
    obtain ⟨printed, hinfo⟩ := info_eq ("before: " ++ before.display) 2 r₂
    rw [bind_ok hinfo] at hend
    split at hend
    · exact .inl (hasFailed_of_issue (r := { r₂ with printed := printed }) hr rfl hend)
    · cases hend

end Reporting

/-! ### One file -/

section

variable {read : String → FileContent} {canWrite : String → String → Bool} {tools : Toolkit}
  {s : Settings} {path : String}

/-- What it can mean that the work on a file stops: the file has failed, an issue about it cannot be
shown, or it derails the session. -/
def Settings.Halts (s : Settings) (read : String → FileContent) (canWrite : String → String → Bool)
    (tools : Toolkit) (path : String) (stop : Stop) (r : Report) : Prop :=
  Reporting.HasFailed stop r ∨
    (stop.isFailure = true ∧ s.Derails read canWrite tools path .noCaption) ∨
    s.Derails read canWrite tools path stop

namespace Reporting

variable {r r' : Report} {stop : Stop} {text : String} {tree : Node} {a : Analysis}

theorem analyzeUnit_halts (htext : (read path).text? = some text) (hr : r.issues = [])
    (hverbose : r.verbose = s.verbose)
    (h : analyzeUnit tools ⟨text, some path⟩ ⟨s.allow⟩ s.estree r = .error stop r') :
    s.Halts read canWrite tools path stop r' := by
  have hconcludes := SourceUnit.concludes ⟨text, some path⟩ tools ⟨s.allow⟩ s.estree r
  rw [h] at hconcludes
  cases hconcludes with
  | @reported phase p _ hf hissues hmax hp =>
    rw [hr, List.nil_append] at hissues
    cases hc : p.isCaptioned with
    | true =>
      refine .inl ⟨Report.isFailure_stopAt _ _, ?_⟩
      rw [hissues]
      exact List.forall_mem_singleton.mpr hc
    | false =>
      obtain ⟨construct, span, ht, hnone⟩ := hp hc
      exact .inr (.inl ⟨Report.isFailure_stopAt _ _, .noCaption htext ht hnone⟩)
  | unreadable ht hf =>
    exact .inr (.inr (.unreadable htext (SourceUnit.isComplete_of_unreadable ht hf)))
  | unscopable ht hs hf =>
    exact .inr (.inr (.unscopable htext (SourceUnit.isComplete_of_unscopable ht hs hf)))
  | outsideText ht ha hv hshown =>
    have hwanted : s.verbose ≠ 0 := by
      intro hzero
      rw [hverbose, hzero] at hv
      exact hv rfl
    have hlong := Analysis.lt_right_of_isShownIn ha hshown
    exact .inr (.inr (.outsideText hwanted ⟨htext, ht, ha⟩ hlong))

theorem analyzes_of_analyzeUnit (htext : (read path).text? = some text)
    (h : analyzeUnit tools ⟨text, some path⟩ ⟨s.allow⟩ s.estree r = .ok (tree, a) r') :
    s.Analyzes read tools path text tree a ∧ r'.issues = r.issues := by
  have hconcludes := SourceUnit.concludes ⟨text, some path⟩ tools ⟨s.allow⟩ s.estree r
  rw [h] at hconcludes
  cases hconcludes with
  | analyzed ht ha _ hissues => exact ⟨⟨htext, ht, ha⟩, hissues⟩

theorem processFile_halts (hr : r.issues = []) (hverbose : r.verbose = s.verbose)
    (h : Reporting.processFile tools s (read path) path r = .error stop r') :
    s.Halts read canWrite tools path stop r' := by
  rcases bind_eq_error h with hstop | ⟨text, r₁, hread, hrest⟩
  · rcases readFile_error hr hstop with hfailed | ⟨himpossible, rfl⟩
    · exact .inl hfailed
    · exact .inr (.inr (.impossiblePath himpossible))
  obtain ⟨htext, rfl⟩ := readFile_ok hread
  rcases bind_eq_error hrest with hstop | ⟨⟨tree, a⟩, r₂, hanalyzed, hafter⟩
  · exact analyzeUnit_halts htext hr hverbose hstop
  obtain ⟨hfile, hissues⟩ := analyzes_of_analyzeUnit htext hanalyzed
  rw [hr] at hissues
  cases he : s.estree with
  | true =>
    simp only [he, if_true] at hafter
    cases hafter
  | false =>
    simp only [he, Bool.false_eq_true, if_false] at hafter
    rcases bind_eq_error hafter with hstop | ⟨newText, r₃, hlowered, hend⟩
    · obtain ⟨m, rfl, hm⟩ := lowered_error hstop
      exact .inr (.inr (.mismatch he hfile hm))
    obtain ⟨hnew, rfl⟩ := lowered_ok hlowered
    cases hv : s.verify with
    | false =>
      simp only [hv, Bool.false_eq_true, if_false] at hend
      cases hend
    | true =>
      simp only [hv, if_true] at hend
      rcases bind_eq_error hend with hstop | ⟨_, _, _, hpure⟩
      · rcases verify_error hissues hstop with
          hfailed | ⟨f, rfl, hf⟩ | ⟨signal, script, rfl, hrun, hscript⟩
        · exact .inl hfailed
        · exact .inr (.inr (.unparsable he hv hfile hnew hf))
        · exact .inr (.inr (.noOutcome he hv hfile hnew hscript hrun))
      · cases hpure

/-- The plan of a file comes from its analysis, and a changed text from the plan. -/
theorem processFile_plans {edits : List Edit} {newText : Option String}
    (h : Reporting.processFile tools s (read path) path r = .ok (edits, newText) r') :
    ∃ text tree a, s.Analyzes read tools path text tree a ∧ edits = a.edits ∧
      ∀ t ∈ newText, s.estree = false ∧ applyEdits text a.edits = .ok t := by
  obtain ⟨text, r₁, hread, hrest⟩ := bind_eq_ok h
  obtain ⟨⟨tree, a⟩, r₂, hanalyzed, hafter⟩ := bind_eq_ok hrest
  have hfile := (analyzes_of_analyzeUnit (readFile_ok hread).1 hanalyzed).1
  cases he : s.estree with
  | true =>
    simp only [he, if_true] at hafter
    cases hafter
    exact ⟨text, tree, a, hfile, rfl, nofun⟩
  | false =>
    simp only [he, Bool.false_eq_true, if_false] at hafter
    obtain ⟨t, r₃, hlowered, hend⟩ := bind_eq_ok hafter
    have hnew := (lowered_ok hlowered).1
    split at hend
    · obtain ⟨_, _, _, hpure⟩ := bind_eq_ok hend
      cases hpure
      exact ⟨text, tree, a, hfile, rfl, fun _ ht => Option.some.inj ht ▸ ⟨rfl, hnew⟩⟩
    · cases hend
      exact ⟨text, tree, a, hfile, rfl, fun _ ht => Option.some.inj ht ▸ ⟨rfl, hnew⟩⟩

end Reporting

end

/-! ### Showing -/

theorem Report.exists_complaint (tools : Toolkit) {r : Report}
    (h : ∀ p ∈ r.issues, p.isCaptioned = true) : ∃ t, r.complaint? tools = some t := by
  obtain ⟨texts, htexts⟩ : ∃ texts, r.issues.mapM (Picture.text? tools.pencil) = some texts := by
    generalize r.issues = ps at h
    induction ps with
    | nil => exact ⟨[], rfl⟩
    | cons p ps ih =>
      obtain ⟨hp, hps⟩ := List.forall_mem_cons.mp h
      obtain ⟨t, ht⟩ := Picture.exists_text tools.pencil hp
      obtain ⟨ts, hts⟩ := ih hps
      exact ⟨t :: ts, by simp [List.mapM_cons, ht, hts]⟩
  unfold complaint?
  split
  · exact ⟨_, rfl⟩
  · rw [htexts]
    exact ⟨_, rfl⟩

section

variable {read : String → FileContent} {canWrite : String → String → Bool} {tools : Toolkit}
  {s : Settings} {path : String}

theorem Settings.Derails.isFailure {stop : Stop} (h : s.Derails read canWrite tools path stop) :
    stop.isFailure = false := by
  cases h <;> rfl

theorem showPlan_error {edits : List Edit} {newText : Option String} {stop : Stop}
    (h : showPlan canWrite s path edits newText = .error stop) :
    stop = .unwritable ∧ s.write = true ∧ edits ≠ [] ∧
      ∃ text, newText = some text ∧ canWrite path text = false := by
  unfold showPlan at h
  split at h
  · rename_i text hw
    split at h
    · cases h
    · rename_i hempty
      split at h
      · cases h
      · rename_i hno
        cases h
        exact ⟨rfl, hw, fun hnil => hempty (hnil ▸ rfl), text, rfl, Bool.eq_false_iff.mpr hno⟩
  · cases h
  · cases h
  · split at h <;> cases h

theorem status_of_showPlan {edits : List Edit} {newText : Option String} {o : Output}
    (h : showPlan canWrite s path edits newText = .ok o) : o.status = 0 := by
  unfold showPlan at h
  split at h
  · split at h
    · cases h
      rfl
    · split at h <;> cases h
      rfl
  · cases h
    rfl
  · cases h
    rfl
  · split at h <;> cases h <;> rfl

theorem showResult_error {result : FileResult} {stop : Stop}
    (h : showResult canWrite tools s result = .error stop) :
    (∃ edits text, result.outcome = .ok (edits, some text) ∧ stop = .unwritable ∧
      s.write = true ∧ edits ≠ [] ∧ canWrite result.path text = false) ∨
    stop = .noCaption ∧ result.report.complaint? tools = none ∧
      ∃ e, result.outcome = .error e := by
  unfold showResult at h
  cases ho : result.outcome with
  | ok plan =>
    rw [ho] at h
    obtain ⟨edits, newText⟩ := plan
    obtain ⟨hstop, hw, hne, text, rfl, hno⟩ := showPlan_error h
    exact .inl ⟨edits, text, rfl, hstop, hw, hne, hno⟩
  | error e =>
    rw [ho] at h
    dsimp only at h
    cases hc : result.report.complaint? tools with
    | some text =>
      rw [hc] at h
      cases h
    | none =>
      rw [hc] at h
      cases h
      exact .inr ⟨rfl, rfl, e, rfl⟩

theorem status_of_showResult {result : FileResult} {o : Output}
    (h : showResult canWrite tools s result = .ok o) : o.status = 0 ∨ o.status = 1 := by
  unfold showResult at h
  cases ho : result.outcome with
  | ok plan =>
    rw [ho] at h
    exact .inl (status_of_showPlan h)
  | error e =>
    rw [ho] at h
    dsimp only at h
    split at h <;> cases h
    exact .inr rfl

theorem processFile_of_error {e : Stop} {r : Report}
    (h : Reporting.processFile tools s (read path) path { verbose := s.verbose } = .error e r) :
    processFile read tools s path =
      if e.isFailure then .ok ⟨path, r, .error e⟩ else .error e := by
  unfold processFile
  rw [h]
  cases e <;> rfl

/-- What comes of a file, and what is shown of that. -/
def fileRun (read : String → FileContent) (canWrite : String → String → Bool) (tools : Toolkit)
    (s : Settings) (path : String) : Except Stop (FileResult × Output) := do
  let result ← processFile read tools s path
  let shown ← showResult canWrite tools s result
  return (result, shown)

theorem fileRun_ok {result : FileResult} {o : Output}
    (h : processFile read tools s path = .ok result)
    (ho : showResult canWrite tools s result = .ok o) :
    fileRun read canWrite tools s path = .ok (result, o) := by
  rw [fileRun, h]
  change (showResult canWrite tools s result >>= fun shown => pure (result, shown)) = _
  rw [ho]
  rfl

theorem fileRun_error {stop : Stop} : fileRun read canWrite tools s path = .error stop ↔
    processFile read tools s path = .error stop ∨
    ∃ result, processFile read tools s path = .ok result ∧
      showResult canWrite tools s result = .error stop := by
  cases h : processFile read tools s path with
  | error e =>
    rw [fileRun, h]
    simp [bind, Except.bind]
  | ok result =>
    cases ho : showResult canWrite tools s result with
    | error e =>
      rw [fileRun, h]
      simp [bind, Except.bind, ho]
    | ok o =>
      rw [fileRun_ok h ho]
      simp [ho]

/-- A file that stops a session derails it. -/
theorem derails_of_fileRun {stop : Stop} (h : fileRun read canWrite tools s path = .error stop) :
    s.Derails read canWrite tools path stop := by
  cases hres : Reporting.processFile tools s (read path) path { verbose := s.verbose } with
  | ok plan r =>
    have hok : processFile read tools s path = .ok ⟨path, r, .ok plan⟩ := by
      rw [processFile, hres]
    rcases fileRun_error.mp h with hstop | ⟨result, hresult, hshow⟩
    · cases hok.symm.trans hstop
    cases hok.symm.trans hresult
    rcases showResult_error hshow with ⟨edits, newText, hplan, rfl, hw, hne, hno⟩ | ⟨_, _, e, he⟩
    · cases hplan
      obtain ⟨text, tree, a, hfile, rfl, hnew⟩ := Reporting.processFile_plans hres
      obtain ⟨he, hedits⟩ := hnew newText rfl
      exact .unwritable he hw hfile hne hedits hno
    · cases he
  | error e r =>
    have hhalts : s.Halts read canWrite tools path e r :=
      Reporting.processFile_halts rfl rfl hres
    have heq := processFile_of_error hres
    cases he : e.isFailure with
    | false =>
      rw [he, if_neg Bool.false_ne_true] at heq
      cases (fileRun_error.mpr (.inl heq)).symm.trans h
      rcases hhalts with hfailed | ⟨hfailed, _⟩ | hderails
      · cases he.symm.trans hfailed.1
      · cases he.symm.trans hfailed
      · exact hderails
    | true =>
      rw [he, if_pos rfl] at heq
      rcases fileRun_error.mp h with hstop | ⟨result, hok, hshow⟩
      · cases heq.symm.trans hstop
      cases heq.symm.trans hok
      rcases showResult_error hshow with ⟨_, _, hplan, _⟩ | ⟨rfl, hnone, _⟩
      · cases hplan
      rcases hhalts with hfailed | ⟨_, hderails⟩ | hderails
      · obtain ⟨t, ht⟩ := Report.exists_complaint tools hfailed.2
        cases hnone.symm.trans ht
      · exact hderails
      · cases he.symm.trans hderails.isFailure

end

/-! ### All files -/

theorem mapM_cases {α β ε : Type} (f : α → Except ε β) (xs : List α) :
    (∃ ys, xs.mapM f = .ok ys) ∨ ∃ x ∈ xs, ∃ e, f x = .error e ∧ xs.mapM f = .error e := by
  induction xs with
  | nil => exact .inl ⟨[], rfl⟩
  | cons x xs ih =>
    rw [List.mapM_cons]
    cases hx : f x with
    | error e => exact .inr ⟨x, List.mem_cons_self, e, hx, rfl⟩
    | ok y =>
      rcases ih with ⟨ys, hys⟩ | ⟨z, hz, e, he, hxs⟩
      · rw [hys]
        exact .inl ⟨y :: ys, rfl⟩
      · rw [hxs]
        exact .inr ⟨z, List.mem_cons_of_mem x hz, e, he, rfl⟩

namespace Output

/-- One output after another, from a first one on. -/
theorem stdout_foldl (first : Output) (outs : List Output) :
    (outs.foldl append first).stdout = first.stdout ++ String.join (outs.map (·.stdout)) := by
  induction outs generalizing first with
  | nil => simp
  | cons o outs ih =>
    rw [List.foldl_cons, ih, List.map_cons, String.join_cons, append, String.append_assoc]

theorem writes_foldl (first : Output) (outs : List Output) :
    (outs.foldl append first).writes = first.writes ++ outs.flatMap (·.writes) := by
  induction outs generalizing first with
  | nil => simp
  | cons o outs ih => rw [List.foldl_cons, ih, List.flatMap_cons, append, List.append_assoc]

theorem status_foldl (first : Output) {outs : List Output} (hfirst : first.status ≤ 1)
    (h : ∀ o ∈ outs, o.status = 0 ∨ o.status = 1) : (outs.foldl append first).status ≤ 1 ∧
      ((outs.foldl append first).status = 1 ↔ first.status = 1 ∨ ∃ o ∈ outs, o.status = 1) := by
  induction outs generalizing first with
  | nil => simp [hfirst]
  | cons o outs ih =>
    obtain ⟨ho, houts⟩ := List.forall_mem_cons.mp h
    have hmax : (first.append o).status = max first.status o.status := rfl
    have hnext : (first.append o).status ≤ 1 := by omega
    have hone : (first.append o).status = 1 ↔ first.status = 1 ∨ o.status = 1 := by omega
    obtain ⟨hle, hiff⟩ := ih _ hnext houts
    refine ⟨hle, hiff.trans ?_⟩
    rw [hone, List.exists_mem_cons_iff, or_assoc]

end Output

/-- The output about one file: what was printed meanwhile, and what is shown of the result. -/
def ownOutput (x : FileResult × Output) : Output :=
  ({ stderr := x.1.report.printed } : Output).append x.2

theorem stdout_ownOutput (x : FileResult × Output) : (ownOutput x).stdout = x.2.stdout :=
  String.empty_append

theorem status_ownOutput (x : FileResult × Output) : (ownOutput x).status = x.2.status :=
  Nat.zero_max _

/-- The session with only one of its files. -/
def Settings.only (s : Settings) (file : String) : Settings := { s with files := [file] }

section

variable {read : String → FileContent} {canWrite : String → String → Bool} {tools : Toolkit}
  {s : Settings}

/-- A session with one file shows what comes of it, after the chatter. -/
theorem runFiles_only (hjobs : ¬ s.jobs.isNone = true) (file : String) :
    runFiles read canWrite tools (s.only file) =
      (fileRun read canWrite tools s (normalPath file)).map ownOutput := by
  have hfiles : (s.only file).files.map normalPath = [normalPath file] := rfl
  have hprocess : processFile read tools (s.only file) = processFile read tools s := rfl
  have hshow : showResult canWrite tools (s.only file) = showResult canWrite tools s := rfl
  have hcount : (s.only file).jobs = s.jobs := rfl
  rw [runFiles, hcount, if_neg hjobs, hfiles, hprocess, hshow, fileRun]
  cases h : processFile read tools s (normalPath file) with
  | error e => simp [h, Except.map, bind, Except.bind]
  | ok result =>
    cases ho : showResult canWrite tools s result with
    | error e => simp [h, ho, Except.map, bind, Except.bind, pure, Except.pure]
    | ok o => simp [h, ho, ownOutput, Except.map, bind, Except.bind, pure, Except.pure]

/-- Files that are worked on and results that are shown make runs of files. -/
theorem map_fileRun {paths : List String} {results : List FileResult} {shown : List Output}
    (h : paths.map (processFile read tools s) = results.map .ok)
    (hshown : results.map (showResult canWrite tools s) = shown.map .ok) :
    paths.map (fileRun read canWrite tools s) = (results.zip shown).map .ok := by
  induction paths generalizing results shown with
  | nil =>
    cases results with
    | nil => rfl
    | cons => cases h
  | cons path paths ih =>
    cases results with
    | nil => cases h
    | cons result results =>
      cases shown with
      | nil => cases hshown
      | cons o shown =>
        simp only [List.map_cons, List.cons.injEq] at h hshown
        rw [List.map_cons, fileRun_ok h.1 hshown.1, ih h.2 hshown.2]
        rfl

/-- The sessions with one file each. -/
theorem map_only (hjobs : ¬ s.jobs.isNone = true) {results : List FileResult}
    {shown : List Output}
    (h : (s.files.map normalPath).map (processFile read tools s) = results.map .ok)
    (hshown : results.map (showResult canWrite tools s) = shown.map .ok) :
    s.files.map (fun file => runFiles read canWrite tools (s.only file)) =
      ((results.zip shown).map ownOutput).map .ok := by
  calc s.files.map (fun file => runFiles read canWrite tools (s.only file))
    _ = ((s.files.map normalPath).map (fileRun read canWrite tools s)).map
        (Except.map ownOutput) := by
      simp only [runFiles_only hjobs, List.map_map, Function.comp_def]
    _ = ((results.zip shown).map ownOutput).map .ok := by
      rw [map_fileRun h hshown]
      simp only [List.map_map, Function.comp_def, Except.map]

theorem runFiles_ok (hjobs : ¬ s.jobs.isNone = true) {results : List FileResult}
    {shown : List Output}
    (h : (s.files.map normalPath).mapM (processFile read tools s) = .ok results)
    (hshown : results.mapM (showResult canWrite tools s) = .ok shown) :
    runFiles read canWrite tools s =
      .ok (shown.foldl .append { stderr := String.join (results.map (·.report.printed)) }) := by
  rw [runFiles, if_neg hjobs, h]
  change (results.mapM (showResult canWrite tools s) >>= _) = _
  rw [hshown]
  rfl

/-- The output of a session is put together from what is shown of its files. -/
theorem output_ok {results : List FileResult} {shown : List Output} {chatter : String}
    (h : results.map (showResult canWrite tools s) = shown.map .ok) :
    let out : Output := shown.foldl .append { stderr := chatter }
    let outs := (results.zip shown).map ownOutput
    out.stdout = String.join (outs.map (·.stdout)) ∧ out.writes = outs.flatMap (·.writes) ∧
      (out.status = 0 ∨ out.status = 1) ∧ (out.status = 1 ↔ ∃ o ∈ outs, o.status = 1) := by
  intro out outs
  have hlength : shown.length ≤ results.length := by
    have hlengths := congrArg List.length h
    simp only [List.length_map] at hlengths
    omega
  have hzip : (results.zip shown).map Prod.snd = shown := List.map_snd_zip hlength
  have hparts : ∀ {β : Type} (part : Output → β), (∀ x, part (ownOutput x) = part x.2) →
      outs.map part = shown.map part := by
    intro β part hpart
    rw [← congrArg (List.map part) hzip]
    simp only [outs, List.map_map, Function.comp_def, hpart]
  have hstatus : ∀ o ∈ shown, o.status = 0 ∨ o.status = 1 := by
    intro o ho
    obtain ⟨result, _, hok⟩ := List.mem_map.mp (h ▸ List.mem_map_of_mem ho)
    exact status_of_showResult hok
  obtain ⟨hle, hone⟩ := Output.status_foldl { stderr := chatter } (Nat.zero_le 1) hstatus
  refine ⟨?_, ?_, Nat.le_one_iff_eq_zero_or_eq_one.mp hle, hone.trans ?_⟩
  · rw [Output.stdout_foldl, hparts _ stdout_ownOutput, String.empty_append]
  · rw [Output.writes_foldl, List.nil_append, List.flatMap_def, List.flatMap_def,
      hparts _ fun _ => rfl]
  · have hmem := congrArg (1 ∈ ·) (hparts _ status_ownOutput)
    simpa [eq_comm] using hmem

end

/-- **Files are isolated from each other, unless one of them derails the session.** Compare a
session with the sessions of each of its files alone. Either all of these come to an end, and then
so does the session: what it prints and the files that it overwrites are theirs, in order, and its
status is 0 or 1, and 1 exactly if one of theirs is. Or the session stops for the very reason for
which one of its files alone does, and that file has one of the flaws that derail a session. Or it
is not said how many files may be worked on at once, and then no session begins at all. -/
theorem runFiles_isolates (read : String → FileContent) (canWrite : String → String → Bool)
    (tools : Toolkit) (s : Settings) :
    (∃ (out : Output) (outs : List Output), runFiles read canWrite tools s = .ok out ∧
      s.files.map (fun file => runFiles read canWrite tools (s.only file)) = outs.map .ok ∧
      out.stdout = String.join (outs.map (·.stdout)) ∧
      out.writes = outs.flatMap (·.writes) ∧
      (out.status = 0 ∨ out.status = 1) ∧ (out.status = 1 ↔ ∃ o ∈ outs, o.status = 1)) ∨
    (∃ file ∈ s.files, ∃ stop, runFiles read canWrite tools s = .error stop ∧
      runFiles read canWrite tools (s.only file) = .error stop ∧
      s.Derails read canWrite tools (normalPath file) stop) ∨
    s.jobs = none ∧ runFiles read canWrite tools s = .error .noJobCount ∧
      ∀ file, runFiles read canWrite tools (s.only file) = .error .noJobCount := by
  by_cases hjobs : s.jobs.isNone = true
  · refine .inr (.inr ⟨Option.isNone_iff_eq_none.mp hjobs, if_pos hjobs, fun file => if_pos hjobs⟩)
  -- a file that is at fault stops both sessions
  have hfault : ∀ path ∈ s.files.map normalPath, ∀ stop,
      fileRun read canWrite tools s path = .error stop →
      runFiles read canWrite tools s = .error stop →
      ∃ file ∈ s.files, ∃ stop, runFiles read canWrite tools s = .error stop ∧
        runFiles read canWrite tools (s.only file) = .error stop ∧
        s.Derails read canWrite tools (normalPath file) stop := by
    intro path hpath stop hrun hstop
    obtain ⟨file, hfile, rfl⟩ := List.mem_map.mp hpath
    refine ⟨file, hfile, stop, hstop, ?_, derails_of_fileRun hrun⟩
    rw [runFiles_only hjobs, hrun]
    rfl
  rcases mapM_cases (processFile read tools s) (s.files.map normalPath) with
    ⟨results, hresults⟩ | ⟨path, hpath, stop, he, hstop⟩
  · have hmap := mapM_ok hresults
    rcases mapM_cases (showResult canWrite tools s) results with
      ⟨shown, hshown⟩ | ⟨result, hresult, stop, he, hstop⟩
    · exact .inl ⟨_, _, runFiles_ok hjobs hresults hshown, map_only hjobs hmap (mapM_ok hshown),
        output_ok (mapM_ok hshown)⟩
    · obtain ⟨path, hpath, hok⟩ : ∃ path ∈ s.files.map normalPath,
          processFile read tools s path = .ok result :=
        List.mem_map.mp (hmap ▸ List.mem_map_of_mem hresult)
      refine .inr (.inl (hfault path hpath stop (fileRun_error.mpr (.inr ⟨result, hok, he⟩)) ?_))
      rw [runFiles, if_neg hjobs, hresults]
      change (results.mapM (showResult canWrite tools s) >>= _) = _
      rw [hstop]
      rfl
  · refine .inr (.inl (hfault path hpath stop (fileRun_error.mpr (.inl he)) ?_))
    rw [runFiles, if_neg hjobs, hstop]
    rfl

/-- The document of `1 instanceof 2;`. -/
def instanceDocument : Json :=
  let node (type : String) (start stop : Int) (fields : List (String × Json)) : Json :=
    .obj (("type", .str type) :: ("range", .arr [.int start, .int stop]) :: fields)
  node "Program" 0 15 [("body", .arr [node "ExpressionStatement" 0 15 [("expression",
    node "BinaryExpression" 0 14 [("operator", .str "instanceof"),
      ("left", node "Literal" 0 1 [("value", .int 1)]),
      ("right", node "Literal" 13 14 [("value", .int 2)])])]])]

/-- A file with that script passes without a verification, and with one it stops the session. -/
theorem instanceDocument_derails : [false, true].map (fun verify =>
    (runFiles (fun _ => .bytes "1 instanceof 2;".toUTF8.toList) (fun _ _ => true)
      { parser := fun _ => .ok instanceDocument }
      { files := ["a.js"], verify := verify }).toOption.map (·.status)) = [some 0, none] := by
  decide +kernel

end ScopeLowering
