import ScopeLowering.Proofs.Conduct

/-!
# The marker never escapes

Calls are safe, at any depth, and so are whole runs with their timers (`Eval.safe_runScript`). Of
the two strengths of that law, the weaker one says that nothing but a variable ever holds the marker
(`marker_confined`): a variable is not read while it is dead, so what is computed, stored, passed,
thrown or returned is plain.
-/

namespace ScopeLowering

namespace Eval

variable {strict : Prop} {α : Type} {c f : Nat} {F : Frame} {names : List String}

/-! ### Calls -/

section

variable {args : List Value}

theorem safe_oneArg {default : Value} (hdefault : default.IsPlain) (hargs : ArePlain args) :
    (oneArg default args).Safe strict Value.IsPlain := by
  unfold oneArg
  split
  · exact .pure hdefault
  · exact .pure (hargs _ List.mem_cons_self)
  · exact .fault _

theorem safe_firstArg (hargs : ArePlain args) :
    (oneArg .undefined args).Safe strict Value.IsPlain := safe_oneArg Value.isPlain_undefined hargs

theorem safe_noArgs (args : List Value) : (noArgs args).Safe strict fun _ => True := by
  cases args with
  | nil => exact .pure trivial
  | cons => exact .fault _

theorem safe_toTextOr (default : String) (v : Value) :
    (toTextOr default v).Safe strict fun _ => True := by
  cases v with
  | undefined => exact .pure trivial
  | _ => exact safe_toText _

theorem safe_toTexts (vs : List Value) : (toTexts vs).Safe strict fun _ => True :=
  .calculates (.mapM Machine.calculates_textOf vs) fun _ _ _ _ => trivial

theorem safe_toNumbers (vs : List Value) : (toNumbers vs).Safe strict fun _ => True :=
  .calculates (.mapM Machine.calculates_numberOf vs) fun _ _ _ _ => trivial

theorem safe_callTextMethod (s : String) (hargs : ArePlain args) (method : TextMethod) :
    (callTextMethod s args method).Safe strict Value.IsPlain := by
  have hzero : (Value.int 0).IsPlain := trivial
  cases method with
  | charAt =>
    exact (safe_oneArg hzero hargs).bind fun _ _ => (safe_toNumber _).bind fun _ _ =>
      .pure (isPlain_charAt _ _)
  | indexOf =>
    exact (safe_firstArg hargs).bind fun _ _ => (safe_toText _).bind fun _ _ =>
      .pure trivial
  | toUpperCase | toLowerCase => exact (safe_noArgs _).bind fun _ _ => .pure trivial

theorem safe_callSetTimeout (hargs : ArePlain args) :
    (callSetTimeout args).Safe strict Value.IsPlain := by
  refine (safe_toNumber _).bind fun delay _ => .bind (.modify fun m hm => ?_) fun _ _ =>
    .get_bind fun _ _ => .pure trivial
  exact .of_same hm (hm.plain.defer _ hargs.headD (hargs.drop 2)) rfl rfl rfl

variable {apply : Apply} (h : IsSafeApply strict apply)

include h

theorem safe_callEach (fn : Value) {array : Value} (harray : array.IsPlain) :
    ∀ (xs : List Value) (i : Nat), ArePlain xs →
      (callEach apply fn array i xs).Safe strict ArePlain
  | [], _, _ => .pure .nil
  | x :: rest, i, hxs => by
    obtain ⟨hx, hrest⟩ := List.forall_mem_cons.mp hxs
    have hargs : ArePlain [x, .int i, array] := .cons hx (.cons trivial (.cons harray .nil))
    exact (safe_call h fn Value.isPlain_undefined hargs).bind fun _ hv =>
      (safe_callEach fn harray rest (i + 1) hrest).bind fun _ hvs => .pure (.cons hv hvs)

theorem safe_callArrayMethod (id : Nat) (hargs : ArePlain args) (method : ArrayMethod) :
    (callArrayMethod apply id args method).Safe strict Value.IsPlain := by
  have harray : (Value.array id).IsPlain := trivial
  cases method with
  | push =>
    refine .bind (safe_modifyArray fun xs hxs v hv => ?_) fun _ _ => .get_bind fun _ _ =>
      .pure trivial
    rw [Array.toList_append, List.mem_append] at hv
    exact hv.elim (hxs v) (hargs v)
  | pop =>
    refine (safe_noArgs _).bind fun _ _ => .get_bind fun m hm =>
      .bind (safe_modifyArray fun xs hxs v hv => ?_) fun _ _ =>
        .pure (Value.isPlain_getD fun v hv => ?_)
    · rw [Array.toList_pop] at hv
      exact hxs v ((List.dropLast_sublist _).subset hv)
    · exact hm.plain.arrays id v (Array.mem_toList_iff.mpr (Array.mem_of_back? hv))
  | join =>
    exact (safe_firstArg hargs).bind fun _ _ => (safe_toTextOr _ _).bind fun separator _ =>
      .bind (.calculates (Machine.calculates_join separator id) fun _ _ _ _ => trivial)
        fun _ (_ : True) => .pure trivial
  | indexOf =>
    exact (safe_firstArg hargs).bind fun _ _ => .get_bind fun _ _ => .pure trivial
  | forEach =>
    exact (safe_firstArg hargs).bind fun fn _ => .get_bind fun m hm =>
      (safe_callEach h fn harray _ 0 (hm.plain.arrays id)).bind fun _ _ => .pure trivial
  | map =>
    exact (safe_firstArg hargs).bind fun fn _ => .get_bind fun m hm =>
      (safe_callEach h fn harray _ 0 (hm.plain.arrays id)).bind fun _ hvs => safe_newArray hvs

theorem safe_perform {request : Request} (hrequest : request.IsPlain) :
    (perform apply request).Safe strict Value.IsPlain := by
  cases request with
  | getProperty target key => exact safe_getProperty target key
  | setProperty target key value =>
    exact (safe_setProperty target hrequest.1 hrequest.2).bind fun _ _ => .pure trivial
  | text v => exact (safe_toText v).bind fun _ _ => .pure trivial
  | newArray xs => exact safe_newArray hrequest
  | newRecord r => exact safe_newRecord hrequest
  | call fn this args => exact safe_call h fn hrequest.1 hrequest.2

theorem safe_runHost {code : HostCode} (hcode : code.IsPlain) :
    (runHost apply code).Safe strict Value.IsPlain := by
  induction code with
  | answer v => exact .pure hcode
  | throws v => exact .throw hcode
  | fails f => exact .fault f
  | ask request next ih =>
    refine .bind (safe_catching (Q := fun r => (next r).IsPlain)
      ((safe_perform h hcode.1).bind fun v hv => .pure (hcode.2 v hv).1)
      fun v hv => .pure (hcode.2 v hv).2) fun r hr => ih r hr

theorem safe_callNative {fn : Native} (hfn : fn.IsPlain) (hargs : ArePlain args) :
    (callNative apply fn args).Safe strict Value.IsPlain := by
  have hzero : (Value.int 0).IsPlain := trivial
  have hempty : (Value.text "").IsPlain := trivial
  cases fn with
  | log =>
    exact (safe_toTexts _).bind fun _ _ => .bind (safe_modify_same (fun _ => ⟨rfl, rfl, rfl, rfl⟩)
      (fun _ => rfl) (fun _ => rfl) (fun _ => rfl) fun _ => rfl) fun _ _ => .pure trivial
  | setTimeout => exact safe_callSetTimeout hargs
  | floor | abs =>
    exact (safe_firstArg hargs).bind fun _ _ => (safe_toNumber _).bind fun _ _ =>
      .pure trivial
  | toNumber =>
    exact (safe_oneArg hzero hargs).bind fun _ _ => (safe_toNumber _).bind fun _ _ => .pure trivial
  | max | min =>
    refine (safe_toNumbers args).bind fun ns _ => ?_
    cases ns <;> exact .pure trivial
  | random =>
    exact (safe_noArgs _).bind fun _ _ => .bind (safe_modify_same (fun _ => ⟨rfl, rfl, rfl, rfl⟩)
      (fun _ => rfl) (fun _ => rfl) (fun _ => rfl) fun _ => rfl) fun _ _ =>
        .get_bind fun _ _ => .pure trivial
  | toText =>
    exact (safe_oneArg hempty hargs).bind fun _ _ => (safe_toText _).bind fun _ _ => .pure trivial
  | error name =>
    exact (safe_firstArg hargs).bind fun _ _ => (safe_toTextOr _ _).bind fun _ _ =>
      safe_newRecord (Record.isPlain_error _ _)
  | arrayMethod method id => exact safe_callArrayMethod h id hargs method
  | textMethod method s => exact safe_callTextMethod s hargs method
  | hasOwnProperty id =>
    exact (safe_firstArg hargs).bind fun _ _ => (safe_toText _).bind fun _ _ =>
      .get_bind fun _ _ => .pure trivial
  | callMethod id => exact h id _ _ hargs.headD (hargs.drop 1)
  | constant v => exact .pure hfn
  | foreign code => exact safe_runHost h (hfn args hargs)

omit h

theorem triple_bindParams (params : List Ident) (args : List Value) :
    Triple strict c f (Opening strict c f F names) (bindParams F params args) fun _ =>
      Opening strict c f F names := by
  induction params generalizing args with
  | nil => exact .pure fun _ h => h
  | cons p rest ih =>
    exact ((triple_declare (.inr rfl) p.text).imp fun _ _ h =>
      h.of_subset fun x hx => List.mem_cons_of_mem _ hx).bind fun _ => ih args.tail

theorem triple_bindArguments (isArrow : Bool) (hargs : ArePlain args) :
    Triple strict c f (Opening strict c f F names) (bindArguments F isArrow args) fun _ =>
      Opening strict c f F names := by
  refine .get_bind fun m => ?_
  split
  · exact .pure fun _ h => h
  · exact (safe_newArray hargs).before steady_opening fun _ _ =>
      (triple_declare (.inr rfl) _).imp fun _ _ h =>
        h.of_subset fun x hx => List.mem_cons_of_mem _ hx

include h

theorem safe_callClosure {env : Env} (henv : env.IsFit strict) {code : Code}
    (hcode : code.IsFit strict) {this : Value} (hthis : this.IsPlain) (hargs : ArePlain args) :
    (callClosure apply env code this args).Safe strict Value.IsPlain := by
  have hbody : ∀ n ∈ code.body, n.IsFit strict := fun n hn =>
    ⟨hcode.plain n hn, fun hs => (hcode.orderly hs).body n hn⟩
  have hself : (if code.isArrow then env.frame.this else this).IsPlain := by
    split
    · exact henv.plain.this
    · exact hthis
  refine .of_triple fun c f => (triple_childWith henv hself).bind fun inner =>
    .assuming fun hinner => ?_
  refine (triple_bindParams _ _).bind fun _ => (triple_bindArguments _ hargs).bind fun _ =>
    (triple_enterFunction hinner hbody).bind fun _ => triple_returnValue ?_
  refine ((triple_execAll h hinner code.body hbody (fun hs => ?_) c f).of_imp fun _ h =>
    h.awaiting).imp fun _ _ _ => trivial
  rw [List.append_nil]
  exact (hcode.orderly hs).nodup

end

theorem safe_applyWithin : ∀ depth, IsSafeApply strict (applyWithin depth)
  | 0, _, _, _, _, _ => .throw trivial
  | depth + 1, id, this, args, hthis, hargs => by
    have h := safe_applyWithin depth
    refine .get_bind fun m hm => ?_
    have hid := hm.plain.procedures id
    split
    · rename_i env code hprocedure
      rw [hprocedure] at hid
      exact safe_callClosure h ⟨hid.1, fun hs => ((hm.orderly hs).closures hprocedure).1⟩
        ⟨hid.2, fun hs => ((hm.orderly hs).closures hprocedure).2⟩ hthis hargs
    · rename_i fn hprocedure
      rw [hprocedure] at hid
      exact safe_callNative h hid hargs

theorem safe_applyFunction : IsSafeApply strict applyFunction := fun id this args hthis hargs =>
  .get_bind fun m _ => safe_applyWithin m.platform.depth id this args hthis hargs

/-! ### Whole runs -/

theorem triple_runStatements {env : Env} (henv : env.IsFit strict) (ns : List Node)
    (hns : ∀ n ∈ ns, n.IsFit strict) (hnodup : strict → (Node.lexicalNames ns).Nodup) :
    Triple strict c f (Awaiting strict c env.frame (Node.lexicalNames ns)) (runStatements env ns)
      fun _ _ => True := by
  have happly : IsSafeApply strict applyFunction := safe_applyFunction
  induction ns with
  | nil => exact .pure fun _ _ => trivial
  | cons n ns ih =>
    obtain ⟨hn, hrest⟩ := List.forall_mem_cons.mp hns
    simp only [Node.lexicalNames, List.flatMap_cons] at hnodup ⊢
    have ih := ih hrest fun hs => (List.nodup_append.mp (hnodup hs)).2.1
    cases n with
    | exprStmt expr span =>
      refine safe_tick.before steady_awaiting fun _ _ =>
        (safe_eval happly henv expr (hn.slot (by simp))).before steady_awaiting fun v hv =>
          .bind (Safe.during (.modify fun m hm => ?_) steady_awaiting) fun _ => ih
      exact .of_same hm (hm.plain.complete hv) rfl rfl rfl
    | _ =>
      exact (triple_exec happly henv hn (fun hn' => safe_exec happly henv _ hn fun _ => hn')
        hnodup).bind fun _ => ih

theorem safe_scriptBody {script : Node} (hscript : script.IsFit strict) :
    (scriptBody script).Safe strict fun body =>
      (∀ n ∈ body, n.IsFit strict) ∧ (strict → (Node.lexicalNames body).Nodup) := by
  cases script with
  | program | block | function | caseClause =>
    exact .pure ⟨fun n hn => hscript.slot (by simp [hn]), fun hs =>
      ((hscript.orderly hs).here rfl).nodup⟩
  | _ => exact .fault _

theorem triple_runMain {env : Env} (henv : env.IsFit strict) {script : Node}
    (hscript : script.IsFit strict) :
    Triple strict c f (Opening strict c f env.frame []) (runMain env script) fun _ _ => True := by
  refine (safe_scriptBody hscript).before steady_opening fun body hbody => ?_
  refine (triple_enterFunction henv hbody.1).bind fun _ =>
    (triple_runStatements henv body hbody.1 hbody.2).of_imp fun m hm => ?_
  exact hm.awaiting.of_subset fun x hx => by simpa using hx

theorem safe_describe (v : Value) : (describe v).Safe strict fun _ => True := by
  refine (safe_toText v).bind fun t _ => ?_
  split
  · exact .get_bind fun _ _ => .pure trivial
  · exact .pure trivial

theorem safe_report {r : Except Signal Unit} (hr : OrPlain (fun _ => True) r) :
    (report r).Safe strict fun _ => True := by
  cases r with
  | ok a => exact .pure trivial
  | error s =>
    cases s with
    | thrown v => exact (safe_describe v).bind fun _ _ => .pure trivial
    | exhausted | tooDeep => exact .pure trivial
    | _ => exact .throw hr

theorem triple_guarded {P : Machine → Prop} {action : Eval Unit}
    (haction : Triple strict c f P action fun _ _ => True) :
    Triple strict c f P (guarded action) fun _ _ => True :=
  haction.attempt.bind fun _ m hm hr => (safe_report hr).triple m hm trivial

theorem safe_nextTask? : nextTask?.Safe strict fun next => ∀ t ∈ next, t.IsPlain := by
  refine .modifyGet fun m hm => ?_
  cases hnext : m.pending.next? Task.isBefore with
  | none => exact ⟨.refl hm, by simp⟩
  | some found =>
    obtain ⟨t, rest⟩ := found
    obtain ⟨ht, hrest⟩ := hm.plain.next? hnext
    exact ⟨.of_same hm hrest rfl rfl rfl, by simpa using ht⟩

theorem safe_callTask {t : Task} (ht : t.IsPlain) : (callTask t).Safe strict fun _ => True :=
  have hcall := safe_call safe_applyFunction t.callee Value.isPlain_undefined ht.args
  .of_triple fun _ _ => triple_guarded (hcall.bind fun _ _ => .pure trivial).triple

theorem safe_runTasks (n : Nat) (error : Option String) :
    (runTasks n error).Safe strict fun _ => True := by
  induction n generalizing error with
  | zero => exact .fault _
  | succ n ih =>
    refine .get_bind fun m _ => ?_
    split
    · exact .pure trivial
    · refine safe_nextTask?.bind fun next hnext => ?_
      cases next with
      | none => exact .pure trivial
      | some t => exact (safe_callTask (hnext t rfl)).bind fun _ _ => ih _

theorem safe_newModule (members : List (String × Native)) (hmembers : ∀ p ∈ members, p.2.IsPlain)
    {r : Record} (hr : r.IsPlain) : (newModule members r).Safe strict Value.IsPlain := by
  induction members generalizing r with
  | nil => exact safe_newRecord hr
  | cons p rest ih =>
    obtain ⟨hp, hrest⟩ := List.forall_mem_cons.mp hmembers
    have hkey : (Key.text p.1).IsPlain := trivial
    exact (safe_newNative hp).bind fun _ hv => ih hrest (hr.set hkey hv)

theorem safe_standardHosts : standardHosts.Safe strict fun _ => True := by
  have hempty := Record.isPlain_empty
  refine .bind (safe_newModule _ (by simp [Native.IsPlain]) hempty) fun console _ => ?_
  refine .bind (safe_newNative trivial) fun setTimeout _ => ?_
  refine .bind (safe_newModule _ (by simp [Native.IsPlain]) hempty) fun math _ => ?_
  refine .bind (safe_newNative trivial) fun text _ => .bind (safe_newNative trivial) fun num _ => ?_
  exact .bind (safe_newNative trivial) fun _ _ => .bind (safe_newNative trivial) fun _ _ =>
    .bind (safe_newNative trivial) fun _ _ => .pure trivial

theorem triple_declareHosts (hosts : List (String × Value)) :
    Triple strict c f (Opening strict c f F names) (declareHosts F hosts) fun _ =>
      Opening strict c f F names := by
  induction hosts with
  | nil => exact .pure fun _ h => h
  | cons p rest ih =>
    exact ((triple_declare (.inr rfl) p.1).imp fun _ _ h =>
      h.of_subset fun x hx => List.mem_cons_of_mem _ hx).bind fun _ => ih

variable {hosts : Eval (List (String × Value))}

theorem triple_hostEnv (hhosts : hosts.Safe strict fun _ => True) :
    Triple strict c f (fun _ => True) (hostEnv hosts) fun env m =>
      env.IsFit strict ∧ Opening strict c f env.frame [] m := by
  have hroot : Triple strict c f (fun _ => True) rootEnv fun root m =>
      root.IsFit strict ∧ Opening strict c f root.frame [] m := by
    refine triple_newSlots.bind fun s => .pure fun m hroom => ⟨⟨?_, fun _ => rfl⟩, fun hs => ?_⟩
    · simpa [Env.IsPlain, Env.frames] using ⟨Value.isPlain_undefined, by simp⟩
    · exact ⟨(hroom hs).1, (hroom hs).2, .nil⟩
  refine hroot.bind fun root => .assuming fun hfit => ?_
  refine safe_standardHosts.before steady_opening fun standard _ =>
    (triple_declareHosts standard).bind fun _ => ?_
  refine hhosts.before steady_opening fun more _ => (triple_declareHosts more).bind fun _ => ?_
  exact (triple_child hfit).of_imp fun _ _ => trivial

theorem safe_outcome (error : Option String) : (outcome error).Safe strict fun _ => True :=
  .get_bind fun _ _ => (safe_toText _).bind fun _ _ => .get_bind fun _ _ => .pure trivial

/-- A run is safe. -/
theorem safe_runScript {script : Node} (hscript : script.IsFit strict)
    (hhosts : hosts.Safe strict fun _ => True) :
    (runScript script hosts).Safe strict fun _ => True := by
  refine .of_triple fun c f => (triple_hostEnv hhosts).bind fun env => .assuming fun henv => ?_
  refine (triple_guarded (triple_runMain henv hscript)).bind fun error => ?_
  exact (Safe.get_bind fun m _ =>
    (safe_runTasks m.platform.tasks error).bind fun _ _ => safe_outcome _).triple

/-! ### Nothing but variables holds the marker -/

/-- The action takes plain machines through plain ones only. If it gives a value, that has the
property, and if it gives a signal, that is plain. -/
structure IsDiscreet (a : Eval α) (Q : α → Prop) : Prop where
  states : ∀ {m l}, m.IsPlain → a.Trace m l → ∀ m' ∈ l, m'.IsPlain
  value : ∀ {m v m'}, m.IsPlain → a m = .ok v m' → Q v
  signal : ∀ {m s m'}, m.IsPlain → a m = .error s m' → s.IsPlain

/-- Is calling a function discreet, if it is called with plain values? -/
def HasDiscreetCalls (apply : Apply) : Prop :=
  ∀ (id : Nat) (this : Value) (args : List Value), this.IsPlain → ArePlain args →
    (apply id this args).IsDiscreet Value.IsPlain

theorem IsDiscreet.plain {a : Eval α} {Q : α → Prop} (h : a.IsDiscreet Q) {m : Machine}
    (hm : m.IsPlain) {l : List Machine} (hl : a.Trace m l) : ∀ m' ∈ m :: l, m'.IsPlain :=
  List.forall_mem_cons.mpr ⟨hm, h.states hm hl⟩

/-- A discreet action is safe if the machines that it goes through keep each other. -/
theorem IsDiscreet.safe_of_keeps {a : Eval α} {Q : α → Prop} (h : a.IsDiscreet Q)
    (hkeeps : ∀ m l, m.IsFit strict → a.Trace m l → ∀ x ∈ m :: l, ∀ y ∈ m :: l,
      x.Keeps strict m.cells.size m.frames.size y) : a.Safe strict Q := by
  intro m hm
  have hend : m.Keeps strict m.cells.size m.frames.size (a m).machine := by
    obtain ⟨l, hl⟩ := a.exists_trace m
    rw [← a.getLast_trace hl]
    exact hkeeps m l hm hl m List.mem_cons_self _ (List.getLast_mem _)
  refine ⟨fun l hl => ?_, fun l hl y hy => ?_, fun hv => ?_, fun hs => ?_⟩
  · exact (List.pairwise_of_forall_mem_list fun x hx y hy =>
      (hkeeps m l hm hl x hx y hy).step).isChain
  · exact hkeeps m l hm hl m List.mem_cons_self y (List.mem_cons_of_mem m hy)
  · rw [hv] at hend
    exact ⟨hend, h.value hm.plain hv⟩
  · rw [hs] at hend
    exact ⟨hend, h.signal hm.plain hs⟩

theorem IsDiscreet.safe {a : Eval α} {Q : α → Prop} (h : a.IsDiscreet Q) : a.Safe False Q :=
  h.safe_of_keeps fun _ _ hm hl _ _ y hy => ⟨⟨h.plain hm.plain hl y hy, False.elim⟩, False.elim⟩

theorem Safe.isDiscreet {a : Eval α} {Q : α → Prop} (h : a.Safe False Q) : a.IsDiscreet Q where
  states hm hl m' hm' := ((h _ ⟨hm, False.elim⟩).keeps _ hl m' hm').fit.plain
  value hm hv := ((h _ ⟨hm, False.elim⟩).ok hv).2
  signal hm hs := ((h _ ⟨hm, False.elim⟩).error hs).2

theorem HasDiscreetCalls.safe {apply : Apply} (h : HasDiscreetCalls apply) :
    IsSafeApply False apply := fun id this args hthis hargs => (h id this args hthis hargs).safe

/-- What code does with a way to call functions. -/
structure IsConfined (apply : Apply) : Prop where
  eval : ∀ env n, env.IsPlain → n.IsPlain → (eval apply env n).IsDiscreet Value.IsPlain
  exec : ∀ env n, env.IsPlain → n.IsPlain → (exec apply env n).IsDiscreet fun _ => True
  closure : ∀ env code this args, (Procedure.closure env code).IsPlain → this.IsPlain →
    ArePlain args → (callClosure apply env code this args).IsDiscreet Value.IsPlain
  native : ∀ fn args, fn.IsPlain → ArePlain args →
    (callNative apply fn args).IsDiscreet Value.IsPlain

theorem HasDiscreetCalls.isConfined {apply : Apply} (h : HasDiscreetCalls apply) :
    IsConfined apply where
  eval _ n henv hn := (safe_eval h.safe ⟨henv, False.elim⟩ n ⟨hn, False.elim⟩).isDiscreet
  exec _ n henv hn :=
    (safe_exec h.safe ⟨henv, False.elim⟩ n ⟨hn, False.elim⟩ False.elim).isDiscreet
  closure _ _ _ _ hclosure hthis hargs :=
    (safe_callClosure h.safe ⟨hclosure.1, False.elim⟩ ⟨hclosure.2, False.elim⟩ hthis
      hargs).isDiscreet
  native _ _ hfn hargs := (safe_callNative h.safe hfn hargs).isDiscreet

end Eval

theorem RunOptions.isPlain_machine (options : RunOptions) : options.machine.IsPlain := by
  refine ⟨fun id => ?_, fun id => ?_, fun id => ?_, ?_, trivial⟩
  · simp [Machine.array, machine, ArePlain]
  · simp [Machine.record, machine, Record.IsPlain]
  · exact Value.isPlain_undefined
  · simp [machine, Queue.toList, Heap.toList]

/-- **The marker never escapes.** In every state of a run, timers included, it is in no array, no
record, no waiting call, and it is not the value of the script. The script is run in an environment
without it. From any such state, an expression has another value, and nothing throws or returns it,
as long as this holds of calls that are not given the marker. It holds of all of them, however
deeply they are nested. Nothing is asked of calls that are given the marker, so none is. -/
theorem marker_confined (script : Node) (options : RunOptions) (hscript : script.IsPlain)
    (hhosts : options.hosts.IsDiscreet fun _ => True) :
    (∀ l, (Eval.runScript script options.hosts).Trace options.machine l →
      ∀ m ∈ options.machine :: l, m.IsPlain) ∧
    (Eval.hostEnv options.hosts).IsDiscreet Env.IsPlain ∧
    (∀ apply, Eval.HasDiscreetCalls apply → Eval.IsConfined apply) ∧
    ∀ depth, Eval.HasDiscreetCalls (Eval.applyWithin depth) := by
  have hmachine : options.machine.IsFit False := ⟨options.isPlain_machine, False.elim⟩
  have hrun := Eval.safe_runScript ⟨hscript, False.elim⟩ hhosts.safe
  refine ⟨fun l hl m hm => ?_, ?_, fun apply h => h.isConfined, fun depth id this args => ?_⟩
  · rcases List.mem_cons.mp hm with rfl | hm
    · exact options.isPlain_machine
    · exact ((hrun _ hmachine).keeps l hl m hm).fit.plain
  · have henv : (Eval.hostEnv options.hosts).Safe False (Env.IsFit False) :=
      .of_triple fun _ _ => (Eval.triple_hostEnv hhosts.safe).imp fun _ _ => And.left
    exact (henv.imp fun _ h => h.plain).isDiscreet
  · exact fun hthis hargs => (Eval.safe_applyWithin depth id this args hthis hargs).isDiscreet

/-- `const f = function () { return x; }; try { f(); } catch (e) { console.log(e.message); }
let x = 1; [x, f()];`, which asks for a variable while it is dead. -/
def deadScript : Node :=
  let callOf (start : Int) : Node := .call (.lookup ⟨"f", .of start (start + 1)⟩) []
    (.of start (start + 3))
  let literal (s : String) (start stop : Int) : Node := .literal (.json (.str s)) (.of start stop)
  let getter : Node := .function .expression none []
    [.returnStmt (.lookup ⟨"x", .of 31 32⟩) (.of 24 33)] false (.of 10 35)
  let message : Node := .member (.lookup ⟨"e", .of 74 75⟩) (literal "message" 76 83) false
    (.of 74 83)
  let print : Node := .call (.member (.lookup ⟨"console", .of 62 69⟩) (literal "log" 70 73) false
    (.of 62 73)) [message] (.of 62 84)
  .program [
    .varDecl .constWord [.declarator ⟨"f", .of 6 7⟩ getter (.of 6 35)] (.of 0 36),
    .tryStmt (.block [.exprStmt (callOf 43) (.of 43 47)] (.of 41 49))
      (.catchClause (some ⟨"e", .of 57 58⟩) (.block [.exprStmt print (.of 62 85)] (.of 60 87))
        (.of 50 87)) .absent (.of 37 87),
    .varDecl .letWord [.declarator ⟨"x", .of 92 93⟩ (.literal (.json (.int 1)) (.of 96 97))
      (.of 92 97)] (.of 88 98),
    .exprStmt (.arrayLit [.lookup ⟨"x", .of 100 101⟩, callOf 103] (.of 99 107)) (.of 99 108)]
    (.of 0 108)

/-- A host with an array. -/
def arrayHost : RunOptions where
  hosts := do return [("list", ← Eval.newArray #[.int 1])]

theorem arrayHost_isDiscreet : arrayHost.hosts.IsDiscreet fun _ => True := by
  have hlist : ArePlain [.int 1] := .cons trivial .nil
  have hsafe : arrayHost.hosts.Safe False fun _ => True :=
    (Eval.safe_newArray hlist).bind fun _ _ => .pure trivial
  exact hsafe.isDiscreet

theorem marker_confined_deadScript :
    deadScript.IsPlain ∧
    (runScript deadScript arrayHost).toOption =
      some ⟨"1,1", none, ["Cannot access 'x' before initialization"]⟩ ∧
    ∃ l, (Eval.runScript deadScript arrayHost.hosts).Trace arrayHost.machine l ∧
      ∀ m ∈ arrayHost.machine :: l, m.IsPlain := by
  have hplain : deadScript.IsPlain := by decide
  obtain ⟨l, hl⟩ := (Eval.runScript deadScript arrayHost.hosts).exists_trace arrayHost.machine
  exact ⟨hplain, by decide +kernel, l, hl,
    (marker_confined deadScript arrayHost hplain arrayHost_isDiscreet).1 l hl⟩

end ScopeLowering
