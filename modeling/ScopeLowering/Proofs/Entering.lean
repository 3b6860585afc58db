import ScopeLowering.Proofs.Gathering
import ScopeLowering.Proofs.Lifetimes

/-!
# Entering a block

A block makes its functions when it is entered. Each of them also goes to what its name stands for
around the block. If all of that may be assigned, entering the block hands the functions over and
changes nothing else but the frame of the block (`Eval.HandsOver`). If something of it is dead or a
constant, entering throws (`Eval.enters_enterBlock`).

## The model

`Machine.SetsUp` says what entering a block may do to a machine: the frame of the block gets new
variables, and some slots outside of it receive functions of the block.
-/

namespace ScopeLowering

/-! ### Functions of a block -/

namespace Node

/-- The name and the code of the function that a statement declares. -/
def function? : Node → Option (String × Code)
  | function .declaration (some name) params body isArrow _ =>
    some (name.text, ⟨some name, params, body, isArrow⟩)
  | _ => none

/-- The functions that some statements declare. -/
def functions (ns : List Node) : List (String × Code) := ns.filterMap function?

/-- Where the code of a function body looks for names to hoist. -/
def ownPhrases (body : List Node) : List Node :=
  body.flatMap (reach fun n => n.isFunction || n.isVarDecl)

theorem mem_functions_cons {n : Node} {rest : List Node} {p : String × Code} :
    p ∈ functions (n :: rest) ↔ n.function? = some p ∨ p ∈ functions rest := by
  simp [functions, List.mem_filterMap]

theorem mem_functions_singleton {n : Node} {p : String × Code} :
    p ∈ functions [n] ↔ n.function? = some p := by
  simp [functions, List.mem_filterMap]

theorem hoistedHere_of_function? {n : Node} {p : String × Code} (h : n.function? = some p) :
    n.hoistedHere = [p.1] := by
  cases n with
  | function form name =>
    cases form with
    | expression => cases h
    | declaration =>
      cases name with
      | none => cases h
      | some name =>
        cases h
        rfl
  | _ => cases h

section

variable {closed : Node → Bool} (hclosed : closed absent = false) {n b c d : Node}

include hclosed

theorem mem_reach_iff : b ∈ n.reach closed ↔
    n.isAbsent = false ∧ (b = n ∨ closed n = false ∧ ∃ c ∈ n.slots, b ∈ c.reach closed) := by
  cases ha : n.isAbsent with
  | true =>
    cases n with
    | absent => simp [reach, hclosed]
    | _ => cases ha
  | false =>
    rw [reach_eq closed ha]
    cases hn : closed n with
    | true => simp
    | false => simp [List.mem_flatMap]

/-- What is in reach from a slot of an open phrase is in reach. -/
theorem mem_reach_of_slot (hb : b ∈ n.reach closed) (hopen : closed b = false) (hc : c ∈ b.slots)
    (hd : d ∈ c.reach closed) : d ∈ n.reach closed := by
  induction n using Node.bySlots with
  | step n ih =>
    obtain ⟨hn, rfl | ⟨hopen', e, he, hb⟩⟩ := (mem_reach_iff hclosed).mp hb
    · exact (mem_reach_iff hclosed).mpr ⟨hn, .inr ⟨hopen, c, hc, hd⟩⟩
    · exact (mem_reach_iff hclosed).mpr ⟨hn, .inr ⟨hopen', e, he, ih e he hb⟩⟩

theorem isSorted_of_mem_reach (hs : n.isSorted = true) (hb : b ∈ n.reach closed) :
    b.isSorted = true := by
  induction n using Node.bySlots with
  | step n ih =>
    obtain ⟨hn, rfl | ⟨_, e, he, hb⟩⟩ := (mem_reach_iff hclosed).mp hb
    · exact hs
    · exact ih e he (((isSorted_iff hn).mp hs).2 e he) hb

end

/-- Does entering a block with this statement find all parts that it needs? -/
def isEnterable : Node → Bool
  | varDecl _ ds _ => ds.all isDeclarator
  | function .declaration none .. => false
  | _ => true

theorem isEnterable_of_isFormed {n : Node} (h : n.isFormed = true) : n.isEnterable = true := by
  cases n with
  | varDecl => exact h
  | function form name =>
    cases form with
    | expression => rfl
    | declaration =>
      cases name with
      | none => cases h
      | some name => rfl
  | _ => rfl

/-- Are these the statements of a block of the body, or those of a case in it? -/
def HasBlock (body ns : List Node) : Prop :=
  ∃ b ∈ ownPhrases body, (b.isBlock = true ∨ b.isCaseClause = true) ∧ b.statements = ns

namespace HasBlock

variable {body ns : List Node} (h : HasBlock body ns)

include h

/-- The statements stand in an open phrase. -/
theorem exists_phrase : ∃ n ∈ body, ∃ b ∈ n.reach fun m => m.isFunction || m.isVarDecl,
    b.isAbsent = false ∧ (b.isFunction || b.isVarDecl) = false ∧ ∀ c ∈ ns, c ∈ b.slots := by
  obtain ⟨b, hb, hkind, rfl⟩ := h
  obtain ⟨n, hn, hb⟩ := List.mem_flatMap.mp hb
  refine ⟨n, hn, b, hb, ?_⟩
  cases b with
  | block xs => exact ⟨rfl, rfl, fun c hc => hc⟩
  | caseClause test xs => exact ⟨rfl, rfl, fun c hc => List.mem_cons_of_mem _ hc⟩
  | _ => rcases hkind with hk | hk <;> cases hk

/-- The functions of a block are hoisted. -/
theorem mem_gathered {p : String × Code} (hp : p ∈ functions ns) :
    p.1 ∈ body.flatMap gathered := by
  obtain ⟨n, hn, b, hb, -, hopen, hslots⟩ := h.exists_phrase
  obtain ⟨c, hc, hcp⟩ := List.mem_filterMap.mp hp
  have hself : c ∈ c.reach fun m => m.isFunction || m.isVarDecl := by
    cases c with
    | function => exact List.mem_cons_self
    | _ => cases hcp
  refine List.mem_flatMap.mpr ⟨n, hn, List.mem_flatMap.mpr
    ⟨c, mem_reach_of_slot rfl hb hopen (hslots c hc) hself, ?_⟩⟩
  rw [hoistedHere_of_function? hcp]
  exact List.mem_singleton_self _

theorem isEnterable (hbody : ∀ n ∈ body, n.isSorted = true) :
    ∀ c ∈ ns, c.isEnterable = true := by
  intro c hc
  obtain ⟨n, hn, b, hb, hpresent, -, hslots⟩ := h.exists_phrase
  have hsorted := isSorted_of_mem_reach rfl (hbody n hn) hb
  cases ha : c.isAbsent with
  | true =>
    cases c with
    | absent => rfl
    | _ => cases ha
  | false =>
    have hc := ((isSorted_iff hpresent).mp hsorted).2 c (hslots c hc)
    exact isEnterable_of_isFormed ((isSorted_iff ha).mp hc).1

end HasBlock

end Node

/-! ### Slots -/

theorem Key.same_text {k : Key} {x : String} : k.same (.text x) = true ↔ k = .text x := by
  cases k with
  | text s => simp [same]
  | other c => simp [same, number?]

namespace Record

theorem find?_modify {l : List (Key × Value)} {name : String} {v : Value}
    {f : Key × Value → Key × Value} (hf : ∀ p, f p = (p.1, v)) {i : Nat}
    (h : l.findIdx? (·.1.same (.text name)) = some i) (x : String) :
    ((l.modify i f).find? (·.1.same (.text x))).map (·.2) =
      if x = name then some v else (l.find? (·.1.same (.text x))).map (·.2) := by
  induction l generalizing i with
  | nil => cases h
  | cons p l ih =>
    rw [List.findIdx?_cons] at h
    by_cases hp : p.1 = .text name
    · rw [if_pos (Key.same_text.mpr hp)] at h
      cases h
      by_cases hx : x = name
      · subst hx
        simp [hf, hp, Key.same]
      · simp [hf, hp, Key.same, hx, Ne.symm hx]
    · rw [if_neg (mt Key.same_text.mp hp)] at h
      obtain ⟨j, hj, rfl⟩ := Option.map_eq_some_iff.mp h
      rw [List.modify_succ_cons, List.find?_cons, List.find?_cons]
      cases hx : p.1.same (.text x) with
      | true =>
        have hne : x ≠ name := fun h => hp (h ▸ Key.same_text.mp hx)
        simp [hne]
      | false => exact ih hj

/-- A property that is set is found from then on, and the others are found as before. -/
theorem find?_set (r : Record) (name x : String) (v : Value) :
    (r.set (.text name) v).find? (.text x) = if x = name then some v else r.find? (.text x) := by
  unfold set find?
  split
  · rename_i i hi
    simp only [← Array.find?_toList, Array.toList_modify]
    exact find?_modify (fun p => rfl) ((List.findIdx?_toArray _ _).symm.trans hi) x
  · rename_i hnone
    rw [Array.find?_push]
    by_cases hx : x = name
    · subst hx
      have hold : r.fields.find? (·.1.same (.text x)) = none :=
        Array.find?_eq_none.mpr fun p hp => by simp [Array.findIdx?_eq_none_iff.mp hnone p hp]
      rw [hold]
      simp [Key.same]
    · simp [Key.same, hx, Ne.symm hx]

end Record

/-- May the variable be assigned? It is live then, and no constant. -/
def Cell.IsAssignable (c : Cell) : Prop := c.value.IsPlain ∧ c.isConst = false

namespace Machine

variable {m m' m'' : Machine} {slot : Slot}

/-- Is there such a variable, or such a record for a property? -/
def Has (m : Machine) : Slot → Prop
  | .cell id => id < m.cells.size
  | .property id _ => id < m.records.size

/-- Is the slot there, and may it be assigned? -/
def MayAssign (m : Machine) (slot : Slot) : Prop := m.Has slot ∧ (m.content slot).IsAssignable

theorem has_of_not_isAssignable (h : ¬(m.content slot).IsAssignable) : m.Has slot := by
  cases slot with
  | cell id =>
    by_contra hroom
    refine h ?_
    simp only [content, cell, Array.getElem?_eq_none (Nat.le_of_not_lt hroom)]
    exact ⟨trivial, rfl⟩
  | property id name =>
    by_contra hroom
    refine h ?_
    simp only [content, record, Array.getElem?_eq_none (Nat.le_of_not_lt hroom)]
    exact ⟨trivial, rfl⟩

theorem record_modify (id j : Nat) (f : Record → Record) :
    { m with records := m.records.modify j f }.record id =
      if j = id ∧ id < m.records.size then f (m.record id) else m.record id := by
  simp only [record, Array.getElem?_modify]
  by_cases hj : j = id
  · by_cases hroom : id < m.records.size
    · simp [hj, hroom]
    · simp [hj, hroom]
  · simp [hj]

/-- Assigning to one slot leaves the others alone. -/
theorem content_assign_of_ne {s : Slot} (h : slot ≠ s) (v : Value) :
    (m.assign s v).content slot = m.content slot := by
  cases s with
  | cell j =>
    cases slot with
    | cell id =>
      have hne : j ≠ id := fun he => h (he ▸ rfl)
      simp [content, cell, assign, Array.getElem?_modify, hne]
    | property id name => rfl
  | property j x =>
    cases slot with
    | cell id => rfl
    | property id name =>
      simp only [content, assign, record_modify]
      split
      · rename_i hid
        have hne : name ≠ x := fun he => h (by rw [he, hid.1])
        rw [Record.find?_set, if_neg hne]
      · rfl

theorem content_assign_self (h : m.Has slot) (v : Value) :
    (m.assign slot v).content slot = ⟨v, (m.content slot).isConst⟩ := by
  cases slot with
  | cell id => exact (cell_assign h id v).trans (if_pos rfl)
  | property id name =>
    simp only [content, assign, record_modify]
    rw [if_pos ⟨trivial, h⟩, Record.find?_set, if_pos rfl]
    rfl

/-- Assigning to a property that is there makes no new ones. -/
theorem contains_assign {id : Nat} {name : String}
    (h : (m.record id).contains (.text name) = true) (v : Value) (j : Nat) (x : String) :
    ((m.assign (.property id name) v).record j).contains (.text x) =
      (m.record j).contains (.text x) := by
  simp only [assign, record_modify]
  split
  · rename_i hid
    rw [Record.contains, Record.find?_set]
    split
    · rename_i hx
      rw [hx, ← hid.1, h]
      rfl
    · rfl
  · rfl

theorem contains_of_find {env : Env} {x name : String} {id : Nat}
    (h : m.find env x = some (.property id name)) :
    (m.record id).contains (.text name) = true := by
  obtain ⟨f, -, hf⟩ := List.exists_of_findSome?_eq_some h
  unfold findHere at hf
  split at hf
  · obtain ⟨_, _, he⟩ := Option.map_eq_some_iff.mp hf
    cases he
  · split at hf
    · cases hf
      assumption
    · cases hf
  · cases hf

/-! ### What entering a block does -/

/-- Is this value one of the functions that some statements declare, made in this environment? -/
def IsFunctionOf (m : Machine) (env : Env) (ns : List Node) (v : Value) : Prop :=
  ∃ id, v = .function id ∧ id < m.procedures.size ∧
    ∃ p ∈ Node.functions ns, m.procedure id = .closure env p.2

theorem IsFunctionOf.mono {env : Env} {ns ns' : List Node} {v : Value}
    (h : m.IsFunctionOf env ns v) (hns : ∀ p ∈ Node.functions ns, p ∈ Node.functions ns') :
    m.IsFunctionOf env ns' v := by
  obtain ⟨id, hv, hid, p, hp, hclosure⟩ := h
  exact ⟨id, hv, hid, p, hns p hp, hclosure⟩

/-- The second machine comes from the first one by setting up a block in the innermost frame of an
environment: that frame gets new variables, the slots of `S` may receive functions of the block, and
everything else stays as it is. -/
structure SetsUp (env : Env) (ns : List Node) (S : Slot → Prop) (m m' : Machine) : Prop where
  cells : m.cells.size ≤ m'.cells.size
  records : m'.records.size = m.records.size
  procedures : m.procedures.size ≤ m'.procedures.size
  procedure : ∀ id < m.procedures.size, m'.procedure id = m.procedure id
  slots : ∀ f : Frame, f.slots ≠ env.frame.slots → m'.slots f = m.slots f
  contains : ∀ id x, (m'.record id).contains (.text x) = (m.record id).contains (.text x)
  content : ∀ slot, m.Has slot → m'.content slot = m.content slot ∨
    S slot ∧ (m'.content slot).isConst = (m.content slot).isConst ∧
      m'.IsFunctionOf env ns (m'.content slot).value
  /-- Nothing of the objects changes, unless a property is to receive a function. -/
  objects : (∀ id x, ¬S (.property id x)) → m'.records = m.records
  others : m' = { m with
    cells := m'.cells, frames := m'.frames, records := m'.records, procedures := m'.procedures }

namespace SetsUp

variable {env outer : Env} {ns : List Node} {S : Slot → Prop}

theorem refl (m : Machine) : m.SetsUp env ns S m :=
  ⟨Nat.le_refl _, rfl, Nat.le_refl _, fun _ _ => rfl, fun _ _ => rfl, fun _ _ => rfl,
    fun _ _ => .inl rfl, fun _ => rfl, rfl⟩

theorem has (h : m.SetsUp env ns S m') (hs : m.Has slot) : m'.Has slot := by
  cases slot with
  | cell id => exact Nat.lt_of_lt_of_le hs h.cells
  | property id name => exact Nat.lt_of_lt_of_eq hs h.records.symm

theorem isFunctionOf (h : m.SetsUp env ns S m') {v : Value} (hv : m.IsFunctionOf env ns v) :
    m'.IsFunctionOf env ns v := by
  obtain ⟨id, rfl, hid, p, hp, hclosure⟩ := hv
  exact ⟨id, rfl, Nat.lt_of_lt_of_le hid h.procedures, p, hp, (h.procedure id hid).trans hclosure⟩

theorem trans (h : m.SetsUp env ns S m') (h' : m'.SetsUp env ns S m'') : m.SetsUp env ns S m'' where
  cells := Nat.le_trans h.cells h'.cells
  records := h'.records.trans h.records
  procedures := Nat.le_trans h.procedures h'.procedures
  procedure id hid :=
    (h'.procedure id (Nat.lt_of_lt_of_le hid h.procedures)).trans (h.procedure id hid)
  slots f hf := (h'.slots f hf).trans (h.slots f hf)
  contains id x := (h'.contains id x).trans (h.contains id x)
  content slot hs := by
    rcases h'.content slot (h.has hs) with hsame | ⟨hS, hconst, hv⟩
    · rw [hsame]
      rcases h.content slot hs with hsame | ⟨hS, hconst, hv⟩
      · exact .inl hsame
      · exact .inr ⟨hS, hconst, h'.isFunctionOf hv⟩
    · refine .inr ⟨hS, hconst.trans ?_, hv⟩
      rcases h.content slot hs with hsame | ⟨-, hconst, -⟩
      · rw [hsame]
      · exact hconst
  objects hS := (h'.objects hS).trans (h.objects hS)
  others := by rw [h'.others, h.others]

theorem mono {ns' : List Node} {S' : Slot → Prop} (h : m.SetsUp env ns S m')
    (hns : ∀ p ∈ Node.functions ns, p ∈ Node.functions ns') (hS : ∀ s, S s → S' s) :
    m.SetsUp env ns' S' m' :=
  { h with
    content := fun slot hs => (h.content slot hs).imp_right fun hslot =>
      ⟨hS slot hslot.1, hslot.2.1, hslot.2.2.mono hns⟩
    objects := fun hnone => h.objects fun id x hx => hnone id x (hS _ hx) }

/-- What a name stands for around the block stays the same. -/
theorem find (h : m.SetsUp env ns S m') (houter : ∀ f ∈ outer.frames, f.slots ≠ env.frame.slots)
    (x : String) : m'.find outer x = m.find outer x := by
  have hhere : ∀ f ∈ outer.frames, m'.findHere x f = m.findHere x f := by
    intro f hf
    simp only [findHere, own?, h.slots f (houter f hf), h.contains]
  rw [Machine.find, Machine.find, ← List.head?_filterMap, ← List.head?_filterMap,
    List.filterMap_congr hhere]

theorem isAssignable (h : m.SetsUp env ns S m') (hs : m.Has slot)
    (hopen : (m.content slot).IsAssignable) : (m'.content slot).IsAssignable := by
  rcases h.content slot hs with hsame | ⟨-, hconst, id, hv, -⟩
  · rwa [hsame]
  · exact ⟨by rw [hv]; trivial, hconst.trans hopen.2⟩

/-- The block gets a variable of its own. -/
theorem declare (m : Machine) (name : String) (cell : Cell) :
    m.SetsUp env ns S (m.declare env.frame name cell) where
  cells := by simp [Machine.declare]
  records := rfl
  procedures := Nat.le_refl _
  procedure _ _ := rfl
  slots f hf := by simp [Machine.slots, Machine.declare, Array.getElem?_modify, Ne.symm hf]
  contains _ _ := rfl
  content slot hs := by
    refine .inl ?_
    cases slot with
    | cell id => exact cell_declare hs env.frame name cell
    | property id x => rfl
  objects _ := rfl
  others := rfl

theorem pushProcedure (m : Machine) (p : Procedure) :
    m.SetsUp env ns S { m with procedures := m.procedures.push p } where
  cells := Nat.le_refl _
  records := rfl
  procedures := by simp
  procedure id hid := by
    simp only [Machine.procedure, Array.getElem?_push]
    rw [if_neg (Nat.ne_of_lt hid)]
  slots _ _ := rfl
  contains _ _ := rfl
  content _ _ := .inl rfl
  objects _ := rfl
  others := rfl

/-- A slot of `S` receives a function. -/
theorem assign {v : Value} {x : String} (hfind : m.find outer x = some slot) (hS : S slot)
    (hv : m.IsFunctionOf env ns v) : m.SetsUp env ns S (m.assign slot v) where
  cells := by cases slot <;> simp [Machine.assign]
  records := by cases slot <;> simp [Machine.assign]
  procedures := by cases slot <;> simp [Machine.assign]
  procedure _ _ := by cases slot <;> rfl
  slots _ _ := by cases slot <;> rfl
  contains id y := by
    cases slot with
    | cell j => rfl
    | property j name => exact contains_assign (contains_of_find hfind) v id y
  content s hs := by
    by_cases hslot : s = slot
    · subst hslot
      rw [content_assign_self hs]
      refine .inr ⟨hS, rfl, ?_⟩
      cases s <;> exact hv
    · exact .inl (content_assign_of_ne hslot v)
  objects hnone := by
    cases slot with
    | cell id => rfl
    | property id name => exact absurd hS (hnone id name)
  others := by cases slot <;> rfl

end SetsUp

/-- The machine with a new function in a new variable. -/
def withFunction (m : Machine) (env : Env) (p : String × Code) : Machine :=
  { m with procedures := m.procedures.push (.closure env p.2) }.declare env.frame p.1
    ⟨.function m.procedures.size, false⟩

section

variable {env : Env} {ns : List Node} {S : Slot → Prop} {p : String × Code}

theorem setsUp_withFunction (m : Machine) (env : Env) (p : String × Code) :
    m.SetsUp env ns S (m.withFunction env p) :=
  (SetsUp.pushProcedure m _).trans (.declare _ _ _)

theorem isFunctionOf_withFunction (m : Machine) (env : Env) (hp : p ∈ Node.functions ns) :
    (m.withFunction env p).IsFunctionOf env ns (.function m.procedures.size) :=
  ⟨_, rfl, by simp [withFunction, declare], p, hp, by simp [withFunction, declare, procedure]⟩

end

/-- The slots that the functions of a block go to: what their names stand for around it. -/
def Receives (m : Machine) (outer : Env) (ns : List Node) (slot : Slot) : Prop :=
  ∃ p ∈ Node.functions ns, m.find outer p.1 = some slot

/-- The variables that a frame has for the functions of a block. -/
def HasFor (m : Machine) (f : Frame) (ns : List Node) (slot : Slot) : Prop :=
  ∃ p ∈ Node.functions ns, (m.own? f p.1).map .cell = some slot

end Machine

namespace Eval

variable {m : Machine} {env inner outer : Env} {slot : Slot} {x : String} {n : Node}
  {ns : List Node}

theorem write_of_isAssignable (hfind : m.find env x = some slot)
    (hopen : (m.content slot).IsAssignable) (v : Value) :
    write env x v m = .ok () (m.assign slot v) := by
  rw [write, bind_ok (show (get : Eval Machine) m = .ok m m from rfl), hfind]
  dsimp only
  split
  · rename_i hdead
    exact absurd hopen.1 (by rw [hdead]; exact id)
  · rw [if_neg (by simp [hopen.2])]
    rfl

theorem write_of_not_isAssignable (hfind : m.find env x = some slot)
    (hclosed : ¬(m.content slot).IsAssignable) (v : Value) :
    ∃ name message, name ∈ ["ReferenceError", "TypeError"] ∧
      write env x v m = raise name message m := by
  rw [write, bind_ok (show (get : Eval Machine) m = .ok m m from rfl), hfind]
  dsimp only
  split
  · exact ⟨_, _, List.mem_cons_self, rfl⟩
  · rename_i hlive
    have hplain : (m.content slot).value.IsPlain := by
      cases hv : (m.content slot).value with
      | uninitialized => exact absurd hv hlive
      | _ => trivial
    have hconst : (m.content slot).isConst = true := by
      cases hc : (m.content slot).isConst with
      | true => rfl
      | false => exact absurd ⟨hplain, hc⟩ hclosed
    rw [if_pos hconst]
    exact ⟨_, _, List.mem_cons_of_mem _ List.mem_cons_self, rfl⟩

theorem setsUp_declareDead {S : Slot → Prop} {ds : List Node}
    (h : ds.all Node.isDeclarator = true) (isConst : Bool) (m : Machine) :
    ∃ m', declareDead inner.frame isConst ds m = .ok () m' ∧ m.SetsUp inner ns S m' := by
  induction ds generalizing m with
  | nil => exact ⟨m, rfl, .refl m⟩
  | cons d rest ih =>
    simp only [List.all_cons, Bool.and_eq_true] at h
    cases d with
    | declarator name =>
      obtain ⟨m', hrest, hset⟩ := ih h.2 (m.declare inner.frame name.text ⟨.uninitialized, isConst⟩)
      exact ⟨m', hrest, (Machine.SetsUp.declare m _ _).trans hset⟩
    | _ => cases h.1

/-- A statement that declares no function changes the frame of the block only. -/
theorem setsUp_enterStatement {S : Slot → Prop} (hn : n.isEnterable = true)
    (hnone : n.function? = none) (m : Machine) :
    ∃ m', enterStatement inner (some outer) n m = .ok () m' ∧ m.SetsUp inner ns S m' := by
  cases n with
  | varDecl keyword ds span =>
    cases keyword with
    | varWord => exact ⟨m, rfl, .refl m⟩
    | letWord | constWord => exact setsUp_declareDead hn _ m
  | function form name =>
    cases form with
    | expression => exact ⟨m, rfl, .refl m⟩
    | declaration =>
      cases name with
      | none => cases hn
      | some name => cases hnone
  | _ => exact ⟨m, rfl, .refl m⟩

/-- A function is assigned to its name around the block, once the block has it. -/
theorem enterStatement_function {p : String × Code} (hn : n.function? = some p)
    (inner outer : Env) (m : Machine) :
    enterStatement inner (some outer) n m =
      write outer p.1 (.function m.procedures.size) (m.withFunction inner p) := by
  cases n with
  | function form name =>
    cases form with
    | expression => cases hn
    | declaration =>
      cases name with
      | none => cases hn
      | some name =>
        cases hn
        rfl
  | _ => cases hn

/-- Entering the block hands its functions to the slots of `S`, and changes nothing else but its
frame. -/
def HandsOver (inner outer : Env) (ns : List Node) (S : Slot → Prop) (m : Machine) : Prop :=
  ∃ m', enterBlock inner (some outer) ns m = .ok () m' ∧ m.SetsUp inner ns S m' ∧
    ∀ slot, S slot → m'.IsFunctionOf inner ns (m'.content slot).value

/-- How an action ends that sets up some statements of a block: it hands their functions over, or
it comes upon a slot that may not be assigned and throws. -/
inductive Enters (inner outer : Env) (ns : List Node) (m : Machine) (a : Eval Unit) : Prop where
  | done {m' : Machine} (h : a m = .ok () m') (hset : m.SetsUp inner ns (m.Receives outer ns) m')
    (hslots : ∀ slot, m.Receives outer ns slot → m.Has slot →
      (m.content slot).IsAssignable ∧ m'.IsFunctionOf inner ns (m'.content slot).value)
  | refused {name message : String} {m' : Machine} {slot : Slot} (h : a m = raise name message m')
    (hname : name ∈ ["ReferenceError", "TypeError"])
    (hset : m.SetsUp inner ns (m.Receives outer ns) m') (hslot : m.Receives outer ns slot)
    (hclosed : ¬(m'.content slot).IsAssignable)

section

variable (houter : ∀ f ∈ outer.frames, f.slots ≠ inner.frame.slots)

include houter

theorem enters_enterStatement (hn : n.isEnterable = true)
    (hfound : ∀ p, n.function? = some p → ∃ slot, m.find outer p.1 = some slot) :
    Enters inner outer [n] m (enterStatement inner (some outer) n) := by
  cases hp : n.function? with
  | none =>
    obtain ⟨m', h, hset⟩ := setsUp_enterStatement hn hp m
    refine .done h hset ?_
    rintro slot ⟨p, hmem, -⟩
    cases hp.symm.trans (Node.mem_functions_singleton.mp hmem)
  | some p =>
    have hmem : p ∈ Node.functions [n] := Node.mem_functions_singleton.mpr hp
    obtain ⟨slot, hfind⟩ := hfound p hp
    have hreceives : m.Receives outer [n] slot := ⟨p, hmem, hfind⟩
    -- the block has the function first, and that changes nothing of what stands around it
    have hown : ∀ S, m.SetsUp inner [n] S (m.withFunction inner p) :=
      fun S => Machine.setsUp_withFunction m inner p
    have hcontent : ∀ s, m.Has s → (m.withFunction inner p).content s = m.content s :=
      fun s hs => ((hown fun _ => False).content s hs).resolve_right fun h => h.1
    have hfind' := ((hown fun _ => False).find houter p.1).trans hfind
    have hfunction := Machine.isFunctionOf_withFunction m inner hmem
    have hstep := enterStatement_function hp inner outer m
    by_cases hopen : ((m.withFunction inner p).content slot).IsAssignable
    · rw [write_of_isAssignable hfind' hopen] at hstep
      have hassign := Machine.SetsUp.assign hfind' hreceives hfunction
      refine .done hstep ((hown _).trans hassign) ?_
      rintro s ⟨q, hq, hs⟩ hhas
      cases hp.symm.trans (Node.mem_functions_singleton.mp hq)
      cases hfind.symm.trans hs
      refine ⟨hcontent slot hhas ▸ hopen, ?_⟩
      rw [Machine.content_assign_self ((hown fun _ => False).has hhas)]
      exact hassign.isFunctionOf hfunction
    · obtain ⟨name, message, hname, hraise⟩ := write_of_not_isAssignable hfind' hopen
        (.function m.procedures.size)
      exact .refused (hstep.trans hraise) hname (hown _) hreceives hopen

/-- One statement after the other: what the first one hands over may be handed over again. -/
theorem Enters.cons {rest : List Node} {a b : Eval Unit} (ha : Enters inner outer [n] m a)
    (hb : ∀ m', m.SetsUp inner [n] (m.Receives outer [n]) m' → Enters inner outer rest m' b) :
    Enters inner outer (n :: rest) m (a >>= fun _ => b) := by
  have hfirst : ∀ p ∈ Node.functions [n], p ∈ Node.functions (n :: rest) := fun p hp =>
    Node.mem_functions_cons.mpr (.inl (Node.mem_functions_singleton.mp hp))
  have hlater : ∀ p ∈ Node.functions rest, p ∈ Node.functions (n :: rest) := fun p hp =>
    Node.mem_functions_cons.mpr (.inr hp)
  have hhead : ∀ slot, m.Receives outer [n] slot → m.Receives outer (n :: rest) slot :=
    fun slot ⟨p, hp, hfind⟩ => ⟨p, hfirst p hp, hfind⟩
  cases ha with
  | refused h hname hset hslot hclosed =>
    exact .refused (bind_error (h.trans rfl)) hname (hset.mono hfirst hhead) (hhead _ hslot) hclosed
  | @done m₁ h hset hslots =>
    have htail : ∀ slot, m₁.Receives outer rest slot → m.Receives outer (n :: rest) slot :=
      fun slot ⟨p, hp, hfind⟩ => ⟨p, hlater p hp, (hset.find houter p.1).symm.trans hfind⟩
    have hset₁ := hset.mono hfirst hhead
    cases hb m₁ hset with
    | refused h' hname hset' hslot hclosed =>
      exact .refused ((bind_ok h).trans h') hname (hset₁.trans (hset'.mono hlater htail))
        (htail _ hslot) hclosed
    | @done m₂ h' hset' hslots' =>
      have hset₂ := hset'.mono hlater htail
      refine .done ((bind_ok h).trans h') (hset₁.trans hset₂) ?_
      rintro slot ⟨p, hp, hfind⟩ hhas
      rcases Node.mem_functions_cons.mp hp with hp | hp
      · obtain ⟨hopen, hfunction⟩ :=
          hslots slot ⟨p, Node.mem_functions_singleton.mpr hp, hfind⟩ hhas
        refine ⟨hopen, ?_⟩
        rcases hset₂.content slot (hset.has hhas) with hsame | ⟨-, -, hagain⟩
        · rw [hsame]
          exact hset₂.isFunctionOf (hfunction.mono hfirst)
        · exact hagain
      · obtain ⟨hopen, hfunction⟩ :=
          hslots' slot ⟨p, hp, (hset.find houter p.1).trans hfind⟩ (hset.has hhas)
        refine ⟨?_, hfunction.mono hlater⟩
        rcases hset.content slot hhas with hsame | ⟨hreceives, -, -⟩
        · rwa [hsame] at hopen
        · exact (hslots slot hreceives hhas).1

omit houter in
theorem Enters.handsOver (h : Enters inner outer ns m (enterBlock inner (some outer) ns))
    (hopen : ∀ slot, m.Receives outer ns slot → m.MayAssign slot) :
    HandsOver inner outer ns (m.Receives outer ns) m := by
  cases h with
  | @done m' h hset hslots =>
    exact ⟨m', h, hset, fun slot hs => (hslots slot hs (hopen slot hs).1).2⟩
  | @refused _ _ _ slot h hname hset hslot hclosed =>
    exact absurd (hset.isAssignable (hopen slot hslot).1 (hopen slot hslot).2) hclosed

omit houter in
theorem Enters.raises (h : Enters inner outer ns m (enterBlock inner (some outer) ns))
    (hslot : m.Receives outer ns slot) (hclosed : ¬(m.content slot).IsAssignable) :
    ∃ name ∈ ["ReferenceError", "TypeError"], ∃ message m',
      enterBlock inner (some outer) ns m = raise name message m' ∧
        m.SetsUp inner ns (m.Receives outer ns) m' := by
  cases h with
  | done h hset hslots =>
    exact absurd (hslots slot hslot (Machine.has_of_not_isAssignable hclosed)).1 hclosed
  | @refused name message m' _ h hname hset _ _ => exact ⟨name, hname, message, m', h, hset⟩

theorem enters_enterBlock (hns : ∀ n ∈ ns, n.isEnterable = true)
    (hfound : ∀ p ∈ Node.functions ns, ∃ slot, m.find outer p.1 = some slot) :
    Enters inner outer ns m (enterBlock inner (some outer) ns) := by
  induction ns generalizing m with
  | nil =>
    refine .done rfl (.refl m) ?_
    rintro slot ⟨p, hp, -⟩
    cases hp
  | cons n rest ih =>
    obtain ⟨hn, hrest⟩ := List.forall_mem_cons.mp hns
    refine (enters_enterStatement houter hn fun p hp => ?_).cons houter fun m' hset =>
      ih hrest fun p hp => ?_
    · exact hfound p (Node.mem_functions_cons.mpr (.inl hp))
    · rw [hset.find houter]
      exact hfound p (Node.mem_functions_cons.mpr (.inr hp))

end

end Eval

end ScopeLowering
