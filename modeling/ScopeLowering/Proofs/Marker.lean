import ScopeLowering.Machine.Run
import ScopeLowering.Proofs.Conversions
import ScopeLowering.Proofs.Phrases

/-!
# Values other than the marker

A variable whose declaration has not run holds the marker `Value.uninitialized`. A value is *plain*
if it is not the marker. An object, a function, a task or a signal is plain if it holds no marker, a
tree if none of its literals is one, and a machine if nothing in it but its variables holds one
(`Machine.IsPlain`).

Conversions and operators make plain values of any values, and a plain machine stays plain whatever
plain things are put into it.
-/

namespace ScopeLowering

/-! ### Plain things -/

/-- Is this not the marker? -/
def Value.IsPlain : Value → Prop
  | uninitialized => False
  | _ => True

/-- Is this not the marker? -/
def Constant.IsPlain : Constant → Prop
  | uninitialized => False
  | _ => True

/-- Is this not the marker as a name? -/
def Key.IsPlain : Key → Prop
  | other c => c.IsPlain
  | text _ => True

/-- Is none of these the marker? -/
def ArePlain (vs : List Value) : Prop := ∀ v ∈ vs, v.IsPlain

/-- Is no name and no value of a property the marker? -/
def Record.IsPlain (r : Record) : Prop := ∀ p ∈ r.fields, p.1.IsPlain ∧ p.2.IsPlain

/-- Does the host not put the marker anywhere by what it asks for? -/
def Request.IsPlain : Request → Prop
  | setProperty _ key value => key.IsPlain ∧ value.IsPlain
  | newArray xs => ArePlain xs
  | newRecord r => r.IsPlain
  | call _ this args => this.IsPlain ∧ ArePlain args
  | getProperty .. | text _ => True

/-- Does the code never come up with the marker by its own? -/
def HostCode.IsPlain : HostCode → Prop
  | answer v | throws v => v.IsPlain
  | fails _ => True
  | ask request next => request.IsPlain ∧
      ∀ v : Value, v.IsPlain → (next (.ok v)).IsPlain ∧ (next (.error v)).IsPlain

/-- Does the function not answer with the marker by its own? -/
def Native.IsPlain : Native → Prop
  | constant v => v.IsPlain
  | foreign code => ∀ args, ArePlain args → (code args).IsPlain
  | _ => True

/-- Does the frame hold no marker, apart from its variables? -/
structure Frame.IsPlain (f : Frame) : Prop where
  this : f.this.IsPlain
  subject : ∀ v ∈ f.subject, v.IsPlain

/-- Do the frames hold no marker, apart from their variables? -/
def Env.IsPlain (env : Env) : Prop := ∀ f ∈ env.frames, f.IsPlain

/-- Is this a literal that stands for the marker? -/
def Node.isMarker : Node → Bool
  | literal .uninitialized _ => true
  | _ => false

/-- Is no literal of the tree the marker? -/
def Node.IsPlain (n : Node) : Prop := ∀ m ∈ n.phrases, m.isMarker = false

instance (n : Node) : Decidable n.IsPlain :=
  inferInstanceAs (Decidable (∀ m ∈ n.phrases, m.isMarker = false))

/-- Does the function hold no marker? -/
def Procedure.IsPlain : Procedure → Prop
  | closure env code => env.IsPlain ∧ ∀ n ∈ code.body, n.IsPlain
  | native fn => fn.IsPlain

/-- Is no marker called, or among the arguments of a call? -/
structure Task.IsPlain (t : Task) : Prop where
  callee : t.callee.IsPlain
  args : ArePlain t.args

/-- Is this not the marker, thrown or returned? -/
def Signal.IsPlain : Signal → Prop
  | thrown v | returned v => v.IsPlain
  | _ => True

/-- Does the machine hold no marker, apart from its variables? -/
structure Machine.IsPlain (m : Machine) : Prop where
  arrays : ∀ id, ArePlain (m.array id).toList
  records : ∀ id, (m.record id).IsPlain
  procedures : ∀ id, (m.procedure id).IsPlain
  pending : ∀ t ∈ m.pending.toList, t.IsPlain
  completion : m.completion.IsPlain

theorem Value.isPlain_iff {v : Value} : v.IsPlain ↔ v ≠ .uninitialized := by
  cases v <;> simp [IsPlain]

theorem Value.isPlain_undefined : undefined.IsPlain := trivial

theorem Value.isPlain_ofConstant {c : Constant} (h : c.IsPlain) : (ofConstant c).IsPlain := by
  cases c with
  | uninitialized => exact h
  | undefined => trivial
  | json v => cases v <;> trivial

theorem Key.isPlain_ofConstant {c : Constant} (h : c.IsPlain) : (ofConstant c).IsPlain := by
  cases c with
  | json v => cases v <;> trivial
  | _ => exact h

theorem Key.isPlain_toValue {k : Key} (h : k.IsPlain) : k.toValue.IsPlain := by
  cases k with
  | text s => trivial
  | other c => exact Value.isPlain_ofConstant h

theorem Signal.IsMild.isPlain {s : Signal} (h : s.IsMild) : s.IsPlain := by
  cases s with
  | thrown v | returned v => cases h
  | _ => trivial

theorem Value.isPlain_getD {v? : Option Value} (h : ∀ v ∈ v?, v.IsPlain) :
    (v?.getD .undefined).IsPlain := by
  cases v? with
  | none => trivial
  | some v => exact h v rfl

namespace ArePlain

theorem nil : ArePlain [] := by simp [ArePlain]

theorem cons {v : Value} {vs : List Value} (hv : v.IsPlain) (hvs : ArePlain vs) :
    ArePlain (v :: vs) := List.forall_mem_cons.mpr ⟨hv, hvs⟩

variable {vs : List Value} (h : ArePlain vs)

include h

theorem headD : (vs.headD .undefined).IsPlain := by
  cases vs with
  | nil => trivial
  | cons v rest => exact h v List.mem_cons_self

theorem drop (k : Nat) : ArePlain (vs.drop k) := fun v hv => h v (List.mem_of_mem_drop hv)

end ArePlain

/-! ### Records -/

namespace Record

variable {r : Record} {key : Key} {value : Value}

theorem isPlain_empty : ({} : Record).IsPlain := by simp [IsPlain]

theorem isPlain_error (name message : String) : (error name message).IsPlain := by
  simp [IsPlain, error, Key.IsPlain, Value.IsPlain]

theorem IsPlain.find? (h : r.IsPlain) : ∀ v ∈ r.find? key, v.IsPlain := by
  intro v hv
  obtain ⟨p, hp, rfl⟩ := Option.map_eq_some_iff.mp hv
  exact (h p (Array.mem_of_find?_eq_some hp)).2

theorem IsPlain.set (h : r.IsPlain) (hkey : key.IsPlain) (hvalue : value.IsPlain) :
    (r.set key value).IsPlain := by
  unfold Record.set
  split
  · intro p hp
    obtain ⟨i, hi, rfl⟩ := Array.mem_iff_getElem.mp hp
    rw [Array.getElem_modify]
    have hold := h _ (Array.getElem_mem (by simpa using hi))
    split
    · exact ⟨hold.1, hvalue⟩
    · exact hold
  · intro p hp
    rcases Array.mem_push.mp hp with hp | rfl
    · exact h p hp
    · exact ⟨hkey, hvalue⟩

theorem IsPlain.erase (h : r.IsPlain) : (r.erase key).IsPlain :=
  fun p hp => h p (Array.mem_filter.mp hp).1

end Record

/-! ### Trees -/

namespace Node

variable {n : Node}

theorem IsPlain.slot (h : n.IsPlain) {c : Node} (hc : c ∈ n.slots) : c.IsPlain := by
  cases n with
  | absent => cases hc
  | _ => exact ((forall_phrases rfl).mp h).2 c hc

theorem IsPlain.literal {c : Constant} {span : Span} (h : (Node.literal c span).IsPlain) :
    c.IsPlain := by
  have hhere := ((forall_phrases rfl).mp h).1
  cases c with
  | uninitialized => cases hhere
  | _ => trivial

end Node

/-! ### Environments -/

namespace Env

variable {env : Env}

theorem IsPlain.this (h : env.IsPlain) : env.frame.this.IsPlain := (h _ List.mem_cons_self).this

theorem IsPlain.push (h : env.IsPlain) {f : Frame} (hf : f.IsPlain) : (env.push f).IsPlain :=
  List.forall_mem_cons.mpr ⟨hf, h⟩

theorem IsPlain.withFrame (h : env.IsPlain) {f : Frame} (hf : f.IsPlain) :
    (env.withFrame f).IsPlain :=
  List.forall_mem_cons.mpr ⟨hf, fun g hg => h g (List.mem_cons_of_mem _ hg)⟩

end Env

/-! ### Queues -/

namespace Heap

variable {α : Type} {before : α → α → Bool} {x : α}

theorem mem_link (top : α) (a b : Heap α) :
    x ∈ (link top a b).toList ↔ x = top ∨ x ∈ a.toList ∨ x ∈ b.toList := by
  unfold link
  split <;> simp [toList, or_comm]

theorem mem_mergeInto {k : Nat} {top : α} {left right : Heap α} {mergeRight : Heap α → Heap α}
    (h : ∀ b, x ∈ (mergeRight b).toList ↔ x ∈ right.toList ∨ x ∈ b.toList) :
    ∀ b, x ∈ (mergeInto before (node k top left right) top left mergeRight b).toList ↔
      x ∈ (node k top left right).toList ∨ x ∈ b.toList
  | empty => by simp [mergeInto, toList]
  | node j other l r => by
    unfold mergeInto
    split
    · rw [mem_link, mem_mergeInto h r]
      simp only [toList, List.mem_cons, List.mem_append]
      grind
    · rw [mem_link, h]
      simp only [toList, List.mem_cons, List.mem_append]
      grind

theorem mem_merge : ∀ a b : Heap α,
    x ∈ (merge before a b).toList ↔ x ∈ a.toList ∨ x ∈ b.toList
  | empty, b => by simp [merge, toList]
  | node _ _ _ right, b => mem_mergeInto (mem_merge right) b

end Heap

namespace Queue

variable {α : Type} {before : α → α → Bool} {q rest : Queue α} {a x : α}

theorem mem_insert : x ∈ (q.insert before a).toList ↔ x = a ∨ x ∈ q.toList := by
  simp [insert, toList, Heap.mem_merge, Heap.toList]

theorem mem_of_next? (h : q.next? before = some (a, rest)) :
    x ∈ q.toList ↔ x = a ∨ x ∈ rest.toList := by
  unfold next? at h
  split at h
  · cases h
  · rename_i hq
    cases h
    simp [toList, hq, Heap.mem_merge, Heap.toList]

end Queue

/-! ### Conversions -/

/-- Is what a calculation gives plain, if it gives something? -/
def GivesPlain {ε : Type} (e : Except ε Value) : Prop := ∀ v, e = .ok v → v.IsPlain

namespace GivesPlain

variable {α ε δ : Type}

theorem ok {v : Value} (h : v.IsPlain) : GivesPlain (.ok v : Except ε Value) := by
  intro w hw
  cases hw
  exact h

theorem bind {e : Except ε α} {f : α → Except ε Value} (h : ∀ a, GivesPlain (f a)) :
    GivesPlain (e >>= f) := by
  cases e with
  | ok a => exact h a
  | error x => exact fun v hv => by cases hv

theorem mapError {e : Except ε Value} (h : GivesPlain e) (f : ε → δ) :
    GivesPlain (e.mapError f) := by
  cases e with
  | ok v => exact .ok (h v rfl)
  | error x => exact fun v hv => by cases hv

end GivesPlain

theorem givesPlain_onNumbers (op : BinaryOp) (a b : Number) : GivesPlain (op.onNumbers a b) := by
  cases op with
  | add | subtract | multiply | divide | remainder => exact .bind fun _ => .ok trivial
  | _ =>
    refine .bind fun p => ?_
    cases p <;> exact .ok trivial

namespace Machine

variable (m : Machine)

theorem givesPlain_plus (a b : Value) : GivesPlain (m.plus a b) := by
  refine .bind fun a => .bind fun b => ?_
  split
  · exact .bind fun _ => .bind fun _ => .ok trivial
  · exact .bind fun _ => .bind fun _ => .ok trivial
  · exact .bind fun _ => .bind fun _ => (givesPlain_onNumbers _ _ _).mapError _

theorem givesPlain_comparison (op : BinaryOp) (a b : Value) :
    GivesPlain (m.comparison op a b) := by
  refine .bind fun a => .bind fun b => ?_
  split
  · exact .ok trivial
  · exact .bind fun _ => .bind fun _ => .ok trivial

theorem givesPlain_binary (op : BinaryOp) (a b : Value) : GivesPlain (m.binary op a b) := by
  cases op with
  | add => exact givesPlain_plus m a b
  | subtract | multiply | power | divide | remainder =>
    exact .bind fun _ => .bind fun _ => (givesPlain_onNumbers _ _ _).mapError _
  | looseEqual | looseUnequal => exact .bind fun _ => .ok trivial
  | strictEqual | strictUnequal => exact .ok trivial
  | less | atMost | greater | atLeast => exact givesPlain_comparison m _ a b
  | bitAnd | bitOr | bitXor | shiftLeft | shiftRight | shiftRightUnsigned | isIn =>
    exact .bind fun _ => .bind fun _ => .ok trivial

theorem givesPlain_unary (op : UnaryOp) (v : Value) : GivesPlain (m.unary op v) := by
  cases op with
  | negate | plus | complement => exact .bind fun _ => .ok trivial
  | not | typeName | void => exact .ok trivial

end Machine

theorem arePlain_indexTexts (n : Nat) : ArePlain (indexTexts n) := by
  intro v hv
  obtain ⟨i, _, rfl⟩ := List.mem_map.mp hv
  trivial

theorem arePlain_characters (s : String) : ArePlain (characters s) := by
  intro v hv
  obtain ⟨c, _, rfl⟩ := List.mem_map.mp hv
  trivial

theorem isPlain_charAt (s : String) (place : Number) : (Eval.charAt s place).IsPlain := by
  unfold Eval.charAt
  split
  · split <;> trivial
  · trivial

/-! ### Plain machines -/

section

variable {α : Type} {P : α → Prop} {xs : Array α} {default : α}

theorem forall_getD_push (h : ∀ i : Nat, P (xs[i]?.getD default)) {a : α} (ha : P a) (i : Nat) :
    P ((xs.push a)[i]?.getD default) := by
  rw [Array.getElem?_push]
  split
  · exact ha
  · exact h i

theorem forall_getD_modify (h : ∀ i : Nat, P (xs[i]?.getD default)) {f : α → α} (j : Nat)
    (hf : P (xs[j]?.getD default) → P (f (xs[j]?.getD default))) (i : Nat) :
    P ((xs.modify j f)[i]?.getD default) := by
  rw [Array.getElem?_modify]
  split
  · rename_i hij
    subst hij
    have hj := h j
    have hnew := hf hj
    cases hx : xs[j]? with
    | none =>
      rw [hx] at hj
      exact hj
    | some a =>
      rw [hx] at hnew
      exact hnew
  · exact h i

end

namespace Machine.IsPlain

variable {m : Machine}

/-- A machine with the same things in it but for its variables. -/
theorem congr {m' : Machine} (h : m.IsPlain) (hobjects : m.SameObjects m')
    (hpending : m'.pending = m.pending) (hcompletion : m'.completion = m.completion) :
    m'.IsPlain where
  arrays id := hobjects.array_eq id ▸ h.arrays id
  records id := hobjects.record_eq id ▸ h.records id
  procedures id := hobjects.procedure_eq id ▸ h.procedures id
  pending := hpending ▸ h.pending
  completion := hcompletion ▸ h.completion

variable (h : m.IsPlain)

include h

theorem keys (v : Value) : ArePlain (m.keys v) := by
  cases v with
  | array id => exact arePlain_indexTexts _
  | text s => exact arePlain_indexTexts _
  | record id =>
    intro v hv
    obtain ⟨p, hp, rfl⟩ := List.mem_map.mp hv
    exact Key.isPlain_toValue (h.records id p (Array.mem_toList_iff.mp hp)).1
  | _ => exact .nil

theorem pushArray {xs : Array Value} (hxs : ArePlain xs.toList) :
    { m with arrays := m.arrays.push xs }.IsPlain :=
  { h with
    arrays := forall_getD_push (P := fun xs : Array Value => ArePlain xs.toList) h.arrays hxs }

theorem pushRecord {r : Record} (hr : r.IsPlain) :
    { m with records := m.records.push r }.IsPlain :=
  { h with records := forall_getD_push (P := Record.IsPlain) h.records hr }

theorem pushProcedure {p : Procedure} (hp : p.IsPlain) :
    { m with procedures := m.procedures.push p }.IsPlain :=
  { h with procedures := forall_getD_push (P := Procedure.IsPlain) h.procedures hp }

theorem modifyArray {id : Nat} {f : Array Value → Array Value}
    (hf : ArePlain (m.array id).toList → ArePlain (f (m.array id)).toList) :
    { m with arrays := m.arrays.modify id f }.IsPlain :=
  { h with
    arrays := forall_getD_modify (P := fun xs : Array Value => ArePlain xs.toList) h.arrays id hf }

theorem modifyRecord {id : Nat} {f : Record → Record}
    (hf : (m.record id).IsPlain → (f (m.record id)).IsPlain) :
    { m with records := m.records.modify id f }.IsPlain :=
  { h with records := forall_getD_modify (P := Record.IsPlain) h.records id hf }

theorem complete {v : Value} (hv : v.IsPlain) : { m with completion := v }.IsPlain :=
  { h with completion := hv }

theorem defer {callee : Value} {args : List Value} (delay : Number) (hcallee : callee.IsPlain)
    (hargs : ArePlain args) : (m.defer delay callee args).IsPlain :=
  { h with
    pending := fun t ht => by
      rcases Queue.mem_insert.mp ht with rfl | ht
      · exact ⟨hcallee, hargs⟩
      · exact h.pending t ht }

theorem next? {t : Task} {rest : Queue Task}
    (hnext : m.pending.next? Task.isBefore = some (t, rest)) :
    t.IsPlain ∧ { m with pending := rest }.IsPlain :=
  ⟨h.pending t ((Queue.mem_of_next? hnext).mpr (.inl rfl)),
    { h with pending := fun u hu => h.pending u ((Queue.mem_of_next? hnext).mpr (.inr hu)) }⟩

end Machine.IsPlain

end ScopeLowering
