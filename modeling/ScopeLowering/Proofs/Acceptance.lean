import ScopeLowering.Proofs.Admission
import ScopeLowering.Proofs.Planning

/-!
# Scripts that have scopes

A sorted script has scopes exactly if it is a program whose phrases are in the places that they are
held to (`ofScript_ok_iff_checked`). So a nested program has scopes. The converse fails, because not
every phrase is held to the node around it.

## The model

`Accords` says of a node that its events come to what its phrases say: they go through if the node
is in its place and checked, and declare the names that the node hoists and those of its scope. That
it is so of every sorted tree is the recursion of `ScopeLowering.Proofs.Judgement`.
-/

namespace ScopeLowering

namespace Event

/-! ### Reading a sorted tree -/

/-- What `Admits` says is a judgement. It does not look at the nodes that open scopes. -/
def admission : Judgement where
  Holds es p xs ys _ := Admits es p xs ys
  nil := .nil
  append h h' := h.append h'
  congr h hp hx hy _ := h.congr hp (fun _ => hx.mem_iff) (fun _ => hy.mem_iff)
  check hn o := .check hn o
  mute h := .mute h
  declarator k name st hasInit ready unbraced forEach :=
    (Admits.declare (.declared k) name st hasInit ready unbraced forEach).congr .rfl
      (by cases k <;> simp [BindingKind.isFunctionScoped])
      (by cases k <;> simp [BindingKind.isFunctionScoped])
  functionName name ready := .declare .function name none true ready false false
  enclosed o param cases ho h := by
    cases param with
    | none => exact (h.enclosed o.scopeKind ho o.span cases).congr (by simp) (by simp) (by simp)
    | some i =>
      have hparam := Admits.declareName .catchParam i o.span.start o
      have hall := (hparam.append h).enclosed o.scopeKind ho o.span cases
      simp only [Option.toList_some, List.flatMap_cons, List.flatMap_nil, List.append_nil]
      exact hall.congr (by simp) (by simp [BindingKind.isFunctionScoped]) (by simp)
  called o params self callable ho h := by
    have hinner := (Admits.params params o.span.start o).append h
    cases self with
    | none =>
      exact ((hinner.append .nil).function o.span (some callable)).congr (by simp) (by simp)
        (by simp)
    | some i =>
      exact (hinner.namedFunction o.span (some callable) i o.span.start o).congr (by simp)
        (by simp) (by simp)

/-- Reading the node comes to what its phrases say. -/
def Accords (n : Node) : Prop :=
  ∀ p role, role.isHeadless = false →
    Admits (ofNode p role n) (n.isPlacedIn p.outer = true ∧ n.isChecked = true) n.hoisted n.lexical

/-- Reading a node of a sorted tree comes to what its phrases say. -/
theorem accords {n : Node} (hs : n.isSorted = true) (hr : n.isReadable = true) : Accords n :=
  (Judgement.reads (J := admission) hs).1 hr

end Event

/-! ### Scripts that have scopes -/

/-- Reading a sorted program goes through if its phrases are in the places that they are held to,
and otherwise finds it malformed. -/
theorem Scoping.ofScript_cases {script : Node} (hs : script.isSorted = true)
    (hp : script.isProgram = true) :
    ((script.span.isSensible = true ∧ script.isChecked = true) ∧
      ∃ s, Scoping.ofScript script = .ok s) ∨
    (¬ (script.span.isSensible = true ∧ script.isChecked = true) ∧
      ∃ message phrase, Scoping.ofScript script = .error (.malformed message phrase)) := by
  cases script with
  | program xs span =>
    have haccords := Event.accords hs rfl ⟨.absent, span.start⟩ .plain rfl
      (Draft.openScope {} .program span none []) (Draft.Sound.start span)
    rw [Node.isPlacedIn_iff rfl] at haccords
    rcases haccords with ⟨hok, d, hd, _⟩ | ⟨hbad, message, phrase, hd⟩
    · exact .inl ⟨⟨hok.1.1, hok.2⟩, d.finish, congrArg (Except.map Draft.finish) hd⟩
    · exact .inr ⟨fun h => hbad ⟨⟨h.1, .inl rfl⟩, h.2⟩, message, phrase,
        congrArg (Except.map Draft.finish) hd⟩
  | _ => cases hp

/-- **A sorted script has scopes exactly if it is a program with its phrases in the places that they
are held to.** So it does if all its phrases lie in the nodes that contain them. Whenever it has no
scopes it is found to be malformed. -/
theorem ofScript_ok_iff_checked (script : Node) (hs : script.isSorted = true) :
    ((∃ s, Scoping.ofScript script = .ok s) ↔
      script.isProgram = true ∧ script.span.isSensible = true ∧
        ∀ m ∈ script.phrases, ∀ c ∈ m.checked, c.isPlacedIn m = true) ∧
    (script.isProgram = true → script.span.isSensible = true →
      (∀ m ∈ script.phrases, ∀ c ∈ m.slots, c.isPlacedIn m = true) →
      ∃ s, Scoping.ofScript script = .ok s) ∧
    ∀ f, Scoping.ofScript script = .error f → ∃ message phrase, f = .malformed message phrase := by
  have hchecked : script.isChecked = true ↔
      ∀ m ∈ script.phrases, ∀ c ∈ m.checked, c.isPlacedIn m = true := by simp [Node.isChecked]
  have hnested : script.isNested = true ↔
      ∀ m ∈ script.phrases, ∀ c ∈ m.slots, c.isPlacedIn m = true := by simp [Node.isNested]
  rw [← hchecked, ← hnested]
  cases hp : script.isProgram with
  | false =>
    have herror : ∃ message, Scoping.ofScript script = .error (.malformed message none) := by
      cases script with
      | program => cases hp
      | _ => exact ⟨_, rfl⟩
    obtain ⟨message, he⟩ := herror
    simp [he]
  | true =>
    rcases Scoping.ofScript_cases hs hp with ⟨hok, s, he⟩ | ⟨hbad, message, phrase, he⟩
    · simp [he, hok]
    · refine ⟨⟨fun h => ?_, fun h => absurd h.2 hbad⟩, fun _ hspan h => ?_, fun f hf => ?_⟩
      · obtain ⟨s, hs⟩ := h
        rw [he] at hs
        cases hs
      · exact absurd ⟨hspan, Node.isChecked_of_isNested h⟩ hbad
      · rw [he] at hf
        cases hf
        exact ⟨message, phrase, rfl⟩

/-- `var x = 1;`, where the declarator is said to end before its value. -/
def shortScript : Node :=
  .program [.varDecl .varWord
    [.declarator ⟨"x", .of 4 5⟩ (.literal (.json (.int 1)) (.of 8 9)) (.of 4 5)] (.of 0 10)]
    (.of 0 10)

theorem ofScript_ok_iff_checked_shortScript :
    shortScript.isSorted = true ∧ ∃ s, Scoping.ofScript shortScript = .ok s :=
  ⟨by decide, (ofScript_ok_iff_checked shortScript (by decide)).1.mpr ⟨rfl, rfl, by decide⟩⟩

/-- The script has scopes, and the value is not in its place. -/
theorem shortScript_not_nested :
    (∃ s, Scoping.ofScript shortScript = .ok s) ∧ ∃ m ∈ shortScript.phrases, ∃ c ∈ m.slots,
      c.isPlacedIn m = false := by
  obtain ⟨s, hs, _⟩ := exists_ok_of_any
    (show (Scoping.ofScript shortScript).toOption.any (fun _ => true) = true by decide +kernel)
  exact ⟨⟨s, hs⟩, by decide⟩

end ScopeLowering
