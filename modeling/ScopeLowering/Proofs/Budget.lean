import ScopeLowering.Machine.Evaluation
import ScopeLowering.Proofs.Conversions

/-!
# The step budget

Every statement counts against the budget of a run, and a run that has none left is cut short. An
action is *thrifty* if that is all the budget does: either it ends exhausted, with a budget below
zero, or it stays within the budget, and then it does the same with more steps to spare, and leaves
as many more of them.

Thriftiness is kept by every way of putting actions together. A loop needs more: that each of its
passes that goes on has run a statement, so that the bound on its passes is never what ends it.
-/

namespace ScopeLowering

/-- The machine with more steps left. -/
def Machine.refund (k : Nat) (m : Machine) : Machine := { m with budget := m.budget + k }

/-- A step has been spent since an earlier machine, and not in vain. -/
def Machine.IsDearer (m' m : Machine) : Prop := 0 ≤ m'.budget ∧ m'.budget < m.budget

theorem Machine.sameObjects_refund (k : Nat) (m : Machine) : (m.refund k).SameObjects m :=
  ⟨rfl, rfl, rfl, rfl⟩

/-- The same ending with more steps left. -/
def Ending.refund {α : Type} (k : Nat) : Ending α → Ending α
  | ok a m => ok a (m.refund k)
  | error s m => error s (m.refund k)

namespace Eval

variable {α β : Type} {x : Eval α} {f : α → Eval β} {m : Machine}

/-! ### Within the budget or not -/

/-- The action ends exhausted, with a budget below zero. -/
def Overdraws (x : Eval α) (m : Machine) : Prop := ∃ m', x m = .error .exhausted m' ∧ m'.budget < 0

/-- The action ends within its budget, and so it does with more. -/
structure Affords (x : Eval α) (m : Machine) : Prop where
  unexhausted : ∀ m', x m ≠ .error .exhausted m'
  spends : (x m).machine.budget ≤ m.budget
  /-- The budget is not overdrawn, unless it was before. -/
  solvent : 0 ≤ (x m).machine.budget ∨ (x m).machine.budget = m.budget
  refund : ∀ k, x (m.refund k) = (x m).refund k

/-- The action ends within its budget, if at all, wherever it starts. -/
def Thrifty (x : Eval α) : Prop := ∀ m, x.Overdraws m ∨ x.Affords m

/-- It also needs at least one step. -/
def Costly (x : Eval α) : Prop := ∀ m, x.Overdraws m ∨ x.Affords m ∧ (x m).machine.IsDearer m

/-- It needs at least one step to end with such a value. -/
structure PaysFor (p : α → Prop) (x : Eval α) : Prop where
  thrifty : x.Thrifty
  pays : ∀ {m a m'}, x m = .ok a m' → p a → m'.IsDearer m

/-! ### Sequences -/

theorem Overdraws.bind (h : x.Overdraws m) : (x >>= f).Overdraws m := by
  obtain ⟨m', hx, hm⟩ := h
  exact ⟨m', bind_error hx, hm⟩

theorem Overdraws.after {a : α} {m' : Machine} (hx : x m = .ok a m') (h : (f a).Overdraws m') :
    (x >>= f).Overdraws m := by
  obtain ⟨m'', hf, hm⟩ := h
  exact ⟨m'', (bind_ok hx).trans hf, hm⟩

theorem Affords.after {a : α} {m' : Machine} (h : x.Affords m) (hx : x m = .ok a m')
    (hf : (f a).Affords m') : (x >>= f).Affords m := by
  obtain ⟨_, hspends, hsolvent, hrefund⟩ := h
  rw [hx] at hspends hsolvent
  have hall : (x >>= f) m = f a m' := bind_ok hx
  refine ⟨?_, ?_, ?_, fun k => ?_⟩ <;> rw [hall]
  · exact hf.unexhausted
  · exact Int.le_trans hf.spends hspends
  · have := hf.solvent
    have := hf.spends
    change 0 ≤ m'.budget ∨ m'.budget = m.budget at hsolvent
    omega
  · rw [← hf.refund k]
    refine bind_ok ?_
    rw [hrefund k, hx]
    rfl

theorem Affords.bind_error {s : Signal} {m' : Machine} (h : x.Affords m)
    (hx : x m = .error s m') : (x >>= f).Affords m := by
  have hall : (x >>= f) m = .error s m' := Eval.bind_error hx
  obtain ⟨hunexhausted, hspends, hsolvent, hrefund⟩ := h
  rw [hx] at hunexhausted hspends hsolvent
  refine ⟨fun m'' => ?_, ?_, ?_, fun k => ?_⟩ <;> rw [hall]
  · intro h
    cases h
    exact hunexhausted _ rfl
  · exact hspends
  · exact hsolvent
  · refine Eval.bind_error ?_
    rw [hrefund k, hx]
    rfl

theorem Affords.attempt (h : x.Affords m) : (attempt x).Affords m := by
  obtain ⟨_, hspends, hsolvent, hrefund⟩ := h
  cases hm : x m with
  | ok a m' =>
    rw [hm] at hspends hsolvent
    refine ⟨fun _ => ?_, ?_, ?_, fun k => ?_⟩ <;> rw [attempt_ok hm]
    · exact fun h => by cases h
    · exact hspends
    · exact hsolvent
    · exact attempt_ok (by rw [hrefund k, hm]; rfl)
  | error s m' =>
    rw [hm] at hspends hsolvent
    refine ⟨fun _ => ?_, ?_, ?_, fun k => ?_⟩ <;> rw [attempt_error hm]
    · exact fun h => by cases h
    · exact hspends
    · exact hsolvent
    · exact attempt_error (by rw [hrefund k, hm]; rfl)

theorem Affords.attempted (h : x.Affords m) :
    ∃ r, r ≠ .error .exhausted ∧ Eval.attempt x m = .ok r (x m).machine := by
  cases hm : x m with
  | ok a m' => exact ⟨.ok a, nofun, attempt_ok hm⟩
  | error s m' =>
    exact ⟨.error s, fun hs => h.unexhausted m' (Except.error.inj hs ▸ hm), attempt_error hm⟩

theorem Affords.isDearer_after {a : α} {m' : Machine}
    (hf : (f a).Affords m') (hx : x m = .ok a m') (hm' : m'.IsDearer m) :
    ((x >>= f) m).machine.IsDearer m := by
  rw [bind_ok hx]
  have := hf.solvent
  have := hf.spends
  obtain ⟨hfinal, hless⟩ := hm'
  constructor <;> omega

namespace Thrifty

/-- What follows an action may rely on what is known of its value. -/
theorem bind_of (hx : x.Thrifty)
    (hf : ∀ {m m' : Machine} {a : α}, x m = .ok a m' → (f a).Thrifty) : (x >>= f).Thrifty := by
  intro m
  rcases hx m with h | h
  · exact .inl h.bind
  · cases hm : x m with
    | error s m' => exact .inr (h.bind_error hm)
    | ok a m' => exact (hf hm m').imp (.after hm) (h.after hm)

theorem bind (hx : x.Thrifty) (hf : ∀ a, (f a).Thrifty) : (x >>= f).Thrifty :=
  hx.bind_of fun _ => hf _

theorem inspect {f : Machine → Except Signal α} (hblind : ∀ m k, f (m.refund k) = f m)
    (hf : ∀ m, f m ≠ .error .exhausted) : (Eval.inspect f).Thrifty := by
  intro m
  cases hm : f m with
  | ok a =>
    refine .inr ⟨fun m' => ?_, ?_, ?_, fun k => ?_⟩ <;> rw [inspect_ok hm]
    · exact fun h => by cases h
    · exact Int.le_refl _
    · exact .inr rfl
    · exact inspect_ok ((hblind m k).trans hm)
  | error s =>
    refine .inr ⟨fun m' => ?_, ?_, ?_, fun k => ?_⟩ <;> rw [inspect_error hm]
    · intro h
      cases h
      exact hf m hm
    · exact Int.le_refl _
    · exact .inr rfl
    · exact inspect_error ((hblind m k).trans hm)

theorem change {f : Machine → α × Machine} (hbudget : ∀ m, (f m).2.budget = m.budget)
    (hrefund : ∀ m k, f (m.refund k) = ((f m).1, (f m).2.refund k)) :
    (Eval.change f).Thrifty := by
  intro m
  refine .inr ⟨fun m' h => ?_, Int.le_of_eq (hbudget m), .inr (hbudget m), fun k => ?_⟩
  · cases h
  show Ending.ok (f (m.refund k)).1 (f (m.refund k)).2 = _
  rw [hrefund]
  rfl

theorem pure (a : α) : (pure a : Eval α).Thrifty :=
  inspect (fun _ _ => rfl) fun _ h => by cases h

theorem throw {s : Signal} (hs : s ≠ .exhausted) : (throw s : Eval α).Thrifty :=
  inspect (fun _ _ => rfl) fun _ h => hs (Except.error.inj h)

theorem refund_ok (h : x.Thrifty) {a : α} {m' : Machine} (hm : x m = .ok a m') (k : Nat) :
    x (m.refund k) = .ok a (m'.refund k) := by
  rcases h m with ⟨_, hover, _⟩ | h
  · rw [hm] at hover
    cases hover
  · rw [h.refund k, hm]
    rfl

/-- An action that looks at the machine, but not at its budget. -/
theorem get_bind {f : Machine → Eval β} (hblind : ∀ m k, f (m.refund k) = f m)
    (hf : ∀ m, (f m).Thrifty) : ((get : Eval Machine) >>= f).Thrifty := by
  intro m
  have hrun : ∀ m, ((get : Eval Machine) >>= f) m = f m m := fun m => rfl
  rcases hf m m with ⟨m', hm, hneg⟩ | h
  · exact .inl ⟨m', hm, hneg⟩
  · refine .inr ⟨h.unexhausted, h.spends, h.solvent, fun k => ?_⟩
    rw [hrun, hrun, hblind]
    exact h.refund k

/-- What an action does is tried, and then something is done about it. -/
theorem attempt_bind {f : Except Signal α → Eval β} (hx : x.Thrifty)
    (hf : ∀ r, r ≠ .error .exhausted → (f r).Thrifty)
    (hexhausted : ∀ m, m.budget < 0 → (f (.error .exhausted)).Overdraws m) :
    (attempt x >>= f).Thrifty := by
  intro m
  rcases hx m with ⟨m', hm, hneg⟩ | h
  · exact .inl (.after (attempt_error hm) (hexhausted m' hneg))
  · obtain ⟨r, hr, htry⟩ := h.attempted
    exact (hf r hr _).imp (.after htry) (h.attempt.after htry)

end Thrifty

/-! ### Actions that cost something -/

namespace Costly

theorem thrifty (h : x.Costly) : x.Thrifty := fun m => (h m).imp id And.left

/-- Without a budget, such an action comes to nothing. -/
theorem overdraws (h : x.Costly) (hm : m.budget < 0) : x.Overdraws m := by
  rcases h m with h | ⟨_, hfinal, hless⟩
  · exact h
  · omega

theorem bind (hx : x.Costly) (hf : ∀ a, (f a).Thrifty) : (x >>= f).Costly := by
  intro m
  rcases hx m with h | ⟨h, hcost⟩
  · exact .inl h.bind
  · cases hm : x m with
    | error s m' =>
      rw [hm] at hcost
      exact .inr ⟨h.bind_error hm, (bind_error hm).symm ▸ hcost⟩
    | ok a m' =>
      rw [hm] at hcost
      exact (hf a m').imp (.after hm) fun hf => ⟨h.after hm hf, hf.isDearer_after hm hcost⟩

theorem attempt_bind {f : Except Signal α → Eval β} (hx : x.Costly)
    (hf : ∀ r, r ≠ .error .exhausted → (f r).Thrifty)
    (hexhausted : ∀ m, m.budget < 0 → (f (.error .exhausted)).Overdraws m) :
    (attempt x >>= f).Costly := by
  intro m
  rcases hx m with ⟨m', hm, hneg⟩ | ⟨h, hcost⟩
  · exact .inl (.after (attempt_error hm) (hexhausted m' hneg))
  · obtain ⟨r, hr, htry⟩ := h.attempted
    exact (hf r hr _).imp (.after htry) fun hf =>
      ⟨h.attempt.after htry hf, hf.isDearer_after htry hcost⟩

theorem paysFor (h : x.Costly) (p : α → Prop) : x.PaysFor p := by
  refine ⟨h.thrifty, fun {m a m'} hm _ => ?_⟩
  rcases h m with ⟨_, hx, _⟩ | ⟨_, hfinal, hless⟩
  · rw [hm] at hx
    cases hx
  · rw [hm] at hfinal hless
    exact ⟨hfinal, hless⟩

end Costly

namespace PaysFor

variable {p : α → Prop} {q : β → Prop}

theorem pure {a : α} (h : ¬ p a) : (Pure.pure a : Eval α).PaysFor p :=
  ⟨.pure a, fun hm ha => by cases hm; exact absurd ha h⟩

/-- The step may be in the second part. -/
theorem after (hx : x.Thrifty) (hf : ∀ a, (f a).PaysFor q) : (x >>= f).PaysFor q := by
  refine ⟨hx.bind fun a => (hf a).thrifty, fun {m b m''} hm hb => ?_⟩
  cases hxm : x m with
  | error s m' =>
    rw [bind_error hxm] at hm
    cases hm
  | ok a m' =>
    rw [bind_ok hxm] at hm
    obtain ⟨hfinal, hless⟩ := (hf a).pays hm hb
    rcases hx m with ⟨_, hover, _⟩ | h
    · rw [hxm] at hover
      cases hover
    · have hspends := h.spends
      rw [hxm] at hspends
      change m'.budget ≤ m.budget at hspends
      exact ⟨hfinal, Int.lt_of_lt_of_le hless hspends⟩

/-- The step may be in the first part. -/
theorem bind (hx : x.PaysFor fun _ => True) (hf : ∀ a, (f a).Thrifty) : (x >>= f).PaysFor q := by
  refine ⟨hx.thrifty.bind hf, fun {m b m''} hm _ => ?_⟩
  cases hxm : x m with
  | error s m' =>
    rw [bind_error hxm] at hm
    cases hm
  | ok a m' =>
    rcases hf a m' with ⟨_, hover, _⟩ | h
    · rw [bind_ok hxm, hover] at hm
      cases hm
    · have hdearer := h.isDearer_after hxm (hx.pays hxm trivial)
      rwa [hm] at hdearer

theorem get_bind {f : Machine → Eval β} (hblind : ∀ m k, f (m.refund k) = f m)
    (hf : ∀ m, (f m).PaysFor q) : ((get : Eval Machine) >>= f).PaysFor q :=
  ⟨.get_bind hblind fun m => (hf m).thrifty, fun {m _ _} hm hb => (hf m).pays (m := m) hm hb⟩

end PaysFor

theorem costly_tick : tick.Costly := by
  intro m
  by_cases h : m.budget - 1 < 0
  · refine .inl ⟨{ m with budget := m.budget - 1 }, ?_, h⟩
    show (if m.budget - 1 < 0 then _ else _ : Eval Unit) _ = _
    rw [if_pos h]
    rfl
  · have hrun : ∀ k : Nat, tick (m.refund k) = .ok () { m with budget := m.budget + k - 1 } := by
      intro k
      show (if m.budget + k - 1 < 0 then _ else _ : Eval Unit) _ = _
      rw [if_neg (by omega)]
      rfl
    have h0 : tick m = .ok () { m with budget := m.budget - 1 } := by
      show (if m.budget - 1 < 0 then _ else _ : Eval Unit) _ = _
      rw [if_neg h]
      rfl
    refine .inr ⟨⟨fun _ => ?_, ?_, ?_, fun k => ?_⟩, ?_⟩ <;> rw [h0]
    · exact fun h => by cases h
    · show m.budget - 1 ≤ m.budget
      omega
    · show 0 ≤ m.budget - 1 ∨ m.budget - 1 = m.budget
      omega
    · rw [hrun k]
      have : m.budget + k - 1 = m.budget - 1 + k := by omega
      rw [this]
      rfl
    · show 0 ≤ m.budget - 1 ∧ m.budget - 1 < m.budget
      omega

/-! ### Loops -/

section

variable {pass : α → Eval (Option α)}

theorem iterate_some {n : Nat} {a b : α} {m m' : Machine} (h : pass a m = .ok (some b) m') :
    iterate pass (n + 1) a m = iterate pass n b m' := bind_ok h

theorem iterate_none {n : Nat} {a : α} {m m' : Machine} (h : pass a m = .ok none m') :
    iterate pass (n + 1) a m = .ok () m' := bind_ok h

theorem iterate_error {n : Nat} {a : α} {s : Signal} {m m' : Machine}
    (h : pass a m = .error s m') : iterate pass (n + 1) a m = .error s m' := bind_error h

/-- The bound on the passes of a loop does not matter if it exceeds the budget, since every pass
that is followed by another costs a step. -/
theorem iterate_cases (h : ∀ a, (pass a).PaysFor fun next => next.isSome) :
    ∀ (n : Nat) (a : α) (m : Machine), 0 < n → m.budget < n →
      (iterate pass n a).Overdraws m ∨
        (iterate pass n a).Affords m ∧
          ∀ (k n' : Nat), 0 < n' → m.budget + k < n' →
            iterate pass n' a (m.refund k) = (iterate pass n a m).refund k
  | 0, _, _, hn, _ => absurd hn (Nat.lt_irrefl 0)
  | n + 1, a, m, _, hm => by
    rcases (h a).thrifty m with hover | hafford
    · exact .inl hover.bind
    cases hpass : pass a m with
    | error s m' =>
      refine .inr ⟨hafford.bind_error hpass, fun k n' hn' _ => ?_⟩
      obtain ⟨n', rfl⟩ : ∃ j, n' = j + 1 := ⟨n' - 1, by omega⟩
      have hmore := hafford.refund k
      rw [hpass] at hmore
      rw [iterate_error hpass, iterate_error hmore]
      rfl
    | ok next m' =>
      cases next with
      | none =>
        rcases Thrifty.pure () m' with ⟨_, hover, _⟩ | hend
        · cases hover
        refine .inr ⟨hafford.after hpass hend, fun k n' hn' _ => ?_⟩
        obtain ⟨n', rfl⟩ : ∃ j, n' = j + 1 := ⟨n' - 1, by omega⟩
        have hmore := hafford.refund k
        rw [hpass] at hmore
        rw [iterate_none hpass, iterate_none hmore]
        rfl
      | some b =>
        obtain ⟨hfinal, hless⟩ := (h a).pays hpass rfl
        refine (iterate_cases h n b m' (by omega) (by omega)).imp (.after hpass) fun hrest => ?_
        refine ⟨hafford.after hpass hrest.1, fun k n' hn' hk => ?_⟩
        obtain ⟨n', rfl⟩ : ∃ j, n' = j + 1 := ⟨n' - 1, by omega⟩
        have hmore := hafford.refund k
        rw [hpass] at hmore
        rw [iterate_some hpass, iterate_some hmore]
        exact hrest.2 k n' (by omega) (by omega)

theorem Thrifty.loop (h : ∀ a, (pass a).PaysFor fun next => next.isSome) (a : α) :
    (Eval.loop pass a).Thrifty := by
  intro m
  have hrun : ∀ m, Eval.loop pass a m = iterate pass (m.budget.toNat + 1) a m := fun _ => rfl
  rcases iterate_cases h (m.budget.toNat + 1) a m (by omega) (by omega) with hover | ⟨h, hmore⟩
  · exact .inl hover
  · refine .inr ⟨h.unexhausted, h.spends, h.solvent, fun k => ?_⟩
    rw [hrun, hrun]
    have : (m.refund k).budget = m.budget + k := rfl
    exact hmore k _ (by omega) (by omega)

end

end Eval

end ScopeLowering
