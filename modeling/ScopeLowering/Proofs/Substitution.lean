import Mathlib.Data.List.Basic
import ScopeLowering.Proofs.Overlap

/-!
# Edits are made all at once

`applyEdits` splices edits into a text one after the other, and each of them looks for its keyword
in a text that others have changed before it. The last one goes first. So as long as the edits stand
apart, what an edit looks at is still the text as it was, and the outcome is that of making all
edits at once (`applyEdits_substitutes`): no order of the edits matters.

## The model

`substituted` goes through the characters of a text and asks no edit to wait for another. A
character gives way if an edit covers it, and a new keyword stands where its edit starts. The
splices are followed from the end of the text: the part before the last splice is as it was, and the
part after it is finished.
-/

namespace ScopeLowering

/-! ### Edits on a text -/

namespace Edit

/-- Does the edit start at this place? -/
def startsAt (e : Edit) (i : Nat) : Bool := e.span.left = (i : Int)

/-- Does the edit replace the character at this place? -/
def covers (e : Edit) (i : Nat) : Bool := e.span.left ≤ i && i < e.span.right

/-- Does the text hold the keyword that the edit replaces? -/
def fits (text : List Char) (e : Edit) : Bool :=
  Text.slice text e.span.left e.span.right = e.old.toList

/-- The edit replaces some keyword on a stretch of text that is not empty. -/
structure IsProper (e : Edit) : Prop where
  left : 0 ≤ e.span.left
  right : e.span.left < e.span.right
  old : e.old ≠ ""

instance (e : Edit) : Decidable e.IsProper :=
  decidable_of_iff (0 ≤ e.span.left ∧ e.span.left < e.span.right ∧ e.old ≠ "")
    ⟨fun h => ⟨h.1, h.2.1, h.2.2⟩, fun h => ⟨h.left, h.right, h.old⟩⟩

/-- The complaint of an edit about a text that does not hold its keyword. -/
def mismatch (text : List Char) (e : Edit) : Mismatch :=
  ⟨e, String.ofList (Text.slice text e.span.left e.span.right)⟩

end Edit

/-- What becomes of a character: the new keywords of the edits that start here, and then the
character itself, unless an edit covers it. -/
def replaced (edits : List Edit) (c : Char) (i : Nat) : List Char :=
  (edits.flatMap fun e => if e.startsAt i then e.new.toList else []) ++
    if edits.any (·.covers i) then [] else [c]

/-- The text with all edits made at once. -/
def substituted (text : List Char) (edits : List Edit) : List Char :=
  text.zipIdx.flatMap fun p => replaced edits p.1 p.2

/-! ### Characters before and behind an edit -/

section Replaced

variable {e : Edit} {es : List Edit}

/-- An edit does nothing to the characters before it. -/
theorem replaced_cons_of_before (c : Char) {i : Nat} (h : i < e.span.left) :
    replaced (e :: es) c i = replaced es c i := by
  have hstart : e.startsAt i = false := by
    rw [Edit.startsAt, decide_eq_false_iff_not]
    omega
  have hcover : e.covers i = false := by
    rw [Edit.covers, decide_eq_false (by omega), Bool.false_and]
  simp [replaced, hstart, hcover]

/-- The last edit puts its keyword where it starts, drops the other characters that it covers, and
keeps those behind it. -/
theorem replaced_cons_of_behind (c : Char) {i : Nat} (hw : ∀ a ∈ es, a.IsProper)
    (hes : ∀ a ∈ es, a.span.right ≤ e.span.left) (h : e.span.left ≤ i) :
    replaced (e :: es) c i =
      (if e.span.left = (i : Int) then e.new.toList else []) ++
        if i < e.span.right then [] else [c] := by
  have hstarts : (es.flatMap fun a => if a.startsAt i then a.new.toList else []) = [] := by
    refine List.flatMap_eq_nil_iff.mpr fun a ha => if_neg ?_
    have := (hw a ha).right
    have := hes a ha
    rw [Edit.startsAt, decide_eq_true_eq]
    omega
  have hcovers : es.any (·.covers i) = false := by
    refine List.any_eq_false.mpr fun a ha => ?_
    have := hes a ha
    rw [Edit.covers, decide_eq_false (p := (i : Int) < _) (by omega), Bool.and_false]
    exact Bool.false_ne_true
  rw [replaced, List.flatMap_cons, List.any_cons, hstarts, hcovers]
  simp [Edit.startsAt, Edit.covers, h]

end Replaced

/-- **Substitution at the last edit.** The text before it is left to the other edits, the text
behind it stays, and its keyword stands in between. -/
theorem substituted_cons {e : Edit} {es : List Edit} (hw : ∀ a ∈ es, a.IsProper)
    (hes : ∀ a ∈ es, a.span.right ≤ e.span.left) {pre mid suf : List Char} {c : Char}
    (hleft : e.span.left = (pre.length : Int))
    (hmid : (pre.length + (c :: mid).length : Int) ≤ e.span.right)
    (hsuf : suf = [] ∨ e.span.right = (pre.length + (c :: mid).length : Int)) :
    substituted (pre ++ (c :: mid) ++ suf) (e :: es) =
      substituted pre es ++ e.new.toList ++ suf := by
  have hpre : (pre.zipIdx.flatMap fun p => replaced (e :: es) p.1 p.2) = substituted pre es := by
    refine List.flatMap_congr fun p hp => replaced_cons_of_before p.1 ?_
    have := List.snd_lt_of_mem_zipIdx hp
    omega
  have hmid : (((c :: mid).zipIdx pre.length).flatMap fun p => replaced (e :: es) p.1 p.2) =
      e.new.toList := by
    have hrest : ((mid.zipIdx (pre.length + 1)).flatMap fun p => replaced (e :: es) p.1 p.2) =
        [] := by
      refine List.flatMap_eq_nil_iff.mpr fun p hp => ?_
      have hle := List.le_snd_of_mem_zipIdx hp
      have hlt := List.snd_lt_add_of_mem_zipIdx hp
      rw [List.length_cons] at hmid
      rw [replaced_cons_of_behind _ hw hes (by omega), if_neg (by omega), if_pos (by omega)]
      rfl
    rw [List.length_cons] at hmid
    rw [List.zipIdx_cons, List.flatMap_cons, hrest, replaced_cons_of_behind _ hw hes (by omega),
      if_pos hleft, if_pos (by omega), List.append_nil, List.append_nil]
  have hsuf : ((suf.zipIdx (pre ++ c :: mid).length).flatMap fun p => replaced (e :: es) p.1 p.2) =
      suf := by
    rcases hsuf with rfl | hright
    · rfl
    · have hkept : ∀ p ∈ suf.zipIdx (pre ++ c :: mid).length,
          replaced (e :: es) p.1 p.2 = [p.1] := by
        intro p hp
        have hle := List.le_snd_of_mem_zipIdx hp
        rw [List.length_append] at hle
        rw [List.length_cons] at hright hle
        rw [replaced_cons_of_behind _ hw hes (by omega), if_neg (by omega), if_neg (by omega)]
        rfl
      rw [List.flatMap_congr hkept]
      exact (List.flatMap_pure_eq_map Prod.fst _).trans (List.zipIdx_map_fst _ _)
  rw [substituted, List.zipIdx_append, List.flatMap_append, List.zipIdx_append, List.flatMap_append,
    hpre, Nat.zero_add, Nat.zero_add, hmid, hsuf]

theorem substituted_nil (text : List Char) : substituted text [] = text :=
  (List.flatMap_pure_eq_map Prod.fst _).trans (List.zipIdx_map_fst _ _)

/-- Where edits stand apart, at most one of them starts at a place. -/
theorem flatMap_startsAt {es : List Edit} (hw : ∀ a ∈ es, a.IsProper)
    (hapart : es.Pairwise Edit.Apart) {e : Edit} (he : e ∈ es) {i : Nat}
    (hi : e.startsAt i = true) :
    (es.flatMap fun a => if a.startsAt i then a.new.toList else []) = e.new.toList := by
  obtain ⟨before, behind, rfl⟩ := List.append_of_mem he
  rw [List.pairwise_append, List.pairwise_cons] at hapart
  obtain ⟨_, ⟨hbehind, _⟩, hbefore⟩ := hapart
  have hother : ∀ a ∈ before ++ behind, a.startsAt i = false := by
    intro a ha
    have ha' : e.Apart a := (List.mem_append.mp ha).elim
      (fun ha => (hbefore a ha e List.mem_cons_self).symm) (hbehind a)
    have hawide := (hw a (by grind)).right
    have hewide := (hw e (by simp)).right
    rw [Edit.startsAt, decide_eq_true_eq] at hi
    rw [Edit.startsAt, decide_eq_false_iff_not]
    rcases ha' with h | h <;> omega
  have hnil : ∀ es : List Edit, (∀ a ∈ es, a.startsAt i = false) →
      (es.flatMap fun a => if a.startsAt i then a.new.toList else []) = [] := fun es h =>
    List.flatMap_eq_nil_iff.mpr fun a ha => if_neg (by simp [h a ha])
  rw [List.flatMap_append, List.flatMap_cons, if_pos hi,
    hnil before fun a ha => hother a (by simp [ha]),
    hnil behind fun a ha => hother a (by simp [ha]), List.append_nil, List.nil_append]

/-- The order in which edits are listed does not matter. -/
theorem substituted_perm {es es' : List Edit} (hw : ∀ a ∈ es, a.IsProper)
    (hapart : es.Pairwise Edit.Apart) (h : es'.Perm es) (text : List Char) :
    substituted text es' = substituted text es := by
  have hw' : ∀ a ∈ es', a.IsProper := fun a ha => hw a (h.mem_iff.mp ha)
  have hapart' : es'.Pairwise Edit.Apart := (h.pairwise_iff Edit.Apart.symm).mpr hapart
  refine List.flatMap_congr fun p _ => ?_
  have hcovers : es'.any (·.covers p.2) = es.any (·.covers p.2) := by
    rw [Bool.eq_iff_iff, List.any_eq_true, List.any_eq_true]
    simp only [h.mem_iff]
  have hstarts : (es'.flatMap fun a => if a.startsAt p.2 then a.new.toList else []) =
      es.flatMap fun a => if a.startsAt p.2 then a.new.toList else [] := by
    by_cases hsome : ∃ e ∈ es, e.startsAt p.2 = true
    · obtain ⟨e, he, hi⟩ := hsome
      rw [flatMap_startsAt hw hapart he hi, flatMap_startsAt hw' hapart' (h.mem_iff.mpr he) hi]
    · push Not at hsome
      rw [List.flatMap_eq_nil_iff.mpr fun a ha => if_neg (hsome a (h.mem_iff.mp ha)),
        List.flatMap_eq_nil_iff.mpr fun a ha => if_neg (hsome a ha)]
  rw [replaced, replaced, hstarts, hcovers]

/-! ### One splice after the other -/

namespace Text

variable {l r : Int} (hl : 0 ≤ l) (hr : 0 ≤ r)

include hl hr

theorem slice_eq (cs : List Char) : slice cs l r = (cs.take r.toNat).drop l.toNat := by
  have hr' : cs.take (min r.toNat cs.length) = cs.take r.toNat := by
    rw [List.take_eq_take_iff]
    omega
  rw [slice, clampOffset, clampOffset, if_neg (by omega), if_neg (by omega), hr',
    List.drop_eq_drop_iff, List.length_take]
  omega

theorem splice_eq (cs new : List Char) :
    splice cs l r new = cs.take l.toNat ++ new ++ cs.drop r.toNat := by
  have hl' : cs.take (min l.toNat cs.length) = cs.take l.toNat := by
    rw [List.take_eq_take_iff]
    omega
  have hr' : cs.drop (min r.toNat cs.length) = cs.drop r.toNat := by
    rw [List.drop_eq_drop_iff]
    omega
  rw [splice, clampOffset, clampOffset, if_neg (by omega), if_neg (by omega), hl', hr']

end Text

namespace Edit.IsProper

variable {e : Edit} (h : e.IsProper)

include h

theorem slice_eq (cs : List Char) : Text.slice cs e.span.left e.span.right =
    (cs.take e.span.right.toNat).drop e.span.left.toNat :=
  Text.slice_eq h.left (by have := h.left; have := h.right; omega) cs

/-- An edit does not see what lies behind it. -/
theorem slice_append {head tail : List Char}
    (hright : tail = [] ∨ e.span.right ≤ (head.length : Int)) :
    Text.slice (head ++ tail) e.span.left e.span.right =
      Text.slice head e.span.left e.span.right := by
  rcases hright with rfl | hright
  · rw [List.append_nil]
  · rw [h.slice_eq, h.slice_eq, List.take_append_of_le_length (by omega)]

/-- A text that an edit fits falls into what is before its keyword, the keyword, and what is behind
it. -/
theorem exists_split {head : List Char} (hfits : e.fits head = true) :
    ∃ pre c mid suf, head = pre ++ (c :: mid) ++ suf ∧
      pre = head.take e.span.left.toNat ∧ suf = head.drop e.span.right.toNat ∧
      e.span.left = (pre.length : Int) ∧
      (pre.length + (c :: mid).length : Int) ≤ e.span.right ∧
      (suf = [] ∨ e.span.right = (pre.length + (c :: mid).length : Int)) := by
  have hleft := h.left
  have hright := h.right
  rw [fits, decide_eq_true_eq, h.slice_eq] at hfits
  cases hkeyword : (head.take e.span.right.toNat).drop e.span.left.toNat with
  | nil =>
    rw [hkeyword] at hfits
    exact absurd (String.toList_eq_nil_iff.mp hfits.symm) h.old
  | cons c mid =>
    have hlength := congrArg List.length hkeyword
    simp only [List.length_drop, List.length_take, List.length_cons] at hlength
    have hhead : head = head.take e.span.left.toNat ++ (c :: mid) ++
        head.drop e.span.right.toNat :=
      calc head = head.take e.span.right.toNat ++ head.drop e.span.right.toNat :=
            (List.take_append_drop _ _).symm
        _ = (head.take e.span.right.toNat).take e.span.left.toNat ++
              (head.take e.span.right.toNat).drop e.span.left.toNat ++
              head.drop e.span.right.toNat := by rw [List.take_append_drop e.span.left.toNat]
        _ = _ := by rw [List.take_take, Nat.min_eq_left (by omega), hkeyword]
    refine ⟨_, c, mid, _, hhead, rfl, rfl, ?_, ?_, ?_⟩
    · rw [List.length_take]
      omega
    · rw [List.length_take, List.length_cons]
      omega
    · rw [List.drop_eq_nil_iff, List.length_take, List.length_cons]
      omega

/-- An edit that fits leaves the text before its keyword as it is. -/
theorem applyEdit_split {head tail pre suf : List Char} (hfits : e.fits head = true)
    (hright : tail = [] ∨ e.span.right ≤ (head.length : Int))
    (hpre : pre = head.take e.span.left.toNat) (hsuf : suf = head.drop e.span.right.toNat) :
    applyEdit (head ++ tail) e = .ok (pre ++ (e.new.toList ++ suf ++ tail)) := by
  have hleft := h.left
  have hwide := h.right
  rw [fits, decide_eq_true_eq] at hfits
  rw [applyEdit, h.slice_append hright, if_pos hfits, Text.splice_eq hleft (by omega), hpre, hsuf]
  rcases hright with rfl | hright
  · simp only [List.append_nil, List.append_assoc]
  · rw [List.take_append_of_le_length (by omega), List.drop_append_of_le_length (by omega),
      List.append_assoc, List.append_assoc]

theorem applyEdit_mismatch {head tail : List Char} (hfits : e.fits head = false)
    (hright : tail = [] ∨ e.span.right ≤ (head.length : Int)) :
    applyEdit (head ++ tail) e = .error (e.mismatch head) := by
  rw [fits, decide_eq_false_iff_not] at hfits
  rw [applyEdit, h.slice_append hright, if_neg hfits, mismatch]

end Edit.IsProper

/-- **Splicing from the end.** Nothing behind the text `head` is touched any more. Edits of `head`,
the last one first, either all fit it and are made, or one that does not fit complains. -/
theorem foldlM_applyEdit {es : List Edit} (hw : ∀ e ∈ es, e.IsProper)
    (hdown : es.Pairwise fun a b => b.span.right ≤ a.span.left) (head tail : List Char)
    (hright : tail = [] ∨ ∀ e ∈ es, e.span.right ≤ (head.length : Int)) :
    ((∀ e ∈ es, e.fits head = true) ∧
      es.foldlM applyEdit (head ++ tail) = .ok (substituted head es ++ tail)) ∨
    ∃ e ∈ es, e.fits head = false ∧
      es.foldlM applyEdit (head ++ tail) = .error (e.mismatch head) := by
  induction es generalizing head tail with
  | nil => exact .inl ⟨List.forall_mem_nil _, by rw [substituted_nil]; rfl⟩
  | cons e es ih =>
    obtain ⟨he, hw⟩ := List.forall_mem_cons.mp hw
    obtain ⟨hes, hdown⟩ := List.pairwise_cons.mp hdown
    have hright := hright.imp_right fun h => h e List.mem_cons_self
    rw [List.foldlM_cons]
    cases hfits : e.fits head with
    | false =>
      refine .inr ⟨e, List.mem_cons_self, hfits, ?_⟩
      rw [he.applyEdit_mismatch hfits hright]
      rfl
    | true =>
      obtain ⟨pre, c, mid, suf, hhead, hpre, hsuf, hleft, hmid, hend⟩ := he.exists_split hfits
      have hbefore : ∀ a ∈ es, a.span.right ≤ (pre.length : Int) := fun a ha => hleft ▸ hes a ha
      -- the edits that are left see no further than the text before this one
      have hsame : ∀ a ∈ es, Text.slice head a.span.left a.span.right =
          Text.slice pre a.span.left a.span.right := fun a ha => by
        rw [hhead, List.append_assoc, (hw a ha).slice_append (.inr (hbefore a ha))]
      have hsubst : substituted head (e :: es) = substituted pre es ++ e.new.toList ++ suf := by
        rw [hhead, substituted_cons hw hes hleft hmid hend]
      rw [he.applyEdit_split hfits hright hpre hsuf]
      rcases ih hw hdown pre (e.new.toList ++ suf ++ tail) (.inr hbefore) with
        ⟨hall, hok⟩ | ⟨a, ha, hmiss, herror⟩
      · refine .inl ⟨List.forall_mem_cons.mpr ⟨hfits, fun a ha => ?_⟩, ?_⟩
        · rw [Edit.fits, hsame a ha]
          exact hall a ha
        · refine hok.trans ?_
          simp only [hsubst, List.append_assoc]
      · refine .inr ⟨a, List.mem_cons_of_mem e ha, ?_, ?_⟩
        · rw [Edit.fits, hsame a ha]
          exact hmiss
        · rw [Edit.mismatch, hsame a ha]
          exact herror

/-! ### All edits -/

/-- Edits that stand apart, the last one first. -/
theorem pairwise_latestFirst {edits : List Edit} (hw : ∀ e ∈ edits, e.IsProper)
    (hapart : edits.Pairwise Edit.Apart) :
    (edits.mergeSort fun a b => b.isOrdered a).Pairwise
      fun a b => b.span.right ≤ a.span.left := by
  have hperm := List.mergeSort_perm edits fun a b => b.isOrdered a
  have hsorted : (edits.mergeSort fun a b => b.isOrdered a).Pairwise fun a b => b.isOrdered a :=
    List.pairwise_mergeSort (fun a b c hab hbc => Edit.isOrdered_trans c b a hbc hab)
      (fun a b => Edit.isOrdered_total b a) edits
  have hboth := hsorted.and ((hperm.pairwise_iff Edit.Apart.symm).mpr hapart)
  refine hboth.imp_of_mem fun {a b} ha hb hab => ?_
  have hle := Edit.left_le_of_isOrdered hab.1
  have ha := (hw a (hperm.mem_iff.mp ha)).right
  have hb := (hw b (hperm.mem_iff.mp hb)).right
  rcases hab.2 with h | h <;> omega

/-- There is one way to put edits that stand apart in order. -/
theorem latestFirst_perm {edits edits' : List Edit} (hw : ∀ e ∈ edits, e.IsProper)
    (hapart : edits.Pairwise Edit.Apart) (h : edits'.Perm edits) :
    (edits'.mergeSort fun a b => b.isOrdered a) = edits.mergeSort fun a b => b.isOrdered a := by
  have hw' : ∀ e ∈ edits', e.IsProper := fun e he => hw e (h.mem_iff.mp he)
  have hapart' : edits'.Pairwise Edit.Apart := (h.pairwise_iff Edit.Apart.symm).mpr hapart
  refine List.Perm.eq_of_pairwise (fun a b ha hb hab hba => ?_) (pairwise_latestFirst hw' hapart')
    (pairwise_latestFirst hw hapart)
    ((List.mergeSort_perm _ _).trans (h.trans (List.mergeSort_perm _ _).symm))
  have ha := (hw' a (List.mem_mergeSort.mp ha)).right
  have hb := (hw b (List.mem_mergeSort.mp hb)).right
  omega

/-- **Edits are made all at once.** Say that edits stand apart, each on a stretch of text that is
not empty and does not start before the text, and with some keyword to replace. They fail just if
the text as it is given does not hold one of the keywords, and the complaint is about such an edit
and quotes that text. Otherwise each keyword makes way for the new one and all other characters
stay, in their order. In whatever order the edits are given, the outcome is the same. -/
theorem applyEdits_substitutes (text : String) (edits : List Edit)
    (hw : ∀ e ∈ edits, e.IsProper) (hapart : edits.Pairwise Edit.Apart) :
    ((∃ m, applyEdits text edits = .error m) ↔
      ∃ e ∈ edits, Text.slice text.toList e.span.left e.span.right ≠ e.old.toList) ∧
    (∀ m, applyEdits text edits = .error m → ∃ e ∈ edits,
      Text.slice text.toList e.span.left e.span.right ≠ e.old.toList ∧
      m = ⟨e, String.ofList (Text.slice text.toList e.span.left e.span.right)⟩) ∧
    ((∀ e ∈ edits, Text.slice text.toList e.span.left e.span.right = e.old.toList) →
      applyEdits text edits = .ok (String.ofList (substituted text.toList edits))) ∧
    ∀ edits', edits'.Perm edits → applyEdits text edits' = applyEdits text edits := by
  have hperm := List.mergeSort_perm edits fun a b => b.isOrdered a
  have hrun := foldlM_applyEdit (fun e he => hw e (hperm.mem_iff.mp he))
    (pairwise_latestFirst hw hapart) text.toList [] (.inl rfl)
  simp only [List.append_nil, hperm.mem_iff, substituted_perm hw hapart hperm, Edit.fits,
    decide_eq_true_eq, decide_eq_false_iff_not] at hrun
  have hsame : ∀ edits', edits'.Perm edits → applyEdits text edits' = applyEdits text edits :=
    fun edits' h => by rw [applyEdits, applyEdits, latestFirst_perm hw hapart h]
  rcases hrun with ⟨hall, hok⟩ | ⟨e, he, hmiss, herror⟩
  · have hok : applyEdits text edits = .ok (String.ofList (substituted text.toList edits)) := by
      rw [applyEdits, hok]
      rfl
    refine ⟨⟨fun ⟨m, hm⟩ => ?_, fun ⟨e, he, hmiss⟩ => absurd (hall e he) hmiss⟩, fun m hm => ?_,
      fun _ => hok, hsame⟩
    · cases hok.symm.trans hm
    · cases hok.symm.trans hm
  · have herror : applyEdits text edits = .error (e.mismatch text.toList) := by
      rw [applyEdits, herror]
      rfl
    refine ⟨⟨fun _ => ⟨e, he, hmiss⟩, fun _ => ⟨_, herror⟩⟩, fun m hm => ?_,
      fun hall => absurd (hall e he) hmiss, hsame⟩
    cases herror.symm.trans hm
    exact ⟨e, he, hmiss, rfl⟩

/-- Two edits side by side: one takes its keyword away, and the other reaches past the end of a text
of six characters. -/
def adjacentEdits : List Edit :=
  [⟨.of 0 3, "var", "", []⟩, ⟨.of 3 9, "var", "const", []⟩]

theorem applyEdits_substitutes_adjacentEdits :
    (∀ e ∈ adjacentEdits, e.IsProper) ∧ adjacentEdits.Pairwise Edit.Apart ∧
    applyEdits "varvar" adjacentEdits = .ok "const" ∧
    applyEdits "varvar" adjacentEdits.reverse = .ok "const" ∧
    ∃ m, applyEdits "varlet" adjacentEdits = .error m := by
  have hw : ∀ e ∈ adjacentEdits, e.IsProper := by decide
  have hapart : adjacentEdits.Pairwise Edit.Apart := by decide
  have hmade := applyEdits_substitutes "varvar" adjacentEdits hw hapart
  have hok : applyEdits "varvar" adjacentEdits = .ok "const" := hmade.2.2.1 (by decide)
  exact ⟨hw, hapart, hok, (hmade.2.2.2 _ (List.reverse_perm _)).trans hok,
    (applyEdits_substitutes "varlet" adjacentEdits hw hapart).1.mpr (by decide)⟩

end ScopeLowering
