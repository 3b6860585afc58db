import ScopeLowering.Proofs.Rendering

/-!
# Two styles of offsets

The nodes of a document say where they stand by a `range` of two offsets, or by a `start` and an
`end`. Reading takes either (`Document.spanOf`), and so the style of a document does not matter: if
it is changed throughout, reading gives the same tree, or it fails in the same way
(`Document.read_restyle`).

## The model

`Json.restyle` changes the style of every node of a document. What a node holds besides other nodes
is left alone: its type, a name, an operator, the kind of a declaration or a property, the value of
a literal. As the name of a property may be given by the value of any key, the value of a key is
left alone too.

A failure may quote the document, and then its words depend on the style. Two readings are *alike*
if they give the same tree, or the same failure but for the words that say why a document is no tree
(`Document.Alike`).
-/

namespace ScopeLowering

/-! ### Restyled documents -/

namespace Json

/-- The fields that say where a node stands. -/
def placeNames : List String := ["range", "start", "end"]

/-- The fields that hold no nodes, in a node of any type. -/
def dataNames : List String := ["type", "name", "operator", "kind", "raw"]

/-- Does a field of a node hold something else than nodes? For its `value` that depends on its type,
and on whether it is the key of a property. -/
def isDatum (isKey : Bool) (type : Json) (name : String) : Bool :=
  placeNames.contains name || dataNames.contains name ||
    (name == "value" && (isKey || type.isText "Literal"))

/-- The fields with the offsets of a `range` as `start` and `end`. -/
def spreadRange (fields : List (String × Json)) : List (String × Json) :=
  match find? "range" fields with
  | some (arr [l, r]) =>
    ("start", l) :: ("end", r) :: fields.filter fun f => !placeNames.contains f.1
  | _ => fields

mutual

/-- The value with its nodes in the other style. Whether it is the key of a property matters for
its own `value`. -/
def restyle (isKey : Bool) (v : Json) : Json :=
  match v with
  | arr items => arr (restyleAll isKey items)
  | obj fields => obj (spreadRange (restyleFields isKey ((find? "type" fields).getD null) fields))
  | v => v

/-- Some values with their nodes in the other style. -/
def restyleAll (isKey : Bool) (items : List Json) : List Json :=
  match items with
  | [] => []
  | v :: rest => restyle isKey v :: restyleAll isKey rest

/-- The fields of a node of this type, with the nodes in them in the other style. -/
def restyleFields (isKey : Bool) (type : Json) (fields : List (String × Json)) :
    List (String × Json) :=
  match fields with
  | [] => []
  | (name, v) :: rest =>
    (name, if isDatum isKey type name then v else restyle (name == "key") v) ::
      restyleFields isKey type rest

end

/-- The fields of a node in the other style. -/
def restyledFields (isKey : Bool) (fields : List (String × Json)) : List (String × Json) :=
  spreadRange (restyleFields isKey ((find? "type" fields).getD null) fields)

section

variable {isKey : Bool} {type : Json} {fields : List (String × Json)} {name : String}

theorem restyle_obj : restyle isKey (obj fields) = obj (restyledFields isKey fields) := by
  rw [restyle, restyledFields]

theorem restyleAll_eq (items : List Json) : restyleAll isKey items = items.map (restyle isKey) := by
  induction items with
  | nil => rw [restyleAll, List.map_nil]
  | cons v rest ih => rw [restyleAll, ih, List.map_cons]

theorem find?_restyleFields : find? name (restyleFields isKey type fields) =
    (find? name fields).map fun v =>
      if isDatum isKey type name then v else restyle (name == "key") v := by
  induction fields with
  | nil => rfl
  | cons f rest ih =>
    obtain ⟨k, v⟩ := f
    rw [restyleFields, find?, find?]
    by_cases hk : k = name
    · simp [hk]
    · simp [hk, ih]

theorem find?_filter (keep : String → Bool) :
    find? name (fields.filter fun f => keep f.1) =
      if keep name then find? name fields else none := by
  induction fields with
  | nil => simp [find?]
  | cons f rest ih =>
    obtain ⟨k, v⟩ := f
    by_cases hk : k = name
    · subst hk
      by_cases hkeep : keep k = true
      · simp [hkeep, find?]
      · simpa [hkeep] using ih
    · by_cases hkeep : keep k = true
      · simpa [hkeep, find?, hk] using ih
      · simpa [hkeep, find?, hk] using ih

theorem find?_spreadRange (h : name ∉ placeNames) :
    find? name (spreadRange fields) = find? name fields := by
  unfold spreadRange
  split
  · have hstart : ¬("start" == name) = true := fun hk => h (eq_of_beq hk ▸ by decide)
    have hend : ¬("end" == name) = true := fun hk => h (eq_of_beq hk ▸ by decide)
    rw [find?, if_neg hstart, find?, if_neg hend, find?_filter (!placeNames.contains ·)]
    simp [h]
  · rfl

theorem isEmpty_spreadRange : (spreadRange fields).isEmpty = fields.isEmpty := by
  unfold spreadRange
  split
  · cases fields with
    | nil => contradiction
    | cons => rfl
  · rfl

theorem isEmpty_restyledFields (isKey : Bool) (fields : List (String × Json)) :
    (restyledFields isKey fields).isEmpty = fields.isEmpty := by
  rw [restyledFields, isEmpty_spreadRange]
  cases fields with
  | nil => rfl
  | cons f rest => rfl

theorem find?_restyledFields (h : name ∉ placeNames) :
    find? name (restyledFields isKey fields) = (find? name fields).map fun v =>
      if isDatum isKey ((find? "type" fields).getD null) name then v
      else restyle (name == "key") v := by
  rw [restyledFields, find?_spreadRange h, find?_restyleFields]

theorem find?_data (h : name ∈ dataNames) :
    find? name (restyledFields isKey fields) = find? name fields := by
  have hplace : name ∉ placeNames := fun hplace => by
    revert name
    decide
  rw [find?_restyledFields hplace]
  simp [isDatum, h]

/-- Does the field hold nodes in a node of any type, unless it is not there? -/
def isPart (name : String) : Bool := !(placeNames ++ dataNames ++ ["value", "key"]).contains name

theorem find?_part (h : isPart name = true) :
    find? name (restyledFields isKey fields) = (find? name fields).map (restyle false) := by
  simp only [isPart, List.contains_eq_mem, List.mem_append, List.mem_cons, List.not_mem_nil,
    or_false, Bool.not_eq_true', decide_eq_false_iff_not, not_or] at h
  obtain ⟨⟨hplace, hdata⟩, hvalue, hkey⟩ := h
  have hflag : (name == "key") = false := beq_false_of_ne hkey
  rw [find?_restyledFields hplace, hflag]
  simp [isDatum, hplace, hdata, hvalue]

theorem find?_key :
    find? "key" (restyledFields isKey fields) = (find? "key" fields).map (restyle true) := by
  rw [find?_restyledFields (by decide)]
  rfl

theorem find?_value (h : ((find? "type" fields).getD null).isText "Literal" = false) :
    find? "value" (restyledFields false fields) = (find? "value" fields).map (restyle false) := by
  rw [find?_restyledFields (by decide)]
  simp [isDatum, h, placeNames, dataNames]

theorem find?_value_of_datum
    (h : (isKey || ((find? "type" fields).getD null).isText "Literal") = true) :
    find? "value" (restyledFields isKey fields) = find? "value" fields := by
  rw [find?_restyledFields (by decide)]
  simp only [isDatum, h]
  simp

theorem offsetsOf_spreadRange :
    Document.offsetsOf (spreadRange fields) = Document.offsetsOf fields := by
  unfold spreadRange
  split
  · rename_i l r hrange
    have hnone : find? "range" (("start", l) :: ("end", r) ::
        fields.filter fun f => !placeNames.contains f.1) = none := by
      rw [find?, if_neg (by decide), find?, if_neg (by decide),
        find?_filter (!placeNames.contains ·)]
      rfl
    simp only [Document.offsetsOf, Document.get, hnone, hrange]
    rfl
  · rfl

/-- The offsets of a node stay the same. -/
theorem offsetsOf_restyledFields :
    Document.offsetsOf (restyledFields isKey fields) = Document.offsetsOf fields := by
  have hplace : ∀ type, ∀ name ∈ placeNames,
      Document.get (restyleFields isKey type fields) name = Document.get fields name := by
    intro type name h
    simp [Document.get, find?_restyleFields, isDatum, h]
  rw [restyledFields, offsetsOf_spreadRange, Document.offsetsOf, hplace _ "range" (by decide),
    hplace _ "start" (by decide), hplace _ "end" (by decide), Document.offsetsOf]

end

/-! ### Restyled values -/

theorem truthy_restyle (isKey : Bool) (v : Json) : (restyle isKey v).truthy = v.truthy := by
  cases v with
  | arr items => simp [restyle, restyleAll_eq, truthy]
  | obj fields => rw [restyle_obj, truthy, truthy, isEmpty_restyledFields]
  | _ => rfl

theorem isText_restyle (isKey : Bool) (s : String) (v : Json) :
    (restyle isKey v).isText s = v.isText s := by
  cases v with
  | arr | obj => simp [restyle, isText]
  | _ => rfl

theorem height_of_find? {fields : List (String × Json)} {name : String} {v : Json}
    (h : find? name fields = some v) : v.height ≤ heightFields fields := by
  induction fields with
  | nil => cases h
  | cons f rest ih =>
    rw [heightFields]
    unfold find? at h
    split at h
    · cases h
      exact Nat.le_max_left ..
    · exact Nat.le_trans (ih h) (Nat.le_max_right ..)

theorem height_pos (v : Json) : 0 < v.height := by
  cases v <;> simp [height]

end Json

namespace Document

open Json

/-! ### Readings that are alike -/

/-- The readings are the same, or both find that the document is no tree. -/
inductive Alike {α : Type} : Read α → Read α → Prop
  | same (x : Read α) : Alike x x
  | notTree (why why' : String) : Alike (.error (.notTree why)) (.error (.notTree why'))

namespace Alike

variable {α β : Type} {x y : Read α}

theorem bind {f g : α → Read β} (h : Alike x y) (hk : ∀ a, Alike (f a) (g a)) :
    Alike (x >>= f) (y >>= g) := by
  cases h with
  | same =>
    cases x with
    | ok a => exact hk a
    | error e => exact .same _
  | notTree why why' => exact .notTree why why'

theorem ite {c : Prop} [Decidable c] {x' y' : Read α} (h : c → Alike x y)
    (h' : ¬c → Alike x' y') : Alike (if c then x else x') (if c then y else y') := by
  split
  · exact h ‹_›
  · exact h' ‹_›

theorem mapM {γ : Type} {f' f : Json → Read γ} {r : Json → Json} {items : List Json}
    (h : ∀ v ∈ items, Alike (f' (r v)) (f v)) : Alike ((items.map r).mapM f') (items.mapM f) := by
  induction items with
  | nil => exact .same _
  | cons v rest ih =>
    obtain ⟨hv, hrest⟩ := List.forall_mem_cons.mp h
    rw [List.map_cons, List.mapM_cons, List.mapM_cons]
    exact hv.bind fun a => (ih hrest).bind fun as => .same _

end Alike

/-- The reading finds that the document is no tree. -/
def FindsNoTree {α : Type} (x : Read α) : Prop := ∃ why, x = .error (.notTree why)

theorem FindsNoTree.alike {α : Type} {x y : Read α} (hx : FindsNoTree x) (hy : FindsNoTree y) :
    Alike x y := by
  obtain ⟨why, rfl⟩ := hx
  obtain ⟨why', rfl⟩ := hy
  exact .notTree why why'

theorem FindsNoTree.bind {α β : Type} {x : Read α} (hx : FindsNoTree x) (k : α → Read β) :
    FindsNoTree (x >>= k) := by
  obtain ⟨why, rfl⟩ := hx
  exact ⟨why, rfl⟩

/-! ### Fields and spans -/

section

variable {isKey : Bool} {fields : List (String × Json)} {name : String}

theorem get_data (h : name ∈ dataNames) :
    get (restyledFields isKey fields) name = get fields name := by
  rw [get, find?_data h, get]

theorem need_data (h : name ∈ dataNames) :
    need (restyledFields isKey fields) name = need fields name := by
  rw [need, find?_data h, need]

theorem get_part (h : isPart name = true) :
    get (restyledFields isKey fields) name = restyle false (get fields name) := by
  rw [get, find?_part h, get]
  cases find? name fields <;> rfl

theorem truthy_part (h : isPart name = true) :
    (get (restyledFields isKey fields) name).truthy = (get fields name).truthy := by
  rw [get_part h, truthy_restyle]

theorem isText_type (s : String) :
    (get (restyledFields isKey fields) "type").isText s = (get fields "type").isText s := by
  rw [get_data (by decide)]

end

theorem alike_spanOf (isKey : Bool) (v : Json) : Alike (spanOf (restyle isKey v)) (spanOf v) := by
  cases v with
  | obj fields =>
    rw [restyle_obj]
    simp only [spanOf, fields?, Option.bind_eq_bind, Option.bind_some, offsetsOf_restyledFields]
    cases Offset.ofJson? (offsetsOf fields).1 with
    | none => exact .notTree ..
    | some l =>
      cases Offset.ofJson? (offsetsOf fields).2 with
      | none => exact .notTree ..
      | some r => exact .same _
  | arr items => exact .notTree ..
  | _ => exact .same _

/-! ### Parts of nodes -/

theorem alike_readIdent (v : Json) : Alike (readIdent (restyle false v)) (readIdent v) := by
  cases v with
  | obj fields =>
    have hspan := alike_spanOf false (obj fields)
    rw [restyle_obj] at hspan ⊢
    simp (disch := decide) only [readIdent, get_data, need_data]
    refine .ite (fun _ => ?_) fun _ => ?_
    · exact (Alike.same _).bind fun name => hspan.bind fun span => .same _
    · exact (Alike.same _).bind fun construct => hspan.bind fun span => .same _
  | arr items => exact (alike_spanOf false (arr items)).bind fun _ => .same _
  | _ => exact .same _

theorem findsNoTree_readIdent (s : String) : FindsNoTree (readIdent (str s)) := ⟨_, rfl⟩

/-- Whatever has at most `n` levels, and at most `n'` in the other style, is read alike in both, and
a text is no tree. -/
structure Agree (n n' : Nat) (read' read : Json → Read Node) : Prop where
  alike : ∀ v, v.height ≤ n → (restyle false v).height ≤ n' →
    Alike (read' (restyle false v)) (read v)
  text : ∀ s, FindsNoTree (read (str s))
  text' : ∀ s, FindsNoTree (read' (str s))

/-- The values of the fields have at most `n` levels, and at most `n'` in the other style. -/
structure Fits (n n' : Nat) (fields : List (String × Json)) : Prop where
  pos : 0 < n
  pos' : 0 < n'
  low : heightFields fields ≤ n
  low' : heightFields (restyledFields false fields) ≤ n'

theorem fits_of_height {n n' : Nat} {fields : List (String × Json)}
    (h : (obj fields).height ≤ n) (h' : (restyle false (obj fields)).height ≤ n') :
    Fits n n' fields := by
  rw [restyle_obj, height] at h'
  rw [height] at h
  exact ⟨by omega, by omega, by omega, by omega⟩

section

variable {α : Type} {n n' : Nat} {read' read : Json → Read Node} {fields : List (String × Json)}
  {name : String}

theorem Fits.of_find? (hf : Fits n n' fields) (h : isPart name = true) {v : Json}
    (hv : find? name fields = some v) : v.height ≤ n ∧ (restyle false v).height ≤ n' := by
  have hv' : find? name (restyledFields false fields) = some (restyle false v) := by
    rw [find?_part h, hv]
    rfl
  exact ⟨Nat.le_trans (height_of_find? hv) hf.low, Nat.le_trans (height_of_find? hv') hf.low'⟩

theorem Fits.of_get (hf : Fits n n' fields) (h : isPart name = true) :
    (get fields name).height ≤ n ∧ (restyle false (get fields name)).height ≤ n' := by
  rw [get]
  cases hv : find? name fields with
  | none => exact ⟨hf.pos, hf.pos'⟩
  | some v => exact hf.of_find? h hv

/-- A field that must be there is there in both styles. -/
theorem Fits.required (hf : Fits n n' fields) (h : isPart name = true) {f' f : Json → Read α}
    (hv : ∀ v, v.height ≤ n → (restyle false v).height ≤ n' → Alike (f' (restyle false v)) (f v)) :
    Alike (need (restyledFields false fields) name >>= f') (need fields name >>= f) := by
  rw [need, find?_part h, need]
  cases hfind : find? name fields with
  | none => exact .same _
  | some v => exact hv v (hf.of_find? h hfind).1 (hf.of_find? h hfind).2

theorem Agree.optional (ha : Agree n n' read' read) (hf : Fits n n' fields)
    (h : isPart name = true) :
    Alike (read' (get (restyledFields false fields) name)) (read (get fields name)) := by
  rw [get_part h]
  exact ha.alike _ (hf.of_get h).1 (hf.of_get h).2

theorem Agree.required (ha : Agree n n' read' read) (hf : Fits n n' fields)
    (h : isPart name = true) {k' k : Node → Read α} (hk : ∀ x, Alike (k' x) (k x)) :
    Alike (need (restyledFields false fields) name >>= fun v => read' v >>= k')
      (need fields name >>= fun v => read v >>= k) :=
  hf.required h fun v hv hv' => (ha.alike v hv hv').bind hk

/-- The items of a field are read alike if each of them is, and a text is no tree. -/
theorem Fits.list {β : Type} (hf : Fits n n' fields) (h : isPart name = true)
    {f' f : Json → Read β}
    (htext : ∀ s, FindsNoTree (f (str s)))
    (htext' : ∀ s, FindsNoTree (f' (str s)))
    (hitem : ∀ v, v.height ≤ n → (restyle false v).height ≤ n' →
      Alike (f' (restyle false v)) (f v))
    {k' k : List β → Read α} (hk : ∀ xs, Alike (k' xs) (k xs)) :
    Alike (listOf (restyledFields false fields) name >>= fun items => items.mapM f' >>= k')
      (listOf fields name >>= fun items => items.mapM f >>= k) := by
  rw [listOf, find?_part h, listOf]
  cases hfind : find? name fields with
  | none => exact hk []
  | some v =>
    have hlow := hf.of_find? h hfind
    cases v with
    | arr items =>
      rw [restyle, restyleAll_eq, height, height] at hlow
      simp only [Option.map_some, restyle, restyleAll_eq, members?]
      refine (Alike.mapM fun v hv => ?_).bind hk
      have hle := height_of_mem hv
      have hle' := height_of_mem (List.mem_map_of_mem (f := restyle false) hv)
      exact hitem v (by omega) (by omega)
    | str s =>
      have hchars : ∀ item ∈ s.toList.map (fun c => str (String.ofList [c])),
          Alike (f' item) (f item) := by
        intro item hmem
        obtain ⟨c, -, rfl⟩ := List.mem_map.mp hmem
        exact (htext' _).alike (htext _)
      have hsame := Alike.mapM (r := id) hchars
      rw [List.map_id] at hsame
      exact hsame.bind hk
    | obj inner =>
      -- the names of fields depend on the style, but already the first is no tree
      simp only [Option.map_some, restyle_obj, members?]
      have hempty := isEmpty_restyledFields false inner
      cases inner with
      | nil => exact hk []
      | cons field rest =>
        cases hrestyled : restyledFields false (field :: rest) with
        | nil =>
          rw [hrestyled] at hempty
          cases hempty
        | cons field' rest' =>
          refine FindsNoTree.alike ?_ ?_
          · rw [pure_bind, List.map_cons, List.mapM_cons]
            exact ((htext' _).bind _).bind _
          · rw [pure_bind, List.map_cons, List.mapM_cons]
            exact ((htext _).bind _).bind _
    | _ => exact .same _

/-- The parts of a list are read alike if the fields of each are. -/
theorem Fits.parts (hf : Fits n n' fields) (h : isPart name = true)
    {part' part : List (String × Json) → Span → Read Node}
    (hpart : ∀ fields, Fits n n' fields → ∀ span,
      Alike (part' (restyledFields false fields) span) (part fields span))
    {k' k : List Node → Read α} (hk : ∀ xs, Alike (k' xs) (k xs)) :
    Alike (listOf (restyledFields false fields) name >>= fun items => readParts part' items >>= k')
      (listOf fields name >>= fun items => readParts part items >>= k) := by
  refine hf.list h (fun s => ⟨_, rfl⟩) (fun s => ⟨_, rfl⟩) (fun v hv hv' => ?_) hk
  refine (alike_spanOf false v).bind fun span => ?_
  cases v with
  | obj inner =>
    have hinner := fits_of_height hv hv'
    rw [restyle_obj]
    exact hpart inner hinner span
  | _ => exact .same _

theorem Agree.readStatements (ha : Agree n n' read' read) {v : Json} (h : v.height ≤ n)
    (h' : (restyle false v).height ≤ n') :
    Alike (readStatements read' (restyle false v)) (readStatements read v) := by
  cases v with
  | arr items =>
    rw [restyle, restyleAll_eq] at h' ⊢
    rw [height] at h h'
    refine Alike.mapM fun v hv => ?_
    have hle := height_of_mem hv
    have hle' := height_of_mem (List.mem_map_of_mem (f := restyle false) hv)
    exact ha.alike v (by omega) (by omega)
  | obj fields => exact .notTree ..
  | _ => exact .same _

theorem Agree.statements (ha : Agree n n' read' read) (hf : Fits n n' fields)
    (h : isPart name = true) :
    Alike (Document.readStatements read' (get (restyledFields false fields) name))
      (Document.readStatements read (get fields name)) := by
  rw [get_part h]
  exact ha.readStatements (hf.of_get h).1 (hf.of_get h).2

theorem Agree.readTarget (ha : Agree n n' read' read) {v : Json} (h : v.height ≤ n)
    (h' : (restyle false v).height ≤ n') :
    Alike (readTarget read' (restyle false v)) (readTarget read v) := by
  cases v with
  | obj fields =>
    have hspan := alike_spanOf false (obj fields)
    have hident := alike_readIdent (obj fields)
    have hnode := ha.alike _ h h'
    rw [restyle_obj] at hspan hident hnode ⊢
    simp (disch := decide) only [Document.readTarget, fieldsOf, pure_bind, get_data]
    refine .ite (fun _ => hident.bind fun x => .same _) fun _ => .ite (fun _ => hnode) fun _ => ?_
    exact (Alike.same _).bind fun construct => hspan.bind fun span => .same _
  | _ => exact .same (.error .noFields)

theorem Agree.readLoopHead (ha : Agree n n' read' read) {v : Json} (h : v.height ≤ n)
    (h' : (restyle false v).height ≤ n') :
    Alike (readLoopHead read' (restyle false v)) (readLoopHead read v) := by
  cases v with
  | obj fields =>
    have hspan := alike_spanOf false (obj fields)
    have htarget := ha.readTarget h h'
    have hnode := ha.alike _ h h'
    rw [restyle_obj] at hspan htarget hnode ⊢
    simp only [Document.readLoopHead, fieldsOf, pure_bind, isText_type]
    refine .ite (fun _ => hnode.bind fun head => ?_) fun _ => htarget
    split
    · exact .same _
    · exact hspan.bind fun span => .same _
  | _ => exact .same (.error .noFields)

theorem alike_readOptionalIdent (h : isPart name = true) :
    Alike (readOptionalIdent (restyledFields false fields) name)
      (readOptionalIdent fields name) := by
  simp only [readOptionalIdent, get_part h, truthy_restyle]
  exact .ite (fun _ => (alike_readIdent _).bind fun x => .same _) fun _ => .same _

/-- The key of a property gives the same name in both styles. -/
theorem alike_key (fields : List (String × Json)) {k' k : Json → Read α}
    (hk : ∀ x, Alike (k' x) (k x)) :
    Alike
      (need (restyledFields false fields) "key" >>= fun v => fieldsOf v >>= fun key =>
        if (get key "type").isText "Identifier" then need key "name" >>= k'
        else pure (str (literalKey (get key "value"))) >>= k')
      (need fields "key" >>= fun v => fieldsOf v >>= fun key =>
        if (get key "type").isText "Identifier" then need key "name" >>= k
        else pure (str (literalKey (get key "value"))) >>= k) := by
  rw [need, find?_key, need]
  cases find? "key" fields with
  | none => exact .same _
  | some v =>
    simp only [Option.map_some, pure_bind]
    cases v with
    | obj inner =>
      have hvalue : get (restyledFields true inner) "value" = get inner "value" := by
        rw [get, find?_value_of_datum rfl, get]
      simp (disch := decide) only [restyle_obj, fieldsOf, pure_bind, isText_type, hvalue, need_data]
      exact .ite (fun _ => (Alike.same _).bind hk) fun _ => hk _
    | _ => exact .same _

/-- The value of a property is a node. -/
theorem Agree.value (ha : Agree n n' read' read) (hf : Fits n n' fields)
    (htype : (get fields "type").isText "Property" = true) {k' k : Node → Read α}
    (hk : ∀ x, Alike (k' x) (k x)) :
    Alike (need (restyledFields false fields) "value" >>= fun v => read' v >>= k')
      (need fields "value" >>= fun v => read v >>= k) := by
  have hvalue : find? "value" (restyledFields false fields) =
      (find? "value" fields).map (restyle false) := by
    refine find?_value ?_
    rw [get] at htype
    cases htext : (find? "type" fields).getD null with
    | str s =>
      rw [htext] at htype
      rw [eq_of_beq htype]
      decide
    | _ => rfl
  rw [need, hvalue, need]
  cases hv : find? "value" fields with
  | none => exact .same _
  | some v =>
    rw [hv] at hvalue
    exact (ha.alike v (Nat.le_trans (height_of_find? hv) hf.low)
      (Nat.le_trans (height_of_find? hvalue) hf.low')).bind hk

variable (ha : Agree n n' read' read) (hf : Fits n n' fields)

include ha hf

theorem Agree.readFunction (form : FunctionForm) (isArrow : Bool) (span : Span) :
    Alike (readFunction read' form isArrow (restyledFields false fields) span)
      (readFunction read form isArrow fields span) := by
  simp (disch := decide) only [Document.readFunction, truthy_part]
  refine .ite (fun _ => .same _) fun _ => .ite (fun _ => .same _) fun _ => ?_
  refine Alike.bind (alike_readOptionalIdent rfl) fun x => ?_
  refine hf.list rfl findsNoTree_readIdent findsNoTree_readIdent
    (fun v _ _ => alike_readIdent v) fun params => ?_
  refine hf.required rfl fun v hv hv' => ?_
  cases v with
  | obj inner =>
    have hinner := fits_of_height hv hv'
    have hnode := ha.alike _ hv hv'
    rw [restyle_obj] at hnode ⊢
    simp only [fieldsOf, pure_bind, isText_type]
    exact .ite (fun _ => (ha.statements hinner rfl).bind fun xs => .same _)
      fun _ => hnode.bind fun expr => .same _
  | _ => exact .same (.error .noFields)

theorem Agree.readDeclarator (span : Span) :
    Alike (readDeclarator read' (restyledFields false fields) span)
      (readDeclarator read fields span) :=
  hf.required rfl fun v _ _ => (alike_readIdent v).bind fun _ =>
    (ha.optional hf rfl).bind fun _ => .same _

theorem Agree.readCase (span : Span) :
    Alike (readCase read' (restyledFields false fields) span) (readCase read fields span) :=
  (ha.optional hf rfl).bind fun _ => (ha.statements hf rfl).bind fun _ => .same _

theorem Agree.readProperty (span : Span) :
    Alike (readProperty read' (restyledFields false fields) span)
      (readProperty read fields span) := by
  have hget : get (restyledFields false fields) "type" = get fields "type" := get_data (by decide)
  have hkind : find? "kind" (restyledFields false fields) = find? "kind" fields :=
    find?_data (by decide)
  rw [Document.readProperty, hget, hkind, truthy_part (by decide), Document.readProperty]
  refine .ite (fun _ => .same _) fun htype => ?_
  have hvalue : ∀ name, Alike
      (need (restyledFields false fields) "value" >>= fun v => read' v >>= fun value =>
        pure (Node.property name value span))
      (need fields "value" >>= fun v => read v >>= fun value =>
        pure (Node.property name value span)) :=
    fun name => ha.value hf (by simpa using htype) fun value => .same _
  have hkeyed := alike_key fields hvalue
  cases find? "kind" fields with
  | none => exact .ite (fun _ => .same _) fun _ => hkeyed
  | some kind =>
    exact .ite (fun _ => .same _) fun _ => .ite (fun _ => .same _) fun _ => hkeyed

theorem Agree.readDeclaration (span : Span) :
    Alike (readDeclaration read' (restyledFields false fields) span)
      (readDeclaration read fields span) := by
  simp (disch := decide) only [Document.readDeclaration, get_data]
  cases (get fields "kind").text?.bind Keyword.ofText? with
  | none => exact .same _
  | some keyword =>
    exact hf.parts rfl (fun _ hinner span => ha.readDeclarator hinner span) fun xs => .same _

theorem Agree.readForEach (isOf : Bool) (span : Span) :
    Alike (readForEach read' isOf (restyledFields false fields) span)
      (readForEach read isOf fields span) := by
  refine hf.required rfl fun v hv hv' => (ha.readLoopHead hv hv').bind fun head => ?_
  exact ha.required hf rfl fun subject => ha.required hf rfl fun body => .same _

theorem Agree.readMember (span : Span) :
    Alike (readMember read' (restyledFields false fields) span)
      (readMember read fields span) := by
  refine ha.required hf rfl fun target => ?_
  simp (disch := decide) only [truthy_part]
  refine .ite (fun _ => ha.required hf rfl fun key => .same _) fun _ => ?_
  refine hf.required rfl fun v _ _ => ?_
  cases v with
  | obj inner =>
    have hspan := alike_spanOf false (obj inner)
    rw [restyle_obj] at hspan ⊢
    simp (disch := decide) only [need_data]
    exact (Alike.same _).bind fun name => hspan.bind fun span => .same _
  | _ => exact .same _

theorem Agree.readTyped (type : NodeType) (span : Span)
    (htype : (get fields "type").isText type.name = true) :
    Alike (readTyped read' type (restyledFields false fields) span)
      (readTyped read type fields span) := by
  cases type with
  | emptyStatement | debuggerStatement | thisExpression => exact .same _
  | expressionStatement | throwStatement => exact ha.required hf rfl fun x => .same _
  | blockStatement => exact (ha.statements hf rfl).bind fun xs => .same _
  | variableDeclaration => exact ha.readDeclaration hf span
  | variableDeclarator => exact ha.readDeclarator hf span
  | functionDeclaration => exact ha.readFunction hf .declaration false span
  | functionExpression => exact ha.readFunction hf .expression false span
  | arrowFunctionExpression => exact ha.readFunction hf .expression true span
  | ifStatement =>
    exact ha.required hf rfl fun test => ha.required hf rfl fun yes =>
      (ha.optional hf rfl).bind fun no => .same _
  | forStatement =>
    exact (ha.optional hf rfl).bind fun init =>
      (ha.optional hf rfl).bind fun test => (ha.optional hf rfl).bind fun update =>
        (ha.optional hf rfl).bind fun body => .same _
  | forInStatement => exact ha.readForEach hf false span
  | forOfStatement =>
    simp (disch := decide) only [Document.readTyped, truthy_part]
    exact .ite (fun _ => .same _) fun _ => ha.readForEach hf true span
  | whileStatement | doWhileStatement | withStatement =>
    exact ha.required hf rfl fun _ => ha.required hf rfl fun _ => .same _
  | returnStatement => exact (ha.optional hf rfl).bind fun x => .same _
  | breakStatement | continueStatement =>
    simp (disch := decide) only [Document.readTyped, readJump, truthy_part]
    exact .same _
  | tryStatement =>
    exact ha.required hf rfl fun body => (ha.optional hf rfl).bind fun handler =>
      (ha.optional hf rfl).bind fun finalizer => .same _
  | catchClause =>
    exact Alike.bind (alike_readOptionalIdent rfl) fun param =>
      ha.required hf rfl fun body => .same _
  | switchStatement =>
    exact hf.parts rfl (fun _ hinner span => ha.readCase hinner span) fun clauses =>
      ha.required hf rfl fun subject => .same _
  | switchCase => exact ha.readCase hf span
  | identifier =>
    have hident := alike_readIdent (obj fields)
    rw [restyle_obj] at hident
    exact hident.bind fun x => .same _
  | literal =>
    have hliteral : (false || (get fields "type").isText "Literal") = true := htype
    have hvalue : get (restyledFields false fields) "value" = get fields "value" := by
      rw [get, find?_value_of_datum hliteral, get]
    simp (disch := decide) only [Document.readTyped, truthy_part]
    split
    · rw [get_data (by decide)]
      exact .same _
    · rw [hvalue]
      exact .same _
  | arrayExpression | sequenceExpression =>
    exact hf.list rfl ha.text ha.text' ha.alike fun xs => .same _
  | objectExpression =>
    exact hf.parts rfl (fun _ hinner span => ha.readProperty hinner span) fun xs => .same _
  | property => exact ha.readProperty hf span
  | memberExpression => exact ha.readMember hf span
  | assignmentExpression =>
    simp (disch := decide) only [Document.readTyped, need_data]
    refine (Alike.same _).bind fun op => hf.required rfl fun v hv hv' => ?_
    exact (ha.readTarget hv hv').bind fun target => ha.required hf rfl fun value => .same _
  | updateExpression =>
    simp (disch := decide) only [Document.readTyped, need_data, truthy_part]
    refine (Alike.same _).bind fun op => hf.required rfl fun v hv hv' => ?_
    exact (ha.readTarget hv hv').bind fun target => .same _
  | unaryExpression =>
    simp (disch := decide) only [Document.readTyped, need_data]
    exact (Alike.same _).bind fun op => ha.required hf rfl fun x => .same _
  | binaryExpression =>
    simp (disch := decide) only [Document.readTyped, need_data]
    exact (Alike.same _).bind fun op => ha.required hf rfl fun lhs =>
      ha.required hf rfl fun rhs => .same _
  | logicalExpression =>
    simp (disch := decide) only [Document.readTyped, need_data]
    exact (Alike.same _).bind fun v => (Alike.same _).bind fun op =>
      ha.required hf rfl fun lhs => ha.required hf rfl fun rhs => .same _
  | conditionalExpression =>
    exact ha.required hf rfl fun test => ha.required hf rfl fun yes =>
      ha.required hf rfl fun no => .same _
  | callExpression =>
    simp (disch := decide) only [Document.readTyped, truthy_part]
    refine .ite (fun _ => .same _) fun _ => ha.required hf rfl fun callee => ?_
    exact hf.list rfl ha.text ha.text' ha.alike fun args => .same _
  | newExpression =>
    refine ha.required hf rfl fun callee => ?_
    exact hf.list rfl ha.text ha.text' ha.alike fun args => .same _

omit hf

theorem Agree.readNode {v : Json} (h : v.height ≤ n + 1) (h' : (restyle false v).height ≤ n' + 1) :
    Alike (readNode read' (restyle false v)) (readNode read v) := by
  cases v with
  | obj fields =>
    have hspan := alike_spanOf false (obj fields)
    rw [restyle_obj] at hspan h' ⊢
    rw [height] at h h'
    simp (disch := decide) only [Document.readNode, find?_data]
    cases htype : find? "type" fields with
    | none => exact .notTree ..
    | some type =>
      have hlow := Nat.le_trans (height_pos type) (height_of_find? htype)
      have htype' : find? "type" (restyledFields false fields) = some type := by
        rw [find?_data (by decide), htype]
      have hlow' := Nat.le_trans (height_pos type) (height_of_find? htype')
      have hf : Fits n n' fields := ⟨by omega, by omega, by omega, by omega⟩
      cases type with
      | str s =>
        refine hspan.bind fun span => ?_
        split
        · exact .same _
        · cases hname : NodeType.ofName? s with
          | none => exact .same _
          | some type =>
            refine ha.readTyped hf type span ?_
            have hs : (type.name == s) = true :=
              List.find?_some (p := fun t : NodeType => t.name == s) hname
            rw [get, htype, eq_of_beq hs]
            exact beq_self_eq_true s
      | _ => exact .same _
  | arr items => exact .notTree ..
  | _ => exact .same _

end

theorem findsNoTree_readWithin (n : Nat) (s : String) : FindsNoTree (readWithin n (str s)) := by
  cases n <;> exact ⟨_, rfl⟩

/-- Any number of levels that suffices for a document in its style will do. -/
theorem agree_readWithin (n n' : Nat) : Agree n n' (readWithin n') (readWithin n) := by
  refine ⟨?_, findsNoTree_readWithin n, findsNoTree_readWithin n'⟩
  intro v h h'
  induction n generalizing n' v with
  | zero => exact absurd (height_pos v) (by omega)
  | succ n ih =>
    cases n' with
    | zero => exact absurd (height_pos (restyle false v)) (by omega)
    | succ n' =>
      have ha : Agree n n' (readWithin n') (readWithin n) :=
        ⟨ih n', findsNoTree_readWithin n, findsNoTree_readWithin n'⟩
      exact ha.readNode h h'

theorem alike_readProgram (fields : List (String × Json)) :
    Alike (readProgram (restyledFields false fields)) (readProgram fields) := by
  have hspan := alike_spanOf false (obj fields)
  have hf : Fits (obj fields).height (restyle false (obj fields)).height fields :=
    fits_of_height (Nat.le_refl _) (Nat.le_refl _)
  have hbody := (agree_readWithin _ _).statements hf (show isPart "body" = true by decide)
  rw [get_part (by decide), restyle_obj] at hbody
  rw [restyle_obj] at hspan
  simp (disch := decide) only [readProgram, get_data, get_part, isText_restyle]
  refine .ite (fun _ => .same _) fun _ => .ite (fun _ => ?_) fun _ => ?_
  · exact hspan.bind fun span => .same _
  · exact hbody.bind fun xs => hspan.bind fun span => .same _

/-- The style of the offsets in a document does not matter: reading gives the same tree in both
styles, or refuses the same construct at the same place, or fails for the same reason. -/
theorem read_restyle (document : Json) : Alike (read (document.restyle false)) (read document) := by
  cases document with
  | obj fields =>
    rw [restyle_obj]
    exact alike_readProgram fields
  | arr items => exact .notTree ..
  | _ => exact .same _

example : restyle false (obj [("type", str "ThisExpression"), ("range", arr [int 3, int 7])]) =
    obj [("start", int 3), ("end", int 7), ("type", str "ThisExpression")] := rfl

end Document

end ScopeLowering
