/-
# The first part that does not fit

A literal that a type refuses is refused because of one of its parts, and the
mismatch says which: its path leads to the part, step by step through lists and
maps, and the same steps lead from the type of the literal to the type that the
part does not have. Every part in front of it has its type, so it is the first
that does not. A record has three more reasons, which are about none of its
parts alone: a key that is no name, a field that is given twice, and one that is
missing.

The path is put together from the inside to the outside, one segment for each
container that the conversion leaves. `ArgType.Refuses.under` is one of these
steps; the conversions of items, entries and fields go through the parts from
left to right and carry along that the parts behind them fit.

Key definitions: `ArgType.partsOf`, `ArgType.Leads`, `ArgType.Refuses`.
Key theorems: `ArgType.Refuses.under`, `ArgType.convert_refuses`.
-/
import CommandConsole.Binding.Run
import CommandConsole.Proofs.ArgType.Conversion

namespace CommandConsole

/-- A part of a literal, with the step that leads to it and the type that it is to have, if the
type of the literal has one for it. -/
structure TypedPart where
  segment : PathSegment
  type : Option ArgType
  literal : Literal

/-- The part is of its type. -/
def TypedPart.Fits (p : TypedPart) : Prop :=
  ∃ t value, p.type = some t ∧ t.convert p.literal = .ok value

/-- The mismatch is about the node `n`, which is not of the type `t`. -/
structure TypeMismatch.About (m : TypeMismatch) (t : ArgType) (n : Literal) : Prop where
  span : m.span = n.span
  input : m.input = n.render
  expected : m.expected = t.name

namespace ArgType

/-- The items of a list from the one with index `i` on. -/
def itemParts (t : ArgType) (i : Nat) (items : List Literal) : List TypedPart :=
  (items.zipIdx i).map fun p => ⟨.index p.2, t.elementType? p.2, p.1⟩

/-- The keys and values of a map. The same step leads to the key and the value of an entry. -/
def entryParts (t : ArgType) (entries : List (Literal × Literal)) : List TypedPart :=
  entries.flatMap fun e =>
    [⟨.key e.1.keyText, t.keyType?, e.1⟩, ⟨.key e.1.keyText, t.valueType? e.1.keyText, e.2⟩]

/-- The parts of a literal of the type, from left to right. -/
def partsOf (t : ArgType) : Literal → List TypedPart
  | .list items _ => t.itemParts 0 items
  | .map entries _ => t.entryParts entries
  | _ => []

/-- The path leads from a literal and its type to the node `n` and its type `u`; `before` are the
parts in front of the node, in each of the containers along the path. -/
inductive Leads : ArgType → Literal → List PathSegment → List TypedPart → ArgType → Literal → Prop
  | here (t : ArgType) (v : Literal) : Leads t v [] [] t v
  | step {t u w : ArgType} {v p n : Literal} {front back before : List TypedPart}
      {segment : PathSegment} {path : List PathSegment}
      (parts : t.partsOf v = front ++ ⟨segment, some u, p⟩ :: back)
      (rest : Leads u p path before w n) : Leads t v (segment :: path) (front ++ before) w n

/-- Why a literal is not of a type. -/
inductive Refuses (t : ArgType) (v : Literal) (m : TypeMismatch) : Prop
  /-- A node is not of its type, and not because of one of its own parts. -/
  | node {before : List TypedPart} {u : ArgType} {n : Literal} {own : TypeMismatch}
      (leads : Leads t v m.path before u n) (fits : ∀ p ∈ before, p.Fits)
      (refused : u.convert n = .error own) (at_node : own.path = []) (about : m.About u n)
  /-- A key of a record is not a name. -/
  | badKey {before : List TypedPart} {fields : List (RecordField ArgType)}
      {front back : List (Literal × Literal)} {k x : Literal} {span : Span}
      (leads : Leads t v m.path before (.record fields) (.map (front ++ (k, x) :: back) span))
      (fits : ∀ p ∈ before ++ (record fields).entryParts front, p.Fits)
      (not_name : k.asScalar? = none) (about : m.About (.record fields) k)
  /-- A field of a record is given for the second time. -/
  | twice {path : List PathSegment} {before : List TypedPart}
      {fields : List (RecordField ArgType)} {front back : List (Literal × Literal)}
      {k x : Literal} {span : Span} {name : String}
      (leads : Leads t v path before (.record fields) (.map (front ++ (k, x) :: back) span))
      (fits : ∀ p ∈ before ++ (record fields).entryParts front, p.Fits)
      (is_name : k.asScalar? = some name) (given : ∃ e ∈ front, e.1.asScalar? = some name)
      (path_eq : m.path = path ++ [.key name]) (about : m.About (.record fields) k)
  /-- A required field of a record is not given. -/
  | missing {path : List PathSegment} {before : List TypedPart}
      {fields : List (RecordField ArgType)} {entries : List (Literal × Literal)} {span : Span}
      {f : RecordField ArgType}
      (leads : Leads t v path before (.record fields) (.map entries span))
      (fits : ∀ p ∈ before ++ (record fields).entryParts entries, p.Fits)
      (field : f ∈ fields) (required : f.isOptional = false)
      (not_given : ∀ e ∈ entries, e.1.asScalar? ≠ some f.key)
      (path_eq : m.path = path ++ [.key f.key])
      (about : m.About (.record fields) (.map entries span))

/-! ### One step out -/

variable {t u : ArgType} {v p : Literal} {m : TypeMismatch}

theorem about_here (t : ArgType) (v : Literal) (reason : Option String) :
    (TypeMismatch.here t v reason).About t v := ⟨rfl, rfl, rfl⟩

/-- **Why a part is refused is why the whole is**, if the parts in front of it fit. -/
theorem Refuses.under {front back : List TypedPart} {segment : PathSegment}
    (hparts : t.partsOf v = front ++ ⟨segment, some u, p⟩ :: back) (hfront : ∀ q ∈ front, q.Fits)
    (h : u.Refuses p m) : t.Refuses v (m.under segment) := by
  have hfits : ∀ {more : List TypedPart}, (∀ q ∈ more, q.Fits) → ∀ q ∈ front ++ more, q.Fits :=
    fun hmore q hq => (List.mem_append.mp hq).elim (hfront q) (hmore q)
  cases h with
  | node leads fits refused at_node about =>
    exact .node (.step hparts leads) (hfits fits) refused at_node ⟨about.1, about.2, about.3⟩
  | badKey leads fits not_name about =>
    exact .badKey (.step hparts leads) (List.append_assoc .. ▸ hfits fits) not_name
      ⟨about.1, about.2, about.3⟩
  | twice leads fits is_name given path_eq about =>
    exact .twice (.step hparts leads) (List.append_assoc .. ▸ hfits fits) is_name given
      (congrArg (segment :: ·) path_eq) ⟨about.1, about.2, about.3⟩
  | missing leads fits field required not_given path_eq about =>
    exact .missing (.step hparts leads) (List.append_assoc .. ▸ hfits fits) field required
      not_given (congrArg (segment :: ·) path_eq) ⟨about.1, about.2, about.3⟩

/-- A literal that is refused as a whole. -/
theorem Refuses.whole {reason : Option String}
    (h : t.convert v = .error (.here t v reason)) : t.Refuses v (.here t v reason) :=
  .node (.here t v) (fun _ hq => by cases hq) h rfl (about_here t v reason)

/-- A part of its type can be passed over. -/
theorem fits_snoc {front : List TypedPart} {q : TypedPart} {w : Value}
    (hfront : ∀ r ∈ front, r.Fits) (htype : q.type = some u) (hq : u.convert q.literal = .ok w) :
    ∀ r ∈ front ++ [q], r.Fits := by
  intro r hr
  rcases List.mem_append.mp hr with hr | hr
  · exact hfront r hr
  · obtain rfl := List.mem_singleton.mp hr
    exact ⟨u, w, htype, hq⟩

/-! ### The names of the fields -/

variable {fields : List (RecordField ArgType)}

theorem contains_fieldNames (fields : List (RecordField ArgType)) (name : String) :
    (fields.map (·.key)).contains name = (findField? fields name).isSome := by
  rw [findField?, List.isSome_find?, List.contains_map]
  exact congrArg fields.any (funext fun f => Bool.beq_comm)

/-- The name of a field is one of the names of fields, and no other text is. -/
theorem convert_fieldNames (fields : List (RecordField ArgType)) (name : String) (span : Span) :
    (fieldNames fields).convert (.scalar name span) =
      if (findField? fields name).isSome then .ok (.member name)
      else .error (.here (fieldNames fields) (.scalar name span) (some ("expected one of: " ++
        String.intercalate ", " (fields.map (·.key))))) := by
  rw [convert_scalar rfl (fun _ hc => by cases hc), fieldNames, convertText, contains_fieldNames]
  split <;> rfl

theorem scalar_of_asScalar? {k : Literal} {name : String} (h : k.asScalar? = some name) :
    ∃ span, k = .scalar name span := by
  cases k with
  | scalar text span => exact ⟨span, by rw [Option.some.inj h]⟩
  | empty | list | map => cases h

/-- What is missing in a record is a required field that no entry gives. -/
theorem of_missingField? {entries : List (Literal × Literal)} {f : RecordField ArgType}
    (h : missingField? fields entries = some f) :
    f ∈ fields ∧ f.isOptional = false ∧ ∀ e ∈ entries, e.1.asScalar? ≠ some f.key := by
  have hp := List.find?_some h
  simp only [Bool.and_eq_true, Bool.not_eq_true', List.contains_eq_mem, decide_eq_false_iff_not,
    List.mem_filterMap, not_exists, not_and] at hp
  exact ⟨List.mem_of_find?_eq_some h, hp.1, hp.2⟩

/-! ### Going through the parts -/

theorem entryParts_cons (t : ArgType) (k x : Literal) (entries : List (Literal × Literal)) :
    t.entryParts ((k, x) :: entries) = ⟨.key k.keyText, t.keyType?, k⟩ ::
      ⟨.key k.keyText, t.valueType? k.keyText, x⟩ :: t.entryParts entries := rfl

theorem entryParts_append (t : ArgType) (front back : List (Literal × Literal)) :
    t.entryParts (front ++ back) = t.entryParts front ++ t.entryParts back :=
  List.flatMap_append

theorem itemParts_cons (t : ArgType) (i : Nat) (item : Literal) (items : List Literal) :
    t.itemParts i (item :: items) =
      ⟨.index i, t.elementType? i, item⟩ :: t.itemParts (i + 1) items := rfl

/-- An entry of a record is passed over if its value is of the type of its field. -/
theorem fits_entry {k x : Literal} {name : String} {f : RecordField ArgType} {w : Value}
    (hname : k.asScalar? = some name) (hf : findField? fields name = some f)
    (hx : f.type.convert x = .ok w) : ∀ p ∈ (record fields).entryParts [(k, x)], p.Fits := by
  obtain ⟨span, rfl⟩ := scalar_of_asScalar? hname
  intro p hp
  rw [entryParts_cons] at hp
  rcases List.mem_cons.mp hp with rfl | hp
  · refine ⟨fieldNames fields, .member name, rfl, ?_⟩
    rw [convert_fieldNames, if_pos (by rw [hf]; rfl)]
  · obtain rfl := List.mem_singleton.mp hp
    exact ⟨f.type, w, by rw [Literal.keyText, valueType?, hf]; rfl, hx⟩

/-- The parts of a record fit if its entries are converted. -/
theorem fits_of_convertFields : ∀ {entries : List (Literal × Literal)} {seen : List String}
    {values : List (Value × Value)}, convertFields fields seen entries = .ok values →
      ∀ p ∈ (record fields).entryParts entries, p.Fits
  | [], _, _, _ => fun _ hp => by cases hp
  | (k, x) :: entries, seen, values, h => by
    rw [convertFields] at h
    split at h
    · cases h
    · rename_i name hname
      split at h
      · cases h
      · rename_i f hf
        split at h
        · cases h
        · split at h
          · cases h
          · rename_i w hx
            obtain ⟨more, hmore, -⟩ := exists_of_map_eq_ok h
            intro p hp
            rw [← List.singleton_append, entryParts_append, List.mem_append] at hp
            exact hp.elim (fits_entry hname hf hx p) (fits_of_convertFields hmore p)

theorem custom_refuses {c : CustomType} (h : convert (.custom c) v = .error m) :
    (custom c).Refuses v m := by
  cases hk : c.kind.accepts v.kind with
  | false =>
    have hrefused := convert_refused (t := .custom c) hk
    obtain rfl := Except.error.inj (hrefused.symm.trans h)
    exact .whole hrefused
  | true =>
    have hconvert := convert_custom c hk
    cases hc : c.convert v with
    | ok w =>
      rw [hconvert, hc] at h
      cases h
    | error reason =>
      rw [hc] at hconvert
      obtain rfl := Except.error.inj (hconvert.symm.trans h)
      exact .whole hconvert

/-- A literal whose kind the type does not take. -/
theorem refused_refuses (hk : t.kind.accepts v.kind = false) (h : t.convert v = .error m) :
    t.Refuses v m := by
  have hrefused := convert_refused hk
  obtain rfl := Except.error.inj (hrefused.symm.trans h)
  exact .whole hrefused

theorem scalar_refuses {text : String} {span : Span} (hk : t.kind = .single)
    (hc : ∀ c, t ≠ .custom c) (h : t.convert (.scalar text span) = .error m) :
    t.Refuses (.scalar text span) m := by
  have hconvert := convert_scalar hk hc text span
  cases ht : t.convertText text with
  | ok w =>
    rw [hconvert, ht] at h
    cases h
  | error reason =>
    rw [ht] at hconvert
    obtain rfl := Except.error.inj (hconvert.symm.trans h)
    exact .whole hconvert

mutual

/-- **A mismatch is about the first part of the literal that is not of its type**, or about what a
record asks of its entries as a whole. -/
theorem convert_refuses : ∀ (v : Literal) {t : ArgType} {m : TypeMismatch},
    t.convert v = .error m → t.Refuses v m
  | .empty span, t, m, h => by
    cases t with
    | any => rw [convert_any] at h; cases h
    | custom => exact custom_refuses h
    | _ => exact refused_refuses rfl h
  | .scalar text span, t, m, h => by
    cases t with
    | any => rw [convert_any] at h; cases h
    | custom => exact custom_refuses h
    | list | exactList | map | record => exact refused_refuses rfl h
    | _ => exact scalar_refuses rfl (fun _ hc => by cases hc) h
  | .list items span, t, m, h => by
    cases t with
    | any => rw [convert_any] at h; cases h
    | custom => exact custom_refuses h
    | list element =>
      rw [convert_list] at h
      exact convertItems_refuses items [] rfl (fun _ hq => by cases hq)
        (error_of_map_eq_error h)
    | exactList elements =>
      have hconvert := convert_exactList elements items span
      split at hconvert
      · rename_i hlength
        rw [hconvert] at h
        exact convertPlaces_refuses items [] rfl (fun _ hq => by cases hq) rfl
          hlength (error_of_map_eq_error h)
      · obtain rfl := Except.error.inj (hconvert.symm.trans h)
        exact .whole hconvert
    | _ => exact refused_refuses rfl h
  | .map entries span, t, m, h => by
    cases t with
    | any => rw [convert_any] at h; cases h
    | custom => exact custom_refuses h
    | map key value =>
      rw [convert_map] at h
      exact convertEntries_refuses entries [] rfl (fun _ hq => by cases hq)
        (error_of_map_eq_error h)
    | record fields =>
      rw [convert_record] at h
      split at h
      · rename_i hf
        cases h
        exact convertFields_refuses entries [] (fun _ hq => by cases hq)
          (fun _ hn => by cases hn) hf
      · rename_i values hvalues
        split at h
        · rename_i f hmissing
          cases h
          obtain ⟨hfield, hrequired, hgiven⟩ := of_missingField? hmissing
          exact .missing (.here _ _) (fits_of_convertFields hvalues) hfield hrequired hgiven rfl
            ⟨rfl, rfl, rfl⟩
        · cases h
    | _ => exact refused_refuses rfl h

/-- The items of a list, of which those in `front` have been converted. -/
theorem convertItems_refuses : ∀ (items : List Literal) (front : List TypedPart)
    {element : ArgType} {i : Nat} {v : Literal} {m : TypeMismatch},
    (list element).partsOf v = front ++ (list element).itemParts i items →
    (∀ q ∈ front, q.Fits) → convertItems element i items = .error m → (list element).Refuses v m
  | [], _, _, _, _, _, _, _, h => by cases h
  | item :: items, front, element, i, v, m, hparts, hfront, h => by
    rw [convertItems] at h
    rw [itemParts_cons] at hparts
    cases hi : element.convert item with
    | error own =>
      rw [hi] at h
      cases h
      exact .under hparts hfront (convert_refuses item hi)
    | ok w =>
      rw [hi] at h
      exact convertItems_refuses items _ (hparts.trans (List.append_cons ..))
        (fits_snoc hfront rfl hi) (error_of_map_eq_error h)

/-- The items of a list with a type for each place; `elements` are the places of `items`. -/
theorem convertPlaces_refuses : ∀ (items : List Literal) (front : List TypedPart)
    {all elements : List ArgType} {i : Nat} {v : Literal} {m : TypeMismatch},
    (exactList all).partsOf v = front ++ (exactList all).itemParts i items →
    (∀ q ∈ front, q.Fits) → all.drop i = elements → elements.length = items.length →
    convertPlaces elements i items = .error m → (exactList all).Refuses v m
  | [], _, _, _, _, _, _, _, _, _, _, h => by cases h
  | _ :: _, _, _, [], _, _, _, _, _, _, hlength, _ => by cases hlength
  | item :: items, front, all, element :: elements, i, v, m, hparts, hfront, hplaces, hlength, h => by
    rw [convertPlaces, List.headD_cons, List.tail_cons] at h
    have htype : (exactList all).elementType? i = some element := by
      rw [elementType?, ← List.head?_drop, hplaces, List.head?_cons]
    have hdrop : all.drop (i + 1) = elements := by
      rw [← List.tail_drop, hplaces, List.tail_cons]
    rw [itemParts_cons, htype] at hparts
    cases hi : element.convert item with
    | error own =>
      rw [hi] at h
      cases h
      exact .under hparts hfront (convert_refuses item hi)
    | ok w =>
      rw [hi] at h
      exact convertPlaces_refuses items _ (hparts.trans (List.append_cons ..))
        (fits_snoc hfront rfl hi) hdrop (Nat.succ.inj hlength) (error_of_map_eq_error h)

/-- The entries of a map. -/
theorem convertEntries_refuses : ∀ (entries : List (Literal × Literal)) (front : List TypedPart)
    {key value : ArgType} {v : Literal} {m : TypeMismatch},
    (map key value).partsOf v = front ++ (map key value).entryParts entries →
    (∀ q ∈ front, q.Fits) → convertEntries key value entries = .error m →
      (map key value).Refuses v m
  | [], _, _, _, _, _, _, _, h => by cases h
  | (k, x) :: entries, front, key, value, v, m, hparts, hfront, h => by
    rw [convertEntries] at h
    rw [entryParts_cons] at hparts
    cases hk : key.convert k with
    | error own =>
      rw [hk] at h
      cases h
      exact .under hparts hfront (convert_refuses k hk)
    | ok a =>
      rw [hk] at h
      dsimp only at h
      have hkey := fits_snoc (q := ⟨.key k.keyText, some key, k⟩) hfront rfl hk
      rw [List.append_cons] at hparts
      cases hx : value.convert x with
      | error own =>
        rw [hx] at h
        cases h
        exact .under hparts hkey (convert_refuses x hx)
      | ok b =>
        rw [hx] at h
        exact convertEntries_refuses entries _ (hparts.trans (List.append_cons ..))
          (fits_snoc hkey rfl hx) (error_of_map_eq_error h)

/-- The entries of a record, of which those in `front` have been converted. -/
theorem convertFields_refuses : ∀ (entries front : List (Literal × Literal))
    {fields : List (RecordField ArgType)} {seen : List String} {span : Span} {m : TypeMismatch},
    (∀ q ∈ (record fields).entryParts front, q.Fits) →
    (∀ name ∈ seen, ∃ e ∈ front, e.1.asScalar? = some name) →
    convertFields fields seen entries = .error m →
      (record fields).Refuses (.map (front ++ entries) span) m
  | [], _, _, _, _, _, _, _, h => by cases h
  | (k, x) :: entries, front, fields, seen, span, m, hfront, hseen, h => by
    have hparts : (record fields).partsOf (.map (front ++ (k, x) :: entries) span) =
        (record fields).entryParts front ++ ⟨.key k.keyText, some (fieldNames fields), k⟩ ::
          ⟨.key k.keyText, (record fields).valueType? k.keyText, x⟩ ::
            (record fields).entryParts entries := by
      rw [partsOf, entryParts_append, entryParts_cons]
      rfl
    rw [convertFields] at h
    split at h
    · rename_i hname
      cases h
      exact .badKey (.here _ _) hfront hname ⟨rfl, rfl, rfl⟩
    · rename_i name hname
      obtain ⟨kspan, rfl⟩ := scalar_of_asScalar? hname
      split at h
      · rename_i hf
        cases h
        have hunknown := convert_fieldNames fields name kspan
        rw [if_neg (by rw [hf]; simp)] at hunknown
        exact .under hparts hfront (.node (.here _ _) (fun _ hq => by cases hq) hunknown rfl
          ⟨rfl, rfl, rfl⟩)
      · rename_i f hf
        split at h
        · rename_i hgiven
          cases h
          exact .twice (.here _ _) hfront rfl (hseen name (List.contains_iff_mem.mp hgiven)) rfl
            ⟨rfl, rfl, rfl⟩
        · have hkey : (fieldNames fields).convert (.scalar name kspan) = .ok (.member name) := by
            rw [convert_fieldNames, if_pos (by rw [hf]; rfl)]
          have htype : (record fields).valueType? name = some f.type := by
            rw [valueType?, hf]
            rfl
          split at h
          · rename_i own hx
            cases h
            rw [Literal.keyText, htype] at hparts
            exact .under (hparts.trans (List.append_cons ..)) (fits_snoc hfront rfl hkey)
              (convert_refuses x hx)
          · rename_i w hx
            rw [List.append_cons]
            refine convertFields_refuses entries _ ?_ ?_ (error_of_map_eq_error h)
            · intro q hq
              rw [entryParts_append, List.mem_append] at hq
              exact hq.elim (hfront q) (fits_entry hname hf hx q)
            · intro n hn
              rcases List.mem_cons.mp hn with rfl | hn
              · exact ⟨_, List.mem_append_right _ List.mem_cons_self, rfl⟩
              · obtain ⟨e, he, hen⟩ := hseen n hn
                exact ⟨e, List.mem_append_left _ he, hen⟩

end

/-- **A conversion failure pinpoints the first bad part.** The path of the mismatch leads through the
lists and maps of the literal, and the same steps through its type, to a node that is not of its
type; the mismatch shows this node, and everything in front of it is of its type. Only what a record
asks of its entries is reported otherwise, at the end of the path to the record: a key that is no
name, a field that is given twice, and a required field that is missing. -/
theorem convert_pinpoints (h : t.convert v = .error m) : t.Refuses v m := convert_refuses v h

/-- An item of the list at the second place of a list, in the second record of a map. -/
theorem convert_pinpoints_two :
    let shape : ArgType :=
      .record [⟨"part", .exactList [.string, .list .int], false⟩, ⟨"note", .any, true⟩]
    let a : Literal := .map [(.scalar "part" ⟨4, 8⟩,
      .list [.scalar "x" ⟨10, 11⟩, .list [.scalar "1" ⟨14, 15⟩] ⟨13, 16⟩] ⟨9, 17⟩)] ⟨3, 18⟩
    let b : Literal := .map [(.scalar "part" ⟨23, 27⟩, .list [.scalar "y" ⟨29, 30⟩,
      .list [.scalar "1" ⟨33, 34⟩, .scalar "two" ⟨36, 39⟩] ⟨32, 40⟩] ⟨28, 41⟩)] ⟨22, 42⟩
    let v : Literal := .map [(.scalar "a" ⟨1, 2⟩, a), (.scalar "b" ⟨20, 21⟩, b)] ⟨0, 43⟩
    ∃ m, (map .string shape).convert v = .error m ∧
      m.path = [.key "b", .key "part", .index 1, .index 1] ∧ m.span = ⟨36, 39⟩ ∧
      m.input = "two" ∧ m.expected = "int" ∧ (map .string shape).Refuses v m := by
  intro shape a b v
  have h : (map .string shape).convert v = .error ⟨[.key "b", .key "part", .index 1, .index 1],
      ⟨36, 39⟩, "two", "int", some "invalid digit found in string"⟩ := by rfl
  exact ⟨_, h, rfl, rfl, rfl, rfl, convert_pinpoints h⟩

end ArgType
end CommandConsole
