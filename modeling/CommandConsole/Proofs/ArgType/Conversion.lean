/-
# Conversion does not look at spans

A literal is converted by its texts and its shape. Where it stands matters only
to what a failure points at: two literals that differ in spans convert to the
same value, or are refused for the same reason. A custom type is handed the
literal as it is and may do otherwise.

Key definitions: `Agree`, `ArgType.Builtin`, `ArgType.Blind`, `TypeMismatch.Alike`.
Key theorems: `ArgType.convert_unspanned`, `ArgType.convert_congr`.
-/
import CommandConsole.ArgType.Convert

namespace CommandConsole

/-- Two answers agree: they are failures that `E` relates, or results that `R` relates. -/
inductive Agree {ε ε' α α' : Type} (E : ε → ε' → Prop) (R : α → α' → Prop) :
    Except ε α → Except ε' α' → Prop
  | error {f : ε} {g : ε'} (h : E f g) : Agree E R (.error f) (.error g)
  | ok {x : α} {y : α'} (h : R x y) : Agree E R (.ok x) (.ok y)

namespace Agree

variable {ε ε' α α' β β' : Type} {E : ε → ε' → Prop} {R : α → α' → Prop} {e : Except ε α}
  {e' : Except ε' α'}

/-- Which of the two it is. -/
theorem cases (h : Agree E R e e') : (∃ f g, e = .error f ∧ e' = .error g ∧ E f g) ∨
    ∃ x y, e = .ok x ∧ e' = .ok y ∧ R x y := by
  cases h with
  | error h => exact .inl ⟨_, _, rfl, rfl, h⟩
  | ok h => exact .inr ⟨_, _, rfl, rfl, h⟩

theorem of_error (h : Agree E R e e') {f : ε} (he : e = .error f) :
    ∃ g, e' = .error g ∧ E f g := by
  cases h with
  | error h =>
    cases he
    exact ⟨_, rfl, h⟩
  | ok h => cases he

theorem of_ok (h : Agree E R e e') {x : α} (he : e = .ok x) : ∃ y, e' = .ok y ∧ R x y := by
  cases h with
  | error h => cases he
  | ok h =>
    cases he
    exact ⟨_, rfl, h⟩

theorem map (h : Agree E R e e') {S : β → β' → Prop} {f : α → β} {g : α' → β'}
    (hfg : ∀ x y, R x y → S (f x) (g y)) : Agree E S (e.map f) (e'.map g) := by
  cases h with
  | error h => exact .error h
  | ok h => exact .ok (hfg _ _ h)

theorem mapError (h : Agree E R e e') {ζ ζ' : Type} {F : ζ → ζ' → Prop} {f : ε → ζ}
    {g : ε' → ζ'} (hfg : ∀ x y, E x y → F (f x) (g y)) :
    Agree F R (e.mapError f) (e'.mapError g) := by
  cases h with
  | error h => exact .error (hfg _ _ h)
  | ok h => exact .ok h

theorem toOption_eq {e' : Except ε' α} (h : Agree E Eq e e') : e'.toOption = e.toOption := by
  cases h with
  | error => rfl
  | ok h =>
    subst h
    rfl

end Agree

namespace Literal

@[simp] theorem kind_unspanned (v : Literal) : v.unspanned.kind = v.kind := by
  cases v <;> simp only [unspanned, kind]

@[simp] theorem asScalar?_unspanned (v : Literal) : v.unspanned.asScalar? = v.asScalar? := by
  cases v <;> simp only [unspanned, asScalar?]

@[simp] theorem length_unspannedItems : ∀ items : List Literal,
    (unspannedItems items).length = items.length
  | [] => rfl
  | i :: is => by simp [unspannedItems, length_unspannedItems is]

theorem filterMap_asScalar?_unspanned : ∀ entries : List (Literal × Literal),
    (unspannedEntries entries).filterMap (fun e => e.1.asScalar?) =
      entries.filterMap fun e => e.1.asScalar?
  | [] => rfl
  | (k, v) :: es => by
    rw [unspannedEntries, List.filterMap_cons, List.filterMap_cons, asScalar?_unspanned,
      filterMap_asScalar?_unspanned es]

mutual

@[simp] theorem render_unspanned : ∀ v : Literal, v.unspanned.render = v.render
  | .empty _ => by simp only [unspanned, render]
  | .scalar _ _ => by simp only [unspanned, render]
  | .list items _ => by simp only [unspanned, render, renderItems_unspanned items]
  | .map entries _ => by simp only [unspanned, render, renderEntries_unspanned entries]

theorem renderItems_unspanned : ∀ items : List Literal,
    renderItems (unspannedItems items) = renderItems items
  | [] => rfl
  | [i] => by simp only [unspannedItems, renderItems, render_unspanned i]
  | i :: j :: is => by
    have ih := renderItems_unspanned (j :: is)
    rw [unspannedItems] at ih
    rw [unspannedItems, unspannedItems, renderItems, renderItems, render_unspanned i, ih]

theorem renderEntries_unspanned : ∀ entries : List (Literal × Literal),
    renderEntries (unspannedEntries entries) = renderEntries entries
  | [] => rfl
  | [(k, v)] => by
    simp only [unspannedEntries, renderEntries, render_unspanned k, render_unspanned v]
  | (k, v) :: (l, w) :: es => by
    have ih := renderEntries_unspanned ((l, w) :: es)
    rw [unspannedEntries] at ih
    rw [unspannedEntries, unspannedEntries, renderEntries, renderEntries, render_unspanned k,
      render_unspanned v, ih]

end

theorem keyText_unspanned (v : Literal) : v.unspanned.keyText = v.keyText := by
  have h := render_unspanned v
  cases v with
  | scalar => simp only [unspanned, keyText]
  | _ => simpa only [unspanned, keyText] using h

end Literal

open Literal

mutual

theorem Value.ofLiteral_unspanned : ∀ v : Literal, Value.ofLiteral v.unspanned = Value.ofLiteral v
  | .empty _ => by simp only [unspanned, Value.ofLiteral]
  | .scalar _ _ => by simp only [unspanned, Value.ofLiteral]
  | .list items _ => by simp only [unspanned, Value.ofLiteral, Value.ofItems_unspanned items]
  | .map entries _ => by simp only [unspanned, Value.ofLiteral, Value.ofEntries_unspanned entries]

theorem Value.ofItems_unspanned : ∀ items : List Literal,
    Value.ofItems (unspannedItems items) = Value.ofItems items
  | [] => rfl
  | i :: is => by
    simp only [unspannedItems, Value.ofItems, Value.ofLiteral_unspanned i,
      Value.ofItems_unspanned is]

theorem Value.ofEntries_unspanned : ∀ entries : List (Literal × Literal),
    Value.ofEntries (unspannedEntries entries) = Value.ofEntries entries
  | [] => rfl
  | (k, v) :: es => by
    simp only [unspannedEntries, Value.ofEntries, Value.ofLiteral_unspanned k,
      Value.ofLiteral_unspanned v, Value.ofEntries_unspanned es]

end

namespace ArgType

mutual

/-- The console knows the type and all the types in it. -/
def Builtin : ArgType → Prop
  | .list element => element.Builtin
  | .exactList elements => BuiltinAll elements
  | .map key value => key.Builtin ∧ value.Builtin
  | .record fields => BuiltinFields fields
  | .custom _ => False
  | _ => True

def BuiltinAll : List ArgType → Prop
  | [] => True
  | t :: ts => t.Builtin ∧ BuiltinAll ts

def BuiltinFields : List (RecordField ArgType) → Prop
  | [] => True
  | ⟨_, t, _⟩ :: fs => t.Builtin ∧ BuiltinFields fs

end

mutual

/-- The custom types in the type do not look at spans. -/
def Blind : ArgType → Prop
  | .list element => element.Blind
  | .exactList elements => BlindAll elements
  | .map key value => key.Blind ∧ value.Blind
  | .record fields => BlindFields fields
  | .custom c => ∀ v, c.convert v.unspanned = c.convert v
  | _ => True

def BlindAll : List ArgType → Prop
  | [] => True
  | t :: ts => t.Blind ∧ BlindAll ts

def BlindFields : List (RecordField ArgType) → Prop
  | [] => True
  | ⟨_, t, _⟩ :: fs => t.Blind ∧ BlindFields fs

end

mutual

/-- There are no custom types in a type that the console knows. -/
theorem Builtin.blind : ∀ {t : ArgType}, t.Builtin → t.Blind
  | .list element, h => by
    have h : element.Builtin := h
    exact h.blind
  | .exactList elements, h => by
    have h : BuiltinAll elements := h
    exact h.blind
  | .map key value, h => ⟨Builtin.blind h.1, Builtin.blind h.2⟩
  | .record fields, h => by
    have h : BuiltinFields fields := h
    exact h.blind
  | .custom _, h => h.elim
  | .any, _ | .string, _ | .int, _ | .float, _ | .bool, _ | .char, _ | .enumeration _ _, _
  | .exact _, _ => trivial

theorem BuiltinAll.blind : ∀ {ts : List ArgType}, BuiltinAll ts → BlindAll ts
  | [], _ => trivial
  | _ :: _, h => ⟨Builtin.blind h.1, BuiltinAll.blind h.2⟩

theorem BuiltinFields.blind : ∀ {fs : List (RecordField ArgType)},
    BuiltinFields fs → BlindFields fs
  | [], _ => trivial
  | ⟨_, _, _⟩ :: _, h => ⟨Builtin.blind h.1, BuiltinFields.blind h.2⟩

end

theorem BlindAll.head : ∀ {ts : List ArgType}, BlindAll ts → (ts.headD .any).Blind
  | [], _ => trivial
  | _ :: _, h => h.1

theorem BlindAll.tail : ∀ {ts : List ArgType}, BlindAll ts → BlindAll ts.tail
  | [], h => h
  | _ :: _, h => h.2

theorem BlindFields.of_mem : ∀ {fs : List (RecordField ArgType)} {f : RecordField ArgType},
    BlindFields fs → f ∈ fs → f.type.Blind
  | ⟨_, _, _⟩ :: fs, f, h, hf => by
    rcases List.mem_cons.mp hf with rfl | hf
    · exact h.1
    · exact BlindFields.of_mem h.2 hf

/-! ### The cases of a conversion -/

section Cases

variable {t : ArgType}

theorem convert_refused {input : Literal} (h : t.kind.accepts input.kind = false) :
    t.convert input = .error (t.kindMismatch input) := by
  unfold convert
  rw [if_neg (by simp [h])]

theorem convert_any (input : Literal) : convert .any input = .ok (.ofLiteral input) := by
  cases input <;> simp [convert, ArgType.kind, Literal.kind, TypeKind.accepts]

theorem convert_custom (c : CustomType) {input : Literal} (h : c.kind.accepts input.kind = true) :
    convert (.custom c) input =
      (c.convert input).mapError fun reason => .here (.custom c) input (some reason) := by
  have hk : (custom c).kind.accepts input.kind = true := h
  cases input <;> rw [convert, if_pos hk]

/-- How a type reads a scalar that takes nothing else. -/
theorem convert_scalar (hk : t.kind = .single) (hc : ∀ c, t ≠ .custom c) (text : String)
    (span : Span) : t.convert (.scalar text span) =
      (t.convertText text).mapError fun reason => .here t (.scalar text span) reason := by
  cases t with
  | any | list | exactList | map | record => cases hk
  | custom c => exact absurd rfl (hc c)
  | _ => simp [convert, ArgType.kind, Literal.kind, TypeKind.accepts]

theorem convert_bool {text : String} {b : Bool} (h : readBool? text = some b) (span : Span) :
    convert .bool (.scalar text span) = .ok (.bool b) := by
  rw [convert_scalar rfl (fun c hc => by cases hc), convertText, h]
  rfl

theorem convert_list (element : ArgType) (items : List Literal) (span : Span) :
    convert (.list element) (.list items span) = (convertItems element 0 items).map .list := by
  simp [convert, ArgType.kind, Literal.kind, TypeKind.accepts]

theorem convert_exactList (elements : List ArgType) (items : List Literal) (span : Span) :
    (exactList elements).convert (.list items span) =
      if elements.length = items.length then (convertPlaces elements 0 items).map .list
      else .error (.here (exactList elements) (.list items span)
        (some ("expected " ++ toString elements.length ++ " elements, found " ++
          toString items.length))) := by
  conv => lhs; rw [convert]
  rfl

/-- A list of fixed length has as many items as it has places. -/
theorem length_of_convert_exactList {elements : List ArgType} {items : List Literal} {span : Span}
    {w : Value} (h : (exactList elements).convert (.list items span) = .ok w) :
    elements.length = items.length := by
  rw [convert_exactList] at h
  split at h
  · assumption
  · cases h

theorem convert_map (key value : ArgType) (entries : List (Literal × Literal)) (span : Span) :
    convert (.map key value) (.map entries span) = (convertEntries key value entries).map .map := by
  simp [convert, ArgType.kind, Literal.kind, TypeKind.accepts]

theorem convert_record (fields : List (RecordField ArgType))
    (entries : List (Literal × Literal)) (span : Span) :
    convert (.record fields) (.map entries span) =
      match convertFields fields [] entries with
      | .error m => .error m
      | .ok values =>
        match missingField? fields entries with
        | some f => .error (.under (.key f.key) (.here (.record fields) (.map entries span)
            (some ("missing field '" ++ f.key ++ "'"))))
        | none => .ok (.map values) := by
  conv => lhs; rw [convert]
  rfl

theorem missingField?_unspanned (fields : List (RecordField ArgType))
    (entries : List (Literal × Literal)) :
    missingField? fields (unspannedEntries entries) = missingField? fields entries := by
  rw [missingField?, missingField?, filterMap_asScalar?_unspanned]

end Cases

end ArgType

/-! ### Spans -/

/-- A literal is refused for the same reason, wherever it stands. -/
structure TypeMismatch.Alike (m m' : TypeMismatch) : Prop where
  path : m'.path = m.path
  input : m'.input = m.input
  expected : m'.expected = m.expected
  reason : m'.reason = m.reason

namespace TypeMismatch

theorem Alike.here (t : ArgType) (v : Literal) (reason : Option String) :
    Alike (.here t v reason) (.here t v.unspanned reason) :=
  ⟨rfl, render_unspanned v, rfl, rfl⟩

theorem Alike.under {m m' : TypeMismatch} (h : m.Alike m') (segment : PathSegment) :
    Alike (m.under segment) (m'.under segment) :=
  ⟨congrArg (segment :: ·) h.path, h.input, h.expected, h.reason⟩

end TypeMismatch

namespace ArgType

theorem agree_refused {t : ArgType} {v : Literal} (h : t.kind.accepts v.kind = false) :
    Agree TypeMismatch.Alike Eq (t.convert v) (t.convert v.unspanned) := by
  rw [convert_refused h, convert_refused (by rw [kind_unspanned, h])]
  refine .error ?_
  rw [kindMismatch, kindMismatch, kind_unspanned]
  exact .here ..

theorem agree_any (v : Literal) :
    Agree TypeMismatch.Alike Eq (convert .any v) (convert .any v.unspanned) := by
  rw [convert_any, convert_any, Value.ofLiteral_unspanned]
  exact .ok rfl

theorem agree_custom {c : CustomType} (h : (custom c).Blind) (v : Literal) :
    Agree TypeMismatch.Alike Eq (convert (.custom c) v) (convert (.custom c) v.unspanned) := by
  cases hk : c.kind.accepts v.kind with
  | false => exact agree_refused hk
  | true =>
    have h : ∀ v, c.convert v.unspanned = c.convert v := h
    rw [convert_custom c hk, convert_custom c (by rw [kind_unspanned, hk]), h]
    cases c.convert v with
    | error reason => exact .error (.here ..)
    | ok w => exact .ok rfl

mutual

/-- **A literal and the same one without spans convert to the same value**, or are refused for the
same reason. -/
theorem convert_unspanned : ∀ (v : Literal) {t : ArgType}, t.Blind →
    Agree TypeMismatch.Alike Eq (t.convert v) (t.convert v.unspanned)
  | .empty span, t, h => by
    cases t with
    | any => exact agree_any _
    | custom => exact agree_custom h _
    | _ => exact agree_refused rfl
  | .scalar text span, t, h => by
    have hsingle : t.kind = .single → (∀ c, t ≠ .custom c) → Agree TypeMismatch.Alike Eq
        (t.convert (.scalar text span)) (t.convert (unspanned (.scalar text span))) := by
      intro hk hc
      rw [unspanned, convert_scalar hk hc, convert_scalar hk hc]
      cases t.convertText text with
      | error reason => exact .error ⟨rfl, rfl, rfl, rfl⟩
      | ok w => exact .ok rfl
    cases t with
    | any => exact agree_any _
    | custom => exact agree_custom h _
    | list | exactList | map | record => exact agree_refused rfl
    | _ => exact hsingle rfl fun _ hc => by cases hc
  | .list items span, t, h => by
    cases t with
    | any => exact agree_any _
    | custom => exact agree_custom h _
    | list element =>
      have h : element.Blind := h
      rw [unspanned, convert_list, convert_list]
      exact (convertItems_unspanned items h).map fun _ _ he => congrArg _ he
    | exactList elements =>
      have h : BlindAll elements := h
      rw [unspanned, convert_exactList, convert_exactList, length_unspannedItems]
      split
      · exact (convertPlaces_unspanned items h).map fun _ _ he => congrArg _ he
      · exact .error (by simpa only [unspanned] using TypeMismatch.Alike.here _ (.list items span) _)
    | _ => exact agree_refused rfl
  | .map entries span, t, h => by
    cases t with
    | any => exact agree_any _
    | custom => exact agree_custom h _
    | map key value =>
      rw [unspanned, convert_map, convert_map]
      exact (convertEntries_unspanned entries h.1 h.2).map fun _ _ he => congrArg _ he
    | record fields =>
      have h : BlindFields fields := h
      rw [unspanned, convert_record, convert_record, missingField?_unspanned]
      rcases (convertFields_unspanned entries [] h).cases with
        ⟨m, m', hm, hm', hsame⟩ | ⟨ws, ws', hws, hws', rfl⟩
      · rw [hm, hm']
        exact .error hsame
      · rw [hws, hws']
        cases missingField? fields entries with
        | none => exact .ok rfl
        | some f =>
          refine .error (.under ?_ _)
          simpa only [unspanned] using TypeMismatch.Alike.here _ (.map entries span) _
    | _ => exact agree_refused rfl

theorem convertItems_unspanned : ∀ (items : List Literal) {element : ArgType} {i : Nat},
    element.Blind → Agree TypeMismatch.Alike Eq (convertItems element i items)
      (convertItems element i (unspannedItems items))
  | [], _, _, _ => .ok rfl
  | item :: items, element, i, h => by
    rw [unspannedItems, convertItems, convertItems]
    rcases (convert_unspanned item h).cases with ⟨m, m', hm, hm', hsame⟩ | ⟨v, w, hv, hw, rfl⟩
    · rw [hm, hm']
      exact .error (hsame.under _)
    · rw [hv, hw]
      exact (convertItems_unspanned items h).map fun _ _ he => congrArg _ he

theorem convertPlaces_unspanned : ∀ (items : List Literal) {elements : List ArgType} {i : Nat},
    BlindAll elements → Agree TypeMismatch.Alike Eq (convertPlaces elements i items)
      (convertPlaces elements i (unspannedItems items))
  | [], _, _, _ => .ok rfl
  | item :: items, elements, i, h => by
    rw [unspannedItems, convertPlaces, convertPlaces]
    rcases (convert_unspanned item h.head).cases with
      ⟨m, m', hm, hm', hsame⟩ | ⟨v, w, hv, hw, rfl⟩
    · rw [hm, hm']
      exact .error (hsame.under _)
    · rw [hv, hw]
      exact (convertPlaces_unspanned items h.tail).map fun _ _ he => congrArg _ he

theorem convertEntries_unspanned : ∀ (entries : List (Literal × Literal)) {key value : ArgType},
    key.Blind → value.Blind → Agree TypeMismatch.Alike Eq (convertEntries key value entries)
      (convertEntries key value (unspannedEntries entries))
  | [], _, _, _, _ => .ok rfl
  | (k, v) :: entries, key, value, hk, hv => by
    rw [unspannedEntries, convertEntries, convertEntries, keyText_unspanned]
    rcases (convert_unspanned k hk).cases with ⟨m, m', hm, hm', hsame⟩ | ⟨a, a', ha, ha', rfl⟩
    · rw [hm, hm']
      exact .error (hsame.under _)
    · rw [ha, ha']
      dsimp only
      rcases (convert_unspanned v hv).cases with ⟨m, m', hm, hm', hsame⟩ | ⟨b, b', hb, hb', rfl⟩
      · rw [hm, hm']
        exact .error (hsame.under _)
      · rw [hb, hb']
        exact (convertEntries_unspanned entries hk hv).map fun _ _ he => congrArg _ he

theorem convertFields_unspanned : ∀ (entries : List (Literal × Literal)) (seen : List String)
    {fields : List (RecordField ArgType)}, BlindFields fields →
      Agree TypeMismatch.Alike Eq (convertFields fields seen entries)
        (convertFields fields seen (unspannedEntries entries))
  | [], _, _, _ => .ok rfl
  | (k, v) :: entries, seen, fields, h => by
    rw [unspannedEntries, convertFields, convertFields, asScalar?_unspanned]
    cases k.asScalar? with
    | none => exact .error (.here ..)
    | some name =>
      dsimp only
      cases hf : findField? fields name with
      | none => exact .error (.under (.here ..) _)
      | some f =>
        dsimp only
        split
        · exact .error (.under (.here ..) _)
        · have hblind : f.type.Blind := h.of_mem (List.mem_of_find?_eq_some hf)
          rcases (convert_unspanned v hblind).cases with
            ⟨m, m', hm, hm', hsame⟩ | ⟨b, b', hb, hb', rfl⟩
          · rw [hm, hm']
            exact .error (hsame.under _)
          · rw [hb, hb']
            exact (convertFields_unspanned entries _ h).map fun _ _ he => congrArg _ he

end

/-- Literals that differ in spans only convert to the same value, or are refused alike. -/
theorem convert_alike {t : ArgType} {a b : Literal} (ht : t.Blind)
    (hab : a.unspanned = b.unspanned) : Agree TypeMismatch.Alike Eq (t.convert a) (t.convert b) := by
  have ha := convert_unspanned a ht
  have hb := convert_unspanned b ht
  rw [hab] at ha
  rcases ha.cases with ⟨m, n, hm, hn, hmn⟩ | ⟨v, w, hv, hw, rfl⟩
  · rcases hb.cases with ⟨m', n', hm', hn', hmn'⟩ | ⟨v', w', -, hw', -⟩
    · rw [hm, hm']
      obtain rfl : n = n' := Except.error.inj (hn.symm.trans hn')
      exact .error ⟨hmn'.path.symm.trans hmn.path, hmn'.input.symm.trans hmn.input,
        hmn'.expected.symm.trans hmn.expected, hmn'.reason.symm.trans hmn.reason⟩
    · rw [hn] at hw'
      cases hw'
  · rcases hb.cases with ⟨m', n', -, hn', -⟩ | ⟨v', w', hv', hw', rfl⟩
    · rw [hw] at hn'
      cases hn'
    · rw [hv, hv']
      exact .ok (Except.ok.inj (hw.symm.trans hw'))

/-- Literals that differ in spans only convert to the same value. -/
theorem convert_congr {t : ArgType} {a b : Literal} {v : Value} (ht : t.Builtin)
    (hab : a.unspanned = b.unspanned) (h : t.convert a = .ok v) : t.convert b = .ok v := by
  obtain ⟨w, hw, rfl⟩ := (convert_alike ht.blind hab).of_ok h
  exact hw

end ArgType
end CommandConsole
