/-
# Values are converted to themselves

A value is written back as a literal: lists and maps are kept, and everything
else is a scalar with the text that the value is displayed as. What a type has
made of a literal it makes of the written value again: an integer in its
decimal form, without the sign and the zeros that it may have been given with,
a truth value in small letters, and every other scalar as it was. The displayed
text of a float or of a custom value may say less than the value, so the type
has neither.

Key definitions: `Value.written`, `ArgType.Discrete`.
Key theorems: `ArgType.convertText_display`, `ArgType.convert_written`, `convert_rendered`.
-/
import CommandConsole.Binding.Run
import CommandConsole.Proofs.ArgType.Conversion
import CommandConsole.Proofs.Literal.RoundTrip
import CommandConsole.Proofs.Number.Decimal

namespace CommandConsole

namespace Value

mutual

/-- The literal that the value is written back as. -/
def written : Value → Literal
  | .list items => .list (writtenItems items) default
  | .map entries => .map (writtenEntries entries) default
  | v => .scalar v.display default

def writtenItems : List Value → List Literal
  | [] => []
  | v :: vs => written v :: writtenItems vs

def writtenEntries : List (Value × Value) → List (Literal × Literal)
  | [] => []
  | (k, v) :: es => (written k, written v) :: writtenEntries es

end

@[simp] theorem length_writtenItems : ∀ vs : List Value, (writtenItems vs).length = vs.length
  | [] => rfl
  | _ :: vs => congrArg (· + 1) (length_writtenItems vs)

open Literal

mutual

/-- The value of a literal of which nothing is expected is written back as that literal. -/
theorem ofLiteral_written : ∀ {input : Literal}, input.EmptyFree →
    ofLiteral (ofLiteral input).written = ofLiteral input ∧ (ofLiteral input).written.EmptyFree
  | .empty _, h => h.elim
  | .scalar text _, _ => by simp [ofLiteral, written, display, EmptyFree]
  | .list items _, h => by
    have h : EmptyFreeItems items := h
    obtain ⟨hitems, hfree⟩ := ofItems_written h
    simp only [ofLiteral, written, hitems]
    exact ⟨trivial, hfree⟩
  | .map entries _, h => by
    have h : EmptyFreeEntries entries := h
    obtain ⟨hentries, hfree⟩ := ofEntries_written h
    simp only [ofLiteral, written, hentries]
    exact ⟨trivial, hfree⟩

theorem ofItems_written : ∀ {items : List Literal}, EmptyFreeItems items →
    ofItems (writtenItems (ofItems items)) = ofItems items ∧
      EmptyFreeItems (writtenItems (ofItems items))
  | [], _ => ⟨rfl, trivial⟩
  | i :: is, h => by
    obtain ⟨hi, hfree⟩ := ofLiteral_written h.1
    obtain ⟨his, hfrees⟩ := ofItems_written h.2
    simp only [ofItems, writtenItems, hi, his]
    exact ⟨trivial, hfree, hfrees⟩

theorem ofEntries_written : ∀ {entries : List (Literal × Literal)}, EmptyFreeEntries entries →
    ofEntries (writtenEntries (ofEntries entries)) = ofEntries entries ∧
      EmptyFreeEntries (writtenEntries (ofEntries entries))
  | [], _ => ⟨rfl, trivial⟩
  | (k, v) :: es, h => by
    obtain ⟨hk, hkfree⟩ := ofLiteral_written h.1.1
    obtain ⟨hv, hvfree⟩ := ofLiteral_written h.1.2
    obtain ⟨hes, hfrees⟩ := ofEntries_written h.2
    simp only [ofEntries, writtenEntries, hk, hv, hes]
    exact ⟨trivial, ⟨hkfree, hvfree⟩, hfrees⟩

end

end Value

open Literal Value

namespace ArgType

mutual

/-- No part of the type is a float or custom. -/
def Discrete : ArgType → Prop
  | .list element => element.Discrete
  | .exactList elements => DiscreteAll elements
  | .map key value => key.Discrete ∧ value.Discrete
  | .record fields => DiscreteFields fields
  | .float | .custom _ => False
  | _ => True

def DiscreteAll : List ArgType → Prop
  | [] => True
  | t :: ts => t.Discrete ∧ DiscreteAll ts

def DiscreteFields : List (RecordField ArgType) → Prop
  | [] => True
  | ⟨_, t, _⟩ :: fs => t.Discrete ∧ DiscreteFields fs

end

mutual

theorem Discrete.builtin : ∀ {t : ArgType}, t.Discrete → t.Builtin
  | .list element, h => by
    have h : element.Discrete := h
    exact h.builtin
  | .exactList elements, h => by
    have h : DiscreteAll elements := h
    exact h.builtin
  | .map key value, h => ⟨Discrete.builtin h.1, Discrete.builtin h.2⟩
  | .record fields, h => by
    have h : DiscreteFields fields := h
    exact h.builtin
  | .float, h | .custom _, h => h.elim
  | .any, _ | .string, _ | .int, _ | .bool, _ | .char, _ | .enumeration _ _, _
  | .exact _, _ => trivial

theorem DiscreteAll.builtin : ∀ {ts : List ArgType}, DiscreteAll ts → BuiltinAll ts
  | [], _ => trivial
  | _ :: _, h => ⟨Discrete.builtin h.1, DiscreteAll.builtin h.2⟩

theorem DiscreteFields.builtin : ∀ {fs : List (RecordField ArgType)},
    DiscreteFields fs → BuiltinFields fs
  | [], _ => trivial
  | ⟨_, _, _⟩ :: _, h => ⟨Discrete.builtin h.1, DiscreteFields.builtin h.2⟩

end

theorem DiscreteAll.head : ∀ {ts : List ArgType}, DiscreteAll ts → (ts.headD .any).Discrete
  | [], _ => trivial
  | _ :: _, h => h.1

theorem DiscreteAll.tail : ∀ {ts : List ArgType}, DiscreteAll ts → DiscreteAll ts.tail
  | [], h => h
  | _ :: _, h => h.2

theorem DiscreteFields.of_mem : ∀ {fs : List (RecordField ArgType)} {f : RecordField ArgType},
    DiscreteFields fs → f ∈ fs → f.type.Discrete
  | ⟨_, _, _⟩ :: _, _, h, hf => by
    rcases List.mem_cons.mp hf with rfl | hf
    · exact h.1
    · exact DiscreteFields.of_mem h.2 hf

/-! ### Conversions that succeed, part by part -/

section Parts

variable {element key value : ArgType} {elements : List ArgType}
  {fields : List (RecordField ArgType)} {seen : List String} {i : Nat} {item k v : Literal}
  {items : List Literal} {entries : List (Literal × Literal)} {ws : List Value}
  {es : List (Value × Value)}

theorem convertItems_cons : convertItems element i (item :: items) = .ok ws ↔
    ∃ w us, element.convert item = .ok w ∧ convertItems element (i + 1) items = .ok us ∧
      ws = w :: us := by
  rw [convertItems]
  cases element.convert item with
  | error m => simp
  | ok w => cases convertItems element (i + 1) items <;> simp [Except.map, eq_comm]

theorem convertPlaces_cons : convertPlaces elements i (item :: items) = .ok ws ↔
    ∃ w us, (elements.headD .any).convert item = .ok w ∧
      convertPlaces elements.tail (i + 1) items = .ok us ∧ ws = w :: us := by
  rw [convertPlaces]
  cases (elements.headD .any).convert item with
  | error m => simp
  | ok w => cases convertPlaces elements.tail (i + 1) items <;> simp [Except.map, eq_comm]

theorem convertEntries_cons : convertEntries key value ((k, v) :: entries) = .ok es ↔
    ∃ a b us, key.convert k = .ok a ∧ value.convert v = .ok b ∧
      convertEntries key value entries = .ok us ∧ es = (a, b) :: us := by
  rw [convertEntries]
  cases key.convert k with
  | error m => simp
  | ok a =>
    cases value.convert v with
    | error m => simp
    | ok b => cases convertEntries key value entries <;> simp [Except.map, eq_comm]

theorem convertFields_cons : convertFields fields seen ((k, v) :: entries) = .ok es ↔
    ∃ name f b us, k.asScalar? = some name ∧ findField? fields name = some f ∧
      seen.contains name = false ∧ f.type.convert v = .ok b ∧
      convertFields fields (name :: seen) entries = .ok us ∧ es = (.string name, b) :: us := by
  rw [convertFields]
  cases k.asScalar? with
  | none => simp
  | some name =>
    cases hf : findField? fields name with
    | none => simp [hf]
    | some f =>
      simp only [hf, Option.some.injEq, exists_and_left, exists_eq_left']
      cases hseen : seen.contains name with
      | true => simp
      | false =>
        cases f.type.convert v with
        | error m => simp
        | ok b => cases convertFields fields (name :: seen) entries <;> simp [Except.map, eq_comm]

end Parts

/-! ### What a type makes of a written value -/

theorem readBool?_display (b : Bool) : readBool? (Value.bool b).display = some b := by
  cases b <;> decide +kernel

/-- **What is read of a scalar is read of its displayed text.** -/
theorem convertText_display {t : ArgType} (ht : t.Discrete) {text : String} {v : Value}
    (h : t.convertText text = .ok v) :
    t.convertText v.display = .ok v ∧ v.written = .scalar v.display default := by
  cases t with
  | float | custom => exact ht.elim
  | any | list | exactList | map | record => cases h
  | string =>
    obtain rfl := Except.ok.inj h
    exact ⟨rfl, rfl⟩
  | int =>
    simp only [convertText] at h
    split at h
    · rename_i n _
      obtain rfl := Except.ok.inj h
      refine ⟨?_, rfl⟩
      simp only [convertText, display, readInteger_toString]
    · cases h
  | bool =>
    simp only [convertText] at h
    split at h
    · rename_i b _
      obtain rfl := Except.ok.inj h
      refine ⟨?_, rfl⟩
      simp only [convertText, readBool?_display]
    · cases h
  | char =>
    simp only [convertText] at h
    split at h
    · rename_i c _
      obtain rfl := Except.ok.inj h
      refine ⟨?_, rfl⟩
      simp only [convertText, display, Char.toString_eq_singleton, String.toList_singleton]
    · cases h
  | enumeration name members =>
    have hread := h
    simp only [convertText] at hread
    split at hread
    · obtain rfl := Except.ok.inj hread
      exact ⟨h, rfl⟩
    · cases hread
  | exact expected =>
    have hread := h
    simp only [convertText] at hread
    split at hread
    · obtain rfl := Except.ok.inj hread
      exact ⟨h, rfl⟩
    · cases hread

/-- A scalar that has been read is read again as it is written. -/
theorem convert_scalar_written {t : ArgType} (ht : t.Discrete) (hk : t.kind = .single)
    {text : String} {span : Span} {v : Value} (h : t.convert (.scalar text span) = .ok v) :
    t.convert v.written = .ok v ∧ v.written.EmptyFree := by
  have hc : ∀ c, t ≠ .custom c := by
    rintro c rfl
    exact ht.elim
  rw [convert_scalar hk hc] at h
  cases hread : t.convertText text with
  | error reason =>
    rw [hread] at h
    cases h
  | ok w =>
    rw [hread] at h
    obtain rfl := Except.ok.inj h
    obtain ⟨hagain, hwritten⟩ := convertText_display ht hread
    rw [hwritten, convert_scalar hk hc, hagain]
    exact ⟨rfl, trivial⟩

/-- Anything at all that has been read is read again as it is written. -/
theorem convert_any_written {input : Literal} (hfree : input.EmptyFree) {v : Value}
    (h : convert .any input = .ok v) :
    convert .any v.written = .ok v ∧ v.written.EmptyFree := by
  rw [convert_any] at h
  obtain rfl := Except.ok.inj h
  obtain ⟨hsame, hwritten⟩ := ofLiteral_written hfree
  rw [convert_any, hsame]
  exact ⟨rfl, hwritten⟩

mutual

/-- **What a type makes of a literal it makes of the written value again.** -/
theorem convert_written : ∀ {input : Literal} {t : ArgType} {v : Value}, t.Discrete →
    input.EmptyFree → t.convert input = .ok v →
      t.convert v.written = .ok v ∧ v.written.EmptyFree
  | .empty _, _, _, _, hfree, _ => hfree.elim
  | .scalar text span, t, v, ht, hfree, h => by
    cases t with
    | any => exact convert_any_written hfree h
    | float | custom => exact ht.elim
    | list | exactList | map | record => cases (convert_refused rfl).symm.trans h
    | _ => exact convert_scalar_written ht rfl h
  | .list items span, t, v, ht, hfree, h => by
    cases t with
    | any => exact convert_any_written hfree h
    | float | custom => exact ht.elim
    | list element =>
      have ht : element.Discrete := ht
      rw [convert_list] at h
      obtain ⟨ws, hws, rfl⟩ := exists_of_map_eq_ok h
      obtain ⟨hagain, hwritten⟩ := convertItems_written ht hfree hws
      rw [written, convert_list, hagain]
      exact ⟨rfl, hwritten⟩
    | exactList elements =>
      have ht : DiscreteAll elements := ht
      have hlength := length_of_convert_exactList h
      rw [convert_exactList, if_pos hlength] at h
      obtain ⟨ws, hws, rfl⟩ := exists_of_map_eq_ok h
      obtain ⟨hagain, hwritten, hsize⟩ := convertPlaces_written ht hfree hws
      rw [written, convert_exactList, length_writtenItems, hsize, if_pos hlength, hagain]
      exact ⟨rfl, hwritten⟩
    | _ => cases (convert_refused rfl).symm.trans h
  | .map entries span, t, v, ht, hfree, h => by
    cases t with
    | any => exact convert_any_written hfree h
    | float | custom => exact ht.elim
    | map key value =>
      rw [convert_map] at h
      obtain ⟨es, hes, rfl⟩ := exists_of_map_eq_ok h
      obtain ⟨hagain, hwritten⟩ := convertEntries_written ht.1 ht.2 hfree hes
      rw [written, convert_map, hagain]
      exact ⟨rfl, hwritten⟩
    | record fields =>
      have ht : DiscreteFields fields := ht
      rw [convert_record] at h
      cases hes : convertFields fields [] entries with
      | error m =>
        rw [hes] at h
        cases h
      | ok es =>
        obtain ⟨hagain, hwritten, hnames⟩ := convertFields_written ht hfree hes
        have hmissing : missingField? fields (writtenEntries es) = missingField? fields entries := by
          rw [missingField?, missingField?, hnames]
        rw [hes] at h
        dsimp only at h
        split at h
        · cases h
        · rename_i hnone
          obtain rfl := Except.ok.inj h
          rw [written, convert_record, hagain, hmissing, hnone]
          exact ⟨rfl, hwritten⟩
    | _ => cases (convert_refused rfl).symm.trans h

theorem convertItems_written : ∀ {items : List Literal} {element : ArgType} {i : Nat}
    {ws : List Value}, element.Discrete → EmptyFreeItems items →
      convertItems element i items = .ok ws →
        convertItems element i (writtenItems ws) = .ok ws ∧ EmptyFreeItems (writtenItems ws)
  | [], _, _, _, _, _, h => by
    obtain rfl := Except.ok.inj h
    exact ⟨rfl, trivial⟩
  | item :: items, element, i, ws, ht, hfree, h => by
    obtain ⟨w, us, hw, hus, rfl⟩ := convertItems_cons.mp h
    obtain ⟨hwagain, hwritten⟩ := convert_written ht hfree.1 hw
    obtain ⟨husagain, hwrittens⟩ := convertItems_written ht hfree.2 hus
    exact ⟨convertItems_cons.mpr ⟨w, us, hwagain, husagain, rfl⟩, hwritten, hwrittens⟩

theorem convertPlaces_written : ∀ {items : List Literal} {elements : List ArgType} {i : Nat}
    {ws : List Value}, DiscreteAll elements → EmptyFreeItems items →
      convertPlaces elements i items = .ok ws →
        convertPlaces elements i (writtenItems ws) = .ok ws ∧ EmptyFreeItems (writtenItems ws) ∧
          ws.length = items.length
  | [], _, _, _, _, _, h => by
    obtain rfl := Except.ok.inj h
    exact ⟨rfl, trivial, rfl⟩
  | item :: items, elements, i, ws, ht, hfree, h => by
    obtain ⟨w, us, hw, hus, rfl⟩ := convertPlaces_cons.mp h
    obtain ⟨hwagain, hwritten⟩ := convert_written ht.head hfree.1 hw
    obtain ⟨husagain, hwrittens, hsize⟩ := convertPlaces_written ht.tail hfree.2 hus
    exact ⟨convertPlaces_cons.mpr ⟨w, us, hwagain, husagain, rfl⟩, ⟨hwritten, hwrittens⟩,
      congrArg (· + 1) hsize⟩

theorem convertEntries_written : ∀ {entries : List (Literal × Literal)} {key value : ArgType}
    {es : List (Value × Value)}, key.Discrete → value.Discrete → EmptyFreeEntries entries →
      convertEntries key value entries = .ok es →
        convertEntries key value (writtenEntries es) = .ok es ∧
          EmptyFreeEntries (writtenEntries es)
  | [], _, _, _, _, _, _, h => by
    obtain rfl := Except.ok.inj h
    exact ⟨rfl, trivial⟩
  | (k, v) :: entries, key, value, es, hkey, hvalue, hfree, h => by
    obtain ⟨a, b, us, ha, hb, hus, rfl⟩ := convertEntries_cons.mp h
    obtain ⟨haagain, hawritten⟩ := convert_written hkey hfree.1.1 ha
    obtain ⟨hbagain, hbwritten⟩ := convert_written hvalue hfree.1.2 hb
    obtain ⟨husagain, hwrittens⟩ := convertEntries_written hkey hvalue hfree.2 hus
    exact ⟨convertEntries_cons.mpr ⟨a, b, us, haagain, hbagain, husagain, rfl⟩,
      ⟨hawritten, hbwritten⟩, hwrittens⟩

/-- The written fields have the names that were given, so none is missing that was not. -/
theorem convertFields_written : ∀ {entries : List (Literal × Literal)} {seen : List String}
    {fields : List (RecordField ArgType)} {es : List (Value × Value)}, DiscreteFields fields →
      EmptyFreeEntries entries → convertFields fields seen entries = .ok es →
        convertFields fields seen (writtenEntries es) = .ok es ∧
          EmptyFreeEntries (writtenEntries es) ∧
            (writtenEntries es).filterMap (fun e => e.1.asScalar?) =
              entries.filterMap fun e => e.1.asScalar?
  | [], _, _, _, _, _, h => by
    obtain rfl := Except.ok.inj h
    exact ⟨rfl, trivial, rfl⟩
  | (k, v) :: entries, seen, fields, es, ht, hfree, h => by
    obtain ⟨name, f, b, us, hname, hf, hseen, hb, hus, rfl⟩ := convertFields_cons.mp h
    have hfield : f.type.Discrete := ht.of_mem (List.mem_of_find?_eq_some hf)
    obtain ⟨hbagain, hbwritten⟩ := convert_written hfield hfree.1.2 hb
    obtain ⟨husagain, hwrittens, hnames⟩ := convertFields_written ht hfree.2 hus
    refine ⟨convertFields_cons.mpr ⟨name, f, b, us, rfl, hf, hseen, hbagain, husagain, rfl⟩,
      ⟨⟨trivial, hbwritten⟩, hwrittens⟩, ?_⟩
    rw [writtenEntries, List.filterMap_cons, List.filterMap_cons, hname, hnames]
    rfl

end

end ArgType

/-- **The value that a type makes of a literal is read back from its written form**: rendered,
read with a limit that lets it in, and converted to the type, it is that value again. -/
theorem convert_rendered {t : ArgType} (ht : t.Discrete) {input : Literal} (hfree : input.EmptyFree)
    {v : Value} (h : t.convert input = .ok v) {limit : Nat} (hdepth : v.written.depth ≤ limit) :
    ∃ l, parseLiteral limit v.written.render = .ok l ∧ t.convert l = .ok v := by
  obtain ⟨hagain, hwritten⟩ := ArgType.convert_written ht hfree h
  obtain ⟨l, hl, hsame⟩ := parseLiteral_render hwritten hdepth
  exact ⟨l, hl, ArgType.convert_congr ht.builtin hsame.symm hagain⟩

/-- A record with integers for keys, the smallest of which has no positive counterpart, and with
characters that are not written as they are. -/
theorem convert_rendered_record :
    let t : ArgType := .record [⟨"on", .map .int .bool, false⟩, ⟨"at", .exactList [.char,
      .enumeration "place" ["a, b"]], false⟩, ⟨"more", .any, true⟩]
    let input : Literal := .map [(.scalar "at" default, .list [.scalar "\"" default,
      .scalar "a, b" default] default), (.scalar "on" default, .map [(.scalar "+007" default,
      .scalar "TRUE" default), (.scalar "-9223372036854775808" default,
      .scalar "False" default)] default)] default
    let v : Value := .map [(.string "at", .list [.char '"', .member "a, b"]),
      (.string "on", .map [(.int 7, .bool true), (.int (-9223372036854775808), .bool false)])]
    t.Discrete ∧ input.EmptyFree ∧ t.convert input = .ok v ∧ v.written.depth ≤ 2 ∧
      ∃ l, parseLiteral 2 v.written.render = .ok l ∧ t.convert l = .ok v := by
  intro t input v
  have ht : t.Discrete := ⟨⟨trivial, trivial⟩, ⟨trivial, trivial, trivial⟩, trivial, trivial⟩
  have hfree : input.EmptyFree := by
    simp [input, EmptyFree, EmptyFreeItems, EmptyFreeEntries]
  have hconvert : t.convert input = .ok v := by rfl
  have hdepth : v.written.depth ≤ 2 := by decide +kernel
  exact ⟨ht, hfree, hconvert, hdepth, convert_rendered ht hfree hconvert hdepth⟩

end CommandConsole
