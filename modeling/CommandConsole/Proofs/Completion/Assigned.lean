/-
# Suggestions inside an assigned literal

In `--name=value` the argument is the one with the name, whatever the value
looks like, and the suggestions inside of the value are those of the type of
the argument, followed through the open containers. What the value is converted
to is decided somewhere else: an argument for a single value, or for one list of
values, converts it as it stands, but a vararg takes a list apart and converts
each of its items. The outermost bracket of the list is then no step into the
type, and the suggestions, which follow the type through it all the same, are
not about the type that the value at the cursor is converted to.

Key definitions: `Literal.HasAt`, `Argument.assignedInside?`.
Key theorems: `ArgType.convert_follow?`, `Argument.inside_of_takeAssigned`,
`CommandParser.completeLine_assigned`.
-/
import CommandConsole.Proofs.ArgType.Pinpoint
import CommandConsole.Proofs.Binding.Taking
import CommandConsole.Proofs.Completion.Inside
import CommandConsole.Proofs.Completion.Place

namespace CommandConsole

open OpenContext

/-! ### What stands in the frames of a literal -/

/-- The literal `n` stands in the literal `v` where a text that ends in these frames would go on:
as the item of a list, the key of a map, or the value of a key. -/
inductive Literal.HasAt : Literal → List Frame → Literal → Prop
  | here (v : Literal) : HasAt v [] v
  | item {items : List Literal} {span : Span} {i : Nat} {p n : Literal} {fs : List Frame}
      (part : items[i]? = some p) (rest : HasAt p fs n) : HasAt (.list items span) (.list i :: fs) n
  | key {entries : List (Literal × Literal)} {span : Span} {i : Nat} {keys : List String}
      {k x n : Literal} {fs : List Frame} (part : entries[i]? = some (k, x))
      (rest : HasAt k fs n) : HasAt (.map entries span) (.mapKey i keys :: fs) n
  | value {entries : List (Literal × Literal)} {span : Span} {i : Nat} {key : String}
      {k x n : Literal} {fs : List Frame} (part : entries[i]? = some (k, x))
      (key_eq : k.keyText = key) (rest : HasAt x fs n) :
      HasAt (.map entries span) (.mapValue i key :: fs) n

namespace ArgType

variable {t u : ArgType} {v n : Literal} {w : Value}

/-! ### The types of parts -/

theorem BuiltinAll.of_mem : ∀ {ts : List ArgType} {t : ArgType}, BuiltinAll ts → t ∈ ts → t.Builtin
  | _ :: _, _, h, ht => by
    rcases List.mem_cons.mp ht with rfl | ht
    · exact h.1
    · exact BuiltinAll.of_mem h.2 ht

theorem BuiltinFields.of_mem : ∀ {fs : List (RecordField ArgType)} {f : RecordField ArgType},
    BuiltinFields fs → f ∈ fs → f.type.Builtin
  | ⟨_, _, _⟩ :: _, _, h, hf => by
    rcases List.mem_cons.mp hf with rfl | hf
    · exact h.1
    · exact BuiltinFields.of_mem h.2 hf

/-- No custom type is found inside a type that the console knows. -/
theorem Builtin.enter? {f : Frame} (ht : t.Builtin) (h : t.enter? f = some u) : u.Builtin := by
  cases t with
  | any =>
    cases f <;> cases h <;> trivial
  | list element =>
    cases f <;> cases h
    exact ht
  | exactList elements =>
    cases f with
    | list i => exact BuiltinAll.of_mem ht (List.mem_of_getElem? h)
    | mapKey | mapValue => cases h
  | map key value =>
    cases f <;> cases h
    · exact ht.1
    · exact ht.2
  | record fields =>
    cases f with
    | list => cases h
    | mapKey =>
      cases h
      trivial
    | mapValue i key =>
      obtain ⟨field, hfield, rfl⟩ := Option.map_eq_some_iff.mp h
      exact BuiltinFields.of_mem ht (List.mem_of_find?_eq_some hfield)
  | custom => exact ht.elim
  | string | int | float | bool | char | enumeration | exact => cases f <;> cases h

/-! ### The parts of a literal that is converted -/

theorem fits_of_convertItems : ∀ {items : List Literal} {element : ArgType} {i : Nat}
    {ws : List Value}, convertItems element i items = .ok ws →
      ∀ p ∈ (list element).itemParts i items, p.Fits
  | [], _, _, _, _ => fun _ hp => by cases hp
  | item :: items, element, i, ws, h => by
    rw [convertItems] at h
    split at h
    · cases h
    · rename_i w hw
      obtain ⟨more, hmore, -⟩ := exists_of_map_eq_ok h
      intro p hp
      rw [itemParts_cons] at hp
      rcases List.mem_cons.mp hp with rfl | hp
      · exact ⟨element, w, rfl, hw⟩
      · exact fits_of_convertItems hmore p hp

theorem fits_of_convertPlaces : ∀ {items : List Literal} {all elements : List ArgType} {i : Nat}
    {ws : List Value}, all.drop i = elements → elements.length = items.length →
      convertPlaces elements i items = .ok ws → ∀ p ∈ (exactList all).itemParts i items, p.Fits
  | [], _, _, _, _, _, _, _ => fun _ hp => by cases hp
  | _ :: _, _, [], _, _, _, hlength, _ => by cases hlength
  | item :: items, all, element :: elements, i, ws, hplaces, hlength, h => by
    rw [convertPlaces, List.headD_cons, List.tail_cons] at h
    have htype : (exactList all).elementType? i = some element := by
      rw [elementType?, ← List.head?_drop, hplaces, List.head?_cons]
    have hdrop : all.drop (i + 1) = elements := by
      rw [← List.tail_drop, hplaces, List.tail_cons]
    split at h
    · cases h
    · rename_i w hw
      obtain ⟨more, hmore, -⟩ := exists_of_map_eq_ok h
      intro p hp
      rw [itemParts_cons] at hp
      rcases List.mem_cons.mp hp with rfl | hp
      · exact ⟨element, w, htype, hw⟩
      · exact fits_of_convertPlaces hdrop (Nat.succ.inj hlength) hmore p hp

theorem fits_of_convertEntries : ∀ {entries : List (Literal × Literal)} {key value : ArgType}
    {ws : List (Value × Value)}, convertEntries key value entries = .ok ws →
      ∀ p ∈ (map key value).entryParts entries, p.Fits
  | [], _, _, _, _ => fun _ hp => by cases hp
  | (k, x) :: entries, key, value, ws, h => by
    rw [convertEntries] at h
    split at h
    · cases h
    · rename_i a ha
      split at h
      · cases h
      · rename_i b hb
        obtain ⟨more, hmore, -⟩ := exists_of_map_eq_ok h
        intro p hp
        rw [entryParts_cons] at hp
        rcases List.mem_cons.mp hp with rfl | hp
        · exact ⟨key, a, rfl, ha⟩
        · rcases List.mem_cons.mp hp with rfl | hp
          · exact ⟨value, b, rfl, hb⟩
          · exact fits_of_convertEntries hmore p hp

/-- **What a type converts has all of its parts of their types.** -/
theorem fits_of_convert (ht : t.Builtin) (h : t.convert v = .ok w) : ∀ p ∈ t.partsOf v, p.Fits := by
  have hrefused : t.kind.accepts v.kind = true := by
    by_contra hk
    rw [convert_refused (by simpa using hk)] at h
    cases h
  cases t with
  | any =>
    intro p hp
    have hany : p.type = some .any := by
      cases v with
      | empty | scalar => cases hp
      | list items span =>
        obtain ⟨q, -, rfl⟩ := List.mem_map.mp hp
        rfl
      | map entries span =>
        obtain ⟨e, -, hp⟩ := List.mem_flatMap.mp hp
        rcases List.mem_pair.mp hp with rfl | rfl <;> rfl
    exact ⟨.any, _, hany, convert_any p.literal⟩
  | list element =>
    cases v with
    | list items span =>
      rw [convert_list] at h
      obtain ⟨ws, hws, -⟩ := exists_of_map_eq_ok h
      exact fits_of_convertItems hws
    | empty | scalar | map => cases hrefused
  | exactList elements =>
    cases v with
    | list items span =>
      have hlength := length_of_convert_exactList h
      rw [convert_exactList, if_pos hlength] at h
      obtain ⟨ws, hws, -⟩ := exists_of_map_eq_ok h
      exact fits_of_convertPlaces rfl hlength hws
    | empty | scalar | map => cases hrefused
  | map key value =>
    cases v with
    | map entries span =>
      rw [convert_map] at h
      obtain ⟨ws, hws, -⟩ := exists_of_map_eq_ok h
      exact fits_of_convertEntries hws
    | empty | scalar | list => cases hrefused
  | record fields =>
    cases v with
    | map entries span =>
      rw [convert_record] at h
      split at h
      · cases h
      · rename_i ws hws
        exact fits_of_convertFields hws
    | empty | scalar | list => cases hrefused
  | custom => exact ht.elim
  | string | int | float | bool | char | enumeration | exact =>
    cases v with
    | scalar => exact fun _ hp => by cases hp
    | empty | list | map => cases hrefused

/-- The way along the frames leads through the type, too, and what stands there is converted. -/
theorem convert_follow? {fs : List Frame} (hn : v.HasAt fs n) (ht : t.Builtin)
    (h : t.convert v = .ok w) : ∃ u value, t.follow? fs = some u ∧ u.convert n = .ok value := by
  have hstep : ∀ {f : Frame} {t u : ArgType} {fs : List Frame}, t.enter? f = some u →
      t.follow? (f :: fs) = u.follow? fs := fun hu => by rw [follow?, hu, Option.bind_some]
  induction hn generalizing t w with
  | here v => exact ⟨t, w, rfl, h⟩
  | @item items span i p n fs part rest ih =>
    have hmem : ⟨.index i, t.elementType? i, p⟩ ∈ t.partsOf (.list items span) :=
      List.mem_map.mpr ⟨(p, i), List.mem_zipIdx_iff_getElem?.mpr part, rfl⟩
    obtain ⟨u, a, hu, ha⟩ := fits_of_convert ht h _ hmem
    rw [hstep (f := .list i) hu]
    exact ih (ht.enter? (f := .list i) hu) ha
  | @key entries span i keys k x n fs part rest ih =>
    have hmem : ⟨.key k.keyText, t.keyType?, k⟩ ∈ t.partsOf (.map entries span) :=
      List.mem_flatMap.mpr ⟨(k, x), List.mem_of_getElem? part, List.mem_cons_self⟩
    obtain ⟨u, a, hu, ha⟩ := fits_of_convert ht h _ hmem
    rw [hstep (f := .mapKey i keys) hu]
    exact ih (ht.enter? (f := .mapKey i keys) hu) ha
  | @value entries span i key k x n fs part hkey rest ih =>
    have hmem : ⟨.key k.keyText, t.valueType? k.keyText, x⟩ ∈ t.partsOf (.map entries span) :=
      List.mem_flatMap.mpr ⟨(k, x), List.mem_of_getElem? part,
        List.mem_cons_of_mem _ List.mem_cons_self⟩
    obtain ⟨u, a, hu, ha⟩ := fits_of_convert ht h _ hmem
    dsimp only at hu
    rw [hkey] at hu
    rw [hstep (f := .mapValue i key) hu]
    exact ih (ht.enter? (f := .mapValue i key) hu) ha

end ArgType

/-! ### The argument that a literal is assigned to -/

namespace Argument

variable {a : Argument} {os : List OpenContext} {lit v input : Literal} {value : Value}

/-- The type to which an assigned literal converts what stands in its contexts. A vararg takes a
list apart, so its outermost list is none for the type. -/
def assignedInside? (a : Argument) (os : List OpenContext) : Option ArgType :=
  match a.multiplicity, os with
  | .vararg, .list _ :: inner => a.type.inside? inner
  | _, os => a.type.inside? os

theorem assignedInside?_of_ne_vararg (hm : a.multiplicity ≠ .vararg) (os : List OpenContext) :
    a.assignedInside? os = a.type.inside? os := by
  unfold assignedInside?
  split
  · contradiction
  · rfl

/-- What is assigned is converted as it stands, unless the argument is a vararg. -/
theorem convert_of_takeAssigned {env : BindEnv} (hm : a.multiplicity ≠ .vararg)
    (hk : lit.kind ≠ .scalar) (h : env.takeAssigned a lit = .ok (input, value)) :
    a.type.convert lit = .ok value := by
  unfold BindEnv.takeAssigned at h
  split at h
  · obtain ⟨w, hw, he⟩ := exists_of_map_eq_ok h
    cases he
    exact BindEnv.convert_eq_ok hw
  · obtain ⟨w, hw, he⟩ := exists_of_map_eq_ok h
    have hrun : BindEnv.startsListRun a lit = false := by
      rw [BindEnv.startsListRun, beq_false_of_ne hk, Bool.false_and]
    rw [hrun] at hw
    cases he
    exact BindEnv.convert_eq_ok hw
  · contradiction

/-- A vararg converts each item of a list that is assigned to it. -/
theorem convertEach_of_takeAssigned {env : BindEnv} (hm : a.multiplicity = .vararg)
    (h : env.takeAssigned a lit = .ok (input, value)) :
    ∀ item ∈ BindEnv.itemsOf lit, ∃ w, a.type.convert item = .ok w := by
  simp only [BindEnv.takeAssigned, hm] at h
  obtain ⟨vs, hvs, -⟩ := exists_of_map_eq_ok h
  obtain ⟨hlength, hall⟩ := List.forall₂_iff_get.mp (BindEnv.convertEach_eq_ok hvs)
  intro item hitem
  obtain ⟨i, rfl⟩ := List.get_of_mem hitem
  exact ⟨_, hall i i.isLt (hlength ▸ i.isLt)⟩

/-- **What stands in the contexts of a literal that is assigned is converted to the type that the
argument has there.** -/
theorem inside_of_takeAssigned {env : BindEnv} {o : OpenContext} (ht : a.type.Builtin)
    (hv : lit.HasAt ((o :: os).map frame) v) (h : env.takeAssigned a lit = .ok (input, value)) :
    ∃ u w, a.assignedInside? (o :: os) = some u ∧ u.convert v = .ok w := by
  have hfollow : ∀ {p : Literal} {os : List OpenContext} {x : Value}, p.HasAt (os.map frame) v →
      a.type.convert p = .ok x → ∃ u w, a.type.inside? os = some u ∧ u.convert v = .ok w := by
    intro p os x hp hx
    obtain ⟨u, w, hu, hw⟩ := ArgType.convert_follow? hp ht hx
    exact ⟨u, w, (ArgType.follow?_frames ..).symm.trans hu, hw⟩
  by_cases hm : a.multiplicity = .vararg
  · have hitems := convertEach_of_takeAssigned hm h
    -- a list is taken apart, and a map is the only item of the run
    cases o with
    | list =>
      cases hv with
      | item part rest =>
        obtain ⟨w, hw⟩ := hitems _ (List.mem_of_getElem? part)
        simpa only [assignedInside?, hm] using hfollow rest hw
    | mapKey | mapValue =>
      obtain ⟨entries, span, rfl⟩ : ∃ entries span, lit = .map entries span := by
        cases hv
        exact ⟨_, _, rfl⟩
      obtain ⟨w, hw⟩ := hitems _ List.mem_cons_self
      simpa only [assignedInside?, hm] using hfollow hv hw
  · have hk : lit.kind ≠ .scalar := by
      cases hv' : lit with
      | scalar =>
        rw [hv'] at hv
        cases o <;> cases hv
      | empty | list | map => exact nofun
    rw [assignedInside?_of_ne_vararg hm]
    exact hfollow hv (convert_of_takeAssigned hm hk h)

end Argument

/-! ### The place -/

/-- The token of a name with the text of contexts assigned. -/
def assignedText (name : String) (os : List OpenContext) : String :=
  "--" ++ name ++ "=" ++ openText os

section Place

variable {rules : TokenRules} {name n : String} {os : List OpenContext} {o : OpenContext}
  {text : String}

theorem toList_assignedText (n : String) (os : List OpenContext) :
    (assignedText n os).toList = Token.assignment n (openText os).toList := by
  simp [assignedText, Token.assignment]

theorem assignedName?_assignedText (he : '=' ∉ n.toList) (os : List OpenContext) :
    assignedName? (assignedText n os) = some n := by
  have hsplit : splitOnce? '=' (n.toList ++ '=' :: (openText os).toList) =
      some (n.toList, (openText os).toList) :=
    splitOnce?_append fun ch hch hmark => he (hmark ▸ hch)
  simp only [assignedName?, toList_assignedText, Token.assignment, hsplit, Option.map_some,
    String.ofList_toList]

/-- Where the text of contexts is assigned to a name, it is the literal behind the equals sign that
cannot be read. -/
theorem Token.read?_assignedText {c : Cursor} (hn : isWord n = true) (he : '=' ∉ n.toList)
    (ha : rules.assignSyntax = true) (hc : c.skipBlanks.rest = (assignedText n (os ++ [o])).toList)
    (hfit : Fit rules.maxDepth 0 (os ++ [o])) :
    ∃ last, Token.read? rules c = .error ⟨.tokenExpected ⟨o.closers, true⟩,
        c.skipBlanks.offset + byteLength c.skipBlanks.rest, (os ++ [o]).map frame, last⟩ ∧
      ∀ sc ∈ last, sc.span.stop < c.skipBlanks.offset + byteLength c.skipBlanks.rest := by
  obtain ⟨outer, inner, hcons⟩ : ∃ outer inner, os ++ [o] = outer :: inner :=
    List.exists_cons_of_ne_nil (by simp)
  have hequals : rules.inName '=' = false := by simp [TokenRules.inName, ha]
  rw [toList_assignedText] at hc
  obtain ⟨behind, hname, hrest⟩ := Token.nameAt?_name hn (fun _ => he) hc
    (fun ch hch => Option.some.inj hch ▸ hequals)
  have hvalue : behind.advance.rest = (openText (os ++ [o])).toList := by simp [hrest]
  have hend : behind.advance.offset + byteLength behind.advance.rest =
      c.skipBlanks.offset + byteLength c.skipBlanks.rest :=
    ((Token.nameAt?_reaches hname).trans (.advance behind)).end_eq
  obtain ⟨last, hfails, hlast⟩ := readValue_openText hvalue hfit
  rw [hend] at hfails hlast
  refine ⟨last, ?_, hlast⟩
  have hbracket : behind.advance.peek = some outer.bracket := by
    rw [Cursor.peek, hvalue, hcons, head?_openText]
  have hassigned := Token.readAssigned_value ha (Cursor.peek_of_rest hrest) hbracket
    (beginsValue_openText outer inner _ (head?_openText outer inner)).1
  have hnonempty : c.skipBlanks.atEnd = false := by
    rw [Cursor.atEnd, hc]
    rfl
  rw [Token.read?, if_neg (by simp [hnonempty]), Token.readHere, hname]
  dsimp only
  rw [hassigned, hfails]
  rfl

/-- **The cursor stands in the token** of a name that the text of contexts is assigned to. -/
theorem TypedPlace.locate?_assignedText {config : ParserConfig}
    (hname : config.tokenRules.Plain name) (hn : isWord n = true) (he : '=' ∉ n.toList)
    (ha : config.assignSyntax = true) (hfit : Fit config.maxDepth 0 (os ++ [o])) :
    ∃ last, TypedPlace.locate? config (name ++ " " ++ assignedText n (os ++ [o])) =
        some (.literal (name ++ " ") (assignedText n (os ++ [o]))
          ⟨.tokenExpected ⟨o.closers, true⟩, textLength (name ++ " " ++ assignedText n (os ++ [o])),
            (os ++ [o]).map frame, last⟩) ∧
      ∀ sc ∈ last, sc.span.stop < textLength (name ++ " " ++ assignedText n (os ++ [o])) := by
  have hdrop : dropBlanks (assignedText n (os ++ [o])).toList =
      (assignedText n (os ++ [o])).toList := by
    rw [toList_assignedText]
    exact Token.dropBlanks_assignment ..
  obtain ⟨t, stop, htokens, hrest, hoffset, hend⟩ :=
    Tokens.ofText_behind hname hdrop String.toList_append
  obtain ⟨last, hfails, hlast⟩ := Token.read?_assignedText hn he ha hrest
    (show Fit config.tokenRules.maxDepth 0 (os ++ [o]) from hfit)
  rw [hrest, hend] at hfails hlast
  rw [Tokens.ofCursor_error hfails, hoffset] at htokens
  exact ⟨last, locate?_broken htokens (Nat.le_refl _), hlast⟩

end Place

/-! ### Suggestions -/

namespace CommandParser

variable {p : CommandParser} {context : ParseContext} {commands : List Command}
  {e : RegisteredCommand} {id : CommandId} {a : Argument} {n : String} {os : List OpenContext}
  {o : OpenContext}

/-- The argument that a literal is assigned to is the one with the name, whatever the literal. -/
theorem literalTarget?_assignedText (he : p.registry.entries[id]? = some e)
    (hargs : e.command.arguments = .static [a]) (hn : n ∈ a.names) (heq : '=' ∉ n.toList)
    (hassign : p.config.assignSyntax = true) (l : Option Localizer) :
    p.literalTarget? l (assignedText n os) id [] .none = some a.type := by
  have hget : p.registry.get? id = some e.command := by rw [Registry.get?, he]; rfl
  have hremaining : e.command.arguments.remaining [] = [a] := by rw [hargs]; rfl
  have hnamed : p.namedArgument? l id [] n = some a := by
    have hnames : (p.registry.argumentNames l id a).contains n = true := by
      rw [Registry.argumentNames, List.contains_iff_mem]
      exact List.mem_append_left _ hn
    rw [namedArgument?, hget, Option.bind_some, hremaining, List.find?_cons, hnames]
  unfold literalTarget?
  rw [if_pos hassign, assignedName?_assignedText heq]
  dsimp only
  rw [hnamed, Option.map_some]

/-- **Inside an assigned literal the suggestions are those of the argument's type, followed through
the open containers.** -/
theorem completeLine_assignedText (hreg : Registry.empty.registerAll commands = .ok p.registry)
    (he : p.registry.entries[id]? = some e) (hroot : e.parent = none)
    (halone : p.registry.Alone context.localizer id e.command.name)
    (hname : p.config.tokenRules.Plain e.command.name)
    (hargs : e.command.arguments = .static [a]) (hn : n ∈ a.names) (heq : '=' ∉ n.toList)
    (hassign : p.config.assignSyntax = true) (hfit : Fit p.config.maxDepth 0 (os ++ [o])) :
    p.completeLine context (e.command.name ++ " " ++ assignedText n (os ++ [o])) =
      withoutRepeats (o.closers.map Char.toString ++ o.fresh (a.type.inside? (os ++ [o]))) := by
  have hr : p.registry.WellFormed := .registerAll .empty hreg
  have hget : p.registry.get? id = some e.command := by rw [Registry.get?, he]; rfl
  have hword : isWord n = true := (hr.tellable hget).words a (by rw [hargs]; exact List.mem_cons_self) n hn
  obtain ⟨last, hplace, hlast⟩ := TypedPlace.locate?_assignedText hname hword heq hassign hfit
  have hstate := parsePartial_name hr he hroot halone hname
  have htype : ((p.literalTarget? context.localizer (assignedText n (os ++ [o])) id [] .none).bind
      fun t => t.follow? ((os ++ [o]).map frame)) = a.type.inside? (os ++ [o]) := by
    rw [literalTarget?_assignedText he hargs hn heq hassign, Option.bind_some,
      ArgType.follow?_frames]
  have hfresh : freshInside ((os ++ [o]).map frame) (a.type.inside? (os ++ [o])) =
      o.fresh (a.type.inside? (os ++ [o])) := by
    unfold freshInside
    rw [presentKeys_frames]
    cases a.type.inside? (os ++ [o]) <;> rfl
  rw [completeLine, hplace]
  dsimp only
  rw [completeAt, hstate]
  unfold completeLiteral
  dsimp only
  rw [htype, suggestInLiteral_eq hlast, if_pos rfl, hfresh]

/-- **Completion inside an assigned literal and its conversion, side by side.** What stands in the
contexts is converted to the type that the argument has there for an assigned literal. For an
argument that is no vararg the suggestions behind the closing bracket are how a value of this type
may begin, without the keys that are there already. For a vararg, too, they follow the type of the
argument itself through all of the contexts, the outermost list among them, though a list is taken
apart there. -/
theorem completeLine_assigned (hreg : Registry.empty.registerAll commands = .ok p.registry)
    (he : p.registry.entries[id]? = some e) (hroot : e.parent = none)
    (halone : p.registry.Alone context.localizer id e.command.name)
    (hname : p.config.tokenRules.Plain e.command.name)
    (hargs : e.command.arguments = .static [a]) (ht : a.type.Builtin) (hn : n ∈ a.names)
    (heq : '=' ∉ n.toList) (hassign : p.config.assignSyntax = true)
    (hfit : Fit p.config.maxDepth 0 (os ++ [o])) :
    (∀ (env : BindEnv) (lit v input : Literal) (value : Value),
        lit.HasAt ((os ++ [o]).map frame) v → env.takeAssigned a lit = .ok (input, value) →
          ∃ u w, a.assignedInside? (os ++ [o]) = some u ∧ u.convert v = .ok w) ∧
      (a.multiplicity ≠ .vararg →
        p.completeLine context (e.command.name ++ " " ++ assignedText n (os ++ [o])) =
          withoutRepeats (o.closers.map Char.toString ++
            o.fresh (a.assignedInside? (os ++ [o])))) ∧
      (a.multiplicity = .vararg →
        p.completeLine context (e.command.name ++ " " ++ assignedText n (os ++ [o])) =
          withoutRepeats (o.closers.map Char.toString ++
            o.fresh (a.type.inside? (os ++ [o])))) := by
  have hsuggested :=
    completeLine_assignedText hreg he hroot halone hname hargs hn heq hassign hfit
  refine ⟨?_, fun hm => ?_, fun _ => hsuggested⟩
  · intro env lit v input value hv htake
    obtain ⟨outer, inner, hcons⟩ : ∃ outer inner, os ++ [o] = outer :: inner :=
      List.exists_cons_of_ne_nil (by simp)
    rw [hcons] at hv ⊢
    exact Argument.inside_of_takeAssigned ht hv htake
  · rw [hsuggested, Argument.assignedInside?_of_ne_vararg hm]

end CommandParser

def Demo.colour : ArgType := .enumeration "Colour" ["red", "teal"]

/-- A command that takes a list of layers, each of a colour. -/
def Demo.blend : Command :=
  Demo.command "blend" "Blend layers"
    [{ Argument.new "layers" (.list (.record [⟨"depth", .int, true⟩, ⟨"colour", colour, false⟩])) with
      multiplicity := .multiple }]

/-- A command that takes a run of colours. -/
def Demo.stripe : Command := Demo.command "stripe" "Draw stripes" [vararg "colours" colour]

/-- The only command of a console, if it is a root. -/
theorem Demo.exists_parserOf {c : Command} (h : (Registry.empty.registerAll [c]).toBool = true)
    (hroot : (parserOf c).registry.entries[0]?.map (·.parent) = some none) :
    Registry.empty.registerAll [c] = .ok (parserOf c).registry ∧
      ∃ e, (parserOf c).registry.entries[0]? = some e ∧ e.parent = none ∧ e.command = c := by
  obtain ⟨e, he, hparent⟩ := Option.map_eq_some_iff.mp hroot
  exact ⟨Registry.registerAll_toOption h, e, he, hparent,
    arguments_parserOf h e (List.mem_of_getElem? he)⟩

namespace CommandParser

/-- The value of a field of the first item of a list. -/
theorem completeLine_assigned_blend :
    (Demo.parserOf Demo.blend).completeLine .empty "blend --layers=[\x7bdepth=1, colour=" =
      ["red", "teal"] := by
  let outer : List OpenContext := [.list []]
  let field : OpenContext :=
    .mapValue [(.scalar "depth" default, .scalar "1" default)] (.scalar "colour" default)
  obtain ⟨hreg, e, he, hroot, hcommand⟩ :=
    Demo.exists_parserOf (c := Demo.blend) (by decide +kernel) (by decide +kernel)
  have hfit : Fit defaultMaxDepth 0 (outer ++ [field]) := by
    simp [outer, field, Fit, parts, Literal.EmptyFree, Literal.depth, defaultMaxDepth]
  have hline : e.command.name ++ " " ++ assignedText "layers" (outer ++ [field]) =
      "blend --layers=[\x7bdepth=1, colour=" := by
    rw [hcommand]
    decide +kernel
  have hname : (Demo.parserOf Demo.blend).config.tokenRules.Plain e.command.name := by
    rw [hcommand]
    exact TokenRules.plain_of_isPlain (by decide +kernel)
  have halone : (Demo.parserOf Demo.blend).registry.Alone ParseContext.empty.localizer 0
      e.command.name := Registry.alone_none _ _ _
  have hall := completeLine_assigned (n := "layers") hreg he hroot halone hname
    (congrArg Command.arguments hcommand) ⟨trivial, trivial, trivial⟩ List.mem_cons_self (by decide)
    rfl hfit
  rw [← hline, hall.2.1 (by decide)]
  decide +kernel

/-- The items of a list that is assigned to a run of colours are colours, and none is suggested. -/
theorem completeLine_assigned_stripe :
    (Demo.parserOf Demo.stripe).completeLine .empty "stripe --colours=[" = ["]"] ∧
      (Demo.vararg "colours" Demo.colour).assignedInside? [.list []] = some Demo.colour ∧
      withoutRepeats ((OpenContext.list []).closers.map Char.toString ++
        (OpenContext.list []).fresh (some Demo.colour)) = ["]", "red", "teal"] := by
  refine ⟨?_, rfl, by decide +kernel⟩
  obtain ⟨hreg, e, he, hroot, hcommand⟩ :=
    Demo.exists_parserOf (c := Demo.stripe) (by decide +kernel) (by decide +kernel)
  have hfit : Fit defaultMaxDepth 0 ([] ++ [OpenContext.list []]) := by
    simp [Fit, parts, defaultMaxDepth]
  have hline : e.command.name ++ " " ++ assignedText "colours" ([] ++ [.list []]) =
      "stripe --colours=[" := by
    rw [hcommand]
    decide +kernel
  have hname : (Demo.parserOf Demo.stripe).config.tokenRules.Plain e.command.name := by
    rw [hcommand]
    exact TokenRules.plain_of_isPlain (by decide +kernel)
  have halone : (Demo.parserOf Demo.stripe).registry.Alone ParseContext.empty.localizer 0
      e.command.name := Registry.alone_none _ _ _
  rw [← hline, completeLine_assignedText (n := "colours") hreg he hroot halone hname
    (congrArg Command.arguments hcommand) List.mem_cons_self (by decide) rfl hfit]
  decide +kernel

end CommandParser
end CommandConsole
