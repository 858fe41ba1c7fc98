/-
# Suggestions inside open containers

A line may end inside lists and maps that are not closed yet. Three traversals
have to agree there: the grammar says which containers are open, the argument
is found by how its literal begins, and the type of the argument is followed
through the containers. What follows the type here are the containers as they
are written, and the suggestions are how a value may begin that the type has
there, behind the closing bracket of a container with nothing in it.

Key definitions: `ArgType.within?`, `ArgType.inside?`, `OpenContext.takenKeys`, `OpenContext.fresh`.
Key theorems: `ArgType.follow?_frames`, `TypedPlace.locate?_openText`,
`CommandParser.completeLine_openText`.
-/
import CommandConsole.Proofs.Completion.Typed
import CommandConsole.Proofs.Line.Resumption
import CommandConsole.Proofs.Literal.OpenContext

namespace CommandConsole

open OpenContext

/-! ### Types -/

/-- What a value of the type may have in a context. A context whose bracket does not fit the type
has nothing of it, and neither has the value of a field that the type does not know. -/
def ArgType.within? : ArgType → OpenContext → Option ArgType
  | .any, _ => some .any
  | .list element, .list _ => some element
  | .exactList elements, .list items => elements[items.length]?
  | .map key _, .mapKey _ => some key
  | .map _ value, .mapValue _ _ => some value
  | .record fields, .mapKey _ => some (fieldNames fields)
  | .record fields, .mapValue _ key => (findField? fields (keyName key)).map (·.type)
  | _, _ => none

/-- What a value of the type may have in contexts that are open in each other, outermost first. -/
def ArgType.inside? (t : ArgType) : List OpenContext → Option ArgType
  | [] => some t
  | o :: os => (t.within? o).bind fun inner => inner.inside? os

namespace OpenContext

/-- The keys that a further key of the context must differ from. -/
def takenKeys : OpenContext → List String
  | .mapKey entries => entries.map fun e => keyName e.1
  | _ => []

/-- How a value of a type may begin in the context, if there is a type. -/
def fresh (o : OpenContext) (t : Option ArgType) : List String :=
  t.elim [] fun t => t.freshCandidates.filter fun s => !o.takenKeys.contains s

/-- The kind of the literals that begin with the bracket of the context. -/
def kind : OpenContext → TypeKind
  | .list _ => .list
  | .mapKey _ | .mapValue _ _ => .map

end OpenContext

namespace ArgType

variable {t inner : ArgType} {o : OpenContext}

theorem enter?_frame (t : ArgType) (o : OpenContext) : t.enter? o.frame = t.within? o := by
  cases t <;> cases o <;> rfl

/-- **Following the frames of contexts is following the contexts.** -/
theorem follow?_frames : ∀ (t : ArgType) (os : List OpenContext),
    t.follow? (os.map frame) = t.inside? os
  | _, [] => rfl
  | t, o :: os => by
    rw [List.map_cons, follow?, inside?, enter?_frame]
    exact congrArg (t.within? o).bind (funext fun inner => follow?_frames inner os)

/-- A type has something in a context only if the bracket of the context fits its kind. -/
theorem kind_of_within? (h : t.within? o = some inner) : t.kind = .any ∨ t.kind = o.kind := by
  cases t <;> cases o <;> simp_all [within?, ArgType.kind, OpenContext.kind]

/-- Only the kind of the type decides whether the argument is the one that a literal is for, and a
type that does not have the kind has nothing inside of the literal. -/
theorem inside?_of_positionalTarget? (a : Argument) (o : OpenContext) (os : List OpenContext) :
    ((positionalTarget? o.kind [a]).bind fun t => t.inside? (o :: os)) =
      a.type.inside? (o :: os) := by
  by_cases hkind : a.type.kind = .any ∨ a.type.kind = o.kind
  · rw [positionalTarget?, if_pos hkind, Option.bind_some]
  · have hnone : a.type.within? o = none := by
      cases hw : a.type.within? o with
      | none => rfl
      | some inner => exact absurd (kind_of_within? hw) hkind
    have htarget : positionalTarget? o.kind [a] = none := by
      rw [positionalTarget?, if_neg hkind]
      split <;> rfl
    rw [htarget, inside?, hnone]
    rfl

end ArgType

/-! ### The place -/

namespace OpenContext

/-- The bracket that the context begins with. -/
def bracket : OpenContext → Char
  | .list _ => '['
  | .mapKey _ | .mapValue _ _ => '\x7b'

theorem head?_openText (o : OpenContext) (os : List OpenContext) :
    (openText (o :: os)).toList.head? = some o.bracket := by
  rw [openText, String.toList_ofList, List.flatMap_cons]
  cases o <;> rfl

theorem beginsValue_openText (o : OpenContext) (os : List OpenContext) :
    Reading.BeginsValue (openText (o :: os)).toList := by
  intro ch hch
  rw [head?_openText] at hch
  obtain rfl : o.bracket = ch := Option.some.inj hch
  cases o with
  | list => exact (by decide : isBlank '[' = false ∧ Place.nested.ends '[' = false)
  | mapKey | mapValue =>
    exact (by decide : isBlank '\x7b' = false ∧ Place.nested.ends '\x7b' = false)

theorem kindOfToken_openText (o : OpenContext) (os : List OpenContext) :
    kindOfToken (openText (o :: os)) = o.kind := by
  rw [kindOfToken, head?_openText]
  cases o <;> rfl

theorem openText_ne_dashes (o : OpenContext) (os : List OpenContext) (cs : List Char) :
    (openText (o :: os)).toList ≠ '-' :: cs := by
  intro h
  have hhead := head?_openText o os
  rw [h] at hhead
  cases o <;> cases hhead

theorem assignedName?_openText (o : OpenContext) (os : List OpenContext) :
    assignedName? (openText (o :: os)) = none := by
  unfold assignedName?
  split
  · rename_i cs hcs
    exact absurd hcs (openText_ne_dashes o os _)
  · rfl

theorem presentKeys_frames (os : List OpenContext) (o : OpenContext) :
    presentKeys ((os ++ [o]).map frame) = o.takenKeys := by
  rw [List.map_append, presentKeys, List.map_singleton, List.getLast?_concat]
  cases o <;> rfl

end OpenContext

section Place

variable {rules : TokenRules} {name : String} {rest : List Char} {os : List OpenContext}
  {o : OpenContext} {text : String}

/-- A plain name at the start of a text is its first token. -/
theorem Token.read?_name (hname : rules.Plain name)
    (htext : text.toList = name.toList ++ ' ' :: rest) :
    ∃ t stop, Token.read? rules (.start text) = .ok (some (t, stop)) ∧ stop.rest = ' ' :: rest ∧
      (Piece.word name).Reads t := by
  have hrest : (Cursor.start text).rest = name.toList ++ ' ' :: rest := htext
  have hdrop : dropBlanks (Cursor.start text).rest = (Cursor.start text).rest := by
    obtain ⟨ch, cs, hcs⟩ := List.exists_cons_of_ne_nil hname.ne_nil
    rw [hrest, hcs, List.cons_append]
    exact dropBlanks_cons (hname.chars ch (by simp [hcs])).1 _
  have hstops : Place.topLevel.Stops (' ' :: rest) := by
    intro ch hch
    obtain rfl := Option.some.inj hch
    decide
  obtain ⟨t, stop, hhere, hstop, hreads⟩ := Piece.readHere_word hname hrest hstops
  refine ⟨t, stop, ?_, hstop, hreads⟩
  rw [Token.read?_eq_some_iff, hdrop, hrest, Cursor.skipBlanks_eq_self hdrop]
  exact ⟨by simp, hhere⟩

/-- Where no name begins, a literal that cannot be read fails the token. -/
theorem Token.read?_of_readValue_error {c : Cursor} {f : LiteralFailure}
    (hne : c.skipBlanks.rest ≠ []) (hdashes : ∀ cs, c.skipBlanks.rest ≠ '-' :: cs)
    (h : readValue rules.maxDepth c.skipBlanks = .error f) : Token.read? rules c = .error f := by
  have hname : Token.nameAt? rules c.skipBlanks = none := by
    unfold Token.nameAt?
    split
    · rename_i cs hcs
      exact absurd hcs (hdashes _)
    · rfl
  have hhere := Token.readHere_of_readValue_error hname h
  have hend : c.skipBlanks.atEnd = false := by
    rw [Cursor.atEnd, List.isEmpty_eq_false_iff]
    exact hne
  rw [Token.read?, if_neg (by simp [hend]), hhere]
  rfl

/-- Behind a name and a space the tokens go on with what is written there. -/
theorem Tokens.ofText_behind (hname : rules.Plain name) (htail : dropBlanks rest = rest)
    (htext : text.toList = (name ++ " ").toList ++ rest) :
    ∃ t stop, Tokens.ofText rules text = .more t (.ofCursor rules stop) ∧
      stop.skipBlanks.rest = rest ∧ stop.skipBlanks.offset = textLength (name ++ " ") ∧
        stop.skipBlanks.offset + byteLength rest = textLength text := by
  have hsplit : text.toList = name.toList ++ ' ' :: rest := by
    rw [htext]
    simp
  obtain ⟨t, stop, hread, hstop, -⟩ := Token.read?_name hname hsplit
  have hrest : stop.skipBlanks.rest = rest := by
    rw [Cursor.skipBlanks_rest, hstop, dropBlanks, if_pos (by decide), htail]
  have hreach : (Cursor.start text).Reaches stop.skipBlanks :=
    (Token.ReadTo.cons hread (.nil stop)).reaches.trans (.skipBlanks stop)
  have hend : stop.skipBlanks.offset + byteLength rest = textLength text := by
    rw [← hrest, hreach.end_eq, Cursor.start, Nat.zero_add, textLength]
  have hoffset : stop.skipBlanks.offset = textLength (name ++ " ") := by
    rw [textLength, htext, byteLength_append] at hend
    exact Nat.add_right_cancel hend
  exact ⟨t, stop, by rw [Tokens.ofText, Tokens.ofCursor_some hread], hrest, hoffset, hend⟩

/-- Behind a name and a space the text of contexts is a token that cannot be read: it fails at the
end of the text, and its frames are the contexts. -/
theorem Tokens.ofText_openText (hname : rules.Plain name) (hfit : Fit rules.maxDepth 0 (os ++ [o]))
    (htext : text.toList = (name ++ " ").toList ++ (openText (os ++ [o])).toList) :
    ∃ t last, Tokens.ofText rules text = .more t (.broken (textLength (name ++ " "))
        ⟨.tokenExpected ⟨o.closers, true⟩, textLength text, (os ++ [o]).map frame, last⟩) ∧
      ∀ sc ∈ last, sc.span.stop < textLength text := by
  obtain ⟨outer, inner, hcons⟩ : ∃ outer inner, os ++ [o] = outer :: inner :=
    List.exists_cons_of_ne_nil (by simp)
  have hbegins : Reading.BeginsValue (openText (os ++ [o])).toList :=
    hcons ▸ beginsValue_openText outer inner
  obtain ⟨t, stop, htokens, hrest, hoffset, hend⟩ :=
    Tokens.ofText_behind hname hbegins.dropBlanks_eq htext
  obtain ⟨last, hfails, hlast⟩ := readValue_openText hrest hfit
  rw [hrest, hend] at hfails hlast
  refine ⟨t, last, ?_, hlast⟩
  have hbroken : Token.read? rules stop = .error
      ⟨.tokenExpected ⟨o.closers, true⟩, textLength text, (os ++ [o]).map frame, last⟩ := by
    refine Token.read?_of_readValue_error ?_ ?_ hfails
    · intro hnil
      have hhead := head?_openText outer inner
      rw [← hcons, ← hrest, hnil] at hhead
      cases hhead
    · rw [hrest, hcons]
      exact openText_ne_dashes outer inner
  rw [htokens, Tokens.ofCursor_error hbroken, hoffset]

/-- A name and a space are one token. -/
theorem Tokens.ofText_name (hname : rules.Plain name) :
    ∃ t stop, Tokens.ofText rules (name ++ " ") = .more t (.finished stop) ∧
      (Piece.word name).Reads t := by
  have htext : (name ++ " ").toList = name.toList ++ ' ' :: [] := by simp
  obtain ⟨t, stop, hread, hstop, hreads⟩ := Token.read?_name hname htext
  have hend : Token.read? rules stop = .ok none := by
    rw [Token.read?_eq_none_iff, hstop]
    decide
  exact ⟨t, _, by rw [Tokens.ofText, Tokens.ofCursor_some hread, Tokens.ofCursor_none hend], hreads⟩

/-- The cursor stands in the token behind a name and a space, if this cannot be read. -/
theorem TypedPlace.locate?_broken {config : ParserConfig} {token : String} {t : Token}
    {f : LiteralFailure} (htokens : Tokens.ofText config.tokenRules (name ++ " " ++ token) =
      .more t (.broken (textLength (name ++ " ")) f))
    (hend : textLength (name ++ " " ++ token) ≤ f.position) :
    TypedPlace.locate? config (name ++ " " ++ token) =
      some (.literal (name ++ " ") token f) := by
  have htext : (name ++ " " ++ token).toList = (name ++ " ").toList ++ token.toList :=
    String.toList_append
  rw [locate?, ParserConfig.tokensOf, htokens, locateFrom?, locateFrom?, if_pos hend,
    textLength, textBefore_append htext, textFrom_append htext, String.ofList_toList,
    String.ofList_toList]

/-- **The cursor stands in the literal** that the text of contexts begins. -/
theorem TypedPlace.locate?_openText {config : ParserConfig} (hname : config.tokenRules.Plain name)
    (hfit : Fit config.maxDepth 0 (os ++ [o])) :
    ∃ last, TypedPlace.locate? config (name ++ " " ++ openText (os ++ [o])) =
        some (.literal (name ++ " ") (openText (os ++ [o]))
          ⟨.tokenExpected ⟨o.closers, true⟩, textLength (name ++ " " ++ openText (os ++ [o])),
            (os ++ [o]).map frame, last⟩) ∧
      ∀ sc ∈ last, sc.span.stop < textLength (name ++ " " ++ openText (os ++ [o])) := by
  obtain ⟨t, last, htokens, hlast⟩ := Tokens.ofText_openText hname hfit String.toList_append
  exact ⟨last, locate?_broken htokens (Nat.le_refl _), hlast⟩

end Place

/-! ### The open command -/

section Command

variable {p : CommandParser} {context : ParseContext} {e : RegisteredCommand} {id : CommandId}

/-- No other root has the name of the command among its localized names. -/
def Registry.Alone (r : Registry) (l : Option Localizer) (id : CommandId) (name : String) : Prop :=
  ∀ i d, r.entries[i]? = some d → d.parent = none →
    name ∈ Localizer.namesFor l (commandKey d.fullName) → i = id

/-- Without a localizer there are no localized names, and every command has its name alone. -/
theorem Registry.alone_none (r : Registry) (id : CommandId) (name : String) :
    r.Alone none id name :=
  fun _ _ _ _ h => by cases h

theorem Registry.WellFormed.matchChild_root {r : Registry} (hr : r.WellFormed)
    {l : Option Localizer} (he : r.entries[id]? = some e) (hroot : e.parent = none)
    (halone : r.Alone l id e.command.name) : r.matchChild l none e.command.name = .one id := by
  have hname : e.command.name ∈ e.command.declaredNames := List.mem_cons_self
  have hnames : ∀ i d, r.entries[i]? = some d →
      r.namesOf l i = d.command.declaredNames ++ Localizer.namesFor l (commandKey d.fullName) :=
    fun i d hd => by rw [Registry.namesOf, hd]
  have hmatch : r.matching l none e.command.name = [id] := by
    refine Registry.eq_singleton_of_nodup ((List.nodup_range.filter _).filter _) ?_ ?_
    · refine List.mem_filter.mpr ⟨Registry.mem_childrenOf.mpr ⟨e, he, hroot⟩, ?_⟩
      rw [hnames id e he, List.contains_eq_mem, decide_eq_true_iff]
      exact List.mem_append_left _ hname
    · intro i hi
      obtain ⟨hchild, hin⟩ := List.mem_filter.mp hi
      obtain ⟨d, hd, hp⟩ := Registry.mem_childrenOf.mp hchild
      rw [hnames i d hd, List.contains_eq_mem, decide_eq_true_iff, List.mem_append] at hin
      rcases hin with hdeclared | hlocalized
      · by_cases hne : i = id
        · exact hne
        · exact absurd hname (hr.siblings i id d e hd he (hp.trans hroot.symm) hne _ hdeclared)
      · exact halone i d hd hp hlocalized
  rw [Registry.matchChild, hmatch]

namespace CommandParser

theorem parsePartial_name (hr : p.registry.WellFormed) (he : p.registry.entries[id]? = some e)
    (hroot : e.parent = none) (halone : p.registry.Alone context.localizer id e.command.name)
    (hname : p.config.tokenRules.Plain e.command.name) :
    p.parsePartial context (e.command.name ++ " ") = .ok (.inCommand id [] .none) := by
  obtain ⟨t, stop, htokens, hword, hsep⟩ := Tokens.ofText_name hname
  have hone : (p.lineEnv context (e.command.name ++ " ")).childMatch none t = .one id := by
    rw [LineEnv.childMatch, hword]
    exact hr.matchChild_root he hroot halone
  have hget : p.registry.get? id = some e.command := by rw [Registry.get?, he]; rfl
  rw [parsePartial, ParserConfig.tokensOf, htokens]
  exact LineEnv.openCommand_name hsep hone hget .root

end CommandParser
end Command

/-! ### Suggestions -/

/-- Where no scalar ends the text, the suggestions are what is expected there. -/
theorem suggestInLiteral_eq {text : String} {f : LiteralFailure} {expected : ExpectedTokens}
    {nested : Option ArgType} (hlast : ∀ sc ∈ f.lastScalar, sc.span.stop < textLength text) :
    suggestInLiteral text f expected nested = expected.chars.map Char.toString ++
      if expected.value then freshInside f.frames nested else [] := by
  unfold suggestInLiteral
  dsimp only
  split
  · rfl
  · rename_i sc hsc
    have hlt := hlast sc hsc
    rw [if_neg fun h => Nat.ne_of_lt hlt h.1]

namespace CommandParser

variable {p : CommandParser} {context : ParseContext} {commands : List Command}
  {e : RegisteredCommand} {id : CommandId} {a : Argument} {os : List OpenContext} {o : OpenContext}

/-- The argument of a command with one argument is what a literal is for if it has the kind. -/
theorem literalTarget?_openText (he : p.registry.entries[id]? = some e)
    (hargs : e.command.arguments = .static [a]) (l : Option Localizer) (o : OpenContext)
    (os : List OpenContext) :
    p.literalTarget? l (openText (o :: os)) id [] .none = positionalTarget? o.kind [a] := by
  have hget : p.registry.get? id = some e.command := by rw [Registry.get?, he]; rfl
  have hremaining : e.command.arguments.remaining [] = [a] := by rw [hargs]; rfl
  have hassigned : (if p.config.assignSyntax = true then assignedName? (openText (o :: os))
      else none) = none := by
    rw [assignedName?_openText]
    split <;> rfl
  unfold literalTarget?
  rw [hassigned]
  dsimp only
  rw [hget, Option.bind_some, hremaining, kindOfToken_openText]

/-- **Inside a literal exactly that is suggested which the type allows there.** Behind the name of
a command with one argument and the text of open contexts, the suggestions are the closing bracket
of an innermost context with nothing in it that a value could follow, and how a value may begin
that the type of the argument has in the contexts, without the keys that are there already. -/
theorem completeLine_openText (hreg : Registry.empty.registerAll commands = .ok p.registry)
    (he : p.registry.entries[id]? = some e) (hroot : e.parent = none)
    (halone : p.registry.Alone context.localizer id e.command.name)
    (hname : p.config.tokenRules.Plain e.command.name)
    (hargs : e.command.arguments = .static [a]) (hfit : Fit p.config.maxDepth 0 (os ++ [o])) :
    p.completeLine context (e.command.name ++ " " ++ openText (os ++ [o])) =
      withoutRepeats (o.closers.map Char.toString ++ o.fresh (a.type.inside? (os ++ [o]))) := by
  obtain ⟨last, hplace, hlast⟩ := TypedPlace.locate?_openText hname hfit
  have hstate := parsePartial_name (.registerAll .empty hreg) he hroot halone hname
  obtain ⟨outer, inner, hcons⟩ : ∃ outer inner, os ++ [o] = outer :: inner :=
    List.exists_cons_of_ne_nil (by simp)
  have htype : ((p.literalTarget? context.localizer (openText (os ++ [o])) id [] .none).bind
      fun t => t.follow? ((os ++ [o]).map frame)) = a.type.inside? (os ++ [o]) := by
    simp only [ArgType.follow?_frames]
    rw [hcons, literalTarget?_openText he hargs, ArgType.inside?_of_positionalTarget?]
  have hfresh : freshInside ((os ++ [o]).map frame) (a.type.inside? (os ++ [o])) =
      o.fresh (a.type.inside? (os ++ [o])) := by
    unfold freshInside
    rw [presentKeys_frames]
    cases a.type.inside? (os ++ [o]) <;> rfl
  rw [completeLine, hplace]
  dsimp only
  rw [completeAt, hstate]
  unfold completeLiteral
  dsimp only
  rw [htype, suggestInLiteral_eq hlast, if_pos rfl, hfresh]

end CommandParser

/-- A note, and a part with a name and the sizes of its sides. -/
def Demo.figureType : ArgType :=
  .record [⟨"note", .any, true⟩,
    ⟨"part", .exactList [.string, .map (.enumeration "Side" ["left", "right"]) .int], false⟩]

def Demo.draw : Command :=
  Demo.command "draw" "Draw a figure" [.new "figure" Demo.figureType]

/-- A map at the second place of a list in a record, before its first key and before the second. -/
theorem CommandParser.completeLine_openText_draw :
    (Demo.parserOf Demo.draw).completeLine .empty "draw \x7bnote=x, part=[a, \x7b" =
        ["\x7d", "left", "right"] ∧
      (Demo.parserOf Demo.draw).completeLine .empty "draw \x7bnote=x, part=[a, \x7bleft=1, " =
        ["right"] := by
  let outer : List OpenContext :=
    [.mapValue [(.scalar "note" default, .scalar "x" default)] (.scalar "part" default),
      .list [.scalar "a" default]]
  let size : Literal × Literal := (.scalar "left" default, .scalar "1" default)
  have hreg : Registry.empty.registerAll [Demo.draw] = .ok (Demo.parserOf Demo.draw).registry :=
    Registry.registerAll_toOption (by decide +kernel)
  have hfirst : (Demo.parserOf Demo.draw).registry.entries[0]?.map (·.parent) = some none := by
    decide +kernel
  obtain ⟨e, he, hroot⟩ := Option.map_eq_some_iff.mp hfirst
  have hcommand : e.command = Demo.draw :=
    Demo.arguments_parserOf (by decide +kernel) e (List.mem_of_getElem? he)
  have hname : (Demo.parserOf Demo.draw).config.tokenRules.Plain e.command.name := by
    rw [hcommand]
    exact TokenRules.plain_of_isPlain (by decide +kernel)
  have hargs : e.command.arguments = .static [.new "figure" Demo.figureType] := by
    rw [hcommand]
    rfl
  have hempty : Fit defaultMaxDepth 0 (outer ++ [.mapKey []]) := by
    simp [outer, Fit, parts, Literal.EmptyFree, Literal.depth, defaultMaxDepth]
  have hsize : Fit defaultMaxDepth 0 (outer ++ [.mapKey [size]]) := by
    simp [outer, size, Fit, parts, Literal.EmptyFree, Literal.depth, defaultMaxDepth]
  have halone : (Demo.parserOf Demo.draw).registry.Alone ParseContext.empty.localizer 0
      e.command.name := Registry.alone_none _ _ _
  have hbefore : e.command.name ++ " " ++ openText (outer ++ [.mapKey []]) =
      "draw \x7bnote=x, part=[a, \x7b" := by
    rw [hcommand]
    decide +kernel
  have hbehind : e.command.name ++ " " ++ openText (outer ++ [.mapKey [size]]) =
      "draw \x7bnote=x, part=[a, \x7bleft=1, " := by
    rw [hcommand]
    decide +kernel
  rw [← hbefore, ← hbehind, completeLine_openText hreg he hroot halone hname hargs hempty,
    completeLine_openText hreg he hroot halone hname hargs hsize]
  decide +kernel

end CommandConsole
