/-
# What is open where a text ends

A text may end inside lists and maps that are not closed yet. `OpenContext` is
one of them: a list with its finished items, a map in front of a key, or a map
in front of the value of a key. A line of contexts, outermost first, is written
as the opening bracket of each with its finished parts behind it, and what the
reader says of such a text is the line of contexts itself: the failure is at
the end, a value could stand there, and its frames are the contexts.

Reading goes through the contexts one after the other. `Reading.GoesTo` is what
a part of the way comes to, one lemma for each thing that a context is written
with.

Key definitions: `OpenContext`, `OpenContext.text`, `OpenContext.Fit`, `Reading.GoesTo`.
Key theorems: `Reading.goesTo_context`, `Reading.goesTo_contexts`, `readValue_openText`,
`parseLiteral_openText`.
-/
import CommandConsole.Proofs.ArgType.Conversion
import CommandConsole.Proofs.Literal.Beginning
import CommandConsole.Proofs.Literal.LastScalar
import CommandConsole.Proofs.Literal.Spelled

namespace CommandConsole

/-- A container that is open at the end of a text, with its finished parts. -/
inductive OpenContext where
  | list (items : List Literal)
  | mapKey (entries : List (Literal × Literal))
  | mapValue (entries : List (Literal × Literal)) (key : Literal)

namespace OpenContext

/-- What a map key is called: its text if it is a scalar, and as it is written if not. -/
def keyName (key : Literal) : String := key.asScalar?.getD key.render

/-- The frame that stands for the context. -/
def frame : OpenContext → Frame
  | .list items => .list items.length
  | .mapKey entries => .mapKey entries.length (entries.map fun e => keyName e.1)
  | .mapValue entries key => .mapValue entries.length (keyName key)

/-- The closing bracket, if nothing has been read in the context that a value could follow. -/
def closers : OpenContext → List Char
  | .list items => if items = [] then [']'] else []
  | .mapKey entries => if entries = [] then ['}'] else []
  | .mapValue _ _ => []

/-- A finished part is written with a comma and a space behind it. -/
def partText (text : List Char) : List Char := text ++ [',', ' ']

def entryText (e : Literal × Literal) : List Char := e.1.render.toList ++ '=' :: e.2.render.toList

def text : OpenContext → List Char
  | .list items => '[' :: items.flatMap fun i => partText i.render.toList
  | .mapKey entries => '{' :: entries.flatMap fun e => partText (entryText e)
  | .mapValue entries key =>
    '{' :: (entries.flatMap fun e => partText (entryText e)) ++ (key.render.toList ++ ['='])

/-- The finished items, keys and values. -/
def parts : OpenContext → List Literal
  | .list items => items
  | .mapKey entries => entries.flatMap fun e => [e.1, e.2]
  | .mapValue entries key => (entries.flatMap fun e => [e.1, e.2]) ++ [key]

/-- Inside of `k` other containers, the contexts and the literals in them do not go deeper than the
limit, and no literal in them is empty. -/
def Fit (limit : Nat) : Nat → List OpenContext → Prop
  | _, [] => True
  | k, o :: os => k < limit ∧ (∀ p ∈ o.parts, p.EmptyFree ∧ p.depth + (k + 1) ≤ limit) ∧
      Fit limit (k + 1) os

/-- The text of contexts in each other, outermost first. -/
def openText (os : List OpenContext) : String := String.ofList (os.flatMap text)

theorem fit_append {limit : Nat} : ∀ {k : Nat} {os os' : List OpenContext},
    Fit limit k (os ++ os') → Fit limit k os ∧ Fit limit (k + os.length) os'
  | _, [], _, h => ⟨trivial, h⟩
  | k, o :: os, os', ⟨hk, hparts, hrest⟩ => by
    obtain ⟨hos, hos'⟩ := fit_append hrest
    refine ⟨⟨hk, hparts, hos⟩, ?_⟩
    rw [List.length_cons, ← Nat.succ_add_eq_add_succ]
    exact hos'

end OpenContext

open OpenContext

/-! ### Part of the way -/

namespace Reading

variable {limit : Nat} {r next : Reading}

/-- The run from `r` passes through a reading with `Q`. -/
def GoesTo (limit : Nat) (r : Reading) (Q : Reading → Prop) : Prop :=
  ∃ next : Reading, r.run limit = next.run limit ∧ r.cursor.Reaches next.cursor ∧ Q next

variable {P Q : Reading → Prop}

theorem GoesTo.here (h : Q r) : GoesTo limit r Q := ⟨r, rfl, .refl _, h⟩

theorem GoesTo.of_go (hs : r.step limit = .go next) (hr : r.cursor.Reaches next.cursor)
    (h : GoesTo limit next Q) : GoesTo limit r Q := by
  obtain ⟨last, hrun, hreach, hq⟩ := h
  exact ⟨last, (run_go hs).trans hrun, hr.trans hreach, hq⟩

theorem GoesTo.trans (h : GoesTo limit r P) (hp : ∀ next, P next → GoesTo limit next Q) :
    GoesTo limit r Q := by
  obtain ⟨next, hrun, hreach, hpn⟩ := h
  obtain ⟨last, hrun', hreach', hq⟩ := hp next hpn
  exact ⟨last, hrun.trans hrun', hreach.trans hreach', hq⟩

/-- The reading is before a value inside `opened`, and `rest` is what is left of the text. -/
structure Before (opened : List OpenContainer) (rest : List Char) (r : Reading) : Prop where
  phase : r.phase = .value
  opened_eq : r.opened = opened
  rest_eq : r.cursor.rest = rest

/-- A value could begin here: the text ends, or its first character is neither blank nor one that
stands behind a value. -/
def BeginsValue (rest : List Char) : Prop :=
  ∀ ch ∈ rest.head?, isBlank ch = false ∧ Place.nested.ends ch = false

namespace BeginsValue

variable {rest : List Char}

theorem nil : BeginsValue [] := fun _ h => by cases h

theorem dropBlanks_eq (h : BeginsValue rest) : dropBlanks rest = rest := by
  cases rest with
  | nil => rfl
  | cons ch cs => exact dropBlanks_cons (h ch rfl).1 cs

theorem head_ne (h : BeginsValue rest) {ch : Char} (hch : Place.nested.ends ch = true) :
    rest.head? ≠ some ch := by
  intro hhead
  rw [(h ch hhead).2] at hch
  cases hch

theorem spelled {t : Literal} {s : List Char} (h : Spells t s) (cs : List Char) :
    BeginsValue (s ++ cs) := by
  obtain ⟨ch, ds, rfl, hb, he⟩ := h.head
  intro x hx
  obtain rfl : ch = x := Option.some.inj hx
  exact ⟨hb, by simpa [Place.ends] using he⟩

theorem items (h : BeginsValue rest) (is : List Literal) :
    BeginsValue ((is.flatMap fun i => partText i.render.toList) ++ rest) := by
  cases is with
  | nil => exact h
  | cons i is =>
    rw [List.flatMap_cons, partText, List.append_assoc, List.append_assoc]
    exact spelled (spells_render i) _

theorem entries (h : BeginsValue rest) (es : List (Literal × Literal)) :
    BeginsValue ((es.flatMap fun e => partText (entryText e)) ++ rest) := by
  cases es with
  | nil => exact h
  | cons e es =>
    rw [List.flatMap_cons, partText, entryText, List.append_assoc, List.append_assoc,
      List.append_assoc]
    exact spelled (spells_render e.1) _

end BeginsValue

/-! ### Parts -/

variable {opened outer : List OpenContainer} {rest : List Char} {start : Nat}

/-- A finished part is read up to the structural character behind it. -/
theorem Before.part {t : Literal} {ch : Char} (h : r.Before opened (t.render.toList ++ ch :: rest))
    (ho : opened ≠ []) (ht : t.depth + opened.length ≤ limit) (hb : isBlank ch = false)
    (hch : Place.nested.ends ch = true) : GoesTo limit r (HasRead t opened (ch :: rest)) := by
  obtain ⟨k, hk⟩ : ∃ k, opened.length = k + 1 := by
    obtain ⟨top, outer, rfl⟩ := List.exists_cons_of_ne_nil ho
    exact ⟨outer.length, List.length_cons⟩
  rw [hk] at ht
  obtain ⟨v, d, hv, hsame, hrest⟩ := (spells_render t).derives h.rest_eq (stops_cons hch hb rest) ht
  have hdepth : r.depth = k + 1 := by rw [depth, h.opened_eq, hk]
  obtain ⟨next, hrun, hp, hopened, rfl⟩ := hv.puts h.phase rfl hdepth
  refine ⟨next, hrun, hv.reaches, ⟨v, hp, hsame⟩, hopened.trans h.opened_eq, hrest, fun he => ?_⟩
  exact absurd he ho

theorem reaches_behind (r : Reading) : r.cursor.Reaches r.cursor.skipBlanks.advance.skipBlanks :=
  r.cursor.reaches_behind

/-- The comma and the space behind an item lead to the next one. -/
theorem HasRead.next_item {i : Literal} {items : List Literal}
    (h : HasRead i (.list start items :: outer) (',' :: ' ' :: rest) r) (hb : BeginsValue rest) :
    GoesTo limit r fun next =>
      ∃ v : Literal, next.Before (.list start (items ++ [v]) :: outer) rest := by
  obtain ⟨⟨v, hp, -⟩, ho, hblanks, -⟩ := h
  obtain ⟨-, -, hinside⟩ := Cursor.peek_behind hblanks (by decide)
  rw [dropBlanks_cons (by decide)] at hblanks
  refine .of_go (step_list_comma hp ho hblanks) r.reaches_behind (.here ⟨v, rfl, rfl, ?_⟩)
  exact hinside.trans hb.dropBlanks_eq

theorem HasRead.value_of_key {k : Literal} {entries : List (Literal × Literal)}
    (h : HasRead k (.mapKey start entries :: outer) ('=' :: rest) r) (hb : BeginsValue rest) :
    GoesTo limit r fun next => ∃ key : Literal, key.unspanned = k.filled.unspanned ∧
      next.Before (.mapValue start entries key :: outer) rest := by
  obtain ⟨⟨v, hp, hsame⟩, ho, hblanks, -⟩ := h
  obtain ⟨-, -, hinside⟩ := Cursor.peek_behind hblanks (by decide)
  rw [dropBlanks_cons (by decide)] at hblanks
  refine .of_go (step_map_equals hp ho hblanks) r.reaches_behind (.here ⟨v, hsame, rfl, rfl, ?_⟩)
  exact hinside.trans hb.dropBlanks_eq

theorem HasRead.next_key {t key : Literal} {entries : List (Literal × Literal)}
    (h : HasRead t (.mapValue start entries key :: outer) (',' :: ' ' :: rest) r)
    (hb : BeginsValue rest) :
    GoesTo limit r fun next =>
      ∃ v : Literal, next.Before (.mapKey start (entries ++ [(key, v)]) :: outer) rest := by
  obtain ⟨⟨v, hp, -⟩, ho, hblanks, -⟩ := h
  obtain ⟨-, -, hinside⟩ := Cursor.peek_behind hblanks (by decide)
  rw [dropBlanks_cons (by decide)] at hblanks
  refine .of_go (step_map_comma hp ho hblanks) r.reaches_behind (.here ⟨v, rfl, rfl, ?_⟩)
  exact hinside.trans hb.dropBlanks_eq

theorem goesTo_items (hb : BeginsValue rest) : ∀ {is items : List Literal} {r : Reading},
    r.Before (.list start items :: outer)
      ((is.flatMap fun i => partText i.render.toList) ++ rest) →
    (∀ i ∈ is, i.depth + (outer.length + 1) ≤ limit) →
    GoesTo limit r fun next => ∃ items', items'.length = items.length + is.length ∧
      next.Before (.list start items' :: outer) rest
  | [], items, _, h, _ => .here ⟨items, rfl, h⟩
  | i :: is, items, r, h, hd => by
    rw [List.flatMap_cons, partText, List.append_assoc, List.append_assoc] at h
    obtain ⟨hi, his⟩ := List.forall_mem_cons.mp hd
    have hpart := h.part (List.cons_ne_nil _ _) hi (by decide) (by decide)
    refine hpart.trans fun next hn => (hn.next_item (hb.items is)).trans ?_
    rintro next' ⟨v, hn'⟩
    obtain ⟨last, hrun, hreach, items', hlength, hlast⟩ := goesTo_items hb hn' his
    refine ⟨last, hrun, hreach, items', ?_, hlast⟩
    rw [hlength]
    simp only [List.length_append, List.length_cons, List.length_nil]
    omega

/-- The keys of the entries of a map, as its frames name them. -/
def keyTexts (entries : List (Literal × Literal)) : List String :=
  entries.map fun e => e.1.keyText

theorem keyText_eq_keyName {v k : Literal} (h : v.unspanned = k.filled.unspanned)
    (hk : k.EmptyFree) : v.keyText = keyName k := by
  rw [k.filled_eq_self hk] at h
  rw [← v.keyText_unspanned, h, k.keyText_unspanned]
  cases k <;> rfl

theorem goesTo_entries (hb : BeginsValue rest) : ∀ {es entries : List (Literal × Literal)}
    {r : Reading},
    r.Before (.mapKey start entries :: outer)
      ((es.flatMap fun e => partText (entryText e)) ++ rest) →
    (∀ p ∈ es.flatMap fun e => [e.1, e.2], p.EmptyFree ∧ p.depth + (outer.length + 1) ≤ limit) →
    GoesTo limit r fun next => ∃ entries',
      keyTexts entries' = keyTexts entries ++ es.map (fun e => keyName e.1) ∧
      next.Before (.mapKey start entries' :: outer) rest
  | [], entries, _, h, _ => .here ⟨entries, (List.append_nil _).symm, h⟩
  | (k, v) :: es, entries, r, h, hd => by
    rw [List.flatMap_cons, partText, entryText] at h
    simp only [List.append_assoc, List.cons_append] at h
    obtain ⟨hk, hd⟩ := List.forall_mem_cons.mp hd
    obtain ⟨hv, hd⟩ := List.forall_mem_cons.mp hd
    have hkey := h.part (List.cons_ne_nil _ _) hk.2 (by decide) (by decide)
    refine hkey.trans fun next hn => ?_
    refine (hn.value_of_key (.spelled (spells_render v) _)).trans ?_
    rintro next ⟨key, hsame, hn⟩
    have hvalue := hn.part (List.cons_ne_nil _ _) hv.2 (by decide) (by decide)
    refine hvalue.trans fun next hn => (hn.next_key (hb.entries es)).trans ?_
    rintro next ⟨w, hn⟩
    obtain ⟨last, hrun, hreach, entries', hkeys, hlast⟩ := goesTo_entries hb hn hd
    refine ⟨last, hrun, hreach, entries', ?_, hlast⟩
    rw [hkeys, keyTexts, List.map_append, List.append_assoc]
    simp [keyTexts, keyText_eq_keyName hsame hk.1]

/-! ### Contexts -/

/-- An opening bracket leads to the first value in the container that it opens. -/
theorem Before.entered {bracket closer : Char} {fresh : OpenContainer} {close : Span → Literal}
    (h : r.Before opened (bracket :: rest)) (hb : BeginsValue rest) (hk : opened.length < limit)
    (hcloser : Place.nested.ends closer = true)
    (hstep : r.step limit = r.enter limit fresh closer close) :
    GoesTo limit r (Before (fresh :: opened) rest) := by
  have hinside : r.cursor.inside.rest = rest :=
    (Cursor.inside_rest h.rest_eq).trans hb.dropBlanks_eq
  have hpeek : r.cursor.inside.peek ≠ some closer := by
    rw [Cursor.peek, hinside]
    exact hb.head_ne hcloser
  rw [enter_inside (by rwa [depth, h.opened_eq]) hpeek, h.opened_eq] at hstep
  exact .of_go hstep r.cursor.reaches_inside (.here ⟨h.phase, rfl, hinside⟩)

/-- The finished items of an open list lead to its next one. -/
theorem Before.inList {is : List Literal}
    (h : r.Before opened ('[' :: (is.flatMap fun i => partText i.render.toList) ++ rest))
    (hb : BeginsValue rest) (hk : opened.length < limit)
    (hd : ∀ i ∈ is, i.depth + (opened.length + 1) ≤ limit) :
    GoesTo limit r fun next => ∃ start items', items'.length = is.length ∧
      next.Before (.list start items' :: opened) rest := by
  have hstep := step_bracket limit h.phase (Cursor.peek_of_rest h.rest_eq)
  refine (h.entered (hb.items is) hk (by decide) hstep).trans fun next hn => ?_
  obtain ⟨last, hrun, hreach, items', hlength, hlast⟩ := goesTo_items hb hn hd
  exact ⟨last, hrun, hreach, _, items', by simpa using hlength, hlast⟩

/-- The finished entries of an open map lead to its next key. -/
theorem Before.inMap {es : List (Literal × Literal)}
    (h : r.Before opened ('\x7b' :: (es.flatMap fun e => partText (entryText e)) ++ rest))
    (hb : BeginsValue rest) (hk : opened.length < limit)
    (hd : ∀ p ∈ es.flatMap fun e => [e.1, e.2], p.EmptyFree ∧ p.depth + (opened.length + 1) ≤ limit) :
    GoesTo limit r fun next => ∃ start entries',
      keyTexts entries' = es.map (fun e => keyName e.1) ∧
      next.Before (.mapKey start entries' :: opened) rest := by
  have hstep := step_brace limit h.phase (Cursor.peek_of_rest h.rest_eq)
  refine (h.entered (hb.entries es) hk (by decide) hstep).trans fun next hn => ?_
  obtain ⟨last, hrun, hreach, entries', hkeys, hlast⟩ := goesTo_entries hb hn hd
  exact ⟨last, hrun, hreach, _, entries', hkeys, hlast⟩

section Frames

variable {items items' : List Literal} {entries entries' : List (Literal × Literal)}

theorem freshCloser_list (h : items'.length = items.length) :
    (OpenContainer.list start items').freshCloser = (OpenContext.list items).closers := by
  cases items with
  | nil => rw [List.length_eq_zero_iff.mp h]; rfl
  | cons i is =>
    obtain ⟨i', is', rfl⟩ := List.exists_cons_of_length_eq_add_one h
    simp [OpenContainer.freshCloser, OpenContext.closers]

theorem length_of_keyTexts (h : keyTexts entries' = entries.map fun e => keyName e.1) :
    entries'.length = entries.length := by
  simpa [keyTexts] using congrArg List.length h

theorem freshCloser_mapKey (h : entries'.length = entries.length) :
    (OpenContainer.mapKey start entries').freshCloser = (OpenContext.mapKey entries).closers := by
  cases entries with
  | nil => rw [List.length_eq_zero_iff.mp h]; rfl
  | cons e es =>
    obtain ⟨e', es', rfl⟩ := List.exists_cons_of_length_eq_add_one h
    simp [OpenContainer.freshCloser, OpenContext.closers]

theorem frame_mapKey (h : keyTexts entries' = entries.map fun e => keyName e.1) :
    (OpenContainer.mapKey start entries').frame = (OpenContext.mapKey entries).frame := by
  rw [OpenContainer.frame, OpenContext.frame, length_of_keyTexts h, ← h]
  rfl

end Frames

/-- **A context is read as an open container that has its frame.** -/
theorem goesTo_context {o : OpenContext} (h : r.Before opened (o.text ++ rest))
    (hb : BeginsValue rest) (hk : opened.length < limit)
    (hparts : ∀ p ∈ o.parts, p.EmptyFree ∧ p.depth + (opened.length + 1) ≤ limit) :
    GoesTo limit r fun next => ∃ top : OpenContainer, top.frame = o.frame ∧
      top.freshCloser = o.closers ∧ next.Before (top :: opened) rest := by
  cases o with
  | list items =>
    obtain ⟨last, hrun, hreach, start, items', hlength, hlast⟩ :=
      h.inList hb hk fun i hi => (hparts i hi).2
    exact ⟨last, hrun, hreach, .list start items', congrArg Frame.list hlength,
      freshCloser_list hlength, hlast⟩
  | mapKey entries =>
    obtain ⟨last, hrun, hreach, start, entries', hkeys, hlast⟩ := h.inMap hb hk hparts
    exact ⟨last, hrun, hreach, .mapKey start entries', frame_mapKey hkeys,
      freshCloser_mapKey (length_of_keyTexts hkeys), hlast⟩
  | mapValue entries key =>
    obtain ⟨hentries, hkey⟩ := List.forall_mem_append.mp hparts
    obtain ⟨hkey, -⟩ := List.forall_mem_cons.mp hkey
    rw [OpenContext.text, List.append_assoc, List.append_assoc] at h
    have hb' : BeginsValue (key.render.toList ++ ('=' :: rest)) := .spelled (spells_render key) _
    refine (h.inMap hb' hk hentries).trans ?_
    rintro next ⟨start, entries', hkeys, hn⟩
    refine (hn.part (List.cons_ne_nil _ _) hkey.2 (by decide) (by decide)).trans fun next hn => ?_
    obtain ⟨last, hrun, hreach, key', hsame, hlast⟩ := hn.value_of_key hb
    refine ⟨last, hrun, hreach, .mapValue start entries' key', ?_, rfl, hlast⟩
    rw [OpenContainer.frame, OpenContext.frame, length_of_keyTexts hkeys,
      keyText_eq_keyName hsame hkey.1]

theorem beginsValue_contexts {rest : List Char} (hb : BeginsValue rest) (os : List OpenContext) :
    BeginsValue (os.flatMap OpenContext.text ++ rest) := by
  cases os with
  | nil => exact hb
  | cons o os =>
    intro ch hch
    cases o with
    | list =>
      obtain rfl : '[' = ch := Option.some.inj hch
      decide
    | mapKey | mapValue =>
      obtain rfl : '\x7b' = ch := Option.some.inj hch
      decide

/-- **Contexts in each other are read as open containers that have their frames.** -/
theorem goesTo_contexts (hb : BeginsValue rest) : ∀ {os : List OpenContext}
    {opened : List OpenContainer} {r : Reading},
    r.Before opened (os.flatMap OpenContext.text ++ rest) → Fit limit opened.length os →
    GoesTo limit r fun next => ∃ inner : List OpenContainer,
      (inner.map OpenContainer.frame).reverse = os.map OpenContext.frame ∧
      next.Before (inner ++ opened) rest
  | [], _, _, h, _ => .here ⟨[], rfl, h⟩
  | o :: os, opened, r, h, ⟨hk, hparts, hfit⟩ => by
    rw [List.flatMap_cons, List.append_assoc] at h
    refine (goesTo_context h (beginsValue_contexts hb os) hk hparts).trans ?_
    rintro next ⟨top, hframe, -, hn⟩
    obtain ⟨last, hrun, hreach, inner, hinner, hlast⟩ := goesTo_contexts hb hn hfit
    refine ⟨last, hrun, hreach, inner ++ [top], ?_, ?_⟩
    · simp [hinner, hframe]
    · rwa [List.append_assoc]

/-- Contexts in each other lead to the end of their text, with the innermost one on top. -/
theorem goesTo_end {os : List OpenContext} {o : OpenContext}
    (h : r.Before [] (openText (os ++ [o])).toList) (hfit : Fit limit 0 (os ++ [o])) :
    GoesTo limit r fun next => ∃ (top : OpenContainer) (outer : List OpenContainer),
      ((top :: outer).map OpenContainer.frame).reverse = (os ++ [o]).map frame ∧
      top.freshCloser = o.closers ∧ next.Before (top :: outer) [] := by
  obtain ⟨hos, hk, hparts, -⟩ := fit_append hfit
  rw [openText, String.toList_ofList, List.flatMap_append, List.flatMap_singleton,
    ← List.append_nil o.text] at h
  have hbegins : BeginsValue (o.text ++ []) := by
    simpa using beginsValue_contexts .nil [o]
  refine (goesTo_contexts hbegins h hos).trans ?_
  rintro next ⟨inner, hinner, hn⟩
  rw [List.append_nil inner] at hn
  have hlength : inner.length = os.length := by
    simpa using congrArg List.length hinner
  rw [Nat.zero_add, ← hlength] at hk hparts
  obtain ⟨last, hrun, hreach, top, hframe, hcloser, hlast⟩ := goesTo_context hn .nil hk hparts
  exact ⟨last, hrun, hreach, top, inner, by simp [hinner, hframe], hcloser, hlast⟩

/-- Where the text ends in an open container, a value or its closing bracket is missing. -/
theorem Before.run_at_end {top : OpenContainer} (h : r.Before (top :: outer) []) :
    r.run limit = .error ⟨.tokenExpected ⟨top.freshCloser, true⟩, r.cursor.offset,
      ((top :: outer).map OpenContainer.frame).reverse, r.lastScalar⟩ := by
  have hstep : r.step limit = r.expect r.freshCloser true r.cursor := by
    rw [step, h.phase]
    unfold beginValue
    rw [Cursor.peek_of_rest_nil h.rest_eq]
    exact if_neg (by simp [h.opened_eq])
  rw [run_stuck hstep, Reading.freshCloser, Reading.frames, h.opened_eq]

end Reading

/-! ### The failure -/

open Reading

variable {limit : Nat} {os : List OpenContext} {o : OpenContext}

/-- **A text that ends in open contexts fails at its end, and the frames are the contexts.** The
scalar that was read last does not end there. -/
theorem readValue_openText {c : Cursor} (hc : c.rest = (openText (os ++ [o])).toList)
    (h : Fit limit 0 (os ++ [o])) :
    ∃ last, readValue limit c = .error ⟨.tokenExpected ⟨o.closers, true⟩,
        c.offset + byteLength c.rest, (os ++ [o]).map frame, last⟩ ∧
      ∀ sc ∈ last, sc.span.stop < c.offset + byteLength c.rest := by
  obtain ⟨next, hrun, hreach, top, outer, hframes, hcloser, hn⟩ :=
    goesTo_end (r := Reading.start c) ⟨rfl, rfl, hc⟩ h
  have hend : next.cursor.offset = c.offset + byteLength c.rest := by
    have hend := hreach.end_eq
    rw [hn.rest_eq, byteLength_nil, Nat.add_zero] at hend
    exact hend
  have hfails : readValue limit c = .error ⟨.tokenExpected ⟨o.closers, true⟩,
      c.offset + byteLength c.rest, (os ++ [o]).map frame, next.lastScalar⟩ := by
    rw [readValue, hrun, hn.run_at_end, hcloser, hframes, hend]
  refine ⟨next.lastScalar, hfails, fun sc hsc => Nat.lt_of_not_le fun hle => ?_⟩
  -- behind a scalar that ends the text no value could stand
  have hrecalls := readValue_lastScalar hfails hsc hle
  have hvalue := hrecalls.value _ rfl
  cases hvalue

/-- **Frames describe exactly the open containers.** The text of contexts that are open in each
other fails at its end; a value could stand there, or the closing bracket if nothing has been read
in the innermost context, and the frames are the contexts from the outermost inward. -/
theorem parseLiteral_openText (h : Fit limit 0 (os ++ [o])) :
    ∃ last, parseLiteral limit (openText (os ++ [o])) =
      .error ⟨.tokenExpected ⟨o.closers, true⟩, textLength (openText (os ++ [o])),
        (os ++ [o]).map frame, last⟩ := by
  have hskip : (Cursor.start (openText (os ++ [o]))).skipBlanks =
      Cursor.start (openText (os ++ [o])) := by
    have hbegins := beginsValue_contexts .nil (os ++ [o])
    refine Cursor.skipBlanks_eq_self ?_
    rw [Cursor.start, openText, String.toList_ofList, ← List.append_nil (List.flatMap _ _)]
    exact hbegins.dropBlanks_eq
  obtain ⟨last, hread, -⟩ := readValue_openText (c := Cursor.start _) rfl h
  refine ⟨last, parseLiteral_of_readValue_error ?_⟩
  rw [hskip, hread, textLength, Cursor.start, Nat.zero_add]

/-- A map at the value of a key that is a map itself, a list with a quoted item in it, and a map
with nothing in it yet. -/
theorem parseLiteral_openText_nested :
    ∃ last, parseLiteral 3 "\x7ba=[], \x7b\x7d=[\"é é\", \x7b" =
      .error ⟨.tokenExpected ⟨['\x7d'], true⟩, 21,
        [.mapValue 1 "\x7b\x7d", .list 1, .mapKey 0 []], last⟩ := by
  let outer : List OpenContext :=
    [.mapValue [(.scalar "a" default, .list [] default)] (.map [] default),
      .list [.scalar "é é" default]]
  have hfit : Fit 3 0 (outer ++ [.mapKey []]) := by
    simp [outer, Fit, parts, Literal.EmptyFree, Literal.EmptyFreeItems, Literal.EmptyFreeEntries,
      Literal.depth, Literal.depthItems, Literal.depthEntries]
  have htext : openText (outer ++ [.mapKey []]) = "\x7ba=[], \x7b\x7d=[\"é é\", \x7b" := by
    decide +kernel
  have hlength : textLength "\x7ba=[], \x7b\x7d=[\"é é\", \x7b" = 21 := by decide +kernel
  have hframes : (outer ++ [OpenContext.mapKey []]).map frame =
      [.mapValue 1 "\x7b\x7d", .list 1, .mapKey 0 []] := by
    decide +kernel
  obtain ⟨last, h⟩ := parseLiteral_openText hfit
  rw [htext, hlength, hframes] at h
  exact ⟨last, h⟩

end CommandConsole
