/-
# Reading a spelling back

The reader goes through a spelling of `t` and puts down a literal that is
`t.filled` up to spans, or it meets the nesting limit: the latter exactly if
the containers of `t`, together with those that are open already, are more
than the limit. `Reading.LeadsTo limit fits r Q` is this alternative for a
part of the text: from `r` the run goes on at a reading with `Q` if it fits,
and ends with the limit if it does not. Alternatives of neighbouring parts
compose (`LeadsTo.trans`), so the proof follows the spelling.

Key definitions: `Reading.LeadsTo`, `Reading.HasRead`.
Key theorems: `Reading.leadsTo_enter`, `Reading.leadsTo_spells`.
-/
import CommandConsole.Literal.Reader
import CommandConsole.Proofs.Literal.Scan

namespace CommandConsole

/-! ### The alternative of fitting and not fitting -/

namespace Reading

/-- If `fits` holds, the run from `r` goes on at a reading with `Q`. If not, it ends with the
nesting limit. -/
def LeadsTo (limit : Nat) (fits : Prop) (r : Reading) (Q : Reading → Prop) : Prop :=
  (fits → ∃ next, r.run limit = next.run limit ∧ Q next) ∧
    (¬fits → ∃ f, r.run limit = .error f ∧ f.kind = .nestingLimitExceeded limit)

variable {limit : Nat} {p q : Prop} {r next : Reading} {Q R : Reading → Prop}

theorem LeadsTo.here (hp : p) (hq : Q r) : LeadsTo limit p r Q :=
  ⟨fun _ => ⟨r, rfl, hq⟩, fun h => absurd hp h⟩

theorem LeadsTo.of_go (hs : r.step limit = .go next) (h : LeadsTo limit p next Q) :
    LeadsTo limit p r Q := by
  unfold LeadsTo
  rw [run_go hs]
  exact h

theorem LeadsTo.trans (h : LeadsTo limit p r Q) (hq : ∀ next, Q next → LeadsTo limit q next R) :
    LeadsTo limit (p ∧ q) r R := by
  by_cases hp : p
  · obtain ⟨next, hr, hn⟩ := h.1 hp
    have hnext := hq next hn
    unfold LeadsTo
    rw [hr]
    exact ⟨fun hf => hnext.1 hf.2, fun hf => hnext.2 fun h => hf ⟨hp, h⟩⟩
  · exact ⟨fun hf => absurd hf.1 hp, fun _ => h.2 hp⟩

theorem LeadsTo.of_iff (h : LeadsTo limit p r Q) (hpq : p ↔ q) : LeadsTo limit q r Q := by
  rwa [propext hpq] at h

theorem LeadsTo.mono (h : LeadsTo limit p r Q) (hq : ∀ next, Q next → R next) :
    LeadsTo limit p r R := by
  refine ⟨fun hp => ?_, h.2⟩
  obtain ⟨next, hr, hn⟩ := h.1 hp
  exact ⟨next, hr, hq next hn⟩

/-- The reading has put down `t` in front of `rest`. In a container it may have dropped blanks. -/
structure HasRead (t : Literal) (opened : List OpenContainer) (rest : List Char) (r : Reading) :
    Prop where
  phase : ∃ v, r.phase = .after v ∧ v.unspanned = t.filled.unspanned
  opened_eq : r.opened = opened
  blanks : dropBlanks r.cursor.rest = dropBlanks rest
  exact : opened = [] → r.cursor.rest = rest

/-! ### Scalars -/

theorem place_eq_topLevel (h : r.opened = []) : r.place = .topLevel := by simp [place, h]

theorem place_eq_nested (h : r.opened ≠ []) : r.place = .nested := by simp [place, h]

/-- Where a value may begin, and with neither a bracket nor a quote, a bareword does. -/
theorem beginValue_word {ch : Char} (hc : r.cursor.peek = some ch)
    (hends : ¬(r.opened ≠ [] ∧ Place.nested.ends ch = true)) (ho : opensGroup ch = false) :
    r.beginValue limit = .go r.acceptBareword := by
  simp only [opensGroup, List.contains_cons, List.contains_nil, Bool.or_false, Bool.or_eq_false_iff,
    beq_eq_false_iff_ne] at ho
  unfold beginValue
  rw [hc]
  simp [hends, ho]

theorem beginValue_topLevel {c : Char} {cs : List Char} (h : r.cursor.rest = c :: cs)
    (ht : r.opened = []) (ho : opensGroup c = false) : r.beginValue limit = .go r.acceptBareword :=
  beginValue_word (Cursor.peek_of_rest h) (fun hends => hends.1 ht) ho

/-- A bareword that is no item is the whole value. -/
theorem run_acceptBareword (ho : r.opened = []) : r.acceptBareword.run limit =
    .ok (.scalar (String.ofList (scanBareword r.place 0 r.cursor.offset r.cursor.rest).text)
      ⟨r.cursor.offset, (scanBareword r.place 0 r.cursor.offset r.cursor.rest).stop⟩,
        r.acceptBareword.cursor) :=
  run_done (by simp [step, acceptBareword, acceptScalar, endValue, ho])

/-- A quoted scalar is one step. -/
theorem step_quote {text : String} {rest : List Char} (hp : r.phase = .value)
    (hr : r.cursor.rest = (quote text).toList ++ rest) :
    ∃ next span, r.step limit = .go next ∧ next.phase = .after (.scalar text span) ∧
      next.opened = r.opened ∧ next.cursor.rest = rest := by
  rw [toList_quote, List.cons_append, List.append_assoc] at hr
  obtain ⟨stop, hscan⟩ := scanQuoted_escapeQuoted rest r.cursor.advance.offset text.toList
  have hstep : r.step limit = .go (r.acceptScalar ⟨text.toList, stop, ⟨stop, rest⟩, true⟩) := by
    simp [step, hp, beginValue_quote hr, hscan]
  exact ⟨_, ⟨r.cursor.offset, stop⟩, hstep, by simp [acceptScalar], rfl, rfl⟩

/-- A bareword is one step. -/
theorem step_bareword {text : String} {s rest : List Char} (hp : r.phase = .value)
    (hr : r.cursor.rest = s ++ rest) (ht : text ≠ "") (hs : SpellsWord text.toList s)
    (hstops : r.place.Stops rest) :
    ∃ next span, r.step limit = .go next ∧ next.phase = .after (.scalar text span) ∧
      next.opened = r.opened ∧ next.cursor.rest = r.place.left rest := by
  obtain ⟨stop, after, hscan⟩ := scanBareword_spelled hs r.place hstops r.cursor.offset
  obtain ⟨c, cs, hc, hcp⟩ := hs.head (by simpa using ht)
  have hchar : Place.nested.ends c = false ∧ opensGroup c = false := by
    rcases hcp with hcp | rfl
    · obtain ⟨he, -, ho⟩ := of_not_mem_structuralChars hcp.2
      exact ⟨he, ho⟩
    · exact ⟨by decide, by decide⟩
  have hrest : r.cursor.rest = c :: (cs ++ rest) := by rw [hr, hc, List.cons_append]
  have hstep : r.step limit =
      .go (r.acceptScalar ⟨text.toList, stop, ⟨after, r.place.left rest⟩, true⟩) := by
    rw [← hscan, ← hr, step, hp]
    exact beginValue_char hrest hchar.1 hchar.2
  exact ⟨_, ⟨r.cursor.offset, stop⟩, hstep, by simp [acceptScalar], rfl, rfl⟩

/-! ### Containers -/

variable {start : Nat} {items : List Literal} {entries : List (Literal × Literal)} {v key : Literal}
  {outer : List OpenContainer} {cs : List Char}

theorem peek_skipBlanks {c : Char} (hc : dropBlanks r.cursor.rest = c :: cs) :
    r.cursor.skipBlanks.peek = some c :=
  Cursor.peek_of_rest (by rw [Cursor.skipBlanks_rest, hc])

theorem step_list_comma (hp : r.phase = .after v) (ho : r.opened = .list start items :: outer)
    (hc : dropBlanks r.cursor.rest = ',' :: cs) :
    r.step limit = .go ⟨.value, .list start (items ++ [v]) :: outer, r.lastScalar,
      r.cursor.skipBlanks.advance.skipBlanks⟩ := by
  simp [step, hp, endValue, ho, peek_skipBlanks hc]

theorem step_list_close (hp : r.phase = .after v) (ho : r.opened = .list start items :: outer)
    (hc : dropBlanks r.cursor.rest = ']' :: cs) :
    r.step limit = .go ⟨.after (.list (items ++ [v])
      ⟨start, r.cursor.skipBlanks.advance.offset⟩), outer, r.lastScalar,
      r.cursor.skipBlanks.advance⟩ := by
  simp [step, hp, endValue, ho, peek_skipBlanks hc]

theorem step_map_equals (hp : r.phase = .after v) (ho : r.opened = .mapKey start entries :: outer)
    (hc : dropBlanks r.cursor.rest = '=' :: cs) :
    r.step limit = .go ⟨.value, .mapValue start entries v :: outer, r.lastScalar,
      r.cursor.skipBlanks.advance.skipBlanks⟩ := by
  simp [step, hp, endValue, ho, peek_skipBlanks hc]

theorem step_map_comma (hp : r.phase = .after v)
    (ho : r.opened = .mapValue start entries key :: outer)
    (hc : dropBlanks r.cursor.rest = ',' :: cs) :
    r.step limit = .go ⟨.value, .mapKey start (entries ++ [(key, v)]) :: outer, r.lastScalar,
      r.cursor.skipBlanks.advance.skipBlanks⟩ := by
  simp [step, hp, endValue, ho, peek_skipBlanks hc]

theorem step_map_close (hp : r.phase = .after v)
    (ho : r.opened = .mapValue start entries key :: outer)
    (hc : dropBlanks r.cursor.rest = '\x7d' :: cs) :
    r.step limit = .go ⟨.after (.map (entries ++ [(key, v)])
      ⟨start, r.cursor.skipBlanks.advance.offset⟩), outer, r.lastScalar,
      r.cursor.skipBlanks.advance⟩ := by
  simp [step, hp, endValue, ho, peek_skipBlanks hc]

/-- A container opens if the limit leaves room for it, and closes at once if nothing is in it. -/
theorem leadsTo_enter {fresh : OpenContainer} {opener closer : Char} {close : Span → Literal}
    (hp : r.phase = .value) (hs : r.step limit = r.enter limit fresh closer close)
    (hr : r.cursor.rest = opener :: cs)
    (hempty : ∀ rest span, dropBlanks cs = closer :: rest → ∀ next : Reading,
      next.phase = .after (close span) → next.opened = r.opened → next.cursor.rest = rest →
      r.depth < limit → LeadsTo limit p next Q)
    (hinside : (dropBlanks cs).head? ≠ some closer → ∀ next : Reading, next.phase = .value →
      next.opened = fresh :: r.opened → next.cursor.rest = dropBlanks cs →
      r.depth < limit → LeadsTo limit p next Q) :
    LeadsTo limit (r.depth < limit ∧ p) r Q := by
  have hcs : r.cursor.advance.skipBlanks.rest = dropBlanks cs := by simp [hr]
  by_cases hd : r.depth < limit
  · refine LeadsTo.of_iff ?_ (and_iff_right hd).symm
    by_cases hc : (dropBlanks cs).head? = some closer
    · obtain ⟨rest, hrest⟩ := List.head?_eq_some_iff.mp hc
      have hpeek := Cursor.peek_of_rest (hcs.trans hrest)
      refine LeadsTo.of_go (hs.trans (enter_empty hd hpeek fresh close))
        (hempty rest _ hrest _ rfl rfl ?_ hd)
      rw [Cursor.advance_rest, hcs, hrest]
      rfl
    · have hpeek : r.cursor.advance.skipBlanks.peek ≠ some closer := by
        rwa [Cursor.peek, hcs]
      exact LeadsTo.of_go (hs.trans (enter_inside hd hpeek fresh close))
        (hinside hc _ hp rfl hcs hd)
  · have hstuck := hs.trans (enter_full (Nat.le_of_not_lt hd) fresh closer close)
    exact ⟨fun h => absurd h.1 hd, fun _ => ⟨_, run_stuck hstuck, rfl⟩⟩

/-- The reading has closed a list: behind `items`, it has put down `is`. -/
def HasItems (is items : List Literal) (outer : List OpenContainer) (rest : List Char)
    (r : Reading) : Prop :=
  ∃ vs span, r.phase = .after (.list (items ++ vs) span) ∧
    Literal.unspannedItems vs = Literal.unspannedItems (Literal.filledItems is) ∧
    r.opened = outer ∧ r.cursor.rest = rest

/-- The reading has closed a map: behind `entries`, it has put down `es`. -/
def HasEntries (es entries : List (Literal × Literal)) (outer : List OpenContainer)
    (rest : List Char) (r : Reading) : Prop :=
  ∃ vs span, r.phase = .after (.map (entries ++ vs) span) ∧
    Literal.unspannedEntries vs = Literal.unspannedEntries (Literal.filledEntries es) ∧
    r.opened = outer ∧ r.cursor.rest = rest

theorem HasItems.hasRead {is : List Literal} {rest : List Char} (h : HasItems is [] outer rest r)
    (span : Span) : HasRead (.list is span) outer rest r := by
  obtain ⟨vs, vspan, hp, hvs, ho, hr⟩ := h
  refine ⟨⟨_, hp, ?_⟩, ho, by rw [hr], fun _ => hr⟩
  simp only [List.nil_append, Literal.filled, Literal.unspanned, hvs]

theorem HasEntries.hasRead {es : List (Literal × Literal)} {rest : List Char}
    (h : HasEntries es [] outer rest r) (span : Span) : HasRead (.map es span) outer rest r := by
  obtain ⟨vs, vspan, hp, hvs, ho, hr⟩ := h
  refine ⟨⟨_, hp, ?_⟩, ho, by rw [hr], fun _ => hr⟩
  simp only [List.nil_append, Literal.filled, Literal.unspanned, hvs]

/-- Behind an item of a list, a closing bracket ends the list. -/
theorem HasRead.list_close {i : Literal} {rest : List Char}
    (h : HasRead i (.list start items :: outer) (']' :: rest) r) :
    LeadsTo limit True r (HasItems [i] items outer rest) := by
  obtain ⟨⟨v, hp, hv⟩, ho, hb, -⟩ := h
  rw [dropBlanks_cons (by decide)] at hb
  refine LeadsTo.of_go (step_list_close hp ho hb) (LeadsTo.here trivial ⟨[v], _, rfl, ?_, rfl, ?_⟩)
  · simp only [Literal.filledItems, Literal.unspannedItems, hv]
  · simp [hb]

/-- Behind an item of a list, a comma leads to the next one. -/
theorem HasRead.list_comma {i : Literal} {is : List Literal} {rest : List Char}
    (h : HasRead i (.list start items :: outer) (',' :: cs) r)
    (hs : ∀ (items : List Literal) (next : Reading), next.phase = .value →
      next.opened = .list start items :: outer → next.cursor.rest = dropBlanks cs →
      LeadsTo limit p next (HasItems is items outer rest)) :
    LeadsTo limit p r (HasItems (i :: is) items outer rest) := by
  obtain ⟨⟨v, hp, hv⟩, ho, hb, -⟩ := h
  rw [dropBlanks_cons (by decide)] at hb
  refine LeadsTo.of_go (step_list_comma hp ho hb) ?_
  refine (hs (items ++ [v]) _ rfl rfl (by simp [hb])).mono fun next hn => ?_
  obtain ⟨vs, span, hp', hvs, ho', hr'⟩ := hn
  refine ⟨v :: vs, span, by rw [hp', List.append_assoc]; rfl, ?_, ho', hr'⟩
  simp only [Literal.filledItems, Literal.unspannedItems, hv, hvs]

/-- Behind a key of a map, an equals sign leads to its value. -/
theorem HasRead.map_equals {k : Literal}
    (h : HasRead k (.mapKey start entries :: outer) ('=' :: cs) r)
    (hs : ∀ (key : Literal) (next : Reading), key.unspanned = k.filled.unspanned →
      next.phase = .value → next.opened = .mapValue start entries key :: outer →
      next.cursor.rest = dropBlanks cs → LeadsTo limit p next Q) :
    LeadsTo limit p r Q := by
  obtain ⟨⟨v, hp, hv⟩, ho, hb, -⟩ := h
  rw [dropBlanks_cons (by decide)] at hb
  exact LeadsTo.of_go (step_map_equals hp ho hb) (hs v _ hv rfl rfl (by simp [hb]))

/-- Behind a value of a map, a closing brace ends the map. -/
theorem HasRead.map_close {k v : Literal} {rest : List Char}
    (h : HasRead v (.mapValue start entries key :: outer) ('}' :: rest) r)
    (hk : key.unspanned = k.filled.unspanned) :
    LeadsTo limit True r (HasEntries [(k, v)] entries outer rest) := by
  obtain ⟨⟨w, hp, hw⟩, ho, hb, -⟩ := h
  rw [dropBlanks_cons (by decide)] at hb
  refine LeadsTo.of_go (step_map_close hp ho hb)
    (LeadsTo.here trivial ⟨[(key, w)], _, rfl, ?_, rfl, ?_⟩)
  · simp only [Literal.filledEntries, Literal.unspannedEntries, hw, hk]
  · simp [hb]

/-- Behind a value of a map, a comma leads to the next key. -/
theorem HasRead.map_comma {k v : Literal} {es : List (Literal × Literal)} {rest : List Char}
    (h : HasRead v (.mapValue start entries key :: outer) (',' :: cs) r)
    (hk : key.unspanned = k.filled.unspanned)
    (hs : ∀ (entries : List (Literal × Literal)) (next : Reading), next.phase = .value →
      next.opened = .mapKey start entries :: outer → next.cursor.rest = dropBlanks cs →
      LeadsTo limit p next (HasEntries es entries outer rest)) :
    LeadsTo limit p r (HasEntries ((k, v) :: es) entries outer rest) := by
  obtain ⟨⟨w, hp, hw⟩, ho, hb, -⟩ := h
  rw [dropBlanks_cons (by decide)] at hb
  refine LeadsTo.of_go (step_map_comma hp ho hb) ?_
  refine (hs (entries ++ [(key, w)]) _ rfl rfl (by simp [hb])).mono fun next hn => ?_
  obtain ⟨vs, span, hp', hvs, ho', hr'⟩ := hn
  refine ⟨(key, w) :: vs, span, by rw [hp', List.append_assoc]; rfl, ?_, ho', hr'⟩
  simp only [Literal.filledEntries, Literal.unspannedEntries, hw, hk, hvs]

/-! ### What a container begins with -/

theorem dropBlanks_writes {t : Literal} {s : List Char} (h : Writes t s) (rest : List Char) :
    ∃ c cs, dropBlanks (s ++ rest) = c :: cs ∧ c ∉ [',', '=', '}', ']'] := by
  cases h with
  | @mk _ before s after hb h ha =>
    obtain ⟨c, cs, hs, -, hc⟩ := h.head
    refine ⟨c, cs ++ (after ++ rest), ?_, hc⟩
    rw [List.append_assoc, dropBlanks_append hb, List.append_assoc, dropBlanks_spells h, hs]
    rfl

theorem head_dropBlanks_writes {t : Literal} {s : List Char} (h : Writes t s) (rest : List Char)
    {closer : Char} (hc : closer ∈ [',', '=', '}', ']']) :
    (dropBlanks (s ++ rest)).head? ≠ some closer := by
  obtain ⟨c, cs, hd, hn⟩ := dropBlanks_writes h rest
  rw [hd]
  intro he
  exact hn (Option.some.inj he ▸ hc)

theorem head_dropBlanks_items {is : List Literal} {s : List Char} (h : WritesItems is s)
    (hne : is ≠ []) (rest : List Char) : (dropBlanks (s ++ rest)).head? ≠ some ']' := by
  cases h with
  | none => exact absurd rfl hne
  | last h => exact head_dropBlanks_writes h rest (by decide)
  | more h hs =>
    rw [List.append_assoc]
    exact head_dropBlanks_writes h _ (by decide)

theorem head_dropBlanks_entries {es : List (Literal × Literal)} {s : List Char}
    (h : WritesEntries es s) (hne : es ≠ []) (rest : List Char) :
    (dropBlanks (s ++ rest)).head? ≠ some '}' := by
  cases h with
  | none => exact absurd rfl hne
  | last hk hv =>
    rw [List.append_assoc]
    exact head_dropBlanks_writes hk _ (by decide)
  | more hk hv hs =>
    rw [List.append_assoc]
    exact head_dropBlanks_writes hk _ (by decide)

/-! ### Whole literals -/

theorem leadsTo_scalar {t : Literal} {text : String} {span : Span} {rest : List Char}
    (ht : t.filled = .scalar text span) (h0 : t.depth = 0) (hd : r.depth ≤ limit)
    (hs : ∃ next span, r.step limit = .go next ∧ next.phase = .after (.scalar text span) ∧
      next.opened = r.opened ∧ dropBlanks next.cursor.rest = dropBlanks rest ∧
      (r.opened = [] → next.cursor.rest = rest)) :
    LeadsTo limit (t.depth + r.depth ≤ limit) r (HasRead t r.opened rest) := by
  obtain ⟨next, nspan, hstep, hp, ho, hb, he⟩ := hs
  refine LeadsTo.of_go hstep (LeadsTo.here (by omega) ⟨⟨_, hp, ?_⟩, ho, hb, he⟩)
  rw [ht, Literal.unspanned, Literal.unspanned]

theorem leadsTo_quote {t : Literal} {text : String} (span : Span) {rest : List Char}
    (ht : t.filled = .scalar text span) (h0 : t.depth = 0) (hd : r.depth ≤ limit)
    (hp : r.phase = .value) (hr : r.cursor.rest = (quote text).toList ++ rest) :
    LeadsTo limit (t.depth + r.depth ≤ limit) r (HasRead t r.opened rest) := by
  obtain ⟨next, nspan, hstep, hnp, hno, hnr⟩ := step_quote hp hr
  exact leadsTo_scalar ht h0 hd ⟨next, nspan, hstep, hnp, hno, by rw [hnr], fun _ => hnr⟩

theorem leadsTo_bareword {text : String} {span : Span} {s rest : List Char} (hd : r.depth ≤ limit)
    (hp : r.phase = .value) (hr : r.cursor.rest = s ++ rest) (ht : text ≠ "")
    (hs : SpellsWord text.toList s) (hstops : r.place.Stops rest) :
    LeadsTo limit ((Literal.scalar text span).depth + r.depth ≤ limit) r
      (HasRead (.scalar text span) r.opened rest) := by
  obtain ⟨next, nspan, hstep, hnp, hno, hnr⟩ := step_bareword hp hr ht hs hstops
  refine leadsTo_scalar rfl rfl hd ⟨next, nspan, hstep, hnp, hno, ?_, fun ho => ?_⟩
  · rw [hnr]
    cases r.place with
    | topLevel => rfl
    | nested => exact dropBlanks_dropBlanks rest
  · rw [hnr, place_eq_topLevel ho]
    rfl

/-- A list is read back if its items are. -/
theorem leadsTo_list {is : List Literal} (span : Span) {s rest : List Char}
    (hw : WritesItems is s) (hp : r.phase = .value)
    (hr : r.cursor.rest = '[' :: (s ++ ']' :: rest))
    (hitems : is ≠ [] → ∀ next : Reading, next.phase = .value →
      next.opened = .list r.cursor.offset [] :: r.opened →
      next.cursor.rest = dropBlanks (s ++ ']' :: rest) → r.depth + 1 ≤ limit →
      LeadsTo limit (Literal.depthItems is + (r.depth + 1) ≤ limit) next
        (HasItems is [] r.opened rest)) :
    LeadsTo limit ((Literal.list is span).depth + r.depth ≤ limit) r
      (HasRead (.list is span) r.opened rest) := by
  have hs : r.step limit = r.enter limit (.list r.cursor.offset []) ']' (.list []) := by
    rw [step, hp]
    exact beginValue_bracket hr
  have hfits : r.depth < limit ∧ Literal.depthItems is + (r.depth + 1) ≤ limit ↔
      (Literal.list is span).depth + r.depth ≤ limit := by
    simp only [Literal.depth]
    omega
  refine (leadsTo_enter hp hs hr ?_ ?_).of_iff hfits
  · intro rest' span' hrest next hnp hno hnr hlt
    by_cases his : is = []
    · subst his
      cases hw with
      | none hb =>
        rw [dropBlanks_append hb, dropBlanks_cons (by decide)] at hrest
        cases hrest
        refine LeadsTo.here (by simp only [Literal.depthItems]; omega) ?_
        exact HasItems.hasRead ⟨[], span', hnp, rfl, hno, hnr⟩ span
    · exact absurd (by rw [hrest]; rfl) (head_dropBlanks_items hw his _)
  · intro hne next hnp hno hnr hlt
    by_cases his : is = []
    · subst his
      cases hw with
      | none hb => exact absurd (by rw [dropBlanks_append hb, dropBlanks_cons (by decide)]; rfl) hne
    · exact (hitems his next hnp hno hnr hlt).mono fun _ h => h.hasRead span

/-- A map is read back if its entries are. -/
theorem leadsTo_map {es : List (Literal × Literal)} (span : Span) {s rest : List Char}
    (hw : WritesEntries es s) (hp : r.phase = .value)
    (hr : r.cursor.rest = '\x7b' :: (s ++ '\x7d' :: rest))
    (hentries : es ≠ [] → ∀ next : Reading, next.phase = .value →
      next.opened = .mapKey r.cursor.offset [] :: r.opened →
      next.cursor.rest = dropBlanks (s ++ '\x7d' :: rest) → r.depth + 1 ≤ limit →
      LeadsTo limit (Literal.depthEntries es + (r.depth + 1) ≤ limit) next
        (HasEntries es [] r.opened rest)) :
    LeadsTo limit ((Literal.map es span).depth + r.depth ≤ limit) r
      (HasRead (.map es span) r.opened rest) := by
  have hs : r.step limit = r.enter limit (.mapKey r.cursor.offset []) '\x7d' (.map []) := by
    rw [step, hp]
    exact beginValue_brace hr
  have hfits : r.depth < limit ∧ Literal.depthEntries es + (r.depth + 1) ≤ limit ↔
      (Literal.map es span).depth + r.depth ≤ limit := by
    simp only [Literal.depth]
    omega
  refine (leadsTo_enter hp hs hr ?_ ?_).of_iff hfits
  · intro rest' span' hrest next hnp hno hnr hlt
    by_cases hes : es = []
    · subst hes
      cases hw with
      | none hb =>
        rw [dropBlanks_append hb, dropBlanks_cons (by decide)] at hrest
        cases hrest
        refine LeadsTo.here (by simp only [Literal.depthEntries]; omega) ?_
        exact HasEntries.hasRead ⟨[], span', hnp, rfl, hno, hnr⟩ span
    · exact absurd (by rw [hrest]; rfl) (head_dropBlanks_entries hw hes _)
  · intro hne next hnp hno hnr hlt
    by_cases hes : es = []
    · subst hes
      cases hw with
      | none hb => exact absurd (by rw [dropBlanks_append hb, dropBlanks_cons (by decide)]; rfl) hne
    · exact (hentries hes next hnp hno hnr hlt).mono fun _ h => h.hasRead span

theorem stops_cons {c : Char} (hc : Place.nested.ends c = true) (hb : isBlank c = false)
    (cs : List Char) : Place.nested.Stops (c :: cs) := by
  intro d hd
  rw [dropBlanks_cons hb] at hd
  cases hd
  exact hc

mutual

/-- **A spelling is read back.** The run puts down what it writes, or meets the limit. -/
theorem leadsTo_spells : ∀ {t : Literal} {s : List Char}, Spells t s → ∀ {r : Reading}
    {rest : List Char}, r.phase = .value → r.cursor.rest = s ++ rest → r.place.Stops rest →
    r.depth ≤ limit → LeadsTo limit (t.depth + r.depth ≤ limit) r (HasRead t r.opened rest)
  | _, _, .empty span, r, rest, hp, hr, _, hd => by
    have hq : (quote "").toList = ['"', '"'] := by simp [toList_quote, escapeQuoted]
    exact leadsTo_quote span rfl rfl hd hp (hq ▸ hr)
  | _, _, .quoted text span, _, _, hp, hr, _, hd => leadsTo_quote span rfl rfl hd hp hr
  | _, _, .bare span ht h, _, _, hp, hr, hstops, hd => leadsTo_bareword hd hp hr ht h hstops
  | _, _, .list span h, r, rest, hp, hr, _, hd => by
    rw [List.cons_append, List.append_assoc] at hr
    exact leadsTo_list span h hp hr fun hne next hnp hno hnr hnd =>
      leadsTo_items h hne hnp hno hnr hnd
  | _, _, .map span h, r, rest, hp, hr, _, hd => by
    rw [List.cons_append, List.append_assoc] at hr
    exact leadsTo_map span h hp hr fun hne next hnp hno hnr hnd =>
      leadsTo_entries h hne hnp hno hnr hnd

/-- Inside a container, blanks around the spelling change nothing. -/
theorem leadsTo_writes : ∀ {t : Literal} {s : List Char}, Writes t s → ∀ {r : Reading}
    {rest : List Char} {top : OpenContainer} {outer : List OpenContainer}, r.phase = .value →
    r.opened = top :: outer → r.cursor.rest = dropBlanks (s ++ rest) → Place.nested.Stops rest →
    outer.length + 1 ≤ limit →
    LeadsTo limit (t.depth + (outer.length + 1) ≤ limit) r (HasRead t (top :: outer) rest)
  | t, _, @Writes.mk _ before s after hb h ha, r, rest, top, outer, hp, ho, hr, hstops, hd => by
    rw [List.append_assoc, dropBlanks_append hb, List.append_assoc, dropBlanks_spells h] at hr
    have hdepth : r.depth = outer.length + 1 := by simp [depth, ho]
    have hstops' : r.place.Stops (after ++ rest) := by
      rw [place_eq_nested (by simp [ho]), Place.Stops, dropBlanks_append ha]
      exact hstops
    rw [← hdepth, ← ho]
    refine (leadsTo_spells h hp hr hstops' (by omega)).mono fun next hn => ?_
    refine ⟨hn.phase, hn.opened_eq, ?_, fun he => by simp [ho] at he⟩
    rw [hn.blanks, dropBlanks_append ha]

theorem leadsTo_items : ∀ {is : List Literal} {s : List Char}, WritesItems is s → is ≠ [] →
    ∀ {r : Reading} {rest : List Char} {start : Nat} {items : List Literal}
    {outer : List OpenContainer}, r.phase = .value → r.opened = .list start items :: outer →
    r.cursor.rest = dropBlanks (s ++ ']' :: rest) → outer.length + 1 ≤ limit →
    LeadsTo limit (Literal.depthItems is + (outer.length + 1) ≤ limit) r
      (HasItems is items outer rest)
  | _, _, .none _, hne, _, _, _, _, _, _, _, _, _ => absurd rfl hne
  | _, _, .last h, _, r, rest, start, items, outer, hp, ho, hr, hd => by
    have hi := leadsTo_writes h hp ho hr (stops_cons (by decide) (by decide) rest) hd
    refine (hi.trans fun next hn => hn.list_close).of_iff ?_
    simp only [Literal.depthItems, and_true]
    omega
  | _, _, .more h hs, _, r, rest, start, items, outer, hp, ho, hr, hd => by
    rw [List.append_assoc, List.cons_append] at hr
    have hi := leadsTo_writes h hp ho hr (stops_cons (by decide) (by decide) _) hd
    refine (hi.trans fun next hn => hn.list_comma fun items' r' hp' ho' hr' =>
      leadsTo_items hs (by simp) hp' ho' hr' hd).of_iff ?_
    simp only [Literal.depthItems]
    omega

theorem leadsTo_entries : ∀ {es : List (Literal × Literal)} {s : List Char}, WritesEntries es s →
    es ≠ [] → ∀ {r : Reading} {rest : List Char} {start : Nat}
    {entries : List (Literal × Literal)} {outer : List OpenContainer}, r.phase = .value →
    r.opened = .mapKey start entries :: outer → r.cursor.rest = dropBlanks (s ++ '\x7d' :: rest) →
    outer.length + 1 ≤ limit →
    LeadsTo limit (Literal.depthEntries es + (outer.length + 1) ≤ limit) r
      (HasEntries es entries outer rest)
  | _, _, .none _, hne, _, _, _, _, _, _, _, _, _ => absurd rfl hne
  | _, _, .last hk hv, _, r, rest, start, entries, outer, hp, ho, hr, hd => by
    rw [List.append_assoc, List.cons_append] at hr
    have hki := leadsTo_writes hk hp ho hr (stops_cons (by decide) (by decide) _) hd
    have hstops := stops_cons (c := '\x7d') (by decide) (by decide) rest
    refine (hki.trans fun next hn => hn.map_equals fun key r' hkey hp' ho' hr' =>
      (leadsTo_writes hv hp' ho' hr' hstops hd).trans fun _ hn' => hn'.map_close hkey).of_iff ?_
    simp only [Literal.depthEntries, and_true]
    omega
  | _, _, .more hk hv hs, _, r, rest, start, entries, outer, hp, ho, hr, hd => by
    simp only [List.append_assoc, List.cons_append] at hr
    have hki := leadsTo_writes hk hp ho hr (stops_cons (by decide) (by decide) _) hd
    have hstops (cs : List Char) := stops_cons (c := ',') (by decide) (by decide) cs
    refine (hki.trans fun next hn => hn.map_equals fun key r' hkey hp' ho' hr' =>
      (leadsTo_writes hv hp' ho' hr' (hstops _) hd).trans fun _ hn' =>
        hn'.map_comma hkey fun entries' r'' hp'' ho'' hr'' =>
          leadsTo_entries hs (by simp) hp'' ho'' hr'' hd).of_iff ?_
    simp only [Literal.depthEntries]
    omega

end

end Reading
end CommandConsole
