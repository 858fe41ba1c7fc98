/-
# The derivations of the literal grammar

The reader keeps the open containers on a stack. The grammar itself is a
relation: `Derives limit k c v d` says that the text between the cursors `c`
and `d` is the literal `v`, at a place with `k` containers around it. Both are
the same, so what holds of every literal that is read is proved by induction
on its derivation, one case for each form of the grammar.

Behind a value the stack says what is still to come: `Closing` reads it from
the innermost container outward, and this is the invariant of the run.

Key definitions: `Derives`, `Closing`, `Reading.Puts`.
Key theorems: `Reading.run_derives`, `Derives.puts`, `readValue_iff_derives`, `Derives.reaches`.
-/
import CommandConsole.Proofs.Literal.Layout
import CommandConsole.Proofs.Literal.Reading

namespace CommandConsole

/-! ### Scalars in their place -/

/-- The place of a value with `k` containers around it. -/
def Place.ofLevel (k : Nat) : Place := if k = 0 then .topLevel else .nested

/-- A bareword may begin at the cursor. -/
def Cursor.BeginsWord (k : Nat) (c : Cursor) : Prop :=
  match c.peek with
  | none => k = 0
  | some ch => opensGroup ch = false ∧ (k ≠ 0 → Place.nested.ends ch = false)

/-- The bareword at the cursor. -/
def Cursor.word (k : Nat) (c : Cursor) : ScalarScan :=
  scanBareword (.ofLevel k) 0 c.offset c.rest

/-- The quoted scalar at the cursor, which stands before its opening quote. -/
def Cursor.quoted (c : Cursor) : ScalarScan := scanQuoted c.advance.offset c.advance.rest

def ScalarScan.literal (s : ScalarScan) (start : Nat) : Literal :=
  .scalar (String.ofList s.text) ⟨start, s.stop⟩

/-- The first character behind a structural character at the cursor that is not blank. -/
def Cursor.inside (c : Cursor) : Cursor := c.advance.skipBlanks

theorem Cursor.skipBlanks_eq_self {c : Cursor} (h : dropBlanks c.rest = c.rest) :
    c.skipBlanks = c := by
  obtain ⟨cs, hr, ho⟩ := Reaches.skipBlanks c
  rw [skipBlanks_rest, h] at hr
  obtain rfl := List.append_left_eq_self.mp hr.symm
  rw [byteLength_nil, Nat.add_zero] at ho
  calc c.skipBlanks = ⟨c.skipBlanks.offset, c.skipBlanks.rest⟩ := rfl
    _ = c := by rw [ho, skipBlanks_rest, h]

/-! ### The grammar -/

mutual

/-- Between the two cursors stands the literal, with `k` containers around it. -/
inductive Derives (limit : Nat) : Nat → Cursor → Literal → Cursor → Prop
  | word {k : Nat} {c : Cursor} (h : c.BeginsWord k) :
      Derives limit k c ((c.word k).literal c.offset) (c.word k).after
  | quoted {k : Nat} {c : Cursor} (hq : c.peek = some '"') (hc : c.quoted.closed = true) :
      Derives limit k c (c.quoted.literal c.offset) c.quoted.after
  | emptyList {k : Nat} {c : Cursor} (hk : k < limit) (ho : c.peek = some '[')
      (hc : c.inside.peek = some ']') :
      Derives limit k c (.list [] (c.spanTo c.inside.advance)) c.inside.advance
  | list {k : Nat} {c d e : Cursor} {v : Literal} {vs : List Literal} (hk : k < limit)
      (ho : c.peek = some '[') (hv : Derives limit (k + 1) c.inside v d)
      (hvs : DerivesItems limit (k + 1) d vs e) :
      Derives limit k c (.list (v :: vs) (c.spanTo e)) e
  | emptyMap {k : Nat} {c : Cursor} (hk : k < limit) (ho : c.peek = some '{')
      (hc : c.inside.peek = some '}') :
      Derives limit k c (.map [] (c.spanTo c.inside.advance)) c.inside.advance
  | map {k : Nat} {c d e : Cursor} {entry : Literal × Literal} {entries : List (Literal × Literal)}
      (hk : k < limit) (ho : c.peek = some '{') (hv : DerivesEntry limit (k + 1) c.inside entry d)
      (hvs : DerivesEntries limit (k + 1) d entries e) :
      Derives limit k c (.map (entry :: entries) (c.spanTo e)) e

/-- What stands behind an item of a list, up to its closing bracket. -/
inductive DerivesItems (limit : Nat) : Nat → Cursor → List Literal → Cursor → Prop
  | close {k : Nat} {c : Cursor} (hc : c.skipBlanks.peek = some ']') :
      DerivesItems limit k c [] c.skipBlanks.advance
  | more {k : Nat} {c d e : Cursor} {v : Literal} {vs : List Literal}
      (hc : c.skipBlanks.peek = some ',') (hv : Derives limit k c.skipBlanks.inside v d)
      (hvs : DerivesItems limit k d vs e) : DerivesItems limit k c (v :: vs) e

/-- A key and its value. -/
inductive DerivesEntry (limit : Nat) : Nat → Cursor → Literal × Literal → Cursor → Prop
  | mk {k : Nat} {c d e : Cursor} {key value : Literal} (hkey : Derives limit k c key d)
      (hc : d.skipBlanks.peek = some '=') (hvalue : Derives limit k d.skipBlanks.inside value e) :
      DerivesEntry limit k c (key, value) e

/-- What stands behind an entry of a map, up to its closing brace. -/
inductive DerivesEntries (limit : Nat) :
    Nat → Cursor → List (Literal × Literal) → Cursor → Prop
  | close {k : Nat} {c : Cursor} (hc : c.skipBlanks.peek = some '}') :
      DerivesEntries limit k c [] c.skipBlanks.advance
  | more {k : Nat} {c d e : Cursor} {entry : Literal × Literal}
      {entries : List (Literal × Literal)} (hc : c.skipBlanks.peek = some ',')
      (hv : DerivesEntry limit k c.skipBlanks.inside entry d)
      (hvs : DerivesEntries limit k d entries e) : DerivesEntries limit k c (entry :: entries) e

end

/-! ### What is read is derived -/

/-- The value `v` has just ended at `c`, inside the open containers. Their texts go on from there,
and the outermost one ends at `d` as `w`. -/
def Closing (limit : Nat) : List OpenContainer → Literal → Cursor → Literal → Cursor → Prop
  | [], v, c, w, d => v = w ∧ c = d
  | .list start items :: outer, v, c, w, d => ∃ vs e, DerivesItems limit (outer.length + 1) c vs e ∧
      Closing limit outer (.list (items ++ v :: vs) ⟨start, e.offset⟩) e w d
  | .mapKey start entries :: outer, v, c, w, d => ∃ value b es e, c.skipBlanks.peek = some '=' ∧
      Derives limit (outer.length + 1) c.skipBlanks.inside value b ∧
      DerivesEntries limit (outer.length + 1) b es e ∧
      Closing limit outer (.map (entries ++ (v, value) :: es) ⟨start, e.offset⟩) e w d
  | .mapValue start entries key :: outer, v, c, w, d => ∃ es e,
      DerivesEntries limit (outer.length + 1) c es e ∧
      Closing limit outer (.map (entries ++ (key, v) :: es) ⟨start, e.offset⟩) e w d

namespace Reading

variable {limit : Nat} {r next : Reading} {w : Literal} {d : Cursor}

/-- What is still to come up to the end of the whole value. -/
def Comes (limit : Nat) (r : Reading) (w : Literal) (d : Cursor) : Prop :=
  match r.phase with
  | .value => ∃ v e, Derives limit r.depth r.cursor v e ∧ Closing limit r.opened v e w d
  | .after v => Closing limit r.opened v r.cursor w d

theorem comes_value (hp : r.phase = .value) : r.Comes limit w d ↔
    ∃ v e, Derives limit r.depth r.cursor v e ∧ Closing limit r.opened v e w d := by
  rw [Comes, hp]

theorem comes_after {v : Literal} (hp : r.phase = .after v) :
    r.Comes limit w d ↔ Closing limit r.opened v r.cursor w d := by
  rw [Comes, hp]

theorem place_eq_ofLevel (r : Reading) : r.place = .ofLevel r.depth := by
  simp [place, Place.ofLevel, depth]

theorem acceptBareword_eq (r : Reading) : r.acceptBareword = r.acceptScalar (r.cursor.word r.depth) := by
  rw [acceptBareword, Cursor.word, place_eq_ofLevel]

theorem comes_acceptBareword (hw : r.cursor.BeginsWord r.depth)
    (h : r.acceptBareword.Comes limit w d) :
    ∃ v e, Derives limit r.depth r.cursor v e ∧ Closing limit r.opened v e w d := by
  rw [acceptBareword_eq] at h
  exact ⟨_, _, .word hw, h⟩

theorem comes_list (hp : r.phase = .value) (hc : r.cursor.peek = some '[')
    (hs : r.enter limit (.list r.cursor.offset []) ']' (.list []) = .go next)
    (h : next.Comes limit w d) :
    ∃ v e, Derives limit r.depth r.cursor v e ∧ Closing limit r.opened v e w d := by
  unfold enter at hs
  split at hs
  · cases hs
  · rename_i hk
    have hk : r.depth < limit := Nat.lt_of_not_le hk
    dsimp only at hs
    split at hs
    · rename_i hclose
      cases hs
      exact ⟨_, _, .emptyList hk hc hclose, h⟩
    · cases hs
      simp only [Comes, hp] at h
      obtain ⟨v, e, hv, vs, e', hvs, hclosing⟩ := h
      exact ⟨_, _, .list hk hc hv hvs, hclosing⟩

theorem comes_map (hp : r.phase = .value) (hc : r.cursor.peek = some '\x7b')
    (hs : r.enter limit (.mapKey r.cursor.offset []) '\x7d' (.map []) = .go next)
    (h : next.Comes limit w d) :
    ∃ v e, Derives limit r.depth r.cursor v e ∧ Closing limit r.opened v e w d := by
  unfold enter at hs
  split at hs
  · cases hs
  · rename_i hk
    have hk : r.depth < limit := Nat.lt_of_not_le hk
    dsimp only at hs
    split at hs
    · rename_i hclose
      cases hs
      exact ⟨_, _, .emptyMap hk hc hclose, h⟩
    · cases hs
      simp only [Comes, hp] at h
      obtain ⟨key, b, hkey, value, b', es, e, heq, hvalue, hes, hclosing⟩ := h
      exact ⟨_, _, .map hk hc (.mk hkey heq hvalue) hes, hclosing⟩

theorem comes_beginValue (hp : r.phase = .value) (hs : r.beginValue limit = .go next)
    (h : next.Comes limit w d) :
    ∃ v e, Derives limit r.depth r.cursor v e ∧ Closing limit r.opened v e w d := by
  unfold beginValue at hs
  split at hs
  · rename_i hc
    split at hs
    · rename_i ho
      cases hs
      exact comes_acceptBareword (by simp [Cursor.BeginsWord, hc, depth, ho]) h
    · cases hs
  · rename_i ch hc
    split at hs
    · cases hs
    · rename_i hends
      split at hs
      · rename_i hch
        exact comes_map hp (hch ▸ hc) hs h
      · split at hs
        · rename_i hch
          exact comes_list hp (hch ▸ hc) hs h
        · split at hs
          · rename_i hch
            dsimp only at hs
            split at hs
            · rename_i hclosed
              cases hs
              exact ⟨_, _, .quoted (hch ▸ hc) hclosed, h⟩
            · cases hs
          · rename_i hbrace hbracket hquote
            cases hs
            have hgroup : opensGroup ch = false := by simp [opensGroup, hbrace, hbracket, hquote]
            refine comes_acceptBareword ?_ h
            simp only [Cursor.BeginsWord, hc]
            refine ⟨hgroup, fun hk => ?_⟩
            have hopen : r.opened ≠ [] := fun ho => hk (by simp [depth, ho])
            simpa [hopen] using hends

theorem closing_endValue {v : Literal} (hs : r.endValue v = .go next) (h : next.Comes limit w d) :
    Closing limit r.opened v r.cursor w d := by
  unfold endValue at hs
  dsimp only at hs
  split at hs
  · cases hs
  · rename_i start items outer ho
    rw [ho]
    split at hs
    · rename_i hc
      cases hs
      obtain ⟨u, b, hu, vs, e, hvs, hclosing⟩ := h
      rw [List.append_assoc] at hclosing
      exact ⟨_, _, .more hc hu hvs, hclosing⟩
    · split at hs
      · rename_i hc
        cases hs
        exact ⟨_, _, .close hc, h⟩
      · cases hs
  · rename_i start entries outer ho
    rw [ho]
    split at hs
    · rename_i hc
      cases hs
      obtain ⟨u, b, hu, es, e, hes, hclosing⟩ := h
      exact ⟨u, b, es, e, hc, hu, hes, hclosing⟩
    · cases hs
  · rename_i start entries key outer ho
    rw [ho]
    split at hs
    · rename_i hc
      cases hs
      obtain ⟨k, b, hk, value, b', es, e, heq, hvalue, hes, hclosing⟩ := h
      rw [List.append_assoc] at hclosing
      exact ⟨_, _, .more hc (.mk hk heq hvalue) hes, hclosing⟩
    · split at hs
      · rename_i hc
        cases hs
        exact ⟨_, _, .close hc, h⟩
      · cases hs

/-- **A step takes up what comes.** -/
theorem Comes.of_step (hs : r.step limit = .go next) (h : next.Comes limit w d) :
    r.Comes limit w d := by
  cases hp : r.phase with
  | value =>
    rw [step, hp] at hs
    exact (comes_value hp).mpr (comes_beginValue hp hs h)
  | after v =>
    rw [step, hp] at hs
    exact (comes_after hp).mpr (closing_endValue hs h)

theorem closing_of_done {v : Literal} (hs : r.endValue v = .done w d) :
    Closing limit r.opened v r.cursor w d := by
  unfold endValue at hs
  dsimp only at hs
  split at hs
  · rename_i ho
    cases hs
    rw [ho]
    exact ⟨rfl, rfl⟩
  · exfalso
    split at hs <;> (try split at hs) <;> cases hs
  · exfalso
    split at hs <;> cases hs
  · exfalso
    split at hs <;> (try split at hs) <;> cases hs

theorem Comes.of_done (hs : r.step limit = .done w d) : r.Comes limit w d := by
  cases hp : r.phase with
  | value =>
    rw [step, hp] at hs
    exact absurd hs (beginValue_ne_done r)
  | after v =>
    rw [step, hp] at hs
    exact (comes_after hp).mpr (closing_of_done hs)

theorem run_derives (h : r.run limit = .ok (w, d)) : r.Comes limit w d := by
  fun_induction r.run limit with
  | case1 r next hs ih => exact (ih h).of_step hs
  | case2 r v c hs =>
    cases h
    exact .of_done hs
  | case3 => cases h

/-! ### What is derived is read -/

/-- The run from here puts down the value `v` in the containers `opened`, up to the cursor `d`. -/
def Puts (limit : Nat) (r : Reading) (v : Literal) (opened : List OpenContainer) (d : Cursor) :
    Prop :=
  ∃ next : Reading, r.run limit = next.run limit ∧ next.phase = .after v ∧ next.opened = opened ∧
    next.cursor = d

variable {v : Literal} {opened : List OpenContainer}

theorem Puts.here (hp : next.phase = .after v) : next.Puts limit v next.opened next.cursor :=
  ⟨next, rfl, hp, rfl, rfl⟩

theorem Puts.of_run (h : r.run limit = next.run limit) (hn : next.Puts limit v opened d) :
    r.Puts limit v opened d := by
  unfold Puts
  rwa [h]

theorem Puts.of_go (h : r.step limit = .go next) (hn : next.Puts limit v opened d) :
    r.Puts limit v opened d := hn.of_run (run_go h)

/-- What is put down is followed by what comes behind it. -/
theorem Puts.trans {u : Literal} {opened' : List OpenContainer} {e : Cursor}
    (h : r.Puts limit v opened d) (hn : ∀ next : Reading, next.phase = .after v →
      next.opened = opened → next.cursor = d → next.Puts limit u opened' e) :
    r.Puts limit u opened' e := by
  obtain ⟨next, hr, hp, ho, hc⟩ := h
  exact (hn next hp ho hc).of_run hr

theorem puts_word (hp : r.phase = .value) (hw : r.cursor.BeginsWord r.depth) :
    r.Puts limit ((r.cursor.word r.depth).literal r.cursor.offset) r.opened
      (r.cursor.word r.depth).after := by
  have hs : r.step limit = .go r.acceptBareword := by
    rw [step, hp]
    simp only [beginValue]
    unfold Cursor.BeginsWord at hw
    split
    · rename_i hc
      rw [hc] at hw
      rw [if_pos (List.length_eq_zero_iff.mp hw)]
    · rename_i ch hc
      rw [hc] at hw
      obtain ⟨hgroup, hends⟩ := hw
      simp only [opensGroup, List.contains_cons, List.contains_nil, Bool.or_false,
        Bool.or_eq_false_iff, beq_eq_false_iff_ne] at hgroup
      have hkeeps : ¬(r.opened ≠ [] ∧ Place.nested.ends ch = true) := by
        rintro ⟨ho, he⟩
        rw [hends fun hk => ho (List.length_eq_zero_iff.mp hk)] at he
        cases he
      rw [if_neg hkeeps, if_neg hgroup.1, if_neg hgroup.2.1, if_neg hgroup.2.2]
  rw [acceptBareword_eq] at hs
  exact .of_go hs (.here rfl)

theorem puts_quoted (hp : r.phase = .value) (hq : r.cursor.peek = some '"')
    (hc : r.cursor.quoted.closed = true) :
    r.Puts limit (r.cursor.quoted.literal r.cursor.offset) r.opened r.cursor.quoted.after := by
  obtain ⟨cs, hcs⟩ := List.head?_eq_some_iff.mp hq
  have hquoted : r.cursor.quoted = scanQuoted r.cursor.advance.offset cs := by
    rw [Cursor.quoted, Cursor.advance_rest, hcs]
    rfl
  have hs : r.step limit = .go (r.acceptScalar r.cursor.quoted) := by
    rw [step, hp]
    dsimp only
    rw [beginValue_quote hcs, ← hquoted]
    exact if_pos hc
  exact .of_go hs (.here rfl)

theorem step_bracket (limit : Nat) (hp : r.phase = .value) (ho : r.cursor.peek = some '[') :
    r.step limit = r.enter limit (.list r.cursor.offset []) ']' (.list []) := by
  obtain ⟨cs, hcs⟩ := List.head?_eq_some_iff.mp ho
  rw [step, hp]
  exact beginValue_bracket hcs

theorem step_brace (limit : Nat) (hp : r.phase = .value) (ho : r.cursor.peek = some '\x7b') :
    r.step limit = r.enter limit (.mapKey r.cursor.offset []) '\x7d' (.map []) := by
  obtain ⟨cs, hcs⟩ := List.head?_eq_some_iff.mp ho
  rw [step, hp]
  exact beginValue_brace hcs

theorem dropBlanks_of_peek {c : Cursor} {ch : Char} (h : c.skipBlanks.peek = some ch) :
    ∃ cs, dropBlanks c.rest = ch :: cs := by
  rw [← Cursor.skipBlanks_rest]
  exact List.head?_eq_some_iff.mp h

end Reading

/-- A value in a container does not begin with a separator or a closing character. -/
theorem Derives.peek_ne {limit k : Nat} {c d : Cursor} {v : Literal} {ch : Char}
    (h : Derives limit (k + 1) c v d) (hch : Place.nested.ends ch = true) : c.peek ≠ some ch := by
  have hopener : ∀ b : Char, Place.nested.ends b = false → c.peek = some b → c.peek ≠ some ch := by
    intro b hb hpeek hc
    rw [hpeek] at hc
    cases hc
    rw [hb] at hch
    cases hch
  cases h with
  | word h =>
    intro hc
    rw [Cursor.BeginsWord, hc] at h
    rw [h.2 (by omega)] at hch
    cases hch
  | quoted hq => exact hopener _ (by decide) hq
  | emptyList _ ho => exact hopener _ (by decide) ho
  | list _ ho => exact hopener _ (by decide) ho
  | emptyMap _ ho => exact hopener _ (by decide) ho
  | map _ ho => exact hopener _ (by decide) ho

theorem DerivesEntry.peek_ne {limit k : Nat} {c d : Cursor} {entry : Literal × Literal} {ch : Char}
    (h : DerivesEntry limit (k + 1) c entry d) (hch : Place.nested.ends ch = true) :
    c.peek ≠ some ch := by
  cases h with
  | mk hkey => exact hkey.peek_ne hch

open Reading in
mutual

/-- **A literal that is derived is put down**, whatever is open around it. -/
theorem Derives.puts {limit : Nat} : ∀ {k : Nat} {c d : Cursor} {v : Literal} {r : Reading},
    Derives limit k c v d → r.phase = .value → r.cursor = c → r.depth = k →
      r.Puts limit v r.opened d
  | _, _, _, _, _, .word h, hp, rfl, rfl => puts_word hp h
  | _, _, _, _, _, .quoted hq hc, hp, rfl, _ => puts_quoted hp hq hc
  | _, _, _, _, r, .emptyList hk ho hc, hp, rfl, rfl => by
    have hs := step_bracket limit hp ho
    rw [enter_empty hk hc] at hs
    exact .of_go hs (.here rfl)
  | _, _, _, _, r, .list hk ho hv hvs, hp, rfl, rfl => by
    have hs := step_bracket limit hp ho
    rw [enter_inside hk (hv.peek_ne (by decide))] at hs
    exact .of_go hs (.trans (hv.puts hp rfl rfl) fun next hp' ho' hc' => hvs.puts hp' ho' hc' rfl)
  | _, _, _, _, r, .emptyMap hk ho hc, hp, rfl, rfl => by
    have hs := step_brace limit hp ho
    rw [enter_empty hk hc] at hs
    exact .of_go hs (.here rfl)
  | _, _, _, _, r, .map hk ho hv hvs, hp, rfl, rfl => by
    have hs := step_brace limit hp ho
    rw [enter_inside hk (hv.peek_ne (by decide))] at hs
    exact .of_go hs
      (.trans (hv.puts hp rfl rfl rfl) fun next hp' ho' hc' => hvs.puts hp' ho' hc' rfl)

theorem DerivesItems.puts {limit : Nat} : ∀ {k : Nat} {c e : Cursor} {vs : List Literal}
    {r : Reading} {v : Literal} {start : Nat} {items : List Literal} {outer : List OpenContainer},
    DerivesItems limit k c vs e → r.phase = .after v → r.opened = .list start items :: outer →
      r.cursor = c → outer.length + 1 = k →
      r.Puts limit (.list (items ++ v :: vs) ⟨start, e.offset⟩) outer e
  | _, _, _, _, r, v, start, items, outer, .close hc, hp, ho, rfl, _ => by
    obtain ⟨cs, hcs⟩ := dropBlanks_of_peek hc
    exact .of_go (step_list_close hp ho hcs) (.here rfl)
  | _, _, _, _, r, v, start, items, outer, .more hc hv hvs, hp, ho, rfl, hk => by
    obtain ⟨cs, hcs⟩ := dropBlanks_of_peek hc
    refine .of_go (step_list_comma hp ho hcs) (.trans (hv.puts rfl rfl hk) fun next hp' ho' hc' => ?_)
    have hputs := hvs.puts hp' ho' hc' hk
    rwa [List.append_assoc] at hputs

theorem DerivesEntry.puts {limit : Nat} : ∀ {k : Nat} {c e : Cursor} {entry : Literal × Literal}
    {r : Reading} {start : Nat} {entries : List (Literal × Literal)} {outer : List OpenContainer},
    DerivesEntry limit k c entry e → r.phase = .value → r.opened = .mapKey start entries :: outer →
      r.cursor = c → outer.length + 1 = k →
      r.Puts limit entry.2 (.mapValue start entries entry.1 :: outer) e
  | _, _, _, _, r, start, entries, outer, .mk hkey hc hvalue, hp, ho, hcursor, hk => by
    obtain ⟨cs, hcs⟩ := dropBlanks_of_peek hc
    have hdepth : r.depth = outer.length + 1 := by rw [depth, ho, List.length_cons]
    refine (hkey.puts hp hcursor (hdepth.trans hk)).trans fun next hp' ho' hc' => ?_
    subst hc'
    exact .of_go (step_map_equals hp' (ho'.trans ho) hcs) (hvalue.puts rfl rfl hk)

theorem DerivesEntries.puts {limit : Nat} : ∀ {k : Nat} {c e : Cursor}
    {es : List (Literal × Literal)} {r : Reading} {key v : Literal} {start : Nat}
    {entries : List (Literal × Literal)} {outer : List OpenContainer},
    DerivesEntries limit k c es e → r.phase = .after v →
      r.opened = .mapValue start entries key :: outer → r.cursor = c → outer.length + 1 = k →
      r.Puts limit (.map (entries ++ (key, v) :: es) ⟨start, e.offset⟩) outer e
  | _, _, _, _, r, key, v, start, entries, outer, .close hc, hp, ho, rfl, _ => by
    obtain ⟨cs, hcs⟩ := dropBlanks_of_peek hc
    exact .of_go (step_map_close hp ho hcs) (.here rfl)
  | _, _, _, _, r, key, v, start, entries, outer, .more hc hv hvs, hp, ho, rfl, hk => by
    obtain ⟨cs, hcs⟩ := dropBlanks_of_peek hc
    refine .of_go (step_map_comma hp ho hcs)
      (.trans (hv.puts rfl rfl rfl hk) fun next hp' ho' hc' => ?_)
    have hputs := hvs.puts hp' ho' hc' hk
    rwa [List.append_assoc] at hputs

end

/-- **What is read is exactly what the grammar derives.** -/
theorem readValue_iff_derives {limit : Nat} {c d : Cursor} {v : Literal} :
    readValue limit c = .ok (v, d) ↔ Derives limit 0 c v d := by
  constructor
  · intro h
    obtain ⟨w, e, hw, rfl, rfl⟩ := Reading.run_derives h
    exact hw
  · intro h
    obtain ⟨next, hr, hp, ho, rfl⟩ := h.puts (r := Reading.start c) rfl rfl rfl
    have hdone : next.step limit = .done v next.cursor := by
      simp [Reading.step, hp, Reading.endValue, ho, Reading.start]
    rw [readValue, hr, Reading.run_done hdone]

/-! ### Derivations go forward -/

theorem Cursor.reaches_inside (c : Cursor) : c.Reaches c.inside :=
  (Reaches.advance c).trans (.skipBlanks _)

/-- From the end of a value to what stands behind the next structural character. -/
theorem Cursor.reaches_behind (c : Cursor) : c.Reaches c.skipBlanks.inside :=
  (Reaches.skipBlanks c).trans (reaches_inside _)

theorem Cursor.word_startsAt (k : Nat) (c : Cursor) : (c.word k).StartsAt (.ofLevel k) c :=
  scanBareword_startsAt ..

theorem Cursor.reaches_quoted (c : Cursor) : c.Reaches c.quoted.after :=
  (Reaches.advance c).trans (scanQuoted_reaches ..).1

mutual

theorem Derives.reaches {limit : Nat} : ∀ {k : Nat} {c d : Cursor} {v : Literal},
    Derives limit k c v d → c.Reaches d
  | k, c, _, _, .word _ => (c.word_startsAt k).reaches
  | _, c, _, _, .quoted _ _ => c.reaches_quoted
  | _, c, _, _, .emptyList _ _ _ => c.reaches_inside.trans (.advance _)
  | _, c, _, _, .list _ _ hv hvs => c.reaches_inside.trans (hv.reaches.trans hvs.reaches)
  | _, c, _, _, .emptyMap _ _ _ => c.reaches_inside.trans (.advance _)
  | _, c, _, _, .map _ _ hv hvs => c.reaches_inside.trans (hv.reaches.trans hvs.reaches)

theorem DerivesItems.reaches {limit : Nat} : ∀ {k : Nat} {c e : Cursor} {vs : List Literal},
    DerivesItems limit k c vs e → c.Reaches e
  | _, c, _, _, .close _ => (Cursor.Reaches.skipBlanks c).trans (.advance _)
  | _, c, _, _, .more _ hv hvs => c.reaches_behind.trans (hv.reaches.trans hvs.reaches)

theorem DerivesEntry.reaches {limit : Nat} : ∀ {k : Nat} {c e : Cursor}
    {entry : Literal × Literal}, DerivesEntry limit k c entry e → c.Reaches e
  | _, _, _, _, .mk hkey _ hvalue =>
    hkey.reaches.trans ((Cursor.reaches_behind _).trans hvalue.reaches)

theorem DerivesEntries.reaches {limit : Nat} : ∀ {k : Nat} {c e : Cursor}
    {es : List (Literal × Literal)}, DerivesEntries limit k c es e → c.Reaches e
  | _, c, _, _, .close _ => (Cursor.Reaches.skipBlanks c).trans (.advance _)
  | _, c, _, _, .more _ hv hvs => c.reaches_behind.trans (hv.reaches.trans hvs.reaches)

end

end CommandConsole
