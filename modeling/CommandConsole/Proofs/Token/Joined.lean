/-
# Texts that are joined to a line

A line may be joined from texts, with a space between any two. If each of them
is read as one token in front of what stands behind it, the line is read as
these tokens, one after the other.

Key definitions: `joined`, `joinedBehind`, `AllInFront`, `AllRead`.
Key theorems: `Token.readHere_cases`, `Token.readHere_named_iff`, `Token.readHere_value_iff`,
`Tokens.ofText_joined`, `Tokens.ofCursor_joined_iff`.
-/
import CommandConsole.Proofs.Binding.Taking
import CommandConsole.Proofs.Literal.Scan

namespace CommandConsole

/-! ### Lines -/

/-- The texts with a space between any two. -/
def joined (texts : List String) : String := String.intercalate " " texts

/-- What stands in the line in front of the texts: nothing, or the space that parts them from
what they follow. -/
def joinedBehind (texts : List String) : List Char :=
  if texts = [] then [] else ' ' :: (joined texts).toList

/-- The text begins with a character that is no blank. -/
def BeginsFull (cs : List Char) : Prop := ∃ c ds, cs = c :: ds ∧ isBlank c = false

theorem BeginsFull.dropBlanks_append {cs : List Char} (h : BeginsFull cs) (ds : List Char) :
    dropBlanks (cs ++ ds) = cs ++ ds := by
  obtain ⟨c, es, rfl, hb⟩ := h
  exact dropBlanks_cons hb _

theorem BeginsFull.append_ne_nil {cs : List Char} (h : BeginsFull cs) (ds : List Char) :
    cs ++ ds ≠ [] := by
  obtain ⟨c, es, rfl, -⟩ := h
  exact List.cons_ne_nil c _

@[simp] theorem toList_joined_nil : (joined []).toList = [] := by simp [joined]

theorem toList_joined_cons (text : String) (texts : List String) :
    (joined (text :: texts)).toList = text.toList ++ joinedBehind texts := by
  cases texts <;> simp [joined, joinedBehind]

theorem stops_joinedBehind (texts : List String) : Place.topLevel.Stops (joinedBehind texts) := by
  intro c hc
  unfold joinedBehind at hc
  split at hc
  · cases hc
  · obtain rfl := Option.some.inj hc
    decide

section Texts

variable {texts : List String} (h : ∀ text ∈ texts, BeginsFull text.toList)

include h

theorem dropBlanks_joined : dropBlanks (joined texts).toList = (joined texts).toList := by
  cases texts with
  | nil => simp [dropBlanks]
  | cons text texts =>
    rw [toList_joined_cons]
    exact (h text List.mem_cons_self).dropBlanks_append _

theorem dropBlanks_joinedBehind : dropBlanks (joinedBehind texts) = (joined texts).toList := by
  by_cases htexts : texts = []
  · subst htexts
    simp [joinedBehind, dropBlanks]
  · rw [joinedBehind, if_neg htexts, dropBlanks, if_pos (by decide), dropBlanks_joined h]

end Texts

/-! ### Tokens -/

namespace Token

variable {rules : TokenRules} {c stop : Cursor} {t : Token}

/-- A token is read at a cursor behind the blanks, if there is something there. -/
theorem read?_eq_some_iff : read? rules c = .ok (some (t, stop)) ↔
    dropBlanks c.rest ≠ [] ∧ readHere rules c.skipBlanks = .ok (t, stop) := by
  unfold read?
  by_cases hend : dropBlanks c.rest = []
  · simp [Cursor.atEnd, hend]
  · cases readHere rules c.skipBlanks <;> simp [Cursor.atEnd, hend, Except.map]

theorem read?_eq_none_iff : read? rules c = .ok none ↔ dropBlanks c.rest = [] := by
  unfold read?
  by_cases hend : dropBlanks c.rest = []
  · simp [Cursor.atEnd, hend]
  · cases readHere rules c.skipBlanks <;> simp [Cursor.atEnd, hend, Except.map]

theorem read?_eq_error_iff {f : LiteralFailure} : read? rules c = .error f ↔
    dropBlanks c.rest ≠ [] ∧ readHere rules c.skipBlanks = .error f := by
  unfold read?
  by_cases hend : dropBlanks c.rest = []
  · simp [Cursor.atEnd, hend]
  · cases readHere rules c.skipBlanks <;> simp [Cursor.atEnd, hend, Except.map]

/-- The first of some tokens is read where they begin. -/
theorem read?_of_more {ts : Tokens} (h : Tokens.ofCursor rules c = .more t ts) :
    ∃ stop, read? rules c = .ok (some (t, stop)) ∧ Tokens.ofCursor rules stop = ts := by
  cases hread : read? rules c with
  | error f =>
    rw [Tokens.ofCursor_error hread] at h
    cases h
  | ok r =>
    cases r with
    | none =>
      rw [Tokens.ofCursor_none hread] at h
      cases h
    | some r =>
      obtain ⟨u, stop⟩ := r
      rw [Tokens.ofCursor_some hread] at h
      obtain ⟨rfl, hts⟩ := Tokens.more.inj h
      exact ⟨stop, rfl, hts⟩

/-- A name and what is assigned to it make up one token. -/
theorem readHere_of_nameAt? {name : String} {assigned : Option Literal} {behind : Cursor}
    (hname : nameAt? rules c = some (name, behind))
    (h : readAssigned rules behind = .ok (assigned, stop)) :
    readHere rules c = .ok (between (.named name assigned) c stop, stop) := by
  rw [readHere, hname]
  dsimp only
  rw [h]
  rfl

/-- What is no name is a value. -/
theorem readHere_of_readValue {v : Literal} (hname : nameAt? rules c = none)
    (h : readValue rules.maxDepth c = .ok (v, stop)) :
    readHere rules c = .ok (ofValue rules v c stop, stop) := by
  rw [readHere, hname]
  dsimp only
  rw [h]
  rfl

theorem readHere_of_readValue_error {f : LiteralFailure} (hname : nameAt? rules c = none)
    (h : readValue rules.maxDepth c = .error f) : readHere rules c = .error f := by
  rw [readHere, hname]
  dsimp only
  rw [h]
  rfl

/-- A token is a name with what is assigned to it, or a value. -/
theorem readHere_cases (h : readHere rules c = .ok (t, stop)) :
    (∃ name behind assigned, nameAt? rules c = some (name, behind) ∧
      readAssigned rules behind = .ok (assigned, stop) ∧
        t = between (.named name assigned) c stop) ∨
    ∃ v, nameAt? rules c = none ∧ readValue rules.maxDepth c = .ok (v, stop) ∧
      t = ofValue rules v c stop := by
  unfold readHere at h
  split at h
  · rename_i name behind hname
    obtain ⟨⟨assigned, d⟩, hr, he⟩ := exists_of_map_eq_ok h
    cases he
    exact .inl ⟨name, behind, assigned, hname, hr, rfl⟩
  · rename_i hname
    obtain ⟨⟨v, d⟩, hr, he⟩ := exists_of_map_eq_ok h
    cases he
    exact .inr ⟨v, hname, hr, rfl⟩

/-- No token is read if what is assigned to a name, or the value, cannot be read. -/
theorem readHere_error_cases {f : LiteralFailure} (h : readHere rules c = .error f) :
    (∃ name behind, nameAt? rules c = some (name, behind) ∧
      readAssigned rules behind = .error f) ∨
    nameAt? rules c = none ∧ readValue rules.maxDepth c = .error f := by
  unfold readHere at h
  split at h
  · rename_i name behind hname
    exact .inl ⟨name, behind, hname, error_of_map_eq_error h⟩
  · rename_i hname
    exact .inr ⟨hname, error_of_map_eq_error h⟩

/-- **A token is named exactly if a name begins there.** -/
theorem readHere_named_iff {name : String} {assigned : Option Literal} :
    (∃ t, readHere rules c = .ok (t, stop) ∧ t.kind = .named name assigned) ↔
      ∃ behind, nameAt? rules c = some (name, behind) ∧
        readAssigned rules behind = .ok (assigned, stop) := by
  constructor
  · rintro ⟨t, h, hk⟩
    rcases readHere_cases h with ⟨name, behind, assigned, hname, hr, rfl⟩ | ⟨v, -, -, rfl⟩
    · obtain ⟨rfl, rfl⟩ := TokenKind.named.inj hk
      exact ⟨behind, hname, hr⟩
    · simp only [ofValue, between] at hk
      split at hk <;> cases hk
  · rintro ⟨behind, hname, hr⟩
    exact ⟨_, readHere_of_nameAt? hname hr, rfl⟩

/-- **A token is a value exactly if no name begins there**, and what is read there is not written
like the separator. -/
theorem readHere_value_iff {v : Literal} :
    (∃ t, readHere rules c = .ok (t, stop) ∧ t.kind = .value v) ↔
      nameAt? rules c = none ∧ c.textTo stop ≠ rules.separator ∧
        readValue rules.maxDepth c = .ok (v, stop) := by
  constructor
  · rintro ⟨t, h, hk⟩
    rcases readHere_cases h with ⟨name, behind, assigned, -, -, rfl⟩ | ⟨w, hname, hr, rfl⟩
    · cases hk
    · simp only [ofValue, between] at hk
      split at hk
      · cases hk
      · rename_i hsep
        obtain rfl := TokenKind.value.inj hk
        exact ⟨hname, hsep, hr⟩
  · rintro ⟨hname, hsep, hr⟩
    exact ⟨_, readHere_of_readValue hname hr, by rw [ofValue, if_neg hsep]; rfl⟩

end Token

section Reading

variable {α : Type} (rules : TokenRules) (text : α → String) (Says : α → Token → Prop)

/-- In front of `rest` the text of `x` is read as one token, which says what `x` does. -/
def ReadInFront (rest : List Char) (x : α) : Prop :=
  ∀ c : Cursor, c.rest = (text x).toList ++ rest →
    ∃ t stop, Token.readHere rules c = .ok (t, stop) ∧ stop.rest = rest ∧ Says x t

/-- Every text fits in front of those that follow it. -/
def AllInFront (Fits : List Char → α → Prop) : List α → Prop
  | [] => True
  | x :: xs => Fits (joinedBehind (xs.map text)) x ∧ AllInFront Fits xs

/-- Every text is read in front of those that follow it. -/
abbrev AllRead : List α → Prop := AllInFront text (ReadInFront rules text Says)

variable {rules text Says} {xs : List α}

instance decidableAllInFront {Fits : List Char → α → Prop} [∀ rest x, Decidable (Fits rest x)] :
    ∀ xs, Decidable (AllInFront text Fits xs)
  | [] => isTrue trivial
  | _ :: xs =>
    have : Decidable (AllInFront text Fits xs) := decidableAllInFront xs
    inferInstanceAs (Decidable (_ ∧ _))

theorem AllInFront.mono {Fits Goes : List Char → α → Prop} : ∀ {xs : List α},
    (∀ x ∈ xs, ∀ rest, Place.topLevel.Stops rest → Fits rest x → Goes rest x) →
      AllInFront text Fits xs → AllInFront text Goes xs
  | [], _, _ => trivial
  | x :: xs, h, hall => by
    obtain ⟨hx, hxs⟩ := List.forall_mem_cons.mp h
    exact ⟨hx _ (stops_joinedBehind _) hall.1, hall.2.mono hxs⟩

theorem AllInFront.of_forall {Fits : List Char → α → Prop} {xs : List α}
    (h : ∀ x ∈ xs, ∀ rest, Place.topLevel.Stops rest → Fits rest x) : AllInFront text Fits xs := by
  induction xs with
  | nil => trivial
  | cons x xs ih =>
    obtain ⟨hx, hxs⟩ := List.forall_mem_cons.mp h
    exact ⟨hx _ (stops_joinedBehind _), ih hxs⟩

/-- The tokens from a place in front of a line of texts. -/
theorem Tokens.ofCursor_of_readHere {x : α} {c stop : Cursor} {t : Token}
    (hfull : BeginsFull (text x).toList)
    (hc : dropBlanks c.rest = (joined ((x :: xs).map text)).toList)
    (h : Token.readHere rules c.skipBlanks = .ok (t, stop)) :
    ofCursor rules c = .more t (ofCursor rules stop) := by
  rw [List.map_cons, toList_joined_cons] at hc
  exact ofCursor_some
    (Token.read?_eq_some_iff.mpr ⟨by rw [hc]; exact hfull.append_ne_nil _, h⟩)

/-- From a place in front of a line of texts, the tokens are those that the texts say. -/
theorem Tokens.ofCursor_joined : ∀ {xs : List α} {c : Cursor},
    (∀ x ∈ xs, BeginsFull (text x).toList) → AllRead rules text Says xs →
      dropBlanks c.rest = (joined (xs.map text)).toList →
        ∃ ts stop, ofCursor rules c = .prepend ts (.finished stop) ∧ List.Forall₂ Says xs ts
  | [], c, _, _, hc => by
    have hread : Token.read? rules c = .ok none :=
      Token.read?_eq_none_iff.mpr (by rw [hc, List.map_nil, toList_joined_nil])
    exact ⟨[], _, ofCursor_none hread, .nil⟩
  | x :: xs, c, hfull, ⟨hreads, hall⟩, hc => by
    obtain ⟨hx, hxs⟩ := List.forall_mem_cons.mp hfull
    obtain ⟨t, stop, hhere, hrest, hsays⟩ :=
      hreads c.skipBlanks (by rw [Cursor.skipBlanks_rest, hc, List.map_cons, toList_joined_cons])
    have hbehind : dropBlanks stop.rest = (joined (xs.map text)).toList := by
      rw [hrest, dropBlanks_joinedBehind (List.forall_mem_map.mpr hxs)]
    obtain ⟨ts, last, hts, hrest'⟩ := ofCursor_joined hxs hall hbehind
    exact ⟨t :: ts, last, by rw [ofCursor_of_readHere hx hc hhere, hts, prepend_cons],
      .cons hsays hrest'⟩

/-- Only texts that fit are read as tokens that say what they do, if a text that is read so
fits. -/
theorem Tokens.allInFront_of_ofCursor {Fits : List Char → α → Prop} {last : Nat} :
    ∀ {xs : List α} {c : Cursor} {ts : List Token}, (∀ x ∈ xs, BeginsFull (text x).toList) →
      (∀ x ∈ xs, ∀ rest, Place.topLevel.Stops rest → ∀ c : Cursor,
        c.rest = (text x).toList ++ rest → ∀ t stop, Token.readHere rules c = .ok (t, stop) →
          Says x t → Fits rest x ∧ stop.rest = rest) →
        dropBlanks c.rest = (joined (xs.map text)).toList →
          ofCursor rules c = .prepend ts (.finished last) → List.Forall₂ Says xs ts →
            AllInFront text Fits xs
  | [], _, _, _, _, _, _, _ => trivial
  | x :: xs, c, _, hfull, hfits, hc, hts, .cons hsays hrest => by
    obtain ⟨hx, hxs⟩ := List.forall_mem_cons.mp hfull
    obtain ⟨hxfits, hxsfit⟩ := List.forall_mem_cons.mp hfits
    rw [prepend_cons] at hts
    obtain ⟨stop, hread, htail⟩ := Token.read?_of_more hts
    have hline : c.skipBlanks.rest = (text x).toList ++ joinedBehind (xs.map text) := by
      rw [Cursor.skipBlanks_rest, hc, List.map_cons, toList_joined_cons]
    obtain ⟨hfit, hstop⟩ := hxfits _ (stops_joinedBehind _) c.skipBlanks hline _ stop
      (Token.read?_eq_some_iff.mp hread).2 hsays
    have hbehind : dropBlanks stop.rest = (joined (xs.map text)).toList := by
      rw [hstop, dropBlanks_joinedBehind (List.forall_mem_map.mpr hxs)]
    exact ⟨hfit, allInFront_of_ofCursor hxs hxsfit hbehind htail hrest⟩

/-- **From a place in front of a line of texts, the texts are the tokens exactly if each of them
fits** in front of those that follow it, if fitting is what it takes to be read. -/
theorem Tokens.ofCursor_joined_iff {Fits : List Char → α → Prop} {c : Cursor}
    (hfull : ∀ x ∈ xs, BeginsFull (text x).toList)
    (hreads : ∀ x ∈ xs, ∀ rest, Place.topLevel.Stops rest → Fits rest x →
      ReadInFront rules text Says rest x)
    (hfits : ∀ x ∈ xs, ∀ rest, Place.topLevel.Stops rest → ∀ c : Cursor,
      c.rest = (text x).toList ++ rest → ∀ t stop, Token.readHere rules c = .ok (t, stop) →
        Says x t → Fits rest x ∧ stop.rest = rest)
    (hc : dropBlanks c.rest = (joined (xs.map text)).toList) :
    (∃ ts stop, ofCursor rules c = .prepend ts (.finished stop) ∧ List.Forall₂ Says xs ts) ↔
      AllInFront text Fits xs := by
  constructor
  · rintro ⟨ts, stop, hts, hsays⟩
    exact allInFront_of_ofCursor hfull hfits hc hts hsays
  · exact fun hall => ofCursor_joined hfull (hall.mono hreads) hc

/-- **A line of texts is read as the tokens that the texts are read as.** -/
theorem Tokens.ofText_joined (hfull : ∀ x ∈ xs, BeginsFull (text x).toList)
    (hall : AllRead rules text Says xs) :
    ∃ ts stop, ofText rules (joined (xs.map text)) = .prepend ts (.finished stop) ∧
      List.Forall₂ Says xs ts :=
  ofCursor_joined hfull hall (dropBlanks_joined (List.forall_mem_map.mpr hfull))

end Reading

end CommandConsole
