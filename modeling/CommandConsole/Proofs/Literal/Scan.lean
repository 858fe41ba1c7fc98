/-
# Reading the scalars of a spelling back

A quoted scalar is read back whatever stands behind its closing quote. A
bareword is read back if what stands behind it stops it: at top level a blank
or the end of the text, in a container the next character that is not blank.

Key definitions: `Place.Stops`, `Place.left`.
Key theorems: `scanQuoted_escapeQuoted`, `scanBareword_spelled`.
-/
import CommandConsole.Literal.Scalar
import CommandConsole.Proofs.Literal.Spelling

namespace CommandConsole

/-! ### Blanks -/

theorem dropBlanks_append {b : List Char} (hb : AllBlank b) (cs : List Char) :
    dropBlanks (b ++ cs) = dropBlanks cs := by
  induction b with
  | nil => rfl
  | cons c b ih =>
    have hc : isBlank c = true := hb c List.mem_cons_self
    rw [List.cons_append, dropBlanks, if_pos hc]
    exact ih fun d hd => hb d (List.mem_cons_of_mem _ hd)

theorem dropBlanks_cons {c : Char} (hc : isBlank c = false) (cs : List Char) :
    dropBlanks (c :: cs) = c :: cs := by
  simp [dropBlanks, hc]

theorem dropBlanks_of_allBlank {b : List Char} (hb : AllBlank b) : dropBlanks b = [] := by
  simpa [dropBlanks] using dropBlanks_append hb []

theorem allBlank_of_dropBlanks : ∀ {cs : List Char}, dropBlanks cs = [] → AllBlank cs
  | [], _ => fun _ hd => by cases hd
  | c :: cs, h => by
    by_cases hc : isBlank c = true
    · rw [dropBlanks, if_pos hc] at h
      exact List.forall_mem_cons.mpr ⟨hc, allBlank_of_dropBlanks h⟩
    · rw [dropBlanks, if_neg hc] at h
      cases h

theorem dropBlanks_dropBlanks : ∀ cs : List Char, dropBlanks (dropBlanks cs) = dropBlanks cs
  | [] => rfl
  | c :: cs => by
    by_cases hc : isBlank c = true
    · have hd : dropBlanks (c :: cs) = dropBlanks cs := by simp [dropBlanks, hc]
      rw [hd, dropBlanks_dropBlanks cs]
    · rw [dropBlanks_cons (by simpa using hc), dropBlanks_cons (by simpa using hc)]

/-- A spelling is what is left of itself when blanks are dropped. -/
theorem dropBlanks_spells {t : Literal} {s : List Char} (h : Spells t s) (cs : List Char) :
    dropBlanks (s ++ cs) = s ++ cs := by
  obtain ⟨c, ds, rfl, hc, -⟩ := h.head
  exact dropBlanks_cons hc _

/-! ### Scalars -/

/-- Quoting is undone by reading, whatever stands behind the closing quote. -/
theorem scanQuoted_escapeQuoted (rest : List Char) : ∀ (offset : Nat) (cs : List Char),
    ∃ stop, scanQuoted offset (escapeQuoted cs ++ '"' :: rest) = ⟨cs, stop, ⟨stop, rest⟩, true⟩
  | offset, [] => ⟨offset + 1, by simp [escapeQuoted, scanQuoted]⟩
  | offset, c :: cs => by
    by_cases hc : c = '"' ∨ c = '\\'
    · obtain ⟨stop, h⟩ := scanQuoted_escapeQuoted rest (offset + 2) cs
      refine ⟨stop, ?_⟩
      rw [escapeQuoted, if_pos hc, List.cons_append, List.cons_append, scanQuoted, if_pos hc, h]
      rfl
    · obtain ⟨stop, h⟩ := scanQuoted_escapeQuoted rest (offset + c.utf8Size) cs
      refine ⟨stop, ?_⟩
      rw [escapeQuoted, if_neg hc, List.cons_append, scanQuoted, h]
      · rfl
      · intro h; exact hc (.inl h)
      · intro d ds h; exact absurd h (fun h => hc (.inr h))

/-- What stands in front of `rest` in this place ends there, if it is a bareword. -/
def Place.Stops : Place → List Char → Prop
  | .topLevel, rest => ∀ c ∈ rest.head?, isBlank c = true
  | .nested, rest => ∀ c ∈ (dropBlanks rest).head?, Place.nested.ends c = true

/-- What a bareword in front of `rest` leaves: in a container it takes blanks along. -/
def Place.left : Place → List Char → List Char
  | .topLevel, rest => rest
  | .nested, rest => dropBlanks rest

/-- A character that is none of the grammar neither ends a bareword in a container, nor is it
an escape, nor does it open a group. -/
theorem of_not_mem_structuralChars {c : Char} (h : c ∉ structuralChars) :
    Place.nested.ends c = false ∧ c ≠ '\\' ∧ opensGroup c = false := by
  simp only [structuralChars, List.mem_cons, List.not_mem_nil, not_or] at h
  simp [Place.ends, opensGroup, h]

theorem not_mem_structuralChars_of_isBlank {c : Char} (hb : isBlank c = true) :
    c ∉ structuralChars := by
  intro h
  have hn : structuralChars.all (fun d => !isBlank d) = true := by decide
  have := List.all_eq_true.mp hn c h
  simp [hb] at this

/-- In a container a bareword that has nothing but blanks in front of it stays empty. -/
theorem scanBareword_blanks : ∀ (offset : Nat) (rest : List Char), Place.nested.Stops rest →
    ∃ after, scanBareword .nested 0 offset rest = ⟨[], offset, ⟨after, dropBlanks rest⟩, true⟩
  | offset, [], _ => ⟨offset, scanBareword_nil ..⟩
  | offset, c :: cs, h => by
    by_cases hb : isBlank c = true
    · obtain ⟨he, hs, ho⟩ := of_not_mem_structuralChars (not_mem_structuralChars_of_isBlank hb)
      have hd : dropBlanks (c :: cs) = dropBlanks cs := by simp [dropBlanks, hb]
      simp only [Place.Stops, hd] at h
      obtain ⟨after, ih⟩ := scanBareword_blanks (offset + c.utf8Size) cs h
      refine ⟨after, ?_⟩
      rw [scanBareword_blank hb he hs ho, ih, hd]
      rfl
    · have hd : dropBlanks (c :: cs) = c :: cs := dropBlanks_cons (by simpa using hb) cs
      have he : Place.nested.ends c = true := h c (by simp [hd])
      exact ⟨offset, by rw [scanBareword_ends he, hd]⟩

/-- A bareword is read back up to where it stops. -/
theorem scanBareword_spelled {text s : List Char} (h : SpellsWord text s) (place : Place)
    {rest : List Char} (hr : place.Stops rest) : ∀ offset : Nat,
    ∃ stop after, scanBareword place 0 offset (s ++ rest) =
      ⟨text, stop, ⟨after, place.left rest⟩, true⟩ := by
  induction h with
  | nil =>
    intro offset
    cases place with
    | topLevel =>
      refine ⟨offset, offset, ?_⟩
      cases rest with
      | nil => exact scanBareword_nil ..
      | cons c cs =>
        have he : Place.topLevel.ends c = true := hr c (by simp)
        exact scanBareword_ends he offset cs
    | nested =>
      obtain ⟨after, h⟩ := scanBareword_blanks offset rest hr
      exact ⟨offset, after, h⟩
  | @plain c text s hc _ ih =>
    intro offset
    obtain ⟨stop, after, h⟩ := ih (offset + c.utf8Size)
    obtain ⟨hn, hs, ho⟩ := of_not_mem_structuralChars hc.2
    have he : place.ends c = false := by
      cases place with
      | topLevel => exact hc.1
      | nested => exact hn
    refine ⟨stop, after, ?_⟩
    rw [List.cons_append, scanBareword_char he hs ho hc.1, h]
    rfl
  | @escaped c text s _ ih =>
    intro offset
    obtain ⟨stop, after, h⟩ := ih (offset + 1 + c.utf8Size)
    refine ⟨stop, after, ?_⟩
    rw [List.cons_append, List.cons_append, scanBareword_escape, h]
    rfl

end CommandConsole
