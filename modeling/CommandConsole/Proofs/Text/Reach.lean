/-
# Cursors that go forward

A cursor reaches another one if only characters lie between them. Everything
that reads a text goes forward in this sense, so offsets and the characters
left always belong together.

Key definition: `Cursor.Reaches`.
Key theorems: `Cursor.Reaches.trans`, `Cursor.Reaches.offset_lt`, `textBefore_append`.
-/
import CommandConsole.Text.Part

namespace CommandConsole
namespace Cursor

/-- The characters `cs` lie between the two cursors. -/
def Reaches (c d : Cursor) : Prop :=
  ∃ cs, c.rest = cs ++ d.rest ∧ d.offset = c.offset + byteLength cs

namespace Reaches

variable {c d e : Cursor}

theorem refl (c : Cursor) : c.Reaches c := ⟨[], rfl, rfl⟩

theorem trans (h : c.Reaches d) (h' : d.Reaches e) : c.Reaches e := by
  obtain ⟨cs, hr, ho⟩ := h
  obtain ⟨ds, hr', ho'⟩ := h'
  refine ⟨cs ++ ds, by rw [hr, hr', List.append_assoc], ?_⟩
  rw [ho', ho, byteLength_append]
  omega

theorem offset_le (h : c.Reaches d) : c.offset ≤ d.offset := by
  obtain ⟨cs, -, ho⟩ := h
  omega

/-- A cursor with fewer characters left is further on. -/
theorem offset_lt (h : c.Reaches d) (hl : d.rest.length < c.rest.length) : c.offset < d.offset := by
  obtain ⟨cs, hr, ho⟩ := h
  cases cs with
  | nil =>
    rw [hr, List.nil_append] at hl
    omega
  | cons ch cs =>
    have := ch.utf8Size_pos
    rw [byteLength_cons] at ho
    omega

theorem cons (ch : Char) (cs : List Char) (offset : Nat) :
    Reaches ⟨offset, ch :: cs⟩ ⟨offset + ch.utf8Size, cs⟩ :=
  ⟨[ch], rfl, by simp⟩

theorem advance (c : Cursor) : c.Reaches c.advance := by
  unfold Cursor.advance
  split
  · exact refl c
  · rename_i ch cs hc
    exact ⟨[ch], by simp [hc], by simp⟩

theorem skipFrom (p : Char → Bool) : ∀ (offset : Nat) (cs : List Char),
    Reaches ⟨offset, cs⟩ (Cursor.skipFrom p offset cs)
  | _, [] => refl _
  | offset, ch :: cs => by
    unfold Cursor.skipFrom
    split
    · exact (cons ch cs offset).trans (skipFrom p _ cs)
    · exact refl _

theorem skipWhile (p : Char → Bool) (c : Cursor) : c.Reaches (c.skipWhile p) :=
  skipFrom p c.offset c.rest

theorem skipBlanks (c : Cursor) : c.Reaches c.skipBlanks := skipWhile isBlank c

/-- Going forward does not move the end of the text. -/
theorem end_eq (h : c.Reaches d) :
    d.offset + byteLength d.rest = c.offset + byteLength c.rest := by
  obtain ⟨cs, hr, ho⟩ := h
  rw [hr, ho, byteLength_append]
  omega

theorem rest_length_le (h : c.Reaches d) : d.rest.length ≤ c.rest.length := by
  obtain ⟨cs, hr, -⟩ := h
  simp [hr]

/-- What is left further on is left here. -/
theorem rest_ne_nil (h : c.Reaches d) (hne : d.rest ≠ []) : c.rest ≠ [] := by
  obtain ⟨cs, hr, -⟩ := h
  rw [hr]
  exact List.append_ne_nil_of_right_ne_nil cs hne

/-- Nothing is left at the end of the text. -/
theorem rest_eq_nil (h : c.Reaches d) (hend : c.offset + byteLength c.rest ≤ d.offset) :
    d.rest = [] := by
  have he := h.end_eq
  cases hd : d.rest with
  | nil => rfl
  | cons ch cs =>
    have := ch.utf8Size_pos
    rw [hd, byteLength_cons] at he
    omega

/-- Of two cursors that are reached from one, the one with fewer characters left is further on. -/
theorem offset_lt_of_length (h : c.Reaches d) (h' : c.Reaches e)
    (hl : e.rest.length < d.rest.length) : d.offset < e.offset := by
  have hd := h.end_eq
  have he := h'.end_eq
  obtain ⟨cs, hr, -⟩ := h
  obtain ⟨cs', hr', -⟩ := h'
  have hsuffix : e.rest <:+ d.rest :=
    List.suffix_of_suffix_length_le (hr' ▸ List.suffix_append cs' e.rest)
      (hr ▸ List.suffix_append cs d.rest) (Nat.le_of_lt hl)
  obtain ⟨us, hus⟩ := hsuffix
  cases us with
  | nil =>
    rw [← hus, List.nil_append] at hl
    omega
  | cons u us =>
    have hpos := u.utf8Size_pos
    rw [← hus, List.cons_append, byteLength_cons, byteLength_append] at hd
    omega

end Reaches

theorem textTo_of_rest {c stop : Cursor} {text : String}
    (h : c.rest = text.toList ++ stop.rest) : c.textTo stop = text := by
  have hl : c.rest.length - stop.rest.length = text.toList.length := by
    rw [h, List.length_append]
    omega
  rw [textTo, charsTo, hl, h, List.take_left, String.ofList_toList]

end Cursor

/-- The text from a place of it on. -/
theorem textFrom_of_reaches {text : String} {d : Cursor} (h : (Cursor.start text).Reaches d) :
    textFrom text d.offset = String.ofList d.rest := by
  obtain ⟨cs, hr, ho⟩ := h
  have hoffset : d.offset = byteLength cs := by rw [ho, Cursor.start, Nat.zero_add]
  rw [textFrom, hoffset, Cursor.seek_byteLength hr]

/-- The text before the byte length of a beginning is this beginning. -/
theorem textBefore_append {text : String} {a b : List Char} (h : text.toList = a ++ b) :
    textBefore text (byteLength a) = String.ofList a := by
  rw [textBefore, Cursor.seek_byteLength h]
  exact Cursor.textTo_of_rest (by rw [Cursor.start, h, String.toList_ofList])

theorem textFrom_append {text : String} {a b : List Char} (h : text.toList = a ++ b) :
    textFrom text (byteLength a) = String.ofList b := by
  rw [textFrom, Cursor.seek_byteLength h]

end CommandConsole
