/-
# Spans that lie in a text

An offset is a boundary of a text if a cursor that goes through the text comes
by it. A span between two boundaries covers some characters of the text, and
an excerpt with such a span shows exactly them.

Key definitions: `Span.LiesIn`, `Aligned`.
Key theorems: `isBoundary_iff`, `Cursor.isGreatest_seek`, `Span.LiesIn.cover`,
`characterSpan_liesIn`, `Excerpt.snippet_of_liesIn`.
-/
import CommandConsole.Proofs.Text.Reach
import CommandConsole.Text.Excerpt
import Mathlib.Data.List.Forall2
import Mathlib.Order.Bounds.Defs

namespace CommandConsole

theorem Cursor.Reaches.seekFrom (target : Nat) : ∀ (offset : Nat) (cs : List Char),
    Reaches ⟨offset, cs⟩ (Cursor.seekFrom target offset cs)
  | _, [] => refl _
  | offset, ch :: cs => by
    unfold Cursor.seekFrom
    split
    · exact (cons ch cs offset).trans (seekFrom target _ cs)
    · exact refl _

theorem Cursor.Reaches.seek (text : String) (target : Nat) :
    (Cursor.start text).Reaches (Cursor.seek text target) :=
  seekFrom target 0 text.toList

theorem Cursor.Reaches.offset_eq {text : String} {d : Cursor}
    (h : (Cursor.start text).Reaches d) :
    ∃ before, text.toList = before ++ d.rest ∧ d.offset = byteLength before := by
  obtain ⟨before, htext, hoffset⟩ := h
  exact ⟨before, htext, by rw [hoffset, Cursor.start, Nat.zero_add]⟩

/-- Of two cursors of one text, the one with the smaller offset reaches the other. -/
theorem Cursor.Reaches.of_offset_le {b c d : Cursor} (hc : b.Reaches c) (hd : b.Reaches d)
    (hle : c.offset ≤ d.offset) : c.Reaches d := by
  obtain ⟨cs, hcs, hc⟩ := hc
  obtain ⟨ds, hds, hd⟩ := hd
  rcases List.append_eq_append_iff.mp (hcs.symm.trans hds) with
    ⟨more, rfl, hrest⟩ | ⟨more, rfl, hrest⟩
  · exact ⟨more, hrest, by rw [hd, hc, byteLength_append, Nat.add_assoc]⟩
  · rw [byteLength_append] at hc
    cases more with
    | nil => exact ⟨[], hrest.symm, by simp_all⟩
    | cons ch more =>
      have := ch.utf8Size_pos
      rw [byteLength_cons] at hc
      omega

/-- Seeking the offset of a cursor of the text gives this cursor. -/
theorem Cursor.seek_of_reaches {text : String} {d : Cursor} (h : (Cursor.start text).Reaches d) :
    Cursor.seek text d.offset = d := by
  obtain ⟨before, htext, hoffset⟩ := h.offset_eq
  rw [hoffset, Cursor.seek_byteLength htext, ← hoffset]

/-- **The boundaries of a text are the offsets of its cursors.** -/
theorem isBoundary_iff {text : String} {n : Nat} :
    isBoundary text n = true ↔ ∃ d, (Cursor.start text).Reaches d ∧ d.offset = n := by
  rw [isBoundary, beq_iff_eq]
  constructor
  · intro h
    exact ⟨_, .seek text n, h⟩
  · rintro ⟨d, hd, rfl⟩
    rw [Cursor.seek_of_reaches hd]

namespace Cursor

theorem seekFrom_offset_le {target : Nat} : ∀ {offset : Nat} (cs : List Char),
    offset ≤ target → (seekFrom target offset cs).offset ≤ target
  | _, [], h => h
  | offset, c :: cs, h => by
    unfold seekFrom
    split
    · exact seekFrom_offset_le cs ‹_›
    · exact h

theorem le_seekFrom {target : Nat} : ∀ (offset : Nat) (before after : List Char),
    offset + byteLength before ≤ target →
      offset + byteLength before ≤ (seekFrom target offset (before ++ after)).offset
  | offset, [], after, _ => (Reaches.seekFrom target offset after).offset_le
  | offset, c :: before, after, h => by
    rw [byteLength_cons, ← Nat.add_assoc] at h ⊢
    have hfits : offset + c.utf8Size ≤ target := Nat.le_trans (Nat.le_add_right _ _) h
    rw [List.cons_append, seekFrom, if_pos hfits]
    exact le_seekFrom (offset + c.utf8Size) before after h

/-- **Seeking stops at the last boundary that does not lie behind the target.** -/
theorem isGreatest_seek (text : String) (target : Nat) :
    IsGreatest {n | isBoundary text n = true ∧ n ≤ target} (seek text target).offset := by
  constructor
  · exact ⟨isBoundary_iff.mpr ⟨_, .seek text target, rfl⟩,
      seekFrom_offset_le text.toList (Nat.zero_le target)⟩
  · rintro n ⟨hn, hle⟩
    obtain ⟨d, hd, rfl⟩ := isBoundary_iff.mp hn
    obtain ⟨before, htext, hoffset⟩ := hd.offset_eq
    have hfits : 0 + byteLength before ≤ target := by rwa [Nat.zero_add, ← hoffset]
    have hseek := le_seekFrom 0 before d.rest hfits
    rwa [← htext, Nat.zero_add, ← hoffset] at hseek

end Cursor

theorem sliceBytes?_of_reaches {text : String} {c d : Cursor} (hc : (Cursor.start text).Reaches c)
    (hd : (Cursor.start text).Reaches d) :
    sliceBytes? text c.offset d.offset = some (c.textTo d) := by
  have hboth : isBoundary text c.offset ∧ isBoundary text d.offset :=
    ⟨isBoundary_iff.mpr ⟨c, hc, rfl⟩, isBoundary_iff.mpr ⟨d, hd, rfl⟩⟩
  rw [sliceBytes?, if_pos hboth, Cursor.seek_of_reaches hc, Cursor.seek_of_reaches hd]

theorem isBoundary_of_sliceBytes? {text slice : String} {m n : Nat}
    (h : sliceBytes? text m n = some slice) : isBoundary text m = true ∧ isBoundary text n = true := by
  unfold sliceBytes? at h
  split at h
  · assumption
  · cases h

namespace Span

/-- The span begins and ends between two characters of the text, in this order. -/
structure LiesIn (text : String) (s : Span) : Prop where
  ordered : s.start ≤ s.stop
  inside : s.stop ≤ textLength text
  start_isBoundary : isBoundary text s.start = true
  stop_isBoundary : isBoundary text s.stop = true

variable {text : String} {s t : Span} {n : Nat}

theorem le_textLength (h : isBoundary text n = true) : n ≤ textLength text := by
  obtain ⟨d, hd, rfl⟩ := isBoundary_iff.mp h
  obtain ⟨before, htext, hoffset⟩ := hd.offset_eq
  rw [textLength, htext, byteLength_append, hoffset]
  exact Nat.le_add_right _ _

namespace LiesIn

theorem of_boundaries {m : Nat} (hmn : m ≤ n) (hm : isBoundary text m = true)
    (hn : isBoundary text n = true) : LiesIn text ⟨m, n⟩ :=
  ⟨hmn, le_textLength hn, hm, hn⟩

theorem point (h : isBoundary text n = true) : (Span.point n).LiesIn text :=
  of_boundaries (Nat.le_refl n) h h

theorem spanTo {c d : Cursor} (hc : (Cursor.start text).Reaches c) (hd : c.Reaches d) :
    (c.spanTo d).LiesIn text :=
  of_boundaries hd.offset_le (isBoundary_iff.mpr ⟨c, hc, rfl⟩)
    (isBoundary_iff.mpr ⟨d, hc.trans hd, rfl⟩)

theorem cover (hs : s.LiesIn text) (ht : t.LiesIn text) : (s.cover t).LiesIn text := by
  have hle : min s.start t.start ≤ max s.stop t.stop :=
    Nat.le_trans (Nat.min_le_left _ _) (Nat.le_trans hs.ordered (Nat.le_max_left _ _))
  refine of_boundaries hle ?_ ?_
  · rcases Nat.le_total s.start t.start with h | h
    · rw [Nat.min_eq_left h]
      exact hs.start_isBoundary
    · rw [Nat.min_eq_right h]
      exact ht.start_isBoundary
  · rcases Nat.le_total s.stop t.stop with h | h
    · rw [Nat.max_eq_right h]
      exact ht.stop_isBoundary
    · rw [Nat.max_eq_left h]
      exact hs.stop_isBoundary

theorem foldl_cover : ∀ {spans : List Span} {s : Span}, s.LiesIn text →
    (∀ t ∈ spans, t.LiesIn text) → (spans.foldl Span.cover s).LiesIn text
  | [], _, hs, _ => hs
  | t :: ts, _, hs, h => by
    have ht := h t List.mem_cons_self
    rw [List.foldl_cons]
    exact foldl_cover (hs.cover ht) fun u hu => h u (List.mem_cons_of_mem t hu)

end LiesIn
end Span

theorem isBoundary_zero (text : String) : isBoundary text 0 = true :=
  isBoundary_iff.mpr ⟨_, .refl _, rfl⟩

/-- The span that covers some spans of a text lies in it, also if there are none. -/
theorem Span.LiesIn.coverAll {text : String} : ∀ {spans : List Span},
    (∀ s ∈ spans, s.LiesIn text) → (Span.coverAll spans).LiesIn text
  | [], _ => .point (isBoundary_zero text)
  | _ :: _, h =>
    .foldl_cover (h _ List.mem_cons_self) fun u hu => h u (List.mem_cons_of_mem _ hu)

/-- The character at a boundary lies in the text, and so does the place behind the last one. -/
theorem characterSpan_liesIn {text : String} {n : Nat} (h : isBoundary text n = true) :
    (characterSpan text n).LiesIn text := by
  obtain ⟨d, hd, rfl⟩ := isBoundary_iff.mp h
  unfold characterSpan
  rw [Cursor.seek_of_reaches hd]
  dsimp only
  split
  · rename_i ch _ hpeek
    obtain ⟨cs, hrest⟩ := List.head?_eq_some_iff.mp hpeek
    have hnext : d.Reaches ⟨d.offset + ch.utf8Size, cs⟩ := ⟨[ch], hrest, by simp⟩
    exact .spanTo hd hnext
  · rw [Nat.min_eq_left (Span.le_textLength h)]
    exact .point h

/-- **An excerpt whose span lies in its text shows the characters that the span covers.** -/
theorem Excerpt.snippet_of_liesIn {e : Excerpt} (h : e.span.LiesIn e.text) :
    ∃ before source after, e.text.toList = before ++ (source ++ after) ∧
      e.span = ⟨byteLength before, byteLength (before ++ source)⟩ ∧
      e.snippet = String.ofList source := by
  obtain ⟨c, hc, hstart⟩ := isBoundary_iff.mp h.start_isBoundary
  obtain ⟨d, hd, hstop⟩ := isBoundary_iff.mp h.stop_isBoundary
  have hle := h.ordered
  rw [← hstart, ← hstop] at hle
  obtain ⟨source, hrest, hoffset'⟩ := hc.of_offset_le hd hle
  obtain ⟨before, htext, hoffset⟩ := hc.offset_eq
  have hspan : e.span = ⟨c.offset, d.offset⟩ := by rw [hstart, hstop]
  refine ⟨before, source, d.rest, by rw [htext, hrest], ?_, ?_⟩
  · rw [hspan, hoffset', byteLength_append, hoffset]
  · have hslice := sliceBytes?_of_reaches hc hd
    have hstop : min e.span.stop (textLength e.text) = d.offset := by
      rw [Nat.min_eq_left h.inside, hspan]
    have hstart : min e.span.start d.offset = c.offset := by
      rw [hspan, Nat.min_eq_left hle]
    rw [Excerpt.snippet, hstop, hstart, hslice, Option.getD_some]
    exact Cursor.textTo_of_rest (by rw [String.toList_ofList, hrest])

/-! ### Texts with characters at the same places -/

/-- The characters of the two texts stand at the same offsets. -/
def Aligned (text text' : String) : Prop := ∀ n, characterSpan text' n = characterSpan text n

/-- The characters take up as many bytes. -/
def SameSizes : List Char → List Char → Prop := List.Forall₂ fun c d => d.utf8Size = c.utf8Size

theorem byteLength_sameSizes {cs ds : List Char} (h : SameSizes cs ds) :
    byteLength ds = byteLength cs := by
  induction h with
  | nil => rfl
  | cons h _ ih => rw [byteLength_cons, byteLength_cons, h, ih]

theorem Cursor.seekFrom_sameSizes (target : Nat) {cs ds : List Char} (h : SameSizes cs ds)
    (offset : Nat) : (seekFrom target offset ds).offset = (seekFrom target offset cs).offset ∧
      SameSizes (seekFrom target offset cs).rest (seekFrom target offset ds).rest := by
  induction h generalizing offset with
  | nil => exact ⟨rfl, .nil⟩
  | @cons c d cs ds h hs ih =>
    rw [seekFrom, seekFrom, h]
    split
    · exact ih (offset + c.utf8Size)
    · exact ⟨rfl, .cons h hs⟩

theorem Aligned.of_sameSizes {text text' : String} (h : SameSizes text.toList text'.toList) :
    Aligned text text' := by
  intro n
  obtain ⟨hoffset, hrest⟩ := Cursor.seekFrom_sameSizes n h 0
  have hlength : textLength text' = textLength text := byteLength_sameSizes h
  unfold characterSpan
  dsimp only
  rw [hlength, show (Cursor.seek text' n).offset = (Cursor.seek text n).offset from hoffset]
  change SameSizes (Cursor.seek text n).rest (Cursor.seek text' n).rest at hrest
  cases hc : (Cursor.seek text n).rest with
  | nil =>
    rw [hc] at hrest
    have hd := List.forall₂_nil_left_iff.mp hrest
    rw [Cursor.peek, Cursor.peek, hc, hd]
  | cons ch cs =>
    rw [hc] at hrest
    obtain ⟨dh, ds, hsize, -, hd⟩ := List.forall₂_cons_left_iff.mp hrest
    rw [Cursor.peek_of_rest hc, Cursor.peek_of_rest hd]
    split <;> simp_all

end CommandConsole
