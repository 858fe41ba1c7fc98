/-
# Streams that are read again

A stream in use is asked for characters, gives out marks, and is put back to marks that it has
given out. Its cursor is always one of the text, and neither the cursor nor a mark ever lies behind
the furthest position reached. So a restore finds every mark where it was taken, and the stream
answers from there as it did before, whatever has been asked in between.

Key definitions: `Stream.Call`, `Stream.Usage`, `Usage.run?`, `Usage.Sound`, `Usage.ReplayedBy`,
`Stream.nexts`.
Key theorems: `Usage.Sound.run`, `Usage.Sound.restores`, `Usage.ReplayedBy.run`,
`Stream.Sound.sliceFrom_nexts`, `Stream.replays`.
-/
import CommandConsole.Text.Stream
import CommandConsole.Proofs.Text.Boundary
import Mathlib.Data.List.ReduceOption

namespace CommandConsole

namespace Stream

variable {text : String} {s : Stream}

/-! ### What a stream keeps -/

/-- The stream stands in the text, at most as far as it has been. -/
structure Sound (text : String) (s : Stream) : Prop where
  text_eq : s.text = text
  reaches : (Cursor.start text).Reaches s.cursor
  position_le : s.position ≤ s.highWater
  highWater_le : s.highWater ≤ textLength text

namespace Sound

theorem isBoundary (h : s.Sound text) : isBoundary text s.position = true :=
  isBoundary_iff.mpr ⟨s.cursor, h.reaches, rfl⟩

theorem «at» (text : String) (offset : Nat) : (Stream.at text offset).Sound text where
  text_eq := rfl
  reaches := .seek text offset
  position_le := Nat.le_refl _
  highWater_le := Span.le_textLength (isBoundary_iff.mpr ⟨_, .seek text offset, rfl⟩)

theorem reach {c : Cursor} (h : s.Sound text) (hc : s.cursor.Reaches c) :
    (s.reach c).Sound text where
  text_eq := h.text_eq
  reaches := h.reaches.trans hc
  position_le := Nat.le_max_right _ _
  highWater_le := by
    have hc' : c.offset ≤ textLength text :=
      Span.le_textLength (isBoundary_iff.mpr ⟨c, h.reaches.trans hc, rfl⟩)
    exact Nat.max_le.mpr ⟨h.highWater_le, hc'⟩

/-- A restore does not move a mark that the stream has reached before. -/
theorem restore_cursor {c : Cursor} (h : s.Sound text) (hc : (Cursor.start text).Reaches c)
    (hle : c.offset ≤ s.highWater) : (s.restore c.offset).cursor = c := by
  change Cursor.seek s.text (min c.offset s.highWater) = c
  rw [Nat.min_eq_left hle, h.text_eq]
  exact Cursor.seek_of_reaches hc

theorem restore {m : Nat} (h : s.Sound text) (hm : CommandConsole.isBoundary text m = true)
    (hle : m ≤ s.highWater) : (s.restore m).Sound text := by
  obtain ⟨c, hc, rfl⟩ := isBoundary_iff.mp hm
  have hcursor := h.restore_cursor hc hle
  refine ⟨h.text_eq, by rwa [hcursor], ?_, h.highWater_le⟩
  rw [position, hcursor]
  exact hle

end Sound

theorem next_fst (s : Stream) : s.next.1 = s.cursor.peek := by
  unfold next
  split <;> simp_all [peek]

/-- At the end of the text the stream stays where it is, and so does its cursor when it advances. -/
theorem next_cursor (s : Stream) : s.next.2.cursor = s.cursor.advance := by
  unfold next
  split
  · rename_i hpeek
    have hrest : s.cursor.rest = [] := List.head?_eq_none_iff.mp hpeek
    rw [Cursor.advance, hrest]
  · rfl

theorem next_text (s : Stream) : s.next.2.text = s.text := by
  unfold next
  split <;> rfl

theorem eat_fst (s : Stream) (e : Char) : (s.eat e).1 = decide (s.peek = some e) := by
  unfold eat
  split <;> simp [*]

theorem eat_cursor (s : Stream) (e : Char) :
    (s.eat e).2.cursor = if s.peek = some e then s.cursor.advance else s.cursor := by
  unfold eat
  split <;> rfl

/-! ### A stream in use -/

/-- What is asked of a stream. -/
inductive Call where
  | peek
  | next
  | skipBlanks
  | eat (expected : Char)
  | mark
  | restore (mark : Nat)

inductive Answer where
  | char (c : Option Char)
  | found (b : Bool)
  | mark (position : Nat)
  | restored

/-- A stream with the marks that it has given out. -/
structure Usage where
  stream : Stream
  marks : List Nat

namespace Usage

/-- The stream of a text from an offset on, before anything is asked of it. -/
def start (text : String) (offset : Nat) : Usage := ⟨.at text offset, []⟩

/-- The answer to a call and what it leaves. Nothing but a mark that the stream has given out can
be restored. -/
def step? (u : Usage) : Call → Option (Answer × Usage)
  | .peek => some (.char u.stream.peek, u)
  | .next => some (.char u.stream.next.1, { u with stream := u.stream.next.2 })
  | .skipBlanks => some (.found u.stream.skipBlanks.1, { u with stream := u.stream.skipBlanks.2 })
  | .eat c => some (.found (u.stream.eat c).1, { u with stream := (u.stream.eat c).2 })
  | .mark => some (.mark u.stream.mark, { u with marks := u.stream.mark :: u.marks })
  | .restore m =>
    if m ∈ u.marks then some (.restored, { u with stream := u.stream.restore m }) else none

theorem step?_eq_none_iff {u : Usage} {c : Call} :
    u.step? c = none ↔ ∃ m, c = .restore m ∧ m ∉ u.marks := by
  cases c <;> simp [step?]

/-- The answers to some calls, one after the other. -/
def run? (u : Usage) : List Call → Option (List Answer × Usage)
  | [] => some ([], u)
  | c :: cs => (u.step? c).bind fun r => (r.2.run? cs).map fun t => (r.1 :: t.1, t.2)

variable {u v w u' : Usage} {c : Call} {a : Answer} {cs ds : List Call} {as : List Answer}

theorem run?_cons : u.run? (c :: cs) = some (as, w) ↔
    ∃ a v later, u.step? c = some (a, v) ∧ v.run? cs = some (later, w) ∧ as = a :: later := by
  simp only [run?, Option.bind_eq_some_iff, Option.map_eq_some_iff, Prod.exists, Prod.mk.injEq]
  constructor
  · rintro ⟨a, v, hs, later, w', hr, rfl, rfl⟩
    exact ⟨a, v, later, hs, hr, rfl⟩
  · rintro ⟨a, v, later, hs, hr, rfl⟩
    exact ⟨a, v, hs, later, w, hr, rfl, rfl⟩

theorem run?_append : u.run? (cs ++ ds) = some (as, w) ↔
    ∃ first v later, u.run? cs = some (first, v) ∧ v.run? ds = some (later, w) ∧
      as = first ++ later := by
  induction cs generalizing u as with
  | nil =>
    constructor
    · intro h
      exact ⟨[], u, as, rfl, h, rfl⟩
    · rintro ⟨first, v, later, h, hr, rfl⟩
      cases h
      exact hr
  | cons c cs ih =>
    rw [List.cons_append, run?_cons]
    constructor
    · rintro ⟨a, x, rest, hs, hr, rfl⟩
      obtain ⟨first, v, later, hf, hl, rfl⟩ := ih.mp hr
      exact ⟨a :: first, v, later, run?_cons.mpr ⟨a, x, first, hs, hf, rfl⟩, hl, rfl⟩
    · rintro ⟨_, v, later, hr, hl, rfl⟩
      obtain ⟨a, x, first, hs, hf, rfl⟩ := run?_cons.mp hr
      exact ⟨a, x, first ++ later, hs, ih.mpr ⟨first, v, later, hf, hl, rfl⟩, rfl⟩

/-- What one call can do: nothing, go forward in the text, give out a mark, or restore one. -/
theorem step?_cases (h : u.step? c = some (a, v)) :
    v = u ∨
    (∃ d, u.stream.cursor.Reaches d ∧ v = { u with stream := u.stream.reach d }) ∨
    v = { u with marks := u.stream.mark :: u.marks } ∨
    ∃ m ∈ u.marks, v = { u with stream := u.stream.restore m } := by
  cases c with
  | peek => cases h; exact .inl rfl
  | next =>
    cases h
    unfold Stream.next
    split
    · exact .inl rfl
    · exact .inr (.inl ⟨_, .advance _, rfl⟩)
  | skipBlanks => cases h; exact .inr (.inl ⟨_, .skipBlanks _, rfl⟩)
  | eat e =>
    cases h
    unfold Stream.eat
    split
    · exact .inr (.inl ⟨_, .advance _, rfl⟩)
    · exact .inl rfl
  | mark => cases h; exact .inr (.inr (.inl rfl))
  | restore m =>
    rw [step?] at h
    split at h
    · cases h; exact .inr (.inr (.inr ⟨m, ‹_›, rfl⟩))
    · cases h

/-! ### What a call keeps, and what a run keeps -/

/-- The stream has been at every mark that it has given out. -/
structure Sound (text : String) (u : Usage) : Prop where
  stream : u.stream.Sound text
  marks : ∀ m ∈ u.marks, isBoundary text m = true ∧ m ≤ u.stream.highWater

theorem Sound.start (text : String) (offset : Nat) : (start text offset).Sound text :=
  ⟨.at text offset, fun _ hm => absurd hm List.not_mem_nil⟩

theorem Sound.step (h : u.Sound text) (hs : u.step? c = some (a, v)) : v.Sound text := by
  obtain rfl | ⟨d, hd, rfl⟩ | rfl | ⟨m, hm, rfl⟩ := step?_cases hs
  · exact h
  · refine ⟨h.stream.reach hd, fun n hn => ⟨(h.marks n hn).1, ?_⟩⟩
    exact Nat.le_trans (h.marks n hn).2 (Nat.le_max_left _ _)
  · refine ⟨h.stream, fun n hn => ?_⟩
    obtain rfl | hn := List.mem_cons.mp hn
    · exact ⟨h.stream.isBoundary, h.stream.position_le⟩
    · exact h.marks n hn
  · obtain ⟨hb, hle⟩ := h.marks m hm
    exact ⟨h.stream.restore hb hle, h.marks⟩

theorem Sound.run (h : u.Sound text) (hr : u.run? cs = some (as, w)) : w.Sound text := by
  induction cs generalizing u as with
  | nil => cases hr; exact h
  | cons c cs ih =>
    obtain ⟨a, v, later, hs, hl, -⟩ := run?_cons.mp hr
    exact ih (h.step hs) hl

theorem mem_marks_step {m : Nat} (hs : u.step? c = some (a, v)) :
    m ∈ v.marks ↔ m ∈ u.marks ∨ a = .mark m := by
  cases c with
  | mark =>
    cases hs
    simp only [List.mem_cons, Answer.mark.injEq, eq_comm (a := m), or_comm]
  | restore n =>
    rw [step?] at hs
    split at hs <;> cases hs
    simp
  | _ => cases hs; simp

/-- The marks that can be restored after a run are those from before and those it has answered. -/
theorem mem_marks_run {m : Nat} (hr : u.run? cs = some (as, w)) :
    m ∈ w.marks ↔ m ∈ u.marks ∨ .mark m ∈ as := by
  induction cs generalizing u as with
  | nil => cases hr; simp
  | cons c cs ih =>
    obtain ⟨a, v, later, hs, hl, rfl⟩ := run?_cons.mp hr
    rw [ih hl, mem_marks_step hs, List.mem_cons, or_assoc, eq_comm]

theorem marks_subset_run (hr : u.run? cs = some (as, w)) : u.marks ⊆ w.marks :=
  fun _ hm => (mem_marks_run hr).mpr (.inl hm)

/-! ### The same answers again -/

/-- The second stream stands where the first one does, and has given out all its marks. How far
the two have been may differ. -/
structure ReplayedBy (u v : Usage) : Prop where
  cursor_eq : v.stream.cursor = u.stream.cursor
  marks_subset : u.marks ⊆ v.marks

theorem ReplayedBy.step (h : u.ReplayedBy v) (hu : u.Sound text) (hv : v.Sound text)
    (hs : u.step? c = some (a, u')) : ∃ v', v.step? c = some (a, v') ∧ u'.ReplayedBy v' := by
  obtain ⟨hcursor, hmarks⟩ := h
  have hpeek : v.stream.peek = u.stream.peek := congrArg Cursor.peek hcursor
  have hmark : v.stream.mark = u.stream.mark := congrArg Cursor.offset hcursor
  cases c with
  | peek =>
    cases hs
    exact ⟨v, by rw [step?, hpeek], hcursor, hmarks⟩
  | next =>
    cases hs
    refine ⟨{ v with stream := v.stream.next.2 }, ?_, ?_, hmarks⟩
    · rw [step?, next_fst, next_fst, hcursor]
    · rw [next_cursor, next_cursor, hcursor]
  | skipBlanks =>
    cases hs
    refine ⟨{ v with stream := v.stream.skipBlanks.2 }, ?_, ?_, hmarks⟩
    · simp only [step?, Stream.skipBlanks, position, hcursor]
    · exact congrArg Cursor.skipBlanks hcursor
  | eat e =>
    cases hs
    refine ⟨{ v with stream := (v.stream.eat e).2 }, ?_, ?_, hmarks⟩
    · rw [step?, eat_fst, eat_fst, hpeek]
    · rw [eat_cursor, eat_cursor, hpeek, hcursor]
  | mark =>
    cases hs
    refine ⟨{ v with marks := v.stream.mark :: v.marks }, by rw [step?, hmark], hcursor, ?_⟩
    rw [hmark]
    exact List.cons_subset_cons _ hmarks
  | restore m =>
    rw [step?] at hs
    split at hs
    · rename_i hm
      cases hs
      -- Both streams have been at the mark, so neither clamps it.
      obtain ⟨hboundary, hle⟩ := hu.marks m hm
      obtain ⟨-, hle'⟩ := hv.marks m (hmarks hm)
      obtain ⟨d, hd, rfl⟩ := isBoundary_iff.mp hboundary
      refine ⟨{ v with stream := v.stream.restore d.offset }, ?_, ?_, hmarks⟩
      · rw [step?, if_pos (hmarks hm)]
      · rw [hu.stream.restore_cursor hd hle, hv.stream.restore_cursor hd hle']
    · cases hs

/-- **Two streams that stand at the same place answer alike from there on.** -/
theorem ReplayedBy.run (h : u.ReplayedBy v) (hu : u.Sound text) (hv : v.Sound text)
    (hr : u.run? cs = some (as, u')) : ∃ v', v.run? cs = some (as, v') := by
  induction cs generalizing u v as with
  | nil => cases hr; exact ⟨v, rfl⟩
  | cons c cs ih =>
    obtain ⟨a, x, later, hs, hl, rfl⟩ := run?_cons.mp hr
    obtain ⟨y, hs', hxy⟩ := h.step hu hv hs
    obtain ⟨v', hl'⟩ := ih hxy (hu.step hs) (hv.step hs') hl
    exact ⟨v', run?_cons.mpr ⟨a, y, later, hs', hl', rfl⟩⟩

end Usage

/-! ### Reading on -/

/-- The answers of `next`, called `n` times in a row, and the stream after that. -/
def nexts (s : Stream) : Nat → List (Option Char) × Stream
  | 0 => ([], s)
  | n + 1 => (s.next.1 :: (s.next.2.nexts n).1, (s.next.2.nexts n).2)

theorem nexts_fst (n : Nat) : ∀ s : Stream,
    (s.nexts n).1 = (List.range n).map (s.cursor.rest[·]?) := by
  induction n with
  | zero => exact fun _ => rfl
  | succ n ih =>
    intro s
    rw [nexts, ih, next_fst, next_cursor, Cursor.advance_rest, List.range_succ_eq_map,
      List.map_cons, List.map_map]
    simp [Cursor.peek, List.head?_eq_getElem?, Function.comp_def]

theorem nexts_rest (n : Nat) : ∀ s : Stream, (s.nexts n).2.cursor.rest = s.cursor.rest.drop n := by
  induction n with
  | zero => exact fun _ => rfl
  | succ n ih =>
    intro s
    rw [nexts, ih, next_cursor, Cursor.advance_rest, List.drop_tail]

theorem nexts_reaches (n : Nat) : ∀ s : Stream, s.cursor.Reaches (s.nexts n).2.cursor := by
  induction n with
  | zero => exact fun s => .refl s.cursor
  | succ n ih =>
    intro s
    have hnext : s.cursor.Reaches s.next.2.cursor := by
      rw [next_cursor]
      exact .advance s.cursor
    exact hnext.trans (ih s.next.2)

theorem nexts_text (n : Nat) : ∀ s : Stream, (s.nexts n).2.text = s.text := by
  induction n with
  | zero => exact fun _ => rfl
  | succ n ih => exact fun s => (ih s.next.2).trans (next_text s)

/-- The characters that come are those that were left, in their order. -/
theorem reduceOption_nexts (n : Nat) : ∀ s : Stream,
    (s.nexts n).1.reduceOption = s.cursor.rest.take n := by
  induction n with
  | zero => exact fun _ => rfl
  | succ n ih =>
    intro s
    have hrest : s.next.2.cursor.rest = s.cursor.rest.tail := by
      rw [next_cursor, Cursor.advance_rest]
    rw [nexts, next_fst, Cursor.peek]
    cases hcs : s.cursor.rest with
    | nil =>
      rw [List.head?_nil, List.reduceOption_cons_of_none, ih, hrest, hcs, List.tail_nil,
        List.take_nil, List.take_nil]
    | cons c cs =>
      rw [List.head?_cons, List.reduceOption_cons_of_some, ih, hrest, hcs, List.tail_cons,
        List.take_succ_cons]

theorem Sound.nexts_fst (h : s.Sound text) (n : Nat) :
    (s.nexts n).1 = (List.range n).map ((textFrom text s.position).toList[·]?) := by
  have hrest : textFrom text s.position = String.ofList s.cursor.rest :=
    textFrom_of_reaches h.reaches
  rw [Stream.nexts_fst, hrest, String.toList_ofList]

/-- What is cut out from a place on is what has been read since. -/
theorem Sound.sliceFrom_nexts (h : s.Sound text) (n : Nat) :
    (s.nexts n).2.sliceFrom s.position = String.ofList (s.nexts n).1.reduceOption := by
  have hreach := nexts_reaches n s
  have hmin : min s.position (s.nexts n).2.position = s.cursor.offset :=
    Nat.min_eq_left hreach.offset_le
  rw [sliceFrom, nexts_text, h.text_eq, hmin, Cursor.seek_of_reaches h.reaches, reduceOption_nexts]
  apply Cursor.textTo_of_rest
  rw [nexts_rest, String.toList_ofList, List.take_append_drop]

/-- A mark is restored where it was taken, however the run has gone on. -/
theorem Usage.Sound.restores {u v taken : Usage} {m : Nat} {cs : List Call} {as : List Answer}
    (hu : u.Sound text) (hmark : u.step? .mark = some (.mark m, taken))
    (hr : taken.run? cs = some (as, v)) :
    ∃ back, v.step? (.restore m) = some (.restored, back) ∧ taken.ReplayedBy back := by
  have hv : v.Sound text := (hu.step hmark).run hr
  cases hmark
  have hmarks := marks_subset_run hr
  have hmem : u.stream.mark ∈ v.marks := hmarks List.mem_cons_self
  obtain ⟨-, hle⟩ := hv.marks _ hmem
  refine ⟨{ v with stream := v.stream.restore u.stream.mark }, ?_, ?_, hmarks⟩
  · rw [step?, if_pos hmem]
  · exact hv.stream.restore_cursor hu.stream.reaches hle

/-- **A stream replays exactly.** It starts at the last boundary that does not lie behind the
offset, and of all calls only that for a mark which it has not given out is refused. After any calls
its position is a boundary, at most the furthest it has had, and this one lies in the text. What
`next` gives from there on is what can be cut out behind this position. Every mark puts the stream
back to where it was taken: `next` then gives the characters of the text from that byte on, and
after them none, and all that can be asked at the mark is answered again as it was. -/
theorem replays {text : String} {offset : Nat} {calls : List Call} {answers : List Answer}
    {u : Usage} (h : (Usage.start text offset).run? calls = some (answers, u)) :
    IsGreatest {n | isBoundary text n = true ∧ n ≤ offset} (Stream.at text offset).position ∧
    (∀ c, u.step? c = none ↔ ∃ m, c = .restore m ∧ .mark m ∉ answers) ∧
    (isBoundary text u.stream.position = true ∧ u.stream.position ≤ u.stream.highWater ∧
      u.stream.highWater ≤ textLength text) ∧
    (∀ n, (u.stream.nexts n).2.sliceFrom u.stream.position =
      String.ofList (u.stream.nexts n).1.reduceOption) ∧
    ∀ before between, calls = before ++ .mark :: between →
      ∃ first m later taken back, answers = first ++ .mark m :: later ∧
        (Usage.start text offset).run? (before ++ [.mark]) = some (first ++ [.mark m], taken) ∧
        m = taken.stream.position ∧ u.step? (.restore m) = some (.restored, back) ∧
        back.stream.cursor = taken.stream.cursor ∧
        (∀ n, (back.stream.nexts n).1 = (List.range n).map ((textFrom text m).toList[·]?)) ∧
        ∀ again as v, taken.run? again = some (as, v) → ∃ w, back.run? again = some (as, w) := by
  have hstart : (Usage.start text offset).Sound text := .start text offset
  have hu : u.Sound text := hstart.run h
  have hgiven : ∀ m, m ∈ u.marks ↔ .mark m ∈ answers := by
    simp [Usage.mem_marks_run h, Usage.start]
  refine ⟨Cursor.isGreatest_seek text offset,
    fun c => by simp only [Usage.step?_eq_none_iff, hgiven],
    ⟨hu.stream.isBoundary, hu.stream.position_le, hu.stream.highWater_le⟩,
    hu.stream.sliceFrom_nexts, ?_⟩
  rintro before between rfl
  obtain ⟨first, s, _, hfirst, hrest, rfl⟩ := Usage.run?_append.mp h
  obtain ⟨_, taken, later, hmark, hlater, rfl⟩ := Usage.run?_cons.mp hrest
  have hs : s.Sound text := hstart.run hfirst
  have htaken : taken.Sound text := hs.step hmark
  cases hmark
  obtain ⟨back, hback, hagain⟩ := hs.restores rfl hlater
  have hback' : back.Sound text := hu.step hback
  have hposition : back.stream.position = s.stream.mark := congrArg Cursor.offset hagain.cursor_eq
  have hthere : (Usage.start text offset).run? (before ++ [.mark]) =
      some (first ++ [.mark s.stream.mark], { s with marks := s.stream.mark :: s.marks }) :=
    Usage.run?_append.mpr ⟨first, s, [.mark s.stream.mark], hfirst, rfl, rfl⟩
  refine ⟨first, s.stream.mark, later, _, back, rfl, hthere, rfl, hback, hagain.cursor_eq,
    fun n => ?_, fun again as v hr => hagain.run htaken hback' hr⟩
  rw [hback'.stream.nexts_fst, hposition]

/-- The offset lies inside a character of two bytes, so this one is read first. The mark behind it
is restored a second time when the stream has come to the end again. -/
theorem replays_accent :
    let calls : List Call := [.next, .mark, .skipBlanks, .mark, .eat 'b', .next, .restore 3, .peek,
      .restore 4, .next]
    ∃ u, (Usage.start "aé b" 2).run? calls = some ([.char 'é', .mark 3, .found true, .mark 4,
        .found true, .char none, .restored, .char ' ', .restored, .char 'b'], u) ∧
      u.stream.position = 5 ∧ ∃ back, u.step? (.restore 3) = some (.restored, back) ∧
        back.stream.position = 3 ∧
        ∀ n, (back.stream.nexts n).1 = (List.range n).map ((textFrom "aé b" 3).toList[·]?) := by
  intro calls
  have hrun : (Usage.start "aé b" 2).run? calls = some ([.char 'é', .mark 3, .found true, .mark 4,
      .found true, .char none, .restored, .char ' ', .restored, .char 'b'],
      ⟨⟨"aé b", ⟨5, []⟩, 5⟩, [4, 3]⟩) := by rfl
  have hbefore : (Usage.start "aé b" 2).run? [.next, .mark] =
      some ([.char 'é', .mark 3], ⟨⟨"aé b", ⟨3, [' ', 'b']⟩, 3⟩, [3]⟩) := by rfl
  obtain ⟨-, -, -, -, hmarks⟩ := replays hrun
  -- The split at the first mark says which mark `m` is.
  obtain ⟨first, m, later, taken, back, -, htaken, rfl, hback, hcursor, hnexts, -⟩ :=
    hmarks [.next] _ rfl
  obtain ⟨-, rfl⟩ := Prod.mk.inj (Option.some.inj (hbefore.symm.trans htaken))
  exact ⟨_, hrun, rfl, back, hback, congrArg Cursor.offset hcursor, hnexts⟩

end Stream
end CommandConsole
