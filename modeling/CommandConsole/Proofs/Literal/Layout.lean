/-
# Where the parts of a literal lie

A literal that has been read lies in the text like its spelling does: the span
of a container goes from its opening to its closing character, its parts lie
between them, one after the other, and the span of the whole literal goes from
the cursor where reading began to the one where it ended.

Key definitions: `Literal.Laid`, `Reading.Laid`.
Key theorems: `Reading.Laid.step`, `readValue_laid`.
-/
import CommandConsole.Literal.Reader
import CommandConsole.Proofs.Text.Reach

namespace CommandConsole
namespace Literal

mutual

/-- The parts of every container lie between its brackets, one after the other. -/
def Laid : Literal → Prop
  | .empty _ => False
  | .scalar _ span => span.start ≤ span.stop
  | .list items span => LaidItems (span.start + 1) items span.stop
  | .map entries span => LaidEntries (span.start + 1) entries span.stop

/-- Literals that lie one after the other, from an offset on and before another one. -/
def LaidItems (start : Nat) : List Literal → Nat → Prop
  | [], stop => start < stop
  | i :: is, stop => start ≤ i.span.start ∧ Laid i ∧ LaidItems i.span.stop is stop

/-- Keys and values that lie one after the other. -/
def LaidEntries (start : Nat) : List (Literal × Literal) → Nat → Prop
  | [], stop => start < stop
  | (k, v) :: es, stop => start ≤ k.span.start ∧ Laid k ∧ k.span.stop ≤ v.span.start ∧ Laid v ∧
      LaidEntries v.span.stop es stop

end

mutual

theorem Laid.start_le_stop : ∀ {v : Literal}, v.Laid → v.span.start ≤ v.span.stop
  | .empty _, h => h.elim
  | .scalar _ _, h => h
  | .list items span, h => by
    have := LaidItems.start_lt h
    simp only [Literal.span]
    omega
  | .map entries span, h => by
    have := LaidEntries.start_lt h
    simp only [Literal.span]
    omega

theorem LaidItems.start_lt : ∀ {items : List Literal} {start stop : Nat},
    LaidItems start items stop → start < stop
  | [], _, _, h => h
  | i :: is, start, stop, ⟨hs, hi, his⟩ => by
    have := Laid.start_le_stop hi
    have := LaidItems.start_lt his
    omega

theorem LaidEntries.start_lt : ∀ {entries : List (Literal × Literal)} {start stop : Nat},
    LaidEntries start entries stop → start < stop
  | [], _, _, h => h
  | (k, v) :: es, start, stop, ⟨hs, hk, hkv, hv, hes⟩ => by
    have := Laid.start_le_stop hk
    have := Laid.start_le_stop hv
    have := LaidEntries.start_lt hes
    omega

end

theorem LaidItems.append {v : Literal} {p stop : Nat} (hv : v.Laid) (hp : p ≤ v.span.start)
    (hstop : v.span.stop < stop) : ∀ {items : List Literal} {start : Nat},
      LaidItems start items (p + 1) → LaidItems start (items ++ [v]) stop
  | [], _, h => ⟨Nat.le_trans (Nat.lt_succ_iff.mp h) hp, hv, hstop⟩
  | _ :: _, _, ⟨hs, hi, his⟩ => ⟨hs, hi, LaidItems.append hv hp hstop his⟩

theorem LaidEntries.append {k v : Literal} {p stop : Nat} (hk : k.Laid) (hp : p ≤ k.span.start)
    (hkv : k.span.stop ≤ v.span.start) (hv : v.Laid) (hstop : v.span.stop < stop) :
    ∀ {entries : List (Literal × Literal)} {start : Nat},
      LaidEntries start entries (p + 1) → LaidEntries start (entries ++ [(k, v)]) stop
  | [], _, h => ⟨Nat.le_trans (Nat.lt_succ_iff.mp h) hp, hk, hkv, hv, hstop⟩
  | (_, _) :: _, _, ⟨hs, ha, hab, hb, hes⟩ =>
    ⟨hs, ha, hab, hb, LaidEntries.append hk hp hkv hv hstop hes⟩

/-- The items of a list lie strictly inside its span. -/
theorem LaidItems.inside : ∀ {items : List Literal} {start stop : Nat},
    LaidItems start items stop → ∀ i ∈ items, start ≤ i.span.start ∧ i.span.stop < stop
  | i :: is, start, stop, ⟨hs, hi, his⟩, j, hj => by
    have hlt := LaidItems.start_lt his
    rcases List.mem_cons.mp hj with rfl | hj
    · exact ⟨hs, hlt⟩
    · have := Laid.start_le_stop hi
      have := LaidItems.inside his j hj
      omega

theorem LaidItems.laid : ∀ {items : List Literal} {start stop : Nat},
    LaidItems start items stop → ∀ i ∈ items, i.Laid
  | _ :: _, _, _, ⟨_, hi, his⟩, j, hj => by
    rcases List.mem_cons.mp hj with rfl | hj
    · exact hi
    · exact LaidItems.laid his j hj

end Literal

/-! ### Scans -/

/-- The scan begins at the cursor `c` and goes forward. Blanks dropped from the end lie between
the end of the scalar and the place behind it; there are none outside of containers. -/
def ScalarScan.StartsAt (place : Place) (c : Cursor) (s : ScalarScan) : Prop :=
  ∃ stop : Cursor, stop.offset = s.stop ∧ c.Reaches stop ∧ stop.Reaches s.after ∧
    (place = .topLevel → stop = s.after)

namespace ScalarScan.StartsAt

variable {place : Place} {offset : Nat} {ch : Char} {cs : List Char} {s : ScalarScan}

theorem of_stop_eq {c : Cursor} (h : s.stop = s.after.offset) (hc : c.Reaches s.after) :
    s.StartsAt place c :=
  ⟨s.after, h.symm, hc, .refl _, fun _ => rfl⟩

/-- One character more in front. -/
theorem back (h : s.StartsAt place ⟨offset + ch.utf8Size, cs⟩) :
    s.StartsAt place ⟨offset, ch :: cs⟩ := by
  obtain ⟨stop, ho, hc, ha, ht⟩ := h
  exact ⟨stop, ho, (Cursor.Reaches.cons ch cs offset).trans hc, ha, ht⟩

theorem prepend (h : s.StartsAt place ⟨offset + ch.utf8Size, cs⟩) :
    (s.prepend ch).StartsAt place ⟨offset, ch :: cs⟩ :=
  back (s := s.prepend ch) h

theorem reaches {c : Cursor} (h : s.StartsAt place c) : c.Reaches s.after := by
  obtain ⟨stop, -, hc, ha, -⟩ := h
  exact hc.trans ha

theorem stop_le {c : Cursor} (h : s.StartsAt place c) :
    c.offset ≤ s.stop ∧ s.stop ≤ s.after.offset := by
  obtain ⟨stop, ho, hc, ha, -⟩ := h
  rw [← ho]
  exact ⟨hc.offset_le, ha.offset_le⟩

end ScalarScan.StartsAt

theorem scanQuoted_reaches (offset : Nat) (cs : List Char) :
    Cursor.Reaches ⟨offset, cs⟩ (scanQuoted offset cs).after ∧
      (scanQuoted offset cs).stop = (scanQuoted offset cs).after.offset := by
  have hback : ∀ {offset : Nat} {ch : Char} {cs : List Char} {d : Cursor},
      Cursor.Reaches ⟨offset + ch.utf8Size, cs⟩ d → Cursor.Reaches ⟨offset, ch :: cs⟩ d :=
    fun h => (Cursor.Reaches.cons _ _ _).trans h
  fun_induction scanQuoted offset cs with
  | case1 offset => exact ⟨.refl _, rfl⟩
  | case2 offset cs => exact ⟨.cons '"' cs offset, rfl⟩
  | case3 offset c cs hc ih =>
    have hsize : c.utf8Size = 1 := by rcases hc with rfl | rfl <;> rfl
    refine ⟨hback (hback ?_), ih.2⟩
    rw [show offset + '\\'.utf8Size + c.utf8Size = offset + 2 by rw [hsize]; rfl]
    exact ih.1
  | case4 offset c cs _ ih => exact ⟨hback ih.1, ih.2⟩
  | case5 offset c cs _ _ ih => exact ⟨hback ih.1, ih.2⟩

theorem scanBareword_startsAt (place : Place) (verbatim offset : Nat) (cs : List Char) :
    (scanBareword place verbatim offset cs).StartsAt place ⟨offset, cs⟩ := by
  fun_induction scanBareword place verbatim offset cs with
  | case1 => exact .of_stop_eq rfl (.refl _)
  | case2 offset c cs n ih => exact ih.prepend
  | case3 => exact .of_stop_eq rfl (.refl _)
  | case4 offset => exact .of_stop_eq rfl (.cons '\\' [] offset)
  | case5 offset e ds _ ih =>
    have hescaped : ((scanBareword place 0 (offset + 1 + e.utf8Size) ds).prepend e).StartsAt place
        ⟨offset + '\\'.utf8Size, e :: ds⟩ := ih.prepend
    exact hescaped.back
  | case6 _ _ _ _ _ _ _ _ ih => exact ih.prepend
  | case7 _ _ _ _ _ _ _ ih => exact ih.prepend
  | case8 offset c cs _ _ _ hn s _ ih =>
    -- the scalar ends before the blank, and reading goes on behind it
    have hreach := (Cursor.Reaches.cons c cs offset).trans ih.reaches
    exact ⟨⟨offset, c :: cs⟩, rfl, .refl _, hreach, fun h => by rw [hn.1] at h; cases h⟩
  | case9 _ _ _ _ _ _ _ s _ ih => exact ih.prepend
  | case10 _ _ _ _ _ _ _ ih => exact ih.prepend

/-! ### The reader -/

namespace OpenContainer

def start : OpenContainer → Nat
  | .list start _ | .mapKey start _ | .mapValue start _ _ => start

/-- The finished parts of a container lie one after the other, up to an offset. -/
def LaidTo (p : Nat) : OpenContainer → Prop
  | .list start items => Literal.LaidItems (start + 1) items (p + 1)
  | .mapKey start entries => Literal.LaidEntries (start + 1) entries (p + 1)
  | .mapValue start entries key =>
    Literal.LaidEntries (start + 1) entries (key.span.start + 1) ∧ key.Laid ∧ key.span.stop ≤ p

end OpenContainer

/-- The open containers enclose each other, the innermost one up to an offset. Without any, the
offset is where the whole value begins. -/
def LaidOpened (low : Nat) : List OpenContainer → Nat → Prop
  | [], p => p = low
  | o :: os, p => o.LaidTo p ∧ LaidOpened low os o.start

/-- What has been read of the value that begins at the offset `low` lies in order. A value that
has just ended ends at the cursor, unless blanks were dropped from its end in a container. -/
def Reading.Laid (low : Nat) (r : Reading) : Prop :=
  match r.phase with
  | .value => LaidOpened low r.opened r.cursor.offset
  | .after v => v.Laid ∧ LaidOpened low r.opened v.span.start ∧ v.span.stop ≤ r.cursor.offset ∧
      (r.opened = [] → v.span.stop = r.cursor.offset)

namespace Reading

variable {limit low : Nat} {r next : Reading}

theorem Laid.acceptScalar {scan : ScalarScan} (h : LaidOpened low r.opened r.cursor.offset)
    (hs : scan.StartsAt r.place r.cursor) : (r.acceptScalar scan).Laid low := by
  have hle := hs.stop_le
  obtain ⟨stop, ho, -, -, ht⟩ := hs
  refine ⟨hle.1, h, hle.2, fun hopen => ?_⟩
  have htop : r.place = .topLevel := if_pos hopen
  simp only [Reading.acceptScalar, Literal.span]
  rw [← ho, ht htop]

theorem Laid.enter {fresh : OpenContainer} {closer : Char} {close : Span → Literal} {ch : Char}
    (hp : r.phase = .value) (h : LaidOpened low r.opened r.cursor.offset)
    (hc : r.cursor.peek = some ch)
    (hfresh : fresh.start = r.cursor.offset)
    (hparts : ∀ p, r.cursor.offset + 1 ≤ p → fresh.LaidTo p)
    (hspan : ∀ s, (close s).span = s) (hclose : ∀ s : Span, s.start + 1 < s.stop → (close s).Laid)
    (hnext : r.enter limit fresh closer close = .go next) :
    next.Laid low ∧ r.cursor.Reaches next.cursor := by
  have hinside : r.cursor.Reaches r.cursor.advance.skipBlanks :=
    (Cursor.Reaches.advance _).trans (.skipBlanks _)
  have hlt : r.cursor.offset < r.cursor.advance.offset :=
    (Cursor.Reaches.advance r.cursor).offset_lt (Cursor.advance_rest_length_lt hc)
  have hle := (Cursor.Reaches.skipBlanks r.cursor.advance).offset_le
  unfold Reading.enter at hnext
  split at hnext
  · cases hnext
  · dsimp only at hnext
    split at hnext
    · rename_i hcloser
      cases hnext
      have hstop := (Cursor.Reaches.advance r.cursor.advance.skipBlanks).offset_lt
        (Cursor.advance_rest_length_lt hcloser)
      refine ⟨⟨hclose _ ?_, ?_, ?_, fun _ => ?_⟩, hinside.trans (.advance _)⟩
      · simp only [Cursor.spanTo]
        omega
      · rw [hspan]
        exact h
      · rw [hspan]
        exact Nat.le_refl _
      · rw [hspan]
        rfl
    · cases hnext
      refine ⟨?_, hinside⟩
      simp only [Reading.Laid, hp]
      refine ⟨hparts _ (by omega), ?_⟩
      rw [hfresh]
      exact h

theorem Laid.beginValue (hp : r.phase = .value) (h : LaidOpened low r.opened r.cursor.offset)
    (hnext : r.beginValue limit = .go next) : next.Laid low ∧ r.cursor.Reaches next.cursor := by
  have hbare : r.acceptBareword.Laid low ∧ r.cursor.Reaches r.acceptBareword.cursor := by
    have hs := scanBareword_startsAt r.place 0 r.cursor.offset r.cursor.rest
    exact ⟨.acceptScalar h hs, hs.reaches⟩
  unfold Reading.beginValue at hnext
  split at hnext
  · split at hnext
    · cases hnext
      exact hbare
    · cases hnext
  · rename_i ch hc
    split at hnext
    · cases hnext
    · split at hnext
      · refine Laid.enter hp h hc rfl (fun p hp => ?_) (fun _ => rfl) (fun s hs => ?_) hnext
        · exact Nat.lt_succ_of_le hp
        · exact hs
      · split at hnext
        · refine Laid.enter hp h hc rfl (fun p hp => ?_) (fun _ => rfl) (fun s hs => ?_) hnext
          · exact Nat.lt_succ_of_le hp
          · exact hs
        · split at hnext
          · dsimp only at hnext
            split at hnext
            · cases hnext
              obtain ⟨hreach, hstop⟩ :=
                scanQuoted_reaches r.cursor.advance.offset r.cursor.advance.rest
              have hall := (Cursor.Reaches.advance r.cursor).trans hreach
              exact ⟨.acceptScalar h (.of_stop_eq hstop hall), hall⟩
            · cases hnext
          · cases hnext
            exact hbare

theorem Laid.endValue {v : Literal} (hv : v.Laid) (ho : LaidOpened low r.opened v.span.start)
    (hle : v.span.stop ≤ r.cursor.offset) (hnext : r.endValue v = .go next) :
    next.Laid low ∧ r.cursor.Reaches next.cursor := by
  have hblanks := Cursor.Reaches.skipBlanks r.cursor
  have hclose := hblanks.trans (.advance _)
  have hproceed := hclose.trans (.skipBlanks _)
  -- a separator or a closing character stands behind the value
  have hlast : ∀ {ch : Char}, r.cursor.skipBlanks.peek = some ch →
      v.span.stop < r.cursor.skipBlanks.advance.offset := by
    intro ch hc
    have hb := hblanks.offset_le
    have ha := (Cursor.Reaches.advance r.cursor.skipBlanks).offset_lt
      (Cursor.advance_rest_length_lt hc)
    omega
  have hlater : ∀ {ch : Char}, r.cursor.skipBlanks.peek = some ch →
      v.span.stop < r.cursor.skipBlanks.advance.skipBlanks.offset + 1 := by
    intro ch hc
    have hl := hlast hc
    have hs := (Cursor.Reaches.skipBlanks r.cursor.skipBlanks.advance).offset_le
    omega
  unfold Reading.endValue at hnext
  dsimp only at hnext
  split at hnext
  · cases hnext
  · rename_i start items outer hopen
    rw [hopen] at ho
    obtain ⟨hitems, houter⟩ := ho
    split at hnext
    · rename_i hc
      cases hnext
      exact ⟨⟨.append hv (Nat.le_refl _) (hlater hc) hitems, houter⟩, hproceed⟩
    · split at hnext
      · rename_i hc
        cases hnext
        refine ⟨⟨?_, houter, Nat.le_refl _, fun _ => rfl⟩, hclose⟩
        exact .append hv (Nat.le_refl _) (hlast hc) hitems
      · cases hnext
  · rename_i start entries outer hopen
    rw [hopen] at ho
    obtain ⟨hentries, houter⟩ := ho
    split at hnext
    · rename_i hc
      cases hnext
      exact ⟨⟨⟨hentries, hv, Nat.lt_succ_iff.mp (hlater hc)⟩, houter⟩, hproceed⟩
    · cases hnext
  · rename_i start entries key outer hopen
    rw [hopen] at ho
    obtain ⟨⟨hentries, hkey, hkv⟩, houter⟩ := ho
    split at hnext
    · rename_i hc
      cases hnext
      refine ⟨⟨?_, houter⟩, hproceed⟩
      exact .append hkey (Nat.le_refl _) hkv hv (hlater hc) hentries
    · split at hnext
      · rename_i hc
        cases hnext
        refine ⟨⟨?_, houter, Nat.le_refl _, fun _ => rfl⟩, hclose⟩
        exact .append hkey (Nat.le_refl _) hkv hv (hlast hc) hentries
      · cases hnext

/-- **A step keeps what has been read in order**, and goes forward. -/
theorem Laid.step (h : r.Laid low) (hnext : r.step limit = .go next) :
    next.Laid low ∧ r.cursor.Reaches next.cursor := by
  unfold Reading.step at hnext
  unfold Reading.Laid at h
  split at hnext
  · rename_i hp
    rw [hp] at h
    exact Laid.beginValue hp h hnext
  · rename_i v hp
    rw [hp] at h
    exact Laid.endValue h.1 h.2.1 h.2.2.1 hnext

theorem Laid.done {v : Literal} {c : Cursor} (h : r.Laid low) (hdone : r.step limit = .done v c) :
    v.Laid ∧ v.span = ⟨low, c.offset⟩ ∧ c = r.cursor := by
  have hc := step_done_rest hdone
  subst hc
  unfold Reading.step at hdone
  unfold Reading.Laid at h
  split at hdone
  · exact absurd hdone (beginValue_ne_done r)
  · rename_i w hp
    rw [hp] at h
    obtain ⟨hv, ho, -, hstop⟩ := h
    unfold Reading.endValue at hdone
    dsimp only at hdone
    split at hdone
    · rename_i hopen
      cases hdone
      rw [hopen] at ho
      have hstart : v.span.start = low := ho
      refine ⟨hv, ?_, rfl⟩
      rw [← hstart, ← hstop hopen]
    · exfalso
      split at hdone <;> (try split at hdone) <;> cases hdone
    · exfalso
      split at hdone <;> cases hdone
    · exfalso
      split at hdone <;> (try split at hdone) <;> cases hdone

theorem Laid.run {v : Literal} {stop : Cursor} (h : r.Laid low)
    (hrun : r.run limit = .ok (v, stop)) :
    v.Laid ∧ v.span = ⟨low, stop.offset⟩ ∧ r.cursor.Reaches stop := by
  fun_induction r.run limit with
  | case1 r next hs ih =>
    obtain ⟨hnext, hreach⟩ := h.step hs
    obtain ⟨hv, hspan, hrest⟩ := ih hnext hrun
    exact ⟨hv, hspan, hreach.trans hrest⟩
  | case2 r w c hs =>
    cases hrun
    obtain ⟨hv, hspan, rfl⟩ := h.done hs
    exact ⟨hv, hspan, .refl _⟩
  | case3 => cases hrun

end Reading

/-- **A literal that is read lies in the text from the cursor where reading begins to the one
where it ends**, and its parts lie in it. -/
theorem readValue_laid {limit : Nat} {c stop : Cursor} {v : Literal}
    (h : readValue limit c = .ok (v, stop)) :
    v.Laid ∧ v.span = c.spanTo stop ∧ c.Reaches stop :=
  @Reading.Laid.run limit c.offset (Reading.start c) v stop rfl h

end CommandConsole
