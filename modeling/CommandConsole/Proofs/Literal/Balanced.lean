/-
# Balanced groups

    group   := '{' body '}' | '[' body ']' | '"' quoted '"'
    body    := (group | '\' any | other)*
    quoted  := ('\' any | other)*

In a body the other characters are those that are none of brackets, braces,
quotes and backslashes, between quotes those that are neither a quote nor a
backslash. The scanner goes through a group once, and keeps no more than the
closing characters that are still to come. They tell what the rest of the group
looks like (`RestOfGroup`), so the scanner ends exactly where a group of the
grammar does. It is a function, so there is one such place at most.

Key definitions: `BalancedGroup`, `GroupBody`, `QuotedBody`, `RestOfGroup`, `groupEnd?`.
Key theorems: `BalancedGroup.groupLength`, `restOfGroup_of_groupLength`, `balancedGroup?_iff`,
`groupEnd?_iff`.
-/
import CommandConsole.Proofs.Literal.Lookahead
import CommandConsole.Proofs.Text.Boundary

namespace CommandConsole

/-- What may stand between two quotes. -/
inductive QuotedBody : List Char → Prop
  | nil : QuotedBody []
  | escaped (c : Char) {s : List Char} (h : QuotedBody s) : QuotedBody ('\\' :: c :: s)
  | char {c : Char} {s : List Char} (hc : c ∉ ['"', '\\']) (h : QuotedBody s) : QuotedBody (c :: s)

mutual

/-- A bracket or a brace up to the one that closes it, or a quoted part. -/
inductive BalancedGroup : List Char → Prop
  | braces {s : List Char} (h : GroupBody s) : BalancedGroup ('{' :: (s ++ ['}']))
  | brackets {s : List Char} (h : GroupBody s) : BalancedGroup ('[' :: (s ++ [']']))
  | quoted {s : List Char} (h : QuotedBody s) : BalancedGroup ('"' :: (s ++ ['"']))

/-- What may stand between two brackets or braces. -/
inductive GroupBody : List Char → Prop
  | nil : GroupBody []
  | group {g s : List Char} (hg : BalancedGroup g) (h : GroupBody s) : GroupBody (g ++ s)
  | escaped (c : Char) {s : List Char} (h : GroupBody s) : GroupBody ('\\' :: c :: s)
  | char {c : Char} {s : List Char} (hc : c ∉ ['{', '}', '[', ']', '"', '\\']) (h : GroupBody s) :
      GroupBody (c :: s)

end

/-! ### What is derived is scanned -/

/-- How the scanner goes on behind a group: it is done if no closing character is to come. -/
def groupLengthBehind (closers cs : List Char) : Option Nat :=
  if closers = [] then some 0 else groupLength closers false cs

theorem groupLength_closing (d : Char) (hd : d = '}' ∨ d = ']') (closers cs : List Char) :
    groupLength (d :: closers) false (d :: cs) = (groupLengthBehind closers cs).map (· + 1) := by
  unfold groupLengthBehind
  rcases hd with rfl | rfl <;>
    rw [groupLength_char (by decide)] <;> by_cases h : closers = [] <;> simp [h, closerOf?]

theorem groupLength_opening {c d : Char} (hc : closerOf? c = some d) (closers cs : List Char) :
    groupLength closers false (c :: cs) = (groupLength (d :: closers) false cs).map (· + 1) := by
  have hopen : c = '{' ∨ c = '[' := by
    unfold closerOf? at hc
    grind
  rcases hopen with rfl | rfl <;> cases hc <;> rw [groupLength_char (by decide)] <;> rfl

theorem groupLength_quote (closers cs : List Char) :
    groupLength closers false ('"' :: cs) = (groupLength closers true cs).map (· + 1) := by
  rw [groupLength_char (by decide)]
  rfl

theorem groupLength_unquote (closers cs : List Char) :
    groupLength closers true ('"' :: cs) = (groupLengthBehind closers cs).map (· + 1) := by
  unfold groupLengthBehind
  rw [groupLength_char (by decide)]
  by_cases h : closers = [] <;> simp [h]

theorem groupLength_other {c : Char} (hc : c ∉ ['{', '}', '[', ']', '"', '\\'])
    (closers cs : List Char) :
    groupLength closers false (c :: cs) = (groupLength closers false cs).map (· + 1) := by
  simp only [List.mem_cons, List.not_mem_nil, or_false, not_or] at hc
  rw [groupLength_char hc.2.2.2.2.2]
  simp [closerOf?, hc]

theorem map_add_add (n m : Nat) (o : Option Nat) :
    (o.map (· + n)).map (· + m) = o.map (· + (n + m)) := by
  rw [Option.map_map]
  congr 1
  funext k
  exact Nat.add_assoc k n m

theorem QuotedBody.groupLength {s : List Char} (h : QuotedBody s) (closers cs : List Char) :
    groupLength closers true (s ++ cs) = (groupLength closers true cs).map (· + s.length) := by
  induction h with
  | nil => simp
  | escaped c h ih =>
    rw [List.cons_append, List.cons_append, groupLength_escape, ih, map_add_add]
    rfl
  | char hc h ih =>
    simp only [List.mem_cons, List.not_mem_nil, or_false, not_or] at hc
    rw [List.cons_append, groupLength_char hc.2, ih, if_pos rfl, if_neg hc.1, map_add_add]
    rfl

mutual

/-- **The scanner goes over a group as a whole**, wherever it stands. -/
theorem BalancedGroup.groupLength : ∀ {g : List Char}, BalancedGroup g →
    ∀ closers cs : List Char, CommandConsole.groupLength closers false (g ++ cs) =
      (groupLengthBehind closers cs).map (· + g.length)
  | _, .braces h, closers, cs => by
    rw [List.cons_append, List.append_assoc, groupLength_opening rfl, h.groupLength (by simp),
      List.singleton_append, groupLength_closing _ (.inl rfl), map_add_add, map_add_add]
    simp [Nat.add_comm]
  | _, .brackets h, closers, cs => by
    rw [List.cons_append, List.append_assoc, groupLength_opening rfl, h.groupLength (by simp),
      List.singleton_append, groupLength_closing _ (.inr rfl), map_add_add, map_add_add]
    simp [Nat.add_comm]
  | _, .quoted h, closers, cs => by
    rw [List.cons_append, List.append_assoc, groupLength_quote, h.groupLength,
      List.singleton_append, groupLength_unquote, map_add_add, map_add_add]
    simp [Nat.add_comm]

theorem GroupBody.groupLength : ∀ {s : List Char}, GroupBody s → ∀ {closers : List Char},
    closers ≠ [] → ∀ cs : List Char, CommandConsole.groupLength closers false (s ++ cs) =
      (CommandConsole.groupLength closers false cs).map (· + s.length)
  | _, .nil, _, _, _ => by simp
  | _, .group hg h, _, hne, _ => by
    rw [List.append_assoc, hg.groupLength, groupLengthBehind, if_neg hne, h.groupLength hne,
      map_add_add, List.length_append, Nat.add_comm]
  | _, .escaped c h, _, hne, _ => by
    rw [List.cons_append, List.cons_append, groupLength_escape, h.groupLength hne, map_add_add]
    rfl
  | _, .char hc h, _, hne, _ => by
    rw [List.cons_append, groupLength_other hc, h.groupLength hne, map_add_add]
    rfl

end

/-! ### What is scanned is derived -/

/-- The rest of the groups that are open, of which `closers` are still to come, innermost first. -/
inductive Closes : List Char → List Char → Prop
  | done : Closes [] []
  | close {d : Char} {closers body s : List Char} (hb : GroupBody body) (h : Closes closers s) :
      Closes (d :: closers) (body ++ d :: s)

/-- The rest of a group at a place where `closers` are still to come, in a quoted part or not. -/
inductive RestOfGroup (closers : List Char) : Bool → List Char → Prop
  | inBody {s : List Char} (h : Closes closers s) : RestOfGroup closers false s
  | inQuotes {body s : List Char} (hb : QuotedBody body) (h : Closes closers s) :
      RestOfGroup closers true (body ++ '"' :: s)

namespace Closes

variable {closers s : List Char}

/-- A body goes on in front of what it is closed by. -/
theorem prepend (part : List Char) (hpart : ∀ body, GroupBody body → GroupBody (part ++ body))
    (hne : closers ≠ []) (h : Closes closers s) : Closes closers (part ++ s) := by
  cases h with
  | done => exact absurd rfl hne
  | close hb h =>
    rw [← List.append_assoc]
    exact .close (hpart _ hb) h

theorem escaped (c : Char) (hne : closers ≠ []) (h : Closes closers s) :
    Closes closers ('\\' :: c :: s) :=
  h.prepend ['\\', c] (fun _ hb => .escaped c hb) hne

theorem char {c : Char} (hc : c ∉ ['{', '}', '[', ']', '"', '\\']) (hne : closers ≠ [])
    (h : Closes closers s) : Closes closers (c :: s) :=
  h.prepend [c] (fun _ hb => .char hc hb) hne

theorem group {g : List Char} (hg : BalancedGroup g) (hne : closers ≠ []) (h : Closes closers s) :
    Closes closers (g ++ s) :=
  h.prepend g (fun _ hb => .group hg hb) hne

end Closes

theorem balancedGroup_of_closerOf? {c d : Char} (h : closerOf? c = some d) {body : List Char}
    (hb : GroupBody body) : BalancedGroup (c :: (body ++ [d])) := by
  unfold closerOf? at h
  split at h
  · rename_i hc
    cases h
    rw [hc]
    exact .braces hb
  · split at h
    · rename_i hc
      cases h
      rw [hc]
      exact .brackets hb
    · cases h

namespace RestOfGroup

variable {closers s : List Char}

theorem escaped {quoted : Bool} (c : Char) (ho : closers ≠ [] ∨ quoted = true)
    (h : RestOfGroup closers quoted s) : RestOfGroup closers quoted ('\\' :: c :: s) := by
  cases h with
  | inBody h => exact .inBody (h.escaped c (by simpa using ho))
  | inQuotes hb h => exact .inQuotes (.escaped c hb) h

/-- A bracket or a brace opens one group more. -/
theorem opening {c d : Char} (hc : closerOf? c = some d) (hne : closers ≠ [])
    (h : RestOfGroup (d :: closers) false s) : RestOfGroup closers false (c :: s) := by
  obtain ⟨h⟩ := h
  cases h with
  | @close _ _ body rest hb h =>
    have hg := h.group (balancedGroup_of_closerOf? hc hb) hne
    exact .inBody (by simpa using hg)

/-- A quote in a body opens a quoted part. -/
theorem quote (hne : closers ≠ []) (h : RestOfGroup closers true s) :
    RestOfGroup closers false ('"' :: s) := by
  obtain ⟨⟩ | @⟨body, rest, hb, h⟩ := h
  have hg := h.group (.quoted hb) hne
  exact .inBody (by simpa using hg)

/-- A quote in a quoted part ends it. -/
theorem unquote (h : RestOfGroup closers false s) : RestOfGroup closers true ('"' :: s) := by
  obtain ⟨h⟩ := h
  exact .inQuotes .nil h

theorem quotedChar {c : Char} (hc : c ∉ ['"', '\\']) (h : RestOfGroup closers true s) :
    RestOfGroup closers true (c :: s) := by
  obtain ⟨⟩ | @⟨body, rest, hb, h⟩ := h
  exact .inQuotes (.char hc hb) h

theorem closing (d : Char) (h : RestOfGroup closers false s) :
    RestOfGroup (d :: closers) false (d :: s) := by
  obtain ⟨h⟩ := h
  exact .inBody (.close .nil h)

theorem other {c : Char} (hc : c ∉ ['{', '}', '[', ']', '"', '\\']) (hne : closers ≠ [])
    (h : RestOfGroup closers false s) : RestOfGroup closers false (c :: s) := by
  obtain ⟨h⟩ := h
  exact .inBody (h.char hc hne)

end RestOfGroup

/-- **What the scanner goes over is the rest of a group.** -/
theorem restOfGroup_of_groupLength (closers : List Char) (quoted : Bool) (cs : List Char)
    (ho : closers ≠ [] ∨ quoted = true) {n : Nat} (h : groupLength closers quoted cs = some n) :
    RestOfGroup closers quoted (cs.take n) := by
  -- along the scanner; where it goes on, a group is open behind the character too
  fun_induction groupLength closers quoted cs generalizing n with
  | case1 | case2 => cases h
  | case3 closers quoted c cs ih =>
    obtain ⟨m, hm, rfl⟩ := Option.map_eq_some_iff.mp h
    exact (ih ho hm).escaped c ho
  | case4 cs =>
    cases h
    exact .inQuotes .nil .done
  | case5 closers cs hne _ _ ih =>
    obtain ⟨m, hm, rfl⟩ := Option.map_eq_some_iff.mp h
    exact (ih (.inl hne) hm).unquote
  | case6 closers c cs hlone hescape hquote ih =>
    obtain ⟨m, hm, rfl⟩ := Option.map_eq_some_iff.mp h
    have hc := ne_backslash_of_not_lone (fun h => hlone h.1 h.2) hescape
    exact (ih (.inr rfl) hm).quotedChar (by simp [hquote, hc])
  | case7 closers quoted cs hquoted _ _ ih =>
    obtain ⟨m, hm, rfl⟩ := Option.map_eq_some_iff.mp h
    obtain rfl : quoted = false := by simpa using hquoted
    exact (ih (.inr rfl) hm).quote (by simpa using ho)
  | case8 closers quoted c cs hlone hescape hquoted hquote closer hcloser ih =>
    obtain ⟨m, hm, rfl⟩ := Option.map_eq_some_iff.mp h
    obtain rfl : quoted = false := by simpa using hquoted
    exact (ih (.inl (by simp)) hm).opening hcloser (by simpa using ho)
  | case9 | case10 => cases h
  | case11 quoted c cs _ _ hquoted _ _ _ top htop =>
    cases h
    obtain rfl : quoted = false := by simpa using hquoted
    obtain rfl : c = top := by simpa using htop
    exact .closing c (.inBody .done)
  | case12 quoted c cs _ _ hquoted _ _ _ top outer htop hne ih =>
    obtain ⟨m, hm, rfl⟩ := Option.map_eq_some_iff.mp h
    obtain rfl : quoted = false := by simpa using hquoted
    obtain rfl : c = top := by simpa using htop
    exact (ih (.inl hne) hm).closing c
  | case13 closers quoted c cs hlone hescape hquoted hquote hopener hcloser ih =>
    obtain ⟨m, hm, rfl⟩ := Option.map_eq_some_iff.mp h
    obtain rfl : quoted = false := by simpa using hquoted
    have hne : closers ≠ [] := by simpa using ho
    have hc := ne_backslash_of_not_lone (fun h => hlone h.1 h.2) hescape
    refine (ih (.inl hne) hm).other ?_ hne
    unfold closerOf? at hopener
    grind

/-! ### Both are the same -/

theorem Closes.eq_nil {s : List Char} (h : Closes [] s) : s = [] := by
  cases h
  rfl

/-- An opening character with the rest of its group behind it is a group. -/
theorem balancedGroup_of_balancedGroup? {c : Char} {cs : List Char} (ho : opensGroup c = true)
    {n : Nat} (h : balancedGroup? (c :: cs) = some n) : BalancedGroup ((c :: cs).take n) := by
  unfold balancedGroup? at h
  cases hcloser : closerOf? c with
  | some d =>
    rw [groupLength_opening hcloser] at h
    obtain ⟨m, hm, rfl⟩ := Option.map_eq_some_iff.mp h
    have hrest := restOfGroup_of_groupLength [d] false cs (.inl (by simp)) hm
    rw [List.take_succ_cons]
    generalize cs.take m = rest at hrest
    obtain ⟨hrest⟩ := hrest
    cases hrest with
    | close hb hs =>
      rw [hs.eq_nil]
      exact balancedGroup_of_closerOf? hcloser hb
  | none =>
    obtain rfl : c = '"' := by
      unfold closerOf? at hcloser
      simp only [opensGroup, List.contains_cons, List.contains_nil, Bool.or_eq_true, beq_iff_eq] at ho
      grind
    rw [groupLength_quote] at h
    obtain ⟨m, hm, rfl⟩ := Option.map_eq_some_iff.mp h
    have hrest := restOfGroup_of_groupLength [] true cs (.inr rfl) hm
    rw [List.take_succ_cons]
    generalize cs.take m = rest at hrest
    obtain ⟨⟩ | @⟨body, s, hb, hs⟩ := hrest
    rw [hs.eq_nil]
    exact .quoted hb

/-- **The scanner finds the beginnings of a text that are groups**, behind an opening character. -/
theorem balancedGroup?_iff {c : Char} {cs : List Char} (ho : opensGroup c = true) {n : Nat} :
    balancedGroup? (c :: cs) = some n ↔
      n ≤ (c :: cs).length ∧ BalancedGroup ((c :: cs).take n) := by
  constructor
  · exact fun h => ⟨(balancedGroup?_le_length h).2, balancedGroup_of_balancedGroup? ho h⟩
  · rintro ⟨hn, hg⟩
    have h := hg.groupLength [] ((c :: cs).drop n)
    rw [List.take_append_drop, List.length_take_of_le hn] at h
    simpa [balancedGroup?, groupLengthBehind] using h

theorem not_balancedGroup_nil : ¬BalancedGroup [] := nofun

/-! ### Groups in a text -/

/-- The offset behind the group that the scanner finds at the offset `start`. -/
def groupEnd? (text : String) (start : Nat) : Option Nat :=
  let c := Cursor.seek text start
  (balancedGroup? c.rest).map fun n => c.offset + byteLength (c.rest.take n)

/-- The text between two offsets is balanced. -/
def IsGroupBetween (text : String) (start stop : Nat) : Prop :=
  ∃ g, sliceBytes? text start stop = some g ∧ BalancedGroup g.toList

theorem isGroupBetween_iff {text : String} {c : Cursor} (hc : (Cursor.start text).Reaches c)
    {stop : Nat} : IsGroupBetween text c.offset stop ↔
      ∃ n ≤ c.rest.length, stop = c.offset + byteLength (c.rest.take n) ∧
        BalancedGroup (c.rest.take n) := by
  constructor
  · rintro ⟨g, hslice, hg⟩
    obtain ⟨d, hd, rfl⟩ := isBoundary_iff.mp (isBoundary_of_sliceBytes? hslice).2
    rw [sliceBytes?_of_reaches hc hd] at hslice
    cases hslice
    rw [Cursor.textTo, String.toList_ofList, Cursor.charsTo] at hg
    rcases Nat.le_total c.offset d.offset with hle | hle
    · obtain ⟨cs, hrest, hoffset⟩ := hc.of_offset_le hd hle
      have hlength : c.rest.length - d.rest.length = cs.length := by
        rw [hrest, List.length_append]
        omega
      have htake : c.rest.take cs.length = cs := by rw [hrest, List.take_left]
      rw [hlength] at hg
      exact ⟨cs.length, by rw [hrest, List.length_append]; omega, by rw [htake, hoffset], hg⟩
    · -- nothing is between the two, and a group has characters
      have hlength := (hd.of_offset_le hc hle).rest_length_le
      rw [Nat.sub_eq_zero_of_le hlength, List.take_zero] at hg
      exact absurd hg not_balancedGroup_nil
  · rintro ⟨n, hn, rfl, hg⟩
    have hreach : c.Reaches ⟨c.offset + byteLength (c.rest.take n), c.rest.drop n⟩ :=
      ⟨c.rest.take n, (List.take_append_drop n c.rest).symm, rfl⟩
    have htext : c.textTo ⟨c.offset + byteLength (c.rest.take n), c.rest.drop n⟩ =
        String.ofList (c.rest.take n) := by
      refine Cursor.textTo_of_rest ?_
      rw [String.toList_ofList, List.take_append_drop]
    refine ⟨String.ofList (c.rest.take n), ?_, by rwa [String.toList_ofList]⟩
    rw [← htext]
    exact sliceBytes?_of_reaches hc (hc.trans hreach)

/-- **The scanner recognises exactly the balanced groups.** At an opening character of a text it
ends at the offset where a group ends; there is one at most, and where there is none, it fails. -/
theorem groupEnd?_iff (text : String) {start : Nat} {ch : Char}
    (hstart : isBoundary text start = true) (hpeek : (Cursor.seek text start).peek = some ch)
    (ho : opensGroup ch = true) :
    (∀ stop, groupEnd? text start = some stop ↔ IsGroupBetween text start stop) ∧
    (∀ stop stop', IsGroupBetween text start stop → IsGroupBetween text start stop' →
      stop = stop') ∧
    (groupEnd? text start = none ↔ ∀ stop, ¬IsGroupBetween text start stop) := by
  have hiff : ∀ stop, groupEnd? text start = some stop ↔ IsGroupBetween text start stop := by
    intro stop
    obtain ⟨c, hc, rfl⟩ := isBoundary_iff.mp hstart
    rw [Cursor.seek_of_reaches hc] at hpeek
    obtain ⟨cs, hrest⟩ := List.head?_eq_some_iff.mp hpeek
    rw [isGroupBetween_iff hc, groupEnd?, Cursor.seek_of_reaches hc]
    simp only [hrest, Option.map_eq_some_iff, balancedGroup?_iff ho]
    constructor
    · rintro ⟨n, ⟨hn, hg⟩, rfl⟩
      exact ⟨n, hn, rfl, hg⟩
    · rintro ⟨n, hn, rfl, hg⟩
      exact ⟨n, ⟨hn, hg⟩, rfl⟩
  refine ⟨hiff, fun stop stop' h h' => ?_, ?_⟩
  · exact Option.some.inj (((hiff stop).mpr h).symm.trans ((hiff stop').mpr h'))
  · rw [Option.eq_none_iff_forall_ne_some]
    exact forall_congr' fun stop => not_congr (hiff stop)

/-- A quoted bracket and an escaped one count for nothing, so the group ends at the last brace but
one. -/
theorem groupEnd?_iff_quoted :
    let text := "x\x7b[\"]\", \\]], y\x7d\x7d"
    isBoundary text 1 = true ∧ (Cursor.seek text 1).peek = some '{' ∧ opensGroup '{' = true ∧
      IsGroupBetween text 1 15 ∧ ∀ stop, IsGroupBetween text 1 stop → stop = 15 := by
  intro text
  have hpeek : (Cursor.seek text 1).peek = some '{' := by decide
  obtain ⟨hiff, hunique, -⟩ := groupEnd?_iff text (by decide) hpeek (by decide)
  have hgroup : IsGroupBetween text 1 15 := (hiff 15).mp (by decide +kernel)
  exact ⟨by decide, hpeek, by decide, hgroup, fun stop h => hunique stop 15 h hgroup⟩

end CommandConsole
