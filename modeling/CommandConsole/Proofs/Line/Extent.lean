/-
# The span of a command

The span of a command begins at the first token of its name and ends behind
the last token that belongs to it. There is one exception: if the last token of
the line came in a run, the run has looked for one more value and met the end
of the line, and the command keeps the blanks in between. No two spans of a
line overlap in either case, since such a command is the last of the line.

Key definitions: `ArgumentSource.Supplies`, `Segment.Extends`.
Key theorems: `LineEnv.bindCommand_extends`, `CommandParser.parse_extents`.
-/
import CommandConsole.Proofs.Binding.Extent
import CommandConsole.Proofs.Line.Segments
import CommandConsole.Proofs.Token.Tiling

namespace CommandConsole

/-! ### Spans side by side -/

namespace Span

theorem foldl_cover_start {s : Span} : ∀ {ss : List Span}, (∀ t ∈ ss, s.start ≤ t.start) →
    (ss.foldl cover s).start = s.start
  | [], _ => rfl
  | t :: ss, h => by
    obtain ⟨ht, hss⟩ := List.forall_mem_cons.mp h
    have hstart : (s.cover t).start = s.start := Nat.min_eq_left ht
    rw [List.foldl_cons, foldl_cover_start (hstart ▸ hss), hstart]

theorem foldl_cover_stop_le {n : Nat} : ∀ {ss : List Span} {s : Span}, s.stop ≤ n →
    (∀ t ∈ ss, t.stop ≤ n) → (ss.foldl cover s).stop ≤ n
  | [], _, hs, _ => hs
  | t :: ss, s, hs, h => by
    obtain ⟨ht, hss⟩ := List.forall_mem_cons.mp h
    rw [List.foldl_cons]
    exact foldl_cover_stop_le (Nat.max_le.mpr ⟨hs, ht⟩) hss

end Span

namespace TokensPlaced

variable {t u : Token} {ts before after line : List Token}

/-- The spans of some tokens of a line cover what is between the first and the last. -/
theorem coverAll_start (h : TokensPlaced (t :: ts)) :
    (Span.coverAll ((t :: ts).map (·.span))).start = t.span.start := by
  refine Span.foldl_cover_start fun s hs => ?_
  obtain ⟨u, hu, rfl⟩ := List.mem_map.mp hs
  have hle := (List.pairwise_cons.mp h.2).1 u hu
  have hlt := (h.1 t List.mem_cons_self).1
  exact Nat.le_trans (Nat.le_of_lt hlt) hle

theorem coverAll_stop (h : TokensPlaced (before ++ [t])) :
    (Span.coverAll ((before ++ [t]).map (·.span))).stop = t.span.stop := by
  cases before with
  | nil => rfl
  | cons u us =>
    obtain ⟨-, -, hle⟩ := List.pairwise_append.mp h.2
    have hstop : ∀ w ∈ u :: us, w.span.stop ≤ t.span.stop := by
      intro w hw
      have hw' := hle w hw t List.mem_cons_self
      have hlt := (h.1 t (List.mem_append_right _ List.mem_cons_self)).1
      omega
    obtain ⟨hu, hus⟩ := List.forall_mem_cons.mp hstop
    rw [List.map_append, List.map_cons, List.cons_append, Span.coverAll, List.foldl_append]
    exact Nat.max_eq_right (Span.foldl_cover_stop_le hu (by simpa using hus))

/-- Only the last token of a line has no other behind it. -/
theorem getLast?_eq_some_iff (h : TokensPlaced (before ++ t :: after)) :
    (before ++ t :: after).getLast? = some t ↔ after = [] := by
  refine ⟨fun hlast => ?_, fun hnil => by simp [hnil]⟩
  by_contra hne
  have hmem : t ∈ after := by
    have : (before ++ t :: after).getLast? = after.getLast? := by
      rw [List.getLast?_append_of_ne_nil _ (List.cons_ne_nil _ _), List.getLast?_cons_of_ne_nil hne]
    exact List.mem_of_getLast? (this ▸ hlast)
  have hle := (List.pairwise_cons.mp (List.pairwise_append.mp h.2).2.1).1 t hmem
  have hlt := (h.1 t (List.mem_append_right _ List.mem_cons_self)).1
  omega

/-- What stands behind the end of a token stands behind the token. -/
theorem le_of_getLast? (h : TokensPlaced line) (hlast : line.getLast? = some t) (hu : u ∈ line) :
    u.span.stop ≤ t.span.stop := by
  obtain ⟨before, rfl⟩ := List.getLast?_eq_some_iff.mp hlast
  rcases List.mem_append.mp hu with hu | hu
  · have hle := (List.pairwise_append.mp h.2).2.2 u hu t List.mem_cons_self
    have hlt := (h.1 t (List.mem_append_right _ List.mem_cons_self)).1
    omega
  · exact Nat.le_of_eq (by rw [List.mem_singleton.mp hu])

end TokensPlaced

/-! ### The end of a line -/

namespace Tokens

/-- The tokens can all be read, and the line ends at the offset `stop`. -/
def EndsAt (stop : Nat) : Tokens → Prop
  | .finished n => n = stop
  | .broken _ _ => False
  | .more _ rest => rest.EndsAt stop

@[simp] theorem endsAt_prepend {stop : Nat} {ts : List Token} {rest : Tokens} :
    (prepend ts rest).EndsAt stop ↔ rest.EndsAt stop := by
  induction ts with
  | nil => rfl
  | cons t ts ih => exact ih

theorem EndsAt.stopBehind_last {stop : Nat} {t : Token} : ∀ {ts : Tokens}, ts.EndsAt stop →
    ts.toList = [] → ts.stopBehind t = stop
  | .finished _, h, _ => h
  | .broken _ _, h, _ => h.elim
  | .more _ _, _, hnil => by cases hnil

theorem EndsAt.stopBehind_more {stop : Nat} {t : Token} : ∀ {ts : Tokens}, ts.EndsAt stop →
    ts.toList ≠ [] → ts.stopBehind t = t.span.stop
  | .finished _, _, hne => absurd rfl hne
  | .broken _ _, h, _ => h.elim
  | .more _ _, _, _ => rfl

/-- A line that tiles a text ends where the text does. -/
theorem Tile.endsAt {stop : Nat} : ∀ {ts : Tokens} {offset : Nat} {cs : List Char},
    ts.Tile offset cs → ts.EndsAt stop → stop = offset + byteLength cs
  | .finished n, offset, cs, h, he => by
    obtain ⟨-, hn⟩ := h
    exact he.symm.trans hn
  | .broken _ _, _, _, _, he => he.elim
  | .more t ts, offset, cs, h, he => by
    obtain ⟨blanks, rest, -, -, hcs, hstart, hstop, htile⟩ := h
    rw [htile.endsAt he, hstop, hstart, hcs, byteLength_append, byteLength_append]
    omega

end Tokens

/-! ### One command -/

/-- The source names the argument for some list of bound arguments. -/
def ArgumentSource.Supplies (source : ArgumentSource) (a : Argument) : Prop :=
  ∃ bound, a ∈ source.remaining bound

/-- The tokens of a segment of a line belong to a command, and its span is that of the tokens; only
where the last token of the line is an item of a bound list does it go on to the end of the line. -/
structure Segment.Extends (env : LineEnv) (line : List Token) (stop : Nat) (s : Segment)
    (c : BoundCommand) : Prop where
  /-- The first tokens name the command, and the next one does not go on with the name. -/
  names : env.Names s.names c.id
  deepest : ∀ t ∈ s.arguments.head?, env.childMatch (some c.id) t = .none
  /-- A value is a bundle of flags and nothing else, or is held at one place. -/
  values : ∃ declared, env.registry.get? c.id = some declared ∧
    ∀ t ∈ s.arguments, ∀ v, t.kind = .value v →
      (t.Bundles declared.arguments.Supplies c.arguments ∧
        v ∉ c.arguments.flatMap BoundArgument.places) ∨
      ∃! i : Nat, (c.arguments.flatMap BoundArgument.places)[i]? = some v
  first : ∀ t ∈ s.names.head?, c.span.start = t.span.start
  last : ∀ t ∈ (s.names ++ s.arguments).getLast?,
    ¬ (t.Listed c.arguments ∧ line.getLast? = some t) → c.span.stop = t.span.stop
  overrun : ∀ t ∈ (s.names ++ s.arguments).getLast?,
    t.Listed c.arguments → line.getLast? = some t → c.span.stop = stop

namespace BindEnv

theorem offers_supplies (env : BindEnv) : env.Offers env.source.Supplies := fun s _ ha => ⟨s.bound, ha⟩

theorem listed_bindDefaults {s : BindState} {unbound : List Argument} {t : Token} :
    t.Listed (bindDefaults s unbound).bound ↔ t.Listed s.bound := by
  refine exists_congr fun v => and_congr_right fun _ => ⟨?_, ?_⟩
  · rintro ⟨b, hb, hv⟩
    rcases List.mem_append.mp hb with hb | hb
    · exact ⟨b, hb, hv⟩
    · obtain ⟨a, -, ha⟩ := List.mem_filterMap.mp hb
      obtain ⟨w, -, rfl⟩ := Option.map_eq_some_iff.mp ha
      cases hv
  · rintro ⟨b, hb, hv⟩
    exact ⟨b, List.mem_append_left _ hb, hv⟩

end BindEnv

namespace LineEnv

variable {env : LineEnv} {t : Token} {rest : Tokens} {r : Resolved}

theorem descend_span : ∀ {id : CommandId} {span : Span} {ts : Tokens},
    env.descend id span ts = .ok r → ∃ names, ts = .prepend names r.cursor.tokens ∧
      r.span = (names.map (·.span)).foldl Span.cover span ∧ r.cursor.position = r.span.stop
  | id, span, .more t rest, h => by
    unfold descend at h
    split at h
    · cases h
      exact ⟨[], rfl, rfl, rfl⟩
    · obtain ⟨names, hnames, hspan, hp⟩ := descend_span h
      exact ⟨t :: names, by simp [hnames], hspan, hp⟩
    · cases h
  | id, span, .finished _, h => by
    cases h
    exact ⟨[], rfl, rfl, rfl⟩
  | id, span, .broken _ _, h => by
    cases h
    exact ⟨[], rfl, rfl, rfl⟩

/-- The span of a name covers its tokens. -/
theorem resolve_span {names : List Token} (h : env.resolve t rest = .ok r)
    (hnames : rest = .prepend names r.cursor.tokens) :
    r.span = Span.coverAll ((t :: names).map (·.span)) ∧ r.cursor.position = r.span.stop := by
  unfold resolve at h
  split at h
  · cases h
  · obtain ⟨names', hnames', hspan, hp⟩ := descend_span h
    obtain rfl : names = names' := Tokens.prepend_left_cancel (hnames.symm.trans hnames')
    exact ⟨hspan, hp⟩
  · cases h

/-- What ends the tokens of a command ends its span. -/
theorem closes_boundCommand {c : Command} {b : BindEnv.Binding} {s : BindState}
    {unbound : List Argument} {names used : List Token} {after : Tokens} {stop : Nat} {u : Token}
    (hstate : b.state = BindEnv.bindDefaults s unbound)
    (hspan : r.span = Span.coverAll (names.map (·.span))) (hnames : names ≠ [])
    (hplaced : TokensPlaced (names ++ used)) (hafter : after.EndsAt stop)
    (hstop : ∀ u ∈ used, u.span.stop ≤ stop)
    (hempty : used = [] → s = .start r.span.stop)
    (hcloses : ∀ before t, used = before ++ [t] → t.Closes s.bound after s.stop)
    (hu : u ∈ (names ++ used).getLast?) :
    u.Closes (env.boundCommand r c b).arguments after (env.boundCommand r c b).span.stop := by
  have hlisted : u.Listed (env.boundCommand r c b).arguments ↔ u.Listed s.bound := by
    rw [boundCommand, hstate]
    exact BindEnv.listed_bindDefaults
  have hspanstop : (env.boundCommand r c b).span.stop = max s.stop r.span.stop := by
    rw [boundCommand, hstate]
    rfl
  obtain ⟨before, last, rfl⟩ := (List.eq_nil_or_concat' names).resolve_left hnames
  have hplacedNames := hplaced.sublist (List.sublist_append_left _ used)
  have hname : r.span.stop = last.span.stop := hspan ▸ hplacedNames.coverAll_stop
  rcases List.eq_nil_or_concat' used with rfl | ⟨before', w, rfl⟩
  · -- the command is only its name, and nothing is bound
    obtain rfl : last = u := by simpa using hu
    have hs := hempty rfl
    refine ⟨fun hl => ?_, fun _ => ?_⟩
    · rw [hlisted, hs] at hl
      obtain ⟨v, -, b, hb, -⟩ := hl
      cases hb
    · rw [hspanstop, hs, ← hname]
      exact Nat.max_self _
  · rw [← List.append_assoc, List.getLast?_concat] at hu
    obtain rfl : w = u := Option.some.inj hu
    obtain ⟨hrun, hbehind⟩ := hcloses before' w rfl
    have hle : r.span.stop ≤ w.span.stop := by
      rw [hname]
      refine hplaced.le_of_getLast? ?_ (List.mem_append_left _ (by simp))
      rw [← List.append_assoc, List.getLast?_concat]
    have hmax : w.span.stop ≤ s.stop → (env.boundCommand r c b).span.stop = s.stop := by
      intro h
      rw [hspanstop, Nat.max_eq_left (Nat.le_trans hle h)]
    refine ⟨fun hl => ?_, fun hl => ?_⟩
    · have hs := hrun (hlisted.mp hl)
      rw [hmax ?_, hs]
      rw [hs]
      by_cases hnil : after.toList = []
      · rw [hafter.stopBehind_last hnil]
        exact hstop w (by simp)
      · exact Nat.le_of_eq (hafter.stopBehind_more hnil).symm
    · have hs := hbehind (fun h => hl (hlisted.mpr h))
      rw [hmax (Nat.le_of_eq hs.symm), hs]

/-- **The tokens that a command uses up are those that its span says.** -/
theorem bindCommand_extends {c : Command} {b : BindEnv.Binding} {stop : Nat}
    {before line : List Token} (hline : line = before ++ (Tokens.more t rest).toList)
    (hplaced : TokensPlaced line) (hstop : ∀ u ∈ line, u.span.stop ≤ stop)
    (hend : rest.EndsAt stop) (h : env.bindCommand .complete t rest = .ok (r, c, b)) :
    ∃ (s : Segment) (sep : Option Token), (∀ u ∈ sep, u.isSeparator = true) ∧
      (∀ u ∈ s.names ++ s.arguments, u.isSeparator = false) ∧
      Tokens.more t rest = .prepend (s.names ++ s.arguments ++ sep.toList) b.cursor.tokens ∧
      s.Extends env line stop (env.boundCommand r c b) := by
  obtain ⟨hres, hget, hbind⟩ := bindCommand_eq_ok h
  obtain ⟨names, hrest, hnames, hlast⟩ := resolve_names hres
  obtain ⟨hspan, hposition⟩ := resolve_span hres hrest
  have hO := (env.bindEnv .complete r.id c).offers_supplies
  obtain ⟨s, used, sep, bundles, entries, hends, hused, hA, hf⟩ := BindEnv.bind_accounts hO hbind
  obtain ⟨htok, -, hsep⟩ := id hends
  have htokens : line = before ++ ((t :: names) ++ used ++ sep.toList ++ b.cursor.tokens.toList) := by
    rw [hline, hrest, htok]
    simp
  have hplaced' : TokensPlaced ((t :: names) ++ r.cursor.tokens.toList) := by
    refine hplaced.sublist ?_
    rw [hline, hrest, Tokens.toList_more, Tokens.toList_prepend]
    exact List.sublist_append_right _ _
  have hplacedArgs : TokensPlaced r.cursor.tokens.toList :=
    hplaced'.sublist (List.sublist_append_right _ _)
  have hplacedNames : TokensPlaced (t :: names) := hplaced'.sublist (List.sublist_append_left _ _)
  have hplacedUsed : TokensPlaced used := by
    refine hplacedArgs.sublist ?_
    rw [htok, Tokens.toList_prepend, List.append_assoc]
    exact List.sublist_append_left _ _
  obtain ⟨s', used', sep', hends', hf', hempty, hcloses⟩ :=
    BindEnv.bind_closes rfl hO hplacedArgs hbind
  obtain ⟨rfl, rfl⟩ := BindEnv.Binding.Ends.unique hends hends'
  have hafter : Tokens.EndsAt stop (.prepend sep.toList b.cursor.tokens) := by
    rw [hrest, htok] at hend
    simpa using hend
  have hstate := (BindEnv.finish_complete rfl hf).1
  have hcloses' : ∀ u ∈ ((t :: names) ++ used).getLast?,
      u.Closes (env.boundCommand r c b).arguments (.prepend sep.toList b.cursor.tokens)
        (env.boundCommand r c b).span.stop := by
    intro u hu
    refine closes_boundCommand (BindEnv.finish_complete rfl hf').1 hspan (List.cons_ne_nil _ _) ?_
      hafter ?_ (fun hnil => hposition ▸ hempty hnil) hcloses hu
    · refine hplaced'.sublist ((List.Sublist.refl _).append ?_)
      rw [htok, Tokens.toList_prepend, List.append_assoc]
      exact List.sublist_append_left _ _
    · intro w hw
      refine hstop w ?_
      rw [htokens]
      simp [hw]
  -- the last token of the command is the last of the line if nothing is behind it
  have hlastOf : ∀ u ∈ ((t :: names) ++ used).getLast?, line.getLast? = some u ↔
      (Tokens.prepend sep.toList b.cursor.tokens).toList = [] := by
    intro u hu
    obtain ⟨front, hfront⟩ := List.getLast?_eq_some_iff.mp hu
    have hwhole : line = (before ++ front) ++ u ::
        (Tokens.prepend sep.toList b.cursor.tokens).toList := by
      rw [htokens, hfront]
      simp
    rw [hwhole] at hplaced ⊢
    exact hplaced.getLast?_eq_some_iff
  refine ⟨⟨t :: names, used⟩, sep, hsep, ?_, ?_, ⟨hnames, ?_, ⟨c, hget, ?_⟩, ?_, ?_, ?_⟩⟩
  · intro u hu
    rcases List.mem_append.mp hu with hu | hu
    · exact Token.isSeparator_of_isValue (hnames.all_isValue u hu)
    · exact hused u hu
  · rw [hrest, htok]
    simp
  · intro u hu
    obtain ⟨us, rfl⟩ := List.head?_eq_some_iff.mp hu
    exact hlast u _ htok
  · intro u hu v hk
    simp only [boundCommand, hstate]
    exact hA.existsUnique_place rfl hplacedUsed hu hk
  · intro u hu
    obtain rfl : t = u := Option.some.inj hu
    exact (congrArg Span.start hspan).trans hplacedNames.coverAll_start
  · intro u hu hnot
    by_cases hl : u.Listed (env.boundCommand r c b).arguments
    · have hmore : ¬ (Tokens.prepend sep.toList b.cursor.tokens).toList = [] :=
        fun hnil => hnot ⟨hl, (hlastOf u hu).mpr hnil⟩
      rw [(hcloses' u hu).1 hl, hafter.stopBehind_more hmore]
    · exact (hcloses' u hu).2 hl
  · intro u hu hl hlast
    rw [(hcloses' u hu).1 hl, hafter.stopBehind_last ((hlastOf u hu).mp hlast)]

/-! ### A whole line -/

/-- A line that parses ends somewhere. -/
theorem parseCommands_endsAt (ts : Tokens) : ∀ {cmds : List BoundCommand},
    env.parseCommands ts = .ok cmds → ∃ stop, ts.EndsAt stop := by
  fun_induction env.parseCommands ts with
  | case1 stop => exact fun _ => ⟨stop, rfl⟩
  | case2 => intro _ h; cases h
  | case3 t rest _ ih => exact fun h => ih h
  | case4 => intro _ h; cases h
  | case5 => intro _ h; cases h
  | case6 t rest _ r c b hb _ ih =>
    intro _ h
    obtain ⟨more, hmore, -⟩ := exists_of_map_eq_ok h
    obtain ⟨stop, hstop⟩ := ih hmore
    obtain ⟨names, used, sep, -, -, -, hrest, -⟩ :=
      bindCommand_tokens (P := fun _ => True) hb fun _ _ _ => trivial
    refine ⟨stop, show rest.EndsAt stop from ?_⟩
    rw [hrest, Tokens.endsAt_prepend]
    exact hstop

/-- **The spans of a line's commands are those of their tokens.** -/
theorem parseCommands_extends {line : List Token} {stop : Nat} (hplaced : TokensPlaced line)
    (hstop : ∀ u ∈ line, u.span.stop ≤ stop) (ts : Tokens) : ∀ before : List Token,
    line = before ++ ts.toList → ts.EndsAt stop → ∀ {cmds : List BoundCommand},
      env.parseCommands ts = .ok cmds → ∃ segments : List Segment,
        ts.toList.filter (fun t => !t.isSeparator) =
          segments.flatMap (fun s => s.names ++ s.arguments) ∧
        List.Forall₂ (Segment.Extends env line stop) segments cmds := by
  fun_induction env.parseCommands ts with
  | case1 =>
    intro _ _ _ cmds h
    cases h
    exact ⟨[], rfl, .nil⟩
  | case2 => intro _ _ _ cmds h; cases h
  | case3 t rest ht ih =>
    intro before hline hend cmds h
    obtain ⟨segments, hseg, hall⟩ := ih (before ++ [t]) (by simp [hline]) hend h
    refine ⟨segments, ?_, hall⟩
    rw [Tokens.toList_more, List.filter_cons_of_neg (by simp [ht]), hseg]
  | case4 => intro _ _ _ cmds h; cases h
  | case5 => intro _ _ _ cmds h; cases h
  | case6 t rest ht r c b hb _ ih =>
    intro before hline hend cmds h
    obtain ⟨more, hmore, rfl⟩ := exists_of_map_eq_ok h
    obtain ⟨s, sep, hsep, hn, htokens, hs⟩ := bindCommand_extends hline hplaced hstop hend hb
    rw [htokens] at hline hend ⊢
    rw [Tokens.toList_prepend] at hline ⊢
    obtain ⟨segments, hseg, hall⟩ := ih
      (before ++ (s.names ++ s.arguments ++ sep.toList)) (by simp [hline])
      (Tokens.endsAt_prepend.mp hend) hmore
    have hkeep : (s.names ++ s.arguments).filter (fun t => !t.isSeparator) =
        s.names ++ s.arguments :=
      List.filter_eq_self.mpr fun u hu => by simp [hn u hu]
    have hdrop : sep.toList.filter (fun t => !t.isSeparator) = [] :=
      List.filter_eq_nil_iff.mpr fun u hu => by simp [hsep u (Option.mem_toList.mp hu)]
    refine ⟨s :: segments, ?_, .cons hs hall⟩
    rw [List.filter_append, List.filter_append, hkeep, hdrop, hseg, List.append_nil,
      List.flatMap_cons]

/-- Commands whose tokens follow each other have spans that follow each other. -/
theorem pairwise_spans {line : List Token} {stop : Nat} (hplaced : TokensPlaced line) :
    ∀ {segments : List Segment} {cmds : List BoundCommand},
      List.Forall₂ (Segment.Extends env line stop) segments cmds →
      (segments.flatMap fun s => s.names ++ s.arguments).Sublist line →
        cmds.Pairwise fun c d => c.span.stop ≤ d.span.start
  | _, _, .nil, _ => .nil
  | s :: segments, c :: cmds, .cons hs hall, hsub => by
    rw [List.flatMap_cons] at hsub
    refine .cons (fun d hd => ?_)
      (pairwise_spans hplaced hall ((List.sublist_append_right _ _).trans hsub))
    obtain ⟨s', hs', hd'⟩ : ∃ s' ∈ segments, s'.Extends env line stop d := by
      obtain ⟨i, hi, rfl⟩ := List.getElem_of_mem hd
      have hlength := hall.length_eq
      exact ⟨segments[i], List.getElem_mem _, hall.get (hlength ▸ hi) hi⟩
    obtain ⟨first, names, root, hnames, -, -⟩ := hd'.names
    have hmem : first ∈ segments.flatMap fun s => s.names ++ s.arguments :=
      List.mem_flatMap.mpr ⟨s', hs', by simp [hnames]⟩
    -- the last token of the first command is not the last of the line
    obtain ⟨u, us, root', hnames', -, -⟩ := hs.names
    obtain ⟨before, last, hlast⟩ :=
      (List.eq_nil_or_concat' (s.names ++ s.arguments)).resolve_left (by simp [hnames'])
    have hpair := (List.pairwise_append.mp (hplaced.2.sublist hsub)).2.2 last
      (by simp [hlast]) first hmem
    have hin : first ∈ line := hsub.subset (List.mem_append_right _ hmem)
    have hnot : line.getLast? ≠ some last := by
      intro hend
      have hle := hplaced.le_of_getLast? hend hin
      have hlt := (hplaced.1 first hin).1
      omega
    have hstop : c.span.stop = last.span.stop :=
      hs.last last (by simp [hlast]) fun h => hnot h.2
    have hstart : d.span.start = first.span.start := hd'.first first (by simp [hnames])
    rw [hstop, hstart]
    exact hpair

end LineEnv

namespace CommandParser

/-- **The span of a command is that of its tokens, up to the end of the line.** The tokens of a
line that parses are cut into one segment for each command; the span of the command begins at the
first token of its segment and ends behind the last one, and no two spans overlap. There is one
exception: where the last token of the line is an item of a bound list, the span of the last
command ends where the line ends. -/
theorem parse_extents {p : CommandParser} {context : ParseContext} {text : String}
    {cmds : List BoundCommand} (h : p.parse context text = .ok cmds) :
    (∃ segments : List Segment,
      (p.config.tokensOf text).toList.filter (fun t => !t.isSeparator) =
        segments.flatMap (fun s => s.names ++ s.arguments) ∧
      List.Forall₂ (Segment.Extends (p.lineEnv context text) (p.config.tokensOf text).toList
        (textLength text)) segments cmds) ∧
    cmds.Pairwise fun c d => c.span.stop ≤ d.span.start := by
  have hplaced := tokensPlaced_tokensOf p.config text
  have htile : (p.config.tokensOf text).Tile 0 text.toList :=
    Tokens.ofCursor_tile p.config.tokenRules (.start text)
  obtain ⟨stop, hend⟩ := LineEnv.parseCommands_endsAt _ h
  have hstop : stop = textLength text := (htile.endsAt hend).trans (Nat.zero_add _)
  have hle : ∀ u ∈ (p.config.tokensOf text).toList, u.span.stop ≤ textLength text := by
    intro u hu
    obtain ⟨before, after, hts⟩ := List.append_of_mem hu
    obtain ⟨pre, post, -, htext, hstart, hstop⟩ := htile.written hts
    rw [textLength, htext, byteLength_append, byteLength_append, hstop, hstart]
    omega
  obtain ⟨segments, hseg, hall⟩ := LineEnv.parseCommands_extends hplaced hle
    (p.config.tokensOf text) [] rfl (hstop ▸ hend) h
  refine ⟨⟨segments, hseg, hall⟩, LineEnv.pairwise_spans hplaced hall ?_⟩
  rw [← hseg]
  exact List.filter_sublist

/-- Three commands, of which the last ends in a run, with blanks behind it. -/
theorem parse_extents_say :
    let line := "fetch -n 4 u & rm -rf x &  say a b  "
    ∃ cmds, Demo.fixedParser.parse .empty line = .ok cmds ∧
      cmds.map (·.span) = [⟨0, 12⟩, ⟨15, 23⟩, ⟨27, 36⟩] ∧
      (∃ segments : List Segment,
        (Demo.fixedParser.config.tokensOf line).toList.filter (fun t => !t.isSeparator) =
          segments.flatMap (fun s => s.names ++ s.arguments) ∧
        List.Forall₂ (Segment.Extends (Demo.fixedParser.lineEnv .empty line)
          (Demo.fixedParser.config.tokensOf line).toList (textLength line)) segments cmds) ∧
      cmds.Pairwise fun c d => c.span.stop ≤ d.span.start := by
  intro line
  have hspans : (Demo.fixedParser.parse .empty line).toOption.map (·.map (·.span)) =
      some [⟨0, 12⟩, ⟨15, 23⟩, ⟨27, 36⟩] := by decide +kernel
  obtain ⟨cmds, hcmds, hspans⟩ := Option.map_eq_some_iff.mp hspans
  have hparse := Except.eq_ok_of_toOption hcmds
  exact ⟨cmds, hparse, hspans, parse_extents hparse⟩

/-- The command goes on behind its last token, up to the end of the line. -/
theorem parse_extents_overrun :
    let line := "say a  "
    ∃ c, Demo.fixedParser.parse .empty line = .ok [c] ∧ c.span = ⟨0, 7⟩ ∧
      (∃ t ∈ (Demo.fixedParser.config.tokensOf line).toList.getLast?, t.span = ⟨4, 5⟩) ∧
      ∀ t ∈ (Demo.fixedParser.config.tokensOf line).toList, t.span.stop ≠ c.span.stop := by
  intro line
  have hspans : (Demo.fixedParser.parse .empty line).toOption.map (·.map (·.span)) =
      some [⟨0, 7⟩] := by decide +kernel
  have htokens : (Demo.fixedParser.config.tokensOf line).toList.map (·.span) =
      [⟨0, 3⟩, ⟨4, 5⟩] := by decide +kernel
  obtain ⟨c, hparse, hc⟩ := Except.exists_only hspans
  obtain ⟨say, word, hts, hsay, hword⟩ := List.map_eq_cons_iff.mp htokens
  obtain ⟨a, rest, rfl, ha, hrest⟩ := List.map_eq_cons_iff.mp hword
  obtain rfl : rest = [] := List.map_eq_nil_iff.mp hrest
  rw [hts]
  refine ⟨c, hparse, hc, ⟨a, rfl, ha⟩, ?_⟩
  simp [hsay, ha, hc]

end CommandParser
end CommandConsole
