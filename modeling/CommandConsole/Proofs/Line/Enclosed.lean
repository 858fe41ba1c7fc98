/-
# Bound inputs point at what was typed

The input of every bound argument stands in the span of its command, and every
list and map in it encloses its parts: flags stand where their token is, runs
where their values are, and defaults at the end of the command.

There is one exception. A vararg to which an empty list is assigned has an input
that stands at offset 0, and so in front of its command, unless the command is
the first thing in the line.

Key definition: `BoundCommand.Detaches`.
Key theorems: `Segment.Extends.encloses`, `LineEnv.bindCommand_encloses`,
`CommandParser.parse_encloses`.
-/
import CommandConsole.Proofs.Binding.Enclosed
import CommandConsole.Proofs.Line.Extent

namespace CommandConsole

/-! ### The tokens of a command -/

/-- What ends a command does not stand in front of its last token. -/
theorem Token.Closes.stop_le {t : Token} {bound : List BoundArgument} {ts : Tokens} {n stop : Nat}
    (h : t.Closes bound ts n) (hend : ts.EndsAt stop) (hle : t.span.stop ≤ stop) :
    t.span.stop ≤ n := by
  by_cases hl : t.Listed bound
  · rw [h.1 hl]
    by_cases hnil : ts.toList = []
    · rwa [hend.stopBehind_last hnil]
    · exact Nat.le_of_eq (hend.stopBehind_more hnil).symm
  · exact Nat.le_of_eq (h.2 hl).symm

/-- The span of a command encloses the tokens of its segment. -/
theorem Segment.Extends.encloses {env : LineEnv} {line : List Token} {stop : Nat} {s : Segment}
    {c : BoundCommand} (h : s.Extends env line stop c)
    (hplaced : TokensPlaced (s.names ++ s.arguments))
    (hstop : ∀ u ∈ s.names ++ s.arguments, u.span.stop ≤ stop) :
    ∀ u ∈ s.names ++ s.arguments, c.span.Encloses u.span := by
  obtain ⟨first, more, -, hnames, -, -⟩ := h.names
  obtain ⟨before, last, hlast⟩ :=
    (List.eq_nil_or_concat' (s.names ++ s.arguments)).resolve_left (by simp [hnames])
  have hstart : c.span.start = first.span.start := h.first first (by simp [hnames])
  have hend : last.span.stop ≤ c.span.stop := by
    have hmem : last ∈ (s.names ++ s.arguments).getLast? := by simp [hlast]
    by_cases hover : last.Listed c.arguments ∧ line.getLast? = some last
    · rw [h.overrun last hmem hover.1 hover.2]
      exact hstop last (by simp [hlast])
    · exact Nat.le_of_eq (h.last last hmem hover).symm
  intro u hu
  refine ⟨?_, Nat.le_trans (hplaced.le_of_getLast? (by simp [hlast]) hu) hend⟩
  rw [hnames, List.cons_append] at hplaced hu
  rw [hstart]
  rcases List.mem_cons.mp hu with rfl | hu
  · exact Nat.le_refl _
  · have hlt := (hplaced.1 first List.mem_cons_self).1
    have hle := (List.pairwise_cons.mp hplaced.2).1 u hu
    omega

/-! ### One command -/

/-- The bound argument stands at offset 0, in front of the command: it is a vararg to which a token
of the command assigns an empty list. -/
def BoundCommand.Detaches (env : LineEnv) (line : List Token) (c : BoundCommand)
    (b : BoundArgument) : Prop :=
  0 < c.span.start ∧ b.input = .list [] ⟨0, 0⟩ ∧
    ∃ declared a, env.registry.get? c.id = some declared ∧ declared.arguments.Supplies a ∧
      a.id = b.id ∧ a.multiplicity = .vararg ∧
        ∃ t ∈ line, c.span.Encloses t.span ∧
          ∃ name ∈ env.registry.argumentNames env.context.localizer c.id a, ∃ span,
            t.kind = .named name (some (.list [] span))

theorem BoundCommand.Detaches.not_encloses {env : LineEnv} {line : List Token} {c : BoundCommand}
    {b : BoundArgument} (h : c.Detaches env line b) : ¬ c.span.Encloses b.input.span := by
  obtain ⟨hpos, hinput, -⟩ := h
  rw [hinput]
  exact fun hin => Nat.not_le_of_lt hpos hin.1

namespace BindEnv

variable {env : BindEnv} {P : Argument → Prop} {c : TokenCursor} {b : Binding}

/-- A default is no list. -/
theorem bind_empties (hO : env.Offers P) (hplaced : ∀ u ∈ c.tokens.toList, u.Placed)
    (h : env.bind c = .ok b) : ∃ used sep, b.Ends c used sep ∧
      ∀ d ∈ b.state.bound, d.input = listOfRun [] → env.Empties P used d := by
  unfold bind at h
  split at h
  · cases h
  · rename_i q hq
    obtain ⟨s, hs, rfl⟩ := exists_of_map_eq_ok h
    have hstart : ∀ d ∈ (BindState.start c.position).bound, d.input = listOfRun [] →
        env.Empties P [] d := fun d hd => by cases hd
    obtain ⟨used, sep, hends, hempties⟩ := bindTokens_empties hO hq hplaced hstart
    refine ⟨used, sep, hends, ?_⟩
    unfold finish at hs
    split at hs
    · cases hs
      simpa using hempties
    · split at hs
      · cases hs
      · cases hs
        intro d hd hnil
        rcases List.mem_append.mp hd with hd | hd
        · simpa using hempties d hd hnil
        · obtain ⟨a, -, ha⟩ := List.mem_filterMap.mp hd
          obtain ⟨w, -, rfl⟩ := Option.map_eq_some_iff.mp ha
          cases hnil

end BindEnv

namespace LineEnv

variable {env : LineEnv} {t : Token} {rest : Tokens} {r : Resolved} {c : Command}
  {b : BindEnv.Binding}

/-- The tokens that a command binds are in its segment, since none of them is a separator. -/
theorem mem_of_ends {names used tokens : List Token} {sep last : Option Token}
    (hrest : rest = .prepend names r.cursor.tokens) (hends : b.Ends r.cursor used sep)
    (hused : ∀ u ∈ used, u.isSeparator = false)
    (htokens : Tokens.more t rest = .prepend (tokens ++ last.toList) b.cursor.tokens)
    (hlast : ∀ u ∈ last, u.isSeparator = true) : ∀ u ∈ used, u ∈ tokens := by
  intro u hu
  rw [hrest, hends.1, ← Tokens.prepend_append, ← Tokens.prepend_cons] at htokens
  have hmem : u ∈ tokens ++ last.toList := by
    rw [← Tokens.prepend_left_cancel htokens]
    simp [hu]
  refine (List.mem_append.mp hmem).resolve_right fun hsep => ?_
  have htrue := hlast u (Option.mem_toList.mp hsep)
  rw [hused u hu] at htrue
  cases htrue

/-- The span of a command encloses the tokens that it binds, and the place where it ends. -/
theorem bindCommand_covers {stop : Nat} {before line : List Token}
    (hline : line = before ++ (Tokens.more t rest).toList) (hplaced : TokensPlaced line)
    (hstop : ∀ u ∈ line, u.span.stop ≤ stop) (hend : rest.EndsAt stop)
    (h : env.bindCommand .complete t rest = .ok (r, c, b)) :
    ∃ used sep, b.Ends r.cursor used sep ∧
      (∀ u ∈ used, u ∈ line ∧ (env.boundCommand r c b).span.Encloses u.span) ∧
      (env.boundCommand r c b).span.start ≤ b.state.stop := by
  obtain ⟨seg, segSep, hsep, -, htokens, hextends⟩ :=
    bindCommand_extends hline hplaced hstop hend h
  obtain ⟨hres, -, hbind⟩ := bindCommand_eq_ok h
  obtain ⟨names, hrest, -, -⟩ := resolve_names hres
  obtain ⟨hspan, hposition⟩ := resolve_span hres hrest
  have hO := (env.bindEnv .complete r.id c).offers_supplies
  obtain ⟨-, used, sep, -, -, hends, hused, -, -⟩ := BindEnv.bind_accounts hO hbind
  have hplacedArgs : TokensPlaced r.cursor.tokens.toList := by
    refine ⟨fun u hu => hplaced.1 u ?_, hplaced.2.sublist ?_⟩
    · simp [hline, hrest, hu]
    · rw [hline, hrest, Tokens.toList_more, Tokens.toList_prepend, ← List.cons_append,
        ← List.append_assoc]
      exact List.sublist_append_right _ _
  obtain ⟨s, used', sep', hends', hf, hempty, hcloses⟩ :=
    BindEnv.bind_closes rfl hO hplacedArgs hbind
  obtain ⟨rfl, rfl⟩ := BindEnv.Binding.Ends.unique hends hends'
  have hsegment : (seg.names ++ seg.arguments).Sublist line := by
    rw [hline, htokens, Tokens.toList_prepend, List.append_assoc]
    exact (List.sublist_append_left _ _).trans (List.sublist_append_right _ _)
  have hcovers := hextends.encloses
    ⟨fun u hu => hplaced.1 u (hsegment.subset hu), hplaced.2.sublist hsegment⟩
    fun u hu => hstop u (hsegment.subset hu)
  have hin := mem_of_ends hrest hends hused htokens hsep
  refine ⟨used, sep, hends, fun u hu => ⟨hsegment.subset (hin u hu), hcovers u (hin u hu)⟩, ?_⟩
  rw [(BindEnv.finish_complete rfl hf).1]
  rcases List.eq_nil_or_concat' used with hnil | ⟨front, u, hlast⟩
  · have ht : t.Placed := hplaced.1 t (by simp [hline])
    have hname : r.span.Encloses t.span := hspan ▸ Span.coverAll_encloses _ List.mem_cons_self
    rw [hempty hnil, BindEnv.bindDefaults, BindState.start, hposition]
    exact Nat.le_trans hname.1 (Nat.le_trans (Nat.le_of_lt ht.1) hname.2)
  · have hu : u ∈ used := by simp [hlast]
    have hafter : Tokens.EndsAt stop (.prepend sep.toList b.cursor.tokens) := by
      rw [hrest, hends.1] at hend
      simpa using hend
    have hle := (hcloses front u hlast).stop_le hafter (hstop u (hsegment.subset (hin u hu)))
    have hlt := (hplaced.1 u (hsegment.subset (hin u hu))).1
    exact Nat.le_trans (hcovers u (hin u hu)).1 (Nat.le_trans (Nat.le_of_lt hlt) hle)

/-- **What a command binds stands in its span**, but for an empty list that is assigned to a
vararg. -/
theorem bindCommand_encloses {stop : Nat} {before line : List Token}
    (hline : line = before ++ (Tokens.more t rest).toList) (hplaced : TokensPlaced line)
    (hstop : ∀ u ∈ line, u.span.stop ≤ stop) (hend : rest.EndsAt stop)
    (h : env.bindCommand .complete t rest = .ok (r, c, b)) :
    ∀ d ∈ (env.boundCommand r c b).arguments, d.input.Enclosing ∧
      ((env.boundCommand r c b).span.Encloses d.input.span ∨
        (env.boundCommand r c b).Detaches env line d) := by
  obtain ⟨used, sep, hends, hcovers, hstart⟩ := bindCommand_covers hline hplaced hstop hend h
  obtain ⟨hres, hget, hbind⟩ := bindCommand_eq_ok h
  obtain ⟨names, hrest, -, -⟩ := resolve_names hres
  have hO := (env.bindEnv .complete r.id c).offers_supplies
  obtain ⟨s, used', sep', bundles, entries, hends', -, hA, hf⟩ := BindEnv.bind_accounts hO hbind
  obtain ⟨rfl, rfl⟩ := BindEnv.Binding.Ends.unique hends hends'
  have hplacedArgs : ∀ u ∈ r.cursor.tokens.toList, u.Placed :=
    fun u hu => hplaced.1 u (by simp [hline, hrest, hu])
  obtain ⟨used', sep', hends', hempties⟩ := BindEnv.bind_empties hO hplacedArgs hbind
  obtain ⟨rfl, rfl⟩ := BindEnv.Binding.Ends.unique hends hends'
  obtain ⟨hstate, -⟩ := BindEnv.finish_complete rfl hf
  have hused : ∀ u ∈ used, u.Placed := fun u hu => hplaced.1 u (hcovers u hu).1
  intro d hd
  have hbound : d ∈ s.bound ∨ ∃ w id, d = ⟨id, .empty (.point b.state.stop), w, .default⟩ := by
    have hd : d ∈ b.state.bound := hd
    rw [hstate] at hd ⊢
    refine (List.mem_append.mp hd).imp_right fun hdefault => ?_
    obtain ⟨a, -, ha⟩ := List.mem_filterMap.mp hdefault
    obtain ⟨w, -, rfl⟩ := Option.map_eq_some_iff.mp ha
    exact ⟨w, a.id, rfl⟩
  rcases hbound with hgiven | ⟨w, id, rfl⟩
  · rw [hA.ledger.bound] at hgiven
    obtain ⟨e, he, rfl⟩ := List.mem_map.mp hgiven
    obtain ⟨a, -, hg⟩ := hA.ledger.given e he
    refine ⟨hg.enclosing hused, ?_⟩
    by_cases hnil : e.1.input = listOfRun []
    · obtain ⟨a, hP, hid, hm, t, ht, name, hname, span, hk⟩ := hempties e.1 hd hnil
      rcases Nat.eq_zero_or_pos (env.boundCommand r c b).span.start with hzero | hpos
      · exact .inl (hnil ▸ ⟨Nat.le_of_eq hzero, Nat.zero_le _⟩)
      · exact .inr ⟨hpos, hnil, c, a, hget, hP, hid, hm, t, (hcovers t ht).1, (hcovers t ht).2,
          name, hname, span, hk⟩
    · exact .inl (hg.enclosed hused (fun u hu => (hcovers u hu).2) hnil)
  · exact ⟨Literal.enclosing_of_parts fun p hp => (by cases hp),
      .inl ⟨hstart, Nat.le_max_left _ _⟩⟩

end LineEnv

/-! ### A whole line -/

/-- No token goes on behind the end of its line. -/
theorem Tokens.Tile.stop_le {ts : Tokens} {text : String} (h : ts.Tile 0 text.toList) :
    ∀ u ∈ ts.toList, u.span.stop ≤ textLength text := by
  intro u hu
  obtain ⟨before, after, hts⟩ := List.append_of_mem hu
  obtain ⟨pre, post, -, htext, hstart, hstop⟩ := h.written hts
  rw [textLength, htext, byteLength_append, byteLength_append, hstop, hstart]
  omega

namespace CommandParser

/-- **Bound inputs point at what was typed.** In a line that parses, every list and map in the input
of a bound argument encloses its parts, and the input stands in the span of its command. The one
exception is a vararg to which an empty list is assigned: its input stands at offset 0, in front of
the command. -/
theorem parse_encloses {p : CommandParser} {context : ParseContext} {text : String}
    {cmds : List BoundCommand} (h : p.parse context text = .ok cmds) :
    ∀ c ∈ cmds, ∀ b ∈ c.arguments,
      (∀ n, b.input.Contains n → ∀ v ∈ n.parts, n.span.Encloses v.span) ∧
        (c.span.Encloses b.input.span ↔
          ¬ c.Detaches (p.lineEnv context text) (p.config.tokensOf text).toList b) := by
  have hplaced := tokensPlaced_tokensOf p.config text
  have htile : (p.config.tokensOf text).Tile 0 text.toList :=
    Tokens.ofCursor_tile p.config.tokenRules (.start text)
  obtain ⟨stop, hend⟩ := LineEnv.parseCommands_endsAt _ h
  obtain rfl : stop = textLength text := (htile.endsAt hend).trans (Nat.zero_add _)
  intro c hc b hb
  obtain ⟨before, t, rest, r, declared, binding, hts, hbind, -, rfl⟩ :=
    LineEnv.exists_of_mem_parseCommands _ h hc
  have hline : (p.config.tokensOf text).toList = before ++ (Tokens.more t rest).toList := by
    rw [hts, Tokens.toList_prepend]
  have hrest : rest.EndsAt (textLength text) := by
    rw [hts, Tokens.endsAt_prepend] at hend
    exact hend
  obtain ⟨henclosing, hencloses⟩ :=
    LineEnv.bindCommand_encloses hline hplaced htile.stop_le hrest hbind b hb
  exact ⟨henclosing, fun hin hdetaches => hdetaches.not_encloses hin, hencloses.resolve_right⟩

/-- An assigned value, a bundle of flags with a default behind it, and a run. -/
theorem parse_encloses_say :
    let line := "fetch --retries=4 u & rm -r x &  say a b"
    ∃ cmds, Demo.fixedParser.parse .empty line = .ok cmds ∧
      cmds.map (·.span) = [⟨0, 19⟩, ⟨22, 29⟩, ⟨33, 40⟩] ∧
      cmds.map (fun c => c.arguments.map (·.input.span)) =
        [[⟨16, 17⟩, ⟨18, 19⟩], [⟨25, 27⟩, ⟨28, 29⟩, ⟨29, 29⟩], [⟨37, 40⟩]] ∧
      ∀ c ∈ cmds, ∀ b ∈ c.arguments,
        (∀ n, b.input.Contains n → ∀ v ∈ n.parts, n.span.Encloses v.span) ∧
          (c.span.Encloses b.input.span ↔
            ¬ c.Detaches (Demo.fixedParser.lineEnv .empty line)
              (Demo.fixedParser.config.tokensOf line).toList b) := by
  intro line
  have hspans : (Demo.fixedParser.parse .empty line).toOption.map (fun cmds =>
      (cmds.map (·.span), cmds.map fun c => c.arguments.map (·.input.span))) =
      some ([⟨0, 19⟩, ⟨22, 29⟩, ⟨33, 40⟩],
        [[⟨16, 17⟩, ⟨18, 19⟩], [⟨25, 27⟩, ⟨28, 29⟩, ⟨29, 29⟩], [⟨37, 40⟩]]) := by decide +kernel
  obtain ⟨cmds, hcmds, hspans⟩ := Option.map_eq_some_iff.mp hspans
  have hparse := Except.eq_ok_of_toOption hcmds
  obtain ⟨hcommands, hinputs⟩ := Prod.mk.inj hspans
  exact ⟨cmds, hparse, hcommands, hinputs, parse_encloses hparse⟩

/-- An empty list that is assigned to a vararg leaves its command. -/
theorem parse_encloses_nothing :
    ∃ c b, Demo.fixedParser.parse .empty " say --words=[]" = .ok [c] ∧ b ∈ c.arguments ∧
      c.span = ⟨1, 15⟩ ∧ b.input.span = ⟨0, 0⟩ ∧ ¬ c.span.Encloses b.input.span := by
  have hspans : (Demo.fixedParser.parse .empty " say --words=[]").toOption.map (fun cmds =>
      cmds.map fun c => (c.span, c.arguments.map (·.input.span))) =
      some [(⟨1, 15⟩, [⟨0, 0⟩])] := by decide +kernel
  obtain ⟨c, hparse, hdata⟩ := Except.exists_only hspans
  obtain ⟨hspan, hinputs⟩ := Prod.mk.inj hdata
  obtain ⟨b, bs, hbound, hb, -⟩ := List.map_eq_cons_iff.mp hinputs
  refine ⟨c, b, hparse, by simp [hbound], hspan, hb, ?_⟩
  rw [hspan, hb]
  decide

end CommandParser
end CommandConsole
