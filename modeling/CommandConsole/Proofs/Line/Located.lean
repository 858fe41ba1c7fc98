/-
# What a line gives points into the line

The span of a command covers the tokens that name it and the last token that
belongs to it. It lies in the line, and so do the inputs of its arguments. If the
line gives no commands, the failure shows a part of it.

Key definition: `BoundCommand.LiesIn`.
Key theorems: `LineEnv.resolve_located`, `LineEnv.parseCommands_located`,
`LineEnv.openCommand_located`, `CommandParser.spans_lieIn`.
-/
import CommandConsole.Proofs.Binding.Located
import CommandConsole.Proofs.Line.Chain
import CommandConsole.Proofs.Line.Truncation
import CommandConsole.Proofs.Line.Values

namespace CommandConsole

structure Resolved.LiesIn (text : String) (r : Resolved) : Prop where
  span : r.span.LiesIn text
  cursor : r.cursor.LiesIn text

structure BoundCommand.LiesIn (text : String) (c : BoundCommand) : Prop where
  span : c.span.LiesIn text
  inputs : ∀ b ∈ c.arguments, b.input.LiesIn text

/-- The inputs that a state holds lie in the text. -/
def LineState.LiesIn (text : String) : LineState → Prop
  | .root => True
  | .inCommand _ bound _ => ∀ b ∈ bound, b.input.LiesIn text

namespace LineEnv

variable {env : LineEnv} {t : Token} {rest : Tokens}

theorem fail_pointsInto (kind : FailKind) {span : Span} (h : span.LiesIn env.text) :
    (env.fail kind span).PointsInto env.text := ⟨rfl, h⟩

theorem descend_located : ∀ {id : CommandId} {span : Span} {ts : Tokens},
    span.LiesIn env.text → ts.LieIn env.text →
      Located env.text (Resolved.LiesIn env.text) (env.descend id span ts)
  | id, span, .more t rest, hspan, hts => by
    unfold descend
    split
    · exact .ok ⟨hspan, hspan.stop_isBoundary, hts⟩
    · exact descend_located (hspan.cover hts.1.span) hts.2
    · exact .error (fail_pointsInto _ hts.1.span)
  | id, span, .finished stop, hspan, hts => .ok ⟨hspan, hspan.stop_isBoundary, hts⟩
  | id, span, .broken start f, hspan, hts => .ok ⟨hspan, hspan.stop_isBoundary, hts⟩

/-- **The tokens that name a command lie in the line.** -/
theorem resolve_located (ht : t.LiesIn env.text) (hrest : rest.LieIn env.text) :
    Located env.text (Resolved.LiesIn env.text) (env.resolve t rest) := by
  unfold resolve
  split
  · exact .error (fail_pointsInto _ ht.span)
  · exact descend_located ht.span hrest
  · exact .error (fail_pointsInto _ ht.span)

theorem bindCommand_located (mode : BindMode) (ht : t.LiesIn env.text)
    (hrest : rest.LieIn env.text) :
    Located env.text (fun b : Resolved × Command × BindEnv.Binding =>
      b.1.LiesIn env.text ∧ b.2.2.LiesIn env.text) (env.bindCommand mode t rest) := by
  have hresolve := resolve_located ht hrest
  unfold bindCommand
  split
  · rename_i hf
    exact .error (hresolve.of_error hf)
  · rename_i r hr
    have hr := hresolve.of_ok hr
    split
    · exact .error (fail_pointsInto _ ht.span)
    · rename_i c _
      have hbind := BindEnv.bind_located (env.bindEnv mode r.id c) hr.cursor
      exact hbind.map fun b hb => ⟨hr, hb⟩

/-- What is missing is required by the command or by one of the inputs. -/
theorem gate?_liesIn {c : Command} {nameSpan : Span} {bound : List BoundArgument}
    (hname : nameSpan.LiesIn env.text) (hbound : ∀ b ∈ bound, b.input.LiesIn env.text) :
    ∀ g ∈ env.gate? c nameSpan bound, g.2.LiesIn env.text := by
  intro g hg
  unfold gate? at hg
  split at hg
  · cases hg
    exact hname
  · split at hg
    · cases hg
      exact hname
    · obtain ⟨b, hb, hgate⟩ := List.exists_of_findSome?_eq_some hg
      unfold argumentGate? at hgate
      split at hgate
      · cases hgate
      · obtain ⟨a, -, hrequires⟩ := Option.bind_eq_some_iff.mp hgate
        obtain ⟨r, -, rfl⟩ := Option.map_eq_some_iff.mp hrequires
        exact (hbound b hb).span

theorem checkGate_located {r : Resolved} {c : Command} {bound : List BoundArgument}
    (hr : r.LiesIn env.text) (hbound : ∀ b ∈ bound, b.input.LiesIn env.text) :
    Located env.text (fun _ => True) (env.checkGate r c bound) := by
  unfold checkGate
  split
  · rename_i hg
    exact .error (fail_pointsInto _ (gate?_liesIn hr.span hbound _ hg))
  · exact .ok trivial

/-- The span of a command goes from its name to its last token. -/
theorem boundCommand_liesIn {r : Resolved} {c : Command} {b : BindEnv.Binding} (hr : r.LiesIn env.text)
    (hb : b.LiesIn env.text) : (env.boundCommand r c b).LiesIn env.text := by
  have hstop : (Span.point b.state.stop).LiesIn env.text := .point hb.state.stop
  refine ⟨.of_boundaries ?_ hr.span.start_isBoundary ?_, hb.state.bound⟩
  · exact Nat.le_trans hr.span.ordered (Nat.le_max_right _ _)
  · rw [Nat.max_comm]
    exact (hr.span.cover hstop).stop_isBoundary

/-- **The commands of a line lie in it**, or the failure points into it. -/
theorem parseCommands_located (env : LineEnv) (ts : Tokens) (hts : ts.LieIn env.text) :
    Located env.text (fun cmds : List BoundCommand => ∀ c ∈ cmds, c.LiesIn env.text)
      (env.parseCommands ts) := by
  fun_induction parseCommands env ts with
  | case1 => exact .ok fun _ h => absurd h List.not_mem_nil
  | case2 start f => exact .error (.ofLiteral hts)
  | case3 t rest _ ih => exact ih hts.2
  | case4 t rest _ f hf => exact .error ((bindCommand_located .complete hts.1 hts.2).of_error hf)
  | case5 t rest _ r c b hb f hf =>
    obtain ⟨hr, hb⟩ := (bindCommand_located .complete hts.1 hts.2).of_ok hb
    exact .error ((checkGate_located hr hb.state.bound).of_error hf)
  | case6 t rest _ r c b hb _ ih =>
    obtain ⟨hr, hb⟩ := (bindCommand_located .complete hts.1 hts.2).of_ok hb
    exact (ih hb.cursor.tokens).map fun cmds hcmds =>
      List.forall_mem_cons.mpr ⟨boundCommand_liesIn hr hb, hcmds⟩

theorem stateAfter_liesIn {r : Resolved} {b : BindEnv.Binding} (hb : b.LiesIn env.text) :
    (stateAfter r b).LiesIn env.text := by
  unfold stateAfter
  split
  · trivial
  · exact hb.state.bound

/-- **So does what is open at the end of a partial line.** -/
theorem openCommand_located (env : LineEnv) (state : LineState) (ts : Tokens) (hstate : state.LiesIn env.text)
    (hts : ts.LieIn env.text) :
    Located env.text (LineState.LiesIn env.text) (env.openCommand state ts) := by
  fun_induction openCommand env state ts with
  | case1 => exact .ok hstate
  | case2 => exact .error (.ofLiteral hts)
  | case3 state t rest _ ih => exact ih trivial hts.2
  | case4 state t rest _ f hf =>
    exact .error ((bindCommand_located .partialLine hts.1 hts.2).of_error hf)
  | case5 state t rest _ r c b hb ih =>
    obtain ⟨-, hb⟩ := (bindCommand_located .partialLine hts.1 hts.2).of_ok hb
    exact ih (stateAfter_liesIn hb) hb.cursor.tokens

end LineEnv

/-- A failure that points into a text shows the characters that its span covers. -/
theorem ParseFail.PointsInto.shows {text : String} {f : ParseFail} (h : f.PointsInto text) :
    ∃ before source after, text.toList = before ++ (source ++ after) ∧
      f.span = ⟨byteLength before, byteLength (before ++ source)⟩ ∧
      f.excerpt.snippet = String.ofList source := by
  have htext := h.text_eq
  have hspan : f.excerpt.span.LiesIn f.excerpt.text := by
    rw [htext]
    exact h.span
  obtain ⟨before, source, after, hsource, hcovers, hsnippet⟩ := Excerpt.snippet_of_liesIn hspan
  exact ⟨before, source, after, htext ▸ hsource, hcovers, hsnippet⟩

namespace CommandParser

variable (p : CommandParser) (context : ParseContext) (text : String)

theorem parse_located : Located text (fun cmds : List BoundCommand => ∀ c ∈ cmds, c.LiesIn text)
    (p.parse context text) :=
  LineEnv.parseCommands_located (p.lineEnv context text) _ (Tokens.ofText_lieIn _ text)

theorem parsePartial_located : Located text (LineState.LiesIn text)
    (p.parsePartial context text) :=
  LineEnv.openCommand_located (p.lineEnv context text) .root _ trivial
    (Tokens.ofText_lieIn _ text)

theorem parseLiteral_located : Located text (Literal.LiesIn text) (p.parseLiteral text) := by
  unfold parseLiteral
  cases h : CommandConsole.parseLiteral p.config.maxDepth text with
  | ok v => exact .ok (parseLiteral_liesIn h)
  | error f => exact .error (.ofLiteral (parseLiteral_error_isBoundary h))

/-- **Every span is a part of the text.** A failure of a line, of a partial line or of a literal
has a span that begins and ends between two characters of the text, in this order, and its snippet
is the source there. The commands that a line gives lie in it, with every node of their inputs; so
do the inputs of the command that is open at the end of a partial line. -/
theorem spans_lieIn :
    (∀ f, p.parse context text = .error f ∨ p.parsePartial context text = .error f ∨
        p.parseLiteral text = .error f →
      f.excerpt.text = text ∧ f.span.LiesIn text ∧
      ∃ before source after, text.toList = before ++ (source ++ after) ∧
        f.span = ⟨byteLength before, byteLength (before ++ source)⟩ ∧
        f.excerpt.snippet = String.ofList source) ∧
    (∀ cmds, p.parse context text = .ok cmds → ∀ c ∈ cmds,
      c.span.LiesIn text ∧ ∀ b ∈ c.arguments, ∀ n, b.input.Contains n → n.span.LiesIn text) ∧
    ∀ id bound pending, p.parsePartial context text = .ok (.inCommand id bound pending) →
      ∀ b ∈ bound, ∀ n, b.input.Contains n → n.span.LiesIn text := by
  refine ⟨fun f hf => ?_, fun cmds h c hc => ?_, fun id bound pending h => ?_⟩
  · have hpoints : f.PointsInto text := by
      rcases hf with hf | hf | hf
      · exact (p.parse_located context text).of_error hf
      · exact (p.parsePartial_located context text).of_error hf
      · exact (p.parseLiteral_located text).of_error hf
    exact ⟨hpoints.text_eq, hpoints.span, hpoints.shows⟩
  · have hlies := (p.parse_located context text).of_ok h c hc
    exact ⟨hlies.span, hlies.inputs⟩
  · exact (p.parsePartial_located context text).of_ok h

/-- A name that no argument has, behind a character of two bytes and with one in it. -/
theorem spans_lieIn_cp :
    let text := "cp ü --é"
    ∃ f, (Demo.parserOf Demo.copy).parse .empty text = .error f ∧ f.span = ⟨6, 10⟩ ∧
      f.excerpt.snippet = "--é" ∧ f.span.LiesIn text := by
  intro text
  have hfailure : (failureOf? ((Demo.parserOf Demo.copy).parse .empty text)).map
      (fun f => (f.span, f.excerpt.snippet)) = some (⟨6, 10⟩, "--é") := by
    decide +kernel
  obtain ⟨f, hf, hdata⟩ := Option.map_eq_some_iff.mp hfailure
  obtain ⟨hspan, hsnippet⟩ := Prod.mk.inj hdata
  have hparse := failureOf?_eq_some hf
  obtain ⟨hfailures, -⟩ := (Demo.parserOf Demo.copy).spans_lieIn .empty text
  exact ⟨f, hparse, hspan, hsnippet, (hfailures f (.inl hparse)).2.1⟩

end CommandParser
end CommandConsole
