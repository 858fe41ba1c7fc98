/-
# Lines that call a command

A line may be made of the full name of a command and further texts. The words
of the name are read as tokens of their own if each of them can be typed in
front of what follows; then they lead to the command, or localized names make
one of them mean several commands. Which of the two it is does not depend on
what follows, and a command without sub-commands takes all of it.

Key definitions: `TokenText`, `TypableBefore`, `LineEnv.Stuck`.
Key theorems: `Tokens.ofText_called`, `LineEnv.names_or_stuck`, `LineEnv.parseCommands_called`.
-/
import CommandConsole.Proofs.Line.Chain
import CommandConsole.Proofs.Line.Declared
import CommandConsole.Proofs.Line.Reprint

namespace CommandConsole

/-! ### Tokens -/

/-- A text, and what the token that it is read as has to say. -/
structure TokenText where
  text : String
  Says : Token → Prop

/-- Each of the words can be typed in front of the next ones, and of the texts behind them. -/
def TypableBefore (rules : TokenRules) (texts : List String) : List String → Prop
  | [] => True
  | w :: ws => Typable rules (joinedBehind (ws ++ texts)) w ∧ TypableBefore rules texts ws

instance decidableTypableBefore (rules : TokenRules) (texts : List String) :
    ∀ words, Decidable (TypableBefore rules texts words)
  | [] => isTrue trivial
  | _ :: ws =>
    have : Decidable (TypableBefore rules texts ws) := decidableTypableBefore rules texts ws
    inferInstanceAs (Decidable (_ ∧ _))

theorem typableBefore_of_plain {rules : TokenRules} {texts : List String} : ∀ {words : List String},
    (∀ w ∈ words, rules.Plain w) → TypableBefore rules texts words
  | [], _ => trivial
  | _ :: _, h =>
    let ⟨hw, hws⟩ := List.forall_mem_cons.mp h
    ⟨hw.typable _, typableBefore_of_plain hws⟩

theorem Token.Spells.isSeparator {w : String} {t : Token} (h : t.Spells w) : t.isSeparator = false :=
  let ⟨_, hk⟩ := Token.kind_of_word? h.word
  Token.isSeparator_of_isValue (Token.isValue_of_kind hk)

theorem BeginsFull.of_isWord {w : String} (h : isWord w = true) : BeginsFull w.toList := by
  obtain ⟨hne, hblank⟩ := isWord_iff.mp h
  obtain ⟨ch, cs, hcs⟩ := List.exists_cons_of_ne_nil hne
  exact ⟨ch, cs, hcs, hblank ch (by simp [hcs])⟩

/-- A word that is to be read as itself. -/
def TokenText.word (w : String) : TokenText := ⟨w, Token.Spells w⟩

theorem map_text_word (words : List String) (xs : List TokenText) :
    (words.map TokenText.word ++ xs).map TokenText.text = words ++ xs.map TokenText.text := by
  simp [TokenText.word, Function.comp_def]

theorem allRead_words {rules : TokenRules} {xs : List TokenText}
    (hxs : AllRead rules TokenText.text TokenText.Says xs) : ∀ {words : List String},
      (∀ w ∈ words, isWord w = true) → TypableBefore rules (xs.map TokenText.text) words →
        AllRead rules TokenText.text TokenText.Says (words.map TokenText.word ++ xs)
  | [], _, _ => hxs
  | w :: ws, hwords, htypable => by
    obtain ⟨hw, hws⟩ := List.forall_mem_cons.mp hwords
    rw [List.map_cons, List.cons_append]
    refine ⟨fun c hc => ?_, allRead_words hxs hws htypable.2⟩
    rw [map_text_word] at hc ⊢
    obtain ⟨t, stop, hread, hrest, hword⟩ := htypable.1.readHere hw (stops_joinedBehind _) hc
    have hraw : t.raw = w := by
      rw [Token.raw_of_readHere hread]
      exact Cursor.textTo_of_rest (by rw [hc, hrest]; rfl)
    exact ⟨t, stop, hread, hrest, hraw, hword⟩

/-- **A line of words and further texts is read as the words, and then as what the texts say.** -/
theorem Tokens.ofText_called {rules : TokenRules} {words : List String} (xs : List TokenText)
    (hwords : ∀ w ∈ words, isWord w = true)
    (htypable : TypableBefore rules (xs.map TokenText.text) words)
    (hfull : ∀ x ∈ xs, BeginsFull x.text.toList)
    (hxs : AllRead rules TokenText.text TokenText.Says xs) :
    ∃ ks us stop, ofText rules (joined (words ++ xs.map TokenText.text)) =
        .prepend ks (.prepend us (.finished stop)) ∧
      List.Forall₂ Token.Spells words ks ∧ List.Forall₂ TokenText.Says xs us := by
  have hbegins : ∀ x ∈ words.map TokenText.word ++ xs, BeginsFull x.text.toList := by
    intro x hx
    rcases List.mem_append.mp hx with hx | hx
    · obtain ⟨w, hw, rfl⟩ := List.mem_map.mp hx
      exact .of_isWord (hwords w hw)
    · exact hfull x hx
  obtain ⟨ts, stop, hts, hsays⟩ := ofText_joined hbegins (allRead_words hxs hwords htypable)
  obtain ⟨ks, us, rfl, hks, hus⟩ := forall₂_append_left hsays
  refine ⟨ks, us, stop, ?_, (List.forall₂_map_left_iff (f := TokenText.word)).mp hks, hus⟩
  rw [← prepend_append, ← hts, map_text_word]

/-! ### The name -/

namespace LineEnv

variable {env : LineEnv} {id last : CommandId} {t u : Token} {ts : List Token}

/-- The way of a name stops at a token that means several commands. -/
theorem Leads.descend_many {ids : List CommandId} (h : env.Leads id ts last)
    (hu : env.childMatch (some last) u = .many ids) (rest : Tokens) : ∀ span : Span,
      env.descend id span (.prepend ts (.more u rest)) = .error (env.ambiguous u ids) := by
  induction h with
  | here =>
    intro span
    rw [Tokens.prepend_nil, LineEnv.descend, hu]
  | child h _ ih =>
    intro span
    rw [Tokens.prepend_cons, LineEnv.descend, h]
    exact ih hu _

/-- Tokens that spell the words lead nowhere: one of them means several commands. The failure is of
the kind `kind`. -/
def Stuck (r : Registry) (context : ParseContext) (kind : FailKind) (words : List String) : Prop :=
  ∀ env : LineEnv, env.registry = r → env.context = context → ∀ t ts, ∀ rest : Tokens,
    List.Forall₂ Token.Spells words (t :: ts) →
      ∃ f, env.resolve t (.prepend ts rest) = .error f ∧ f.kind = kind

theorem Stuck.append {r : Registry} {context : ParseContext} {kind : FailKind} {words : List String}
    (h : Stuck r context kind words) (hne : words ≠ []) (more : List String) :
    Stuck r context kind (words ++ more) := by
  intro env hr hc t ts rest hts
  obtain ⟨us, vs, hsplit, hus, -⟩ := forall₂_append_left hts
  obtain ⟨w, ws, rfl⟩ := List.exists_cons_of_ne_nil hne
  obtain ⟨u, us, -, -, rfl⟩ := List.forall₂_cons_left_iff.mp hus
  rw [List.cons_append] at hsplit
  obtain ⟨rfl, rfl⟩ := List.cons.inj hsplit
  rw [Tokens.prepend_append]
  exact h env hr hc t us _ hus

/-- Whatever names are localized, the name of a command means it, if it means only one command. -/
theorem matchChild_declared {r : Registry} {e : RegisteredCommand} (l : Option Localizer)
    (he : r.entries[id]? = some e) :
    r.matchChild l e.parent e.command.name = .one id ∨
      ∃ ids, r.matchChild l e.parent e.command.name = .many ids := by
  have hmem : id ∈ r.matching l e.parent e.command.name := by
    refine List.mem_filter.mpr ⟨Registry.mem_childrenOf.mpr ⟨e, he, rfl⟩, ?_⟩
    simp [Registry.namesOf, he, Command.declaredNames]
  unfold Registry.matchChild
  split
  · rename_i hnil
    rw [hnil] at hmem
    cases hmem
  · rename_i i hone
    rw [hone] at hmem
    exact .inl (by rw [List.mem_singleton.mp hmem])
  · exact .inr ⟨_, rfl⟩

/-- **The words on the way to a command name it, or are ambiguous**, whatever stands behind. -/
theorem names_or_stuck {r : Registry} (context : ParseContext) {words : List String}
    (h : r.Path id words) :
    (∀ env : LineEnv, env.registry = r → env.context = context → ∀ ts,
      List.Forall₂ Token.Spells words ts → env.Names ts id) ∨
    ∃ kind, Stuck r context kind words := by
  induction h with
  | @root id e he hp =>
    rcases matchChild_declared context.localizer he with hone | ⟨ids, hmany⟩
    · refine .inl fun env hr hc ts hts => ?_
      obtain ⟨t, us, ht, hus, rfl⟩ := List.forall₂_cons_left_iff.mp hts
      obtain rfl := List.forall₂_nil_left_iff.mp hus
      refine ⟨t, [], id, rfl, ?_, .here⟩
      rw [childMatch, ht.word, hr, hc, ← hp]
      exact hone
    · refine .inr ⟨.ambiguousCommand e.command.name (r.candidateNames ids),
        fun env hr hc t ts rest hts => ?_⟩
      obtain ⟨u, us, ht, hus, heq⟩ := List.forall₂_cons_left_iff.mp hts
      obtain ⟨rfl, rfl⟩ := List.cons.inj heq
      refine ⟨env.ambiguous t ids, ?_, ?_⟩
      · rw [resolve, childMatch, ht.word, hr, hc, ← hp]
        dsimp only
        rw [hmany]
      · simp [ambiguous, fail, ht.raw, hr]
  | @child id parent e words he hp hpath ih =>
    rcases ih with hnames | ⟨kind, hstuck⟩
    · rcases matchChild_declared context.localizer he with hone | ⟨ids, hmany⟩
      · refine .inl fun env hr hc ts hts => ?_
        obtain ⟨us, vs, rfl, hus, hvs⟩ := forall₂_append_left hts
        obtain ⟨t, ws, ht, hws, rfl⟩ := List.forall₂_cons_left_iff.mp hvs
        obtain rfl := List.forall₂_nil_left_iff.mp hws
        refine (hnames env hr hc us hus).snoc ?_
        rw [childMatch, ht.word, hr, hc, ← hp]
        exact hone
      · refine .inr ⟨.ambiguousCommand e.command.name (r.candidateNames ids),
          fun env hr hc t ts rest hts => ?_⟩
        obtain ⟨us, vs, hsplit, hus, hvs⟩ := forall₂_append_left hts
        obtain ⟨u, ws, hu, hws, rfl⟩ := List.forall₂_cons_left_iff.mp hvs
        obtain rfl := List.forall₂_nil_left_iff.mp hws
        obtain ⟨t', ts', root, rfl, hroot, hleads⟩ := hnames env hr hc us hus
        rw [List.cons_append] at hsplit
        obtain ⟨rfl, rfl⟩ := List.cons.inj hsplit
        have hmatch : env.childMatch (some parent) u = .many ids := by
          rw [childMatch, hu.word, hr, hc, ← hp]
          exact hmany
        refine ⟨env.ambiguous u ids, ?_, ?_⟩
        · rw [resolve, hroot, Tokens.prepend_append]
          exact hleads.descend_many hmatch rest t.span
        · simp [ambiguous, fail, hu.raw, hr]
    · exact .inr ⟨kind, hstuck.append hpath.ne_nil _⟩

/-! ### The command -/

variable {c : Command} {names : List Token}

/-- A command without sub-commands ends its name. -/
theorem childMatch_leaf (h : env.registry.childrenOf (some id) = []) (t : Token) :
    env.childMatch (some id) t = .none := by
  unfold childMatch
  split
  · rfl
  · rw [Registry.matchChild, Registry.matching, h]
    rfl

/-- A command that takes the rest of the line is the line, if it passes its gate. -/
theorem parseCommands_last {c : Command} {rest : Tokens} {stop : Nat} {r : Resolved}
    {b : BindEnv.Binding} (ht : t.isSeparator = false)
    (h : env.bindCommand .complete t rest = .ok (r, c, b))
    (hend : b.cursor.tokens = .finished stop) : env.parseCommands (.more t rest) =
      (env.checkGate r c b.state.bound).map fun _ => [env.boundCommand r c b] := by
  cases hg : env.checkGate r c b.state.bound with
  | error f => exact parseCommands_refused ht h hg
  | ok u =>
    rw [parseCommands_command ht h hg, hend, parseCommands]
    rfl

/-- A line fails if the name at its beginning leads nowhere. -/
theorem parseCommands_of_resolve {rest : Tokens} {f : ParseFail} (ht : t.isSeparator = false)
    (h : env.resolve t rest = .error f) : env.parseCommands (.more t rest) = .error f :=
  parseCommands_error ht (by rw [bindCommand, h])

/-- A command without sub-commands that takes the rest of the line is the line. -/
theorem parseCommands_called (env : LineEnv) (hget : env.registry.get? id = some c)
    (hleaf : env.registry.childrenOf (some id) = []) (hnames : env.Names (t :: names) id)
    (us : Tokens) : ∃ r : Resolved, r.id = id ∧ r.cursor.tokens = us ∧
      (∀ f, (env.bindEnv .complete id c).bind r.cursor = .error f →
        env.parseCommands (.more t (.prepend names us)) = .error f) ∧
      ∀ b stop, (env.bindEnv .complete id c).bind r.cursor = .ok b →
        b.cursor.tokens = .finished stop → env.parseCommands (.more t (.prepend names us)) =
          (env.checkGate r c b.state.bound).map fun _ => [env.boundCommand r c b] := by
  obtain ⟨span, hresolve⟩ : ∃ span, env.resolve t (.prepend names us) =
      .ok ⟨id, span, ⟨span.stop, us⟩⟩ := hnames.resolve fun u vs _ => childMatch_leaf hleaf u
  have ht : t.isSeparator = false :=
    Token.isSeparator_of_isValue (hnames.all_isValue t List.mem_cons_self)
  have hbind : env.bindCommand .complete t (.prepend names us) =
      ((env.bindEnv .complete id c).bind ⟨span.stop, us⟩).map fun b =>
        (⟨id, span, ⟨span.stop, us⟩⟩, c, b) := by
    rw [bindCommand, hresolve]
    dsimp only
    rw [hget]
  refine ⟨⟨id, span, ⟨span.stop, us⟩⟩, rfl, rfl, fun f hf => ?_, fun b stop hb hend => ?_⟩
  · rw [hf] at hbind
    exact parseCommands_error ht hbind
  · rw [hb] at hbind
    exact parseCommands_last ht hbind hend

end LineEnv

/-- The only command is a root. -/
theorem Demo.path_parserOf {c : Command} (hregistry : (Registry.empty.registerAll [c]).toBool = true) :
    (parserOf c).registry.Path 0 [c.name] := by
  have haccepted := Registry.registerAll_toOption hregistry
  have hr : (parserOf c).registry.WellFormed := Registry.WellFormed.empty.registerAll haccepted
  obtain ⟨e, he, hcommand⟩ := Option.map_eq_some_iff.mp (Registry.get?_registerAll haccepted 0)
  -- a parent is registered before its command, and nothing is before the first
  have hroot : e.parent = none :=
    Option.eq_none_iff_forall_not_mem.mpr fun p hp => Nat.not_lt_zero p (hr.parents 0 e he p hp)
  have hpath := Registry.Path.root he hroot
  rwa [hcommand] at hpath

end CommandConsole
