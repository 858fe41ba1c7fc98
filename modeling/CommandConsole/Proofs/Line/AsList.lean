/-
# A run of values and the list literal

A line that gives the only argument of a command some values one by one comes
to the same as the line that gives it the list of these values in one literal:
to the same input and the same value, or to a failure of the same kind. For a
run the list has to be assigned to the argument's name; for a list it stands
there as a value of its own.

Key definition: `CommandParser.SameCall`.
Key theorem: `CommandParser.parse_run_as_list`.
-/
import CommandConsole.Proofs.Binding.AsList
import CommandConsole.Proofs.Line.Called
import CommandConsole.Proofs.Token.Rendered

namespace CommandConsole

/-! ### Tokens -/

namespace TokenText

/-- A literal in its written form. -/
def literal (v : Literal) : TokenText := ⟨v.render, v.ReadsBack⟩

/-- A literal that is assigned to a name. -/
def assigned (name : String) (v : Literal) : TokenText :=
  ⟨(Piece.assigned name v).text, (Piece.assigned name v).Reads⟩

variable {rules : TokenRules}

theorem beginsFull_render (v : Literal) : BeginsFull v.render.toList := by
  obtain ⟨c, cs, hcs, hb, -⟩ := (spells_render v).head
  exact ⟨c, cs, hcs, hb⟩

theorem allRead_literals {vs : List Literal} (h : ∀ v ∈ vs, v.EmptyFree ∧
    v.depth ≤ rules.maxDepth ∧ v.render ≠ rules.separator) :
    AllRead rules TokenText.text TokenText.Says (vs.map literal) := by
  refine .of_forall fun x hx rest hstops c hc => ?_
  obtain ⟨v, hv, rfl⟩ := List.mem_map.mp hx
  obtain ⟨he, hd, hsep⟩ := h v hv
  exact Literal.readHere_render he hd hsep hc hstops

theorem allRead_assigned {name : String} {v : Literal} (h : (Piece.assigned name v).Fits rules) :
    AllRead rules TokenText.text TokenText.Says [assigned name v] := by
  refine .of_forall fun x hx rest hstops c hc => ?_
  obtain rfl := List.mem_singleton.mp hx
  exact h.readHere hc hstops

end TokenText

/-- Tokens of written literals offer literals that are the same. -/
theorem exists_offers_of_readsBack {vs : List Literal} {ks : List Token}
    (h : List.Forall₂ Literal.ReadsBack vs ks) : ∃ ws,
      List.Forall₂ (Literal.Alike .unplaced) vs ws ∧ List.Forall₂ Token.Offers ws ks := by
  induction h with
  | nil => exact ⟨[], .nil, .nil⟩
  | cons hk _ ih =>
    obtain ⟨ws, halike, hoffers⟩ := ih
    obtain ⟨w, hw, hsame⟩ := hk.kind
    exact ⟨w :: ws, .cons ((Literal.same_iff _ _).mp hsame) halike,
      .cons ⟨hw, hk.shortFlags⟩ hoffers⟩

/-! ### The list -/

/-- The text gives the argument the values `vs` in one list: as a literal of its own, if the
argument takes a list and the first value would begin a run, or assigned to one of the names of the
argument, if it takes a run. -/
inductive Argument.WrittenAsList (rules : TokenRules) (a : Argument) (vs : List Literal) :
    String → Prop
  | literal (hm : a.multiplicity = .multiple) (hk : a.type.kind = .list)
      (hfirst : ∀ v ∈ vs.head?, v.kind = .scalar)
      (hsep : (listOfRun vs).render ≠ rules.separator) :
      WrittenAsList rules a vs (listOfRun vs).render
  | assigned {name : String} (hm : a.multiplicity = .vararg) (ha : rules.assignSyntax = true)
      (hn : name ∈ a.names) (he : '=' ∉ name.toList) :
      WrittenAsList rules a vs (Piece.assigned name (listOfRun vs)).text

theorem emptyFree_listOfRun {vs : List Literal} (h : ∀ v ∈ vs, v.EmptyFree) :
    (listOfRun vs).EmptyFree := by
  suffices hitems : Literal.EmptyFreeItems vs from hitems
  induction vs with
  | nil => trivial
  | cons v vs ih =>
    obtain ⟨hv, hvs⟩ := List.forall_mem_cons.mp h
    exact ⟨hv, ih hvs⟩

theorem depth_listOfRun_le {vs : List Literal} {n : Nat} (h : ∀ v ∈ vs, v.depth < n) (hn : 0 < n) :
    (listOfRun vs).depth ≤ n := by
  suffices hitems : Literal.depthItems vs + 1 ≤ n by rwa [listOfRun, Literal.depth]
  induction vs with
  | nil => exact hn
  | cons v vs ih =>
    obtain ⟨hv, hvs⟩ := List.forall_mem_cons.mp h
    have hrest := ih hvs
    rw [Literal.depthItems]
    omega

/-! ### Two lines that call one command -/

/-- Numbers that are given as a list. -/
def Demo.numbers : Argument := { Argument.new "numbers" (.list .int) with multiplicity := .multiple }

def Demo.average : Command := Demo.command "mean" "Average numbers" [numbers]

/-- Numbers that have to stand at once behind the name. -/
def Demo.placed : Command :=
  Demo.command "mean" "Average numbers" [{ numbers with type := .list (.custom ⟨"placed", .single,
    fun v => if v.span.start = 5 then .ok .unit else .error "out of place", []⟩) }]

def Demo.echo : Command := Demo.command "echo" "Print the given words" [Demo.vararg "words" .string]

namespace CommandParser

/-- The two answers call the command `id` once each, with one argument that is the same up to spans
and has the literals `vs` as its input; or they are failures of the same kind. -/
def SameCall (id : CommandId) (a : Argument) (vs : List Literal) :
    Except ParseFail (List BoundCommand) → Except ParseFail (List BoundCommand) → Prop :=
  Agree (fun f g => g.kind = f.kind) fun cs ds => ∃ c d b e, cs = [c] ∧ ds = [d] ∧ c.id = id ∧
    d.id = id ∧ c.arguments = [b] ∧ d.arguments = [e] ∧ b.id = a.id ∧ b.Same e ∧
    b.input.same (listOfRun vs) = true

variable {p : CommandParser} {context : ParseContext} {id : CommandId} {c : Command}
  {a : Argument} {vs : List Literal} {words : List String} {text text' : String}
  {e e' : Except ParseFail BoundArgument} {stop stop' : Nat}

/-- The line is read as the words, and what is behind them binds the arguments of the command to
`e`. -/
def Calls (p : CommandParser) (context : ParseContext) (text : String) (words : List String)
    (id : CommandId) (c : Command) (stop : Nat) (e : Except ParseFail BoundArgument) : Prop :=
  ∃ ks us, p.config.tokensOf text = .prepend ks us ∧ List.Forall₂ Token.Spells words ks ∧
    ∀ cursor : TokenCursor, cursor.tokens = us → Agree Eq (BindEnv.Leaves stop) e
      (((p.lineEnv context text).bindEnv .complete id c).bind cursor)

/-- Two lines call the command alike if its argument is bound alike. -/
theorem Calls.sameCall (h : p.Calls context text words id c stop e)
    (h' : p.Calls context text' words id c stop' e') (hget : p.registry.get? id = some c)
    (hleaf : p.registry.childrenOf (some id) = []) (hpath : p.registry.Path id words)
    (hsame : Agree (ParseFail.Moved 0) BoundArgument.Same e e')
    (hinput : ∀ b, e = .ok b → b.id = a.id ∧ b.input.same (listOfRun vs) = true) :
    SameCall id a vs (p.parse context text) (p.parse context text') := by
  obtain ⟨ks, us, htokens, hks, hbind⟩ := h
  obtain ⟨ks', us', htokens', hks', hbind'⟩ := h'
  obtain ⟨w, ws, rfl⟩ := List.exists_cons_of_ne_nil hpath.ne_nil
  obtain ⟨k, ks, hk, -, rfl⟩ := List.forall₂_cons_left_iff.mp hks
  obtain ⟨k', ks', hk', -, rfl⟩ := List.forall₂_cons_left_iff.mp hks'
  rw [parse, parse, htokens, htokens']
  rcases LineEnv.names_or_stuck context hpath with hnames | ⟨kind, hstuck⟩
  · obtain ⟨r, hid, hr, herror, hok⟩ := LineEnv.parseCommands_called (p.lineEnv context text) hget
      hleaf (hnames _ rfl rfl _ hks) us
    obtain ⟨r', hid', hr', herror', hok'⟩ := LineEnv.parseCommands_called (p.lineEnv context text')
      hget hleaf (hnames _ rfl rfl _ hks') us'
    rcases hsame.cases with ⟨f, g, rfl, rfl, hfg⟩ | ⟨b, d, rfl, rfl, hbd⟩
    · obtain ⟨f', hf, rfl⟩ := (hbind _ hr).of_error rfl
      obtain ⟨g', hg, rfl⟩ := (hbind' _ hr').of_error rfl
      rw [Tokens.prepend_cons, Tokens.prepend_cons, herror _ hf, herror' _ hg]
      exact .error (hfg.trans (FailKind.moved_zero _))
    · obtain ⟨q, hq, hb, hend⟩ := (hbind _ hr).of_ok rfl
      obtain ⟨q', hq', hd, hend'⟩ := (hbind' _ hr').of_ok rfl
      rw [Tokens.prepend_cons, Tokens.prepend_cons, hok _ _ hq hend, hok' _ _ hq' hend', hb, hd]
      have hgate : Option.Rel (fun x y => y.1 = x.1)
          ((p.lineEnv context text).gate? c r.span [b])
          ((p.lineEnv context text').gate? c r'.span [d]) :=
        LineEnv.gate?_alike rfl c r.span r'.span (.cons ⟨hbd.id, hbd.default⟩ .nil)
      unfold LineEnv.checkGate
      generalize (p.lineEnv context text).gate? c r.span [b] = x at hgate ⊢
      generalize (p.lineEnv context text').gate? c r'.span [d] = y at hgate ⊢
      cases hgate with
      | none =>
        obtain ⟨hbid, hvs⟩ := hinput b rfl
        exact .ok ⟨_, _, b, d, rfl, rfl, hid, hid', hb, hd, hbid, hbd, hvs⟩
      | @some x y hxy =>
        refine .error ?_
        unfold LineEnv.fail
        dsimp only
        rw [hxy, hid, hid']
        rfl
  · obtain ⟨f, hf, hkind⟩ := hstuck (p.lineEnv context text) rfl rfl k ks us hks
    obtain ⟨g, hg, hkind'⟩ := hstuck (p.lineEnv context text') rfl rfl k' ks' us' hks'
    rw [Tokens.prepend_cons, Tokens.prepend_cons, LineEnv.parseCommands_of_resolve hk.isSeparator hf,
      LineEnv.parseCommands_of_resolve hk'.isSeparator hg]
    exact .error (hkind'.trans hkind.symm)

/-! ### The three lines -/

section Lines

variable (context id) (hargs : c.arguments = .static [a]) (hrequired : a.isOptional = false)
  (hwords : ∀ w ∈ words, isWord w = true)

include hargs hrequired hwords

/-- The line that gives the values one by one. -/
theorem calls_run (ha : a.multiplicity = .vararg ∨ (a.multiplicity = .multiple ∧
      a.type.kind = .list ∧ ∀ v ∈ vs.head?, v.kind = .scalar)) (hne : vs ≠ [])
    (hvs : ∀ v ∈ vs, v.EmptyFree ∧ v.depth ≤ p.config.maxDepth ∧
      v.render ≠ p.config.chainSeparator)
    (htypable : TypableBefore p.config.tokenRules (vs.map Literal.render) words) :
    ∃ ws stop, List.Forall₂ (Literal.Alike .unplaced) vs ws ∧
      p.Calls context (joined (words ++ vs.map Literal.render)) words id c stop
        (((p.lineEnv context (joined (words ++ vs.map Literal.render))).bindEnv .complete id c).ofRun
          a ws .positional) := by
  have htexts : (vs.map TokenText.literal).map TokenText.text = vs.map Literal.render := by
    simp [TokenText.literal]
  obtain ⟨ks, us, stop, htokens, hks, hus⟩ := Tokens.ofText_called
    (vs.map TokenText.literal) hwords (htexts.symm ▸ htypable)
    (List.forall_mem_map.mpr fun w _ => TokenText.beginsFull_render w)
    (TokenText.allRead_literals hvs)
  rw [htexts] at htokens
  obtain ⟨ws, halike, hoffers⟩ := exists_offers_of_readsBack
    ((List.forall₂_map_left_iff (f := TokenText.literal)).mp hus)
  refine ⟨ws, stop, halike, ks, _, htokens, hks, fun cursor hcursor => ?_⟩
  obtain ⟨v, vs, rfl⟩ := List.exists_cons_of_ne_nil hne
  obtain ⟨w, ws, hw, -, rfl⟩ := List.forall₂_cons_left_iff.mp halike
  obtain ⟨t, us, -, -, rfl⟩ := List.forall₂_cons_left_iff.mp hoffers
  refine BindEnv.Wants.bind_run ⟨rfl, hargs, hrequired⟩ (ha.imp_right ?_) hoffers hcursor
  rintro ⟨hm, hk, hfirst⟩
  have hkind : w.kind = .scalar := hw.kind_eq.trans (hfirst v rfl)
  exact ⟨hm, by simp [BindEnv.startsListRun, hkind, hk]⟩

/-- The line that gives the list as a literal of its own. -/
theorem calls_literal (hm : a.multiplicity = .multiple) {v : Literal} (hv : v.kind = .list)
    (hread : v.EmptyFree ∧ v.depth ≤ p.config.maxDepth ∧ v.render ≠ p.config.chainSeparator)
    (htypable : TypableBefore p.config.tokenRules [v.render] words) :
    ∃ w stop, v.Alike .unplaced w ∧
      p.Calls context (joined (words ++ [v.render])) words id c stop
        ((((p.lineEnv context (joined (words ++ [v.render]))).bindEnv .complete id c).convert a w).map
          fun x => ⟨a.id, w, x, .positional⟩) := by
  obtain ⟨ks, us, stop, htokens, hks, hus⟩ := Tokens.ofText_called [TokenText.literal v] hwords
    htypable
    (List.forall_mem_singleton.mpr (TokenText.beginsFull_render v))
    (TokenText.allRead_literals
      (List.forall_mem_singleton.mpr hread))
  obtain ⟨ws, halike, hoffers⟩ := exists_offers_of_readsBack
    ((List.forall₂_map_left_iff (f := TokenText.literal) (l := [v])).mp hus)
  obtain ⟨w, ws, hw, hws, rfl⟩ := List.forall₂_cons_left_iff.mp halike
  obtain rfl := List.forall₂_nil_left_iff.mp hws
  obtain ⟨t, us, ht, hnil, rfl⟩ := List.forall₂_cons_left_iff.mp hoffers
  obtain rfl := List.forall₂_nil_left_iff.mp hnil
  refine ⟨w, stop, hw, ks, _, htokens, hks, fun cursor hcursor => ?_⟩
  have hkind : w.kind = .list := hw.kind_eq.trans hv
  exact BindEnv.Wants.bind_literal ⟨rfl, hargs, hrequired⟩ hm
    (by simp [BindEnv.startsListRun, hkind]) ht hcursor

/-- The line that assigns the list to a name of the argument. -/
theorem calls_assigned (hm : a.multiplicity = .vararg) {name : String} (hname : name ∈ a.names)
    (hfits : (Piece.assigned name (listOfRun vs)).Fits p.config.tokenRules)
    (hfree : (listOfRun vs).EmptyFree)
    (htypable : TypableBefore p.config.tokenRules [(Piece.assigned name (listOfRun vs)).text] words) :
    let text := joined (words ++ [(Piece.assigned name (listOfRun vs)).text])
    ∃ ws stop, List.Forall₂ (Literal.Alike .unplaced) vs ws ∧
      p.Calls context text words id c stop
        (((p.lineEnv context text).bindEnv .complete id c).ofRun a ws .named) := by
  intro text
  obtain ⟨ks, us, stop, htokens, hks, hus⟩ := Tokens.ofText_called
    [TokenText.assigned name (listOfRun vs)] hwords htypable
    (List.forall_mem_singleton.mpr hfits.beginsFull) (TokenText.allRead_assigned hfits)
  obtain ⟨t, us, ⟨read, ht, hread⟩, hnil, rfl⟩ := List.forall₂_cons_left_iff.mp hus
  obtain rfl := List.forall₂_nil_left_iff.mp hnil
  rw [Literal.filled_eq_self _ hfree] at hread
  obtain ⟨ws, span, rfl⟩ : ∃ ws span, read = .list ws span := by
    cases read <;> simp_all [listOfRun, Literal.unspanned]
  have halike : (listOfRun vs).Alike .unplaced (.list ws span) := hread
  refine ⟨ws, stop, halike.itemsOf, ks, _, htokens, hks, fun cursor hcursor => ?_⟩
  refine BindEnv.Wants.bind_assigned ⟨rfl, hargs, hrequired⟩ hm ?_ ht hcursor
  exact List.mem_append_left _ hname

end Lines

/-- **A run of values comes to the same as the list of them.** The line that gives the only argument
of a command, which has to be given, some values one by one, and the line that gives it their list,
both bind it to the same input and value, or fail with the same kind of failure. The names of the
command have to be typable in both lines, and no custom type may look at spans. -/
theorem parse_run_as_list {commands : List Command}
    (hregistry : Registry.empty.registerAll commands = .ok p.registry)
    (hget : p.registry.get? id = some c) (hleaf : p.registry.childrenOf (some id) = [])
    (hargs : c.arguments = .static [a]) (hrequired : a.isOptional = false) (hblind : a.type.Blind)
    (hpath : p.registry.Path id words) (hne : vs ≠ [])
    (hvs : ∀ v ∈ vs, v.EmptyFree ∧ v.depth < p.config.maxDepth ∧
      v.render ≠ p.config.chainSeparator)
    (hrun : TypableBefore p.config.tokenRules (vs.map Literal.render) words)
    {list : String} (hlist : a.WrittenAsList p.config.tokenRules vs list)
    (hcalled : TypableBefore p.config.tokenRules [list] words) :
    SameCall id a vs
      (p.parse context (joined (p.registry.fullName id :: vs.map Literal.render)))
      (p.parse context (joined [p.registry.fullName id, list])) := by
  have hr : p.registry.WellFormed := Registry.WellFormed.empty.registerAll hregistry
  have hwords : ∀ w ∈ words, isWord w = true := hr.isWord_path hpath
  have hline : ∀ texts, joined (p.registry.fullName id :: texts) = joined (words ++ texts) := by
    intro texts
    rw [hr.fullName_path hpath]
    exact intercalate_words hpath.ne_nil texts
  have hfree := emptyFree_listOfRun fun w hw => (hvs w hw).1
  have hdepth : (listOfRun vs).depth ≤ p.config.maxDepth := by
    obtain ⟨v, hv⟩ := List.exists_mem_of_ne_nil vs hne
    exact depth_listOfRun_le (fun w hw => (hvs w hw).2.1) (Nat.zero_lt_of_lt (hvs v hv).2.1)
  have hvs' : ∀ v ∈ vs, v.EmptyFree ∧ v.depth ≤ p.config.maxDepth ∧
      v.render ≠ p.config.chainSeparator :=
    fun v hv => ⟨(hvs v hv).1, Nat.le_of_lt (hvs v hv).2.1, (hvs v hv).2.2⟩
  -- whatever the run binds has the values as its input
  have hinput : ∀ {env : BindEnv} {ws : List Literal}, List.Forall₂ (Literal.Alike .unplaced) vs ws →
      ∀ b, env.ofRun a ws .positional = .ok b →
        b.id = a.id ∧ b.input.same (listOfRun vs) = true := by
    intro env ws halike b hb
    obtain ⟨hid, hinput⟩ := BindEnv.ofRun_eq_ok hb
    refine ⟨hid, (Literal.same_iff _ _).mpr ?_⟩
    rw [hinput]
    exact (Literal.Alike.listOfRun halike).unspanned_eq
  rw [hline, hline]
  cases hlist with
  | literal hm hk hfirst hsep =>
    obtain ⟨ws, stop, halike, hcalls⟩ := calls_run context id hargs hrequired
      hwords (.inr ⟨hm, hk, hfirst⟩) hne hvs' hrun
    obtain ⟨w, stop', hw, hcalls'⟩ := calls_literal context id hargs hrequired
      hwords hm (v := listOfRun vs) rfl ⟨hfree, hdepth, hsep⟩ hcalled
    have hsame : (listOfRun ws).Alike .unplaced w :=
      hw.unspanned_eq.trans (Literal.Alike.listOfRun halike).unspanned_eq.symm
    exact hcalls.sameCall hcalls' hget hleaf hpath
      (BindEnv.ofRun_alike_literal hblind hm hsame _) (hinput halike)
  | @assigned name hm ha hn he =>
    obtain ⟨ws, stop, halike, hcalls⟩ := calls_run context id hargs hrequired
      hwords (.inl hm) hne hvs' hrun
    have hword : isWord name = true :=
      (hr.tellable hget).words a (by rw [hargs]; exact List.mem_cons_self) name hn
    obtain ⟨ws', stop', halike', hcalls'⟩ := calls_assigned context id hargs
      hrequired hwords hm hn ⟨hword, he, ha, hdepth⟩ hfree hcalled
    have hsame : (listOfRun ws).Alike .unplaced (listOfRun ws') :=
      (Literal.Alike.listOfRun halike').unspanned_eq.trans
        (Literal.Alike.listOfRun halike).unspanned_eq.symm
    exact hcalls.sameCall hcalls' hget hleaf hpath
      (BindEnv.ofRun_alike hblind hsame.itemsOf (by simp) (by simp) _) (hinput halike)

/-- Some numbers as a list, and some words as a run. -/
theorem parse_run_as_list_mean :
    SameCall 0 Demo.numbers [.scalar "1" default, .scalar "2" default]
      ((Demo.parserOf Demo.average).parse .empty "mean 1 2")
      ((Demo.parserOf Demo.average).parse .empty "mean [1, 2]") ∧
    SameCall 0 (Demo.vararg "words" .string) [.scalar "a" default, .scalar "b c" default]
      ((Demo.parserOf Demo.echo).parse .empty "echo a \"b c\"")
      ((Demo.parserOf Demo.echo).parse .empty "echo --words=[a, \"b c\"]") := by
  constructor
  · have haccepted : (Registry.empty.registerAll [Demo.average]).toBool = true := by decide +kernel
    have hregistry := Registry.registerAll_toOption haccepted
    have hlist : Demo.numbers.WrittenAsList (Demo.parserOf Demo.average).config.tokenRules
        [.scalar "1" default, .scalar "2" default] "[1, 2]" :=
      .literal rfl rfl (by simp [Literal.kind]) (by decide +kernel)
    refine parse_run_as_list hregistry (Registry.get?_registerAll hregistry 0) (by decide +kernel) rfl
      rfl (show (ArgType.list .int).Blind from trivial) (Demo.path_parserOf haccepted)
      (List.cons_ne_nil _ _) ?_ (by decide +kernel) hlist (by decide +kernel)
    simp only [List.forall_mem_cons]
    exact ⟨⟨trivial, by decide, by decide +kernel⟩, ⟨trivial, by decide, by decide +kernel⟩, by simp⟩
  · have haccepted : (Registry.empty.registerAll [Demo.echo]).toBool = true := by decide +kernel
    have hregistry := Registry.registerAll_toOption haccepted
    have hname : "words" ∈ (Demo.vararg "words" .string).names := List.mem_cons_self
    have hlist : (Demo.vararg "words" .string).WrittenAsList
        (Demo.parserOf Demo.echo).config.tokenRules
        [.scalar "a" default, .scalar "b c" default] "--words=[a, \"b c\"]" :=
      .assigned rfl rfl hname (by decide)
    refine parse_run_as_list hregistry (Registry.get?_registerAll hregistry 0) (by decide +kernel) rfl
      rfl (show ArgType.string.Blind from trivial) (Demo.path_parserOf haccepted)
      (List.cons_ne_nil _ _) ?_ (by decide +kernel) hlist (by decide +kernel)
    simp only [List.forall_mem_cons]
    exact ⟨⟨trivial, by decide, by decide +kernel⟩, ⟨trivial, by decide, by decide +kernel⟩, by simp⟩

/-- With a separator that is written like a list, the list ends the command. A type that looks at
where a literal stands may take a value alone, and not in a list. -/
theorem parse_run_not_as_list :
    let p : CommandParser := { Demo.parserOf Demo.average with
      config := { (default : ParserConfig) with chainSeparator := "[1]" } }
    (p.registry.get? 0 = some Demo.average ∧ p.registry.childrenOf (some 0) = [] ∧
      Demo.average.arguments = .static [Demo.numbers] ∧ Demo.numbers.isOptional = false ∧
      Demo.numbers.multiplicity = .multiple ∧ Demo.numbers.type.kind = .list ∧
      (Literal.scalar "1" default).render = "1" ∧ p.config.chainSeparator ≠ "1" ∧
      (listOfRun [.scalar "1" default]).render = "[1]" ∧
      (∃ c, p.parse .empty "mean 1" = .ok [c] ∧
        (c.value? "numbers").map Value.display = some "[1]") ∧
      ∃ f, p.parse .empty "mean [1]" = .error f ∧
        f.kind = .missingRequiredArgument "mean" "numbers") ∧
    (∃ cmds, (Demo.parserOf Demo.placed).parse .empty "mean 1" = .ok cmds) ∧
      ∃ f, (Demo.parserOf Demo.placed).parse .empty "mean [1]" = .error f := by
  intro p
  have hrun : (p.parse .empty "mean 1").toOption.map (·.map fun c =>
      (c.value? "numbers").map Value.display) = some [some "[1]"] := by decide +kernel
  have hlist : (failureOf? (p.parse .empty "mean [1]")).map (·.kind) =
      some (.missingRequiredArgument "mean" "numbers") := by decide +kernel
  obtain ⟨c, hparse, hc⟩ := Except.exists_only hrun
  obtain ⟨f, hf, hkind⟩ := Option.map_eq_some_iff.mp hlist
  refine ⟨⟨?_, by decide +kernel, rfl, rfl, rfl, rfl, by decide +kernel, by decide,
    by decide +kernel, ⟨c, hparse, hc⟩, f, failureOf?_eq_some hf, hkind⟩,
    Except.exists_of_toBool (by decide +kernel), Except.exists_of_not_toBool (by decide +kernel)⟩
  exact Registry.get?_registerAll (Registry.registerAll_toOption (by decide +kernel)) 0

end CommandParser
end CommandConsole
