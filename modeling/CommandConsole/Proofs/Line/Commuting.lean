/-
# Names and flags in any order

A line may give a command all that it is given by name: in tokens `--name=value`
and in bundles of flags. If the line is accepted, so is every other line that
mentions the same, in whatever order, and with the flags in other bundles. The
command has the same arguments then, defaults included.

Key definitions: `Naming.text`, `Naming.Fits`, `ParserConfig.ReadsNamings`.
Key theorems: `ParserConfig.readsNamings_joined`, `CommandParser.parse_rearranged`.
-/
import CommandConsole.Proofs.Binding.Commuting
import CommandConsole.Proofs.Line.Called

namespace CommandConsole

/-! ### Tokens -/

namespace Naming

def text : Naming → String
  | .assigned n v => (Piece.assigned n v).text
  | .bundle letters => String.ofList ('-' :: letters)

/-- It is read back as it is written. -/
def Fits (rules : TokenRules) : Naming → Prop
  | .assigned n v => (Piece.assigned n v).Fits rules
  | .bundle letters => letters ≠ [] ∧ rules.Plain (String.ofList ('-' :: letters))

variable {rules : TokenRules} {x : Naming} {c : Cursor} {rest : List Char}

theorem beginsFull_text (x : Naming) : BeginsFull x.text.toList := by
  cases x with
  | assigned n v => exact ⟨'-', _, by rw [text, Piece.text]; simp; rfl, by decide⟩
  | bundle letters => exact ⟨'-', letters, by simp [text], by decide⟩

/-- **What names arguments is read as one token that says so**, in front of a blank or the end. -/
theorem Fits.readHere (h : x.Fits rules) (hc : c.rest = x.text.toList ++ rest)
    (hstops : Place.topLevel.Stops rest) :
    ∃ t stop, Token.readHere rules c = .ok (t, stop) ∧ stop.rest = rest ∧ x.Says t := by
  cases x with
  | assigned n v => exact Piece.Fits.readHere (p := .assigned n v) h hc hstops
  | bundle letters =>
    obtain ⟨hne, hplain⟩ := h
    obtain ⟨t, stop, hread, hrest, hword, -⟩ := Piece.readHere_word hplain hc hstops
    have hraw : t.raw = String.ofList ('-' :: letters) := by
      rw [Token.raw_of_readHere hread]
      exact Cursor.textTo_of_rest (by rw [hc, hrest]; rfl)
    obtain ⟨l, ls, rfl⟩ := List.exists_cons_of_ne_nil hne
    have hl : l ≠ '-' := by
      rintro rfl
      exact hplain.dashes ls (String.toList_ofList)
    refine ⟨t, stop, hread, hrest, ?_⟩
    rw [Says, Token.shortFlags?, hword, hraw, String.toList_ofList]
    exact if_neg hl

end Naming

/-- The line is read as the words, and then as what names arguments. -/
def ParserConfig.ReadsNamings (config : ParserConfig) (words : List String) (xs : List Naming)
    (text : String) : Prop :=
  ∃ ks us stop, config.tokensOf text = .prepend ks (.prepend us (.finished stop)) ∧
    List.Forall₂ (fun w t => Token.word? t = some w) words ks ∧ List.Forall₂ Naming.Says xs us

/-- The text of what is said, and that the token is to say it. -/
def Naming.tokenText (x : Naming) : TokenText := ⟨x.text, x.Says⟩

/-- **A line in which all this is written is read so.** -/
theorem ParserConfig.readsNamings_joined {config : ParserConfig} {words : List String}
    {xs : List Naming} (hwords : ∀ w ∈ words, isWord w = true)
    (htypable : TypableBefore config.tokenRules (xs.map Naming.text) words)
    (hxs : ∀ x ∈ xs, x.Fits config.tokenRules) :
    config.ReadsNamings words xs (joined (words ++ xs.map Naming.text)) := by
  have htexts : (xs.map Naming.tokenText).map TokenText.text = xs.map Naming.text := by
    simp [Naming.tokenText, Function.comp_def]
  have hread : AllRead config.tokenRules TokenText.text TokenText.Says
      (xs.map Naming.tokenText) := by
    refine .of_forall fun y hy rest hstops c hc => ?_
    obtain ⟨x, hx, rfl⟩ := List.mem_map.mp hy
    exact (hxs x hx).readHere hc hstops
  obtain ⟨ks, us, stop, htokens, hks, hus⟩ := Tokens.ofText_called (xs.map Naming.tokenText) hwords
    (htexts.symm ▸ htypable) (List.forall_mem_map.mpr fun x _ => x.beginsFull_text) hread
  rw [htexts] at htokens
  exact ⟨ks, us, stop, htokens, hks.imp fun w t ht => ht.word,
    (List.forall₂_map_left_iff (f := Naming.tokenText)).mp hus⟩

/-! ### Gates -/

namespace LineEnv

variable {env env' : LineEnv} {r r' : Resolved} {c : Command} {bound bound' : List BoundArgument}

/-- What may be used may be used again with the same arguments in another order. -/
theorem checkGate_rearranged (hctx : env'.context = env.context)
    (hbound : BoundArgument.Rearranged bound bound') (h : env.checkGate r c bound = .ok ()) :
    env'.checkGate r' c bound' = .ok () := by
  obtain ⟨es, hsame, hperm⟩ := hbound
  have hgate : env'.checkGate r' c es = .ok () := checkGate_same hctx hsame h
  obtain ⟨hinfo, hreq, hargs⟩ := gate?_eq_none.mp (checkGate_eq_ok.mp hgate)
  exact checkGate_eq_ok.mpr
    (gate?_eq_none.mpr ⟨hinfo, hreq, fun b hb => hargs b (hperm.mem_iff.mpr hb)⟩)

end LineEnv

/-! ### Lines -/

/-- **Names and flags may stand in any order, and flags in any bundles.** If a line is accepted that
is read as the name of a command and then as tokens that name arguments, no argument twice, so is
every line that is read as the same mentions in another order and in other bundles: it is the same
command, with the same arguments. Every line is read so in which all this can be written. -/
theorem CommandParser.parse_rearranged {p : CommandParser} {commands : List Command}
    (hregistry : Registry.empty.registerAll commands = .ok p.registry) (context : ParseContext)
    (hlocalizer : context.localizer = none) {id : CommandId} {declared : Command}
    {args as : List Argument} {words : List String} {xs ys : List Naming}
    (hget : p.registry.get? id = some declared) (hleaf : p.registry.childrenOf (some id) = [])
    (hargs : declared.arguments = .static args) (hpath : p.registry.Path id words)
    (hnames : List.Forall₂ (Mention.Names args) (xs.flatMap Naming.mentions) as)
    (hdistinct : as.Nodup) (hblind : ∀ a ∈ as, a.type.Blind)
    (hperm : (xs.flatMap Naming.mentions).Perm (ys.flatMap Naming.mentions)) :
    (∀ text text' cmds, p.config.ReadsNamings words xs text →
      p.config.ReadsNamings words ys text' → p.parse context text = .ok cmds →
        ∃ c d, cmds = [c] ∧ p.parse context text' = .ok [d] ∧ c.id = id ∧ d.id = id ∧
          BoundArgument.Rearranged c.arguments d.arguments) ∧
    ∀ zs : List Naming, (∀ z ∈ zs, z.Fits p.config.tokenRules) →
      TypableBefore p.config.tokenRules (zs.map Naming.text) words →
        p.config.ReadsNamings words zs (joined (p.registry.fullName id :: zs.map Naming.text)) := by
  have hr : p.registry.WellFormed := Registry.WellFormed.empty.registerAll hregistry
  have hdeclarable := hr.declarable hget
  rw [hargs] at hdeclarable
  have hmem : ∀ a ∈ as, a ∈ args :=
    ((List.forall₂_and_left _ _).mp (hnames.imp fun m a ha => ⟨ha.1, ha⟩).flip).1
  have hpair : as.Pairwise fun a b => a.id ≠ b.id :=
    hdistinct.imp_of_mem fun ha hb hne hid =>
      hne (hdeclarable.tellable.eq_of_id (hmem _ ha) (hmem _ hb) hid)
  refine ⟨fun text text' cmds hx hy hparse => ?_, fun zs hzs htypable => ?_⟩
  · obtain ⟨ks, us, stop, htokens, hks, hus⟩ := hx
    obtain ⟨ks', vs, stop', htokens', hks', hvs⟩ := hy
    obtain ⟨w, ws, rfl⟩ := List.exists_cons_of_ne_nil hpath.ne_nil
    obtain ⟨k, ks, hk, hws, rfl⟩ := List.forall₂_cons_left_iff.mp hks
    obtain ⟨k', ks', hk', hws', rfl⟩ := List.forall₂_cons_left_iff.mp hks'
    have hsorts : ((p.lineEnv context text).bindEnv .complete id declared).Sorts args :=
      ⟨LineEnv.knows_of_static hr hlocalizer hget hargs, hdeclarable⟩
    obtain ⟨r, hid, hcursor, herror, hok⟩ := LineEnv.parseCommands_called (p.lineEnv context text)
      hget hleaf (LineEnv.names_of_path hr hlocalizer hpath (.cons hk hws))
      (.prepend us (.finished stop))
    obtain ⟨r', hid', hcursor', -, hok'⟩ := LineEnv.parseCommands_called (p.lineEnv context text')
      hget hleaf (LineEnv.names_of_path hr hlocalizer hpath (.cons hk' hws'))
      (.prepend vs (.finished stop'))
    rw [parse, htokens, Tokens.prepend_cons] at hparse
    rw [parse, htokens', Tokens.prepend_cons]
    cases hb : ((p.lineEnv context text).bindEnv .complete id declared).bind r.cursor with
    | error f =>
      rw [herror f hb] at hparse
      cases hparse
    | ok b =>
      obtain ⟨hend, b', hb', hend', hbound⟩ := hsorts.bind_rearranged rfl text' hus hvs hperm hnames
        hblind hpair hcursor hcursor' hb
      rw [hok b stop hb hend] at hparse
      obtain ⟨_, hgate, rfl⟩ := exists_of_map_eq_ok hparse
      have hcontext : (p.lineEnv context text').context = (p.lineEnv context text).context := rfl
      have hgate' : (p.lineEnv context text').checkGate r' declared b'.state.bound = .ok () :=
        LineEnv.checkGate_rearranged hcontext hbound hgate
      refine ⟨_, (p.lineEnv context text').boundCommand r' declared b', rfl, ?_, hid, hid', hbound⟩
      rw [hok' b' stop' hb' hend', hgate']
      rfl
  · have hwords : ∀ w ∈ words, isWord w = true := hr.isWord_path hpath
    have hline : joined (p.registry.fullName id :: zs.map Naming.text) =
        joined (words ++ zs.map Naming.text) := by
      rw [hr.fullName_path hpath]
      exact intercalate_words hpath.ne_nil _
    rw [hline]
    exact ParserConfig.readsNamings_joined hwords htypable hzs

/-- How many lines a sort gives. -/
def Demo.limit : Argument := (Argument.new "limit" .int).withDefault (.int 10)

def Demo.sort : Command :=
  Demo.command "sort" "Sort lines" [.flag "reverse" 'r', .flag "numeric" 'n', limit]

/-- Two flags apart, and in one bundle behind the named argument. -/
theorem CommandParser.parse_rearranged_sort : ∃ c d,
    (Demo.parserOf Demo.sort).parse .empty "sort -r --limit=3 -n" = .ok [c] ∧
    (Demo.parserOf Demo.sort).parse .empty "sort --limit=3 -nr" = .ok [d] ∧
    BoundArgument.Rearranged c.arguments d.arguments := by
  let p := Demo.parserOf Demo.sort
  let three : Naming := .assigned "limit" (.scalar "3" default)
  have haccepted : (Registry.empty.registerAll [Demo.sort]).toBool = true := by decide +kernel
  have hregistry := Registry.registerAll_toOption haccepted
  have hnames : List.Forall₂ (Mention.Names [.flag "reverse" 'r', .flag "numeric" 'n', Demo.limit])
      ([Naming.bundle ['r'], three, .bundle ['n']].flatMap Naming.mentions)
      [.flag "reverse" 'r', Demo.limit, .flag "numeric" 'n'] :=
    .cons ⟨by simp, rfl, rfl⟩ (.cons ⟨by simp, List.mem_singleton_self _⟩
      (.cons ⟨by simp, rfl, rfl⟩ .nil))
  have hbundle : ∀ letters ∈ [['r'], ['n'], ['n', 'r']],
      letters ≠ [] ∧ p.config.tokenRules.isPlain (String.ofList ('-' :: letters)) = true := by
    decide +kernel
  have hfits : ∀ letters ∈ [['r'], ['n'], ['n', 'r']],
      (Naming.bundle letters).Fits p.config.tokenRules :=
    fun letters hl => (hbundle letters hl).imp_right TokenRules.plain_of_isPlain
  have hthree : three.Fits p.config.tokenRules := ⟨by decide, by decide, rfl, by decide⟩
  have hblind : ∀ a ∈ [Argument.flag "reverse" 'r', Demo.limit, .flag "numeric" 'n'],
      a.type.Blind := by
    simp [Demo.limit, Argument.flag, Argument.withDefault, Argument.new, ArgType.Blind]
  have hperm : ([Naming.bundle ['r'], three, .bundle ['n']].flatMap Naming.mentions).Perm
      ([three, .bundle ['n', 'r']].flatMap Naming.mentions) :=
    (List.perm_append_comm : ([Mention.flag 'r'] ++ _).Perm _)
  obtain ⟨hsame, hreads⟩ := parse_rearranged hregistry .empty rfl
    (Registry.get?_registerAll hregistry 0) (by decide +kernel) rfl (Demo.path_parserOf haccepted)
    hnames (List.Nodup.of_map Argument.id (by decide)) hblind hperm
  simp only [List.forall_mem_cons] at hfits
  obtain ⟨hr, hn, hnr, -⟩ := hfits
  have hapart : ∀ x ∈ [Naming.bundle ['r'], three, .bundle ['n']], x.Fits p.config.tokenRules :=
    List.forall_mem_cons.mpr ⟨hr, List.forall_mem_cons.mpr ⟨hthree, List.forall_mem_singleton.mpr hn⟩⟩
  have htogether : ∀ y ∈ [three, .bundle ['n', 'r']], y.Fits p.config.tokenRules :=
    List.forall_mem_cons.mpr ⟨hthree, List.forall_mem_singleton.mpr hnr⟩
  have hx := hreads _ hapart (by decide +kernel)
  have hy := hreads _ htogether (by decide +kernel)
  have hparse : (p.parse .empty "sort -r --limit=3 -n").toBool = true := by decide +kernel
  obtain ⟨cmds, hcmds⟩ := Except.exists_of_toBool hparse
  have hline : joined (p.registry.fullName 0 ::
      [Naming.bundle ['r'], three, .bundle ['n']].map Naming.text) = "sort -r --limit=3 -n" := by
    decide +kernel
  have hother : joined (p.registry.fullName 0 :: [three, .bundle ['n', 'r']].map Naming.text) =
      "sort --limit=3 -nr" := by
    decide +kernel
  rw [hline] at hx
  rw [hother] at hy
  obtain ⟨c, d, rfl, hd, -, -, hsame⟩ := hsame _ _ cmds hx hy hcmds
  exact ⟨c, d, hcmds, hd, hsame⟩

/-- A command with an argument that has to stand early in the line. -/
def Demo.early : Command :=
  Demo.command "c" "Take what stands early" [.flag "verbose" 'v',
    .new "at" (.custom ⟨"early", .single,
      fun v => if v.span.start < 8 then .ok .unit else .error "late", []⟩)]

/-- A bundle may be the word that ends the command, and a type may look at where a literal stands. -/
theorem CommandParser.parse_not_rearranged :
    let p : CommandParser := { Demo.parserOf Demo.sort with
      config := { (default : ParserConfig) with chainSeparator := "-rn" } }
    (p.registry.get? 0 = some Demo.sort ∧ p.registry.childrenOf (some 0) = [] ∧
      Demo.sort.arguments = .static [.flag "reverse" 'r', .flag "numeric" 'n', Demo.limit] ∧
      (∃ c, p.parse .empty "sort -r -n" = .ok [c] ∧
        (c.value? "reverse").map Value.display = some "true") ∧
      ∃ c, p.parse .empty "sort -rn" = .ok [c] ∧
        (c.value? "reverse").map Value.display = some "false") ∧
    (∃ cmds, (Demo.parserOf Demo.early).parse .empty "c --at=x -v" = .ok cmds) ∧
      ∃ f, (Demo.parserOf Demo.early).parse .empty "c -v --at=x" = .error f := by
  intro p
  refine ⟨?_, Except.exists_of_toBool (by decide +kernel),
    Except.exists_of_not_toBool (by decide +kernel)⟩
  exact ⟨Registry.get?_registerAll (Registry.registerAll_toOption (by decide +kernel)) 0,
    by decide +kernel, rfl, Except.exists_only (by decide +kernel),
    Except.exists_only (by decide +kernel)⟩

end CommandConsole
