/-
# A value assigned to a name, and a value behind it

`--name=value` and `--name value` are two ways to write one thing. Two lines
that differ in this one place have the same tokens in front of the name and
behind the value, at the same offsets. At the name the binder is in the same
state in both, and it is in the same state again behind the value: so it does
the same from there on.

Key definitions: `Resolved.PartAt`, `BindPlace.TakesNext`.
Key theorems: `LineEnv.parseCommands_inText`, `LineEnv.Begins.parseCommands_partAt`,
`LineEnv.Meets.parseCommands_assigned`, `CommandParser.parse_assigned_or_following`.
-/
import CommandConsole.Proofs.Binding.Parting
import CommandConsole.Proofs.Line.AsList
import CommandConsole.Proofs.Line.Skipping
import CommandConsole.Proofs.Token.Assigned

namespace CommandConsole

/-- The same command, named by the same tokens. -/
structure Resolved.Same (r r' : Resolved) : Prop where
  id : r'.id = r.id
  span : r'.span = r.span

/-- The name of a command ends in front of the place where two lines part. -/
structure Resolved.PartAt (A B : Tokens) (r r' : Resolved) : Prop extends Resolved.Same r r' where
  cursor : r.cursor.PartAt A B r'.cursor

/-! ### The way to the place -/

namespace BindEnv.Reaches

variable {env : BindEnv} {s q : BindState} {c d : TokenCursor}

theorem exists_prepend (h : env.Reaches s c q d) :
    ∃ used, c.tokens = .prepend used d.tokens := by
  induction h with
  | refl s c => exact ⟨[], rfl⟩
  | @step _ _ _ c c' _ t rest hc _ hb _ ih =>
    obtain ⟨used, hused, -⟩ := bindToken_effect (P := fun _ => True) (fun _ _ _ => trivial) hb
    obtain ⟨more, hmore⟩ := ih
    refine ⟨t :: (used ++ more), ?_⟩
    rw [hc, Tokens.prepend_cons, Tokens.prepend_append, ← hmore]
    exact congrArg _ hused

/-- In a complete line nothing is left open on the way. -/
theorem pending (hm : env.mode = .complete) (h : env.Reaches s c q d) (hs : s.pending = .none) :
    q.pending = .none := by
  induction h with
  | refl s c => exact hs
  | step _ _ hb _ ih =>
    have hpending := bindToken_pending hm hs hb
    exact ih hpending

/-- Both lines come to the place where they part in the same state. -/
theorem partAt {A B : Tokens} {text : String} (htext : Aligned env.text text)
    (h : env.Reaches s c q d) (hd : A.length ≤ d.tokens.length) : ∀ c', c.PartAt A B c' →
      ∃ d', (env.inText text).Reaches s c' q d' ∧ d.PartAt A B d' := by
  induction h with
  | refl s c => exact fun c' hc => ⟨c', .refl s c', hc⟩
  | @step s s' q c c1 d t rest hc ht hb hr ih =>
    intro c' hpart
    obtain ⟨used, hused⟩ := hr.exists_prepend
    have hle := bindToken_remaining_le hb
    have hlength := congrArg Tokens.length hused
    simp only [Tokens.length, Tokens.toList_prepend, List.length_append] at hlength
    simp only [TokenCursor.remaining, TokenCursor.past, Tokens.length] at hle hd
    obtain ⟨rest', hc', hrest⟩ := (hc ▸ hpart.tokens).exists_of_more
      (by simp only [Tokens.length]; omega)
    have hpast : (TokenCursor.past t rest).PartAt A B (.past t rest') := ⟨rfl, hrest⟩
    obtain ⟨y, hy, hxy⟩ := (bindToken_partAt htext s t hpast).of_ok hb
    cases hxy with
    | @some _ y hxy =>
      obtain ⟨q', c1'⟩ := y
      obtain ⟨rfl, hc1⟩ : q' = s' ∧ c1.PartAt A B c1' := hxy
      obtain ⟨d', hd', hpart'⟩ := ih hd c1' hc1
      exact ⟨d', .step hc' ht hy (hc1.position ▸ hd'), hpart'⟩

end BindEnv.Reaches
namespace LineEnv

variable {env : LineEnv} {text : String} {A B : Tokens} {mode : BindMode} {t : Token}
  {rest rest' ts : Tokens} {r r' : Resolved} {c : Command} {b b' : BindEnv.Binding}

/-! ### Commands up to the place where the lines part -/

theorem childMatch_named {name : String} {assigned : Option Literal}
    (ht : t.kind = .named name assigned) (parent : Option CommandId) :
    env.childMatch parent t = .none := by
  rw [childMatch, Token.word?_named ht]

/-- A name of an argument names no command. -/
theorem descend_partAt (env : LineEnv) (text : String) {ts us : Tokens}
    (h : Tokens.PartAt A B ts us) : ∀ (id : CommandId) (span : Span),
      Agree ParseFail.Matches (Resolved.PartAt A B) (env.descend id span ts)
        ((env.inText text).descend id span us) := by
  induction h with
  | finished stop => exact fun id span => .ok ⟨⟨rfl, rfl⟩, rfl, .finished stop⟩
  | broken start f => exact fun id span => .ok ⟨⟨rfl, rfl⟩, rfl, .broken start f⟩
  | @more t ts us h ih =>
    intro id span
    have hmatch : (env.inText text).childMatch (some id) t = env.childMatch (some id) t := rfl
    rw [descend, descend, hmatch]
    cases env.childMatch (some id) t with
    | none => exact .ok ⟨⟨rfl, rfl⟩, rfl, .more t h⟩
    | one child => exact ih child _
    | many ids => exact .error ⟨rfl, rfl⟩
  | here hA hB =>
    intro id span
    have hhere := Tokens.PartAt.here hA hB
    obtain ⟨t, rest, name, assigned, rfl, ht⟩ := hA
    obtain ⟨u, us, name', assigned', rfl, hu⟩ := hB
    rw [descend, descend, childMatch_named ht, childMatch_named hu]
    exact .ok ⟨⟨rfl, rfl⟩, rfl, hhere⟩

theorem resolve_partAt (env : LineEnv) (text : String) (t : Token)
    (h : Tokens.PartAt A B rest rest') :
    Agree ParseFail.Matches (Resolved.PartAt A B) (env.resolve t rest)
      ((env.inText text).resolve t rest') := by
  have hmatch : (env.inText text).childMatch none t = env.childMatch none t := rfl
  unfold resolve
  rw [hmatch]
  cases env.childMatch none t with
  | none => exact .error ⟨rfl, rfl⟩
  | one id => exact descend_partAt env text h id _
  | many ids => exact .error ⟨rfl, rfl⟩

theorem bindCommand_of_resolve (hr : env.resolve t rest = .ok r)
    (hc : env.registry.get? r.id = some c) :
    env.bindCommand mode t rest =
      ((env.bindEnv mode r.id c).bind r.cursor).map fun b => (r, c, b) := by
  rw [bindCommand, hr]
  dsimp only
  rw [hc]

/-- What a command comes to in both lines. -/
def Parsed (A B : Tokens) (x y : Resolved × Command × BindEnv.Binding) : Prop :=
  x.1.Same y.1 ∧ y.2.1 = x.2.1 ∧ x.2.2.PartAt A B y.2.2

theorem bindEnv_inText (text : String) (hr : r.Same r') (mode : BindMode) (c : Command) :
    (env.inText text).bindEnv mode r'.id c = (env.bindEnv mode r.id c).inText text := by
  rw [hr.id]
  rfl

/-- **A command that ends in front of the place where two lines part is parsed in both.** -/
theorem bindCommand_partAt (htext : Aligned env.text text)
    (h : env.bindCommand mode t rest = .ok (r, c, b)) (hrest : Tokens.PartAt A B rest rest')
    (hleft : A.length ≤ b.cursor.remaining) :
    ∃ y, (env.inText text).bindCommand mode t rest' = .ok y ∧ Parsed A B (r, c, b) y := by
  obtain ⟨hres, hget, hbind⟩ := bindCommand_eq_ok h
  obtain ⟨r', hres', hr⟩ := (resolve_partAt env text t hrest).of_ok hres
  have hbound : Aligned (env.bindEnv mode r.id c).text text := htext
  obtain ⟨b', hb', hb⟩ := BindEnv.bind_partAt hbound hr.cursor hbind hleft
  have hget' : (env.inText text).registry.get? r'.id = some c := hr.id ▸ hget
  refine ⟨(r', c, b'), ?_, hr.toSame, rfl, hb⟩
  rw [bindCommand_of_resolve hres' hget', bindEnv_inText text hr.toSame, hb']
  rfl

/-- A command is parsed in the same way if its tokens are bound in the same way. -/
theorem bindCommand_matches (hres : env.resolve t rest = .ok r)
    (hres' : (env.inText text).resolve t rest' = .ok r') (hr : r.Same r')
    (h : ∀ c, env.registry.get? r.id = some c → Agree ParseFail.Matches Eq
      ((env.bindEnv mode r.id c).bindTokens (.start r.cursor.position) r.cursor)
      (((env.bindEnv mode r.id c).inText text).bindTokens (.start r'.cursor.position) r'.cursor)) :
    Agree ParseFail.Matches (Parsed A B) (env.bindCommand mode t rest)
      ((env.inText text).bindCommand mode t rest') := by
  have hget' : (env.inText text).registry.get? r'.id = env.registry.get? r.id := by
    rw [hr.id]
    rfl
  cases hget : env.registry.get? r.id with
  | none =>
    rw [hget] at hget'
    have hnone : ∀ {e : LineEnv} {q : Resolved} {us : Tokens}, e.resolve t us = .ok q →
        e.registry.get? q.id = none → e.bindCommand mode t us = .error (e.notFound t) := by
      intro e q us hq hnone
      rw [bindCommand, hq]
      dsimp only
      rw [hnone]
    rw [hnone hres hget, hnone hres' hget']
    exact .error ⟨rfl, rfl⟩
  | some c =>
    rw [hget] at hget'
    rw [bindCommand_of_resolve hres hget, bindCommand_of_resolve hres' hget',
      bindEnv_inText text hr]
    refine (BindEnv.bind_matches (h c hget)).map fun b b' hbb => ?_
    subst hbb
    exact ⟨hr, rfl, rfl, rfl, rfl, .refl A B _⟩

theorem checkGate_matches (text : String) (hr : r.Same r') (c : Command)
    (bound : List BoundArgument) :
    Agree ParseFail.Matches Eq (env.checkGate r c bound)
      ((env.inText text).checkGate r' c bound) := by
  have hgate : (env.inText text).gate? c r'.span bound = env.gate? c r.span bound := by
    rw [hr.span]
    rfl
  unfold checkGate
  rw [hgate]
  cases env.gate? c r.span bound with
  | none => exact .ok rfl
  | some p => exact .error ⟨by rw [hr.id]; rfl, rfl⟩

/-- A command, and the rest of the line behind it. -/
theorem parseCommands_matches (ht : t.isSeparator = false)
    (h : Agree ParseFail.Matches (Parsed A B) (env.bindCommand .complete t rest)
      ((env.inText text).bindCommand .complete t rest'))
    (hnext : ∀ r c b, env.bindCommand .complete t rest = .ok (r, c, b) →
      ∀ ts', Tokens.PartAt A B b.cursor.tokens ts' → Agree ParseFail.Matches Eq
        (env.parseCommands b.cursor.tokens) ((env.inText text).parseCommands ts')) :
    Agree ParseFail.Matches Eq (env.parseCommands (.more t rest))
      ((env.inText text).parseCommands (.more t rest')) := by
  rcases h.cases with ⟨f, g, hf, hg, hfg⟩ | ⟨⟨r, c, b⟩, ⟨r', c', b'⟩, hx, hy, hr, hc, hb⟩
  · rw [parseCommands_error ht hf, parseCommands_error ht hg]
    exact .error hfg
  · obtain rfl : c' = c := hc
    have hstate : b'.state = b.state := hb.state
    have hgate : Agree ParseFail.Matches Eq (env.checkGate r c' b.state.bound)
        ((env.inText text).checkGate r' c' b.state.bound) := checkGate_matches text hr c' _
    rcases hgate.cases with ⟨f, g, hf, hg, hfg⟩ | ⟨⟨⟩, ⟨⟩, hf, hg, -⟩
    · rw [parseCommands_refused ht hx hf, parseCommands_refused ht hy (hstate ▸ hg)]
      exact .error hfg
    · have hbound : (env.inText text).boundCommand r' c' b' = env.boundCommand r c' b := by
        rw [boundCommand, boundCommand, hr.id, hr.span, hstate]
        rfl
      rw [parseCommands_command ht hx hf, parseCommands_command ht hy (hstate ▸ hg), hbound]
      exact (hnext r c' b hx _ hb.cursor.tokens).map fun _ _ h => congrArg _ h

/-! ### Behind that place -/

/-- The same tokens are parsed in the same way in both lines. -/
theorem parseCommands_inText (htext : Aligned env.text text) (ts : Tokens) :
    Agree ParseFail.Matches Eq (env.parseCommands ts) ((env.inText text).parseCommands ts) := by
  -- the lines part nowhere
  have hcommand : ∀ t rest, Agree ParseFail.Matches (Parsed (.finished 0) (.finished 0))
      (env.bindCommand .complete t rest) ((env.inText text).bindCommand .complete t rest) := by
    intro t rest
    have hpart : Tokens.PartAt (.finished 0) (.finished 0) rest rest := .refl _ _ rest
    rcases (resolve_partAt env text t hpart).cases with ⟨f, g, hf, hg, hfg⟩ | ⟨r, r', hr, hr', hrr⟩
    · rw [bindCommand, bindCommand, hf, hg]
      exact .error hfg
    · refine bindCommand_matches hr hr' hrr.toSame fun c _ => ?_
      have hcursor : r'.cursor = r.cursor := by
        obtain ⟨hposition, htokens⟩ := hrr.cursor
        have htokens := htokens.eq_of_finished
        cases hc : r.cursor
        cases hc' : r'.cursor
        simp_all
      have hbound : Aligned (env.bindEnv .complete r.id c).text text := htext
      rw [hcursor]
      exact BindEnv.bindTokens_inText hbound _ _
  induction hn : ts.length using Nat.strongRecOn generalizing ts with
  | ind n ih =>
    cases ts with
    | finished stop => rw [parseCommands, parseCommands]; exact .ok rfl
    | broken start f => rw [parseCommands, parseCommands]; exact .error (htext.matches_ofLiteral f)
    | more t rest =>
      rw [Tokens.length_more] at hn
      by_cases ht : t.isSeparator = true
      · rw [parseCommands_separator ht, parseCommands_separator ht]
        exact ih rest.length (by omega) rest rfl
      · refine parseCommands_matches (by simpa using ht) (hcommand t rest)
          fun r c b hb ts' hts => ?_
        obtain rfl := hts.eq_of_finished
        have hle := bindCommand_remaining_le hb
        rw [TokenCursor.remaining] at hle
        exact ih _ (by omega) _ rfl

/-! ### A line -/

/-- The commands begin behind the first token of the line, or with it. -/
theorem Begins.length_lt {head : Token} {tail : Tokens} (h : env.Begins ts head tail) :
    tail.length < ts.length := by
  induction h with
  | here => exact Nat.lt_succ_self _
  | separator _ _ ih => exact Nat.lt_succ_of_lt ih
  | behind _ hb _ _ ih =>
    have hle := bindCommand_remaining_le hb
    rw [TokenCursor.remaining] at hle
    rw [Tokens.length_more]
    omega

/-- **Two lines agree if they do from the command on in which they part.** -/
theorem Begins.parseCommands_partAt (htext : Aligned env.text text) {head : Token} {tail : Tokens}
    (h : env.Begins ts head tail) (hA : A.length ≤ tail.length)
    (hlast : ∀ tail', Tokens.PartAt A B tail tail' → Agree ParseFail.Matches Eq
      (env.parseCommands (.more head tail)) ((env.inText text).parseCommands (.more head tail'))) :
    ∀ ts', Tokens.PartAt A B ts ts' → Agree ParseFail.Matches Eq
      (env.parseCommands ts) ((env.inText text).parseCommands ts') := by
  induction h with
  | here =>
    intro ts' hpart
    obtain ⟨tail', rfl, htail⟩ := hpart.exists_of_more hA
    exact hlast tail' htail
  | @separator t u rest us ht hb ih =>
    intro ts' hpart
    obtain ⟨rest', rfl, hrest⟩ := hpart.exists_of_more (Nat.le_trans hA (Nat.le_of_lt hb.length_lt))
    rw [parseCommands_separator ht, parseCommands_separator ht]
    exact ih hA hlast rest' hrest
  | @behind t u rest us r c b ht hb hg hbegins ih =>
    intro ts' hpart
    have hle := bindCommand_remaining_le hb
    have hlt := hbegins.length_lt
    rw [TokenCursor.remaining] at hle
    obtain ⟨rest', rfl, hrest⟩ := hpart.exists_of_more (by omega)
    obtain ⟨y, hy, hparsed⟩ := bindCommand_partAt htext hb hrest
      (by rw [TokenCursor.remaining]; omega)
    have hcommand : Agree ParseFail.Matches (Parsed A B) (env.bindCommand .complete t rest)
        ((env.inText text).bindCommand .complete t rest') := by
      rw [hb, hy]
      exact .ok hparsed
    refine parseCommands_matches ht hcommand fun r' c' b' hb' ts'' hts => ?_
    rw [hb] at hb'
    cases hb'
    exact ih hA hlast ts'' hts

theorem Begins.exists_prepend {head : Token} {tail : Tokens} (h : env.Begins ts head tail) :
    ∃ used, ts = .prepend used (.more head tail) := by
  induction h with
  | here => exact ⟨[], rfl⟩
  | @separator t _ _ _ _ _ ih =>
    obtain ⟨used, hused⟩ := ih
    exact ⟨t :: used, by rw [hused, Tokens.prepend_cons]⟩
  | @behind t _ rest _ _ _ b _ hb _ _ ih =>
    obtain ⟨names, front, sep, -, -, -, hrest, -⟩ :=
      bindCommand_tokens (P := fun _ => True) hb fun _ _ _ => trivial
    obtain ⟨used, hused⟩ := ih
    refine ⟨t :: (names ++ front ++ sep.toList ++ used), ?_⟩
    rw [Tokens.prepend_cons, Tokens.prepend_append, ← hused, ← hrest]

/-- The token at a place of the line is a token of the line. -/
theorem Meets.exists_prepend {k : BindPlace} (h : env.Meets ts k) :
    (∃ used, ts = .prepend used k.before.tokens) ∧ ∃ used, k.tail = .prepend used k.before.tokens := by
  obtain ⟨front, hts⟩ := h.begins.exists_prepend
  obtain ⟨names, htail, -⟩ := resolve_names h.resolves
  obtain ⟨used, hcursor⟩ := h.reaches.exists_prepend
  have htail' : k.tail = .prepend (names ++ used) k.before.tokens := by
    rw [Tokens.prepend_append, ← hcursor, htail]
  refine ⟨⟨front ++ k.head :: (names ++ used), ?_⟩, _, htail'⟩
  rw [Tokens.prepend_append, Tokens.prepend_cons, ← htail', hts]

end LineEnv

/-- The token of the place is the name `n`, and the token behind it is the one value `v`. In front
of it the name is that of an unbound argument that takes one value. -/
structure BindPlace.TakesNext (k : BindPlace) (n v : String) : Prop where
  token : k.token.kind = .named n none
  next : ∃ u us w a, k.rest = .more u us ∧ u.kind = .value w ∧ u.raw = v ∧
    k.env.findNamed? k.remaining n = some a ∧ a.TakesOne w

namespace LineEnv

variable {env : LineEnv} {text : String} {ts : Tokens} {k : BindPlace}

/-- **A line with a name and its value, and the line in which the value is assigned to the name.** -/
theorem Meets.parseCommands_assigned (htext : Aligned env.text text) (hk : env.Meets ts k)
    {n : String} {u t' : Token} {us : Tokens} {w : Literal} {a : Argument}
    (ht : k.token.kind = .named n none) (hrest : k.rest = .more u us) (hu : u.kind = .value w)
    (hfind : k.env.findNamed? k.remaining n = some a) (ha : a.TakesOne w)
    (ht' : t'.kind = .named n (some w)) (hstop : t'.span.stop = u.span.stop)
    (he : w.isEmpty = false) {used : List Token} (hts : ts = .prepend used k.before.tokens) :
    Agree ParseFail.Matches Eq (env.parseCommands ts)
      ((env.inText text).parseCommands (.prepend used (.more t' us))) := by
  have hA : Tokens.StartsName k.before.tokens := ⟨_, _, _, _, rfl, ht⟩
  have hB : Tokens.StartsName (.more t' us) := ⟨_, _, _, _, rfl, ht'⟩
  have hpart : Tokens.PartAt k.before.tokens (.more t' us) ts (.prepend used (.more t' us)) :=
    hts ▸ Tokens.PartAt.prepend (.here hA hB) used
  obtain ⟨-, behind, htail⟩ := hk.exists_prepend
  have hle : k.before.tokens.length ≤ k.tail.length := by
    simp only [Tokens.length, htail, Tokens.toList_prepend, List.length_append]
    omega
  refine hk.begins.parseCommands_partAt htext hle (fun tail' htail' => ?_) _ hpart
  obtain ⟨r', hr', hrr⟩ := (resolve_partAt env text k.head htail').of_ok hk.resolves
  -- both lines come to the name in the same state
  have henv : k.env.inText text = (env.bindEnv .complete k.resolved.id k.command).inText text := by
    rw [hk.binds]
  have htext' : Aligned k.env.text text := by rw [hk.binds]; exact htext
  obtain ⟨d, hd, hdd⟩ := hk.reaches.partAt htext' (Nat.le_refl _) _ hrr.cursor
  have hpending : k.state.pending = .none := hk.reaches.pending (by rw [hk.binds]; rfl) rfl
  have hplace : Agree ParseFail.Matches Eq (k.env.bindTokens k.state k.before)
      ((k.env.inText text).bindTokens k.state d) := by
    obtain ⟨p, ds⟩ := d
    obtain rfl : p = k.position := hdd.position
    rcases (show Tokens.PartAt _ _ (.more k.token k.rest) ds from hdd.tokens).of_more with
      ⟨rest', rfl, hrest'⟩ | ⟨-, rfl, -⟩
    · obtain rfl := hrest'.eq_of_length_lt (Nat.lt_succ_self _)
      exact BindEnv.bindTokens_inText htext' _ _
    · rw [BindPlace.before, hrest]
      exact BindEnv.bindTokens_assigned htext' ht hu ht' hstop he hfind ha hpending _
  have hbind : Agree ParseFail.Matches (Parsed (.finished 0) (.finished 0))
      (env.bindCommand .complete k.head k.tail)
      ((env.inText text).bindCommand .complete k.head tail') := by
    refine bindCommand_matches hk.resolves hr' hrr.toSame fun c hc => ?_
    obtain rfl := Option.some.inj (hk.declared.symm.trans hc)
    rw [← henv, ← hk.binds, hk.reaches.bindTokens_eq, hrr.cursor.position, hd.bindTokens_eq]
    exact hplace
  refine parseCommands_matches hk.begins.isSeparator_eq hbind fun r c b _ ts' hts => ?_
  obtain rfl := hts.eq_of_finished
  exact parseCommands_inText htext _

end LineEnv

/-- **`--name=value` and `--name value` are the same to the parser**, where the name is that of an
unbound argument that takes one value: the commands are the same, or the failures are of the same
kind, at the same place. -/
theorem CommandParser.parse_assigned_or_following (p : CommandParser) (context : ParseContext)
    {front n v rest : String} {j k : BindPlace} (ha : p.config.assignSyntax = true)
    (hj : (p.lineEnv context (front ++ "--" ++ n ++ "=" ++ v ++ rest)).Meets
      (p.config.tokensOf (front ++ "--" ++ n ++ "=" ++ v ++ rest)) j)
    (hjstart : j.token.span.start = textLength front)
    (hk : (p.lineEnv context (front ++ "--" ++ n ++ " " ++ v ++ rest)).Meets
      (p.config.tokensOf (front ++ "--" ++ n ++ " " ++ v ++ rest)) k)
    (hkstart : k.token.span.start = textLength front) (hnext : k.TakesNext n v) :
    Agree ParseFail.Matches Eq
      (p.parse context (front ++ "--" ++ n ++ " " ++ v ++ rest))
      (p.parse context (front ++ "--" ++ n ++ "=" ++ v ++ rest)) := by
  obtain ⟨ht, u, us, w, a, hrest, hu, hv, hfind, htakes⟩ := hnext
  obtain ⟨⟨before, hline⟩, -⟩ := hk.exists_prepend
  obtain ⟨⟨before', hline'⟩, -⟩ := hj.exists_prepend
  have hafter : k.before.tokens = .more k.token (.more u us) := by rw [BindPlace.before, hrest]
  have htokens : p.config.tokensOf (front ++ "--" ++ n ++ " " ++ v ++ rest) =
      .prepend before (.more k.token (.more u us)) := by rw [hline, hafter]
  obtain ⟨rfl, hus, ht', hstop, he⟩ := Tokens.ofText_assigned ha htokens hkstart ht hu hv hline' hjstart
  have haligned : Aligned (front ++ "--" ++ n ++ " " ++ v ++ rest)
      (front ++ "--" ++ n ++ "=" ++ v ++ rest) := by
    refine Aligned.of_sameSizes ?_
    have hrefl : ∀ cs, SameSizes cs cs := fun cs => List.forall₂_same.mpr fun _ _ => rfl
    have hone : SameSizes " ".toList "=".toList := .cons (by decide) .nil
    simp only [String.toList_append]
    exact List.rel_append (List.rel_append (List.rel_append (hrefl _) hone) (hrefl _)) (hrefl _)
  generalize front ++ "--" ++ n ++ " " ++ v ++ rest = line at *
  generalize front ++ "--" ++ n ++ "=" ++ v ++ rest = line' at *
  have htext : Aligned (p.lineEnv context line).text line' := haligned
  have henv : (p.lineEnv context line).inText line' = p.lineEnv context line' := rfl
  have hparse := LineEnv.Meets.parseCommands_assigned htext hk ht hrest hu hfind
    htakes ht' hstop he hline
  rw [henv, ← hus] at hparse
  rw [parse, parse, hline']
  exact hparse

/-- A list for an argument that takes one. -/
theorem CommandParser.parse_assigned_or_following_mean :
    Agree ParseFail.Matches Eq ((Demo.parserOf Demo.average).parse .empty "mean --numbers [1]")
      ((Demo.parserOf Demo.average).parse .empty "mean --numbers=[1]") := by
  have haccepted : (Registry.empty.registerAll [Demo.average]).toBool = true := by decide +kernel
  let v : Literal := .list [.scalar "1" ⟨16, 17⟩] ⟨15, 18⟩
  let t : Token := ⟨.value (.scalar "mean" ⟨0, 4⟩), ⟨0, 4⟩, "mean"⟩
  let u : Token := ⟨.named "numbers" none, ⟨5, 14⟩, "--numbers"⟩
  let w : Token := ⟨.value v, ⟨15, 18⟩, "[1]"⟩
  let x : Token := ⟨.named "numbers" (some v), ⟨5, 18⟩, "--numbers=[1]"⟩
  obtain ⟨k, hk, hu, hrest, hsource, hbound, -⟩ := Demo.exists_meets Demo.average
    ("mean " ++ "--" ++ "numbers" ++ " " ++ "[1]" ++ "") (t := t) (u := u) haccepted
    (show _ = Tokens.more t (.more u (.more w (.finished 18))) by decide +kernel) rfl rfl
    (by decide +kernel)
  obtain ⟨j, hj, hx, -⟩ := Demo.exists_meets Demo.average
    ("mean " ++ "--" ++ "numbers" ++ "=" ++ "[1]" ++ "") (t := t) (u := x) haccepted
    (show _ = Tokens.more t (.more x (.finished 18)) by decide +kernel) rfl rfl (by decide +kernel)
  have hremaining : k.remaining = [Demo.numbers] := by
    rw [BindPlace.remaining, BindEnv.remaining, hsource, hbound]
    rfl
  have hfind : k.env.findNamed? k.remaining "numbers" = some Demo.numbers := by
    rw [hremaining, hk.binds]
    rfl
  have hnext : k.TakesNext "numbers" "[1]" :=
    ⟨hu ▸ rfl, w, .finished 18, v, Demo.numbers, hrest, rfl, rfl, hfind, rfl, .inr ⟨rfl, .inl rfl⟩⟩
  have hagree := parse_assigned_or_following (Demo.parserOf Demo.average) .empty rfl hj
    (by rw [hx]; decide) hk (by rw [hu]; decide) hnext
  have hline : "mean " ++ "--" ++ "numbers" ++ " " ++ "[1]" ++ "" = "mean --numbers [1]" := by decide
  have hline' : "mean " ++ "--" ++ "numbers" ++ "=" ++ "[1]" ++ "" = "mean --numbers=[1]" := by decide
  rw [hline, hline'] at hagree
  exact hagree

end CommandConsole
