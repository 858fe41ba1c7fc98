/-
# Arguments that are named in any order

A token `--name=value` and a bundle of flags say themselves which arguments they
are for. What one of them binds does not depend on what the others have bound,
as long as they name other arguments. So such tokens may change places, and a
bundle may be taken apart or put together.

Key definitions: `Mention`, `Naming`, `BindEnv.Gives`, `BoundArgument.Rearranged`.
Key theorems: `BindEnv.bindTokens_namings`, `BindEnv.Sorts.bind_rearranged`.
-/
import CommandConsole.Proofs.Binding.AsList
import CommandConsole.Proofs.Binding.Interleaving
import CommandConsole.Proofs.Binding.Named
import Mathlib.Data.List.Perm.Basic

namespace CommandConsole

/-! ### What names arguments -/

/-- One argument is mentioned: by one of its long names, with a value, or by its short flag. -/
inductive Mention where
  | assigned (name : String) (value : Literal)
  | flag (letter : Char)

/-- The argument is the one of `args` that is mentioned. Only a switch can do with a flag alone. -/
def Mention.Names (args : List Argument) (m : Mention) (a : Argument) : Prop :=
  a ∈ args ∧ match m with
    | .assigned n _ => n ∈ a.names
    | .flag l => a.isSwitch = true ∧ a.short = some l

/-- A mention names one argument. -/
theorem Mention.Names.eq {m : Mention} {args : List Argument} {a b : Argument}
    (hd : Argument.Declarable args) (ha : m.Names args a) (hb : m.Names args b) : a = b := by
  cases m with
  | assigned n v => exact hd.tellable.eq_of_name ha.1 hb.1 ha.2 hb.2
  | flag l => exact hd.eq_of_short ha.1 hb.1 ha.2.2 hb.2.2

/-- What a token says that names arguments: `--name=value`, or a bundle of flags. -/
inductive Naming where
  | assigned (name : String) (value : Literal)
  | bundle (letters : List Char)

namespace Naming

/-- The arguments that it mentions, one by one. -/
def mentions : Naming → List Mention
  | .assigned n v => [.assigned n v]
  | .bundle letters => letters.map .flag

/-- The token says this. -/
def Says : Naming → Token → Prop
  | .assigned n v, t => (Piece.assigned n v).Reads t
  | .bundle letters, t => t.shortFlags? = some letters

theorem Says.isSeparator_eq {x : Naming} {t : Token} (h : x.Says t) : t.isSeparator = false := by
  cases x with
  | assigned n v =>
    obtain ⟨w, hk, -⟩ := h
    rw [Token.isSeparator, hk]
  | bundle letters => exact Token.isSeparator_of_isValue (Token.isValue_of_shortFlags? h)

end Naming

theorem Literal.isEmpty_of_filled {v w : Literal} (h : w.unspanned = v.filled.unspanned) :
    w.isEmpty = false := by
  cases w with
  | empty span => cases v <;> simp [Literal.filled, Literal.unspanned] at h
  | _ => rfl

/-- The two say the same of the same arguments, in whatever order. -/
def BoundArgument.Rearranged (bound bound' : List BoundArgument) : Prop :=
  ∃ es, List.Forall₂ Same bound es ∧ es.Perm bound'

/-! ### One token -/

namespace BindEnv

/-- The arguments are fixed and keep to the rules, and only declared names count. -/
structure Sorts (env : BindEnv) (args : List Argument) : Prop extends env.Knows args where
  declarable : Argument.Declarable args

/-- What an argument is bound to that is mentioned. -/
def mentioned (env : BindEnv) (a : Argument) : Mention → Except ParseFail BoundArgument
  | .assigned _ v => (env.takeAssigned a v.filled).map fun r => ⟨a.id, r.1, r.2, .named⟩
  | .flag _ => .ok ⟨a.id, .empty default, .bool true, .flag⟩

/-- The argument that is mentioned is bound to what `b` says. -/
def Gives (env : BindEnv) (args : List Argument) (m : Mention) (b : BoundArgument) : Prop :=
  ∃ a, m.Names args a ∧ env.mentioned a m = .ok b

variable {env : BindEnv} {args as : List Argument} {a : Argument} {s : BindState} {t : Token}
  {c : TokenCursor} {x : Naming} {xs : List Naming} {m : Mention} {us : List Token}
  {letters : List Char} {b : BoundArgument} {f : ParseFail}

theorem id_of_mentioned (h : env.mentioned a m = .ok b) : b.id = a.id := by
  cases m with
  | assigned n v =>
    obtain ⟨r, -, rfl⟩ := exists_of_map_eq_ok h
    rfl
  | flag l =>
    cases h
    rfl

/-- If what is mentioned cannot be bound, it is given nothing at all. -/
theorem Sorts.not_gives (h : env.Sorts args) (ha : m.Names args a) (hf : env.mentioned a m = .error f)
    (b : BoundArgument) : ¬env.Gives args m b := by
  rintro ⟨d, hd, hb⟩
  rw [hd.eq h.declarable ha, hf] at hb
  cases hb

theorem Knows.inText (h : env.Knows args) (text : String) : (env.inText text).Knows args :=
  ⟨h.source, h.longNames, h.tellable⟩

/-- The tokens of another line are sorted alike. -/
theorem Sorts.inText (h : env.Sorts args) (text : String) : (env.inText text).Sorts args :=
  ⟨h.toKnows.inText text, h.declarable⟩

/-- An assignment binds its argument, wherever it stands. -/
theorem bindToken_reads (h : env.Sorts args) (text : String) {n : String} {v : Literal}
    (ht : (Piece.assigned n v).Reads t) (ha : (Mention.assigned n v).Names args a)
    (hblind : a.type.Blind) (hf : a.FreeIn s) :
    Agree (ParseFail.Moved 0) (fun d r => ∃ b, r = some (s.push b, c) ∧ d.Same b)
      (env.mentioned a (.assigned n v)) ((env.inText text).bindToken s t c) := by
  obtain ⟨w, hk, hw⟩ := ht
  rw [bindToken_assignment hk (Literal.isEmpty_of_filled hw)
    ((h.inText text).findNamed? ha.1 hf ha.2)]
  have htake : Agree (ParseFail.Moved 0) (fun r r' => r.1.Alike .unplaced r'.1 ∧ r'.2 = r.2)
      (env.takeAssigned a v.filled) ((env.inText text).takeAssigned a w) :=
    takeAssigned_alike hblind.heeds hw
  exact htake.map fun r r' hr =>
    ⟨_, rfl, .of_alike rfl hr.1 hr.2 (by simp) (by simp)⟩

/-- A bundle binds its switches, wherever it stands. -/
theorem bindToken_switches (h : env.Sorts args) (ht : t.shortFlags? = some letters)
    (hn : List.Forall₂ (Mention.Names args) (letters.map .flag) as) (hfree : ∀ a ∈ as, a.FreeIn s)
    (hpair : as.Pairwise fun a b => a.id ≠ b.id) :
    env.bindToken s t c = .ok (some ({ s with bound := s.bound ++ given t as }, c)) := by
  have hflags : List.Forall₂ (fun a l => (a ∈ args ∧ a.isSwitch = true) ∧ a.short = some l)
      as letters :=
    ((List.forall₂_map_left_iff.mp hn).imp fun l a ha => ⟨⟨ha.1, ha.2.1⟩, ha.2.2⟩).flip
  obtain ⟨hswitch, hshort⟩ := (List.forall₂_and_left _ _).mp hflags
  have hbundle : flagBundle? env.policy (env.remaining s) t = some as :=
    flagBundle?_of_switches h.declarable (offers_static h.source s) ht
      (fun a ha => ⟨h.mem_remaining.mpr ⟨(hswitch a ha).1, hfree a ha⟩, (hswitch a ha).2⟩)
      (map_short_eq_iff.mpr hshort) hpair
  obtain ⟨v, hv⟩ := Option.isSome_iff_exists.mp (Token.isValue_of_shortFlags? ht)
  rw [bindToken, Token.value?_eq_some.mp hv]
  dsimp only
  rw [hbundle]
  dsimp only
  rw [bindFlags_switches fun a ha => (hswitch a ha).2]
  rfl

/-- **A token binds what it mentions**, or something that it mentions cannot be bound. -/
theorem bindToken_naming (h : env.Sorts args) (text : String) (hx : x.Says t)
    (hn : List.Forall₂ (Mention.Names args) x.mentions as) (hblind : ∀ a ∈ as, a.type.Blind)
    (hfree : ∀ a ∈ as, a.FreeIn s) (hpair : as.Pairwise fun a b => a.id ≠ b.id) :
    (∃ ds bs, List.Forall₂ (env.Gives args) x.mentions ds ∧ List.Forall₂ BoundArgument.Same ds bs ∧
      bs.map (·.id) = as.map (·.id) ∧ (env.inText text).bindToken s t c =
        .ok (some ({ s with bound := s.bound ++ bs }, c))) ∨
    (∃ m ∈ x.mentions, ∀ d, ¬env.Gives args m d) ∧
      ∃ f, (env.inText text).bindToken s t c = .error f := by
  cases x with
  | assigned n v =>
    obtain ⟨a, rest, ha, hrest, rfl⟩ := List.forall₂_cons_left_iff.mp hn
    obtain rfl := List.forall₂_nil_left_iff.mp hrest
    rcases (bindToken_reads (c := c) h text hx ha (hblind a List.mem_cons_self)
      (hfree a List.mem_cons_self)).cases with
      ⟨f, g, hf, hg, -⟩ | ⟨d, _, hd, hb, b, rfl, hsame⟩
    · exact .inr ⟨⟨_, List.mem_cons_self, h.not_gives ha hf⟩, g, hg⟩
    · refine .inl ⟨[d], [b], .cons ⟨a, ha, hd⟩ .nil, .cons hsame .nil, ?_, hb⟩
      rw [List.map_cons, hsame.id, id_of_mentioned hd]
      rfl
  | bundle letters =>
    refine .inl ⟨as.map fun a => ⟨a.id, .empty default, .bool true, .flag⟩, given t as, ?_, ?_, ?_,
      bindToken_switches (h.inText text) hx hn hfree hpair⟩
    · rw [Naming.mentions, List.forall₂_map_left_iff] at hn ⊢
      exact List.forall₂_map_right_iff.mpr (hn.imp fun l a ha => ⟨a, ha, rfl⟩)
    · rw [given, List.forall₂_map_left_iff, List.forall₂_map_right_iff, List.forall₂_same]
      exact fun a _ => ⟨rfl, same_empty rfl _, rfl, by simp⟩
    · rw [given, List.map_map]
      rfl

/-! ### The tokens of a line -/

/-- **Tokens that name different arguments bind what they mention, each by itself**, or something
that they mention cannot be bound. -/
theorem bindTokens_namings (h : env.Sorts args) (text : String) (stop : Nat)
    (hxs : List.Forall₂ Naming.Says xs us) : ∀ (s : BindState) (position : Nat) {as : List Argument},
      List.Forall₂ (Mention.Names args) (xs.flatMap Naming.mentions) as →
        (∀ a ∈ as, a.type.Blind) → (∀ a ∈ as, a.FreeIn s) → as.Pairwise (fun a b => a.id ≠ b.id) →
          (∃ ds bs s' position', List.Forall₂ (env.Gives args) (xs.flatMap Naming.mentions) ds ∧
            List.Forall₂ BoundArgument.Same ds bs ∧ s'.bound = s.bound ++ bs ∧
            (env.inText text).bindTokens s ⟨position, .prepend us (.finished stop)⟩ =
              .ok ⟨s', ⟨position', .finished stop⟩, false⟩) ∨
          (∃ m ∈ xs.flatMap Naming.mentions, ∀ d, ¬env.Gives args m d) ∧
            ∃ f, (env.inText text).bindTokens s ⟨position, .prepend us (.finished stop)⟩ =
              .error f := by
  induction hxs with
  | nil =>
    intro s position as hn _ _ _
    exact .inl ⟨[], [], s, position, .nil, .nil, (List.append_nil _).symm, bindTokens_finished rfl⟩
  | @cons x t xs us hx _ ih =>
    intro s position as hn hblind hfree hpair
    rw [List.flatMap_cons] at hn ⊢
    obtain ⟨as, rest, rfl, has, hrest⟩ := forall₂_append_left hn
    obtain ⟨hpas, hprest, hapart⟩ := List.pairwise_append.mp hpair
    obtain ⟨hbas, hbrest⟩ := List.forall_mem_append.mp hblind
    obtain ⟨hfas, hfrest⟩ := List.forall_mem_append.mp hfree
    rcases bindToken_naming (c := .past t (.prepend us (.finished stop))) h text hx has hbas hfas
      hpas with
      ⟨ds, bs, hds, hbs, hids, hbind⟩ | ⟨⟨m, hm, hnone⟩, f, hf⟩
    · let s' : BindState := { s with bound := s.bound ++ bs, stop := t.span.stop }
      have hfree' : ∀ a ∈ rest, a.FreeIn s' := by
        intro a ha b hb
        rcases List.mem_append.mp hb with hb | hb
        · exact hfrest a ha b hb
        · obtain ⟨d, hd, hid⟩ := List.mem_map.mp (hids ▸ List.mem_map_of_mem hb)
          exact hid ▸ hapart d hd a ha
      have hstep := bindTokens_some (c := ⟨position, .prepend (t :: us) (.finished stop)⟩) rfl
        hx.isSeparator_eq hbind
      rw [hstep]
      rcases ih s' t.span.stop hrest hbrest hfree' hprest with
        ⟨ds', bs', q, position', hds', hbs', hq, hrun⟩ | ⟨⟨m, hm, hnone⟩, hf⟩
      · refine .inl ⟨ds ++ ds', bs ++ bs', q, position', List.rel_append hds hds',
          List.rel_append hbs hbs', ?_, hrun⟩
        rw [hq, List.append_assoc]
      · exact .inr ⟨⟨m, List.mem_append_right _ hm, hnone⟩, hf⟩
    · exact .inr ⟨⟨m, List.mem_append_left _ hm, hnone⟩, f,
        bindTokens_error (c := ⟨position, .prepend (t :: us) (.finished stop)⟩) rfl
          hx.isSeparator_eq hf⟩

/-! ### The end of the command -/

/-- A mention gives its argument one thing. -/
theorem Sorts.gives_unique (h : env.Sorts args) : Relator.RightUnique (env.Gives args) := by
  rintro m b d ⟨a, ha, hb⟩ ⟨a', ha', hd⟩
  rw [ha.eq h.declarable ha', hd] at hb
  exact (Except.ok.inj hb).symm

variable {s' q : BindState} {ds ds' bs bs' : List BoundArgument}

/-- The same is given, so the same is bound. -/
theorem rearranged_of_perm (hperm : ds.Perm ds') (hbs : List.Forall₂ BoundArgument.Same ds bs)
    (hbs' : List.Forall₂ BoundArgument.Same ds' bs') : BoundArgument.Rearranged bs bs' := by
  obtain ⟨es, hes, hp⟩ := List.perm_comp_forall₂ hperm hbs'
  refine ⟨es, ?_, hp⟩
  clear hbs' hperm hp
  induction hbs generalizing es with
  | nil =>
    cases hes
    exact .nil
  | cons hb _ ih =>
    obtain ⟨e, rest, he, hrest, rfl⟩ := List.forall₂_cons_left_iff.mp hes
    exact .cons (hb.symm.trans he) (ih rest hrest)

/-- What is left to bind does not depend on the order in which the rest was bound. -/
theorem remaining_rearranged (h : env.Knows args) (text : String)
    (hs : BoundArgument.Rearranged s.bound s'.bound) :
    (env.inText text).remaining s' = env.remaining s := by
  obtain ⟨es, hsame, hperm⟩ := hs
  have hrest : (env.inText text).remaining { s' with bound := es } = env.remaining s :=
    remaining_same h (h.inText text) hsame
  rw [← hrest, remaining, remaining, (h.inText text).source]
  exact List.filter_congr fun a _ => by rw [hperm.any_eq]

theorem finish_rearranged (h : env.Knows args) (hm : env.mode = .complete) (text : String)
    (hs : BoundArgument.Rearranged s.bound s'.bound) (hq : env.finish s = .ok q) :
    ∃ q', (env.inText text).finish s' = .ok q' ∧ BoundArgument.Rearranged q.bound q'.bound := by
  have hremaining := remaining_rearranged h text hs
  obtain ⟨es, hsame, hperm⟩ := hs
  rw [finish, hm] at hq
  dsimp only at hq
  split at hq
  · cases hq
  · rename_i hnone
    cases hq
    have hdefaults : List.Forall₂ BoundArgument.Same (bindDefaults s (env.remaining s)).bound
        (bindDefaults { s' with bound := es } (env.remaining s)).bound :=
      bindDefaults_same (env.remaining s) hsame
    refine ⟨bindDefaults s' (env.remaining s), ?_, _, hdefaults, hperm.append_right _⟩
    rw [finish, show (env.inText text).mode = .complete from hm, hremaining]
    dsimp only
    rw [hnone]

/-- **Tokens that mention the same arguments bind them to the same**, defaults included, in
whatever order and bundles they do so. -/
theorem Sorts.bind_rearranged (h : env.Sorts args) (hm : env.mode = .complete) (text : String)
    {xs ys : List Naming} {us vs : List Token} (hxs : List.Forall₂ Naming.Says xs us)
    (hys : List.Forall₂ Naming.Says ys vs)
    (hperm : (xs.flatMap Naming.mentions).Perm (ys.flatMap Naming.mentions))
    (hn : List.Forall₂ (Mention.Names args) (xs.flatMap Naming.mentions) as)
    (hblind : ∀ a ∈ as, a.type.Blind) (hpair : as.Pairwise fun a b => a.id ≠ b.id)
    {c c' : TokenCursor} {stop stop' : Nat} (hc : c.tokens = .prepend us (.finished stop))
    (hc' : c'.tokens = .prepend vs (.finished stop')) {b : Binding} (hb : env.bind c = .ok b) :
    b.cursor.tokens = .finished stop ∧
      ∃ b', (env.inText text).bind c' = .ok b' ∧ b'.cursor.tokens = .finished stop' ∧
        BoundArgument.Rearranged b.state.bound b'.state.bound := by
  obtain ⟨position, _⟩ := c
  obtain rfl := hc
  obtain ⟨position', _⟩ := c'
  obtain rfl := hc'
  obtain ⟨as', hn', has⟩ := List.perm_comp_forall₂ hperm.symm hn
  have hpair' : as'.Pairwise fun a b => a.id ≠ b.id :=
    (has.pairwise_iff fun hab => hab.symm).mpr hpair
  have hfree : ∀ (n : Nat) (a : Argument), a.FreeIn (.start n) := fun n a b hb => by cases hb
  rw [bind] at hb
  rcases bindTokens_namings h env.text stop hxs (.start position) position hn hblind
    (fun a _ => hfree position a) hpair with
    ⟨ds, bs, s, p, hds, hbs, hbound, hrun⟩ | ⟨-, f, hf⟩
  · rw [show env.inText env.text = env from rfl] at hrun
    rw [hrun] at hb
    obtain ⟨q, hq, rfl⟩ := exists_of_map_eq_ok hb
    refine ⟨rfl, ?_⟩
    obtain ⟨es, hes, hpes⟩ := List.perm_comp_forall₂ hperm.symm hds
    rcases bindTokens_namings h text stop' hys (.start position') position' hn'
      (fun a ha => hblind a (has.mem_iff.mp ha)) (fun a _ => hfree position' a) hpair' with
      ⟨ds', bs', s', p', hds', hbs', hbound', hrun'⟩ | ⟨⟨m, hm', hnone⟩, -⟩
    · obtain rfl := h.gives_unique.forall₂ hds' hes
      have hsame : BoundArgument.Rearranged s.bound s'.bound := by
        rw [hbound, hbound']
        exact rearranged_of_perm hpes.symm hbs hbs'
      obtain ⟨q', hq', hqq⟩ := finish_rearranged h.toKnows hm text hsame hq
      refine ⟨⟨q', ⟨p', .finished stop'⟩, false⟩, ?_, rfl, hqq⟩
      rw [bind, hrun']
      dsimp only
      rw [hq']
      rfl
    · -- what the other tokens mention is given something by these
      have hgiven : List.Forall₂ (fun m d => (∃ d, env.Gives args m d) ∧ env.Gives args m d)
          (ys.flatMap Naming.mentions) es := hes.imp fun m d hd => ⟨⟨d, hd⟩, hd⟩
      obtain ⟨d, hd⟩ := ((List.forall₂_and_left _ _).mp hgiven).1 m hm'
      exact absurd hd (hnone d)
  · rw [show env.inText env.text = env from rfl] at hf
    rw [hf] at hb
    cases hb

end BindEnv
end CommandConsole
