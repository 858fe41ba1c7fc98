/-
# Localized names of arguments

An argument goes by the names that it declares and by those that a localizer
adds. Two arguments never declare the same name, but an added name may be one
that another argument declares. A name on the line goes to the first unbound
argument that goes by it. So a declared name goes to the argument that declares
it, unless it has been added to an unbound argument in front of that one.

Key definitions: `BindEnv.KnowsAlso`, `BindEnv.GoesTo`, `claimant`.
Key theorems: `BindEnv.bindToken_goesTo`, `BindEnv.bindToken_claimant`,
`BindEnv.goesTo_declared_iff`.
-/
import CommandConsole.Proofs.Binding.Named
import CommandConsole.Proofs.Binding.Skipping
import Mathlib.Data.List.Find

namespace CommandConsole

/-- Of some arguments in front of `a`, the first that the name `n` has been added to; or `a`. -/
def claimant (added : Argument → List String) (earlier : List Argument) (a : Argument) (n : String) :
    Argument :=
  (earlier.find? fun b => (added b).contains n).getD a

namespace BindEnv

/-- The arguments are fixed and can be told apart by their declared names, and go by the names
`added` as well. -/
structure KnowsAlso (env : BindEnv) (args : List Argument) (added : Argument → List String) :
    Prop where
  source : env.source = .static args
  longNames : ∀ a, env.longNames a = a.names ++ added a
  tellable : Argument.Tellable args

/-- The outcome of a token is one for the argument `a`, which it gives by name. -/
inductive GoesTo (env : BindEnv) (s : BindState) (a : Argument) :
    Except ParseFail (Option Bound) → Prop
  | bound {b : BoundArgument} {s' : BindState} {c : TokenCursor} (hid : b.id = a.id)
      (ho : b.origin = .named) (hb : s'.bound = s.bound ++ [b]) : GoesTo env s a (.ok (some (s', c)))
  /-- The partial line ends behind the name. -/
  | waits {c : TokenCursor} (hm : env.mode = .partialLine) :
      GoesTo env s a (.ok (some ({ s with pending := .value a }, c)))
  | noInput (span : Span) : GoesTo env s a (.error (env.noInput a span))
  | mismatch (m : TypeMismatch) : GoesTo env s a (.error (env.mismatch a m))
  /-- What stands behind the name cannot be read. -/
  | unreadable (g : LiteralFailure) : GoesTo env s a (.error (env.failLiteral g))

variable {env : BindEnv} {s : BindState} {a b : Argument} {t : Token} {c : TokenCursor}
  {v : Literal} {f : ParseFail} {n : String} {assigned : Option Literal}
  {args earlier later : List Argument} {added : Argument → List String}

/-! ### A named token has one argument -/

theorem takeAssigned_error (h : env.takeAssigned a v = .error f) : ∃ m, f = env.mismatch a m := by
  have hconvert : ∀ {w}, env.convert a w = .error f → ∃ m, f = env.mismatch a m := by
    intro w hw
    obtain ⟨m, -, hf⟩ := convert_error hw
    exact ⟨m, hf⟩
  unfold takeAssigned at h
  split at h
  · exact hconvert (error_of_map_eq_error h)
  · exact hconvert (error_of_map_eq_error h)
  · obtain ⟨m, -, hf, -⟩ := convertEach_breaks (error_of_map_eq_error h)
    exact ⟨m, hf⟩

theorem goesTo_assigned (env : BindEnv) (s : BindState) (a : Argument) (v : Literal) (c : TokenCursor) :
    env.GoesTo s a ((env.takeAssigned a v).map fun r =>
      some (s.push ⟨a.id, r.1, r.2, .named⟩, c)) := by
  cases htake : env.takeAssigned a v with
  | error f =>
    obtain ⟨m, rfl⟩ := takeAssigned_error htake
    exact .mismatch m
  | ok r => exact .bound rfl rfl rfl

theorem goesTo_switch (env : BindEnv) (s : BindState) (a : Argument) (t : Token) (c : TokenCursor) :
    env.GoesTo s a (.ok (some (bindSwitch s a t c))) := by
  unfold bindSwitch
  dsimp only
  split
  · split
    · exact .bound rfl rfl rfl
    · split
      · exact .bound rfl rfl rfl
      · exact .bound rfl rfl rfl
  · exact .bound rfl rfl rfl

theorem goesTo_following (env : BindEnv) (s : BindState) (a : Argument) (t : Token) (c : TokenCursor) :
    env.GoesTo s a ((env.bindFollowing s a t .named c).map some) := by
  unfold bindFollowing
  split
  · exact .unreadable _
  · split
    · rename_i hm
      exact .waits hm
    · exact .noInput t.span
  · rename_i next rest _
    split
    · rename_i v _
      cases htake : env.takeValue s a v (.past next rest) with
      | ok k => exact .bound rfl rfl (record_bound s a .named k)
      | error f =>
        rcases takeValue_error htake with hrun | ⟨m, rfl⟩
        · obtain ⟨g, rfl⟩ := runFrom_error hrun
          exact .unreadable g
        · exact .mismatch m
    · exact .noInput t.span

/-- **A name goes to the argument that is found by it**, whatever is given for it. -/
theorem bindToken_goesTo (hk : t.kind = .named n assigned)
    (hfind : env.findNamed? (env.remaining s) n = some a) :
    env.GoesTo s a (env.bindToken s t c) := by
  unfold bindToken
  rw [hk]
  dsimp only
  rw [bindNamed_of_findNamed? hfind]
  split
  · exact .noInput t.span
  · rename_i v _
    have hassigned := goesTo_assigned env s a v c
    cases htake : env.takeAssigned a v <;> rwa [htake] at hassigned
  · split
    · exact goesTo_switch env s a t c
    · exact goesTo_following env s a t c

/-- A name with nothing behind its equals sign tells the arguments apart. -/
theorem GoesTo.id_eq_of_noInput {span : Span} (h : env.GoesTo s a (.error (env.noInput b span))) :
    a.id = b.id := by
  generalize hf : (Except.error (env.noInput b span) : Except ParseFail (Option Bound)) = r at h
  cases h with
  | bound | waits => cases hf
  | noInput span' =>
    have hkind := congrArg ParseFail.kind (Except.error.inj hf)
    exact (FailKind.noInputForArgument.inj hkind).2.symm
  | mismatch m => cases congrArg ParseFail.kind (Except.error.inj hf)
  | unreadable g =>
    have hkind := congrArg ParseFail.kind (Except.error.inj hf)
    simp only [failLiteral, ParseFail.ofLiteral] at hkind
    split at hkind <;> cases hkind

/-! ### Which argument it is -/

theorem KnowsAlso.ids_remaining (h : env.KnowsAlso args added) (s : BindState) :
    (env.remaining s).Pairwise fun a b => a.id ≠ b.id := by
  rw [remaining, h.source]
  exact h.tellable.ids.sublist List.filter_sublist

/-- A declared name finds the argument that declares it, or one in front that it was added to. -/
theorem KnowsAlso.findNamed? (h : env.KnowsAlso args added)
    (hremaining : env.remaining s = earlier ++ a :: later) (hn : n ∈ a.names) :
    env.findNamed? (env.remaining s) n = some (claimant added earlier a n) := by
  have hids := h.ids_remaining s
  have hmem : ∀ b ∈ env.remaining s, b ∈ args := offers_static h.source s
  rw [hremaining] at hids hmem ⊢
  -- none of the arguments in front declares the name
  have hearlier : ∀ b ∈ earlier, ((env.longNames b).contains n) = (added b).contains n := by
    intro b hb
    have hne : b.id ≠ a.id := (List.pairwise_append.mp hids).2.2 b hb a List.mem_cons_self
    have hundeclared : n ∉ b.names := fun hnb => hne <| congrArg Argument.id <|
      h.tellable.eq_of_name (hmem b (List.mem_append_left _ hb))
        (hmem a (List.mem_append_right _ List.mem_cons_self)) hnb hn
    simp [h.longNames, hundeclared]
  have ha : (a :: later).find? (fun b => (env.longNames b).contains n) = some a := by
    rw [List.find?_cons, h.longNames, List.contains_iff_mem.mpr (List.mem_append_left _ hn)]
  rw [BindEnv.findNamed?, List.find?_append, List.find?_congr hearlier, ha, claimant]
  cases earlier.find? fun b => (added b).contains n <;> rfl

/-- **A declared name goes to the first argument in front that it was added to**, and to the one
that declares it if there is none. -/
theorem bindToken_claimant (h : env.KnowsAlso args added)
    (hremaining : env.remaining s = earlier ++ a :: later) (hn : n ∈ a.names)
    (hk : t.kind = .named n assigned) :
    env.GoesTo s (claimant added earlier a n) (env.bindToken s t c) :=
  bindToken_goesTo hk (h.findNamed? hremaining hn)

theorem claimant_eq_self (h : ∀ b ∈ earlier, n ∉ added b) : claimant added earlier a n = a := by
  have hnone : earlier.find? (fun b => (added b).contains n) = none :=
    List.find?_eq_none.mpr fun b hb => by simpa using h b hb
  rw [claimant, hnone, Option.getD_none]

/-- **A declared name goes to its argument in any case exactly if it was added to none in front.** -/
theorem goesTo_declared_iff (h : env.KnowsAlso args added)
    (hremaining : env.remaining s = earlier ++ a :: later) (hn : n ∈ a.names) :
    (∀ t assigned c, t.kind = .named n assigned → env.GoesTo s a (env.bindToken s t c)) ↔
      ∀ b ∈ earlier, n ∉ added b := by
  constructor
  · intro hall b hb hnb
    obtain ⟨d, hd⟩ : ∃ d, earlier.find? (fun b => (added b).contains n) = some d :=
      Option.isSome_iff_exists.mp (List.find?_isSome.mpr ⟨b, hb, by simpa using hnb⟩)
    have hfind := h.findNamed? hremaining hn
    rw [claimant, hd, Option.getD_some] at hfind
    -- with nothing behind the equals sign the failure names the argument
    have hgoes := hall ⟨.named n (some (.empty default)), default, ""⟩ _ ⟨0, .finished 0⟩ rfl
    have hfails : env.bindToken s ⟨.named n (some (.empty default)), default, ""⟩
        ⟨0, .finished 0⟩ = .error (env.noInput d default) := by
      rw [bindToken]
      dsimp only
      rw [bindNamed_of_findNamed? hfind]
      rfl
    rw [hfails] at hgoes
    have hids := h.ids_remaining s
    rw [hremaining] at hids
    exact (List.pairwise_append.mp hids).2.2 d (List.mem_of_find?_eq_some hd) a List.mem_cons_self
      hgoes.id_eq_of_noInput.symm
  · intro hnone t assigned c hk
    rw [← claimant_eq_self hnone (a := a)]
    exact bindToken_claimant h hremaining hn hk

end BindEnv
end CommandConsole
