/-
# Localized names of commands

A localizer adds names to the declared ones, and takes none away. A word that
means a command without it still means that command, or several. So with it the
words of a line lead to the same command, or go on to one below, or one of them
is ambiguous; they never lead to another branch, and never to nothing.

Key definitions: `Registry.Descends`, `Registry.GoesOn`.
Key theorems: `Registry.matchChild_localized`, `Registry.descend_localized`,
`Registry.resolve_localized`.
-/
import CommandConsole.Proofs.Command.Forest
import Mathlib.Data.List.Basic
import Mathlib.Logic.Relation

namespace CommandConsole
namespace Registry

/-- The second command is the first one or is below it. -/
def Descends (r : Registry) : CommandId → CommandId → Prop :=
  Relation.ReflTransGen fun parent child => child ∈ r.childrenOf (some parent)

/-- From the command `id` the words lead further down, and an end of them is left; or one of them is
ambiguous. -/
def GoesOn (r : Registry) (id : CommandId) (words : List String)
    (outcome : Except ResolveError (CommandId × List String)) : Prop :=
  (∃ word candidates, outcome = .error (.ambiguous word candidates)) ∨
    ∃ last rest, outcome = .ok (last, rest) ∧ r.Descends id last ∧ rest <:+ words

variable {r : Registry} {parent : Option CommandId} {id : CommandId} {word : String}
  {words rest : List String}

/-! ### One word -/

theorem mem_childrenOf_of_matchChild {l : Option Localizer}
    (h : r.matchChild l parent word = .one id) : id ∈ r.childrenOf parent := by
  have hmem : id ∈ r.matching l parent word := by
    unfold matchChild at h
    split at h
    · cases h
    · rename_i i hone
      cases h
      rw [hone]
      exact List.mem_cons_self
    · cases h
  exact (List.mem_filter.mp hmem).1

theorem mem_namesOf_localized (l : Option Localizer) (h : word ∈ r.namesOf none id) :
    word ∈ r.namesOf l id := by
  unfold namesOf at h ⊢
  split at h
  · rename_i e _
    have hdeclared : word ∈ e.command.declaredNames := by simpa [Localizer.namesFor] using h
    exact List.mem_append_left _ hdeclared
  · cases h

/-- Whatever a word means, it goes on to mean with more names. -/
theorem matching_localized (l : Option Localizer) (parent : Option CommandId) (word : String) :
    (r.matching none parent word).Sublist (r.matching l parent word) := by
  apply List.monotone_filter_right
  intro id h
  rw [List.contains_iff_mem] at h ⊢
  exact mem_namesOf_localized l h

/-- **A word that means one command still means it**, and perhaps others. -/
theorem matchChild_localized (l : Option Localizer) (h : r.matchChild none parent word = .one id) :
    r.matchChild l parent word = .one id ∨ ∃ ids, r.matchChild l parent word = .many ids := by
  have hone : r.matching none parent word = [id] := by
    unfold matchChild at h
    split at h
    · cases h
    · rename_i i hone
      cases h
      exact hone
    · cases h
  have hmem : id ∈ r.matching l parent word :=
    (matching_localized l parent word).subset (by simp [hone])
  unfold matchChild
  split
  · rename_i hnone
    rw [hnone] at hmem
    cases hmem
  · rename_i i honly
    rw [honly] at hmem
    exact .inl (by rw [List.mem_singleton.mp hmem])
  · exact .inr ⟨_, rfl⟩

/-! ### All words -/

theorem GoesOn.here (r : Registry) (id : CommandId) (words : List String) :
    r.GoesOn id words (.ok (id, words)) :=
  .inr ⟨id, words, rfl, .refl, List.suffix_refl words⟩

/-- From any command words lead further down, whatever names there are. -/
theorem descend_goesOn (l : Option Localizer) : ∀ (words : List String) (id : CommandId),
    r.GoesOn id words (r.descend l id words)
  | [], id => .here r id []
  | word :: words, id => by
    rw [descend]
    cases hmatch : r.matchChild l (some id) word with
    | none => exact .here r id (word :: words)
    | many ids => exact .inl ⟨word, _, rfl⟩
    | one child =>
      rcases descend_goesOn l words child with hambiguous | ⟨last, rest, hd, hbelow, hrest⟩
      · exact .inl hambiguous
      · have hchild := mem_childrenOf_of_matchChild hmatch
        have hsuffix := hrest.trans (List.suffix_cons word words)
        exact .inr ⟨last, rest, hd, .head hchild hbelow, hsuffix⟩

/-- Where the words lead without localized names, they lead with them, and perhaps further: the two
descents keep together until the first one ends. -/
theorem descend_localized (l : Option Localizer) : ∀ {words : List String} {start : CommandId},
    r.descend none start words = .ok (id, rest) → r.GoesOn id rest (r.descend l start words)
  | [], _, h => by
    cases h
    exact .here r id []
  | word :: words, start, h => by
    rw [descend] at h
    cases hmatch : r.matchChild none (some start) word with
    | none =>
      rw [hmatch] at h
      cases h
      exact descend_goesOn l (word :: words) id
    | many ids =>
      rw [hmatch] at h
      cases h
    | one child =>
      rw [hmatch] at h
      rw [descend]
      rcases matchChild_localized l hmatch with hone | ⟨ids, hmany⟩
      · rw [hone]
        exact descend_localized l h
      · rw [hmany]
        exact .inl ⟨word, _, rfl⟩

/-- **A localizer leads words on, and never astray.** What resolves to a command without localized
names is ambiguous with them, or resolves to that command or to one below it, and leaves an end of
what was left before. -/
theorem resolve_localized (r : Registry) (l : Localizer) {words : List String} {id : CommandId}
    {rest : List String} (h : r.resolve none words = .ok (id, rest)) :
    (∃ word candidates, r.resolve (some l) words = .error (.ambiguous word candidates)) ∨
    ∃ last left, r.resolve (some l) words = .ok (last, left) ∧ r.Descends id last ∧ left <:+ rest := by
  cases words with
  | nil => cases h
  | cons word words =>
    rw [resolve] at h
    cases hmatch : r.matchChild none none word with
    | none =>
      rw [hmatch] at h
      cases h
    | many ids =>
      rw [hmatch] at h
      cases h
    | one root =>
      rw [hmatch] at h
      rw [resolve]
      rcases matchChild_localized (some l) hmatch with hone | ⟨ids, hmany⟩
      · rw [hone]
        exact descend_localized (some l) h
      · rw [hmany]
        exact .inl ⟨word, _, rfl⟩

end Registry

/-- A command with two others below it, one under the other. -/
def Demo.remotes : List Command :=
  [Command.new "git", { Command.new "remote" with parent := some "git" },
    { Command.new "add" with parent := some "git remote" }]

def Demo.remoteRegistry : Registry := (Registry.empty.registerAll remotes).toOption.getD .empty

/-- Names for the lowest of the three. -/
def Demo.remoteNames : Localizer :=
  ((default : LocaleTable).withNames "command.git remote add" ["neu", "origin"]).toLocalizer

/-- The word `origin` is left without localized names, and goes on to the command below with them. -/
theorem Registry.resolve_localized_origin :
    Demo.remoteRegistry.resolve none ["git", "remote", "origin", "url"] = .ok (1, ["origin", "url"]) ∧
    Demo.remoteRegistry.resolve (some Demo.remoteNames) ["git", "remote", "origin", "url"] =
      .ok (2, ["url"]) ∧
    Demo.remoteRegistry.Descends 1 2 := by
  have hwithout : Demo.remoteRegistry.resolve none ["git", "remote", "origin", "url"] =
      .ok (1, ["origin", "url"]) := rfl
  have hwith : Demo.remoteRegistry.resolve (some Demo.remoteNames)
      ["git", "remote", "origin", "url"] = .ok (2, ["url"]) := rfl
  refine ⟨hwithout, hwith, ?_⟩
  rcases resolve_localized Demo.remoteRegistry Demo.remoteNames hwithout with
    ⟨word, candidates, hambiguous⟩ | ⟨last, left, hok, hbelow, -⟩
  · rw [hwith] at hambiguous
    cases hambiguous
  · rw [hwith] at hok
    cases hok
    exact hbelow

end CommandConsole
