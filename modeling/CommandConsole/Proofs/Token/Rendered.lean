/-
# Written literals on a command line

The written form of a literal is read as one token wherever it stands on a
line. Its quotes see to that: what is written without them holds nothing that a
line gives a meaning to, and does not look like a name or like flags. Only a
word that happens to be the separator is taken for something else.

Key definition: `Literal.ReadsBack`.
Key theorem: `Tokens.ofText_rendered`.
-/
import CommandConsole.Proofs.Token.Piece

namespace CommandConsole
namespace Literal

/-- The token is a value with the written form and the structure of `t`. It has no flags, and it
is a word exactly if `t` is a scalar that is written without quotes. -/
structure ReadsBack (t : Literal) (k : Token) : Prop where
  raw : k.raw = t.render
  kind : ∃ v, k.kind = .value v ∧ v.same t = true
  shortFlags : k.shortFlags? = none
  word : ∀ w, k.word? = some w ↔ (∃ span, t = .scalar w span) ∧ needsQuotes w = false

/-- A scalar is written with a quote in front exactly if it is written in quotes, and never with
a dash. -/
theorem renderScalar_head (text : String) : ∃ c cs, (renderScalar text).toList = c :: cs ∧
    c ≠ '-' ∧ (c = '"' ↔ needsQuotes text = true) := by
  unfold renderScalar
  split
  · rename_i h
    exact ⟨'"', _, toList_quote text, by decide, iff_of_true rfl h⟩
  · rename_i h
    have hplain := h
    rw [needsQuotes] at hplain
    split at hplain
    · exact absurd rfl hplain
    · rename_i c cs hcs
      simp only [Bool.or_eq_true, beq_iff_eq, List.any_cons, mustBeQuoted, List.contains_cons,
        not_or] at hplain
      obtain ⟨hdash, ⟨-, -, -, -, -, -, -, hquote, -⟩, -⟩ := hplain
      exact ⟨c, cs, hcs, hdash, iff_of_false hquote h⟩

theorem render_head (t : Literal) : ∃ c cs, t.render.toList = c :: cs ∧ c ≠ '-' := by
  cases t with
  | empty span => exact ⟨'"', ['"'], by simp [render], by decide⟩
  | scalar text span =>
    obtain ⟨c, cs, hcs, hdash, -⟩ := renderScalar_head text
    exact ⟨c, cs, hcs, hdash⟩
  | list items span => exact ⟨'[', (renderItems items ++ "]").toList, by simp [render], by decide⟩
  | map entries span =>
    exact ⟨'\x7b', (renderEntries entries ++ "\x7d").toList, by simp [render], by decide⟩

variable {rules : TokenRules} {t v : Literal} {c stop : Cursor} {rest : List Char}

/-- What is written in the token and read from it decides what the token says. -/
theorem ReadsBack.of_value {k : Token} (hraw : k.raw = t.render) (hk : k.kind = .value v)
    (hv : v.same t = true) : t.ReadsBack k := by
  obtain ⟨ch, cs, hcs, hdash⟩ := t.render_head
  refine ⟨hraw, ⟨v, hk, hv⟩, ?_, fun w => ?_⟩
  · unfold Token.shortFlags?
    rw [hraw, hcs]
    split
    · rename_i hd
      exact absurd (List.cons.inj hd).1 hdash
    · rfl
  · have hu : v.unspanned = t.unspanned := (same_iff v t).mp hv
    unfold Token.word?
    rw [hk, hraw]
    cases t with
    | scalar text span =>
      obtain ⟨span', rfl⟩ : ∃ span', v = .scalar text span' := by
        cases v <;> simp_all [unspanned]
      obtain ⟨d, ds, hds, -, hquote⟩ := renderScalar_head text
      have hhead : (renderScalar text).toList.head? = some d := by rw [hds]; rfl
      simp only [render, hhead, Option.some.injEq, hquote, scalar.injEq]
      by_cases hn : needsQuotes text = true
      · rw [if_pos hn]
        refine iff_of_false (by simp) ?_
        rintro ⟨⟨-, rfl, -⟩, hw⟩
        rw [hn] at hw
        cases hw
      · rw [if_neg hn]
        constructor
        · rintro ⟨⟩
          exact ⟨⟨span, rfl, rfl⟩, by simpa using hn⟩
        · rintro ⟨⟨-, rfl, -⟩, -⟩
          rfl
    | empty span => cases v <;> simp_all [unspanned]
    | list items span => cases v <;> simp_all [unspanned]
    | map entries span => cases v <;> simp_all [unspanned]

/-- **The written form of a literal is read back as one value**, in front of a blank or the end. -/
theorem readHere_render (he : t.EmptyFree) (hd : t.depth ≤ rules.maxDepth)
    (hsep : t.render ≠ rules.separator) (hc : c.rest = t.render.toList ++ rest)
    (hstops : Place.topLevel.Stops rest) :
    ∃ k stop, Token.readHere rules c = .ok (k, stop) ∧ stop.rest = rest ∧ t.ReadsBack k := by
  obtain ⟨v, stop, hread, hv, hrest⟩ := readValue_spells (spells_render t) hc hstops hd
  rw [t.filled_eq_self he] at hv
  obtain ⟨ch, cs, hcs, hdash⟩ := t.render_head
  have hname : Token.nameAt? rules c = none := by
    refine Token.nameAt?_of_not_dashes (by simp [hcs]) (fun ds hds => ?_) hc hstops
    rw [hcs] at hds
    exact hdash (List.cons.inj hds).1
  have htext : c.textTo stop = t.render := Cursor.textTo_of_rest (by rw [hc, hrest])
  refine ⟨_, stop, Token.readHere_of_readValue hname hread, hrest, .of_value htext ?_
    ((same_iff v t).mpr hv)⟩
  rw [Token.ofValue, htext, if_neg hsep]
  rfl

end Literal

/-- **A line of written literals is read as these literals**, one token for each. -/
theorem Tokens.ofText_rendered (rules : TokenRules) {ts : List Literal}
    (h : ∀ t ∈ ts, t.EmptyFree ∧ t.depth ≤ rules.maxDepth ∧ t.render ≠ rules.separator) :
    ∃ ks stop, ofText rules (String.intercalate " " (ts.map Literal.render)) =
        .prepend ks (.finished stop) ∧
      List.Forall₂ Literal.ReadsBack ts ks := by
  refine ofText_joined (fun t _ => ?_) (.of_forall fun t ht _ hstops _ hc => ?_)
  · obtain ⟨c, cs, hcs, hb, -⟩ := (spells_render t).head
    exact ⟨c, cs, hcs, hb⟩
  · obtain ⟨he, hd, hsep⟩ := h t ht
    exact Literal.readHere_render he hd hsep hc hstops

/-- A word, a list with a scalar that holds a blank, and scalars that look like flags and like the
separator. -/
theorem Tokens.ofText_rendered_list :
    let ts : List Literal := [.scalar "red" default, .list [.scalar "a b" default] default,
      .scalar "-rf" default, .scalar "&" default]
    (∀ t ∈ ts, t.EmptyFree ∧ t.depth ≤ (default : TokenRules).maxDepth ∧
      t.render ≠ (default : TokenRules).separator) ∧
    String.intercalate " " (ts.map Literal.render) = "red [\"a b\"] \"-rf\" \"&\"" ∧
    ∃ ks stop, ofText default (String.intercalate " " (ts.map Literal.render)) =
        .prepend ks (.finished stop) ∧
      List.Forall₂ Literal.ReadsBack ts ks := by
  intro ts
  have hts : ∀ t ∈ ts, t.EmptyFree ∧ t.depth ≤ (default : TokenRules).maxDepth ∧
      t.render ≠ (default : TokenRules).separator := by
    simp only [ts, List.forall_mem_cons]
    refine ⟨?_, ?_, ?_, ?_, by simp⟩
    all_goals exact ⟨by simp [Literal.EmptyFree, Literal.EmptyFreeItems], by decide, by decide +kernel⟩
  exact ⟨hts, by decide +kernel, ofText_rendered default hts⟩

end CommandConsole
