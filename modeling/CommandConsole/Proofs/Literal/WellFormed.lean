/-
# Literals that are read are well formed

Every node of a literal that is read was derived somewhere in the text: it is
no empty literal, its span begins and ends between two characters, its parts
lie in it one after the other, and the containers around it are within the
limit. A container or a quoted scalar says where it begins and where it ends,
so its own text is read as the same literal again. Nothing like that holds of
a bareword: in `[a b]` the text of the item is two words.

Key definitions: `Literal.parts`, `Literal.Contains`, `Literal.Faithful`.
Key theorems: `Derives.node`, `Derives.reread`, `parseLiteral_faithful`.
-/
import CommandConsole.Proofs.Literal.Cut
import CommandConsole.Proofs.Literal.RoundTrip

namespace CommandConsole
namespace Literal

/-- The items of a list, the keys and values of a map: in the order of the text. -/
def parts : Literal → List Literal
  | .empty _ | .scalar _ _ => []
  | .list items _ => items
  | .map entries _ => entries.flatMap fun e => [e.1, e.2]

/-- The second literal is a node of the first. -/
inductive Contains : Literal → Literal → Prop
  | self (v : Literal) : Contains v v
  | part {v p n : Literal} (hp : p ∈ v.parts) (h : Contains p n) : Contains v n

/-- The characters `source` of the text are those that the span of the literal covers. -/
def Covers (text : String) (n : Literal) (source : List Char) : Prop :=
  ∃ before after, text.toList = before ++ (source ++ after) ∧
    n.span = ⟨byteLength before, byteLength (before ++ source)⟩

/-- The node stands in the text where its span says, with its parts in it, and what is written
there is the node. -/
structure Faithful (limit : Nat) (text : String) (n : Literal) : Prop where
  nonempty : n.isEmpty = false
  source : ∃ source, n.Covers text source ∧
    (n.kind ≠ .scalar ∨ source.head? = some '"' →
      ∃ w, parseLiteral limit (String.ofList source) = .ok w ∧ w.same n = true)
  encloses : ∀ p ∈ n.parts, n.span.Encloses p.span
  ordered : n.parts.Pairwise fun p q => p.span.stop ≤ q.span.start

/-! ### The order of the parts -/

theorem LaidItems.pairwise : ∀ {items : List Literal} {start stop : Nat},
    LaidItems start items stop → items.Pairwise fun p q => p.span.stop ≤ q.span.start
  | [], _, _, _ => .nil
  | _ :: _, _, _, ⟨_, _, his⟩ => .cons (fun j hj => (his.inside j hj).1) his.pairwise

theorem LaidEntries.flatten : ∀ {entries : List (Literal × Literal)} {start stop : Nat},
    LaidEntries start entries stop →
      LaidItems start (entries.flatMap fun e => [e.1, e.2]) stop
  | [], _, _, h => h
  | (_, _) :: _, _, _, ⟨hs, hk, hkv, hv, hes⟩ => ⟨hs, hk, hkv, hv, hes.flatten⟩

/-- The parts of a container lie one after the other between its brackets. -/
theorem Laid.parts : ∀ {v : Literal}, v.Laid → v.parts ≠ [] →
    LaidItems (v.span.start + 1) v.parts v.span.stop
  | .empty _, h, _ => h.elim
  | .scalar _ _, _, hne => absurd rfl hne
  | .list _ _, h, _ => h
  | .map _ _, h, _ => LaidEntries.flatten h

theorem Laid.contains {v n : Literal} (h : v.Contains n) (hv : v.Laid) : n.Laid := by
  induction h with
  | self => exact hv
  | part hp _ ih => exact ih ((hv.parts (List.ne_nil_of_mem hp)).laid _ hp)

theorem Laid.encloses {v : Literal} (hv : v.Laid) : ∀ p ∈ v.parts, v.span.Encloses p.span := by
  intro p hp
  obtain ⟨hstart, hstop⟩ := (hv.parts (List.ne_nil_of_mem hp)).inside p hp
  exact ⟨by omega, by omega⟩

theorem Laid.ordered {v : Literal} (hv : v.Laid) :
    v.parts.Pairwise fun p q => p.span.stop ≤ q.span.start := by
  by_cases hp : v.parts = []
  · rw [hp]
    exact .nil
  · exact (hv.parts hp).pairwise

end Literal

/-! ### The limit -/

variable {limit : Nat}

theorem Derives.isEmpty_eq {k : Nat} {c d : Cursor} {v : Literal} (h : Derives limit k c v d) :
    v.isEmpty = false := by
  cases h <;> rfl

mutual

theorem Derives.depth_le : ∀ {k : Nat} {c d : Cursor} {v : Literal}, Derives limit k c v d →
    k ≤ limit → v.depth + k ≤ limit
  | _, _, _, _, .word _, hk => by
    simp only [ScalarScan.literal, Literal.depth]
    omega
  | _, _, _, _, .quoted _ _, hk => by
    simp only [ScalarScan.literal, Literal.depth]
    omega
  | _, _, _, _, .emptyList hlt _ _, _ => by
    simp only [Literal.depth, Literal.depthItems]
    omega
  | _, _, _, _, .list hlt _ hv hvs, _ => by
    have := hv.depth_le hlt
    have := hvs.depth_le hlt
    simp only [Literal.depth, Literal.depthItems]
    omega
  | _, _, _, _, .emptyMap hlt _ _, _ => by
    simp only [Literal.depth, Literal.depthEntries]
    omega
  | _, _, _, _, .map hlt _ hv hvs, _ => by
    have := hv.depth_le hlt
    have := hvs.depth_le hlt
    simp only [Literal.depth, Literal.depthEntries]
    omega

theorem DerivesItems.depth_le : ∀ {k : Nat} {c e : Cursor} {vs : List Literal},
    DerivesItems limit k c vs e → k ≤ limit → Literal.depthItems vs + k ≤ limit
  | _, _, _, _, .close _, hk => by
    simp only [Literal.depthItems]
    omega
  | _, _, _, _, .more _ hv hvs, hk => by
    have := hv.depth_le hk
    have := hvs.depth_le hk
    simp only [Literal.depthItems]
    omega

theorem DerivesEntry.depth_le : ∀ {k : Nat} {c e : Cursor} {entry : Literal × Literal},
    DerivesEntry limit k c entry e → k ≤ limit →
      entry.1.depth + k ≤ limit ∧ entry.2.depth + k ≤ limit
  | _, _, _, _, .mk hkey _ hvalue, hk => ⟨hkey.depth_le hk, hvalue.depth_le hk⟩

theorem DerivesEntries.depth_le : ∀ {k : Nat} {c e : Cursor} {es : List (Literal × Literal)},
    DerivesEntries limit k c es e → k ≤ limit → Literal.depthEntries es + k ≤ limit
  | _, _, _, _, .close _, hk => by
    simp only [Literal.depthEntries]
    omega
  | _, _, _, _, .more _ hv hvs, hk => by
    have := hv.depth_le hk
    have := hvs.depth_le hk
    simp only [Literal.depthEntries]
    omega

end

/-! ### Where a node is derived -/

/-- The literal is derived between the two cursors, with `k` containers around it. -/
def Literal.Stands (limit k : Nat) (c : Cursor) (n : Literal) (d : Cursor) : Prop :=
  ∃ c' d', Derives limit k c' n d' ∧ c.Reaches c' ∧ d'.Reaches d

theorem Literal.Stands.widen {k : Nat} {b c d e : Cursor} {n : Literal} (h : n.Stands limit k c d)
    (hb : b.Reaches c) (he : d.Reaches e) : n.Stands limit k b e := by
  obtain ⟨c', d', hn, hc, hd⟩ := h
  exact ⟨c', d', hn, hb.trans hc, hd.trans he⟩

theorem Derives.stands {k : Nat} {c d : Cursor} {v : Literal} (h : Derives limit k c v d) :
    v.Stands limit k c d := ⟨c, d, h, .refl c, .refl d⟩

theorem DerivesItems.stands : ∀ {k : Nat} {c e : Cursor} {vs : List Literal},
    DerivesItems limit k c vs e → ∀ p ∈ vs, p.Stands limit k c e
  | _, c, _, _, .more _ hv hvs, p, hp => by
    rcases List.mem_cons.mp hp with rfl | hp
    · exact hv.stands.widen c.reaches_behind hvs.reaches
    · exact (hvs.stands p hp).widen (c.reaches_behind.trans hv.reaches) (.refl _)

theorem DerivesEntry.stands {k : Nat} {c e : Cursor} {entry : Literal × Literal}
    (h : DerivesEntry limit k c entry e) : ∀ p ∈ [entry.1, entry.2], p.Stands limit k c e := by
  cases h with
  | @mk _ _ d _ _ _ hkey hc hvalue =>
    refine List.forall_mem_cons.mpr ⟨?_, List.forall_mem_singleton.mpr ?_⟩
    · exact hkey.stands.widen (.refl c) (d.reaches_behind.trans hvalue.reaches)
    · exact hvalue.stands.widen (hkey.reaches.trans d.reaches_behind) (.refl e)

theorem DerivesEntries.stands : ∀ {k : Nat} {c e : Cursor} {es : List (Literal × Literal)},
    DerivesEntries limit k c es e →
      ∀ p ∈ es.flatMap fun e => [e.1, e.2], p.Stands limit k c e
  | _, c, _, _, .more _ hv hvs, p, hp => by
    rcases List.mem_append.mp hp with hp | hp
    · exact (hv.stands p hp).widen c.reaches_behind hvs.reaches
    · exact (hvs.stands p hp).widen (c.reaches_behind.trans hv.reaches) (.refl _)

/-- A part of a literal is derived inside it. -/
theorem Derives.part {k : Nat} {c d : Cursor} {v p : Literal} (h : Derives limit k c v d)
    (hp : p ∈ v.parts) : p.Stands limit (k + 1) c d := by
  cases h with
  | word => cases hp
  | quoted => cases hp
  | emptyList => cases hp
  | emptyMap => cases hp
  | list hk ho hv hvs =>
    rcases List.mem_cons.mp hp with rfl | hp
    · exact hv.stands.widen c.reaches_inside hvs.reaches
    · exact (hvs.stands p hp).widen (c.reaches_inside.trans hv.reaches) (.refl _)
  | map hk ho hv hvs =>
    rcases List.mem_append.mp hp with hp | hp
    · exact (hv.stands p hp).widen c.reaches_inside hvs.reaches
    · exact (hvs.stands p hp).widen (c.reaches_inside.trans hv.reaches) (.refl _)

/-- **Every node of a literal is derived inside it.** -/
theorem Derives.node {v n : Literal} (hn : v.Contains n) {k : Nat} {c d : Cursor}
    (h : Derives limit k c v d) : ∃ j, n.Stands limit j c d := by
  induction hn generalizing k c d with
  | self => exact ⟨k, h.stands⟩
  | part hp _ ih =>
    obtain ⟨c', d', hpart, hc, hd⟩ := h.part hp
    obtain ⟨j, hstands⟩ := ih hpart
    exact ⟨j, hstands.widen hc hd⟩

/-! ### The text of a node -/

/-- The span of a literal begins at the cursor and ends before the blanks that a bareword drops
from its end. -/
theorem Derives.span {k : Nat} {c d : Cursor} {v : Literal} (h : Derives limit k c v d) :
    ∃ e, v.span = c.spanTo e ∧ c.Reaches e ∧ e.Reaches d ∧
      ((∃ ch, c.peek = some ch ∧ opensGroup ch = true) → e = d) := by
  have hall : v.span = c.spanTo d → ∃ e, v.span = c.spanTo e ∧ c.Reaches e ∧ e.Reaches d ∧
      ((∃ ch, c.peek = some ch ∧ opensGroup ch = true) → e = d) :=
    fun hs => ⟨d, hs, h.reaches, .refl d, fun _ => rfl⟩
  cases h with
  | word hw =>
    obtain ⟨stop, ho, hc, ha, -⟩ := c.word_startsAt k
    refine ⟨stop, ?_, hc, ha, ?_⟩
    · rw [Cursor.spanTo, ho]
      rfl
    · rintro ⟨ch, hpeek, hopens⟩
      rw [Cursor.BeginsWord, hpeek] at hw
      rw [hw.1] at hopens
      cases hopens
  | quoted hq hc =>
    have hstop := (scanQuoted_reaches c.advance.offset c.advance.rest).2
    exact hall (congrArg (Span.mk c.offset) hstop)
  | emptyList => exact hall rfl
  | list => exact hall rfl
  | emptyMap => exact hall rfl
  | map => exact hall rfl

/-- A container begins with its bracket. -/
theorem Derives.opener {k : Nat} {c d : Cursor} {v : Literal} (h : Derives limit k c v d)
    (hv : v.kind ≠ .scalar) : ∃ ch, c.peek = some ch ∧ opensGroup ch = true := by
  cases h with
  | word => exact absurd rfl hv
  | quoted => exact absurd rfl hv
  | emptyList _ ho => exact ⟨_, ho, by decide⟩
  | list _ ho => exact ⟨_, ho, by decide⟩
  | emptyMap _ ho => exact ⟨_, ho, by decide⟩
  | map _ ho => exact ⟨_, ho, by decide⟩

theorem isBlank_of_opensGroup {ch : Char} (h : opensGroup ch = true) : isBlank ch = false := by
  simp only [opensGroup, List.contains_cons, List.contains_nil, Bool.or_false, Bool.or_eq_true,
    beq_iff_eq] at h
  rcases h with rfl | rfl | rfl <;> decide

/-- A literal that begins by opening a group takes its first character. -/
theorem Derives.rest_length_lt {k : Nat} {c d : Cursor} {v : Literal} (h : Derives limit k c v d)
    (ho : ∃ ch, c.peek = some ch ∧ opensGroup ch = true) : d.rest.length < c.rest.length := by
  obtain ⟨ch, hpeek, hopens⟩ := ho
  have hbehind : c.advance.Reaches d := by
    have hinside : c.advance.Reaches c.inside := .skipBlanks c.advance
    cases h with
    | word hw =>
      rw [Cursor.BeginsWord, hpeek] at hw
      rw [hw.1] at hopens
      cases hopens
    | quoted => exact (scanQuoted_reaches c.advance.offset c.advance.rest).1
    | emptyList => exact hinside.trans (.advance _)
    | list _ _ hv hvs => exact hinside.trans (hv.reaches.trans hvs.reaches)
    | emptyMap => exact hinside.trans (.advance _)
    | map _ _ hv hvs => exact hinside.trans (hv.reaches.trans hvs.reaches)
  have hlt := Cursor.advance_rest_length_lt hpeek
  have hle := hbehind.rest_length_le
  omega

/-- **What is written between the brackets or quotes of a node is read as the node again.** -/
theorem Derives.reread {k : Nat} {c d : Cursor} {v : Literal} {source : List Char}
    (h : Derives limit k c v d) (ho : ∃ ch, c.peek = some ch ∧ opensGroup ch = true)
    (hs : c.rest = source ++ d.rest) :
    ∃ w, parseLiteral limit (String.ofList source) = .ok w ∧ w.same v = true := by
  have hcut : c.CutTo d.rest ⟨0, source⟩ := hs
  obtain ⟨w, e, hw, he, hwv⟩ := h.cut (Nat.zero_le k) (.inr ho) hcut (Nat.le_refl _)
  have hrest : e.rest = [] := List.append_left_eq_self.mp he.symm
  have hlt := h.rest_length_lt ho
  obtain ⟨ch, hpeek, hopens⟩ := ho
  have hhead : ∃ cs, source = ch :: cs := by
    have hpeek' := (hcut.peek hlt).trans hpeek
    exact List.head?_eq_some_iff.mp hpeek'
  obtain ⟨cs, rfl⟩ := hhead
  have hstart : Cursor.start (String.ofList (ch :: cs)) = ⟨0, ch :: cs⟩ := by
    rw [Cursor.start, String.toList_ofList]
  refine ⟨w, parseLiteral_of_readValue ?_ (hrest ▸ AllBlank.nil), (Literal.same_iff ..).mpr hwv⟩
  rw [hstart, Cursor.skipBlanks_eq_self (dropBlanks_cons (isBlank_of_opensGroup hopens) cs)]
  exact readValue_iff_derives.mpr hw

/-! ### The theorem -/

/-- What is read of a whole text is derived in it. -/
theorem derives_of_parseLiteral {text : String} {v : Literal}
    (h : parseLiteral limit text = .ok v) :
    ∃ c d, (Cursor.start text).Reaches c ∧ Derives limit 0 c v d ∧ v.Laid := by
  cases hread : readValue limit (Cursor.start text).skipBlanks with
  | error f =>
    rw [parseLiteral_of_readValue_error hread] at h
    cases h
  | ok p =>
    obtain ⟨w, d⟩ := p
    obtain rfl : w = v := by
      simp only [parseLiteral, hread, bind, Except.bind] at h
      split at h
      · exact Except.ok.inj h
      · cases h
    exact ⟨_, d, .skipBlanks _, readValue_iff_derives.mp hread, (readValue_laid hread).1⟩

/-- A literal that is derived in a text covers its part of it. -/
theorem Derives.covers {text : String} {k : Nat} {c d : Cursor} {n : Literal}
    (hc : (Cursor.start text).Reaches c) (h : Derives limit k c n d) :
    ∃ source, n.Covers text source ∧ (n.kind ≠ .scalar ∨ source.head? = some '"' →
      ∃ w, parseLiteral limit (String.ofList source) = .ok w ∧ w.same n = true) := by
  obtain ⟨before, htext, hoffset⟩ := hc
  obtain ⟨e, hspan, ⟨source, hrest, hstop⟩, -, hall⟩ := h.span
  have hoffset : c.offset = byteLength before := by rw [hoffset, Cursor.start, Nat.zero_add]
  refine ⟨source, ⟨before, e.rest, ?_, ?_⟩, fun hkind => ?_⟩
  · rw [← hrest]
    exact htext
  · rw [hspan, Cursor.spanTo, hstop, hoffset, byteLength_append]
  · have ho : ∃ ch, c.peek = some ch ∧ opensGroup ch = true := by
      rcases hkind with hkind | hquote
      · exact h.opener hkind
      · obtain ⟨cs, rfl⟩ := List.head?_eq_some_iff.mp hquote
        exact ⟨'"', Cursor.peek_of_rest hrest, by decide⟩
    obtain rfl := hall ho
    exact h.reread ho hrest

/-- **A literal that is read is well formed.** Its containers are within the limit, and every node
of it stands in the text where its span says: it is not empty, its parts lie in it one after the
other, and the text of a container or of a quoted scalar is read as that node. -/
theorem parseLiteral_faithful {text : String} {v : Literal} (h : parseLiteral limit text = .ok v) :
    v.depth ≤ limit ∧ ∀ n, v.Contains n → n.Faithful limit text := by
  obtain ⟨c, d, hc, hv, hlaid⟩ := derives_of_parseLiteral h
  refine ⟨hv.depth_le (Nat.zero_le limit), fun n hn => ?_⟩
  have hn' := hlaid.contains hn
  obtain ⟨j, c', d', hnode, hcc', -⟩ := hv.node hn
  exact ⟨hnode.isEmpty_eq, hnode.covers (hc.trans hcc'), hn'.encloses, hn'.ordered⟩

/-- A quoted key, a bareword with a blank in it and one behind it, and a list in a list. -/
theorem parseLiteral_faithful_map :
    let text := "\x7b\"k=\" = [é b ,[]] \x7d"
    ∃ v, parseLiteral 3 text = .ok v ∧ v.parts.map Literal.span = [⟨1, 5⟩, ⟨8, 18⟩] ∧
      v.depth ≤ 3 ∧ ∀ n, v.Contains n → n.Faithful 3 text := by
  intro text
  have hparts : (parseLiteral 3 text).toOption.map (fun v => v.parts.map Literal.span) =
      some [⟨1, 5⟩, ⟨8, 18⟩] := by
    decide +kernel
  cases hread : parseLiteral 3 text with
  | error f =>
    rw [hread] at hparts
    cases hparts
  | ok v =>
    rw [hread] at hparts
    exact ⟨v, rfl, Option.some.inj hparts, parseLiteral_faithful hread⟩

end CommandConsole
