/-
# Which declarations are accepted

A declaration is checked step by step, and the first fault is reported. There is
none exactly if the declaration keeps to a few rules, which can be said without
the order of the checks: each argument by itself, any two of them side by side,
and the command beside those that are registered.

Key definitions: `Argument.Proper`, `Argument.Apart`, `Argument.Declarable`, `Registry.Admits`.
Key theorems: `argumentFault?_eq_none`, `Registry.Sound.register_iff`.
-/
import CommandConsole.Proofs.Command.Forest

namespace CommandConsole

theorem Multiplicity.isMulti_eq_false {m : Multiplicity} : m.isMulti = false ↔ m = .single := by
  cases m <;> simp [isMulti]

/-! ### Arguments -/

namespace Argument

/-- The rules for an argument by itself. -/
structure Proper (a : Argument) : Prop where
  words : ∀ n ∈ a.names, isWord n = true
  /-- No long name stands twice. -/
  names : a.names.Nodup
  /-- A short flag is a letter of an argument that takes one value. -/
  short : ∀ flag ∈ a.short, a.multiplicity = .single ∧ isBlank flag = false ∧ flag ≠ '-'
  kind : a.multiplicity = .multiple → a.type.kind = .list ∨ a.type.kind = .map

/-- Two arguments have neither an id nor a long name nor a short flag in common. -/
structure Apart (a b : Argument) : Prop where
  id : a.id ≠ b.id
  names : ∀ n ∈ a.names, n ∉ b.names
  short : ∀ flag ∈ a.short, flag ∉ b.short

/-- The rules for the arguments of a command. Only the last may take several values. -/
structure Declarable (args : List Argument) : Prop where
  proper : ∀ a ∈ args, a.Proper
  apart : args.Pairwise Apart
  last : ∀ a ∈ args.dropLast, a.multiplicity = .single

theorem declarable_cons {a : Argument} {rest : List Argument} :
    Declarable (a :: rest) ↔ a.Proper ∧ (∀ b ∈ rest, a.Apart b) ∧
      (rest.isEmpty = false → a.multiplicity = .single) ∧ Declarable rest := by
  have hlast : (∀ b ∈ (a :: rest).dropLast, b.multiplicity = .single) ↔
      (rest.isEmpty = false → a.multiplicity = .single) ∧
        ∀ b ∈ rest.dropLast, b.multiplicity = .single := by
    cases rest <;> simp
  constructor
  · rintro ⟨hproper, hapart, hsingle⟩
    obtain ⟨ha, hrest⟩ := List.forall_mem_cons.mp hproper
    obtain ⟨hab, hpair⟩ := List.pairwise_cons.mp hapart
    obtain ⟨hone, hsingle⟩ := hlast.mp hsingle
    exact ⟨ha, hab, hone, hrest, hpair, hsingle⟩
  · rintro ⟨ha, hab, hone, hrest, hpair, hsingle⟩
    exact ⟨List.forall_mem_cons.mpr ⟨ha, hrest⟩, List.pairwise_cons.mpr ⟨hab, hpair⟩,
      hlast.mpr ⟨hone, hsingle⟩⟩

/-- At most one of the arguments takes several values. -/
theorem Declarable.multi_le_one : ∀ {args : List Argument}, Declarable args →
    (args.filter (·.multiplicity.isMulti)).length ≤ 1
  | [], _ => by simp
  | a :: rest, h => by
    obtain ⟨-, -, hone, hrest⟩ := declarable_cons.mp h
    cases rest with
    | nil => exact List.length_filter_le _ _
    | cons b rest =>
      rw [List.filter_cons, Multiplicity.isMulti_eq_false.mpr (hone rfl)]
      exact hrest.multi_le_one

theorem Declarable.tellable {args : List Argument} (h : Declarable args) : Tellable args :=
  ⟨h.apart.imp fun hab => hab.id, h.apart.imp fun hab => hab.names, fun a ha => (h.proper a ha).words⟩

/-- A short flag belongs to one argument. -/
theorem Declarable.eq_of_short {args : List Argument} (h : Declarable args) {a b : Argument}
    (ha : a ∈ args) (hb : b ∈ args) {l : Char} (hal : a.short = some l) (hbl : b.short = some l) :
    a = b := by
  have hsymm : Std.Symm fun a b : Argument => ∀ l ∈ a.short, l ∉ b.short :=
    ⟨fun _ _ h l hb ha => h l ha hb⟩
  by_contra hne
  exact (h.apart.imp fun hab => hab.short).forall ha hb hne l hal hbl

end Argument

theorem shortFault?_eq_none {command : String} {used : List Char} {a : Argument} :
    shortFault? command used a = none ↔
      (∀ flag ∈ a.short, a.multiplicity = .single ∧ isBlank flag = false ∧ flag ≠ '-') ∧
        ∀ flag ∈ a.short, flag ∉ used := by
  unfold shortFault?
  cases a.short with
  | none => simp
  | some flag =>
    simp only [Option.mem_def, Option.some.injEq, forall_eq', ← Multiplicity.isMulti_eq_false]
    by_cases hbad : (a.multiplicity.isMulti || isBlank flag || flag == '-') = true
    · rw [if_pos hbad]
      constructor
      · intro h
        cases h
      · rintro ⟨⟨hs, hb, hd⟩, -⟩
        simp [hs, hb, hd] at hbad
    · rw [if_neg hbad]
      have hgood : a.multiplicity.isMulti = false ∧ isBlank flag = false ∧ flag ≠ '-' := by
        simpa [and_assoc] using hbad
      simp [hgood]

theorem multiFault?_eq_none {command : String} {isLast : Bool} {a : Argument} :
    multiFault? command isLast a = none ↔
      (a.multiplicity = .multiple → a.type.kind = .list ∨ a.type.kind = .map) ∧
      (isLast = false → a.multiplicity = .single) := by
  unfold multiFault?
  by_cases hkind : a.multiplicity = .multiple ∧ a.type.kind ≠ .list ∧ a.type.kind ≠ .map
  · rw [if_pos hkind]
    constructor
    · intro h
      cases h
    · rintro ⟨h, -⟩
      exact absurd (h hkind.1) (by simp [hkind.2])
  · rw [if_neg hkind, ← Multiplicity.isMulti_eq_false]
    have hkinds : a.multiplicity = .multiple → a.type.kind = .list ∨ a.type.kind = .map := by
      intro hm
      by_contra hno
      exact hkind ⟨hm, not_or.mp hno⟩
    rw [and_iff_right hkinds]
    cases a.multiplicity.isMulti <;> simp

/-- What the check compares with the arguments before one is the same for each of them. -/
theorem Argument.forall_apart_iff {earlier : List Argument} {a : Argument} :
    (∀ b ∈ earlier, b.Apart a) ↔ (∀ b ∈ earlier, b.id ≠ a.id) ∧
      (∀ n ∈ a.names, n ∉ earlier.flatMap (·.names)) ∧
        ∀ flag ∈ a.short, flag ∉ earlier.filterMap (·.short) := by
  constructor
  · intro h
    refine ⟨fun b hb => (h b hb).id, fun n hn hin => ?_, fun flag hf hin => ?_⟩
    · obtain ⟨b, hb, hnb⟩ := List.mem_flatMap.mp hin
      exact (h b hb).names n hnb hn
    · obtain ⟨b, hb, hfb⟩ := List.mem_filterMap.mp hin
      exact (h b hb).short flag hfb hf
  · rintro ⟨hid, hnames, hshort⟩ b hb
    exact ⟨hid b hb, fun n hnb hn => hnames n hn (List.mem_flatMap.mpr ⟨b, hb, hnb⟩),
      fun flag hfb hf => hshort flag hf (List.mem_filterMap.mpr ⟨b, hb, hfb⟩)⟩

/-- The arguments keep to the rules, also beside those before them. -/
theorem argumentFaultFrom?_eq_none {command : String} : ∀ {earlier args : List Argument},
    argumentFaultFrom? command earlier args = none ↔
      Argument.Declarable args ∧ ∀ a ∈ args, ∀ b ∈ earlier, b.Apart a
  | earlier, [] => by
    simp only [argumentFaultFrom?, true_iff]
    exact ⟨⟨by simp, .nil, by simp⟩, by simp⟩
  | earlier, a :: rest => by
    have hrest : (∀ b ∈ rest, ∀ d ∈ earlier ++ [a], d.Apart b) ↔
        (∀ b ∈ rest, a.Apart b) ∧ ∀ b ∈ rest, ∀ d ∈ earlier, d.Apart b := by
      simp only [List.mem_append, List.mem_singleton, or_imp, forall_and, forall_eq]
      exact and_comm
    rw [argumentFaultFrom?_cons_eq_none, nameFault?_eq_none, shortFault?_eq_none,
      multiFault?_eq_none, argumentFaultFrom?_eq_none, hrest, Argument.declarable_cons,
      List.forall_mem_cons, Argument.forall_apart_iff]
    constructor
    · rintro ⟨hid, ⟨hwords, hnames, hnodup⟩, ⟨hshort, hused⟩, ⟨hkind, hone⟩, hdeclarable, hab, hall⟩
      exact ⟨⟨⟨hwords, hnodup, hshort, hkind⟩, hab, hone, hdeclarable⟩, ⟨hid, hnames, hused⟩, hall⟩
    · rintro ⟨⟨hproper, hab, hone, hdeclarable⟩, ⟨hid, hnames, hused⟩, hall⟩
      exact ⟨hid, ⟨hproper.words, hnames, hproper.names⟩, ⟨hproper.short, hused⟩,
        ⟨hproper.kind, hone⟩, hdeclarable, hab, hall⟩

/-- **The arguments of a declaration have no fault exactly if they keep to the rules.** -/
theorem argumentFault?_eq_none {command : String} {args : List Argument} :
    argumentFault? command args = none ↔ Argument.Declarable args := by
  have hfrom : argumentFaultFrom? command [] args = none ↔ Argument.Declarable args := by
    rw [argumentFaultFrom?_eq_none]
    simp
  unfold argumentFault?
  split
  · rename_i hmulti
    constructor
    · intro h
      cases h
    · intro h
      exact absurd hmulti (Nat.not_lt.mpr h.multi_le_one)
  · exact hfrom

theorem Registry.WellFormed.declarable {r : Registry} (h : r.WellFormed) {id : CommandId}
    {c : Command} (hget : r.get? id = some c) : Argument.Declarable c.arguments.all := by
  obtain ⟨e, he, rfl⟩ := Option.map_eq_some_iff.mp hget
  exact argumentFault?_eq_none.mp (h.arguments id e he)

/-! ### Full names -/

/-- Two lists are cut alike at the last place of an element. -/
theorem append_cons_inj_of_not_mem {α : Type} {as bs cs ds : List α} {x : α} (hb : x ∉ bs)
    (hd : x ∉ ds) (h : as ++ x :: bs = cs ++ x :: ds) : as = cs ∧ bs = ds := by
  rcases List.append_eq_append_iff.mp h with ⟨us, rfl, hus⟩ | ⟨us, rfl, hus⟩
  · cases us with
    | nil => simpa using hus
    | cons u us =>
      obtain ⟨-, rfl⟩ := List.cons.inj hus
      exact absurd (List.mem_append_right _ List.mem_cons_self) hb
  · cases us with
    | nil => simpa [eq_comm] using hus
    | cons u us =>
      obtain ⟨-, rfl⟩ := List.cons.inj hus
      exact absurd (List.mem_append_right _ List.mem_cons_self) hd

theorem space_not_mem_of_isWord {n : String} (h : isWord n = true) : ' ' ∉ n.toList := by
  intro hs
  have hblank : isBlank ' ' = false := by
    simp only [isWord, Bool.and_eq_true, Bool.not_eq_true', List.any_eq_false] at h
    simpa using h.2 ' ' hs
  exact absurd hblank (by decide)

theorem append_space_inj {p q m n : String} (hm : isWord m = true) (hn : isWord n = true)
    (h : p ++ " " ++ m = q ++ " " ++ n) : p = q ∧ m = n := by
  have hlist : p.toList ++ ' ' :: m.toList = q.toList ++ ' ' :: n.toList := by
    simpa using congrArg String.toList h
  obtain ⟨hp, hmn⟩ := append_cons_inj_of_not_mem (space_not_mem_of_isWord hm)
    (space_not_mem_of_isWord hn) hlist
  exact ⟨String.toList_inj.mp hp, String.toList_inj.mp hmn⟩

theorem isWord_append_space (p m : String) : isWord (p ++ " " ++ m) = false := by
  by_contra h
  exact space_not_mem_of_isWord (Bool.not_eq_false _ ▸ h) (by simp)

namespace Registry

variable {r r' : Registry} {c : Command} {id : CommandId}

/-- A full name tells the full name of the parent and the name under it. -/
theorem fullNameUnder_inj {p q : Option CommandId} {m n : String} (hm : isWord m = true)
    (hn : isWord n = true) (h : r.fullNameUnder p m = r.fullNameUnder q n) :
    p.map r.fullName = q.map r.fullName ∧ m = n := by
  cases p with
  | none =>
    cases q with
    | none => exact ⟨rfl, h⟩
    | some q =>
      obtain rfl : m = r.fullName q ++ " " ++ n := h
      rw [isWord_append_space] at hm
      cases hm
  | some p =>
    cases q with
    | none =>
      obtain rfl : r.fullName p ++ " " ++ m = n := h
      rw [isWord_append_space] at hn
      cases hn
    | some q =>
      obtain ⟨hpq, hmn⟩ := append_space_inj hm hn h
      exact ⟨congrArg some hpq, hmn⟩

namespace WellFormed

/-- **No two commands have the same full name.** -/
theorem fullName_inj (hr : r.WellFormed) : ∀ {i j : CommandId}, i < r.size → j < r.size →
    r.fullName i = r.fullName j → i = j := by
  intro i
  induction i using Nat.strongRecOn with
  | ind i ih =>
    intro j hi hj h
    have hd : r.entries[i]? = some r.entries[i] := List.getElem?_eq_getElem hi
    have he : r.entries[j]? = some r.entries[j] := List.getElem?_eq_getElem hj
    generalize r.entries[i] = d at hd
    generalize r.entries[j] = e at he
    have hdn := hr.names i d hd _ List.mem_cons_self
    have hen := hr.names j e he _ List.mem_cons_self
    rw [fullName_eq hd, fullName_eq he, hr.fullNames i d hd, hr.fullNames j e he] at h
    obtain ⟨hnames, hname⟩ := fullNameUnder_inj hdn hen h
    have hparent : d.parent = e.parent := by
      cases hdp : d.parent with
      | none =>
        rw [hdp] at hnames
        exact (Option.map_eq_none_iff.mp hnames.symm).symm
      | some p =>
        cases hep : e.parent with
        | none => simp [hdp, hep] at hnames
        | some q =>
          have hpq : r.fullName p = r.fullName q := by simpa [hdp, hep] using hnames
          have hpi := hr.parents i d hd p hdp
          have hqj := hr.parents j e he q hep
          rw [ih p hpi (Nat.lt_trans hpi hi) (Nat.lt_trans hqj hj) hpq]
    by_contra hne
    exact hr.siblings i j d e hd he hparent hne _ List.mem_cons_self (hname ▸ List.mem_cons_self)

theorem map_fullName_inj (hr : r.WellFormed) {p q : Option CommandId} (hp : ∀ i ∈ p, i < r.size)
    (hq : ∀ j ∈ q, j < r.size) (h : p.map r.fullName = q.map r.fullName) : p = q := by
  cases p with
  | none => exact (Option.map_eq_none_iff.mp h.symm).symm
  | some i =>
    obtain ⟨j, rfl, hname⟩ := Option.map_eq_some_iff.mp h.symm
    exact congrArg some (hr.fullName_inj (hp i rfl) (hq j rfl) hname.symm)

/-- **A full name means the command that has it.** -/
theorem find?_eq_some_iff (hr : r.WellFormed) {name : String} :
    r.find? name = some id ↔ id < r.size ∧ r.fullName id = name := by
  have hname : ∀ (i : CommandId) (h : i < r.size), r.fullName i = r.entries[i].fullName :=
    fun i h => fullName_eq (List.getElem?_eq_getElem h)
  rw [find?, List.findIdx?_eq_some_iff_getElem]
  constructor
  · rintro ⟨hlt, heq, -⟩
    exact ⟨hlt, (hname id hlt).trans (eq_of_beq heq)⟩
  · rintro ⟨hlt, rfl⟩
    refine ⟨hlt, by simp [hname id hlt], fun j hj heq => ?_⟩
    have hjs : j < r.size := Nat.lt_trans hj hlt
    have hnames : r.fullName j = r.fullName id := (hname j hjs).trans (eq_of_beq heq)
    exact Nat.ne_of_lt hj (hr.fullName_inj hjs hlt hnames)

end WellFormed

/-! ### Commands -/

/-- The rules for a command beside those that are registered. -/
structure Admits (r : Registry) (c : Command) : Prop where
  words : ∀ n ∈ c.declaredNames, isWord n = true
  /-- The parent that is asked for is a full name. -/
  parent : ∀ p ∈ c.parent, ∃ id < r.size, r.fullName id = p
  /-- No command with the same parent has one of the names. -/
  siblings : ∀ id d, r.get? id = some d → d.parent = c.parent →
    ∀ n ∈ c.declaredNames, n ∉ d.declaredNames
  arguments : Argument.Declarable c.arguments.all

/-- A well-formed registry in which every command belongs to the command it asked for. -/
structure Sound (r : Registry) : Prop extends r.WellFormed where
  parentNames : ∀ (id : CommandId) (e : RegisteredCommand), r.entries[id]? = some e →
    e.command.parent = e.parent.map r.fullName

theorem Sound.empty : Registry.empty.Sound := ⟨.empty, by simp [Registry.empty]⟩

theorem parentOf_eq_ok_iff (hr : r.WellFormed) {parent : Option CommandId} :
    r.parentOf c = .ok parent ↔
      (∀ p ∈ parent, p < r.size) ∧ c.parent = parent.map r.fullName := by
  unfold parentOf
  cases hc : c.parent with
  | none => cases parent <;> simp
  | some name =>
    have hfind : r.find? name = parent ∧ parent ≠ none ↔
        (∀ p ∈ parent, p < r.size) ∧ some name = parent.map r.fullName := by
      cases parent with
      | none => simp
      | some p => simp [hr.find?_eq_some_iff, eq_comm]
    dsimp only
    rw [← hfind]
    cases r.find? name with
    | none => simp [eq_comm]
    | some id => cases parent <;> simp

/-- A parent is found exactly if some command has its full name. -/
theorem exists_parentOf_iff (hr : r.WellFormed) :
    (∃ parent, r.parentOf c = .ok parent) ↔ ∀ p ∈ c.parent, ∃ id < r.size, r.fullName id = p := by
  simp only [parentOf_eq_ok_iff hr]
  cases c.parent with
  | none => exact iff_of_true ⟨none, by simp⟩ (by simp)
  | some name =>
    constructor
    · rintro ⟨parent, hlt, hname⟩ p hp
      obtain rfl := Option.some.inj hp
      obtain ⟨id, rfl, hid⟩ := Option.map_eq_some_iff.mp hname.symm
      exact ⟨id, hlt id rfl, hid⟩
    · intro h
      obtain ⟨id, hid, rfl⟩ := h name rfl
      exact ⟨some id, by simpa using hid, rfl⟩

theorem clash?_eq_none_iff {parent : Option CommandId} :
    r.clash? parent c = none ↔
      ∀ (id : CommandId) (e : RegisteredCommand), r.entries[id]? = some e → e.parent = parent →
        ∀ n ∈ c.declaredNames, n ∉ e.command.declaredNames := by
  constructor
  · exact fun h id e he hp => not_mem_of_clash?_eq_none h he hp
  · intro h
    refine List.findSome?_eq_none_iff.mpr fun id hid => ?_
    obtain ⟨e, he, hp⟩ := mem_childrenOf.mp hid
    rw [get?, he, Option.map_some, Option.bind_some, List.find?_eq_none]
    intro n hn
    simpa using h id e he hp n hn

namespace Sound

/-- **Registering a command keeps every command under the parent it asked for.** -/
theorem register (hr : r.Sound) (h : r.register c = .ok (id, r')) : r'.Sound := by
  refine ⟨hr.toWellFormed.register h, ?_⟩
  obtain ⟨parent, hparent, -, -, -, -, rfl⟩ := register_eq_ok h
  obtain ⟨hlt, hname⟩ := (parentOf_eq_ok_iff hr.toWellFormed).mp hparent
  have hmap : ∀ q : Option CommandId, (∀ p ∈ q, p < r.size) → ∀ e,
      q.map (r.add e).fullName = q.map r.fullName :=
    fun q hq e => Option.map_congr fun p hp => fullName_add (hq p hp)
  intro i d hd
  rcases getElem?_add.mp hd with hd | ⟨rfl, rfl⟩
  · rw [hmap d.parent fun p hp => Nat.lt_trans (hr.parents i d hd p hp) (lt_size hd)]
    exact hr.parentNames i d hd
  · rw [hmap parent hlt]
    exact hname

/-- The commands that asked for the same parent are those under it. -/
theorem parent_eq_iff (hr : r.Sound) {parent : Option CommandId}
    (hparent : r.parentOf c = .ok parent) {d : RegisteredCommand} (hd : r.entries[id]? = some d) :
    d.command.parent = c.parent ↔ d.parent = parent := by
  obtain ⟨hlt, hname⟩ := (parentOf_eq_ok_iff hr.toWellFormed).mp hparent
  rw [hr.parentNames id d hd, hname]
  constructor
  · intro h
    exact hr.toWellFormed.map_fullName_inj
      (fun p hp => Nat.lt_trans (hr.parents id d hd p hp) (lt_size hd)) hlt h
  · exact congrArg _

/-- **A command is registered exactly if the registry admits it.** -/
theorem register_iff (hr : r.Sound) : (∃ id r', r.register c = .ok (id, r')) ↔ r.Admits c := by
  constructor
  · rintro ⟨id, r', h⟩
    obtain ⟨parent, hparent, hclash, hwords, hfault, -, -⟩ := register_eq_ok h
    refine ⟨hwords, (exists_parentOf_iff hr.toWellFormed).mp ⟨parent, hparent⟩, ?_,
      argumentFault?_eq_none.mp hfault⟩
    intro i d hd hp
    obtain ⟨e, he, rfl⟩ := Option.map_eq_some_iff.mp hd
    exact clash?_eq_none_iff.mp hclash i e he ((hr.parent_eq_iff hparent he).mp hp)
  · rintro ⟨hwords, hparent, hsiblings, harguments⟩
    obtain ⟨parent, hparent⟩ := (exists_parentOf_iff hr.toWellFormed).mpr hparent
    have hfind : (c.declaredNames.find? fun n => !isWord n) = none := by simpa using hwords
    have hclash : r.clash? parent c = none := by
      refine clash?_eq_none_iff.mpr fun i e he hp => ?_
      exact hsiblings i e.command (by rw [get?, he]; rfl) ((hr.parent_eq_iff hparent he).mpr hp)
    have hfault : argumentFault? (r.fullNameUnder parent c.name) c.arguments.all = none :=
      argumentFault?_eq_none.mpr harguments
    refine ⟨r.size, r.add ⟨c, r.fullNameUnder parent c.name, parent⟩, ?_⟩
    simp only [Registry.register, hfind, hparent, hclash, hfault]
    rfl

end Sound
end Registry
end CommandConsole
