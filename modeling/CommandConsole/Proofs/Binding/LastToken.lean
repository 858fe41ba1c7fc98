/-
# The last token of a line

Behind the last token of a line nothing is left to be taken. So an unnamed
scalar there goes to the first argument that takes it; an optional argument
that does not take it has refused it at once, and is passed over. A name that
is known and a value that its argument takes are always taken there.

Key definition: `ArgType.Plain`.
Key theorems: `BindEnv.offer_candidate`, `BindEnv.offer_optional`, `BindEnv.bindTokens_last`.
-/
import CommandConsole.Proofs.Binding.Resumption

namespace CommandConsole

/-! ### Types -/

namespace ArgType

mutual

/-- The console knows the type and all the types in it, and every text that one of them names
as a whole satisfies `P`. -/
def Plain (P : String → Prop) : ArgType → Prop
  | .enumeration _ members => ∀ m ∈ members, P m
  | .exact text => P text
  | .list element => element.Plain P
  | .exactList elements => PlainAll P elements
  | .map key value => key.Plain P ∧ value.Plain P
  | .record fields => PlainFields P fields
  | .custom _ => False
  | _ => True

def PlainAll (P : String → Prop) : List ArgType → Prop
  | [] => True
  | t :: ts => t.Plain P ∧ PlainAll P ts

def PlainFields (P : String → Prop) : List (RecordField ArgType) → Prop
  | [] => True
  | f :: fs => f.type.Plain P ∧ PlainFields P fs

end

variable {P : String → Prop} {t : ArgType} {s : String}

/-- A way to begin a value of a type is a whole scalar of the type, or opens a container. -/
theorem freshCandidates_cases (ht : t.Plain P) (hs : s ∈ t.freshCandidates) :
    s = "[" ∨ s = "\x7b" ∨ ((s = "true" ∨ s = "false" ∨ P s) ∧
      ∀ span, t.takes (.scalar s span) = true) := by
  have hbool : ∀ span, ArgType.bool.takes (.scalar "true" span) = true ∧
      ArgType.bool.takes (.scalar "false" span) = true := by
    intro span
    exact ⟨takes_iff.mpr ⟨_, convert_bool (show readBool? "true" = some true by decide) span⟩,
      takes_iff.mpr ⟨_, convert_bool (show readBool? "false" = some false by decide) span⟩⟩
  cases t with
  | bool =>
    simp only [freshCandidates, kind, possibilities, List.mem_cons, List.not_mem_nil, or_false] at hs
    rcases hs with rfl | rfl
    · exact .inr (.inr ⟨.inl rfl, fun span => (hbool span).1⟩)
    · exact .inr (.inr ⟨.inr (.inl rfl), fun span => (hbool span).2⟩)
  | enumeration name members =>
    simp only [freshCandidates, kind, possibilities] at hs
    rw [Plain] at ht
    refine .inr (.inr ⟨.inr (.inr (ht s hs)), fun span => takes_iff.mpr ⟨.member s, ?_⟩⟩)
    rw [convert_scalar rfl (fun c hc => by cases hc), convertText, if_pos (List.contains_iff_mem.mpr hs)]
    rfl
  | exact text =>
    simp only [freshCandidates, kind, possibilities, List.mem_singleton] at hs
    subst hs
    rw [Plain] at ht
    refine .inr (.inr ⟨.inr (.inr ht), fun span => takes_iff.mpr ⟨.string s, ?_⟩⟩)
    rw [convert_scalar rfl (fun c hc => by cases hc), convertText, if_pos rfl]
    rfl
  | list _ | exactList _ =>
    simp only [freshCandidates, kind, List.mem_singleton] at hs
    exact .inl hs
  | map _ _ | record _ =>
    simp only [freshCandidates, kind, List.mem_singleton] at hs
    exact .inr (.inl hs)
  | custom => simp [Plain] at ht
  | _ => simp [freshCandidates, kind, possibilities] at hs

theorem PlainAll.getElem? : ∀ {ts : List ArgType} {n : Nat}, PlainAll P ts → ts[n]? = some t →
    t.Plain P
  | [], _, _, h => by simp at h
  | u :: us, 0, hp, h => by
    rw [PlainAll] at hp
    simp only [List.getElem?_cons_zero, Option.some.injEq] at h
    exact h ▸ hp.1
  | u :: us, n + 1, hp, h => by
    rw [PlainAll] at hp
    exact PlainAll.getElem? hp.2 h

theorem Plain.runType? {a : Argument} {n : Nat} (ha : a.type.Plain P)
    (h : runType? a n = some t) : t.Plain P := by
  unfold CommandConsole.runType? at h
  split at h
  · cases h
    exact ha
  · generalize a.type = u at ha h
    cases u with
    | any => cases h; trivial
    | list element => cases h; rw [Plain] at ha; exact ha
    | exactList elements => rw [Plain] at ha; exact PlainAll.getElem? ha h
    | _ => cases h
  · cases h

/-- A scalar is refused as a whole. -/
theorem path_convert_scalar {text : String} {span : Span} {m : TypeMismatch}
    (h : t.convert (.scalar text span) = .error m) : m.path = [] := by
  have hwhole : ∀ {ε : Type} (x : Except ε Value) (f : ε → TypeMismatch), (∀ y, (f y).path = []) →
      x.mapError f = .error m → m.path = [] := by
    intro ε x f hf hx
    cases x with
    | ok w => cases hx
    | error y => cases hx; exact hf y
  by_cases hk : t.kind.accepts LiteralKind.scalar = true
  · cases t with
    | any => rw [convert_any] at h; cases h
    | list | exactList | map | record => simp [kind, TypeKind.accepts] at hk
    | _ =>
      simp only [convert, Literal.kind, hk, if_true] at h
      exact hwhole _ _ (fun _ => rfl) h
  · rw [convert_refused (by simpa [Literal.kind] using hk)] at h
    cases h
    rfl

/-- A list with one item is refused as a whole, or for that item. -/
theorem path_convert_singleton {v : Literal} {m : TypeMismatch}
    (h : t.convert (listOfRun [v]) = .error m) :
    m.path.head? = none ∨ m.path.head? = some (.index 0) := by
  by_cases hk : t.kind.accepts LiteralKind.list = true
  · cases t with
    | any => rw [convert_any] at h; cases h
    | list element =>
      rw [listOfRun, convert_list] at h
      cases hc : convertItems element 0 [v] with
      | ok vs => rw [hc] at h; cases h
      | error m' =>
        rw [hc] at h
        cases h
        rw [convertItems] at hc
        cases hv : element.convert v with
        | ok w => rw [hv, convertItems] at hc; cases hc
        | error m' => rw [hv] at hc; cases hc; exact .inr rfl
    | exactList elements =>
      simp only [listOfRun, convert, Literal.kind, hk, if_true] at h
      split at h
      · cases hc : convertPlaces elements 0 [v] with
        | ok vs => rw [hc] at h; cases h
        | error m' =>
          rw [hc] at h
          cases h
          rw [convertPlaces] at hc
          cases hv : (elements.headD .any).convert v with
          | ok w => rw [hv, convertPlaces] at hc; cases hc
          | error m' => rw [hv] at hc; cases hc; exact .inr rfl
      · cases h
        exact .inl rfl
    | custom c =>
      simp only [listOfRun, convert, Literal.kind, hk, if_true] at h
      cases hc : c.convert (.list [v] (.coverAll [v.span])) with
      | ok w => simp only [List.map_cons, List.map_nil, hc] at h; cases h
      | error reason =>
        simp only [List.map_cons, List.map_nil, hc] at h
        cases h
        exact .inl rfl
    | _ => simp [kind, TypeKind.accepts] at hk
  · rw [convert_refused (by simpa [listOfRun, Literal.kind] using hk)] at h
    cases h
    exact .inl rfl

end ArgType

namespace BindEnv

variable {env : BindEnv} {s : BindState} {a : Argument} {t : Token} {c : TokenCursor}
  {text : String} {span : Span} {stop : Nat}

/-! ### Unnamed scalars -/

/-- An argument that refuses a scalar at the end of a line refuses it at once. -/
theorem takeValue_refused_last (hc : c.tokens = .finished stop) {f : ParseFail}
    (h : env.takeValue s a (.scalar text span) c = .error f) : rejectsFirst a f = true := by
  have hone : env.convert a (.scalar text span) = .error f → rejectsFirst a f = true := by
    intro h
    unfold convert at h
    cases hm : a.type.convert (.scalar text span) with
    | ok w => rw [hm] at h; cases h
    | error m =>
      rw [hm] at h
      cases h
      refine (rejectsFirst_mismatch env a m).mpr (.inr (.inl ?_))
      rw [ArgType.path_convert_scalar hm]
      rfl
  have hrun : env.runFrom s (.scalar text span) c =
      .ok ⟨[.scalar text span], ⟨stop, .finished stop⟩, true⟩ := by
    simp [runFrom, hc, collectRun]
  unfold takeValue at h
  split at h
  · cases hv : env.convert a (.scalar text span) with
    | ok w => rw [hv] at h; cases h
    | error g => rw [hv] at h; cases h; exact hone hv
  · split at h
    · rw [hrun] at h
      dsimp only at h
      unfold convert at h
      cases hm : a.type.convert (listOfRun [.scalar text span]) with
      | ok w => rw [hm] at h; cases h
      | error m =>
        rw [hm] at h
        cases h
        exact (rejectsFirst_mismatch env a m).mpr (.inr (ArgType.path_convert_singleton hm))
    · cases hv : env.convert a (.scalar text span) with
      | ok w => rw [hv] at h; cases h
      | error g => rw [hv] at h; cases h; exact hone hv
  · rw [hrun] at h
    dsimp only at h
    rw [convertEach] at h
    cases hm : a.type.convert (.scalar text span) with
    | ok w => rw [hm] at h; cases h
    | error m =>
      rw [hm] at h
      cases h
      exact (rejectsFirst_mismatch env a _).mpr (.inr (.inr rfl))

/-- **A scalar among the positional candidates is taken.** -/
theorem offer_candidate {P : String → Prop} (hb : text ≠ "[" ∧ text ≠ "\x7b")
    (hc : c.tokens = .finished stop) : ∀ {as : List Argument}, (∀ a ∈ as, a.type.Plain P) →
      text ∈ positionalCandidates as → ∃ r, env.offer s (.scalar text span) c as = .ok (some r)
  | [], _, h => by cases h
  | a :: as, hp, h => by
    obtain ⟨hpa, hpas⟩ := List.forall_mem_cons.mp hp
    rw [offer]
    cases htake : env.takeValue s a (.scalar text span) c with
    | ok k => exact ⟨_, rfl⟩
    | error f =>
      rw [positionalCandidates] at h
      rcases List.mem_append.mp h with h | h
      · rcases ArgType.freshCandidates_cases hpa h with h | h | ⟨-, h⟩
        · exact absurd h hb.1
        · exact absurd h hb.2
        · obtain ⟨k, hk, -⟩ := takeValue_alone env s (h span) hc
          rw [htake] at hk
          cases hk
      · by_cases ho : a.isOptional = true
        · rw [if_pos ho] at h
          dsimp only
          rw [ho, takeValue_refused_last hc htake, Bool.and_self, if_pos rfl]
          exact offer_candidate hb hc hpas h
        · rw [if_neg ho] at h
          cases h

/-- A scalar is taken or passed over if every argument is optional. -/
theorem offer_optional (hc : c.tokens = .finished stop) : ∀ {as : List Argument},
    (∀ a ∈ as, a.isOptional = true) → ∃ o, env.offer s (.scalar text span) c as = .ok o
  | [], _ => ⟨none, rfl⟩
  | a :: as, ho => by
    obtain ⟨hoa, hoas⟩ := List.forall_mem_cons.mp ho
    rw [offer]
    cases htake : env.takeValue s a (.scalar text span) c with
    | ok k => exact ⟨_, rfl⟩
    | error f =>
      dsimp only
      rw [hoa, takeValue_refused_last hc htake, Bool.and_self, if_pos rfl]
      exact offer_optional hc hoas

theorem extendRun_last (env : BindEnv) (s : BindState) (v : Literal)
    (hc : c.tokens = .finished stop) : ∃ o, env.extendRun s v c = .ok o := by
  unfold extendRun
  split
  · exact ⟨none, rfl⟩
  · rename_i a _
    split
    · exact ⟨none, rfl⟩
    · rename_i b _
      by_cases ht : a.type.takes v = true
      · obtain ⟨w, hw⟩ := ArgType.takes_iff.mp ht
        have hrun : env.runFrom s v c = .ok ⟨[v], ⟨stop, .finished stop⟩, true⟩ := by
          simp [runFrom, hc, collectRun]
        have heach : env.convertEach a (runLength b) [v] = .ok [w] :=
          convertEach_of_forall₂ _ (.cons hw .nil)
        rw [if_pos ht, hrun]
        dsimp only
        rw [heach]
        exact ⟨_, rfl⟩
      · rw [if_neg ht]
        exact ⟨none, rfl⟩

/-! ### Names -/

/-- A name of an unbound argument is taken at the end of a partial line. -/
theorem bindNamed_last (hm : env.mode = .partialLine) (hc : c.tokens = .finished stop)
    {name : String} (ha : a ∈ env.remaining s) (hn : name ∈ env.longNames a) :
    ∃ r, env.bindNamed s t name none c = .ok r := by
  unfold bindNamed
  cases hfind : env.findNamed? (env.remaining s) name with
  | none =>
    have := List.find?_eq_none.mp hfind a ha
    exact absurd (by simpa using hn) this
  | some b =>
    dsimp only
    by_cases hs : b.isSwitch = true
    · rw [if_pos hs]
      exact ⟨_, rfl⟩
    · rw [if_neg hs]
      simp only [bindFollowing, hc, hm, if_true]
      exact ⟨_, rfl⟩

/-- A scalar that an argument takes can be assigned to it. -/
theorem bindNamed_assigned {name : String} (ha : env.findNamed? (env.remaining s) name = some a)
    (ht : a.type.takes (.scalar text span) = true) :
    ∃ r, env.bindNamed s t name (some (.scalar text span)) c = .ok r := by
  obtain ⟨w, hw⟩ := ArgType.takes_iff.mp ht
  have hassigned : ∃ q, env.takeAssigned a (.scalar text span) = .ok q := by
    unfold takeAssigned
    cases a.multiplicity with
    | single => exact ⟨_, by rw [convert_of_eq_ok hw]; rfl⟩
    | multiple =>
      dsimp only
      rw [startsListRun_of_convert hw, if_neg (by simp), convert_of_eq_ok hw]
      exact ⟨_, rfl⟩
    | vararg =>
      have heach : env.convertEach a 0 [.scalar text span] = .ok [w] :=
        convertEach_of_forall₂ 0 (.cons hw .nil)
      dsimp only [itemsOf]
      rw [heach]
      exact ⟨_, rfl⟩
  obtain ⟨q, hq⟩ := hassigned
  unfold bindNamed
  rw [ha]
  dsimp only
  rw [hq]
  exact ⟨_, rfl⟩

/-! ### The token -/

/-- **The last token of a line is taken, ends the command, or is left for the next one**, unless
it fails. -/
theorem bindTokens_last {o : Option Bound}
    (h : t.isSeparator = true ∨ env.bindToken s t ⟨t.span.stop, .finished stop⟩ = .ok o) (p : Nat) :
    ∃ b, env.bindTokens s ⟨p, .more t (.finished stop)⟩ = .ok b ∧
      (b.cursor.tokens.isFinished = true ∨
        (t.isSeparator = false ∧ o = none ∧ b.cursor.tokens = .more t (.finished stop))) := by
  by_cases ht : t.isSeparator = true
  · exact ⟨_, bindTokens_separator rfl ht, .inl rfl⟩
  · have ht' : t.isSeparator = false := by simpa using ht
    have ho := h.resolve_left ht
    cases o with
    | none => exact ⟨_, bindTokens_none rfl ht' ho, .inr ⟨ht', rfl, rfl⟩⟩
    | some r =>
      obtain ⟨used, hused, -⟩ := bindToken_effect (P := fun _ => True) (fun _ _ _ => trivial) ho
      have hend : r.2.tokens = .finished stop := by
        cases used with
        | nil => exact hused.symm
        | cons u us => rw [Tokens.prepend_cons] at hused; cases hused
      refine ⟨⟨{ r.1 with stop := r.2.position }, r.2, false⟩, ?_, .inl (by rw [hend]; rfl)⟩
      have hsome : env.bindToken s t (.past t (.finished stop)) = .ok (some (r.1, r.2)) := ho
      rw [bindTokens_some rfl ht' hsome, bindTokens_finished hend]

end BindEnv
end CommandConsole
