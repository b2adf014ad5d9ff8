import KernelTyping.Proofs.ElementType.Combination

/-!
# KernelTyping.Proofs.ElementType.Clashes — which operands do not combine

Known operands clash if one of them is a handle and they are not all the same (`MixesHandle`), or if
two of them are different structs (`MixesStructs`).

* `combine_eq_error_iff`: operands fail to combine exactly if they clash.
* `combine_of_takesOver`: without a clash, a handle or struct among them is what they combine to,
  wherever it stands.
* `combine_cases`: all other operands are scalars, where they are known.
-/

namespace KernelTyping.ElementType

variable {operands : List (Option ElementType)}

/-! ### Clashes -/

/-- A handle is known, and the known operands are not all the same. -/
def MixesHandle (operands : List (Option ElementType)) : Prop :=
  (∃ name, some (handle name) ∈ operands) ∧
    ∃ a b, some a ∈ operands ∧ some b ∈ operands ∧ a ≠ b

/-- Two different structs are known. -/
def MixesStructs (operands : List (Option ElementType)) : Prop :=
  ∃ a b, some a ∈ operands ∧ some b ∈ operands ∧ a.hasFields = true ∧ b.hasFields = true ∧ a ≠ b

/-- The known operands cannot be combined. -/
def Clash (operands : List (Option ElementType)) : Prop :=
  MixesHandle operands ∨ MixesStructs operands

/-- Whatever is no scalar converts to itself only. -/
theorem Converts.eq_of_not_scalar {a b : ElementType} (h : a.Converts b)
    (ha : ∀ s, a ≠ scalar s) : b = a := by
  cases a with
  | scalar s => exact absurd rfl (ha s)
  | struct name fields =>
    rcases h with h | ⟨h, -⟩ | ⟨h, -⟩
    · exact (by simpa [castsSafely] using h : struct name fields = b).symm
    · cases h
    · cases h
  | handle name =>
    rcases h with h | ⟨h, -⟩ | ⟨h, -⟩
    · exact (by simpa [castsSafely] using h : handle name = b).symm
    · cases h
    · cases h

/-- Only a handle converts to a handle. -/
theorem Converts.eq_handle {a : ElementType} {name : String} (h : a.Converts (handle name)) :
    a = handle name := by
  by_cases ha : ∃ s, a = scalar s
  · obtain ⟨s, rfl⟩ := ha
    simp [Converts, castsSafely, toScalar?, hasFields, int32, float32, complex64] at h
  · exact (h.eq_of_not_scalar fun s hs => ha ⟨s, hs⟩).symm

theorem ne_scalar_of_hasFields {a : ElementType} (h : a.hasFields = true) (s : Scalar) :
    a ≠ scalar s := by
  rintro rfl
  cases h

/-- What operands combine to has all of them convert to it; those of a clash cannot. -/
theorem not_clash_of_combine_eq_ok {found : Option ElementType} (h : combine operands = .ok found) :
    ¬Clash operands := by
  have hknown {a : ElementType} (ha : some a ∈ operands) : ∃ type, found = some type := by
    cases found with
    | some type => exact ⟨type, rfl⟩
    | none => cases combine_eq_ok_none_iff.1 h _ ha
  rintro (⟨⟨name, hhandle⟩, a, b, ha, hb, hne⟩ | ⟨a, b, ha, hb, hfa, hfb, hne⟩)
  · obtain ⟨type, rfl⟩ := hknown hhandle
    obtain rfl := (converts_combine h hhandle).eq_of_not_scalar (by simp)
    apply hne
    rw [(converts_combine h ha).eq_handle, (converts_combine h hb).eq_handle]
  · obtain ⟨type, rfl⟩ := hknown ha
    apply hne
    rw [← (converts_combine h ha).eq_of_not_scalar (ne_scalar_of_hasFields hfa),
      (converts_combine h hb).eq_of_not_scalar (ne_scalar_of_hasFields hfb)]

/-! ### Types that take over -/

/-- The type is known: a handle that is the only known type, or a struct among scalars. -/
def TakesOver (operands : List (Option ElementType)) (type : ElementType) : Prop :=
  some type ∈ operands ∧
    ((type.isHandle = true ∧ ∀ a, some a ∈ operands → a = type) ∨
      (type.hasFields = true ∧ ∀ a, some a ∈ operands → a = type ∨ ∃ s, a = scalar s))

theorem promote_scalar_of_hasFields {type : ElementType} (h : type.hasFields = true) (s : Scalar) :
    promote (scalar s) type = .ok type ∧ promote type (scalar s) = .ok type := by
  cases type with
  | scalar _ | handle _ => cases h
  | struct name fields => exact ⟨rfl, rfl⟩

/-- A struct stays when scalars are promoted to it. -/
theorem foldlM_promote_of_hasFields {type : ElementType} (htype : type.hasFields = true)
    {rest : List ElementType} (hrest : ∀ a ∈ rest, a = type ∨ ∃ s, a = scalar s) :
    rest.foldlM promote type = .ok type := by
  induction rest with
  | nil => rfl
  | cons a rest ih =>
    obtain ⟨ha, hrest⟩ := List.forall_mem_cons.1 hrest
    have hstep : promote type a = .ok type := by
      rcases ha with rfl | ⟨s, rfl⟩
      · exact promote_self a
      · exact (promote_scalar_of_hasFields htype s).2
    rw [List.foldlM_cons, hstep, ok_bind]
    exact ih hrest

/-- A scalar in front of it does not keep a struct from taking over. -/
theorem foldlM_promote_scalar_of_hasFields {type : ElementType} (htype : type.hasFields = true)
    (s : Scalar) {rest : List ElementType} (hmem : type ∈ rest)
    (hall : ∀ a ∈ rest, a = type ∨ ∃ s, a = scalar s) :
    rest.foldlM promote (scalar s) = .ok type := by
  induction rest generalizing s with
  | nil => cases hmem
  | cons a rest ih =>
    obtain ⟨ha, hrest⟩ := List.forall_mem_cons.1 hall
    rw [List.foldlM_cons]
    rcases ha with rfl | ⟨t, rfl⟩
    · rw [(promote_scalar_of_hasFields htype s).1, ok_bind]
      exact foldlM_promote_of_hasFields htype hrest
    · have hmem : type ∈ rest :=
        (List.mem_cons.1 hmem).resolve_left (ne_scalar_of_hasFields htype t)
      exact ih (s.promote t) hmem hrest

/-- A struct among scalars is what the operands combine to, wherever it stands. -/
theorem combine_of_hasFields {type : ElementType} (hmem : some type ∈ operands)
    (htype : type.hasFields = true)
    (halone : ∀ a, some a ∈ operands → a = type ∨ ∃ s, a = scalar s) :
    combine operands = .ok (some type) := by
  have hmem : type ∈ operands.filterMap id := List.mem_filterMap.2 ⟨_, hmem, rfl⟩
  have halone : ∀ a ∈ operands.filterMap id, a = type ∨ ∃ s, a = scalar s :=
    fun a ha => halone a (by simpa using ha)
  obtain ⟨first, rest, hknown⟩ := List.exists_cons_of_ne_nil (List.ne_nil_of_mem hmem)
  rw [hknown] at hmem halone
  have hhandle : ∀ a ∈ first :: rest, a.isHandle = false := by
    intro a ha
    rcases halone a ha with rfl | ⟨s, rfl⟩
    · cases a with
      | struct _ _ => rfl
      | scalar _ | handle _ => cases htype
    · rfl
  have hfold : rest.foldlM promote first = .ok type := by
    obtain ⟨hfirst, hrest⟩ := List.forall_mem_cons.1 halone
    rcases hfirst with rfl | ⟨s, rfl⟩
    · exact foldlM_promote_of_hasFields htype hrest
    · have hmem : type ∈ rest :=
        (List.mem_cons.1 hmem).resolve_left (ne_scalar_of_hasFields htype s)
      exact foldlM_promote_scalar_of_hasFields htype s hmem hrest
  rw [combine_of_not_handle hknown hhandle, hfold]
  rfl

theorem combine_of_takesOver {type : ElementType} (h : TakesOver operands type) :
    combine operands = .ok (some type) := by
  obtain ⟨hmem, ⟨-, hsame⟩ | ⟨htype, halone⟩⟩ := h
  · have huniform : ∀ t ∈ operands, t = none ∨ t = some type := by
      intro t ht
      cases t with
      | none => exact .inl rfl
      | some a => exact .inr (congrArg some (hsame a ht))
    rw [combine_of_uniform huniform, if_pos hmem]
  · exact combine_of_hasFields hmem htype halone

/-! ### What operands combine to -/

/-- Operands clash, or one of them takes over, or all that are known are scalars. -/
theorem combine_cases (operands : List (Option ElementType)) :
    Clash operands ∨ (∃ type, TakesOver operands type) ∨
      ∀ type, some type ∈ operands → ∃ s, type = scalar s := by
  by_cases hclash : Clash operands
  · exact .inl hclash
  refine .inr ?_
  by_cases hhandle : ∃ name, some (handle name) ∈ operands
  · obtain ⟨name, hname⟩ := hhandle
    refine .inl ⟨handle name, hname, .inl ⟨rfl, fun a ha => ?_⟩⟩
    by_contra hne
    exact hclash (.inl ⟨⟨name, hname⟩, a, _, ha, hname, hne⟩)
  by_cases hstruct : ∃ type, some type ∈ operands ∧ type.hasFields = true
  · obtain ⟨type, hmem, htype⟩ := hstruct
    refine .inl ⟨type, hmem, .inr ⟨htype, fun a ha => ?_⟩⟩
    cases a with
    | scalar s => exact .inr ⟨s, rfl⟩
    | handle name => exact absurd ⟨name, ha⟩ hhandle
    | struct name fields =>
      by_contra hne
      exact hclash (.inr ⟨_, type, ha, hmem, rfl, htype, fun heq => hne (.inl heq)⟩)
  · refine .inr fun a ha => ?_
    cases a with
    | scalar s => exact ⟨s, rfl⟩
    | handle name => exact absurd ⟨name, ha⟩ hhandle
    | struct name fields => exact absurd ⟨_, ha, rfl⟩ hstruct

/-- Operands whose known ones are scalars, in order, combine. -/
theorem exists_combine_of_scalars (h : ∀ type, some type ∈ operands → ∃ s, type = scalar s) :
    ∃ found, combine operands = .ok found := by
  obtain ⟨ss, hknown⟩ : ∃ ss : List Scalar, operands.filterMap id = ss.map scalar :=
    exists_eq_map_scalar fun type htype => h type (by simpa using htype)
  cases ss with
  | nil =>
    have hnone : ∀ type ∈ operands, type = none := by simpa [List.filterMap_eq_nil_iff] using hknown
    exact ⟨none, combine_eq_ok_none_iff.2 hnone⟩
  | cons s ss => exact ⟨_, combine_of_scalars hknown⟩

theorem exists_combine_of_not_clash (h : ¬Clash operands) :
    ∃ found, combine operands = .ok found := by
  rcases combine_cases operands with hclash | ⟨type, htype⟩ | hscalars
  · exact absurd hclash h
  · exact ⟨some type, combine_of_takesOver htype⟩
  · exact exists_combine_of_scalars hscalars

/-- Operands fail to combine exactly if they clash. -/
theorem combine_eq_error_iff : (∃ f, combine operands = .error f) ↔ Clash operands := by
  constructor
  · rintro ⟨f, hf⟩
    by_contra hclash
    obtain ⟨found, hfound⟩ := exists_combine_of_not_clash hclash
    rw [hf] at hfound
    cases hfound
  · intro hclash
    cases h : combine operands with
    | error f => exact ⟨f, rfl⟩
    | ok found => exact absurd hclash (not_clash_of_combine_eq_ok h)

/-- Types fail to promote because nothing relates them. -/
theorem foldlM_promote_eq_error {first : ElementType} {rest : List ElementType} {f : Fault}
    (h : rest.foldlM promote first = .error f) : ∃ a b, f = .unrelatedTypes a b := by
  induction rest generalizing first with
  | nil => cases h
  | cons second rest ih =>
    rw [List.foldlM_cons] at h
    rcases bind_eq_error.1 h with h | ⟨_, -, h⟩
    · unfold promote at h
      split at h
      case h_4 =>
        split at h
        · cases h
        · exact ⟨_, _, (Except.error.inj h).symm⟩
      all_goals cases h
    · exact ih h

theorem kind_of_combine_eq_error {f : Fault} (h : combine operands = .error f) :
    f.kind = .typing := by
  unfold combine at h
  split at h
  · cases h
  · split at h
    · split at h
      · cases h
      · rw [← Except.error.inj h]
        rfl
    · rename_i first rest _ _
      cases hfold : rest.foldlM promote first with
      | ok type =>
        rw [hfold] at h
        cases h
      | error g =>
        rw [hfold] at h
        obtain ⟨a, b, rfl⟩ := foldlM_promote_eq_error hfold
        rw [← Except.error.inj h]
        rfl

/-- **When operands combine.**  Nothing is known of the operation exactly if no operand is known.
It fails, always with a fault of typing, exactly if a handle is known and the known operands are not
all the same, or if two different structs are known.  And a struct that is known beside scalars is
what the operands combine to, wherever it stands. -/
theorem combine_outcome (operands : List (Option ElementType)) :
    (combine operands = .ok none ↔ ∀ type, some type ∉ operands) ∧
      ((∃ f, combine operands = .error f ∧ f.kind = .typing) ↔
        MixesHandle operands ∨ MixesStructs operands) ∧
      (∀ f, combine operands = .error f → f.kind = .typing) ∧
      ∀ type, some type ∈ operands → type.hasFields = true →
        (∀ a, some a ∈ operands → a = type ∨ ∃ s, a = scalar s) →
          combine operands = .ok (some type) := by
  refine ⟨?_, ?_, fun f hf => kind_of_combine_eq_error hf,
    fun type hmem htype halone => combine_of_hasFields hmem htype halone⟩
  · rw [combine_eq_ok_none_iff]
    constructor
    · intro hnone type htype
      cases hnone _ htype
    · intro hnone type htype
      cases type with
      | none => rfl
      | some a => exact absurd htype (hnone a)
  · rw [← Clash, ← combine_eq_error_iff]
    exact exists_congr fun f => and_iff_left_of_imp kind_of_combine_eq_error

/-- A struct takes over from the scalars around it, and clashes with another struct. -/
theorem combine_outcome_vectors :
    let pair := vector .float32 2
    let operands := [some int32, none, some pair, some float64, some pair]
    combine operands = .ok (some pair) ∧
      ∃ f, combine (operands ++ [some (vector .int32 2)]) = .error f ∧ f.kind = .typing := by
  intro pair operands
  have hscalars : ∀ a, some a ∈ operands → a = pair ∨ ∃ s, a = scalar s := by
    intro a ha
    simp only [operands, List.mem_cons, Option.some.injEq, reduceCtorEq, List.not_mem_nil,
      or_false, false_or] at ha
    rcases ha with rfl | rfl | rfl | rfl
    · exact .inr ⟨_, rfl⟩
    · exact .inl rfl
    · exact .inr ⟨_, rfl⟩
    · exact .inl rfl
  refine ⟨(combine_outcome operands).2.2.2 pair (by simp [operands]) rfl hscalars, ?_⟩
  have hne : pair ≠ vector .int32 2 := by decide
  exact (combine_outcome _).2.1.2 (.inr ⟨pair, _, by simp [operands], by simp, rfl, rfl, hne⟩)

end KernelTyping.ElementType
