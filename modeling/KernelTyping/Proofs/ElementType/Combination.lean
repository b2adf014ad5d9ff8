import KernelTyping.Proofs.ElementType.Conversion

/-!
# KernelTyping.Proofs.ElementType.Combination — what several operands combine to

Nothing is known of an operation exactly if nothing is known of any operand
(`combine_eq_ok_none_iff`).  Scalars promote among themselves, so that their combination is a fold
(`combine_of_scalars`) in which no operand loses a value (`combine_never_narrows`).  Scalars that
join other operands from the right change the combined type unless it absorbs each of them by itself
(`combine_append_scalars_eq_iff`).
-/

namespace KernelTyping

namespace Scalar

theorem converts_antisymm {a b : Scalar} (hab : a.converts b = true) (hba : b.converts a = true) :
    a = b := by
  revert hab hba
  cases a <;> cases b <;> decide

theorem converts_foldl_promote {x a : Scalar} (h : x.converts a = true) (bs : List Scalar) :
    x.converts (bs.foldl promote a) = true := by
  induction bs generalizing a with
  | nil => exact h
  | cons b bs ih => exact ih (converts_promote h b)

/-- A type is left as it is exactly if it absorbs each of the others: once it has been promoted to
another one, no promotion leads back. -/
theorem foldl_promote_eq_iff (a : Scalar) (bs : List Scalar) :
    bs.foldl promote a = a ↔ ∀ b ∈ bs, a.promote b = a := by
  induction bs with
  | nil => simp
  | cons b bs ih =>
    have hfirst (h : bs.foldl promote (a.promote b) = a) : a.promote b = a := by
      have hback : (a.promote b).converts a = true := by
        have := converts_foldl_promote (converts_refl (a.promote b)) bs
        rwa [h] at this
      exact converts_antisymm hback (converts_promote (converts_refl a) b)
    rw [List.foldl_cons, List.forall_mem_cons, ← ih]
    constructor
    · intro h
      have hb := hfirst h
      exact ⟨hb, by rwa [hb] at h⟩
    · rintro ⟨hb, h⟩
      rwa [hb]

end Scalar

namespace ElementType

/-! ### Known operands -/

variable {operands : List (Option ElementType)} {first : ElementType} {rest : List ElementType}

/-- The combination of operands of which some are known and none is a handle. -/
theorem combine_of_not_handle (hknown : operands.filterMap id = first :: rest)
    (hhandle : ∀ type ∈ first :: rest, type.isHandle = false) :
    combine operands = (rest.foldlM promote first).map some := by
  have hany : (first :: rest).any isHandle = false := by simpa using hhandle
  unfold combine
  rw [hknown]
  dsimp only
  rw [hany]
  rfl

/-- Nothing is known of an operation exactly if nothing is known of any operand. -/
theorem combine_eq_ok_none_iff : combine operands = .ok none ↔ ∀ type ∈ operands, type = none := by
  have hnone : operands.filterMap id = [] ↔ ∀ type ∈ operands, type = none := by
    simp [List.filterMap_eq_nil_iff]
  rw [← hnone]
  constructor
  · intro h
    unfold combine at h
    split at h
    case h_1 heq => exact heq
    case h_2 first rest heq =>
      split at h
      · split at h <;> cases h
      · obtain ⟨type, -, htype⟩ := map_eq_ok.1 h
        cases htype
  · intro h
    unfold combine
    rw [h]

/-- Operands that are of one and the same type, where they are known, combine to that. -/
theorem combine_of_uniform {type : ElementType} (h : ∀ t ∈ operands, t = none ∨ t = some type) :
    combine operands = .ok (if some type ∈ operands then some type else none) := by
  by_cases hmem : some type ∈ operands
  · obtain ⟨first, rest, hknown⟩ : ∃ first rest, operands.filterMap id = first :: rest :=
      List.exists_cons_of_ne_nil (List.ne_nil_of_mem (List.mem_filterMap.2 ⟨_, hmem, rfl⟩))
    have hsame : ∀ t ∈ first :: rest, t = type := by
      intro t ht
      rw [← hknown, List.mem_filterMap] at ht
      obtain ⟨_, ht, rfl⟩ := ht
      rcases h _ ht with hnone | hsome
      · cases hnone
      · exact Option.some.inj hsome
    obtain ⟨rfl, hrest⟩ := List.forall_mem_cons.1 hsame
    have hfold : rest.foldlM promote first = .ok first := by
      clear hknown hsame
      induction rest with
      | nil => rfl
      | cons t rest ih =>
        obtain ⟨rfl, hrest⟩ := List.forall_mem_cons.1 hrest
        rw [List.foldlM_cons, promote_self, ok_bind]
        exact ih hrest
    have hall : rest.all (· = first) = true := by simpa using hrest
    rw [if_pos hmem]
    unfold combine
    rw [hknown]
    dsimp only
    rw [hall, hfold, if_pos rfl]
    split <;> rfl
  · rw [if_neg hmem, combine_eq_ok_none_iff]
    exact fun t ht => (h t ht).resolve_right fun heq => hmem (heq ▸ ht)

/-! ### Scalars -/

theorem foldlM_promote_scalars (s : Scalar) (ss : List Scalar) :
    (ss.map scalar).foldlM promote (scalar s) = .ok (scalar (ss.foldl Scalar.promote s)) := by
  induction ss generalizing s with
  | nil => rfl
  | cons t ss ih => exact ih (s.promote t)

theorem exists_eq_map_scalar {types : List ElementType}
    (h : ∀ type ∈ types, ∃ s, type = scalar s) : ∃ ss : List Scalar, types = ss.map scalar := by
  induction types with
  | nil => exact ⟨[], rfl⟩
  | cons type types ih =>
    obtain ⟨s, rfl⟩ := h type (by simp)
    obtain ⟨ss, rfl⟩ := ih fun type htype => h type (by simp [htype])
    exact ⟨s :: ss, rfl⟩

/-- Known operands that are all scalars combine to a scalar, by promotion from left to right. -/
theorem combine_of_scalars {s : Scalar} {ss : List Scalar}
    (hknown : operands.filterMap id = (s :: ss).map scalar) :
    combine operands = .ok (some (scalar (ss.foldl Scalar.promote s))) := by
  have hhandle : ∀ type ∈ (s :: ss).map scalar, type.isHandle = false := by
    intro type htype
    obtain ⟨t, -, rfl⟩ := List.mem_map.1 htype
    rfl
  rw [combine_of_not_handle hknown hhandle, foldlM_promote_scalars]
  rfl

/-- **Combination never narrows.**  Operands of which the known ones are scalars always combine, and
every known one is cast safely to the type they combine to, except that promotion takes an `int32`
to single precision. -/
theorem combine_never_narrows (hscalars : ∀ type, some type ∈ operands → ∃ s, type = scalar s) :
    ∃ combined, combine operands = .ok combined ∧
      ∀ result, combined = some result → ∀ type, some type ∈ operands →
        type.castsSafely result = true ∨
          type = int32 ∧ (result = float32 ∨ result = complex64) := by
  obtain ⟨ss, hknown⟩ : ∃ ss : List Scalar, operands.filterMap id = ss.map scalar :=
    exists_eq_map_scalar fun type htype => hscalars type (by simpa using htype)
  cases ss with
  | nil =>
    have hnone : combine operands = .ok none := by
      unfold combine
      rw [hknown]
      rfl
    exact ⟨none, hnone, nofun⟩
  | cons s ss =>
    have hcombined := combine_of_scalars hknown
    refine ⟨_, hcombined, fun result hresult type htype => ?_⟩
    obtain rfl := Option.some.inj hresult
    rcases converts_combine hcombined htype with hcast | ⟨-, hfields⟩ | hoverride
    · exact .inl hcast
    · cases hfields
    · exact .inr hoverride

/-- The `int32` is the one operand here that is not cast safely. -/
theorem combine_never_narrows_mixedScalars :
    let operands := [some int32, none, some float32, some (scalar .int8)]
    (∀ type, some type ∈ operands → ∃ s, type = scalar s) ∧
      combine operands = .ok (some float32) ∧ int32.castsSafely float32 = false ∧
      (scalar .int8).castsSafely float32 = true := by
  intro operands
  have hscalars : ∀ type, some type ∈ operands → ∃ s, type = scalar s := by
    intro type htype
    rcases type with s | ⟨_, _⟩ | _
    · exact ⟨s, rfl⟩
    · simp [operands, int32, float32] at htype
    · simp [operands, int32, float32] at htype
  have hresult : combine operands = .ok (some float32) := rfl
  obtain ⟨combined, hcombined, hcasts⟩ := combine_never_narrows hscalars
  obtain rfl := Except.ok.inj (hcombined.symm.trans hresult)
  refine ⟨hscalars, hcombined, rfl, ?_⟩
  rcases hcasts float32 rfl (scalar .int8) (by simp [operands]) with hcast | ⟨heq, -⟩
  · exact hcast
  · cases heq

/-! ### Scalars behind other operands -/

theorem filterMap_append_scalars (hknown : operands.filterMap id = first :: rest)
    (ss : List Scalar) :
    (operands ++ ss.map (some ∘ scalar)).filterMap id = first :: (rest ++ ss.map scalar) := by
  have hscalars : (ss.map (some ∘ scalar)).filterMap id = ss.map scalar := by
    simp [List.filterMap_map]
  rw [List.filterMap_append, hknown, hscalars, List.cons_append]

/-- Operands among which there is a handle do not combine with a scalar. -/
theorem combine_append_scalars_of_handle (hknown : operands.filterMap id = first :: rest)
    (hhandle : (first :: rest).any isHandle = true) (s : Scalar) (ss : List Scalar) :
    combine (operands ++ (s :: ss).map (some ∘ scalar)) =
      .error (.handleMixed (first :: (rest ++ (s :: ss).map scalar))) := by
  have hany : (first :: (rest ++ (s :: ss).map scalar)).any isHandle = true := by
    rw [← List.cons_append, List.any_append, hhandle, Bool.true_or]
  have hdiffer : (rest ++ (s :: ss).map scalar).all (· = first) = false := by
    rw [Bool.eq_false_iff]
    intro hall
    simp only [List.map_cons, List.all_append, List.all_cons, Bool.and_eq_true,
      decide_eq_true_eq, List.all_eq_true] at hall
    obtain ⟨hrest, rfl, -⟩ := hall
    obtain ⟨type, hmem, htype⟩ := List.any_eq_true.1 hhandle
    obtain rfl : type = scalar s := (List.mem_cons.1 hmem).elim id (hrest type)
    cases htype
  unfold combine
  rw [filterMap_append_scalars hknown]
  dsimp only
  rw [hany, hdiffer]
  rfl

/-- Otherwise they are promoted after the others. -/
theorem combine_append_scalars_of_not_handle (hknown : operands.filterMap id = first :: rest)
    (hhandle : (first :: rest).any isHandle = false) (ss : List Scalar) :
    combine (operands ++ ss.map (some ∘ scalar)) =
      (rest.foldlM promote first >>= (ss.map scalar).foldlM promote).map some := by
  have hscalars : ∀ type ∈ first :: (rest ++ ss.map scalar), type.isHandle = false := by
    intro type htype
    rw [← List.cons_append, List.mem_append] at htype
    rcases htype with htype | htype
    · simpa using List.any_eq_false.1 hhandle type htype
    · obtain ⟨s, -, rfl⟩ := List.mem_map.1 htype
      rfl
  rw [combine_of_not_handle (filterMap_append_scalars hknown ss) hscalars, List.foldlM_append]

theorem foldlM_promote_scalars_eq_iff (type : ElementType) (ss : List Scalar) :
    (ss.map scalar).foldlM promote type = .ok type ↔
      ∀ s ∈ ss, promote type (scalar s) = .ok type := by
  cases type with
  | scalar t =>
    rw [foldlM_promote_scalars]
    simp only [Except.ok.injEq, scalar.injEq, promote, Scalar.foldl_promote_eq_iff]
  | struct name fields =>
    have hstays : (ss.map scalar).foldlM promote (struct name fields) =
        .ok (struct name fields) := by
      induction ss with
      | nil => rfl
      | cons s ss ih => exact ih
    simp [hstays, promote]
  | handle name =>
    cases ss with
    | nil => exact iff_of_true rfl (by simp)
    | cons s ss =>
      have hunrelated : promote (handle name) (scalar s) =
          .error (.unrelatedTypes (handle name) (scalar s)) := by simp [promote]
      rw [List.map_cons, List.foldlM_cons, List.forall_mem_cons, hunrelated, error_bind]
      simp

/-- Scalars that come after other operands, of which some are known, change nothing exactly if each
of them changes nothing by itself. -/
theorem combine_append_scalars_eq_iff (hsome : ∃ type, some type ∈ operands) (ss : List Scalar) :
    combine (operands ++ ss.map (some ∘ scalar)) = combine operands ↔
      ∀ s ∈ ss, combine (operands ++ [some (scalar s)]) = combine operands := by
  obtain ⟨first, rest, hknown⟩ : ∃ first rest, operands.filterMap id = first :: rest := by
    obtain ⟨type, htype⟩ := hsome
    exact List.exists_cons_of_ne_nil (List.ne_nil_of_mem (List.mem_filterMap.2 ⟨_, htype, rfl⟩))
  cases hhandle : (first :: rest).any isHandle with
  | true =>
    -- with any scalar at all, the combination fails with one more type in its text
    have hne (s : Scalar) (ss : List Scalar) :
        combine (operands ++ (s :: ss).map (some ∘ scalar)) ≠ combine operands := by
      rw [combine_append_scalars_of_handle hknown hhandle]
      unfold combine
      rw [hknown]
      dsimp only
      rw [hhandle, if_pos rfl]
      split <;> simp
    cases ss with
    | nil => simp
    | cons s ss =>
      refine ⟨fun h => absurd h (hne s ss), fun h => absurd (h s (by simp)) ?_⟩
      exact hne s []
  | false =>
    have hcombine := combine_append_scalars_of_not_handle hknown hhandle
    have hnone := hcombine []
    have hone (s : Scalar) := hcombine [s]
    simp only [List.map_nil, List.append_nil, List.map_cons, Function.comp_apply] at hnone hone
    rw [hcombine, hnone]
    simp only [hone]
    cases rest.foldlM promote first with
    | error f => simp [Except.map]
    | ok type =>
      have hmap {x y : Except Fault ElementType} : x.map some = y.map some ↔ x = y := by
        cases x <;> cases y <;> simp [Except.map]
      simp only [hmap, ok_bind, List.foldlM_cons, List.foldlM_nil, bind_pure]
      exact foldlM_promote_scalars_eq_iff type ss

end ElementType

end KernelTyping
