import KernelTyping.Proofs.ElementType.Clashes
import Mathlib.Data.List.Perm.Subperm

/-!
# KernelTyping.Proofs.ElementType.Reordering — operands in another order

Promotion is symmetric but not associative.  An `int32` is taken to single precision by `float32`
and to double precision by `complex64`, so that it matters which of the two it meets first; and an
`int32` also comes about where `uint16` meets a signed type, unless `complex64` absorbs both before.
These are the only ways in which the order of operands counts (`PrecisionByOrder`).

* `combine_reordered_iff`: apart from that, operands combine alike in every order.
* `complex64_by_order`: operands whose order counts.
-/

namespace KernelTyping

namespace Scalar

/-- What holds of each scalar can be checked. -/
instance decidableForall {p : Scalar → Prop} [DecidablePred p] : Decidable (∀ s, p s) :=
  decidable_of_iff (∀ s ∈ all, p s) ⟨fun h s => h s (mem_all s), fun h s _ => h s⟩

/-! ### Scalars promoted one after the other -/

variable {ss ts : List Scalar} {s : Scalar}

/-- Scalars promoted from left to right; the boolean gives way to all others. -/
def promoteAll (ss : List Scalar) : Scalar := ss.foldl promote bool

theorem promoteAll_cons (s : Scalar) (ss : List Scalar) :
    promoteAll (s :: ss) = ss.foldl promote s := by
  have hbool : ∀ s, bool.promote s = s := by decide
  rw [promoteAll, List.foldl_cons, hbool]

theorem converts_promoteAll (h : s ∈ ss) : s.converts (promoteAll ss) = true := by
  obtain ⟨before, after, rfl⟩ := List.append_of_mem h
  rw [promoteAll, List.foldl_append, List.foldl_cons]
  exact converts_foldl_promote (converts_promote_right _ s) after

theorem promoteAll_induction {p : Scalar → Prop} (hbool : p bool)
    (hp : ∀ a b, p a → p b → p (a.promote b)) (h : ∀ s ∈ ss, p s) : p (promoteAll ss) :=
  List.foldlRecOn ss promote hbool fun a ha b hb => hp a b ha (h b hb)

theorem promote_right_comm : ∀ a s t : Scalar, s ≠ complex64 → t ≠ complex64 →
    (a.promote s).promote t = (a.promote t).promote s := by
  decide +kernel

/-- Where `complex64` is not among them, the order of scalars does not count. -/
theorem promoteAll_of_not_mem (h : ss.Perm ts) (hcomplex : complex64 ∉ ss) :
    promoteAll ss = promoteAll ts := by
  refine h.foldl_eq' (fun s hs t ht a => promote_right_comm a s t ?_ ?_) bool
  · rintro rfl
    exact hcomplex hs
  · rintro rfl
    exact hcomplex ht

/-! ### Single and double precision -/

section Complex

variable (hcomplex : complex64 ∈ ss)

include hcomplex

theorem promoteAll_of_mem : promoteAll ss = complex64 ∨ promoteAll ss = complex128 := by
  have hcases : ∀ r, complex64.converts r = true → r = complex64 ∨ r = complex128 := by decide
  exact hcases _ (converts_promoteAll hcomplex)

/-- A scalar that does not convert to `complex64` makes it a double. -/
theorem promoteAll_of_wide (hs : s ∈ ss) (hwide : s.converts complex64 = false) :
    promoteAll ss = complex128 := by
  refine (promoteAll_of_mem hcomplex).resolve_left fun hsingle => ?_
  have hconverts := converts_promoteAll hs
  rw [hsingle, hwide] at hconverts
  cases hconverts

/-- An `int32` makes it a double if no `float32` takes it to single precision first. -/
theorem promoteAll_of_int32 (hint : int32 ∈ ss) (hfloat : float32 ∉ ss) :
    promoteAll ss = complex128 := by
  have hstep : ∀ a s : Scalar, a ≠ float32 → s ≠ float32 →
      a.promote s ≠ float32 ∧
        (int32.castsSafely a = true ∨ s = int32 → int32.castsSafely (a.promote s) = true) := by
    decide
  -- on the way there is no `float32`, and from the `int32` on there is a type that holds it
  have hfold : ∀ (ss : List Scalar) (a : Scalar), a ≠ float32 → float32 ∉ ss →
      int32.castsSafely a = true ∨ int32 ∈ ss →
        int32.castsSafely (ss.foldl promote a) = true := by
    intro ss
    induction ss with
    | nil =>
      intro a _ _ h
      exact h.resolve_right List.not_mem_nil
    | cons s ss ih =>
      intro a ha hss h
      obtain ⟨hs, hss⟩ := not_or.1 (mt List.mem_cons.2 hss)
      obtain ⟨hnext, hholds⟩ := hstep a s ha (Ne.symm hs)
      refine ih _ hnext hss ?_
      rcases h with h | h
      · exact .inl (hholds (.inl h))
      · rcases List.mem_cons.1 h with rfl | h
        · exact .inl (hholds (.inr rfl))
        · exact .inr h
  have hholds := hfold ss bool (by decide) hfloat (.inr hint)
  refine (promoteAll_of_mem hcomplex).resolve_left fun hsingle => ?_
  rw [promoteAll] at hsingle
  rw [hsingle] at hholds
  cases hholds

/-- It stays in single precision as long as no `int32` comes about. -/
theorem promoteAll_of_narrow (hnarrow : ∀ s ∈ ss, s.castsSafely complex64 = true)
    (hsigns : uint16 ∉ ss ∨ int8 ∉ ss ∧ int16 ∉ ss) : promoteAll ss = complex64 := by
  have hcasts : (promoteAll ss).castsSafely complex64 = true := by
    rcases hsigns with hunsigned | ⟨hint8, hint16⟩
    · refine (promoteAll_induction (p := fun s => s.castsSafely complex64 = true ∧ s ≠ uint16)
        (by decide) (by decide) fun s hs => ⟨hnarrow s hs, ?_⟩).1
      rintro rfl
      exact hunsigned hs
    · refine (promoteAll_induction
        (p := fun s => s.castsSafely complex64 = true ∧ s ≠ int8 ∧ s ≠ int16)
        (by decide) (by decide) fun s hs => ⟨hnarrow s hs, ?_, ?_⟩).1
      · rintro rfl
        exact hint8 hs
      · rintro rfl
        exact hint16 hs
  refine (promoteAll_of_mem hcomplex).resolve_right fun hdouble => ?_
  rw [hdouble] at hcasts
  cases hcasts

end Complex

/-! ### When the order counts -/

/-- There is a `complex64`, nothing that needs double precision by itself, and an `int32` that is
taken to single precision in one order and to double precision in another: it stands beside a
`float32`, or it is what `uint16` and a signed type promote to. -/
def PrecisionByOrder (ss : List Scalar) : Prop :=
  complex64 ∈ ss ∧ (∀ s ∈ ss, s = int32 ∨ s.castsSafely complex64 = true) ∧
    (int32 ∈ ss ∧ float32 ∈ ss ∨ int32 ∉ ss ∧ uint16 ∈ ss ∧ (int8 ∈ ss ∨ int16 ∈ ss))

instance : DecidablePred PrecisionByOrder := fun _ => inferInstanceAs (Decidable (_ ∧ _ ∧ _))

theorem promoteAll_of_perm (h : ts.Perm ss) (horder : ¬PrecisionByOrder ss) :
    promoteAll ts = promoteAll ss := by
  by_cases hcomplex : complex64 ∈ ss
  swap
  · exact (promoteAll_of_not_mem h.symm hcomplex).symm
  have hcomplex' : complex64 ∈ ts := h.mem_iff.2 hcomplex
  by_cases hwide : ∃ s ∈ ss, s.converts complex64 = false
  · obtain ⟨s, hs, hwide⟩ := hwide
    rw [promoteAll_of_wide hcomplex hs hwide, promoteAll_of_wide hcomplex' (h.mem_iff.2 hs) hwide]
  have hnarrow : ∀ s ∈ ss, s = int32 ∨ s.castsSafely complex64 = true := by
    have hcases : ∀ s : Scalar, s.converts complex64 = true →
        s = int32 ∨ s.castsSafely complex64 = true := by decide
    intro s hs
    refine hcases s (Bool.not_eq_false _ ▸ fun hs' => hwide ⟨s, hs, hs'⟩)
  by_cases hint : int32 ∈ ss
  · have hfloat : float32 ∉ ss := fun hfloat => horder ⟨hcomplex, hnarrow, .inl ⟨hint, hfloat⟩⟩
    rw [promoteAll_of_int32 hcomplex hint hfloat,
      promoteAll_of_int32 hcomplex' (h.mem_iff.2 hint) (mt h.mem_iff.1 hfloat)]
  · have hcasts : ∀ s ∈ ss, s.castsSafely complex64 = true := by
      intro s hs
      refine (hnarrow s hs).resolve_left ?_
      rintro rfl
      exact hint hs
    have hsigns : uint16 ∉ ss ∨ int8 ∉ ss ∧ int16 ∉ ss := by
      by_contra hsigns
      exact horder ⟨hcomplex, hnarrow, .inr ⟨hint, by tauto, by tauto⟩⟩
    rw [promoteAll_of_narrow hcomplex hcasts hsigns, promoteAll_of_narrow hcomplex'
      (fun s hs => hcasts s (h.mem_iff.1 hs)) (by simpa only [h.mem_iff] using hsigns)]

/-- Some scalars of a list can be put in front of the others. -/
theorem exists_perm_append (front : List Scalar) (hnodup : front.Nodup) (h : front ⊆ ss) :
    ∃ rest, (front ++ rest).Perm ss := by
  induction front generalizing ss with
  | nil => exact ⟨ss, .refl ss⟩
  | cons s front ih =>
    obtain ⟨hs, hnodup⟩ := List.nodup_cons.1 hnodup
    obtain ⟨hmem, hfront⟩ := List.cons_subset.1 h
    have herase : front ⊆ ss.erase s := by
      intro t ht
      have hne : t ≠ s := by
        rintro rfl
        exact hs ht
      exact (List.mem_erase_of_ne hne).2 (hfront ht)
    obtain ⟨rest, hrest⟩ := ih hnodup herase
    exact ⟨rest, (hrest.cons s).trans (List.perm_cons_erase hmem).symm⟩

/-- Double precision is never left. -/
theorem foldl_promote_complex128 (ss : List Scalar) :
    ss.foldl promote complex128 = complex128 := by
  have habsorbs : ∀ s : Scalar, complex128.promote s = complex128 := by decide
  exact (foldl_promote_eq_iff _ _).2 fun s _ => habsorbs s

theorem exists_perm_complex128 (h : PrecisionByOrder ss) :
    ∃ ts, ts.Perm ss ∧ promoteAll ts = complex128 := by
  obtain ⟨hcomplex, -, ⟨hint, -⟩ | ⟨-, hunsigned, hsigned⟩⟩ := h
  · obtain ⟨rest, hrest⟩ := exists_perm_append [complex64, int32] (by decide)
      (show _ ⊆ ss by simp [hcomplex, hint])
    refine ⟨_, hrest, ?_⟩
    show rest.foldl promote complex128 = complex128
    exact foldl_promote_complex128 rest
  · obtain ⟨s, hs, hsigned⟩ : ∃ s, (s = int8 ∨ s = int16) ∧ s ∈ ss := by
      rcases hsigned with h | h
      · exact ⟨int8, .inl rfl, h⟩
      · exact ⟨int16, .inr rfl, h⟩
    obtain ⟨rest, hrest⟩ := exists_perm_append [uint16, s, complex64]
      (by rcases hs with rfl | rfl <;> decide)
      (show _ ⊆ ss by simp [hunsigned, hsigned, hcomplex])
    refine ⟨_, hrest, ?_⟩
    have hfront : promoteAll [uint16, s, complex64] = complex128 := by
      rcases hs with rfl | rfl <;> rfl
    rw [promoteAll, List.foldl_append, ← promoteAll, hfront]
    exact foldl_promote_complex128 rest

theorem exists_perm_complex64 (h : PrecisionByOrder ss) :
    ∃ ts, ts.Perm ss ∧ promoteAll ts = complex64 := by
  obtain ⟨hcomplex, hnarrow, ⟨-, hfloat⟩ | ⟨hint, -⟩⟩ := h
  · -- `float32` first, which takes every `int32` to single precision before `complex64` comes
    obtain ⟨rest, hrest⟩ := exists_perm_append [float32] (by decide)
      (show _ ⊆ ss by simp [hfloat])
    have hsplit : (float32 :: (rest.filter (· = int32) ++
        rest.filter (fun s => !decide (s = int32)))).Perm ss :=
      ((List.filter_append_perm _ rest).cons float32).trans hrest
    refine ⟨_, hsplit, ?_⟩
    have hints : (rest.filter (· = int32)).foldl promote float32 = float32 := by
      rw [foldl_promote_eq_iff]
      intro s hs
      obtain ⟨-, hs⟩ := List.mem_filter.1 hs
      rw [of_decide_eq_true hs]
      rfl
    have hstep : ∀ a s : Scalar, a = float32 ∨ a = complex64 → s ≠ int32 →
        s.castsSafely complex64 = true → a.promote s = float32 ∨ a.promote s = complex64 := by
      decide
    have hothers : (rest.filter (fun s => !decide (s = int32))).foldl promote float32 = float32 ∨
        (rest.filter (fun s => !decide (s = int32))).foldl promote float32 = complex64 := by
      refine List.foldlRecOn (motive := fun a => a = float32 ∨ a = complex64) _ promote (.inl rfl)
        fun a ha s hs => ?_
      obtain ⟨hs, hne⟩ := List.mem_filter.1 hs
      have hne : s ≠ int32 := by simpa using hne
      have hss : s ∈ ss := hrest.mem_iff.1 (List.mem_append_right _ hs)
      exact hstep a s ha hne ((hnarrow s hss).resolve_left hne)
    refine (promoteAll_of_mem (hsplit.mem_iff.2 hcomplex)).resolve_right fun hdouble => ?_
    rw [promoteAll_cons, List.foldl_append, hints] at hdouble
    rw [hdouble] at hothers
    simp at hothers
  · -- `complex64` first, which absorbs all others
    obtain ⟨rest, hrest⟩ := exists_perm_append [complex64] (by decide)
      (show _ ⊆ ss by simp [hcomplex])
    refine ⟨_, hrest, ?_⟩
    have habsorbs : ∀ s : Scalar, s.castsSafely complex64 = true →
        complex64.promote s = complex64 := by decide
    show rest.foldl promote complex64 = complex64
    rw [foldl_promote_eq_iff]
    intro s hs
    have hss : s ∈ ss := hrest.mem_iff.1 (List.mem_append_right _ hs)
    refine habsorbs s ((hnarrow s hss).resolve_left ?_)
    rintro rfl
    exact hint hss

end Scalar

namespace ElementType

variable {operands reordered : List (Option ElementType)}

/-- The known operands are scalars, and the precision of what they combine to hangs on their
order. -/
def PrecisionByOrder (operands : List (Option ElementType)) : Prop :=
  ∃ ss : List Scalar, operands.filterMap id = ss.map scalar ∧ Scalar.PrecisionByOrder ss

/-! ### Reordered operands -/

theorem combine_of_promoteAll {ss : List Scalar} (hknown : operands.filterMap id = ss.map scalar)
    (hsome : ss ≠ []) : combine operands = .ok (some (scalar (Scalar.promoteAll ss))) := by
  cases ss with
  | nil => exact absurd rfl hsome
  | cons s ss => rw [combine_of_scalars hknown, Scalar.promoteAll_cons]

/-- The known scalars of reordered operands are reordered. -/
theorem exists_perm_of_perm {ss : List Scalar} (h : reordered.Perm operands)
    (hknown : operands.filterMap id = ss.map scalar) :
    ∃ ts : List Scalar, reordered.filterMap id = ts.map scalar ∧ ts.Perm ss := by
  have hperm : (reordered.filterMap id).Perm (ss.map scalar) := hknown ▸ h.filterMap id
  obtain ⟨ts, hts⟩ : ∃ ts : List Scalar, reordered.filterMap id = ts.map scalar := by
    refine exists_eq_map_scalar fun type htype => ?_
    obtain ⟨s, -, rfl⟩ := List.mem_map.1 (hperm.mem_iff.1 htype)
    exact ⟨s, rfl⟩
  rw [hts] at hperm
  have hscalars := hperm.filterMap toScalar?
  simp only [List.filterMap_map, Function.comp_def, toScalar?, List.filterMap_some] at hscalars
  exact ⟨ts, hts, hscalars⟩

/-- For every order of the known scalars there is one of the operands. -/
theorem exists_perm_of_scalars {ss ts : List Scalar}
    (hknown : operands.filterMap id = ss.map scalar) (h : ts.Perm ss) :
    ∃ reordered : List (Option ElementType),
      reordered.Perm operands ∧ reordered.filterMap id = ts.map scalar := by
  refine ⟨ts.map (some ∘ scalar) ++ operands.filter (!·.isSome), ?_, ?_⟩
  · have hsome : operands.filter (·.isSome) = ss.map (some ∘ scalar) := by
      rw [← List.map_map, ← hknown]
      clear hknown
      induction operands with
      | nil => rfl
      | cons type operands ih => cases type <;> simp [ih]
    have hsplit := List.filter_append_perm (·.isSome) operands
    rw [hsome] at hsplit
    exact ((h.map _).append_right _).trans hsplit
  · have hnone : (operands.filter (!·.isSome)).filterMap id = [] := by
      simp [List.filterMap_eq_nil_iff]
    rw [List.filterMap_append, hnone, List.append_nil, List.filterMap_map]
    simp [Function.comp_def]

theorem Clash.of_perm (h : reordered.Perm operands) (hclash : Clash operands) :
    Clash reordered := by
  simpa only [Clash, MixesHandle, MixesStructs, h.mem_iff] using hclash

theorem TakesOver.of_perm {type : ElementType} (h : reordered.Perm operands)
    (htype : TakesOver operands type) : TakesOver reordered type := by
  simpa only [TakesOver, h.mem_iff] using htype

/-- Operands that clash do so in every order; a type that takes over does so wherever it stands; and
scalars combine to the same unless their order counts. -/
theorem toOption_combine_of_perm (h : reordered.Perm operands)
    (horder : ¬PrecisionByOrder operands) :
    (combine reordered).toOption = (combine operands).toOption := by
  rcases combine_cases operands with hclash | ⟨type, htype⟩ | hscalars
  · obtain ⟨f, hf⟩ := combine_eq_error_iff.2 hclash
    obtain ⟨g, hg⟩ := combine_eq_error_iff.2 (hclash.of_perm h)
    rw [hf, hg]
    rfl
  · rw [combine_of_takesOver htype, combine_of_takesOver (htype.of_perm h)]
  · obtain ⟨ss, hknown⟩ : ∃ ss : List Scalar, operands.filterMap id = ss.map scalar :=
      exists_eq_map_scalar fun type htype => hscalars type (by simpa using htype)
    obtain ⟨ts, hknown', hperm⟩ := exists_perm_of_perm h hknown
    by_cases hsome : ss = []
    · have hnone {types : List (Option ElementType)} (hnil : types.filterMap id = []) :
          combine types = .ok none := by
        rw [combine_eq_ok_none_iff]
        simpa [List.filterMap_eq_nil_iff] using hnil
      rw [hsome, List.perm_nil] at hperm
      rw [hnone (by rw [hknown', hperm]; rfl), hnone (by rw [hknown, hsome]; rfl)]
    · have hsome' : ts ≠ [] := fun hnil => hsome (List.nil_perm.1 (hnil ▸ hperm))
      rw [combine_of_promoteAll hknown hsome, combine_of_promoteAll hknown' hsome',
        Scalar.promoteAll_of_perm hperm fun hss => horder ⟨ss, hknown, hss⟩]

/-- **Operands in another order.**  Operands combine to the same type, to nothing or not at all in
every order, except exactly where the precision of a complex number hangs on the order; there all
orders give a complex number, of single or of double precision. -/
theorem combine_reordered_iff (operands : List (Option ElementType)) :
    ((∀ reordered, reordered.Perm operands →
        (combine reordered).toOption = (combine operands).toOption) ↔
      ¬PrecisionByOrder operands) ∧
    (PrecisionByOrder operands → ∀ reordered, reordered.Perm operands →
      combine reordered = .ok (some complex64) ∨
        combine reordered = .ok (some (scalar .complex128))) := by
  constructor
  · refine ⟨?_, fun horder reordered h => toOption_combine_of_perm h horder⟩
    rintro halike ⟨ss, hknown, horder⟩
    obtain ⟨ts, hts, hsingle⟩ := Scalar.exists_perm_complex64 horder
    obtain ⟨us, hus, hdouble⟩ := Scalar.exists_perm_complex128 horder
    have hresult {ts : List Scalar} (hts : ts.Perm ss) :
        (combine operands).toOption = some (some (scalar (Scalar.promoteAll ts))) := by
      obtain ⟨reordered, hperm, hknown'⟩ := exists_perm_of_scalars hknown hts
      have hsome : ts ≠ [] := List.ne_nil_of_mem (hts.mem_iff.2 horder.1)
      rw [← halike reordered hperm, combine_of_promoteAll hknown' hsome]
      rfl
    have hsame := (hresult hts).symm.trans (hresult hus)
    rw [hsingle, hdouble] at hsame
    simp at hsame
  · rintro ⟨ss, hknown, horder⟩ reordered h
    obtain ⟨ts, hknown', hperm⟩ := exists_perm_of_perm h hknown
    have hmem : Scalar.complex64 ∈ ts := hperm.mem_iff.2 horder.1
    rw [combine_of_promoteAll hknown' (List.ne_nil_of_mem hmem)]
    rcases Scalar.promoteAll_of_mem hmem with hsingle | hdouble
    · exact .inl (by rw [hsingle]; rfl)
    · exact .inr (by rw [hdouble])

/-- An `int32` between `float32` and `complex64`, and one that small integers promote to. -/
theorem complex64_by_order :
    ([some int32, some complex64, some float32].Perm [some int32, some float32, some complex64] ∧
      combine [some int32, some float32, some complex64] = .ok (some complex64) ∧
      combine [some int32, some complex64, some float32] = .ok (some (scalar .complex128))) ∧
    ([some (scalar .int8), some (scalar .uint16), some complex64].Perm
        [some (scalar .int8), some complex64, some (scalar .uint16)] ∧
      combine [some (scalar .int8), some complex64, some (scalar .uint16)] =
        .ok (some complex64) ∧
      combine [some (scalar .int8), some (scalar .uint16), some complex64] =
        .ok (some (scalar .complex128))) :=
  ⟨⟨(List.Perm.swap _ _ []).cons _, rfl, rfl⟩, (List.Perm.swap _ _ []).cons _, rfl, rfl⟩

end ElementType

end KernelTyping
