import KernelTyping.Signature
import Mathlib.Data.List.Nodup
import Mathlib.Data.List.Perm.Subperm

/-!
# KernelTyping.Proofs.Signature — the results of a signature

The results of a signature that is built from lists are the ones it was built from
(`Signature.results_ofLists`).
-/

namespace KernelTyping

theorem Slot.result_injective {i j : Nat} (h : result i = result j) : i = j := by
  have := Slot.position.inj h
  omega

theorem Slot.input_ne_result (i j : Nat) : input i ≠ result j := by
  intro h
  have := Slot.position.inj h
  omega

namespace Signature

variable {slot : Nat → Slot} {s : Signature} {types results : List ElementType} {n : Nat}

/-- The signature with types in the slots from the `n`-th on. -/
def fill (slot : Nat → Slot) (n : Nat) (types : List ElementType) (s : Signature) : Signature :=
  (types.zipIdx n).foldl (fun s (t, i) => s.insert (slot i) t) s

theorem fill_cons (type : ElementType) :
    fill slot n (type :: types) s = fill slot (n + 1) types (s.insert (slot n) type) := rfl

theorem getElem?_fill_of_ne {other : Slot} (h : ∀ i, slot i ≠ other) :
    (fill slot n types s)[other]? = s[other]? := by
  induction types generalizing n s with
  | nil => rfl
  | cons type types ih =>
    rw [fill_cons, ih, Std.ExtTreeMap.getElem?_insert, if_neg]
    simpa using h n

theorem getElem?_fill (hslot : ∀ {i j}, slot i = slot j → i = j) (i : Nat) :
    (fill slot n types s)[slot i]? =
      if i < n then s[slot i]? else (types[i - n]?).or s[slot i]? := by
  induction types generalizing n s with
  | nil => simp [fill]
  | cons type types ih =>
    have hinsert : (s.insert (slot n) type)[slot i]? = if n = i then some type else s[slot i]? := by
      simp only [Std.ExtTreeMap.getElem?_insert, Std.LawfulEqOrd.compare_eq_iff_eq]
      exact if_congr ⟨hslot, congrArg slot⟩ rfl rfl
    rw [fill_cons, ih, hinsert]
    rcases Nat.lt_trichotomy i n with h | rfl | h
    · rw [if_pos (by omega), if_neg (by omega), if_pos h]
    · simp
    · obtain ⟨j, rfl⟩ := Nat.exists_eq_add_of_lt h
      rw [if_neg (by omega), if_neg (by omega), if_neg (by omega),
        show n + j + 1 - n = j + 1 by omega, show n + j + 1 - (n + 1) = j by omega,
        List.getElem?_cons_succ]

/-- The slots of the results hold the results. -/
theorem getElem?_ofLists (inputs results : List ElementType) (i : Nat) :
    (ofLists inputs results)[Slot.result i]? = results[i]? := by
  have hinputs : (fill Slot.input 0 inputs ∅)[Slot.result i]? = none := by
    rw [getElem?_fill_of_ne fun j => Slot.input_ne_result j i]
    rfl
  show (fill Slot.result 0 results (fill Slot.input 0 inputs ∅))[Slot.result i]? = _
  rw [getElem?_fill Slot.result_injective, hinputs]
  simp

theorem length_le_size (h : ∀ i < n, (s[Slot.result i]?).isSome = true) : n ≤ s.size := by
  have hsub : (List.range n).map Slot.result ⊆ s.keys := by
    intro slot hmem
    obtain ⟨i, hi, rfl⟩ := List.mem_map.1 hmem
    have := h i (List.mem_range.1 hi)
    simpa using this
  have hnodup : ((List.range n).map Slot.result).Nodup :=
    List.Nodup.map (fun _ _ => Slot.result_injective) List.nodup_range
  have hlength := (hnodup.subperm hsub).length_le
  simpa using hlength

theorem takeWhile_range (results : List ElementType) {n : Nat} (h : results.length ≤ n) :
    (((List.range n).map fun i => results[i]?).takeWhile (·.isSome)).filterMap id = results := by
  induction results generalizing n with
  | nil =>
    cases n with
    | zero => rfl
    | succ n => simp [List.range_succ_eq_map]
  | cons type types ih =>
    obtain ⟨n, rfl⟩ : ∃ m, n = m + 1 := ⟨n - 1, by simp at h; omega⟩
    simp only [List.length_cons, Nat.add_le_add_iff_right] at h
    have hrest : (List.range (n + 1)).map (fun i => (type :: types)[i]?) =
        some type :: (List.range n).map fun i => types[i]? := by
      simp [List.range_succ_eq_map, Function.comp_def]
    rw [hrest, List.takeWhile_cons_of_pos rfl]
    exact congrArg (type :: ·) (ih h)

/-- The results are read back as they were recorded. -/
theorem results_ofLists (inputs results : List ElementType) :
    (ofLists inputs results).results = results := by
  have hsize : results.length ≤ (ofLists inputs results).size :=
    length_le_size fun i hi => by simp [getElem?_ofLists, hi]
  simp only [Signature.results, getElem?_ofLists]
  exact takeWhile_range results hsize

end Signature

end KernelTyping
