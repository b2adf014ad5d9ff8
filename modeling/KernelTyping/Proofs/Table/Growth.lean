import KernelTyping.Table.Basic
import Mathlib.Data.List.Nodup
import Mathlib.Data.List.Perm.Subperm
import Std.Data.String.ToNat

/-!
# KernelTyping.Proofs.Table.Growth — a table to which specializations are added

`Table.Grows t u`: the table `u` comes from `t` by storing callables.  A table that grows keeps its
entries, the name under which each callable is found, its transactions and what was pending.
A stored callable keeps its name (`Grows.nameOf?_of_store`): that is why a second evaluation finds
the names of the first.  What is pending says in which order names were added, so that the tables on
the way to a table form a chain (`Grows.of_addFresh`).
-/

namespace KernelTyping.Table

/-! ### Fresh names -/

theorem candidate_injective {base : String} {i j : Nat}
    (h : candidate base i = candidate base j) : i = j := by
  have h : base ++ "_" ++ Nat.repr i = base ++ "_" ++ Nat.repr j := by
    simpa [candidate] using h
  exact Nat.repr_injective (by simpa using h)

theorem mem_keys {t : Table} {name : String} : name ∈ t.entries.keys ↔ t.contains name = true := by
  simp [contains]

theorem contains_eq_isSome (t : Table) (name : String) :
    t.contains name = (t.get? name).isSome := by
  simp [contains, get?, Std.ExtTreeMap.isSome_getElem?_eq_contains]

/-- A table has too few entries to take all candidates. -/
theorem exists_candidate_free (t : Table) (base : String) :
    ∃ i ∈ List.range (t.size + 1), t.contains (candidate base i) = false := by
  by_contra hall
  have hall : (List.range (t.size + 1)).map (candidate base) ⊆ t.entries.keys := by
    intro name hname
    obtain ⟨i, hi, rfl⟩ := List.mem_map.1 hname
    rw [mem_keys, ← Bool.not_eq_false]
    exact fun h => hall ⟨i, hi, h⟩
  have hnodup : ((List.range (t.size + 1)).map (candidate base)).Nodup :=
    List.Nodup.map (fun _ _ => candidate_injective) List.nodup_range
  have hlength := (hnodup.subperm hall).length_le
  simp only [List.length_map, List.length_range, size, Std.ExtTreeMap.length_keys] at hlength
  omega

/-- A fresh name is not taken. -/
theorem not_contains_freshName (t : Table) (base : String) :
    t.contains (t.freshName base) = false := by
  unfold freshName
  cases h : (List.range (t.size + 1)).find? fun i => !t.contains (candidate base i) with
  | some i => simpa using List.find?_some h
  | none =>
    obtain ⟨i, hi, hfree⟩ := t.exists_candidate_free base
    have := List.find?_eq_none.1 h i hi
    simp [hfree] at this

/-! ### Names of callables -/

/-- A callable is found under the first name that stands for it. -/
theorem nameOf?_spec {t : Table} {c : Callable} {name : String} (h : t.nameOf? c = some name) :
    t.get? name = some c ∧ ∀ other, compare other name = .lt → t.get? other ≠ some c := by
  obtain ⟨⟨_, c'⟩, hfind, rfl⟩ := Option.map_eq_some_iff.1 h
  obtain ⟨hc, before, after, hlist, hbefore⟩ := List.find?_eq_some_iff_append.1 hfind
  obtain rfl : c' = c := by simpa using hc
  have hsorted := t.entries.ordered_keys_toList
  rw [hlist, List.pairwise_append, List.pairwise_cons] at hsorted
  refine ⟨Std.ExtTreeMap.mem_toList_iff_getElem?_eq_some.1 (by simp [hlist]), ?_⟩
  intro other hlt hother
  have hmem := Std.ExtTreeMap.mem_toList_iff_getElem?_eq_some.2 hother
  rw [hlist, List.mem_append, List.mem_cons] at hmem
  rcases hmem with hmem | hmem | hmem
  · simpa using hbefore _ hmem
  · obtain ⟨rfl, -⟩ := Prod.mk.inj hmem
    rw [Std.ReflOrd.compare_self] at hlt
    cases hlt
  · have hgt := hsorted.2.1.1 _ hmem
    rw [Std.OrientedOrd.eq_swap, hlt] at hgt
    cases hgt

theorem nameOf?_eq_none {t : Table} {c : Callable} :
    t.nameOf? c = none ↔ ∀ name, t.get? name ≠ some c := by
  rw [nameOf?, Option.map_eq_none_iff, List.find?_eq_none]
  constructor
  · intro h name hname
    simpa using h _ (Std.ExtTreeMap.mem_toList_iff_getElem?_eq_some.2 hname)
  · rintro h ⟨name, c'⟩ hmem hc
    obtain rfl : c' = c := by simpa using hc
    exact h name (Std.ExtTreeMap.mem_toList_iff_getElem?_eq_some.1 hmem)

theorem nameOf?_eq_some {t : Table} {c : Callable} {name : String} :
    t.nameOf? c = some name ↔
      t.get? name = some c ∧ ∀ other, compare other name = .lt → t.get? other ≠ some c := by
  refine ⟨nameOf?_spec, fun ⟨hname, hfirst⟩ => ?_⟩
  cases h : t.nameOf? c with
  | none => exact absurd hname (nameOf?_eq_none.1 h name)
  | some other =>
    obtain ⟨hother, hfirst'⟩ := nameOf?_spec h
    cases hcmp : compare other name with
    | lt => exact absurd hother (hfirst other hcmp)
    | eq => rw [Std.LawfulEqOrd.eq_of_compare hcmp]
    | gt =>
      refine absurd hname (hfirst' name ?_)
      rw [Std.OrientedOrd.eq_swap, hcmp]
      rfl

/-! ### Storing a callable -/

section Store

variable {t u : Table} {base name : String} {c : Callable}

/-- The table with a callable under a fresh name. -/
def addFresh (t : Table) (base : String) (c : Callable) : Table :=
  { t with
    entries := t.entries.insert (t.freshName base) c
    pending := t.pending ++ [t.freshName base] }

/-- The table with a callable, and the name it is found under. -/
def put (t : Table) (base : String) (c : Callable) : Table × String :=
  match t.nameOf? c with
  | some name => (t, name)
  | none => (t.addFresh base c, t.freshName base)

theorem store_of_isEditing (h : t.isEditing = true) (base : String) (c : Callable) :
    t.store base c = .ok (t.put base c) := by
  unfold store put
  rw [if_pos h]
  cases t.nameOf? c <;> rfl

theorem put_of_nameOf? (h : t.nameOf? c = some name) : t.put base c = (t, name) := by
  rw [put, h]

/-- To store a callable finds it, or adds it under a fresh name. -/
theorem store_eq_ok :
    t.store base c = .ok (u, name) ↔
      t.isEditing = true ∧
        (t.nameOf? c = some name ∧ u = t ∨
          t.nameOf? c = none ∧ name = t.freshName base ∧ u = t.addFresh base c) := by
  unfold store
  by_cases hedit : t.isEditing
  · cases hfound : t.nameOf? c with
    | some other => simp [hedit]; tauto
    | none => simp [hedit, addFresh]; tauto
  · simp [hedit]

theorem store_of_storeSpecialization {function : String}
    (h : t.storeSpecialization function c = .ok (u, name)) :
    t.store c.name c = .ok (u, name) := by
  unfold storeSpecialization at h
  split at h
  · exact h
  · cases h

theorem get?_addFresh (t : Table) (base : String) (c : Callable) (other : String) :
    (t.addFresh base c).get? other =
      if t.freshName base = other then some c else t.get? other := by
  simp [get?, addFresh, Std.ExtTreeMap.getElem?_insert]

/-- What is in a table stays when a callable is added. -/
theorem get?_addFresh_of_some {other : String} {d : Callable} (h : t.get? other = some d) :
    (t.addFresh base c).get? other = some d := by
  rw [get?_addFresh, if_neg, h]
  rintro rfl
  have := t.not_contains_freshName base
  rw [contains_eq_isSome, h] at this
  cases this

/-- The name that was added last is the last one that is pending, so that the table before it can be
read off. -/
theorem eq_of_addFresh_eq {base' : String} {c' : Callable}
    (h : t.addFresh base c = u.addFresh base' c') : t = u := by
  obtain ⟨hpending, hname⟩ := List.append_inj' (congrArg Table.pending h) rfl
  have hname : t.freshName base = u.freshName base' := by simpa using hname
  have hentries : t.entries = u.entries := by
    refine Std.ExtTreeMap.ext_getElem? fun other => ?_
    have hother : (t.addFresh base c).get? other = (u.addFresh base' c').get? other := by rw [h]
    rw [get?_addFresh, get?_addFresh, ← hname] at hother
    split at hother
    case isTrue heq =>
      -- a fresh name has no entry in either table
      have ht := t.not_contains_freshName base
      have hu := u.not_contains_freshName base'
      rw [← hname, contains_eq_isSome, Option.isSome_eq_false_iff, Option.isNone_iff_eq_none] at hu
      rw [contains_eq_isSome, Option.isSome_eq_false_iff, Option.isNone_iff_eq_none] at ht
      rw [← heq]
      exact ht.trans hu.symm
    case isFalse => exact hother
  have hcommitted : (t.addFresh base c).committed = (u.addFresh base' c').committed := by rw [h]
  have hdepth : (t.addFresh base c).depth = (u.addFresh base' c').depth := by rw [h]
  cases t
  cases u
  cases hentries
  cases hpending
  cases hcommitted
  cases hdepth
  rfl

theorem nameOf?_addFresh_self (h : t.nameOf? c = none) :
    (t.addFresh base c).nameOf? c = some (t.freshName base) := by
  refine nameOf?_eq_some.2 ⟨by simp [get?_addFresh], fun other hlt hother => ?_⟩
  rw [get?_addFresh] at hother
  split at hother
  case isTrue heq =>
    rw [heq, Std.ReflOrd.compare_self] at hlt
    cases hlt
  case isFalse => exact nameOf?_eq_none.1 h other hother

theorem nameOf?_addFresh_of_some {d : Callable} {other : String} (hc : t.nameOf? c = none)
    (h : t.nameOf? d = some other) : (t.addFresh base c).nameOf? d = some other := by
  obtain ⟨hother, hfirst⟩ := nameOf?_spec h
  refine nameOf?_eq_some.2 ⟨get?_addFresh_of_some hother, fun name hlt hname => ?_⟩
  rw [get?_addFresh] at hname
  split at hname
  case isTrue =>
    rw [Option.some.inj hname, h] at hc
    cases hc
  case isFalse => exact hfirst name hlt hname

/-- A callable is found under the name that it is put under. -/
theorem nameOf?_put (t : Table) (base : String) (c : Callable) :
    (t.put base c).1.nameOf? c = some (t.put base c).2 := by
  unfold put
  split
  · assumption
  · exact nameOf?_addFresh_self ‹_›

theorem get?_put (t : Table) (base : String) (c : Callable) :
    (t.put base c).1.get? (t.put base c).2 = some c :=
  (nameOf?_spec (t.nameOf?_put base c)).1

end Store

/-! ### Growth -/

/-- The second table comes from the first by storing callables. -/
inductive Grows : Table → Table → Prop where
  | refl (t : Table) : Grows t t
  | store {t u v : Table} {base name : String} {c : Callable} :
    Grows t u → u.store base c = .ok (v, name) → Grows t v

namespace Grows

variable {t u v : Table}

theorem trans (htu : Grows t u) (huv : Grows u v) : Grows t v := by
  induction huv with
  | refl => exact htu
  | store _ hstore ih => exact ih.store hstore

theorem of_store {base name : String} {c : Callable} (h : t.store base c = .ok (u, name)) :
    Grows t u := (refl t).store h

/-- What every table keeps to which a callable is added, every table keeps that grows. -/
theorem induction_on_add {P : Table → Prop} (hadd : ∀ u base c, u.nameOf? c = none → P u →
    P (u.addFresh base c)) (h : Grows t u) (ht : P t) : P u := by
  induction h with
  | refl => exact ht
  | store _ hstore ih =>
    obtain ⟨-, ⟨-, rfl⟩ | ⟨hnone, -, rfl⟩⟩ := store_eq_ok.1 hstore
    · exact ih
    · exact hadd _ _ _ hnone ih

theorem depth_eq (h : Grows t u) : u.depth = t.depth :=
  h.induction_on_add (P := fun u => u.depth = t.depth) (fun _ _ _ _ h => h) rfl

theorem isEditing_eq (h : Grows t u) : u.isEditing = t.isEditing := by
  simp only [isEditing, h.depth_eq]

/-- Entries stay. -/
theorem get? (h : Grows t u) {name : String} {c : Callable} (hname : t.get? name = some c) :
    u.get? name = some c :=
  h.induction_on_add (P := fun u => u.get? name = some c)
    (fun _ _ _ _ h => get?_addFresh_of_some h) hname

theorem contains (h : Grows t u) {name : String} (hname : t.contains name = true) :
    u.contains name = true := by
  rw [contains_eq_isSome, Option.isSome_iff_exists] at hname ⊢
  exact hname.imp fun _ => h.get?

/-- A callable keeps the name under which it is found. -/
theorem nameOf? (h : Grows t u) {c : Callable} {name : String}
    (hname : t.nameOf? c = some name) : u.nameOf? c = some name :=
  h.induction_on_add (P := fun u => u.nameOf? c = some name)
    (fun _ _ _ hnone h => nameOf?_addFresh_of_some hnone h) hname

/-- A stored callable is found under its name from then on. -/
theorem nameOf?_of_store {base name : String} {c : Callable}
    (hstore : t.store base c = .ok (u, name)) (h : Grows u v) : v.nameOf? c = some name := by
  obtain ⟨-, ⟨hname, rfl⟩ | ⟨hnone, rfl, rfl⟩⟩ := store_eq_ok.1 hstore
  · exact h.nameOf? hname
  · exact h.nameOf? (nameOf?_addFresh_self hnone)

theorem put (h : t.isEditing = true) (base : String) (c : Callable) :
    Grows t (t.put base c).1 :=
  @of_store t (t.put base c).1 base (t.put base c).2 c (store_of_isEditing h base c)

/-- A table on the way to one that was added to last is that one, or is on the way to the one
before. -/
theorem of_addFresh {base : String} {c : Callable} (h : Grows u (t.addFresh base c)) :
    u = t.addFresh base c ∨ Grows u t := by
  generalize hv : t.addFresh base c = v at h
  induction h with
  | refl => exact .inl rfl
  | store hgrows hstore ih =>
    obtain ⟨-, ⟨-, rfl⟩ | ⟨-, -, rfl⟩⟩ := store_eq_ok.1 hstore
    · exact ih hv
    · exact .inr (eq_of_addFresh_eq hv ▸ hgrows)

end Grows

/-! ### Specialized entries -/

/-- The entry of that name has a recorded signature. -/
def isSpecialized (t : Table) (name : String) : Bool :=
  (t.get? name).any (·.signature.isSome)

theorem Grows.isSpecialized {t u : Table} (h : t.Grows u) {name : String}
    (hname : t.isSpecialized name = true) : u.isSpecialized name = true := by
  obtain ⟨c, hc, hsigned⟩ := (Option.any_eq_true _ _).1 hname
  exact (Option.any_eq_true _ _).2 ⟨c, h.get? hc, hsigned⟩

/-- The entry of that name is a specialization, and the name was made for it. -/
def Generated (t : Table) (name : String) : Prop :=
  ∃ c i, t.get? name = some c ∧ c.signature.isSome = true ∧ name = candidate c.name i

theorem Generated.isSpecialized {t : Table} {name : String} (h : t.Generated name) :
    t.isSpecialized name = true := by
  obtain ⟨c, -, hc, hsigned, -⟩ := h
  exact (Option.any_eq_true _ _).2 ⟨c, hc, hsigned⟩

theorem Grows.generated {t u : Table} (h : t.Grows u) {name : String} (hname : t.Generated name) :
    u.Generated name := by
  obtain ⟨c, i, hc, hrest⟩ := hname
  exact ⟨c, i, h.get? hc, hrest⟩

/-- The second table comes from the first by storing callables with a recorded signature. -/
structure GrowsSpecialized (t u : Table) : Prop where
  grows : t.Grows u
  specialized {name : String} : u.contains name = true → t.contains name = false →
    u.isSpecialized name = true

/-- The second table comes from the first by storing specializations under names made for them. -/
structure GrowsGenerated (t u : Table) : Prop where
  grows : t.Grows u
  generated {name : String} : u.contains name = true → t.contains name = false →
    u.Generated name

namespace GrowsGenerated

variable {t u v : Table}

theorem growsSpecialized (h : GrowsGenerated t u) : GrowsSpecialized t u where
  grows := h.grows
  specialized hu ht := (h.generated hu ht).isSpecialized

theorem refl (t : Table) : GrowsGenerated t t where
  grows := .refl t
  generated hu ht := by
    rw [ht] at hu
    cases hu

theorem trans (htu : GrowsGenerated t u) (huv : GrowsGenerated u v) : GrowsGenerated t v where
  grows := htu.grows.trans huv.grows
  generated {name} hv ht := by
    cases hu : u.contains name with
    | true => exact huv.grows.generated (htu.generated hu ht)
    | false => exact huv.generated hv hu

/-- What is put is found under its name; no other entry is new. -/
theorem put (h : t.isEditing = true) {c : Callable} (hc : c.signature.isSome = true) :
    GrowsGenerated t (t.put c.name c).1 where
  grows := .put h c.name c
  generated {name} hu ht := by
    cases hname : t.nameOf? c with
    | some found =>
      rw [put_of_nameOf? hname, ht] at hu
      cases hu
    | none =>
      have hput : (t.put c.name c).1 = t.addFresh c.name c := by rw [Table.put, hname]
      rw [contains_eq_isSome] at hu ht
      rw [hput, get?_addFresh] at hu
      split at hu
      case isTrue hfresh => exact ⟨c, _, by rw [hput, get?_addFresh, if_pos hfresh], hc, hfresh.symm⟩
      case isFalse =>
        rw [ht] at hu
        cases hu

end GrowsGenerated

end KernelTyping.Table
