import KernelTyping.Proofs.Table.Pruning

/-!
# KernelTyping.Proofs.Table.Transactions — tables and what their operations make of them

`Built t`: the table comes out of the operations on tables, inside any number of transactions.
Outside of transactions nothing is pending in such a table (`Built.pending_eq_nil`), so that pruning
at the end of the next one drops none of its entries (`get?_of_commitEdit`), and every new entry
that it keeps can be reached in what is left (`exists_reaches_of_commitEdit`).  Inside, the new
entries stay pending.  So a transaction in which a table grows by specialized callables extends it,
whether it is the outermost one (`ExtendedBy.of_retainReachable`) or not (`ExtendedBy.of_nested`).
-/

namespace KernelTyping.Table

variable {t u : Table}

/-! ### Tables that operations make -/

/-- The table comes out of the operations on tables.  A transaction can be closed with the
checkpoint of any table. -/
inductive Built : Table → Prop where
  | empty : Built empty
  | insert {t : Table} (name : String) (c : Callable) : Built t → Built (t.insert name c)
  | store {t u : Table} {base name : String} {c : Callable} :
    Built t → t.store base c = .ok (u, name) → Built u
  | beginEdit {t : Table} : Built t → Built t.beginEdit.1
  | commitEdit {t u v : Table} :
    Built t → Built v → t.commitEdit v.beginEdit.2 = .ok u → Built u
  | discardEdit {t u v : Table} :
    Built t → Built v → t.discardEdit v.beginEdit.2 = .ok u → Built u
  | retainReachable {t : Table} (roots : List String) : Built t → Built (t.retainReachable roots)

theorem commitEdit_eq_ok {c : Checkpoint} :
    t.commitEdit c = .ok u ↔ t.closes c = true ∧
      u = if c.isOutermost then { t with pending := [], committed := t.size, depth := c.depth }
        else { t with depth := c.depth } := by
  unfold commitEdit
  split
  case isTrue hcloses =>
    split <;> exact ⟨fun h => ⟨hcloses, (Except.ok.inj h).symm⟩, fun h => h.2 ▸ rfl⟩
  case isFalse hcloses => exact ⟨nofun, fun h => absurd h.1 hcloses⟩

namespace Built

theorem withBuiltins : Built withBuiltins := by
  unfold Table.withBuiltins
  generalize hstart : Table.empty = start
  have ht : Built start := hstart ▸ .empty
  clear hstart
  induction Builtin.all generalizing start with
  | nil => exact ht
  | cons f fs ih => exact ih _ (.insert _ _ ht)

theorem storeSpecialization {function name : String} {c : Callable} (ht : Built t)
    (h : t.storeSpecialization function c = .ok (u, name)) : Built u := by
  unfold Table.storeSpecialization at h
  split at h
  · exact ht.store h
  · cases h

theorem grows (ht : Built t) (h : t.Grows u) : Built u := by
  induction h with
  | refl => exact ht
  | store _ hstore ih => exact ih.store hstore

/-- Outside of transactions nothing is pending. -/
theorem pending_eq_nil (ht : Built t) (hdepth : t.depth = 0) : t.pending = [] := by
  induction ht with
  | empty => rfl
  | @insert t name c _ ih =>
    unfold Table.insert at hdepth ⊢
    by_cases hedit : t.isEditing
    · have hdepth : t.depth = 0 := by split at hdepth <;> split at hdepth <;> exact hdepth
      simp [isEditing, hdepth] at hedit
    · simp only [hedit, Bool.false_eq_true, if_false] at hdepth ⊢
      exact ih hdepth
  | store _ hstore _ =>
    have hedit := (store_eq_ok.1 hstore).1
    rw [← (Grows.of_store hstore).isEditing_eq] at hedit
    simp [isEditing, hdepth] at hedit
  | beginEdit _ _ => exact absurd hdepth (Nat.succ_ne_zero _)
  | @commitEdit t u v _ _ hcommit _ _ =>
    obtain ⟨-, rfl⟩ := commitEdit_eq_ok.1 hcommit
    split at hdepth
    · simp_all
    case isFalse houter => exact absurd hdepth (by simpa [Checkpoint.isOutermost] using houter)
  | @discardEdit t u v _ _ hdiscard _ ih =>
    unfold Table.discardEdit at hdiscard
    split at hdiscard
    · obtain rfl := Except.ok.inj hdiscard
      show t.pending.take v.pending.length = []
      rw [ih hdepth]
      rfl
    · cases hdiscard
  | @retainReachable t roots _ ih =>
    show t.pending.filter _ = []
    rw [ih hdepth]
    rfl

end Built

/-! ### Entries that are replaced -/

theorem get?_insert (t : Table) (name : String) (c : Callable) (other : String) :
    (t.insert name c).get? other = if name = other then some c else t.get? other := by
  have hentries : (t.insert name c).entries = t.entries.insert name c := by
    unfold insert
    dsimp only
    split
    · split <;> rfl
    · rfl
  simp [get?, hentries, Std.ExtTreeMap.getElem?_insert]

/-- To replace an entry changes nothing else. -/
theorem insert_of_contains {name : String} (h : t.contains name = true)
    (hcommitted : t.isEditing = false → t.committed = t.size) (c : Callable) :
    (t.insert name c).depth = t.depth ∧ (t.insert name c).pending = t.pending ∧
      (t.insert name c).committed = t.committed := by
  have hsize : (t.entries.insert name c).size = t.entries.size := by
    rw [Std.ExtTreeMap.size_insert]
    exact if_pos h
  unfold insert
  rw [h]
  by_cases hedit : t.isEditing
  · rw [hedit]
    exact ⟨rfl, rfl, rfl⟩
  · rw [Bool.not_eq_true] at hedit
    rw [hedit]
    exact ⟨rfl, rfl, hsize.trans (hcommitted hedit).symm⟩

/-! ### What the outermost transaction keeps -/

section Outermost

variable {v : Table} {roots : List String} {name : String} (ht : t.Built) (hdepth : t.depth = 0)
  (hgrows : t.beginEdit.1.Grows u)

include ht hdepth hgrows

/-- Pending before it is closed is what has been added in it. -/
theorem mem_pending_of_beginEdit :
    name ∈ u.pending ↔ u.contains name = true ∧ t.contains name = false :=
  mem_pending_of_grows (t := t.beginEdit.1) hgrows (ht.pending_eq_nil hdepth)

variable (hcommit : (u.retainReachable roots).commitEdit t.beginEdit.2 = .ok v)

include hcommit

/-- What was there before is kept, and what is reached. -/
theorem get?_of_commitEdit (h : t.contains name = true ∨ name ∈ u.reachable roots) :
    v.get? name = u.get? name := by
  rw [commitEdit_retainReachable hdepth hgrows] at hcommit
  obtain rfl := Except.ok.inj hcommit
  show (u.retainReachable roots).get? name = u.get? name
  rw [get?_retainReachable, if_pos]
  rcases h with hold | hreached
  · exact .inl (by rw [mem_pending_of_beginEdit ht hdepth hgrows, hold]; simp)
  · exact .inr hreached

/-- A new entry is reached. -/
theorem mem_reachable_of_commitEdit (hv : v.contains name = true)
    (hnew : t.contains name = false) : name ∈ u.reachable roots := by
  rw [commitEdit_retainReachable hdepth hgrows] at hcommit
  obtain rfl := Except.ok.inj hcommit
  have hv : ((u.retainReachable roots).get? name).isSome = true :=
    (contains_eq_isSome _ name).symm.trans hv
  rw [get?_retainReachable] at hv
  by_cases hkept : name ∉ u.pending ∨ name ∈ u.reachable roots
  · rw [if_pos hkept, ← contains_eq_isSome] at hv
    have hpending := (mem_pending_of_beginEdit ht hdepth hgrows).2 ⟨hv, hnew⟩
    exact hkept.resolve_left (not_not_intro hpending)
  · rw [if_neg hkept] at hv
    cases hv

theorem contains_of_reachable (hreached : name ∈ u.reachable roots)
    (hu : u.contains name = true) : v.contains name = true := by
  rw [contains_eq_isSome, get?_of_commitEdit ht hdepth hgrows hcommit (.inr hreached),
    ← contains_eq_isSome]
  exact hu

/-- A new entry is reached in the table that is left, from a root or from an entry that was there
before. -/
theorem exists_reaches_of_commitEdit (hv : v.contains name = true)
    (hnew : t.contains name = false) :
    ∃ start, (start ∈ roots ∨ t.contains start = true) ∧
      DepthFirst.Reaches v.callees start name := by
  have hreached := mem_reachable_of_commitEdit ht hdepth hgrows hcommit hv hnew
  obtain ⟨start, hstart, hpath⟩ := mem_reachable.1 hreached
  have horigin : start ∈ roots ∨ t.contains start = true := by
    refine hstart.imp_right fun ⟨hcontains, hpending⟩ => ?_
    rw [mem_pending_of_beginEdit ht hdepth hgrows, hcontains] at hpending
    simpa using hpending
  refine ⟨start, horigin, ?_⟩
  -- all entries on the way are reached, so that they lead on as they did
  clear hreached hv hnew
  induction hpath with
  | refl => exact .refl
  | @tail y z hpath hz ih =>
    have hy : y ∈ u.reachable roots := mem_reachable.2 ⟨start, hstart, hpath⟩
    refine ih.tail ?_
    rw [callees, get?_of_commitEdit ht hdepth hgrows hcommit (.inr hy)]
    exact hz

end Outermost

/-! ### A transaction in which a table grows -/

/-- The second table is the first with new specialized entries, and as deep in transactions.
Outside of transactions all of it is committed; inside, what is new is pending. -/
structure ExtendedBy (t u : Table) : Prop where
  depth : u.depth = t.depth
  kept {name : String} {c : Callable} : t.get? name = some c → u.get? name = some c
  specialized {name : String} : u.contains name = true → t.contains name = false →
    u.isSpecialized name = true
  outside : t.isEditing = false → u.pending = [] ∧ u.committed = u.size
  inside : t.isEditing = true → u.committed = t.committed ∧
    ∃ names, u.pending = t.pending ++ names ∧ t.NewNames u names

/-- The outermost transaction, which is pruned when it is closed. -/
theorem ExtendedBy.of_retainReachable {v : Table} (ht : t.Built) (hdepth : t.depth = 0)
    (h : t.beginEdit.1.GrowsSpecialized v) {roots : List String}
    (hcommit : (v.retainReachable roots).commitEdit t.beginEdit.2 = .ok u) : t.ExtendedBy u := by
  have hleft : u.depth = t.depth ∧ u.pending = [] ∧ u.committed = u.size := by
    rw [commitEdit_retainReachable hdepth h.grows] at hcommit
    obtain rfl := Except.ok.inj hcommit
    exact ⟨hdepth.symm, rfl, rfl⟩
  refine ⟨hleft.1, fun {name c} hname => ?_, fun {name} hu hold => ?_, fun _ => hleft.2,
    fun hedit => ?_⟩
  · have hold : t.contains name = true := by rw [contains_eq_isSome, hname]; rfl
    rw [get?_of_commitEdit ht hdepth h.grows hcommit (.inl hold)]
    exact h.grows.get? hname
  · have hreached := mem_reachable_of_commitEdit ht hdepth h.grows hcommit hu hold
    have hget := get?_of_commitEdit ht hdepth h.grows hcommit (.inr hreached)
    rw [contains_eq_isSome, hget, ← contains_eq_isSome] at hu
    rw [isSpecialized, hget]
    exact h.specialized hu hold
  · simp [isEditing, hdepth] at hedit

theorem Grows.committed_eq (h : t.Grows u) : u.committed = t.committed :=
  h.induction_on_add (P := fun u => u.committed = t.committed) (fun _ _ _ _ h => h) rfl

/-- A transaction inside another one. -/
theorem ExtendedBy.of_nested {v : Table} (hdepth : t.depth ≠ 0)
    (h : t.beginEdit.1.GrowsSpecialized v) (hcommit : v.commitEdit t.beginEdit.2 = .ok u) :
    t.ExtendedBy u := by
  have houter : t.beginEdit.2.isOutermost = false := by
    simp [Checkpoint.isOutermost, beginEdit, hdepth]
  obtain ⟨-, rfl⟩ := commitEdit_eq_ok.1 hcommit
  rw [houter, if_neg (by simp)]
  refine ⟨rfl, h.grows.get?, h.specialized, fun hedit => ?_, fun _ => ?_⟩
  · simp [isEditing, hdepth] at hedit
  · exact ⟨h.grows.committed_eq, h.grows.exists_pending⟩

end KernelTyping.Table
