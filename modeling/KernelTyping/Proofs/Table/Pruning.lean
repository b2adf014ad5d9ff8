import KernelTyping.Proofs.Table.Reachability

/-!
# KernelTyping.Proofs.Table.Pruning — closing the outermost transaction

Pruning keeps the needed entries, and those that are not pending (`retainReachable_keeps_needed`).
Closing the outermost transaction drops the pending entries that cannot be reached
(`get?_retainReachable`) and leaves nothing pending (`commitEdit_retainReachable`).  A table that
grew in the transaction is what it was before exactly if nothing refers to a new entry
(`commitEdit_retainReachable_iff`).
-/

namespace KernelTyping.Table

/-- No transaction is open, and nothing is left of the last one. -/
structure Idle (t : Table) : Prop where
  depth : t.depth = 0
  pending : t.pending = []
  committed : t.committed = t.size

variable {t u : Table} {roots : List String} {name : String}

/-! ### What is kept -/

/-- Pruning keeps the entries that are reached or were there before. -/
theorem get?_retainReachable (t : Table) (roots : List String) (name : String) :
    (t.retainReachable roots).get? name =
      if name ∉ t.pending ∨ name ∈ t.reachable roots then t.get? name else none := by
  have hkeeps : (decide (name ∉ t.pending) || (t.reachable roots).contains name) =
      decide (name ∉ t.pending ∨ name ∈ t.reachable roots) := by
    simp only [Bool.decide_or, ← Std.ExtTreeSet.contains_iff_mem, Bool.decide_eq_true]
  unfold get? retainReachable
  rw [Std.ExtTreeMap.getElem?_filter', hkeeps]
  cases t.entries[name]? with
  | none => simp
  | some c => simp [Option.filter_some]

/-- **Pruning.**  The work list comes to its end, and then exactly those entries are kept, as they
were, that are not pending or are needed, and of the pending names those that are needed, in their
order. -/
theorem retainReachable_keeps_needed (t : Table) (roots : List String) :
    (∀ name c, (t.retainReachable roots).get? name = some c ↔
      t.get? name = some c ∧ (name ∉ t.pending ∨ t.Needed roots name)) ∧
    (∃ needed : String → Bool, (∀ name, needed name = true ↔ t.Needed roots name) ∧
      (t.retainReachable roots).pending = t.pending.filter needed) ∧
    (t.retainReachable roots).committed = t.committed ∧
    (t.retainReachable roots).depth = t.depth := by
  refine ⟨fun name c => ?_, ⟨(t.reachable roots).contains, fun name => ?_, rfl⟩, rfl, rfl⟩
  · rw [get?_retainReachable, Option.ite_none_right_eq_some, mem_reachable_iff_needed, and_comm]
  · rw [Std.ExtTreeSet.contains_iff_mem, mem_reachable_iff_needed]

/-- A kernel that calls the entries of those names. -/
def callerOf (names : List String) : Callable :=
  .ofKernel { Kernel.empty "caller" with
    instructions := names.map fun name => ⟨name, .assign (.var "x") (.call (.entry name) [] [])⟩ }

/-- Three pending kernels: two that call each other, one of which is called from an entry that is not
pending and calls what is not there, and one that nothing calls. -/
def callingTable : Table where
  entries := .ofList [("main", callerOf ["f_0"]), ("f_0", callerOf ["g_0", "lost"]),
    ("g_0", callerOf ["f_0"]), ("h_0", callerOf ["f_0", "h_0"])]
  pending := ["h_0", "g_0", "f_0"]
  committed := 1
  depth := 1

example : (callingTable.retainReachable []).pending = ["g_0", "f_0"] := by decide +kernel

/-- Pruning removes nothing where all that is pending is among the roots. -/
theorem retainReachable_eq_self (h : ∀ name ∈ t.pending, name ∈ roots) :
    t.retainReachable roots = t := by
  have hreached {name : String} (hname : name ∈ t.pending) :
      (t.reachable roots).contains name = true :=
    Std.ExtTreeSet.contains_iff_mem.2 (mem_reachable.2 ⟨name, .inl (h name hname), .refl⟩)
  have hentries : (t.retainReachable roots).entries = t.entries := by
    refine Std.ExtTreeMap.ext_getElem? fun name => ?_
    show (t.retainReachable roots).get? name = t.get? name
    rw [get?_retainReachable, if_pos]
    by_cases hname : name ∈ t.pending
    · exact .inr (Std.ExtTreeSet.contains_iff_mem.1 (hreached hname))
    · exact .inl hname
  have hpending : (t.retainReachable roots).pending = t.pending :=
    List.filter_eq_self.2 fun name hname => hreached hname
  calc t.retainReachable roots = { t with
        entries := (t.retainReachable roots).entries
        pending := (t.retainReachable roots).pending } := rfl
    _ = t := by rw [hentries, hpending]

/-- Pruning keeps the roots. -/
theorem contains_retainReachable (hroot : name ∈ roots) (h : t.contains name = true) :
    (t.retainReachable roots).contains name = true := by
  rw [contains_eq_isSome, get?_retainReachable,
    if_pos (.inr (mem_reachable.2 ⟨name, .inl hroot, .refl⟩)), ← contains_eq_isSome]
  exact h

/-! ### The outermost transaction -/

theorem isOutermost_beginEdit (h : t.depth = 0) : t.beginEdit.2.isOutermost = true := by
  simp [beginEdit, Checkpoint.isOutermost, h]

/-- The table with all that is pending committed, outside of transactions. -/
def closed (u : Table) : Table := ⟨u.entries, [], u.size, 0⟩

/-- Closing the outermost transaction leaves nothing pending. -/
theorem commitEdit_retainReachable (ht : t.depth = 0) (hgrows : t.beginEdit.1.Grows u)
    (roots : List String) :
    (u.retainReachable roots).commitEdit t.beginEdit.2 = .ok (u.retainReachable roots).closed := by
  have hdepth : (u.retainReachable roots).depth = 1 := by
    show u.depth = 1
    rw [hgrows.depth_eq]
    simp [beginEdit, ht]
  simp [commitEdit, closes, closed, beginEdit, Checkpoint.isOutermost, ht, hdepth]

theorem Idle.eq_of_get? (ht : t.Idle) (hu : u.Idle) (h : ∀ name, t.get? name = u.get? name) :
    t = u := by
  obtain ⟨entries, pending, committed, depth⟩ := t
  obtain ⟨entries', pending', committed', depth'⟩ := u
  obtain ⟨hdepth, hpending, hcommitted⟩ := ht
  obtain ⟨hdepth', hpending', hcommitted'⟩ := hu
  obtain rfl : entries = entries' := Std.ExtTreeMap.ext_getElem? h
  simp_all [size]

theorem contains_addFresh (t : Table) (base : String) (c : Callable) :
    (t.addFresh base c).contains name = true ↔
      t.freshName base = name ∨ t.contains name = true := by
  rw [contains_eq_isSome, get?_addFresh, contains_eq_isSome]
  split <;> simp_all

/-- The names are those of the entries that the second table has and the first has not, each
once. -/
def NewNames (t u : Table) (names : List String) : Prop :=
  names.Nodup ∧ ∀ name, name ∈ names ↔ u.contains name = true ∧ t.contains name = false

/-- A new entry is appended to what is pending. -/
theorem Grows.exists_pending (h : t.Grows u) :
    ∃ names, u.pending = t.pending ++ names ∧ t.NewNames u names := by
  induction h with
  | refl => exact ⟨[], by simp, by simp [NewNames]⟩
  | @store u v base fresh c hgrows hstore ih =>
    obtain ⟨names, hpending, hnodup, hnames⟩ := ih
    obtain ⟨-, ⟨-, rfl⟩ | ⟨-, -, rfl⟩⟩ := store_eq_ok.1 hstore
    · exact ⟨names, hpending, hnodup, hnames⟩
    · have hnew : u.contains (u.freshName base) = false := u.not_contains_freshName base
      have hold : t.contains (u.freshName base) = false := by
        rw [← Bool.not_eq_true]
        exact fun h => absurd (hgrows.contains h) (by simp [hnew])
      have hfresh : u.freshName base ∉ names := by
        rw [hnames, hnew]
        simp
      refine ⟨names ++ [u.freshName base], ?_, ?_, fun name => ?_⟩
      · show u.pending ++ [u.freshName base] = _
        rw [hpending, List.append_assoc]
      · rw [List.nodup_append]
        exact ⟨hnodup, List.nodup_singleton _, by rintro x hx y hy rfl; simp_all⟩
      · rw [List.mem_append, List.mem_singleton, contains_addFresh, hnames]
        by_cases hname : u.freshName base = name
        · simp [← hname, hold]
        · simp [hname, Ne.symm hname]

/-- Pending in a table that grew from one where nothing was is what has been added. -/
theorem mem_pending_of_grows (hgrows : t.Grows u) (ht : t.pending = []) :
    name ∈ u.pending ↔ u.contains name = true ∧ t.contains name = false := by
  obtain ⟨names, hpending, -, hnames⟩ := hgrows.exists_pending
  rw [hpending, ht, List.nil_append, hnames]

/-! ### A transaction that restores the table -/

/-- Something refers to a name: a root, or an entry of the table. -/
def Referred (t : Table) (roots : List String) (name : String) : Prop :=
  name ∈ roots ∨ ∃ other, name ∈ t.callees other

section Restored

variable (hgrows : t.Grows u)

include hgrows

theorem get?_of_grows (h : t.contains name = true) : u.get? name = t.get? name := by
  rw [contains_eq_isSome, Option.isSome_iff_exists] at h
  obtain ⟨c, hc⟩ := h
  rw [hc]
  exact hgrows.get? hc

/-- An old entry refers to what it did. -/
theorem callees_of_grows (h : t.contains name = true) : u.callees name = t.callees name := by
  rw [callees, callees, get?_of_grows hgrows h]

/-- No new entry is reached exactly if nothing refers to a new entry. -/
theorem forall_reachable_iff (ht : t.pending = []) :
    (∀ name ∈ u.reachable roots, u.contains name = true → t.contains name = true) ↔
      ∀ name, t.Referred roots name → u.contains name = true → t.contains name = true := by
  constructor
  · rintro hreached name (hroot | ⟨other, hother⟩) hname
    · exact hreached name (mem_reachable.2 ⟨name, .inl hroot, .refl⟩) hname
    · have hold := contains_of_mem_callees hother
      have hpending : other ∉ u.pending := by
        rw [mem_pending_of_grows hgrows ht, hold]
        simp
      rw [← callees_of_grows hgrows hold] at hother
      exact hreached name (mem_reachable.2 ⟨other, .inr ⟨hgrows.contains hold, hpending⟩,
        .single hother⟩) hname
  · intro hnew name hname hcontains
    obtain ⟨start, hstart, hreaches⟩ := mem_reachable.1 hname
    have hstart : t.Referred roots start ∨ t.contains start = true := by
      rcases hstart with hroot | ⟨hstart, hpending⟩
      · exact .inl (.inl hroot)
      · rw [mem_pending_of_grows hgrows ht, hstart] at hpending
        exact .inr (by simpa using hpending)
    -- along the path, each entry that leads on is an old one
    induction hreaches with
    | refl => exact hstart.elim (fun h => hnew _ h hcontains) id
    | @tail y z hpath hz ih =>
      have hy := contains_of_mem_callees hz
      have hold := ih (mem_reachable.2 ⟨start, by assumption, hpath⟩) hy
      rw [callees_of_grows hgrows hold] at hz
      exact hnew z (.inr ⟨y, hz⟩) hcontains

end Restored

/-- An idle table that grew in a transaction is restored when that is closed exactly if no new entry
is reached. -/
theorem commitEdit_eq_iff (ht : t.Idle) (hgrows : t.beginEdit.1.Grows u) :
    (u.retainReachable roots).commitEdit t.beginEdit.2 = .ok t ↔
      ∀ name ∈ u.reachable roots, u.contains name = true → t.contains name = true := by
  have hpending (name : String) :
      name ∈ u.pending ↔ u.contains name = true ∧ t.contains name = false :=
    mem_pending_of_grows (t := t.beginEdit.1) hgrows ht.pending
  rw [commitEdit_retainReachable ht.depth hgrows, Except.ok.injEq]
  constructor
  · intro heq name hreached hname
    have hget : (u.retainReachable roots).get? name = t.get? name := by
      conv => rhs; rw [← heq]
      rfl
    rw [get?_retainReachable, if_pos (.inr hreached)] at hget
    rw [contains_eq_isSome, ← hget, ← contains_eq_isSome]
    exact hname
  · intro hold
    refine Idle.eq_of_get? ⟨rfl, rfl, rfl⟩ ht fun name => ?_
    show (u.retainReachable roots).get? name = t.get? name
    rw [get?_retainReachable]
    cases hname : t.contains name with
    | true =>
      rw [if_pos (.inl (by rw [hpending, hname]; simp))]
      exact get?_of_grows (t := t.beginEdit.1) hgrows hname
    | false =>
      have hnone : t.get? name = none := by
        rw [← Option.not_isSome_iff_eq_none, ← contains_eq_isSome, hname]
        simp
      rw [hnone, ite_eq_right_iff, ← Option.not_isSome_iff_eq_none, ← contains_eq_isSome]
      rintro (hkept | hreached) hcontains
      · exact hkept ((hpending name).2 ⟨hcontains, hname⟩)
      · rw [hold name hreached hcontains] at hname
        cases hname

/-- An idle table that grew in a transaction is restored when that is closed exactly if nothing
refers to a new entry. -/
theorem commitEdit_retainReachable_iff (ht : t.Idle) (hgrows : t.beginEdit.1.Grows u) :
    (u.retainReachable roots).commitEdit t.beginEdit.2 = .ok t ↔
      ∀ name, t.Referred roots name → u.contains name = true → t.contains name = true :=
  (commitEdit_eq_iff ht hgrows).trans (forall_reachable_iff (t := t.beginEdit.1) hgrows ht.pending)

end KernelTyping.Table
