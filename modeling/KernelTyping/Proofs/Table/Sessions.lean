import KernelTyping.Proofs.Table.Transactions

/-!
# KernelTyping.Proofs.Table.Sessions — transactions opened and closed in any order

A `Session` is a table with the transactions that are open on it.  One `Step` is one operation on
the table; an open transaction is closed with its own checkpoint, whichever of them it is.  Only the
innermost one can be (`Levelled.closes_iff`), so that all that holds of a run goes through one
induction (`Run.induction`).

* `discardEdit_restores`: what the checkpoint does not save is all that is pending.  To discard a
  transaction restores the table exactly if what was pending still comes first, and it does unless
  pruning inside drops some of it (`discardEdit_loses_pending`).
* `table_accounted`: as long as tables are pruned only with at most one transaction open, the
  entries are those that are committed and those that are pending.
-/

namespace KernelTyping

/-! ### What operations do to a table -/

namespace Table

variable {t u v : Table} {base name : String} {c : Callable}

@[simp] theorem depth_insert (t : Table) (name : String) (c : Callable) :
    (t.insert name c).depth = t.depth := by
  unfold insert
  dsimp only
  split <;> try split
  all_goals rfl

@[simp] theorem depth_put (t : Table) (base : String) (c : Callable) :
    (t.put base c).1.depth = t.depth := by
  unfold put
  split <;> rfl

@[simp] theorem depth_beginEdit (t : Table) : t.beginEdit.1.depth = t.depth + 1 := rfl

@[simp] theorem depth_retainReachable (t : Table) (roots : List String) :
    (t.retainReachable roots).depth = t.depth := rfl

/-- What is pending stays in front. -/
theorem pending_insert (t : Table) (name : String) (c : Callable) :
    t.pending <+: (t.insert name c).pending := by
  unfold insert
  dsimp only
  split
  · split
    · exact List.prefix_rfl
    · exact List.prefix_append _ _
  · exact List.prefix_rfl

theorem Grows.pending (h : t.Grows u) : t.pending <+: u.pending := by
  obtain ⟨names, hnames, -⟩ := h.exists_pending
  rw [hnames]
  exact List.prefix_append _ _

theorem closes_beginEdit : t.closes v.beginEdit.2 = true ↔ t.depth = v.depth + 1 :=
  decide_eq_true_iff

theorem isOutermost_beginEdit_iff : v.beginEdit.2.isOutermost = true ↔ v.depth = 0 :=
  decide_eq_true_iff

theorem discardEdit_beginEdit_eq_ok :
    t.discardEdit v.beginEdit.2 = .ok u ↔
      t.closes v.beginEdit.2 = true ∧
        u = { v with pending := t.pending.take v.pending.length } := by
  unfold discardEdit
  split
  case isTrue hcloses =>
    exact ⟨fun h => ⟨hcloses, (Except.ok.inj h).symm⟩, fun h => h.2 ▸ rfl⟩
  case isFalse hcloses => exact ⟨nofun, fun h => absurd h.1 hcloses⟩

theorem withTakenPending_eq (h : v.pending <+: t.pending) :
    { v with pending := t.pending.take v.pending.length } = v := by
  rw [← List.prefix_iff_eq_take.1 h]

end Table

/-! ### Counting entries -/

namespace Table

/-- The entries are those that are committed and those that are pending, and nothing is pending
outside of transactions. -/
structure Accounted (t : Table) : Prop where
  nodup : t.pending.Nodup
  contains : ∀ name ∈ t.pending, t.contains name = true
  count : t.committed + t.pending.length = t.size
  idle : t.depth = 0 → t.pending = []

namespace Accounted

variable {t u v : Table} {base name : String} {c : Callable}

/-- Inside a transaction a new entry is pending. -/
theorem append (h : t.Accounted) (hedit : t.isEditing = true) (hname : t.contains name = false)
    (c : Callable) :
    Accounted { t with entries := t.entries.insert name c, pending := t.pending ++ [name] } where
  nodup := by
    rw [List.nodup_append]
    refine ⟨h.nodup, List.nodup_singleton _, ?_⟩
    rintro other hother _ hmem rfl
    rw [List.mem_singleton.1 hmem] at hother
    rw [h.contains name hother] at hname
    cases hname
  contains other hother := by
    show (t.entries.insert name c).contains other = true
    rw [Std.ExtTreeMap.contains_insert, Bool.or_eq_true]
    rcases List.mem_append.1 hother with hother | hmem
    · exact .inr (h.contains other hother)
    · rw [List.mem_singleton.1 hmem]
      simp
  count := by
    have hsize : (t.entries.insert name c).size = t.size + 1 := by
      rw [Std.ExtTreeMap.size_insert]
      exact if_neg (by rw [Bool.not_eq_true]; exact hname)
    have hcount := h.count
    show t.committed + (t.pending ++ [name]).length = (t.entries.insert name c).size
    rw [hsize, List.length_append, List.length_singleton]
    omega
  idle hdepth := by
    have hdepth : t.depth = 0 := hdepth
    simp [isEditing, hdepth] at hedit

theorem insert (h : t.Accounted) (name : String) (c : Callable) : (t.insert name c).Accounted := by
  by_cases hedit : t.isEditing = true
  · by_cases hname : t.contains name = true
    · have hinsert : t.insert name c = { t with entries := t.entries.insert name c } := by
        simp [Table.insert, hedit, hname]
      rw [hinsert]
      refine ⟨h.nodup, fun other hother => ?_, h.count.trans ?_, h.idle⟩
      · show (t.entries.insert name c).contains other = true
        rw [Std.ExtTreeMap.contains_insert, Bool.or_eq_true]
        exact .inr (h.contains other hother)
      · exact (Std.ExtTreeMap.size_insert.trans (if_pos hname)).symm
    · have happend := h.append hedit (Bool.not_eq_true _ ▸ hname) c
      simpa [Table.insert, hedit, hname] using happend
  · have hdepth : t.depth = 0 := by simpa [isEditing] using hedit
    have hpending : t.pending = [] := h.idle hdepth
    have hinsert : t.insert name c = { t with
        entries := t.entries.insert name c
        committed := (t.entries.insert name c).size } := by
      simp [Table.insert, hedit]
    rw [hinsert]
    refine ⟨h.nodup, ?_, ?_, h.idle⟩
    · simp [hpending]
    · simp [hpending, size]

theorem store (h : t.Accounted) (hstore : t.store base c = .ok (u, name)) : u.Accounted := by
  obtain ⟨hedit, ⟨-, rfl⟩ | ⟨-, rfl, rfl⟩⟩ := store_eq_ok.1 hstore
  · exact h
  · exact h.append hedit (t.not_contains_freshName base) c

theorem beginEdit (h : t.Accounted) : t.beginEdit.1.Accounted where
  nodup := h.nodup
  contains := h.contains
  count := h.count
  idle hdepth := absurd hdepth (Nat.succ_ne_zero _)

theorem commitEdit (h : t.Accounted) (hcommit : t.commitEdit v.beginEdit.2 = .ok u) :
    u.Accounted := by
  obtain ⟨-, rfl⟩ := commitEdit_eq_ok.1 hcommit
  split
  case isTrue => exact ⟨List.nodup_nil, by simp, rfl, fun _ => rfl⟩
  case isFalse houter =>
    rw [isOutermost_beginEdit_iff] at houter
    exact ⟨h.nodup, h.contains, h.count, fun hdepth => absurd hdepth houter⟩

theorem retainReachable (h : t.Accounted) (roots : List String) :
    (t.retainReachable roots).Accounted := by
  have hpending : (t.retainReachable roots).pending =
      t.pending.filter (t.reachable roots).contains := rfl
  have hkept (name : String) : (t.retainReachable roots).contains name = true ↔
      t.contains name = true ∧ (name ∉ t.pending ∨ name ∈ t.reachable roots) := by
    rw [contains_eq_isSome, get?_retainReachable, contains_eq_isSome]
    split <;> simp_all
  refine ⟨hpending ▸ h.nodup.filter _, fun name hname => ?_, ?_, fun hdepth => ?_⟩
  · obtain ⟨hname, hreached⟩ := List.mem_filter.1 hname
    exact (hkept name).2 ⟨h.contains name hname, .inr (Std.ExtTreeSet.contains_iff_mem.1 hreached)⟩
  · -- the entries are those that are kept and, of what is pending, what is not reached
    have hperm : t.entries.keys.Perm ((t.retainReachable roots).entries.keys ++
        t.pending.filter (fun name => !(t.reachable roots).contains name)) := by
      refine (List.perm_ext_iff_of_nodup Std.ExtTreeMap.nodup_keys ?_).2 fun name => ?_
      · rw [List.nodup_append]
        refine ⟨Std.ExtTreeMap.nodup_keys, h.nodup.filter _, ?_⟩
        rintro name hname _ hdropped rfl
        obtain ⟨hmem, hdropped⟩ := List.mem_filter.1 hdropped
        rcases ((hkept name).1 (mem_keys.1 hname)).2 with hname | hname
        · exact hname hmem
        · rw [Std.ExtTreeSet.contains_iff_mem.2 hname] at hdropped
          cases hdropped
      · have hcontains := h.contains name
        have hdropped : (!(t.reachable roots).contains name) = true ↔ name ∉ t.reachable roots := by
          rw [Bool.not_eq_true', ← Bool.not_eq_true, Std.ExtTreeSet.contains_iff_mem]
        rw [List.mem_append, mem_keys, mem_keys, hkept, List.mem_filter, hdropped]
        tauto
    have hlength := hperm.length_eq
    rw [List.length_append, Std.ExtTreeMap.length_keys, Std.ExtTreeMap.length_keys] at hlength
    have hcount := h.count
    have hsplit := List.length_eq_length_filter_add (l := t.pending) (t.reachable roots).contains
    show t.committed + (t.pending.filter _).length = (t.retainReachable roots).entries.size
    simp only [size] at hcount
    omega
  · rw [hpending, h.idle hdepth]
    rfl

end Accounted

end Table

/-! ### Sessions -/

/-- A table with the tables at which its open transactions were opened, innermost first. -/
structure Session where
  table : Table
  opened : List Table

namespace Session

/-- One operation on a table.  The rule says which sessions may be pruned, and from which roots. -/
inductive Step (mayPrune : Session → List String → Prop) : Session → Session → Prop where
  | insert (s : Session) (name : String) (c : Callable) :
    Step mayPrune s { s with table := s.table.insert name c }
  | store {s : Session} {u : Table} {base name : String} {c : Callable} :
    s.table.store base c = .ok (u, name) → Step mayPrune s { s with table := u }
  | storeSpecialization {s : Session} {u : Table} {function name : String} {c : Callable} :
    s.table.storeSpecialization function c = .ok (u, name) → Step mayPrune s { s with table := u }
  | beginEdit (s : Session) : Step mayPrune s ⟨s.table.beginEdit.1, s.table :: s.opened⟩
  | commitEdit {s : Session} {u v : Table} {k : Nat} :
    s.opened[k]? = some v → s.table.commitEdit v.beginEdit.2 = .ok u →
      Step mayPrune s ⟨u, s.opened.eraseIdx k⟩
  | discardEdit {s : Session} {u v : Table} {k : Nat} :
    s.opened[k]? = some v → s.table.discardEdit v.beginEdit.2 = .ok u →
      Step mayPrune s ⟨u, s.opened.eraseIdx k⟩
  | retainReachable {s : Session} {roots : List String} :
    mayPrune s roots → Step mayPrune s { s with table := s.table.retainReachable roots }

theorem Step.put {mayPrune : Session → List String → Prop} {s : Session} (h : s.table.depth ≠ 0)
    (base : String) (c : Callable) :
    Step mayPrune s { s with table := (s.table.put base c).1 } :=
  .store (Table.store_of_isEditing (by simpa [Table.isEditing, Nat.pos_iff_ne_zero] using h) base c)

/-- Any number of operations. -/
def Run (mayPrune : Session → List String → Prop) : Session → Session → Prop :=
  Relation.ReflTransGen (Step mayPrune)

/-- Pruning without restrictions. -/
def Anyhow : Session → List String → Prop := fun _ _ => True

/-- Pruning that keeps some names. -/
def Keeping (names : List String) : Session → List String → Prop := fun s roots =>
  ∀ name ∈ names, name ∈ s.table.reachable roots

/-- Pruning outside of transactions and in the outermost one. -/
def Outermost : Session → List String → Prop := fun s _ => s.opened.length ≤ 1

/-! ### Depths -/

/-- Each open transaction is one level deeper than the table at which it was opened. -/
inductive Levelled (base : Nat) : Session → Prop where
  | outside {t : Table} : t.depth = base → Levelled base ⟨t, []⟩
  | inside {t v : Table} {opened : List Table} :
    t.depth = v.depth + 1 → Levelled base ⟨v, opened⟩ → Levelled base ⟨t, v :: opened⟩

namespace Levelled

variable {base : Nat} {t u v : Table} {opened : List Table}

theorem depth_eq (h : Levelled base ⟨t, opened⟩) : t.depth = base + opened.length := by
  induction opened generalizing t with
  | nil =>
    cases h with
    | outside hbase => exact hbase
  | cons v opened ih =>
    cases h with
    | inside hdepth hv =>
      have hv := ih hv
      simp only [List.length_cons]
      omega

theorem of_depth_eq (h : Levelled base ⟨t, opened⟩) (hdepth : u.depth = t.depth) :
    Levelled base ⟨u, opened⟩ := by
  cases h with
  | outside hbase => exact .outside (hdepth.trans hbase)
  | inside hlevel hv => exact .inside (hdepth.trans hlevel) hv

theorem depth_of_getElem? (h : Levelled base ⟨t, opened⟩) {k : Nat} (hk : opened[k]? = some v) :
    t.depth = v.depth + k + 1 := by
  induction opened generalizing t k with
  | nil => cases hk
  | cons w opened ih =>
    cases h with
    | inside hdepth hw =>
      cases k with
      | zero =>
        obtain rfl : w = v := by simpa using hk
        exact hdepth
      | succ k =>
        have hrest := ih hw (by simpa using hk)
        omega

/-- The checkpoint of an open transaction closes it exactly if that is the innermost one. -/
theorem closes_iff (h : Levelled base ⟨t, opened⟩) {k : Nat} (hk : opened[k]? = some v) :
    t.closes v.beginEdit.2 = true ↔ k = 0 := by
  have hdepth := h.depth_of_getElem? hk
  rw [Table.closes_beginEdit]
  omega

/-- A transaction that its checkpoint closes comes before those that stay open. -/
theorem innermost (h : Levelled base ⟨t, opened⟩) {k : Nat} (hk : opened[k]? = some v)
    (hcloses : t.closes v.beginEdit.2 = true) :
    opened = v :: opened.eraseIdx k ∧ Levelled base ⟨v, opened.eraseIdx k⟩ := by
  obtain rfl := (h.closes_iff hk).1 hcloses
  cases h with
  | outside => cases hk
  | inside _ hv =>
    obtain rfl := Option.some.inj hk
    exact ⟨rfl, hv⟩

end Levelled

/-! ### Runs -/

variable {mayPrune : Session → List String → Prop} {base : Nat} {s s' : Session}

theorem Levelled.step (hs : s.Levelled base) (h : Step mayPrune s s') : s'.Levelled base := by
  cases h with
  | insert name c => exact hs.of_depth_eq (Table.depth_insert _ _ _)
  | store hstore => exact hs.of_depth_eq (Table.Grows.of_store hstore).depth_eq
  | storeSpecialization hstore =>
    have hstore := Table.store_of_storeSpecialization hstore
    exact hs.of_depth_eq (Table.Grows.of_store hstore).depth_eq
  | beginEdit => exact .inside rfl hs
  | retainReachable => exact hs.of_depth_eq rfl
  | commitEdit hk hcommit =>
    obtain ⟨hcloses, rfl⟩ := Table.commitEdit_eq_ok.1 hcommit
    exact (hs.innermost hk hcloses).2.of_depth_eq (by split <;> rfl)
  | discardEdit hk hdiscard =>
    obtain ⟨hcloses, rfl⟩ := Table.discardEdit_beginEdit_eq_ok.1 hdiscard
    exact (hs.innermost hk hcloses).2.of_depth_eq rfl

theorem Levelled.run (hs : s.Levelled base) (h : Run mayPrune s s') : s'.Levelled base := by
  induction h with
  | refl => exact hs
  | tail _ hstep ih => exact ih.step hstep

/-- Induction along a run.  A transaction that is closed is the innermost one. -/
theorem Run.induction {P : Session → Prop} (h : Run mayPrune s s') (hs : s.Levelled base)
    (start : P s)
    (insert : ∀ s name c, P s → P { s with table := s.table.insert name c })
    (store : ∀ s u base c name, s.table.store base c = .ok (u, name) → P s →
      P { s with table := u })
    (beginEdit : ∀ s, P s → P ⟨s.table.beginEdit.1, s.table :: s.opened⟩)
    (commitEdit : ∀ t u v opened, t.commitEdit v.beginEdit.2 = .ok u → Levelled base ⟨v, opened⟩ →
      P ⟨t, v :: opened⟩ → P ⟨u, opened⟩)
    (discardEdit : ∀ t u v opened, t.discardEdit v.beginEdit.2 = .ok u → P ⟨t, v :: opened⟩ →
      P ⟨u, opened⟩)
    (retainReachable : ∀ s roots, mayPrune s roots → s.Levelled base → P s →
      P { s with table := s.table.retainReachable roots }) : P s' := by
  induction h with
  | refl => exact start
  | @tail m s' hrun hstep ih =>
    have hm := hs.run hrun
    cases hstep with
    | insert name c => exact insert m name c ih
    | store hstore => exact store m _ _ _ _ hstore ih
    | storeSpecialization hstore =>
      exact store m _ _ _ _ (Table.store_of_storeSpecialization hstore) ih
    | beginEdit => exact beginEdit m ih
    | retainReachable hprune => exact retainReachable m _ hprune hm ih
    | commitEdit hk hcommit =>
      obtain ⟨hopened, hv⟩ := hm.innermost hk (Table.commitEdit_eq_ok.1 hcommit).1
      exact commitEdit m.table _ _ _ hcommit hv (hopened ▸ ih)
    | discardEdit hk hdiscard =>
      obtain ⟨hopened, -⟩ := hm.innermost hk (Table.discardEdit_beginEdit_eq_ok.1 hdiscard).1
      exact discardEdit m.table _ _ _ hdiscard (hopened ▸ ih)

theorem levelled_empty : Levelled 0 ⟨.empty, []⟩ := .outside rfl

/-- What comes out of a session that starts from the empty table is built by operations. -/
theorem Run.built (h : Run mayPrune ⟨.empty, []⟩ s) :
    s.table.Built ∧ ∀ v ∈ s.opened, v.Built := by
  refine h.induction (P := fun s => s.table.Built ∧ ∀ v ∈ s.opened, v.Built) levelled_empty
    ⟨.empty, by simp⟩ ?_ ?_ ?_ ?_ ?_ ?_
  · rintro s name c ⟨ht, hopened⟩
    exact ⟨ht.insert name c, hopened⟩
  · rintro s u base c name hstore ⟨ht, hopened⟩
    exact ⟨ht.store hstore, hopened⟩
  · rintro s ⟨ht, hopened⟩
    exact ⟨ht.beginEdit, List.forall_mem_cons.2 ⟨ht, hopened⟩⟩
  · rintro t u v opened hcommit - ⟨ht, hopened⟩
    obtain ⟨hv, hopened⟩ := List.forall_mem_cons.1 hopened
    exact ⟨ht.commitEdit hv hcommit, hopened⟩
  · rintro t u v opened hdiscard ⟨ht, hopened⟩
    obtain ⟨hv, hopened⟩ := List.forall_mem_cons.1 hopened
    exact ⟨ht.discardEdit hv hdiscard, hopened⟩
  · rintro s roots - - ⟨ht, hopened⟩
    exact ⟨ht.retainReachable roots, hopened⟩

/-! ### What is pending when a transaction is opened -/

/-- Inside a transaction, names that are pending stay in front as long as pruning keeps them. -/
theorem Run.pending_isPrefix {names : List String} (h : Run mayPrune s s') (hs : s.Levelled base)
    (hbase : base ≠ 0) (hprune : ∀ s roots, mayPrune s roots → Keeping names s roots)
    (hnames : names <+: s.table.pending) (hopened : ∀ v ∈ s.opened, names <+: v.pending) :
    names <+: s'.table.pending := by
  refine (h.induction
    (P := fun s => names <+: s.table.pending ∧ ∀ v ∈ s.opened, names <+: v.pending) hs
    ⟨hnames, hopened⟩ ?_ ?_ ?_ ?_ ?_ ?_).1
  · rintro s name c ⟨hnames, hopened⟩
    exact ⟨hnames.trans (s.table.pending_insert name c), hopened⟩
  · rintro s u base c name hstore ⟨hnames, hopened⟩
    exact ⟨hnames.trans (Table.Grows.of_store hstore).pending, hopened⟩
  · rintro s ⟨hnames, hopened⟩
    exact ⟨hnames, List.forall_mem_cons.2 ⟨hnames, hopened⟩⟩
  · rintro t u v opened hcommit hv ⟨hnames, hopened⟩
    -- the transaction is not the outermost one, so that all stays pending
    have houter : ¬v.beginEdit.2.isOutermost = true := by
      have hdepth := hv.depth_eq
      rw [Table.isOutermost_beginEdit_iff]
      omega
    obtain ⟨-, rfl⟩ := Table.commitEdit_eq_ok.1 hcommit
    rw [if_neg houter]
    exact ⟨hnames, (List.forall_mem_cons.1 hopened).2⟩
  · rintro t u v opened hdiscard ⟨hnames, hopened⟩
    obtain ⟨hv, hopened⟩ := List.forall_mem_cons.1 hopened
    obtain ⟨-, rfl⟩ := Table.discardEdit_beginEdit_eq_ok.1 hdiscard
    exact ⟨List.prefix_take_iff.2 ⟨hnames, hv.length_le⟩, hopened⟩
  · rintro s roots hroots - ⟨hnames, hopened⟩
    obtain ⟨rest, hrest⟩ := hnames
    refine ⟨?_, hopened⟩
    show names <+: s.table.pending.filter _
    rw [← hrest, List.filter_append, List.filter_eq_self.2 fun name hname => ?_]
    · exact List.prefix_append _ _
    · rw [Std.ExtTreeSet.contains_iff_mem]
      exact hprune s roots hroots name hname

/-- **Discarding a transaction.**  However many transactions are opened and closed inside, the
entries, the committed count and the depth are what they were, and of what is pending as many names
are left as there were.  So the table is restored exactly if what was pending still comes first;
that is so in the outermost transaction, and in any other one if all pruning inside of it keeps what
was pending. -/
theorem discardEdit_restores {u : Table} (hs : Run Anyhow ⟨.empty, []⟩ s)
    (h : Run mayPrune ⟨s.table.beginEdit.1, []⟩ ⟨u, []⟩) :
    u.discardEdit s.table.beginEdit.2 =
        .ok { s.table with pending := u.pending.take s.table.pending.length } ∧
      (u.discardEdit s.table.beginEdit.2 = .ok s.table ↔ s.table.pending <+: u.pending) ∧
      ((s.opened = [] ∨ ∀ s' roots, mayPrune s' roots → Keeping s.table.pending s' roots) →
        u.discardEdit s.table.beginEdit.2 = .ok s.table) := by
  have hlevelled : Levelled (s.table.depth + 1) ⟨s.table.beginEdit.1, []⟩ := .outside rfl
  have hcloses : u.closes s.table.beginEdit.2 = true :=
    Table.closes_beginEdit.2 (hlevelled.run h).depth_eq
  have hdiscard := Table.discardEdit_beginEdit_eq_ok.2 ⟨hcloses, rfl⟩
  have hiff : u.discardEdit s.table.beginEdit.2 = .ok s.table ↔ s.table.pending <+: u.pending := by
    rw [hdiscard, Except.ok.injEq]
    refine ⟨fun heq => ?_, Table.withTakenPending_eq⟩
    rw [List.prefix_iff_eq_take]
    exact (congrArg Table.pending heq).symm
  refine ⟨hdiscard, hiff, fun hkeeps => hiff.2 ?_⟩
  rcases hkeeps with hopened | hkeeps
  · have hdepth : s.table.depth = 0 := by
      have hdepth := (levelled_empty.run hs).depth_eq
      simpa [hopened] using hdepth
    rw [hs.built.1.pending_eq_nil hdepth]
    exact List.nil_prefix
  · exact h.pending_isPrefix hlevelled (Nat.succ_ne_zero _) hkeeps List.prefix_rfl (by simp)

/-- In the outermost transaction, with `abs_0` pending. -/
def pendingTable : Table := (Table.empty.beginEdit.1.put "abs" (.ofBuiltin .abs)).1

theorem pending_pendingTable : pendingTable.pending = ["abs_0"] := by decide +kernel

theorem depth_pendingTable : pendingTable.depth = 1 := by simp [pendingTable, Table.empty]

theorem run_pendingTable : Run mayPrune ⟨.empty, []⟩ ⟨pendingTable, [.empty]⟩ :=
  (Relation.ReflTransGen.single (.beginEdit _)).tail (.put (by simp) "abs" (.ofBuiltin .abs))

/-- The table of a transaction inside of it, in which another name is stored and dropped again. -/
def restoredTable : Table :=
  (pendingTable.beginEdit.1.put "sqrt" (.ofBuiltin .sqrt)).1.retainReachable ["abs_0"]

theorem run_restoredTable : Run (Keeping pendingTable.pending) ⟨pendingTable.beginEdit.1, []⟩
    ⟨restoredTable, []⟩ := by
  refine (Relation.ReflTransGen.single (.put (by simp) "sqrt" (.ofBuiltin .sqrt))).tail
    (.retainReachable fun name hname => ?_)
  rw [pending_pendingTable] at hname
  exact Table.mem_reachable.2 ⟨name, .inl hname, .refl⟩

/-- The entry that is pending is replaced in one more transaction, and stays to be restored. -/
theorem discardEdit_restores_pendingTable :
    ∃ u, Run (Keeping pendingTable.pending) ⟨pendingTable.beginEdit.1, []⟩ ⟨u, []⟩ ∧
      u.get? "abs_0" = some (.ofBuiltin .cos) ∧
      u.discardEdit pendingTable.beginEdit.2 = .ok pendingTable := by
  have hreplaced : Run (Keeping pendingTable.pending) ⟨pendingTable.beginEdit.1, []⟩
      ⟨restoredTable.beginEdit.1.insert "abs_0" (.ofBuiltin .cos), [restoredTable]⟩ :=
    (run_restoredTable.tail (.beginEdit _)).tail (.insert _ _ _)
  obtain ⟨u, hu⟩ : ∃ u, (restoredTable.beginEdit.1.insert "abs_0" (.ofBuiltin .cos)).commitEdit
      restoredTable.beginEdit.2 = .ok u :=
    ⟨_, Table.commitEdit_eq_ok.2 ⟨Table.closes_beginEdit.2 (by simp), rfl⟩⟩
  have hrun := hreplaced.tail (.commitEdit (k := 0) rfl hu)
  refine ⟨u, hrun, ?_, (discardEdit_restores run_pendingTable hrun).2.2 (.inr fun _ _ h => h)⟩
  have houter : ¬restoredTable.beginEdit.2.isOutermost = true := by
    simp [Table.isOutermost_beginEdit_iff, restoredTable]
  obtain ⟨-, rfl⟩ := Table.commitEdit_eq_ok.1 hu
  rw [if_neg houter]
  exact (Table.get?_insert restoredTable.beginEdit.1 "abs_0" _ "abs_0").trans (if_pos rfl)

/-- The table of such a transaction in which the name that was pending is dropped. -/
def prunedTable : Table :=
  ((pendingTable.beginEdit.1.retainReachable []).put "sqrt" (.ofBuiltin .sqrt)).1

/-- When a transaction is discarded after pruning has dropped what was pending before it, the entry
comes back but does not count as pending, and a name that was stored inside does. -/
theorem discardEdit_loses_pending :
    Run Anyhow ⟨.empty, []⟩ ⟨pendingTable, [.empty]⟩ ∧
      Run Anyhow ⟨pendingTable.beginEdit.1, []⟩ ⟨prunedTable, []⟩ ∧
      ∃ v, prunedTable.discardEdit pendingTable.beginEdit.2 = .ok v ∧ v ≠ pendingTable ∧
        pendingTable.pending = ["abs_0"] ∧ v.pending = ["sqrt_0"] ∧
        v.contains "sqrt_0" = false ∧ v.contains "abs_0" = true := by
  have hrun : Run Anyhow ⟨pendingTable.beginEdit.1, []⟩ ⟨prunedTable, []⟩ :=
    (Relation.ReflTransGen.single (.retainReachable trivial)).tail
      (.put (by simp) "sqrt" (.ofBuiltin .sqrt))
  have hpending : prunedTable.pending.take 1 = ["sqrt_0"] := by decide +kernel
  refine ⟨run_pendingTable, hrun, { pendingTable with pending := ["sqrt_0"] }, ?_, fun heq => ?_,
    pending_pendingTable, rfl, by decide +kernel, by decide +kernel⟩
  · have hcloses : prunedTable.closes pendingTable.beginEdit.2 = true :=
      Table.closes_beginEdit.2 (by simp [prunedTable])
    refine Table.discardEdit_beginEdit_eq_ok.2 ⟨hcloses, ?_⟩
    rw [pending_pendingTable, List.length_singleton, hpending]
  · have heq := congrArg Table.pending heq
    rw [pending_pendingTable] at heq
    revert heq
    decide

/-! ### The entries of a session -/

/-- At every level the entries are those that are committed and those that are pending, and what was
pending when a transaction was opened still comes first. -/
inductive Regular : Session → Prop where
  | outside {t : Table} : t.Accounted → Regular ⟨t, []⟩
  | inside {t v : Table} {opened : List Table} : t.Accounted → v.pending <+: t.pending →
    Regular ⟨v, opened⟩ → Regular ⟨t, v :: opened⟩

namespace Regular

theorem accounted (h : s.Regular) : s.table.Accounted := by
  cases h with
  | outside ht => exact ht
  | inside ht => exact ht

/-- The table can be replaced by another one in which the same is pending first. -/
theorem replace {u : Table} (h : s.Regular) (hu : u.Accounted)
    (hpending : s.table.pending <+: u.pending) : Regular { s with table := u } := by
  cases h with
  | outside => exact .outside hu
  | inside _ hfirst hv => exact .inside hu (hfirst.trans hpending) hv

theorem commitEdit {t u v : Table} {opened : List Table} (h : Regular ⟨t, v :: opened⟩)
    (hv : Levelled 0 ⟨v, opened⟩) (hcommit : t.commitEdit v.beginEdit.2 = .ok u) :
    Regular ⟨u, opened⟩ := by
  cases h with
  | inside ht hpending hregular =>
    have hu := ht.commitEdit hcommit
    obtain ⟨-, rfl⟩ := Table.commitEdit_eq_ok.1 hcommit
    by_cases houter : v.beginEdit.2.isOutermost = true
    · have hdepth := hv.depth_eq
      rw [Table.isOutermost_beginEdit_iff.1 houter] at hdepth
      obtain rfl : opened = [] := List.length_eq_zero_iff.1 (by omega)
      exact .outside hu
    · refine hregular.replace hu ?_
      rw [if_neg houter]
      exact hpending

theorem discardEdit {t u v : Table} {opened : List Table} (h : Regular ⟨t, v :: opened⟩)
    (hdiscard : t.discardEdit v.beginEdit.2 = .ok u) : Regular ⟨u, opened⟩ := by
  cases h with
  | inside ht hpending hregular =>
    obtain ⟨-, rfl⟩ := Table.discardEdit_beginEdit_eq_ok.1 hdiscard
    rw [Table.withTakenPending_eq hpending]
    exact hregular

/-- In the outermost transaction nothing was pending at its start, so that pruning may drop
whatever is. -/
theorem retainReachable {roots : List String} (h : s.Regular) (hs : s.Levelled 0)
    (houter : s.opened.length ≤ 1) :
    Regular { s with table := s.table.retainReachable roots } := by
  have ht := h.accounted.retainReachable roots
  cases h with
  | outside => exact .outside ht
  | @inside t v opened _ _ hregular =>
    obtain rfl : opened = [] := by simpa using houter
    cases hs with
    | inside _ hv =>
      refine .inside ht ?_ hregular
      rw [hregular.accounted.idle hv.depth_eq]
      exact List.nil_prefix

end Regular

theorem Run.regular (h : Run Outermost ⟨.empty, []⟩ s) : s.Regular := by
  have hempty : Table.empty.Accounted := ⟨List.nodup_nil, by simp [Table.empty], rfl, fun _ => rfl⟩
  refine h.induction (P := Regular) levelled_empty (.outside hempty) ?_ ?_ ?_ ?_ ?_ ?_
  · intro s name c hs
    exact hs.replace (hs.accounted.insert name c) (s.table.pending_insert name c)
  · intro s u base c name hstore hs
    exact hs.replace (hs.accounted.store hstore) (Table.Grows.of_store hstore).pending
  · intro s hs
    exact .inside hs.accounted.beginEdit List.prefix_rfl hs
  · intro t u v opened hcommit hv hs
    exact hs.commitEdit hv hcommit
  · intro t u v opened hdiscard hs
    exact hs.discardEdit hdiscard
  · intro s roots houter hlevelled hs
    exact hs.retainReachable hlevelled houter

/-- **What tables count.**  As long as tables are pruned only with at most one transaction open, the
names that are pending are entries, each once; with those that are committed they are all entries;
nothing is pending outside of transactions; and a transaction can be closed exactly if it is the
innermost one. -/
theorem table_accounted (h : Run Outermost ⟨.empty, []⟩ s) :
    s.table.pending.Nodup ∧ (∀ name ∈ s.table.pending, s.table.contains name = true) ∧
      s.table.committed + s.table.pending.length = s.table.size ∧
      (s.opened = [] → s.table.pending = []) ∧ s.table.depth = s.opened.length ∧
      ∀ k v, s.opened[k]? = some v →
        ((∃ u, s.table.commitEdit v.beginEdit.2 = .ok u) ↔ k = 0) ∧
        ((∃ u, s.table.discardEdit v.beginEdit.2 = .ok u) ↔ k = 0) := by
  have ht := h.regular.accounted
  have hlevelled := levelled_empty.run h
  have hdepth : s.table.depth = s.opened.length := by simpa using hlevelled.depth_eq
  refine ⟨ht.nodup, ht.contains, ht.count, fun hopened => ht.idle (by rw [hdepth, hopened]; rfl),
    hdepth, fun k v hk => ?_⟩
  have hcloses := hlevelled.closes_iff hk
  constructor
  · exact ⟨fun ⟨u, hu⟩ => hcloses.1 (Table.commitEdit_eq_ok.1 hu).1,
      fun hk => ⟨_, Table.commitEdit_eq_ok.2 ⟨hcloses.2 hk, rfl⟩⟩⟩
  · exact ⟨fun ⟨u, hu⟩ => hcloses.1 (Table.discardEdit_beginEdit_eq_ok.1 hu).1,
      fun hk => ⟨_, Table.discardEdit_beginEdit_eq_ok.2 ⟨hcloses.2 hk, rfl⟩⟩⟩

/-- A transaction inside the outermost one, which has been pruned. -/
def nestedSession : Session :=
  let outer := ((pendingTable.retainReachable []).put "sqrt" (.ofBuiltin .sqrt)).1
  ⟨(outer.beginEdit.1.put "abs" (.ofBuiltin .abs)).1, [outer, .empty]⟩

theorem table_accounted_nestedSession :
    Run Outermost ⟨.empty, []⟩ nestedSession ∧
      nestedSession.table.pending = ["sqrt_0", "abs_0"] ∧
      nestedSession.table.committed + nestedSession.table.pending.length =
        nestedSession.table.size ∧
      nestedSession.table.depth = 2 ∧
      ∀ k v, nestedSession.opened[k]? = some v →
        ((∃ u, nestedSession.table.commitEdit v.beginEdit.2 = .ok u) ↔ k = 0) := by
  have hrun : Run Outermost ⟨.empty, []⟩ nestedSession :=
    (((run_pendingTable.tail (.retainReachable (Nat.le_refl 1))).tail
      (.put (by simp [depth_pendingTable]) "sqrt" (.ofBuiltin .sqrt))).tail (.beginEdit _)).tail
      (.put (by simp) "abs" (.ofBuiltin .abs))
  obtain ⟨-, -, hcount, -, hdepth, hcloses⟩ := table_accounted hrun
  exact ⟨hrun, by decide +kernel, hcount, hdepth, fun k v hk => (hcloses k v hk).1⟩

end Session

end KernelTyping
