import KernelTyping.Proofs.DepthFirst
import KernelTyping.Proofs.Expr.Parts
import KernelTyping.Proofs.Expansion
import KernelTyping.Proofs.Table.Growth

/-!
# KernelTyping.Proofs.Table.Reachability — what pruning reaches

A table follows names by a work list.  What has been reached leads to what has been reached or waits
(`mem_follow`), so that in the end exactly the names are reached to which a start leads
(`mem_reachable`).  These are the needed ones: the roots, the entries that are not pending, and what
kernels among the needed entries call (`mem_reachable_iff_needed`).
-/

namespace KernelTyping

/-- The kernel has a call of that entry, in an instruction or in the body of a rule. -/
def Kernel.Calls (k : Kernel) (name : String) : Prop :=
  ∃ x, ((∃ i ∈ k.instructions, x ∈ i.expressions) ∨
      ∃ (rule : String) (r : Rule), k.rules[rule]? = some r ∧ x = r.body) ∧
    ∃ args keywords, (Expr.call (.entry name) args keywords).Within x

theorem Kernel.mem_calledEntries_iff_calls {k : Kernel} {name : String} :
    name ∈ k.calledEntries ↔ k.Calls name := by
  rw [mem_calledEntries, Calls]
  simp only [Expr.mentions_iff]
  constructor
  · rintro (⟨i, hi, x, hx, h⟩ | ⟨rule, r, hr, h⟩)
    · exact ⟨x, .inl ⟨i, hi, hx⟩, h⟩
    · exact ⟨r.body, .inr ⟨rule, r, hr, rfl⟩, h⟩
  · rintro ⟨x, ⟨i, hi, hx⟩ | ⟨rule, r, hr, rfl⟩, h⟩
    · exact .inl ⟨i, hi, x, hx, h⟩
    · exact .inr ⟨rule, r, hr, h⟩

namespace Table

variable {t : Table} {roots : List String} {name : String}

theorem contains_of_mem_callees {other : String} (h : other ∈ t.callees name) :
    t.contains name = true := by
  rw [contains_eq_isSome]
  unfold callees at h
  cases hname : t.get? name with
  | some c => rfl
  | none =>
    rw [hname] at h
    cases h

/-! ### The work list -/

/-- The name has been reached, or something that waits leads to it. -/
def Ahead (t : Table) (reached : NameSet) (waiting : List String) (name : String) : Prop :=
  name ∈ reached ∨ ∃ start ∈ waiting, DepthFirst.Reaches t.callees start name

/-- What has been reached leads to what has been reached or waits. -/
def Followed (t : Table) (reached : NameSet) (waiting : List String) : Prop :=
  ∀ x ∈ reached, ∀ y ∈ t.callees x, y ∈ reached ∨ y ∈ waiting

theorem Ahead.of_reaches {reached : NameSet} {waiting : List String} {x y : String}
    (hfollowed : t.Followed reached waiting) (hx : t.Ahead reached waiting x)
    (h : DepthFirst.Reaches t.callees x y) : t.Ahead reached waiting y := by
  refine h.mem_of_closed (fun x y hx hy => ?_) hx
  rcases hx with hx | ⟨start, hstart, hx⟩
  · exact (hfollowed x hx y hy).imp id fun hy => ⟨y, hy, .refl⟩
  · exact .inr ⟨start, hstart, hx.tail hy⟩

/-- The work list reaches exactly what is ahead of it. -/
theorem mem_follow {reached : NameSet} {waiting : WorkList}
    (hfollowed : t.Followed reached waiting.names) :
    name ∈ t.follow reached waiting ↔ t.Ahead reached waiting.names name := by
  induction reached, waiting using follow.induct t with
  | case1 reached waiting hnone =>
    rw [follow, hnone]
    simp [Ahead, WorkList.pop?_eq_none hnone]
  | case2 reached waiting first rest hfirst hreached ih =>
    rw [follow, hfirst]
    have hnames := WorkList.pop?_eq_some hfirst
    rw [hnames] at hfollowed ⊢
    have hrest : t.Followed reached rest.names := by
      intro x hx y hy
      rcases hfollowed x hx y hy with hy | hy
      · exact .inl hy
      · rcases List.mem_cons.1 hy with rfl | hy
        · exact .inl hreached
        · exact .inr hy
    simp only [hreached, dif_pos]
    rw [ih hrest]
    constructor
    · exact Or.imp id fun ⟨start, hstart, h⟩ => ⟨start, List.mem_cons_of_mem _ hstart, h⟩
    · rintro (h | ⟨start, hstart, h⟩)
      · exact .inl h
      · rcases List.mem_cons.1 hstart with rfl | hstart
        · exact .of_reaches hrest (.inl hreached) h
        · exact .inr ⟨start, hstart, h⟩
  | case3 reached waiting first rest hfirst hreached ih =>
    rw [follow, hfirst]
    have hnames := WorkList.pop?_eq_some hfirst
    rw [hnames] at hfollowed ⊢
    have hinsert (x : String) : x ∈ reached.insert first ↔ first = x ∨ x ∈ reached := by
      simp
    have hwaits (x : String) : x ∈ (rest.extend ((t.callees first).filter
        (· ∉ reached.insert first))).names ↔
          x ∈ rest.names ∨ x ∈ t.callees first ∧ x ∉ reached.insert first := by
      rw [WorkList.mem_extend, List.mem_filter, decide_eq_true_eq]
    have hnext : t.Followed (reached.insert first)
        (rest.extend ((t.callees first).filter (· ∉ reached.insert first))).names := by
      intro x hx y hy
      by_cases hmem : y ∈ reached.insert first
      · exact .inl hmem
      · refine .inr ((hwaits y).2 ?_)
        rcases (hinsert x).1 hx with rfl | hx
        · exact .inr ⟨hy, hmem⟩
        · have hy := hfollowed x hx y hy
          simp_all [eq_comm]
    simp only [hreached, not_false_eq_true, dif_neg]
    rw [ih hnext]
    constructor
    · rintro (h | ⟨start, hstart, h⟩)
      · rcases (hinsert name).1 h with rfl | h
        · exact .inr ⟨first, List.mem_cons_self, .refl⟩
        · exact .inl h
      · rcases (hwaits start).1 hstart with hstart | ⟨hstart, -⟩
        · exact .inr ⟨start, List.mem_cons_of_mem _ hstart, h⟩
        · exact .inr ⟨first, List.mem_cons_self, .head hstart h⟩
    · rintro (h | ⟨start, hstart, h⟩)
      · exact .inl ((hinsert name).2 (.inr h))
      · rcases List.mem_cons.1 hstart with rfl | hstart
        · exact .of_reaches hnext (.inl ((hinsert start).2 (.inl rfl))) h
        · exact .inr ⟨start, (hwaits start).2 (.inl hstart), h⟩

/-- Reached is what a root or an entry that is not pending leads to. -/
theorem mem_reachable :
    name ∈ t.reachable roots ↔
      ∃ start, (start ∈ roots ∨ t.contains start = true ∧ start ∉ t.pending) ∧
        DepthFirst.Reaches t.callees start name := by
  have hstart : t.Followed ∅ ((WorkList.empty.extend roots).extend
      (t.entries.keys.filter (· ∉ t.pending))).names := fun x hx => by simp at hx
  rw [reachable, mem_follow hstart, Ahead]
  simp only [Std.ExtTreeSet.not_mem_empty, false_or, WorkList.mem_extend, WorkList.empty,
    List.not_mem_nil, List.mem_filter, mem_keys, decide_eq_true_eq]

/-! ### Needed entries -/

/-- The name is a root, stands for an entry that is not pending, or is called by a kernel among the
needed entries. -/
inductive Needed (t : Table) (roots : List String) : String → Prop
  | root {name : String} : name ∈ roots → Needed t roots name
  | lasting {name : String} : t.contains name = true → name ∉ t.pending → Needed t roots name
  | called {caller name : String} {c : Callable} {k : Kernel} : Needed t roots caller →
      t.get? caller = some c → c.implementation = .kernel k → k.Calls name → Needed t roots name

/-- An entry refers to what its kernel calls. -/
theorem mem_callees_iff {caller : String} :
    name ∈ t.callees caller ↔
      ∃ c k, t.get? caller = some c ∧ c.implementation = .kernel k ∧ k.Calls name := by
  unfold callees
  cases t.get? caller with
  | none => simp
  | some c =>
    obtain ⟨_, _, implementation⟩ := c
    cases implementation with
    | kernel k =>
      simp [Callable.callees, Callable.kernel?, ← Kernel.mem_calledEntries_iff_calls]
    | _ => simp [Callable.callees, Callable.kernel?]

theorem mem_reachable_iff_needed : name ∈ t.reachable roots ↔ t.Needed roots name := by
  rw [mem_reachable]
  constructor
  · rintro ⟨start, hstart, hreaches⟩
    have hstart : t.Needed roots start := hstart.elim .root fun h => .lasting h.1 h.2
    refine hreaches.mem_of_closed (fun x y hx hy => ?_) hstart
    obtain ⟨c, k, hc, hk, hcalls⟩ := mem_callees_iff.1 hy
    exact .called hx hc hk hcalls
  · intro h
    induction h with
    | root hroot => exact ⟨_, .inl hroot, .refl⟩
    | lasting hcontains hpending => exact ⟨_, .inr ⟨hcontains, hpending⟩, .refl⟩
    | called _ hc hk hcalls ih =>
      obtain ⟨start, hstart, hreaches⟩ := ih
      exact ⟨start, hstart, hreaches.tail (mem_callees_iff.2 ⟨_, _, hc, hk, hcalls⟩)⟩

end Table

end KernelTyping
