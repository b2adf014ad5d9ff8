/-!
# KernelTyping.WorkList — names that wait to be looked at

Names are taken in the order in which they were added.  A name that waits already is not added a
second time; once it has been taken, it can be added again.
-/

namespace KernelTyping

/-- Names that wait, the next one to be taken first, each once. -/
structure WorkList where
  names : List String
  nodup : names.Nodup

namespace WorkList

/-- Nothing waits. -/
def empty : WorkList := ⟨[], List.nodup_nil⟩

/-- Adds a name behind the others, unless it waits already. -/
def insert (w : WorkList) (name : String) : WorkList :=
  if h : name ∈ w.names then w
  else ⟨w.names ++ [name], List.nodup_append.2 ⟨w.nodup, by simp, fun a ha b hb hab =>
    h (List.mem_singleton.1 hb ▸ hab ▸ ha)⟩⟩

/-- Adds names, in order. -/
def extend (w : WorkList) (names : List String) : WorkList := names.foldl insert w

/-- Takes the next name. -/
def pop? : WorkList → Option (String × WorkList)
  | ⟨[], _⟩ => none
  | ⟨name :: names, h⟩ => some (name, ⟨names, (List.nodup_cons.1 h).2⟩)

theorem mem_insert {w : WorkList} {name other : String} :
    other ∈ (w.insert name).names ↔ other ∈ w.names ∨ other = name := by
  unfold insert
  split
  case isTrue h =>
    refine ⟨.inl, ?_⟩
    rintro (hother | rfl)
    · exact hother
    · exact h
  case isFalse => simp

theorem mem_extend {w : WorkList} {names : List String} {other : String} :
    other ∈ (w.extend names).names ↔ other ∈ w.names ∨ other ∈ names := by
  induction names generalizing w with
  | nil => simp [extend]
  | cons name names ih =>
    have hextend : w.extend (name :: names) = (w.insert name).extend names := rfl
    rw [hextend, ih, mem_insert, List.mem_cons, or_assoc]

theorem length_insert_le (w : WorkList) (name : String) :
    (w.insert name).names.length ≤ w.names.length + 1 := by
  unfold insert
  split <;> simp

theorem length_extend_le (w : WorkList) (names : List String) :
    (w.extend names).names.length ≤ w.names.length + names.length := by
  induction names generalizing w with
  | nil => exact Nat.le_refl _
  | cons name names ih =>
    have hinsert := w.length_insert_le name
    have hextend := ih (w.insert name)
    rw [List.length_cons]
    exact Nat.le_trans hextend (by omega)

theorem pop?_eq_none {w : WorkList} (h : w.pop? = none) : w.names = [] := by
  obtain ⟨names, hnodup⟩ := w
  cases names with
  | nil => rfl
  | cons name names => cases h

theorem pop?_eq_some {w rest : WorkList} {name : String} (h : w.pop? = some (name, rest)) :
    w.names = name :: rest.names := by
  obtain ⟨names, hnodup⟩ := w
  cases names with
  | nil => cases h
  | cons first names =>
    cases h
    rfl

end WorkList

end KernelTyping
