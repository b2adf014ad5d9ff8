import KernelTyping.Renames
import Mathlib.Data.List.Nodup

/-!
# KernelTyping.Proofs.Renames — renames as a map from calls to names

`get?` after `insert` and after `merge`.  Renames that are built up from nothing are `Proper`: each
call has one entry, with its own size.
-/

namespace KernelTyping.Renames

variable {r later : Renames} {c d : Expr} {name : String}

theorem isFor_iff {e : Rename} {c : Expr} :
    e.isFor c c.size = true ↔ e.size = c.size ∧ e.call = c := by
  simp [Rename.isFor]

@[simp] theorem get?_empty (c : Expr) : empty.get? c = none := rfl

/-- The entry under a new name, if it is that of a call. -/
def update (c : Expr) (name : String) (e : Rename) : Rename :=
  if e.isFor c c.size then { e with name := name } else e

@[simp] theorem isFor_update (e : Rename) :
    (update c name e).isFor d d.size = e.isFor d d.size := by
  unfold update
  split <;> rfl

@[simp] theorem call_update (e : Rename) : (update c name e).call = e.call := by
  unfold update
  split <;> rfl

@[simp] theorem size_update (e : Rename) : (update c name e).size = e.size := by
  unfold update
  split <;> rfl

theorem insert_eq (r : Renames) (c : Expr) (name : String) :
    r.insert c name =
      if r.entries.any (·.isFor c c.size) then ⟨r.entries.map (update c name)⟩
      else ⟨r.entries ++ [⟨c, c.size, name⟩]⟩ := rfl

theorem isFor_of_find? {es : List Rename} {e : Rename}
    (h : es.find? (·.isFor c c.size) = some e) : e ∈ es ∧ e.size = c.size ∧ e.call = c := by
  have hfor := List.find?_some h
  exact ⟨List.mem_of_find?_eq_some h, isFor_iff.1 hfor⟩

theorem get?_insert (r : Renames) (c : Expr) (name : String) (d : Expr) :
    (r.insert c name).get? d = if c = d then some name else r.get? d := by
  rw [insert_eq]
  split
  case isTrue hany =>
    have hfor : (fun e : Rename => e.isFor d d.size) ∘ update c name =
        fun e => e.isFor d d.size := funext fun e => isFor_update e
    rw [get?, List.find?_map, hfor, Option.map_map]
    by_cases hcd : c = d
    · subst hcd
      obtain ⟨e, he⟩ := Option.isSome_iff_exists.1 (List.find?_isSome.2 (List.any_eq_true.1 hany))
      have hfor : e.isFor c c.size = true := isFor_iff.2 (isFor_of_find? he).2
      simp [he, update, hfor]
    · rw [if_neg hcd, get?]
      refine Option.map_congr fun e he => ?_
      have hnot : e.isFor c c.size = false := by
        rw [← Bool.not_eq_true, isFor_iff, (isFor_of_find? he).2.2]
        exact fun h => hcd h.2.symm
      simp [update, hnot]
  case isFalse hany =>
    rw [get?, List.find?_append]
    by_cases hcd : c = d
    · subst hcd
      have hnone : r.entries.find? (fun e => e.isFor c c.size) = none :=
        List.find?_eq_none.2 fun e he h => hany (List.any_eq_true.2 ⟨e, he, h⟩)
      rw [hnone]
      simp [Rename.isFor]
    · simp [get?, hcd, Rename.isFor]

theorem contains_insert : (r.insert c name).contains d = (decide (c = d) || r.contains d) := by
  rw [contains, contains, get?_insert]
  by_cases h : c = d <;> simp [h]

/-! ### Proper renames -/

/-- Each call has one entry, with its own size. -/
structure Proper (r : Renames) : Prop where
  size : ∀ e ∈ r.entries, e.size = e.call.size
  nodup : (r.entries.map (·.call)).Nodup

namespace Proper

theorem empty : Proper Renames.empty := ⟨by simp [Renames.empty], by simp [Renames.empty]⟩

theorem get?_eq_some (h : r.Proper) :
    r.get? c = some name ↔ ∃ e ∈ r.entries, e.call = c ∧ e.name = name := by
  unfold get?
  constructor
  · intro hfind
    obtain ⟨e, he, rfl⟩ := Option.map_eq_some_iff.1 hfind
    exact ⟨e, (isFor_of_find? he).1, (isFor_of_find? he).2.2, rfl⟩
  · rintro ⟨e, he, rfl, rfl⟩
    have hfor : e.isFor e.call e.call.size = true := isFor_iff.2 ⟨h.size e he, rfl⟩
    obtain ⟨f, hf⟩ := Option.isSome_iff_exists.1
      (List.find?_isSome.2 ⟨e, he, hfor⟩ :
        (r.entries.find? fun f => f.isFor e.call e.call.size).isSome)
    obtain ⟨hmem, -, hcall⟩ := isFor_of_find? hf
    obtain rfl := List.inj_on_of_nodup_map h.nodup hmem he hcall
    simp [hf]

theorem insert (h : r.Proper) (c : Expr) (name : String) : (r.insert c name).Proper := by
  rw [insert_eq]
  split
  case isTrue =>
    have hcall : (fun e : Rename => e.call) ∘ update c name = fun e => e.call :=
      funext call_update
    refine ⟨fun e he => ?_, by rw [List.map_map, hcall]; exact h.nodup⟩
    obtain ⟨f, hf, rfl⟩ := List.mem_map.1 he
    rw [size_update, call_update, h.size f hf]
  case isFalse hany =>
    refine ⟨fun e he => ?_, ?_⟩
    · rcases List.mem_append.1 he with he | he
      · exact h.size e he
      · rw [List.mem_singleton.1 he]
    · rw [List.map_append, List.nodup_append]
      refine ⟨h.nodup, by simp, ?_⟩
      rintro _ hcall _ hc rfl
      obtain ⟨e, he, rfl⟩ := List.mem_map.1 hcall
      obtain rfl : e.call = c := by simpa using hc
      exact hany (List.any_eq_true.2 ⟨e, he, isFor_iff.2 ⟨h.size e he, rfl⟩⟩)

theorem merge (h : r.Proper) (later : Renames) : (r.merge later).Proper := by
  unfold Renames.merge
  generalize later.entries = es
  induction es generalizing r with
  | nil => exact h
  | cons e es ih => exact ih (h.insert e.call e.name)

end Proper

/-- Later names go before earlier ones. -/
theorem get?_merge (hlater : later.Proper) (c : Expr) :
    (r.merge later).get? c = (later.get? c).or (r.get? c) := by
  obtain ⟨es⟩ := later
  unfold merge
  induction es generalizing r with
  | nil => rfl
  | cons e es ih =>
    have htail : Proper ⟨es⟩ :=
      ⟨fun f hf => hlater.size f (by simp [hf]), (List.nodup_cons.1 hlater.nodup).2⟩
    have hsize : e.size = e.call.size := hlater.size e (by simp)
    rw [List.foldl_cons, ih htail, get?_insert]
    by_cases hc : e.call = c
    · have hnot : get? ⟨es⟩ c = none := by
        rw [Option.eq_none_iff_forall_ne_some]
        intro name hname
        obtain ⟨f, hf, hfc, -⟩ := htail.get?_eq_some.1 hname
        exact (List.nodup_cons.1 hlater.nodup).1 (List.mem_map.2 ⟨f, hf, hfc.trans hc.symm⟩)
      have hfor : e.isFor c c.size = true := isFor_iff.2 ⟨hc ▸ hsize, hc⟩
      rw [hnot, if_pos hc, Option.none_or, get?, List.find?_cons, hfor]
      rfl
    · have hfor : e.isFor c c.size = false := by
        rw [← Bool.not_eq_true, isFor_iff]
        exact fun h => hc h.2
      simp [hc, get?, hfor]

/-! ### What is recorded already -/

/-- There are entries of the call, and all of them have this name. -/
structure Records (r : Renames) (c : Expr) (name : String) : Prop where
  any : r.entries.any (·.isFor c c.size) = true
  name_eq {e : Rename} : e ∈ r.entries → e.isFor c c.size = true → e.name = name

/-- To record another call leaves the entries of this one. -/
theorem Records.insert (h : r.Records c name) (hdc : d ≠ c) (other : String) :
    (r.insert d other).Records c name := by
  have hnot {e : Rename} (hfor : e.isFor c c.size = true) : e.isFor d d.size = false := by
    rw [← Bool.not_eq_true, isFor_iff]
    exact fun h => hdc (h.2.symm.trans (isFor_iff.1 hfor).2)
  rw [insert_eq]
  split
  · refine ⟨?_, fun {e} he hfor => ?_⟩
    · rw [List.any_map]
      simpa [Function.comp_def] using h.any
    · obtain ⟨f, hf, rfl⟩ := List.mem_map.1 he
      rw [isFor_update] at hfor
      rw [update, hnot hfor]
      exact h.name_eq hf hfor
  · refine ⟨by simp [h.any], fun {e} he hfor => ?_⟩
    rcases List.mem_append.1 he with he | he
    · exact h.name_eq he hfor
    · obtain rfl := List.mem_singleton.1 he
      exact absurd (isFor_iff.1 hfor).2 hdc

end KernelTyping.Renames
