import KernelTyping.Proofs.Expr.Subterms
import Mathlib.Logic.Relation

/-!
# KernelTyping.Proofs.Expr.Parts — where an expression can stand in another one

`PartOf` has one case for each place that a direct part of an expression can have, and `Within`
follows such places inwards.  These are what `children` and `subterms` list (`mem_children`,
`mem_subterms`), so that what is said of all subterms is said of all places.
-/

namespace KernelTyping.Expr

/-- The expression is a direct part of another one. -/
inductive PartOf : Expr → Expr → Prop
  | operand {op : NaryOp} {es : List Expr} {e : Expr} : e ∈ es → PartOf e (nary op es)
  | left (op : BinaryOp) (l r : Expr) : PartOf l (binary op l r)
  | right (op : BinaryOp) (l r : Expr) : PartOf r (binary op l r)
  | negated (e : Expr) : PartOf e (not e)
  | condition (c t f : Expr) : PartOf c (ite c t f)
  | onTrue (c t f : Expr) : PartOf t (ite c t f)
  | onFalse (c t f : Expr) : PartOf f (ite c t f)
  | subscripted (a : Expr) (is : List Expr) : PartOf a (subscript a is)
  | index {a : Expr} {is : List Expr} {e : Expr} : e ∈ is → PartOf e (subscript a is)
  | linearSubscripted (a i : Expr) : PartOf a (linearSubscript a i)
  | linearIndex (a i : Expr) : PartOf i (linearSubscript a i)
  | lookedUp (a : Expr) (field : String) : PartOf a (lookup a field)
  | converted (type : ElementType) (e : Expr) : PartOf e (cast type e)
  | argument {callee : Callee} {es : List Expr} {keywords : List (String × Expr)} {e : Expr} :
      e ∈ es → PartOf e (call callee es keywords)
  | keyword {callee : Callee} {es : List Expr} {keywords : List (String × Expr)} {name : String}
      {e : Expr} : (name, e) ∈ keywords → PartOf e (call callee es keywords)
  | body (op : ReductionOp) (inames : List String) (e : Expr) : PartOf e (reduction op inames e)
  | bodies {op : ReductionOp} {inames : List String} {es : List Expr} {e : Expr} :
      e ∈ es → PartOf e (tupleReduction op inames es)
  | viewed (inames : List String) (e : Expr) : PartOf e (view inames e)

theorem mem_children {c e : Expr} : c ∈ e.children ↔ c.PartOf e := by
  constructor
  · intro h
    cases e with
    | constant _ | var _ | hardware _ => cases h
    | nary _ _ => exact .operand h
    | tupleReduction _ _ _ => exact .bodies h
    | binary op l r =>
      obtain rfl | rfl : c = l ∨ c = r := by simpa [children] using h
      · exact .left op c r
      · exact .right op l c
    | not e =>
      obtain rfl := List.mem_singleton.1 h
      exact .negated c
    | ite i t f =>
      obtain rfl | rfl | rfl : c = i ∨ c = t ∨ c = f := by simpa [children] using h
      · exact .condition c t f
      · exact .onTrue i c f
      · exact .onFalse i t c
    | subscript a is =>
      rcases List.mem_cons.1 h with rfl | h
      · exact .subscripted c is
      · exact .index h
    | linearSubscript a i =>
      obtain rfl | rfl : c = a ∨ c = i := by simpa [children] using h
      · exact .linearSubscripted c i
      · exact .linearIndex a c
    | lookup a field =>
      obtain rfl := List.mem_singleton.1 h
      exact .lookedUp c field
    | cast type e =>
      obtain rfl := List.mem_singleton.1 h
      exact .converted type c
    | call callee es keywords =>
      rcases List.mem_append.1 h with h | h
      · exact .argument h
      · obtain ⟨⟨name, _⟩, hkeyword, rfl⟩ := List.mem_map.1 h
        exact .keyword hkeyword
    | reduction op inames e =>
      obtain rfl := List.mem_singleton.1 h
      exact .body op inames c
    | view inames e =>
      obtain rfl := List.mem_singleton.1 h
      exact .viewed inames c
  · intro h
    cases h with
    | keyword h => exact List.mem_append_right _ (List.mem_map.2 ⟨_, h, rfl⟩)
    | _ => simp_all [children]

/-- The expression stands somewhere in another one, or is it. -/
def Within : Expr → Expr → Prop := Relation.ReflTransGen PartOf

theorem mem_subterms {d e : Expr} : d ∈ e.subterms ↔ d.Within e := by
  constructor
  · induction e using inductionOnChildren with
    | step e ih =>
      rw [subterms_eq, List.mem_cons, List.mem_flatMap]
      rintro (rfl | ⟨c, hc, hd⟩)
      · exact .refl
      · exact (ih c hc hd).tail (mem_children.1 hc)
  · intro h
    induction h with
    | refl => exact mem_subterms_self d
    | tail _ hpart ih => exact mem_subterms_of_mem_children (mem_children.2 hpart) ih

theorem within_iff {d e : Expr} : d.Within e ↔ d = e ∨ ∃ c ∈ e.children, d.Within c := by
  rw [← mem_subterms, subterms_eq, List.mem_cons, List.mem_flatMap]
  simp only [mem_subterms]

theorem mentions_iff {e : Expr} {callee : Callee} :
    e.Mentions callee ↔ ∃ args keywords, (call callee args keywords).Within e := by
  unfold Mentions
  simp only [callee?_eq_some, mem_subterms]
  constructor
  · rintro ⟨_, h, args, keywords, rfl⟩
    exact ⟨args, keywords, h⟩
  · rintro ⟨args, keywords, h⟩
    exact ⟨_, h, args, keywords, rfl⟩

end KernelTyping.Expr
