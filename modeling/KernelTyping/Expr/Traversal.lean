import KernelTyping.Expr.Basic
import KernelTyping.NameSet

/-!
# KernelTyping.Expr.Traversal — one order of children for every pass

* `Expr.children` lists the direct subexpressions in order: the arguments of a call before its
  keyword arguments, an aggregate before its indices.
* `Expr.withChildren` puts other ones in their place; the two determine each other
  (`withChildren_children`, `children_withChildren`).
* `Expr.inductionOnChildren` and `size_lt_of_mem_children` are what every pass recurses by.

The passes that look at a whole tree are built on these: `subterms` (outermost first), the names and
calls in it, and `rebuild`, which changes every node from the leaves up.
-/

namespace KernelTyping

namespace Expr

/-- The direct subexpressions, in order. -/
def children : Expr → List Expr
  | constant _ | var _ | hardware _ => []
  | nary _ es | tupleReduction _ _ es => es
  | binary _ l r | linearSubscript l r => [l, r]
  | not e | lookup e _ | cast _ e | reduction _ _ e | view _ e => [e]
  | ite c t f => [c, t, f]
  | subscript a is => a :: is
  | call _ es kws => es ++ kws.map (·.2)

/-- The expression with other direct subexpressions in the order of `children`.  A list whose
length is impossible leaves the expression as it is. -/
def withChildren : Expr → List Expr → Expr
  | nary op _, es => nary op es
  | binary op _ _, [l, r] => binary op l r
  | not _, [e] => not e
  | ite _ _ _, [c, t, f] => ite c t f
  | subscript _ _, a :: is => subscript a is
  | linearSubscript _ _, [a, i] => linearSubscript a i
  | lookup _ field, [a] => lookup a field
  | cast type _, [e] => cast type e
  | call f es kws, cs =>
    call f (cs.take es.length) ((kws.map (·.1)).zip (cs.drop es.length))
  | reduction op inames _, [e] => reduction op inames e
  | tupleReduction op inames _, es => tupleReduction op inames es
  | view inames _, [e] => view inames e
  | e, _ => e

/-- The expression with `f` applied to each child. -/
def mapChildren (f : Expr → Expr) (e : Expr) : Expr := e.withChildren (e.children.map f)

/-- The same with an `f` that can fail: the first child at which it does decides. -/
def mapChildrenM {m : Type → Type} [Monad m] (f : Expr → m Expr) (e : Expr) : m Expr := do
  return e.withChildren (← e.children.mapM f)

/-! ### Laws -/

theorem zip_map_fst_snd {α β : Type} (kws : List (α × β)) :
    (kws.map (·.1)).zip (kws.map (·.2)) = kws := by
  induction kws with
  | nil => rfl
  | cons kw kws ih => simp [ih]

@[simp] theorem withChildren_children (e : Expr) : e.withChildren e.children = e := by
  cases e <;> simp [children, withChildren, zip_map_fst_snd]

@[simp] theorem mapChildren_id (e : Expr) : e.mapChildren id = e := by
  simp [mapChildren]

theorem children_withChildren {e : Expr} {cs : List Expr}
    (h : cs.length = e.children.length) : (e.withChildren cs).children = cs := by
  cases e with
  | call f es kws =>
    simp only [children, List.length_append, List.length_map] at h
    simp only [withChildren, children]
    have hdrop : (cs.drop es.length).length = kws.length := by simp; omega
    rw [List.map_snd_zip (by simp [hdrop]), List.take_append_drop]
  | constant _ | var _ | hardware _ =>
    simp only [children, List.length_nil, List.length_eq_zero_iff] at h
    simp [h, withChildren, children]
  | nary _ _ | tupleReduction _ _ _ => rfl
  | binary _ _ _ | linearSubscript _ _ =>
    match cs, h with
    | [_, _], _ => rfl
  | not _ | lookup _ _ | cast _ _ | reduction _ _ _ | view _ _ =>
    match cs, h with
    | [_], _ => rfl
  | ite _ _ _ =>
    match cs, h with
    | [_, _, _], _ => rfl
  | subscript _ is =>
    match cs, h with
    | _ :: _, _ => rfl

theorem children_mapChildren (f : Expr → Expr) (e : Expr) :
    (e.mapChildren f).children = e.children.map f :=
  children_withChildren (by simp)

theorem size_eq (e : Expr) : e.size = 1 + sizeList e.children := by
  cases e <;> simp [size, children, sizeList, sizeList_append, sizeNamed_eq]

theorem size_lt_of_mem_children {c e : Expr} (h : c ∈ e.children) : c.size < e.size := by
  have := size_le_sizeList h
  rw [size_eq e]
  omega

/-- What holds of an expression whenever it holds of its children holds of all expressions. -/
theorem inductionOnChildren {motive : Expr → Prop}
    (step : ∀ e, (∀ c ∈ e.children, motive c) → motive e) (e : Expr) : motive e :=
  step e fun c _ => inductionOnChildren step c
termination_by e.size
decreasing_by exact size_lt_of_mem_children ‹_›

/-! ### Subterms -/

/-- All subexpressions, each before the ones inside it. -/
def subterms (e : Expr) : List Expr :=
  e :: e.children.attach.flatMap fun ⟨c, _⟩ => subterms c
termination_by e.size
decreasing_by exact size_lt_of_mem_children ‹_›

theorem subterms_eq (e : Expr) : e.subterms = e :: e.children.flatMap subterms := by
  rw [subterms]
  simp [List.flatMap_subtype]

/-- The name of a variable. -/
def varName? : Expr → Option String
  | var name => some name
  | _ => none

/-- The calls in the expression, outermost first. -/
def calls (e : Expr) : List Expr := e.subterms.filter isCall

/-- The names of the variables in the expression.  Names of functions are not among them. -/
def dependencyNames (e : Expr) : NameSet :=
  Std.ExtTreeSet.ofList (e.subterms.filterMap varName?)

/-! ### Rebuilding -/

/-- The expression with `f` applied to every node, children first. -/
def rebuild (f : Expr → Expr) (e : Expr) : Expr :=
  f (e.withChildren (e.children.attach.map fun ⟨c, _⟩ => rebuild f c))
termination_by e.size
decreasing_by exact size_lt_of_mem_children ‹_›

theorem rebuild_eq (f : Expr → Expr) (e : Expr) :
    e.rebuild f = f (e.mapChildren (rebuild f)) := by
  rw [rebuild, mapChildren]
  simp

/-- The expression with `replacement` for each variable of `names`. -/
def replaceVars (e : Expr) (names : List String) (replacement : Expr) : Expr :=
  e.rebuild fun
    | var name => if name ∈ names then replacement else var name
    | e => e

theorem sizeList_map_of_size_eq {f : Expr → Expr} {es : List Expr}
    (h : ∀ e ∈ es, (f e).size = e.size) : sizeList (es.map f) = sizeList es := by
  induction es with
  | nil => rfl
  | cons e es ih =>
    simp only [List.map_cons, sizeList]
    rw [h e (by simp), ih fun e he => h e (by simp [he])]

/-- Where leaves replace leaves the size stays. -/
theorem size_replaceVars {names : List String} {replacement : Expr}
    (h : replacement.size = 1) (e : Expr) : (e.replaceVars names replacement).size = e.size := by
  induction e using inductionOnChildren with
  | step e ih =>
    have hmap : (e.mapChildren (·.replaceVars names replacement)).size = e.size := by
      rw [size_eq, children_mapChildren, sizeList_map_of_size_eq ih, ← size_eq]
    unfold replaceVars at hmap ⊢
    rw [rebuild_eq]
    generalize e.mapChildren _ = e' at hmap ⊢
    rw [← hmap]
    cases e' with
    | var name =>
      simp only
      split
      · rw [h, size]
      · rfl
    | _ => rfl

/-- The subscript at which a view starts: its swept index names are zero. -/
def beginSubscript (inames : List String) (body : Expr) : Expr :=
  body.replaceVars inames (int 0)

theorem size_beginSubscript (inames : List String) (e : Expr) :
    (beginSubscript inames e).size = e.size :=
  size_replaceVars rfl e

/-- For a view, the subscript at which it starts. -/
def beginSubscript? : Expr → Option Expr
  | view inames body => some (beginSubscript inames body)
  | _ => none

/-- Integer literals below this magnitude do not force promotion in sums and products. -/
def smallBound : Nat := 1024

/-- An integer literal of small magnitude, whatever its size tag. -/
def isSmallInt : Expr → Bool
  | constant (.int value _) => value.natAbs < smallBound
  | _ => false

end Expr

end KernelTyping
