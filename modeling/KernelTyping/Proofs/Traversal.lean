import KernelTyping.Proofs.Instruction

/-!
# KernelTyping.Proofs.Traversal — every traversal visits the same places

A pass that only looks lists the parts of a node (`Expr.children`, `Assignee.indices`,
`Instruction.expressions`); a pass that rewrites rebuilds the node with something done to each part.
`Expr.mapPartsM` and `Assignee.mapPartsM` are such rebuildings written out shape by shape, for an
action with any effects.

* `Expr.mapChildrenM_eq_mapPartsM`, `Assignee.mapIndicesM_eq_mapPartsM`: to put back what was done
  to the list of parts is to rebuild the node part by part, with the same effects in the same order.
* `mapM_noting` for an action that notes what it is done to: the notes are the list.
* `mapM_eq_match` for an action that can fail: the first part at which it does decides.
* `outcome_mapPartsM`, `Instruction.outcome_mapExpressionsM`: to go on to the parts after one that
  failed, keeping the first fault (`keepingFirst`), comes to the same as to stop there.
* `Instruction.mapExpressionsM_mapExpressions`, `Instruction.maps_iff`: an action after a map, and
  an action that cannot fail.

So listing and rebuilding agree on every node (`traversals_agree`).
-/

namespace KernelTyping

/-! ### Actions on lists -/

section Lists

variable {m : Type → Type} [Monad m] [LawfulMonad m] {α β γ : Type}

/-- What is done to two lists in one, and then cut where they meet, is done to one after the
other. -/
theorem mapM_append_cut (f : α → m β) (xs ys : List α) (k : List β → List β → m γ) :
    ((xs ++ ys).mapM f >>= fun bs => k (bs.take xs.length) (bs.drop xs.length)) =
      xs.mapM f >>= fun bs => ys.mapM f >>= fun cs => k bs cs := by
  induction xs generalizing k with
  | nil => simp
  | cons x xs ih =>
    rw [List.cons_append, List.mapM_cons, List.mapM_cons, bind_assoc, bind_assoc]
    refine bind_congr fun b => ?_
    simpa using ih fun bs cs => k (b :: bs) cs

/-- What is done to the values of pairs leaves the keys. -/
theorem mapM_zip_keys (f : α → m β) (kvs : List (String × α)) :
    ((kvs.map (·.2)).mapM f >>= fun bs => pure ((kvs.map (·.1)).zip bs)) =
      kvs.mapM fun kv => return (kv.1, ← f kv.2) := by
  induction kvs with
  | nil => simp
  | cons kv kvs ih =>
    rw [List.mapM_cons, ← ih, List.map_cons, List.map_cons, List.mapM_cons, bind_assoc, bind_assoc]
    refine bind_congr fun b => ?_
    simp

end Lists

/-- Does `f` to each thing, and notes what it was. -/
def noting {α β : Type} (f : α → β) (a : α) : StateM (List α) β := do
  modify (· ++ [a])
  return f a

/-- Of a list, the things are noted in order. -/
theorem mapM_noting {α β : Type} (f : α → β) (xs seen : List α) :
    (xs.mapM (noting f)).run seen = (xs.map f, seen ++ xs) := by
  induction xs generalizing seen with
  | nil => exact congrArg (Prod.mk []) (List.append_nil seen).symm
  | cons x xs ih =>
    have hrest := ih (seen ++ [x])
    rw [List.append_assoc] at hrest
    rw [List.mapM_cons]
    exact congrArg (fun p => (f x :: p.1, p.2)) hrest

/-- Why there is no result. -/
def failure? {ε α : Type} : Except ε α → Option ε
  | .error e => some e
  | .ok _ => none

/-- A list comes to nothing at the first element that fails, and otherwise to all the results. -/
theorem mapM_eq_match {ε α : Type} (g : α → Except ε α) (xs : List α) :
    xs.mapM g =
      match xs.findSome? fun x => failure? (g x) with
      | some fault => .error fault
      | none => .ok (xs.map fun x => (g x).toOption.getD x) := by
  induction xs with
  | nil => rfl
  | cons x xs ih =>
    rw [List.mapM_cons, List.findSome?_cons, List.map_cons]
    cases hx : g x with
    | error fault => rfl
    | ok y =>
      have hy : failure? (.ok y : Except ε α) = none := rfl
      rw [ok_bind, ih, hy]
      dsimp only
      cases xs.findSome? fun x => failure? (g x) <;> rfl

/-! ### Going on after a failure -/

section GoingOn

variable {ε α β γ : Type}

/-- Does `f` to a thing.  If that fails, the traversal goes on with `spare` in its place, and the
fault is kept unless there is one already. -/
def keepingFirst (f : α → Except ε β) (spare : α → β) (a : α) : StateM (Option ε) β :=
  match f a with
  | .ok b => pure b
  | .error fault => do
    modify (·.or (some fault))
    return spare a

/-- What a traversal that went to its end comes to: the fault that it kept, or else its result. -/
def outcome (p : StateM (Option ε) β) : Except ε β :=
  match p.run none with
  | (_, some fault) => .error fault
  | (b, none) => .ok b

/-- `p` goes on where `q` stops.  A fault that it comes with stays; without one it has the result
of `q`, or else it keeps the fault of `q`. -/
structure GoesOn (p : StateM (Option ε) β) (q : Except ε β) : Prop where
  keeps (fault : ε) : (p.run (some fault)).2 = some fault
  ok {b : β} (hq : q = .ok b) : p.run none = (b, none)
  error {fault : ε} (hq : q = .error fault) : (p.run none).2 = some fault

namespace GoesOn

theorem outcome_eq {p : StateM (Option ε) β} {q : Except ε β} (h : GoesOn p q) :
    outcome p = q := by
  unfold outcome
  cases hq : q with
  | ok b => rw [h.ok hq]
  | error fault =>
    have hfault := h.error hq
    generalize p.run none = r at hfault
    obtain ⟨b, s⟩ := r
    cases hfault
    rfl

theorem keepingFirst (f : α → Except ε β) (spare : α → β) (a : α) :
    GoesOn (keepingFirst f spare a) (f a) := by
  unfold KernelTyping.keepingFirst
  cases f a with
  | ok b => exact ⟨fun _ => rfl, fun hq => by cases hq; rfl, nofun⟩
  | error fault => exact ⟨fun _ => rfl, nofun, fun hq => by cases hq; rfl⟩

protected theorem pure (b : β) : GoesOn (pure b : StateM (Option ε) β) (pure b) :=
  ⟨fun _ => rfl, fun hq => by cases hq; rfl, nofun⟩

protected theorem bind {p : StateM (Option ε) β} {q : Except ε β}
    {p' : β → StateM (Option ε) γ} {q' : β → Except ε γ} (h : GoesOn p q)
    (h' : ∀ b, GoesOn (p' b) (q' b)) : GoesOn (p >>= p') (q >>= q') := by
  have hrun (s : Option ε) :
      (p >>= p').run s = (p' (p.run s).1).run (p.run s).2 := rfl
  cases hq : q with
  | ok b =>
    refine ⟨fun fault => ?_, fun hb => ?_, fun hfault => ?_⟩
    · rw [hrun, h.keeps]
      exact (h' _).keeps fault
    · rw [hrun, h.ok hq]
      exact (h' b).ok hb
    · rw [hrun, h.ok hq]
      exact (h' b).error hfault
  | error first =>
    -- the fault is there before what follows, and stays
    refine ⟨fun fault => ?_, nofun, fun hfault => ?_⟩
    · rw [hrun, h.keeps]
      exact (h' _).keeps fault
    · cases hfault
      rw [hrun, h.error hq]
      exact (h' _).keeps first

protected theorem mapM {p : α → StateM (Option ε) β} {q : α → Except ε β}
    (h : ∀ a, GoesOn (p a) (q a)) (as : List α) : GoesOn (as.mapM p) (as.mapM q) := by
  induction as with
  | nil => exact .pure []
  | cons a as ih =>
    rw [List.mapM_cons, List.mapM_cons]
    exact (h a).bind fun b => ih.bind fun bs => .pure (b :: bs)

end GoesOn

end GoingOn

/-! ### Expressions -/

namespace Expr

/-- The expression with `f` done to each part, one after the other as they stand in it. -/
def mapPartsM {m : Type → Type} [Monad m] (f : Expr → m Expr) : Expr → m Expr
  | constant value => return constant value
  | var name => return var name
  | hardware index => return hardware index
  | nary op operands => return nary op (← operands.mapM f)
  | binary op left right => return binary op (← f left) (← f right)
  | not operand => return not (← f operand)
  | ite condition onTrue onFalse => return ite (← f condition) (← f onTrue) (← f onFalse)
  | subscript aggregate indices => return subscript (← f aggregate) (← indices.mapM f)
  | linearSubscript aggregate index => return linearSubscript (← f aggregate) (← f index)
  | lookup aggregate field => return lookup (← f aggregate) field
  | cast type operand => return cast type (← f operand)
  | call callee args keywords => do
    let args ← args.mapM f
    let keywords ← keywords.mapM fun keyword => return (keyword.1, ← f keyword.2)
    return call callee args keywords
  | reduction op inames body => return reduction op inames (← f body)
  | tupleReduction op inames bodies => return tupleReduction op inames (← bodies.mapM f)
  | view inames body => return view inames (← f body)

section Monad

variable {m : Type → Type} [Monad m] [LawfulMonad m]

theorem mapChildrenM_eq_mapPartsM (f : Expr → m Expr) (e : Expr) :
    e.mapChildrenM f = e.mapPartsM f := by
  cases e with
  | call callee args keywords =>
    show (args ++ keywords.map (·.2)).mapM f >>= (fun cs =>
      pure (call callee (cs.take args.length) ((keywords.map (·.1)).zip (cs.drop args.length)))) = _
    rw [mapM_append_cut f args _ fun args cs =>
      pure (call callee args ((keywords.map (·.1)).zip cs))]
    refine bind_congr fun args => ?_
    rw [← mapM_zip_keys, bind_assoc]
    simp only [pure_bind]
  | _ => simp [mapChildrenM, children, withChildren, mapPartsM, List.mapM_cons]

end Monad

/-- The parts that a node is rebuilt with are its children, in order. -/
theorem mapPartsM_noting (f : Expr → Expr) (e : Expr) (seen : List Expr) :
    (e.mapPartsM (noting f)).run seen = (e.mapChildren f, seen ++ e.children) := by
  rw [← mapChildrenM_eq_mapPartsM]
  exact congrArg (fun p => (e.withChildren p.1, p.2)) (mapM_noting f e.children seen)

/-- Rebuilding fails with the fault of the first child that fails, in order. -/
theorem mapChildrenM_eq_match {ε : Type} (g : Expr → Except ε Expr) (e : Expr) :
    e.mapChildrenM g =
      match e.children.findSome? fun c => failure? (g c) with
      | some fault => .error fault
      | none => .ok (e.mapChildren fun c => (g c).toOption.getD c) := by
  unfold mapChildrenM
  rw [mapM_eq_match]
  cases e.children.findSome? fun c => failure? (g c) <;> rfl

theorem goesOn_mapPartsM {ε : Type} {p : Expr → StateM (Option ε) Expr}
    {q : Expr → Except ε Expr} (h : ∀ c, GoesOn (p c) (q c)) (e : Expr) :
    GoesOn (e.mapPartsM p) (e.mapPartsM q) := by
  cases e with
  | constant _ | var _ | hardware _ => exact .pure _
  | nary _ operands => exact (GoesOn.mapM h operands).bind fun _ => .pure _
  | binary _ left right => exact (h left).bind fun _ => (h right).bind fun _ => .pure _
  | not operand => exact (h operand).bind fun _ => .pure _
  | ite condition onTrue onFalse =>
    exact (h condition).bind fun _ => (h onTrue).bind fun _ => (h onFalse).bind fun _ => .pure _
  | subscript aggregate indices =>
    exact (h aggregate).bind fun _ => (GoesOn.mapM h indices).bind fun _ => .pure _
  | linearSubscript aggregate index =>
    exact (h aggregate).bind fun _ => (h index).bind fun _ => .pure _
  | lookup aggregate _ => exact (h aggregate).bind fun _ => .pure _
  | cast _ operand => exact (h operand).bind fun _ => .pure _
  | call _ args keywords =>
    have hkeyword (kv : String × Expr) := (h kv.2).bind fun c => .pure (kv.1, c)
    exact (GoesOn.mapM h args).bind fun _ =>
      (GoesOn.mapM hkeyword keywords).bind fun _ => .pure _
  | reduction _ _ body => exact (h body).bind fun _ => .pure _
  | tupleReduction _ _ bodies => exact (GoesOn.mapM h bodies).bind fun _ => .pure _
  | view _ body => exact (h body).bind fun _ => .pure _

/-- Every part of a node may be visited although one has failed: with the first fault kept, the
node comes to what it does by stopping there. -/
theorem outcome_mapPartsM {ε : Type} (g : Expr → Except ε Expr) (spare : Expr → Expr) (e : Expr) :
    outcome (e.mapPartsM (keepingFirst g spare)) = e.mapChildrenM g := by
  rw [mapChildrenM_eq_mapPartsM]
  exact (goesOn_mapPartsM (GoesOn.keepingFirst g spare) e).outcome_eq

end Expr

/-! ### Targets and instructions -/

namespace Assignee

/-- The target with `f` done to each index expression, one after the other as they stand in it. -/
def mapPartsM {m : Type → Type} [Monad m] (f : Expr → m Expr) : Assignee → m Assignee
  | var name => return var name
  | subscript name indices => return subscript name (← indices.mapM f)
  | linearSubscript name index => return linearSubscript name (← f index)
  | lookup aggregate field => return lookup (← aggregate.mapPartsM f) field
  | view inames name indices => return view inames name (← indices.mapM f)

theorem mapIndicesM_eq_mapPartsM {m : Type → Type} [Monad m] [LawfulMonad m] (f : Expr → m Expr)
    (a : Assignee) : a.mapIndicesM f = a.mapPartsM f := by
  induction a with
  | lookup aggregate field ih =>
    rw [mapPartsM, ← ih]
    simp [mapIndicesM, indices, withIndices]
  | _ => simp [mapIndicesM, indices, withIndices, mapPartsM]

/-- What a target is rebuilt with are its index expressions, in order. -/
theorem mapIndicesM_noting (f : Expr → Expr) (a : Assignee) (seen : List Expr) :
    (a.mapIndicesM (noting f)).run seen = (a.mapIndices f, seen ++ a.indices) :=
  congrArg (fun p : List Expr × List Expr => (a.withIndices p.1, p.2))
    (mapM_noting f a.indices seen)

theorem mapM_mapIndicesM_noting (f : Expr → Expr) (as : List Assignee) (seen : List Expr) :
    (as.mapM (mapIndicesM (noting f))).run seen =
      (as.map (·.mapIndices f), seen ++ as.flatMap indices) := by
  induction as generalizing seen with
  | nil => exact congrArg (Prod.mk []) (List.append_nil seen).symm
  | cons a as ih =>
    have hrest := ih (seen ++ a.indices)
    rw [List.append_assoc] at hrest
    rw [List.mapM_cons, StateT.run_bind, mapIndicesM_noting]
    exact congrArg (fun p => (a.mapIndices f :: p.1, p.2)) hrest

theorem goesOn_mapIndicesM {ε : Type} {p : Expr → StateM (Option ε) Expr}
    {q : Expr → Except ε Expr} (h : ∀ c, GoesOn (p c) (q c)) (a : Assignee) :
    GoesOn (a.mapIndicesM p) (a.mapIndicesM q) :=
  (GoesOn.mapM h a.indices).bind fun is => .pure (a.withIndices is)

end Assignee

namespace Instruction

/-- What an instruction is rebuilt with are the indices of its targets, and then its value. -/
theorem mapExpressionsM_noting (f : Expr → Expr) (i : Instruction) (seen : List Expr) :
    (i.mapExpressionsM (noting f)).run seen =
      (i.mapExpressions f, seen ++ (i.targets.flatMap Assignee.indices ++ i.value?.toList)) := by
  obtain ⟨id, action⟩ := i
  cases action with
  | assign a e =>
    have hrun : (mapExpressionsM (noting f) ⟨id, .assign a e⟩).run seen =
        ((a.mapIndicesM (noting f)).run seen).map
          (fun a => ⟨id, .assign a (f e)⟩) (· ++ [e]) := rfl
    rw [hrun, Assignee.mapIndicesM_noting]
    simp [mapExpressions, targets, value?]
  | assignAll as e =>
    have hrun : (mapExpressionsM (noting f) ⟨id, .assignAll as e⟩).run seen =
        ((as.mapM (Assignee.mapIndicesM (noting f))).run seen).map
          (fun as => ⟨id, .assignAll as (f e)⟩) (· ++ [e]) := rfl
    rw [hrun, Assignee.mapM_mapIndicesM_noting]
    simp [mapExpressions, targets, value?]
  | barrier | noop | foreign _ _ _ => exact congrArg (Prod.mk _) (List.append_nil seen).symm

/-- The same for an instruction, whatever stands in for what failed. -/
theorem outcome_mapExpressionsM {ε : Type} (g : Expr → Except ε Expr) (spare : Expr → Expr)
    (i : Instruction) : outcome (i.mapExpressionsM (keepingFirst g spare)) = i.mapExpressionsM g := by
  have hg := GoesOn.keepingFirst g spare
  obtain ⟨id, action⟩ := i
  refine GoesOn.outcome_eq ?_
  cases action with
  | assign a e =>
    exact (a.goesOn_mapIndicesM hg).bind fun _ => (hg e).bind fun _ => .pure _
  | assignAll as e =>
    exact (GoesOn.mapM (Assignee.goesOn_mapIndicesM hg) as).bind fun _ => (hg e).bind fun _ => .pure _
  | barrier | noop | foreign _ _ _ => exact .pure _

end Instruction

/-! ### An action after a map -/

section Rebuilt

variable {ε : Type} {f f' : Expr → Except ε Expr} {g h : Expr → Expr}

/-- An action after a map is another action before a map, if it is so at each element. -/
theorem mapM_map_comm {ε α β γ δ : Type} {f : β → Except ε δ} {f' : α → Except ε γ}
    {g : α → β} {h : γ → δ} {xs : List α} (hcomm : ∀ x ∈ xs, f (g x) = (f' x).map h) :
    (xs.map g).mapM f = (xs.mapM f').map (List.map h) := by
  induction xs with
  | nil => rfl
  | cons x xs ih =>
    rw [List.map_cons, List.mapM_cons, List.mapM_cons, hcomm x List.mem_cons_self,
      ih fun y hy => hcomm y (List.mem_cons_of_mem x hy)]
    cases f' x with
    | error fault => rfl
    | ok y => cases xs.mapM f' <;> rfl

theorem Assignee.mapIndicesM_mapIndices (hcomm : ∀ x, f (g x) = (f' x).map h) (a : Assignee) :
    (a.mapIndices g).mapIndicesM f = (a.mapIndicesM f').map (mapIndices h) := by
  have hindices : (a.indices.map g).mapM f = (a.indices.mapM f').map (List.map h) :=
    mapM_map_comm fun x _ => hcomm x
  have hg : (a.indices.map g).length = a.indices.length := List.length_map g
  unfold mapIndicesM
  rw [mapIndices, indices_withIndices hg, hindices]
  cases his : a.indices.mapM f' with
  | error fault => rfl
  | ok is =>
    have hlength : is.length = a.indices.length := (mapM_eq_ok.1 his).length_eq.symm
    have hmap : (is.map h).length = a.indices.length := by simp [hlength]
    refine congrArg Except.ok ?_
    rw [withIndices_withIndices hg hmap, mapIndices, indices_withIndices hlength,
      withIndices_withIndices hlength hmap]

theorem Instruction.mapExpressionsM_mapExpressions (hcomm : ∀ x, f (g x) = (f' x).map h)
    (i : Instruction) :
    (i.mapExpressions g).mapExpressionsM f = (i.mapExpressionsM f').map (mapExpressions h) := by
  obtain ⟨id, action⟩ := i
  cases action with
  | assign a e =>
    simp only [mapExpressions, mapExpressionsM]
    rw [Assignee.mapIndicesM_mapIndices hcomm, hcomm]
    cases a.mapIndicesM f' with
    | error fault => rfl
    | ok b => cases f' e <;> rfl
  | assignAll as e =>
    simp only [mapExpressions, mapExpressionsM]
    rw [mapM_map_comm fun a _ => Assignee.mapIndicesM_mapIndices hcomm a, hcomm]
    cases as.mapM (Assignee.mapIndicesM f') with
    | error fault => rfl
    | ok bs => cases f' e <;> rfl
  | barrier | noop | foreign _ _ _ => rfl

/-- Rebuilding cannot fail where nothing that is done can. -/
theorem Instruction.mapExpressionsM_ok (h : Expr → Expr) (i : Instruction) :
    i.mapExpressionsM (fun x => (.ok (h x) : Except ε Expr)) = .ok (i.mapExpressions h) := by
  have hindices (a : Assignee) :
      a.mapIndicesM (fun x => (.ok (h x) : Except ε Expr)) = .ok (a.mapIndices h) :=
    congrArg (Except.map a.withIndices) (List.mapM_pure (m := Except ε))
  obtain ⟨id, action⟩ := i
  cases action with
  | assign a e =>
    simp only [mapExpressionsM, hindices]
    rfl
  | assignAll as e =>
    have has : as.mapM (Assignee.mapIndicesM fun x => (.ok (h x) : Except ε Expr)) =
        .ok (as.map (Assignee.mapIndices h)) := by
      simp only [funext hindices]
      exact List.mapM_pure (m := Except ε)
    simp only [mapExpressionsM, has]
    rfl
  | barrier | noop | foreign _ _ _ => rfl

/-- Where every expression has one image, so has an instruction. -/
theorem Instruction.maps_iff {R : Expr → Expr → Prop} (hR : ∀ x y, R x y ↔ y = h x)
    {i j : Instruction} : i.Maps R j ↔ j = i.mapExpressions h := by
  have hmaps : i.Maps R j ↔ i.Maps (fun x y => (.ok (h x) : Except Fault Expr) = .ok y) j := by
    constructor
    · exact Maps.imp fun x y hxy => by rw [(hR x y).1 hxy]
    · exact Maps.imp fun x y hxy => (hR x y).2 (Except.ok.inj hxy).symm
  rw [hmaps, ← mapExpressionsM_eq_ok, mapExpressionsM_ok, Except.ok.injEq, eq_comm]

end Rebuilt

/-! ### All traversals -/

/-- **The traversals agree.**  Let `f` be done to each part of a node, and let `g` be done to each
that can fail.

* Rebuilt part by part, an expression is what `mapChildren` gives, and `f` has been done to exactly
  its children, in order.  Nothing done leaves it as it is; otherwise its children are the images of
  what they were.  With `g`, rebuilding fails with the fault of the first child that fails, in order,
  and gives what `mapChildren` does if there is none; it makes no difference whether the children
  after the one that failed are visited too.
* Rebuilt part by part, a target is what `mapIndices` gives, and `f` has been done to exactly its
  index expressions.
* To rebuild an instruction, `f` is done to exactly the expressions that are listed, in some order;
  the variables that it writes stay.  With `g`, it makes no difference either whether the rest is
  visited after a failure. -/
theorem traversals_agree {ε : Type} (f : Expr → Expr) (g : Expr → Except ε Expr) :
    (∀ e : Expr,
      (e.mapPartsM (noting f)).run [] = (e.mapChildren f, e.children) ∧
      e.mapChildren id = e ∧
      (e.mapChildren f).children = e.children.map f ∧
      e.mapChildrenM g = e.mapPartsM g ∧
      (∀ spare, outcome (e.mapPartsM (keepingFirst g spare)) = e.mapChildrenM g) ∧
      e.mapChildrenM g =
        match e.children.findSome? fun c => failure? (g c) with
        | some fault => .error fault
        | none => .ok (e.mapChildren fun c => (g c).toOption.getD c)) ∧
    (∀ a : Assignee, (a.mapPartsM (noting f)).run [] = (a.mapIndices f, a.indices)) ∧
    ∀ i : Instruction,
      (∃ visited, (i.mapExpressionsM (noting f)).run [] = (i.mapExpressions f, visited) ∧
        visited.Perm i.expressions) ∧
      (∀ spare, outcome (i.mapExpressionsM (keepingFirst g spare)) = i.mapExpressionsM g) ∧
      (i.mapExpressions f).writeNames = i.writeNames := by
  refine ⟨fun e => ⟨?_, e.mapChildren_id, e.children_mapChildren f, ?_, ?_, ?_⟩, fun a => ?_,
    fun i => ⟨⟨_, i.mapExpressionsM_noting f [], ?_⟩, ?_, i.writeNames_mapExpressions f⟩⟩
  · exact e.mapPartsM_noting f []
  · exact e.mapChildrenM_eq_mapPartsM g
  · exact fun spare => e.outcome_mapPartsM g spare
  · exact e.mapChildrenM_eq_match g
  · rw [← Assignee.mapIndicesM_eq_mapPartsM]
    exact a.mapIndicesM_noting f []
  · -- the value is listed first and rebuilt last
    rw [List.nil_append]
    exact List.perm_append_comm
  · exact fun spare => i.outcome_mapExpressionsM g spare

end KernelTyping
