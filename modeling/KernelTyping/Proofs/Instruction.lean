import KernelTyping.Instruction
import KernelTyping.Proofs.Outcome

/-!
# KernelTyping.Proofs.Instruction — an instruction and its image under a map of expressions

`Instruction.Maps R i j`: the instructions are alike, and their expressions, place by place, are
related by `R`.  A map that can fail succeeds exactly if it relates the two
(`mapExpressionsM_eq_ok`).
-/

namespace KernelTyping

/-! ### Lists -/

section Forall₂

variable {α β γ : Type} {R : α → β → Prop} {xs : List α} {ys : List β}

theorem forall_right_of_forall₂ {Q : β → Prop} (h : List.Forall₂ R xs ys)
    (hQ : ∀ x ∈ xs, ∀ y, R x y → Q y) : ∀ y ∈ ys, Q y := by
  induction h with
  | nil => simp
  | cons hxy _ ih =>
    simp only [List.mem_cons, forall_eq_or_imp]
    exact ⟨hQ _ (by simp) _ hxy, ih fun x hx => hQ x (by simp [hx])⟩

theorem exists_right_of_forall₂ (h : List.Forall₂ R xs ys) {x : α} (hx : x ∈ xs) :
    ∃ y ∈ ys, R x y := by
  induction h with
  | nil => cases hx
  | @cons _ y _ _ hxy _ ih =>
    rcases List.mem_cons.1 hx with rfl | hx
    · exact ⟨y, by simp, hxy⟩
    · obtain ⟨z, hz, hxz⟩ := ih hx
      exact ⟨z, by simp [hz], hxz⟩

/-- At the places of the two lists, one relation implies the other. -/
theorem forall₂_imp_of_mem {S : α → β → Prop} (h : List.Forall₂ R xs ys)
    (hRS : ∀ x ∈ xs, ∀ y ∈ ys, R x y → S x y) : List.Forall₂ S xs ys := by
  rw [List.forall₂_iff_zip] at h ⊢
  refine ⟨h.1, fun {x y} hxy => ?_⟩
  obtain ⟨hx, hy⟩ := List.of_mem_zip hxy
  exact hRS x hx y hy (h.2 hxy)

/-- What can be completed to a square at every place can be completed for the list. -/
theorem forall₂_square {δ : Type} {S : α → γ → Prop} {T : γ → δ → Prop} {g : β → δ}
    (h : List.Forall₂ R xs ys) (hsquare : ∀ x y, R x y → ∃ z, S x z ∧ T z (g y)) :
    ∃ zs, List.Forall₂ S xs zs ∧ List.Forall₂ T zs (ys.map g) := by
  induction h with
  | nil => exact ⟨[], .nil, .nil⟩
  | cons hxy _ ih =>
    obtain ⟨zs, hS, hT⟩ := ih
    obtain ⟨z, hz, hzy⟩ := hsquare _ _ hxy
    exact ⟨z :: zs, .cons hz hS, .cons hzy hT⟩

end Forall₂

/-! ### Targets -/

namespace Assignee

/-- The targets are alike, and their indices related. -/
def Maps (R : Expr → Expr → Prop) (a b : Assignee) : Prop :=
  ∃ is, List.Forall₂ R a.indices is ∧ b = a.withIndices is

variable {R S T : Expr → Expr → Prop} {a b : Assignee}

theorem Maps.indices (h : a.Maps R b) : List.Forall₂ R a.indices b.indices := by
  obtain ⟨is, h, rfl⟩ := h
  rwa [indices_withIndices h.length_eq.symm]

theorem Maps.imp_of_mem (h : a.Maps R b)
    (hRS : ∀ x ∈ a.indices, ∀ y ∈ b.indices, R x y → S x y) : a.Maps S b := by
  obtain ⟨is, h, rfl⟩ := h
  rw [indices_withIndices h.length_eq.symm] at hRS
  exact ⟨is, forall₂_imp_of_mem h hRS, rfl⟩

theorem withIndices_withIndices {is js : List Expr} (his : is.length = a.indices.length)
    (hjs : js.length = a.indices.length) :
    (a.withIndices is).withIndices js = a.withIndices js := by
  induction a with
  | lookup a field ih =>
    simp only [withIndices]
    rw [ih his hjs]
  | linearSubscript name i =>
    obtain ⟨_, rfl⟩ := List.length_eq_one_iff.1 his
    obtain ⟨_, rfl⟩ := List.length_eq_one_iff.1 hjs
    rfl
  | _ => rfl

theorem Maps.square {g : Expr → Expr} (h : a.Maps R b)
    (hsquare : ∀ x y, R x y → ∃ z, S x z ∧ T z (g y)) :
    ∃ c, a.Maps S c ∧ c.Maps T (b.mapIndices g) := by
  obtain ⟨is, h, rfl⟩ := h
  obtain ⟨js, hS, hT⟩ := forall₂_square h hsquare
  have hjs : js.length = a.indices.length := hS.length_eq.symm
  refine ⟨a.withIndices js, ⟨js, hS, rfl⟩, is.map g, ?_, ?_⟩
  · rwa [indices_withIndices hjs]
  · have his : (is.map g).length = a.indices.length := by simp [h.length_eq]
    rw [mapIndices, indices_withIndices h.length_eq.symm,
      withIndices_withIndices h.length_eq.symm his, withIndices_withIndices hjs his]

theorem mapIndicesM_eq_ok {ε : Type} {f : Expr → Except ε Expr} :
    a.mapIndicesM f = .ok b ↔ a.Maps (fun x y => f x = .ok y) b := by
  unfold mapIndicesM Maps
  rw [bind_eq_ok]
  refine exists_congr fun is => ?_
  rw [mapM_eq_ok]
  exact and_congr_right fun _ => ⟨fun h => (Except.ok.inj h).symm, fun h => h ▸ rfl⟩

theorem maps_eq : a.Maps Eq b ↔ b = a := by
  unfold Maps
  simp only [List.forall₂_eq_eq_eq, exists_eq_left', withIndices_indices]

end Assignee

/-! ### Instructions -/

namespace Instruction

/-- The instructions are alike, and their expressions related. -/
inductive Maps (R : Expr → Expr → Prop) : Instruction → Instruction → Prop where
  | assign {id : String} {a b : Assignee} {e e' : Expr} :
    a.Maps R b → R e e' → Maps R ⟨id, .assign a e⟩ ⟨id, .assign b e'⟩
  | assignAll {id : String} {as bs : List Assignee} {e e' : Expr} :
    List.Forall₂ (Assignee.Maps R) as bs → R e e' →
      Maps R ⟨id, .assignAll as e⟩ ⟨id, .assignAll bs e'⟩
  | oblivious {i : Instruction} : i.value? = none → Maps R i i

variable {R S T : Expr → Expr → Prop} {i j : Instruction}

namespace Maps

theorem id_eq (h : i.Maps R j) : j.id = i.id := by
  cases h <;> rfl

theorem ids_eq {is js : List Instruction} (h : List.Forall₂ (Maps R) is js) :
    js.map (·.id) = is.map (·.id) := by
  induction h with
  | nil => rfl
  | cons h _ ih => rw [List.map_cons, List.map_cons, h.id_eq, ih]

theorem writeNames_eq (h : i.Maps R j) : j.writeNames = i.writeNames := by
  have hname {a b : Assignee} (h : a.Maps R b) : b.varName = a.varName := by
    obtain ⟨is, -, rfl⟩ := h
    exact a.varName_withIndices is
  cases h with
  | assign ha _ => simp [writeNames, targets, hname ha]
  | assignAll h _ =>
    simp only [writeNames, targets]
    induction h with
    | nil => rfl
    | cons ha _ ih => rw [List.map_cons, List.map_cons, hname ha, ih]
  | oblivious _ => rfl

theorem indices {as bs : List Assignee} (h : List.Forall₂ (Assignee.Maps R) as bs) :
    List.Forall₂ R (as.flatMap Assignee.indices) (bs.flatMap Assignee.indices) := by
  induction h with
  | nil => exact .nil
  | cons h _ ih =>
    rw [List.flatMap_cons, List.flatMap_cons]
    exact List.rel_append h.indices ih

theorem expressions (h : i.Maps R j) : List.Forall₂ R i.expressions j.expressions := by
  cases h with
  | assign ha he => exact .cons he (by simpa [targets] using ha.indices)
  | assignAll h he => exact .cons he (indices h)
  | oblivious h =>
    have hnone : i.expressions = [] := by
      obtain ⟨id, action⟩ := i
      cases action <;> simp_all [Instruction.expressions, value?, targets]
    rw [hnone]
    exact .nil

theorem eq (h : i.Maps Eq j) : j = i := by
  cases h with
  | assign ha he => rw [Assignee.maps_eq.1 ha, he]
  | @assignAll _ as bs _ _ h he =>
    have hbs : List.Forall₂ Eq as bs := h.imp fun _ _ h => (Assignee.maps_eq.1 h).symm
    rw [List.forall₂_eq_eq_eq] at hbs
    rw [hbs, he]
  | oblivious => rfl

/-- An instruction is related to itself exactly if all of its expressions are. -/
theorem self_iff : i.Maps R i ↔ ∀ e ∈ i.expressions, R e e := by
  refine ⟨fun h => List.forall₂_same.1 h.expressions, fun h => ?_⟩
  have ha (a : Assignee) (h : ∀ e ∈ a.indices, R e e) : a.Maps R a :=
    ⟨a.indices, List.forall₂_same.2 h, a.withIndices_indices.symm⟩
  obtain ⟨id, action⟩ := i
  cases action with
  | assign a e =>
    refine .assign (ha a fun x hx => h x ?_) (h e ?_) <;>
      simp_all [Instruction.expressions, value?, targets]
  | assignAll as e =>
    refine .assignAll (List.forall₂_same.2 fun a has => ha a fun x hx => h x ?_) (h e ?_)
    · exact List.mem_append_right _ (List.mem_flatMap.2 ⟨a, has, hx⟩)
    · simp [Instruction.expressions, value?]
  | barrier | noop | foreign _ _ _ => exact .oblivious rfl

theorem refl (hR : ∀ e, R e e) (i : Instruction) : i.Maps R i := self_iff.2 fun e _ => hR e

theorem imp_of_mem (h : i.Maps R j)
    (hRS : ∀ x ∈ i.expressions, ∀ y ∈ j.expressions, R x y → S x y) : i.Maps S j := by
  cases h with
  | assign ha he =>
    simp only [Instruction.expressions, value?, targets] at hRS
    refine .assign (ha.imp_of_mem fun x hx y hy => hRS x ?_ y ?_) (hRS _ ?_ _ ?_ he) <;>
      simp_all
  | @assignAll id as bs e e' h he =>
    refine .assignAll (forall₂_imp_of_mem h fun a has b hbs hab =>
      hab.imp_of_mem fun x hx y hy => hRS x ?_ y ?_) (hRS _ ?_ _ ?_ he)
    · exact List.mem_append_right _ (List.mem_flatMap.2 ⟨a, has, hx⟩)
    · exact List.mem_append_right _ (List.mem_flatMap.2 ⟨b, hbs, hy⟩)
    all_goals simp [Instruction.expressions, value?]
  | oblivious h => exact .oblivious h

theorem imp (hRS : ∀ x y, R x y → S x y) (h : i.Maps R j) : i.Maps S j :=
  h.imp_of_mem fun x _ y _ => hRS x y

theorem square {g : Expr → Expr} (h : i.Maps R j)
    (hsquare : ∀ x y, R x y → ∃ z, S x z ∧ T z (g y)) :
    ∃ c, i.Maps S c ∧ c.Maps T (j.mapExpressions g) := by
  cases h with
  | assign ha he =>
    obtain ⟨c, hS, hT⟩ := ha.square hsquare
    obtain ⟨z, hz, hzy⟩ := hsquare _ _ he
    exact ⟨_, .assign hS hz, .assign hT hzy⟩
  | assignAll h he =>
    obtain ⟨cs, hS, hT⟩ := forall₂_square (g := Assignee.mapIndices g) h fun a b h =>
      h.square hsquare
    obtain ⟨z, hz, hzy⟩ := hsquare _ _ he
    exact ⟨_, .assignAll hS hz, .assignAll hT hzy⟩
  | oblivious h =>
    have hsame : i.mapExpressions g = i := by
      obtain ⟨id, action⟩ := i
      cases action <;> simp_all [mapExpressions, value?]
    exact ⟨i, .oblivious h, hsame.symm ▸ .oblivious h⟩

end Maps

theorem mapExpressionsM_eq_ok {ε : Type} {f : Expr → Except ε Expr} :
    i.mapExpressionsM f = .ok j ↔ i.Maps (fun x y => f x = .ok y) j := by
  obtain ⟨id, action⟩ := i
  constructor
  · intro h
    cases action with
    | assign a e =>
      obtain ⟨b, hb, h⟩ := bind_eq_ok.1 h
      obtain ⟨e', he, h⟩ := bind_eq_ok.1 h
      obtain rfl := Except.ok.inj h
      exact .assign (Assignee.mapIndicesM_eq_ok.1 hb) he
    | assignAll as e =>
      obtain ⟨bs, hbs, h⟩ := bind_eq_ok.1 h
      obtain ⟨e', he, h⟩ := bind_eq_ok.1 h
      obtain rfl := Except.ok.inj h
      exact .assignAll ((mapM_eq_ok.1 hbs).imp fun _ _ => Assignee.mapIndicesM_eq_ok.1) he
    | barrier | noop | foreign _ _ _ =>
      obtain rfl := Except.ok.inj h
      exact .oblivious rfl
  · intro h
    cases h with
    | assign ha he =>
      exact bind_eq_ok.2 ⟨_, Assignee.mapIndicesM_eq_ok.2 ha, bind_eq_ok.2 ⟨_, he, rfl⟩⟩
    | assignAll h he =>
      have hbs := mapM_eq_ok.2 (h.imp fun _ _ => Assignee.mapIndicesM_eq_ok.2)
      exact bind_eq_ok.2 ⟨_, hbs, bind_eq_ok.2 ⟨_, he, rfl⟩⟩
    | oblivious h =>
      cases action with
      | assign _ _ | assignAll _ _ => cases h
      | barrier | noop | foreign _ _ _ => rfl

@[simp] theorem id_mapExpressions (f : Expr → Expr) (i : Instruction) :
    (i.mapExpressions f).id = i.id := by
  obtain ⟨id, action⟩ := i
  cases action <;> rfl

theorem expressions_mapExpressions (f : Expr → Expr) (i : Instruction) :
    (i.mapExpressions f).expressions = i.expressions.map f := by
  have hindices (a : Assignee) : (a.mapIndices f).indices = a.indices.map f :=
    Assignee.indices_withIndices (by simp)
  obtain ⟨id, action⟩ := i
  cases action <;>
    simp [mapExpressions, expressions, value?, targets, hindices, List.flatMap_map,
      List.map_flatMap]

theorem mapExpressions_mapExpressions (f g : Expr → Expr) (i : Instruction) :
    (i.mapExpressions f).mapExpressions g = i.mapExpressions fun e => g (f e) := by
  have hindices (a : Assignee) : (a.mapIndices f).mapIndices g = a.mapIndices fun e => g (f e) := by
    have hf : (a.indices.map f).length = a.indices.length := List.length_map f
    rw [Assignee.mapIndices, Assignee.mapIndices, Assignee.indices_withIndices hf, List.map_map,
      Assignee.withIndices_withIndices hf (List.length_map _)]
    rfl
  obtain ⟨id, action⟩ := i
  cases action <;> simp [mapExpressions, hindices]

end Instruction

end KernelTyping
