import KernelTyping.Callable.Specialization
import KernelTyping.Proofs.Instruction
import KernelTyping.Proofs.Kernel
import KernelTyping.Proofs.Signature

/-!
# KernelTyping.Proofs.Callable — whether a callable has results

A generic callable has results as soon as the types of its arguments are known, whatever they are.

* `KnownToo a b`: if `a` is known, so is `b`.  Call sites and kernels are compared slot by slot and
  variable by variable (`Incoming.KnownIn`, `Kernel.KnownIn`).
* A kernel that receives types knows the more the more is passed (`Kernel.knownIn_receiveAll`), and
  has results exactly if it has outputs (`Kernel.results_eq_nil_iff`).
* So a builtin or kernel has results for a call site if it has some for one that knows less
  (`Callable.knownToo_of_specialize`).
-/

namespace KernelTyping

/-! ### Known as well -/

section KnownToo

variable {α β κ : Type}

/-- If the first is known, then so is the second. -/
def KnownToo (a : Option α) (b : Option β) : Prop := a.isSome = true → b.isSome = true

theorem KnownToo.some (a : Option α) (b : β) : KnownToo a (some b) := fun _ => rfl

theorem KnownToo.none (b : Option β) : KnownToo (none : Option α) b := nofun

theorem knownToo_of_eq_none {a : Option α} {b : Option β} (h : b = .none → a = .none) :
    KnownToo a b := by
  cases b with
  | none => simp [h rfl, KnownToo.none]
  | some b => exact .some a b

theorem KnownToo.eq_none {a : Option α} {b : Option β} (h : KnownToo a b) (hb : b = .none) :
    a = .none := by
  subst hb
  simpa [KnownToo] using h

theorem isSome_mapM_id {xs : List (Option α)} :
    (xs.mapM id).isSome = true ↔ ∀ x ∈ xs, x.isSome = true := by
  induction xs with
  | nil => simp
  | cons x xs ih =>
    rw [List.mapM_cons, List.forall_mem_cons, ← ih]
    cases x with
    | none => simp
    | some a => cases xs.mapM id <;> simp

/-- If all of a list are known, then so are all of a list in which more is known. -/
theorem knownToo_mapM_id {xs : List (Option α)} {ys : List (Option β)}
    (h : List.Forall₂ KnownToo xs ys) : KnownToo (xs.mapM id) (ys.mapM id) := by
  intro hxs
  rw [isSome_mapM_id] at hxs ⊢
  exact forall_right_of_forall₂ h fun x hx y hxy => hxy (hxs x hx)

/-- Lists under the same names. -/
theorem forall₂_zip {R : α → β → Prop} {xs : List α} {ys : List β} (h : List.Forall₂ R xs ys)
    (ks : List κ) :
    List.Forall₂ (fun p q => p.1 = q.1 ∧ R p.2 q.2) (ks.zip xs) (ks.zip ys) := by
  induction h generalizing ks with
  | nil => simp
  | cons hxy _ ih =>
    cases ks with
    | nil => simp
    | cons k ks => exact .cons ⟨rfl, hxy⟩ (ih ks)

theorem forall₂_zipIdx {R : α → β → Prop} {xs : List α} {ys : List β} (h : List.Forall₂ R xs ys)
    (n : Nat) : List.Forall₂ (fun p q => p.2 = q.2 ∧ R p.1 q.1) (xs.zipIdx n) (ys.zipIdx n) := by
  induction h generalizing n with
  | nil => exact .nil
  | cons hxy _ ih => exact .cons ⟨rfl, hxy⟩ (ih (n + 1))

end KnownToo

/-! ### Call sites -/

namespace Incoming

/-- The call sites pass the same slots, and what the first knows of one the second does too. -/
def KnownIn (a b : Incoming) : Prop :=
  ∀ slot : Slot, Option.Rel KnownToo a[slot]? b[slot]?

variable {a b : Incoming}

theorem KnownIn.insert (h : a.KnownIn b) (slot : Slot) {p q : Option ElementType}
    (hpq : KnownToo p q) : KnownIn (a.insert slot p) (b.insert slot q) := by
  intro other
  rw [Std.ExtTreeMap.getElem?_insert, Std.ExtTreeMap.getElem?_insert]
  split
  · exact .some hpq
  · exact h other

theorem knownIn_foldl {κ : Type} {slot : κ → Slot} {value : κ → Option ElementType}
    {xs ys : List κ} (hab : a.KnownIn b)
    (h : List.Forall₂ (fun p q => slot p = slot q ∧ KnownToo (value p) (value q)) xs ys) :
    KnownIn (xs.foldl (fun m p => m.insert (slot p) (value p)) a)
      (ys.foldl (fun m p => m.insert (slot p) (value p)) b) := by
  induction h generalizing a b with
  | nil => exact hab
  | cons hpq _ ih =>
    obtain ⟨hslot, hpq⟩ := hpq
    rw [List.foldl_cons, List.foldl_cons, ← hslot]
    exact ih (hab.insert _ hpq)

theorem knownIn_ofArguments {xs ys : List (Option ElementType)}
    {named named' : List (String × Option ElementType)}
    (h : List.Forall₂ KnownToo xs ys)
    (hnamed : List.Forall₂ (fun p q => p.1 = q.1 ∧ KnownToo p.2 q.2) named named') :
    (ofArguments xs named).KnownIn (ofArguments ys named') := by
  refine knownIn_foldl (knownIn_foldl (fun slot => ?_) ?_) ?_
  · simp
  · exact (forall₂_zipIdx h 0).imp fun p q hpq => ⟨congrArg Slot.input hpq.1, hpq.2⟩
  · exact hnamed.imp fun p q hpq => ⟨congrArg Slot.keyword hpq.1, hpq.2⟩

/-- The second call site, slot by slot of the first. -/
theorem KnownIn.eq_map (h : a.KnownIn b) : b = a.map fun slot _ => b[slot]?.join := by
  refine Std.ExtTreeMap.ext_getElem? fun slot => ?_
  rw [Std.ExtTreeMap.getElem?_map]
  have hslot := h slot
  generalize a[slot]? = p at hslot ⊢
  generalize b[slot]? = q at hslot ⊢
  cases hslot <;> rfl

theorem KnownIn.keys_eq (h : a.KnownIn b) : b.keys = a.keys := by
  rw [h.eq_map, Std.ExtTreeMap.keys_map]

theorem KnownIn.toList (h : a.KnownIn b) :
    List.Forall₂ (fun p q => p.1 = q.1 ∧ KnownToo p.2 q.2) a.toList b.toList := by
  rw [h.eq_map, Std.ExtTreeMap.toList_map, List.forall₂_map_right_iff]
  refine List.forall₂_same.2 fun p hp => ⟨rfl, ?_⟩
  have hslot := h p.1
  rw [Std.ExtTreeMap.mem_toList_iff_getElem?_eq_some.1 hp] at hslot
  generalize b[p.1]? = q at hslot ⊢
  cases hslot with
  | some hpq => exact hpq

theorem KnownIn.positional (h : a.KnownIn b) :
    List.Forall₂ KnownToo a.positional b.positional := by
  have hcount : b.inputCount = a.inputCount := by rw [inputCount, h.keys_eq, inputCount]
  unfold Incoming.positional
  rw [hcount, List.forall₂_map_left_iff, List.forall₂_map_right_iff]
  refine List.forall₂_same.2 fun i _ => ?_
  have hslot := h (.input i)
  generalize a[Slot.input i]? = p at hslot ⊢
  generalize b[Slot.input i]? = q at hslot ⊢
  cases hslot with
  | none => exact .none _
  | some hpq => exact hpq

end Incoming

/-! ### Kernels that receive types -/

/-- The variables are the same, and the second has a type if the first does. -/
structure Variable.KnownIn (v w : Variable) : Prop where
  name : v.name = w.name
  role : v.role = w.role
  known : v.dtype.isKnown = true → w.dtype.isKnown = true

/-- The variable with a passed type, if it has none of its own. -/
def Variable.receive (type : ElementType) (v : Variable) : Variable :=
  if v.dtype.isKnown then v else { v with dtype := .known type }

theorem Variable.knownIn_receive (v : Variable) (type : ElementType) :
    v.KnownIn (v.receive type) := by
  unfold receive
  split
  · exact ⟨rfl, rfl, id⟩
  · exact ⟨rfl, rfl, fun _ => rfl⟩

theorem Variable.isKnown_receive (v : Variable) (type : ElementType) :
    (v.receive type).dtype.isKnown = true := by
  unfold receive
  split
  · assumption
  · rfl

theorem Variable.KnownIn.trans {u v w : Variable} (huv : u.KnownIn v) (hvw : v.KnownIn w) :
    u.KnownIn w :=
  ⟨huv.name.trans hvw.name, huv.role.trans hvw.role, hvw.known ∘ huv.known⟩

namespace Kernel

/-- The kernels have the same variables, and those with a type in the first have one in the
second. -/
structure KnownIn (k l : Kernel) : Prop where
  args : List.Forall₂ Variable.KnownIn k.args l.args
  temporaries : List.Forall₂ Variable.KnownIn k.temporaries l.temporaries

variable {k l k' l' : Kernel} {f g : Variable → Variable}

theorem KnownIn.refl (k : Kernel) : k.KnownIn k :=
  ⟨List.forall₂_same.2 fun _ _ => ⟨rfl, rfl, id⟩, List.forall₂_same.2 fun _ _ => ⟨rfl, rfl, id⟩⟩

section Lists

variable {vs ws : List Variable}

theorem any_name_eq (h : List.Forall₂ Variable.KnownIn vs ws) (name : String) :
    vs.any (·.name == name) = ws.any (·.name == name) := by
  induction h with
  | nil => rfl
  | cons hvw _ ih => rw [List.any_cons, List.any_cons, hvw.name, ih]

theorem forall₂_modify_findIdx (h : List.Forall₂ Variable.KnownIn vs ws)
    (hfg : ∀ v w, v.KnownIn w → (f v).KnownIn (g w)) (name : String) :
    List.Forall₂ Variable.KnownIn (vs.modify (vs.findIdx (·.name == name)) f)
      (ws.modify (ws.findIdx (·.name == name)) g) := by
  induction h with
  | nil => exact .nil
  | @cons v w vs ws hvw hrest ih =>
    rw [List.findIdx_cons, List.findIdx_cons, hvw.name]
    cases w.name == name with
    | true => exact .cons (hfg v w hvw) hrest
    | false => exact .cons hvw ih

theorem modify_findIdx_congr {name : String}
    (hfg : ∀ v, vs.find? (·.name == name) = some v → f v = g v) :
    vs.modify (vs.findIdx (·.name == name)) f = vs.modify (vs.findIdx (·.name == name)) g := by
  induction vs with
  | nil => rfl
  | cons v vs ih =>
    rw [List.findIdx_cons]
    rw [List.find?_cons] at hfg
    cases hname : v.name == name with
    | true =>
      rw [hname] at hfg
      simp only [cond_true, List.modify_zero_cons, hfg v rfl]
    | false =>
      rw [hname] at hfg
      simp only [cond_false, List.modify_succ_cons, ih hfg]

end Lists

theorem KnownIn.modifyVariable (h : k.KnownIn l)
    (hfg : ∀ v w, v.KnownIn w → (f v).KnownIn (g w)) (name : String) :
    (k.modifyVariable name f).KnownIn (l.modifyVariable name g) := by
  unfold Kernel.modifyVariable
  rw [any_name_eq h.args]
  split
  · exact ⟨forall₂_modify_findIdx h.args hfg name, h.temporaries⟩
  · exact ⟨h.args, forall₂_modify_findIdx h.temporaries hfg name⟩

theorem modifyVariable_congr {name : String}
    (hfg : ∀ v, k.findVariable? name = some v → f v = g v) :
    k.modifyVariable name f = k.modifyVariable name g := by
  unfold findVariable? at hfg
  unfold modifyVariable
  rw [any_eq_isSome_find?]
  cases hargs : k.args.find? (·.name == name) with
  | some v =>
    rw [hargs, Option.some_or] at hfg
    have hargs' : ∀ w, k.args.find? (·.name == name) = some w → f w = g w := by
      rw [hargs]
      exact hfg
    simp only [Option.isSome_some, if_true, modify_findIdx_congr hargs']
  | none =>
    rw [hargs, Option.none_or] at hfg
    simp [modify_findIdx_congr hfg]

theorem modifyVariable_id (k : Kernel) (name : String) : k.modifyVariable name id = k := by
  unfold modifyVariable
  split <;> simp

/-- A passed type changes the first variable of the name, if that has none. -/
theorem declare_eq (k : Kernel) (name : String) (type : ElementType) :
    k.declare name type = k.modifyVariable name (.receive type) := by
  unfold declare
  split
  case h_1 v hv =>
    split
    case isTrue hknown =>
      refine (k.modifyVariable_id name).symm.trans (modifyVariable_congr fun w hw => ?_)
      obtain rfl := Option.some.inj (hv.symm.trans hw)
      rw [Variable.receive, if_pos hknown, id]
    case isFalse hopen =>
      refine modifyVariable_congr fun w hw => ?_
      obtain rfl := Option.some.inj (hv.symm.trans hw)
      rw [Variable.receive, if_neg hopen]
  case h_2 hnone =>
    refine (k.modifyVariable_id name).symm.trans (modifyVariable_congr fun w hw => ?_)
    cases hnone.symm.trans hw

/-- The second kernel receives a type. -/
theorem KnownIn.declare_right (h : k.KnownIn l) (name : String) (type : ElementType) :
    k.KnownIn (l.declare name type) := by
  rw [← k.modifyVariable_id name, declare_eq]
  exact h.modifyVariable (fun v w hvw => hvw.trans (w.knownIn_receive type)) name

/-- Both kernels receive a type for the same name. -/
theorem KnownIn.declare (h : k.KnownIn l) (name : String) (type type' : ElementType) :
    (k.declare name type).KnownIn (l.declare name type') := by
  rw [declare_eq, declare_eq]
  refine h.modifyVariable (fun v w hvw => ?_) name
  have hv := v.knownIn_receive type
  have hw := hvw.trans (w.knownIn_receive type')
  exact ⟨hv.name.symm.trans hw.name, hv.role.symm.trans hw.role, fun _ => w.isKnown_receive type'⟩

theorem KnownIn.withTypes (h : k.KnownIn l) (types : List (String × ElementType)) :
    k.KnownIn (l.withTypes types) := by
  induction types generalizing l with
  | nil => exact h
  | cons entry types ih =>
    refine ih ?_
    rw [← k.modifyVariable_id entry.1]
    refine h.modifyVariable (g := fun v => { v with dtype := .known entry.2 }) ?_ entry.1
    exact fun v w hvw => ⟨hvw.name, hvw.role, fun _ => rfl⟩

/-! ### What a call site passes -/

/-- The input that a slot stands for. -/
def slotName? (inputs : List String) : Slot → Option String
  | .position i => if i < 0 then none else inputs[i.toNat]?
  | .keyword name => if name ∈ inputs then some name else none

/-- The kernel with a passed type for one of its inputs, if there is both. -/
def declare? (k : Kernel) : Option String → Option ElementType → Kernel
  | some name, some type => k.declare name type
  | some _, none | none, _ => k

theorem eq_declare?_of_receive {inputs : List String} {slot : Slot} {passed : Option ElementType}
    (h : k.receive inputs slot passed = .ok k') :
    k' = k.declare? (slotName? inputs slot) passed := by
  unfold receive at h
  split at h
  case h_1 =>
    obtain rfl := Except.ok.inj h
    cases slotName? inputs slot <;> rfl
  case h_2 type i =>
    rw [slotName?]
    split at h
    case isTrue hneg =>
      rw [if_pos hneg]
      exact (Except.ok.inj h).symm
    case isFalse hneg =>
      rw [if_neg hneg]
      split at h
      case h_1 name hname =>
        rw [hname]
        exact (Except.ok.inj h).symm
      case h_2 => cases h
  case h_3 type name =>
    rw [slotName?]
    split at h
    case isTrue hname =>
      rw [if_pos hname]
      exact (Except.ok.inj h).symm
    case isFalse => cases h

theorem KnownIn.declare? (h : k.KnownIn l) (name? : Option String) {p q : Option ElementType}
    (hpq : KnownToo p q) : (k.declare? name? p).KnownIn (l.declare? name? q) := by
  match name?, p, q, hpq with
  | none, _, _, _ => exact h
  | some _, none, none, _ => exact h
  | some name, none, some type, _ => exact h.declare_right name type
  | some _, some _, none, hpq => cases hpq rfl
  | some name, some type, some type', _ => exact h.declare name type type'

theorem KnownIn.foldlM_receive {inputs : List String} {xs ys : List (Slot × Option ElementType)}
    (h : k.KnownIn l)
    (hpassed : List.Forall₂ (fun p q => p.1 = q.1 ∧ KnownToo p.2 q.2) xs ys)
    (hk : xs.foldlM (fun k p => k.receive inputs p.1 p.2) k = .ok k')
    (hl : ys.foldlM (fun l p => l.receive inputs p.1 p.2) l = .ok l') : k'.KnownIn l' := by
  induction hpassed generalizing k l with
  | nil =>
    obtain rfl := Except.ok.inj hk
    obtain rfl := Except.ok.inj hl
    exact h
  | cons hpq _ ih =>
    obtain ⟨hslot, hpq⟩ := hpq
    rw [List.foldlM_cons] at hk hl
    obtain ⟨k₁, hk₁, hk⟩ := bind_eq_ok.1 hk
    obtain ⟨l₁, hl₁, hl⟩ := bind_eq_ok.1 hl
    refine ih ?_ hk hl
    rw [eq_declare?_of_receive hk₁, eq_declare?_of_receive hl₁, ← hslot]
    exact h.declare? _ hpq

/-- A callee knows of an input if it does so for another call site that knows less. -/
theorem knownIn_receiveAll {a b : Incoming} (hab : a.KnownIn b) (hk : k.receiveAll a = .ok k')
    (hl : k.receiveAll b = .ok l') : k'.KnownIn l' :=
  (KnownIn.refl k).foldlM_receive hab.toList hk hl

theorem outputs_eq_nil_iff : k.outputs = [] ↔ Role.output ∉ k.args.map (·.role) := by
  simp [outputs, List.filter_eq_nil_iff, Variable.isOutput]

theorem KnownIn.outputs_eq_nil_iff (h : k.KnownIn l) : k.outputs = [] ↔ l.outputs = [] := by
  have hroles : k.args.map (·.role) = l.args.map (·.role) := by
    rw [← List.forall₂_eq_eq_eq, List.forall₂_map_left_iff, List.forall₂_map_right_iff]
    exact h.args.imp fun v w hvw => hvw.role
  rw [Kernel.outputs_eq_nil_iff, Kernel.outputs_eq_nil_iff, hroles]

theorem any_inputs_eq_false_iff :
    k.inputs.any (!·.dtype.isKnown) = false ↔
      ∀ v ∈ k.args, v.isOutput = false → v.dtype.isKnown = true := by
  simp [inputs]

theorem KnownIn.inputs (h : k.KnownIn l) (hk : k.inputs.any (!·.dtype.isKnown) = false) :
    l.inputs.any (!·.dtype.isKnown) = false := by
  rw [any_inputs_eq_false_iff] at hk ⊢
  refine forall_right_of_forall₂ h.args fun v hv w hvw hw => hvw.known (hk v hv ?_)
  rwa [Variable.isOutput, hvw.role]

end Kernel

/-! ### Results -/

/-- A signature has results exactly if it has a first one. -/
theorem Signature.results_eq_nil_iff {s : Signature} :
    s.results = [] ↔ s[Slot.result 0]? = none := by
  cases hsize : s.size with
  | zero =>
    refine iff_of_true (by rw [results, hsize]; rfl) ?_
    by_contra hsome
    have hfirst : 1 ≤ s.size := length_le_size fun i hi => by
      obtain rfl : i = 0 := by omega
      exact Option.isSome_iff_ne_none.2 hsome
    omega
  | succ n =>
    rw [results, hsize]
    rw [List.range_succ_eq_map, List.map_cons]
    cases s[Slot.result 0]? with
    | none => simp
    | some type => simp

theorem Signature.results_ofList_eq_nil_iff {types : List (Slot × ElementType)} :
    results (.ofList types) = [] ↔ Slot.result 0 ∉ types.map (·.1) := by
  rw [results_eq_nil_iff, ← Option.not_isSome_iff_eq_none,
    Std.ExtTreeMap.isSome_getElem?_iff_mem, Std.ExtTreeMap.mem_ofList, List.contains_iff_mem]

/-- A typed kernel has results exactly if it has outputs. -/
theorem Kernel.results_eq_nil_iff {k : Kernel} {signature : Signature}
    (h : k.signature = .ok signature) : signature.results = [] ↔ k.outputs = [] := by
  obtain ⟨slots, hslots, h⟩ := bind_eq_ok.1 h
  obtain rfl := Except.ok.inj h
  rw [mapM_eq_ok] at hslots
  rw [Signature.results_ofList_eq_nil_iff, List.map_append, List.mem_append]
  generalize k.outputs = outputs at hslots ⊢
  cases outputs with
  | nil =>
    obtain rfl := List.forall₂_nil_left_iff.1 hslots
    simp [Slot.input_ne_result]
  | cons v vs =>
    obtain ⟨slot, slots, hslot, -, rfl⟩ := List.forall₂_cons_left_iff.1 hslots
    have hfirst : slot.1 = .result 0 := by
      replace hslot : k.outputSlot v 0 = .ok slot := hslot
      unfold outputSlot at hslot
      cases htype : v.dtype.known? with
      | none =>
        rw [htype] at hslot
        cases hslot
      | some type =>
        rw [htype] at hslot
        rw [← Except.ok.inj hslot]
    simp [hfirst]

namespace Callable

variable {target : Target} {infer : Inference} {caller : Kernel} {c c₁ c₂ : Callable}
  {a b : Incoming} {t t' u u' : Table}

theorem isSome_results?_iff :
    c.results?.isSome = true ↔
      ∃ signature, c.signature = some signature ∧ signature.results ≠ [] := by
  unfold results?
  cases c.signature with
  | none => simp
  | some signature =>
    simp only [Option.map_some, Option.some.injEq, exists_eq_left']
    generalize signature.results = types
    cases types <;> simp

/-- A builtin has results once the types of its arguments are known. -/
theorem specialize_builtin_spec {f : Builtin} {args : List (Option ElementType)}
    {found : Option Signature} (h : f.specialize args = .ok found) :
    found = none ∧ args.mapM id = none ∨
      ∃ signature, found = some signature ∧ signature.results ≠ [] ∧
        (args.mapM id).isSome = true := by
  unfold Builtin.specialize at h
  split at h
  case isTrue => cases h
  case isFalse hlength =>
    split at h
    case h_1 hnone => exact .inl ⟨(Except.ok.inj h).symm, hnone⟩
    case h_2 hnil =>
      -- every builtin takes arguments
      have hargs : args = [] := by
        cases args with
        | nil => rfl
        | cons arg args =>
          rw [List.mapM_cons] at hnil
          cases arg <;> cases hrest : args.mapM id <;> simp [hrest] at hnil
      rw [hargs] at hlength
      exact absurd hlength (by cases f <;> simp [Builtin.arity])
    case h_3 first rest hsome =>
      obtain ⟨common, -, h⟩ := bind_eq_ok.1 h
      obtain ⟨⟨arg, result⟩, -, h⟩ := bind_eq_ok.1 h
      refine .inr ⟨_, (Except.ok.inj h).symm, ?_, by rw [hsome]; rfl⟩
      rw [Signature.results_ofLists]
      exact List.cons_ne_nil _ _

theorem positional_eq_ok {args : List (Option ElementType)} (h : c.positional a = .ok args) :
    args = a.positional := by
  unfold positional at h
  split at h
  · cases h
  · exact (Except.ok.inj h).symm

theorem knownToo_specializeBuiltin {f : Builtin} (hc : c.signature = none) (hab : a.KnownIn b)
    (h₁ : c.specializeBuiltin f a = .ok c₁) (h₂ : c.specializeBuiltin f b = .ok c₂) :
    KnownToo c₁.results? c₂.results? := by
  have hresults {a : Incoming} {c' : Callable} (h : c.specializeBuiltin f a = .ok c') :
      c'.results?.isSome = (a.positional.mapM id).isSome := by
    obtain ⟨args, hargs, h⟩ := bind_eq_ok.1 h
    obtain rfl := positional_eq_ok hargs
    obtain ⟨found, hfound, h⟩ := bind_eq_ok.1 h
    rcases specialize_builtin_spec hfound with ⟨rfl, hnone⟩ | ⟨signature, rfl, hsome, hknown⟩
    · obtain rfl := Except.ok.inj h
      rw [hnone, results?, hc]
      rfl
    · obtain rfl := Except.ok.inj h
      rw [hknown, isSome_results?_iff]
      exact ⟨signature, rfl, hsome⟩
  intro hknown
  rw [hresults h₁] at hknown
  rw [hresults h₂]
  exact knownToo_mapM_id hab.positional hknown

/-- A kernel has results once its inputs are known, if it has outputs at all. -/
theorem knownToo_specializeKernel (hinfer : ∀ ⦃k t k' t'⦄, infer k t = .ok (k', t') → k.KnownIn k')
    {k : Kernel} (hc : c.signature = none) (hab : a.KnownIn b)
    (h₁ : c.specializeKernel infer k a t = .ok (c₁, t'))
    (h₂ : c.specializeKernel infer k b u = .ok (c₂, u')) :
    KnownToo c₁.results? c₂.results? := by
  intro hknown
  obtain ⟨k₁, hk₁, h₁⟩ := bind_eq_ok.1 h₁
  obtain ⟨k₂, hk₂, h₂⟩ := bind_eq_ok.1 h₂
  have hk := Kernel.knownIn_receiveAll hab (Outcome.lift_eq_ok.1 hk₁) (Outcome.lift_eq_ok.1 hk₂)
  obtain ⟨s₁, hs₁, hnonempty⟩ := isSome_results?_iff.1 hknown
  split at h₁
  case isTrue =>
    obtain ⟨rfl, -⟩ := Prod.mk.inj (Except.ok.inj h₁)
    cases hc.symm.trans hs₁
  case isFalse hinputs =>
    rw [if_neg (by simpa using hk.inputs (by simpa using hinputs))] at h₂
    obtain ⟨⟨typed₁, v₁⟩, htyped₁, h₁⟩ := bind_eq_ok.1 h₁
    obtain ⟨signature₁, hsignature₁, h₁⟩ := bind_eq_ok.1 h₁
    obtain ⟨rfl, -⟩ := Prod.mk.inj (Except.ok.inj h₁)
    obtain ⟨⟨typed₂, v₂⟩, htyped₂, h₂⟩ := bind_eq_ok.1 h₂
    obtain ⟨signature₂, hsignature₂, h₂⟩ := bind_eq_ok.1 h₂
    obtain ⟨rfl, -⟩ := Prod.mk.inj (Except.ok.inj h₂)
    obtain rfl := Option.some.inj hs₁
    refine isSome_results?_iff.2 ⟨signature₂, rfl, ?_⟩
    rw [ne_eq, Kernel.results_eq_nil_iff (Outcome.lift_eq_ok.1 hsignature₁),
      ← (hinfer htyped₁).outputs_eq_nil_iff] at hnonempty
    rwa [ne_eq, Kernel.results_eq_nil_iff (Outcome.lift_eq_ok.1 hsignature₂),
      ← (hinfer htyped₂).outputs_eq_nil_iff, ← hk.outputs_eq_nil_iff]

/-- A generic callable that is no matched function has results for a call site if it has some for
one that knows less. -/
theorem knownToo_of_specialize (hinfer : ∀ ⦃k t k' t'⦄, infer k t = .ok (k', t') → k.KnownIn k')
    (hc : c.signature = none)
    (hmatched : ∀ matcher spelling, c.implementation ≠ .matched matcher spelling)
    (hab : a.KnownIn b) (h₁ : c.specialize target infer caller a t = .ok (c₁, t'))
    (h₂ : c.specialize target infer caller b u = .ok (c₂, u')) :
    KnownToo c₁.results? c₂.results? := by
  unfold specialize at h₁ h₂
  cases himpl : c.implementation with
  | builtin f =>
    rw [himpl] at h₁ h₂
    obtain ⟨found₁, hfound₁, h₁⟩ := bind_eq_ok.1 h₁
    obtain ⟨rfl, -⟩ := Prod.mk.inj (Except.ok.inj h₁)
    obtain ⟨found₂, hfound₂, h₂⟩ := bind_eq_ok.1 h₂
    obtain ⟨rfl, -⟩ := Prod.mk.inj (Except.ok.inj h₂)
    exact knownToo_specializeBuiltin hc hab (Outcome.lift_eq_ok.1 hfound₁)
      (Outcome.lift_eq_ok.1 hfound₂)
  | matched matcher spelling => exact absurd himpl (hmatched matcher spelling)
  | kernel k =>
    rw [himpl] at h₁ h₂
    exact knownToo_specializeKernel hinfer hc hab h₁ h₂

end Callable

end KernelTyping
