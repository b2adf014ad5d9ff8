import KernelTyping.Proofs.Callable
import Mathlib.Data.List.Induction
import Mathlib.Data.List.Nodup

/-!
# KernelTyping.Proofs.Callable.ByName — positional arguments passed by name

A kernel knows its inputs by position and by name.  `Incoming.byName` passes chosen positional
arguments under the names of the inputs instead.

* As long as no input is passed twice (`Incoming.PassedOnce`), a kernel receives the same types
  (`Kernel.receiveAll_byName`).
* A recorded signature is asked for the slot that is passed, so that the check passes alike only if
  it takes the moved arguments in both slots (`checkOverwrite_byName`).
* Then a kernel is specialized alike (`Callable.alike_specialize_byName`).
-/

namespace KernelTyping

/-! ### Slots by name -/

section Slots

variable {inputs : List String} {chosen : Nat → Bool} {slot slot' : Slot}
  {passed : Option ElementType}

/-- The name of the input in place of its position, if the position is chosen. -/
def Slot.byName (inputs : List String) (chosen : Nat → Bool) : Slot → Slot
  | .position i =>
    if 0 ≤ i ∧ chosen i.toNat = true then (inputs[i.toNat]?).elim (.position i) .keyword
    else .position i
  | .keyword name => .keyword name

/-- A slot stays as it is, or it is a chosen position that becomes the name of the input there. -/
theorem Slot.byName_cases (inputs : List String) (chosen : Nat → Bool) (slot : Slot) :
    slot.byName inputs chosen = slot ∨
      ∃ i name, slot = .input i ∧ chosen i = true ∧ inputs[i]? = some name ∧
        slot.byName inputs chosen = .keyword name := by
  cases slot with
  | keyword name => exact .inl rfl
  | position i =>
    rw [byName]
    by_cases hchosen : 0 ≤ i ∧ chosen i.toNat = true
    · rw [if_pos hchosen]
      cases hname : inputs[i.toNat]? with
      | none => exact .inl rfl
      | some name =>
        have hinput : position i = .input i.toNat := congrArg position (by omega)
        exact .inr ⟨i.toNat, name, hinput, hchosen.2, hname, rfl⟩
    · rw [if_neg hchosen]
      exact .inl rfl

@[simp] theorem Kernel.slotName?_input (inputs : List String) (i : Nat) :
    slotName? inputs (.input i) = inputs[i]? := by
  have hpositive : ¬(i : Int) < 0 := by omega
  rw [Slot.input, slotName?, if_neg hpositive, Int.toNat_natCast]

/-- It stands for the same input. -/
@[simp] theorem Kernel.slotName?_byName (inputs : List String) (chosen : Nat → Bool) (slot : Slot) :
    slotName? inputs (slot.byName inputs chosen) = slotName? inputs slot := by
  rcases slot.byName_cases inputs chosen with heq | ⟨i, name, rfl, -, hname, heq⟩
  · rw [heq]
  · rw [heq, slotName?_input, hname, slotName?, if_pos (List.mem_of_getElem? hname)]

end Slots

/-! ### Call sites by name -/

namespace Incoming

variable {inputs : List String} {chosen : Nat → Bool} {a : Incoming} {slot slot' : Slot}
  {passed : Option ElementType}

theorem mem_of_mem_toList {p : Slot × Option ElementType} (h : p ∈ a.toList) : p.1 ∈ a := by
  rw [Std.ExtTreeMap.mem_iff_isSome_getElem?, Std.ExtTreeMap.mem_toList_iff_getElem?_eq_some.1 h]
  rfl

/-- No input is passed twice. -/
def PassedOnce (inputs : List String) (a : Incoming) : Prop :=
  ∀ slot ∈ a, ∀ slot' ∈ a, ∀ name, Kernel.slotName? inputs slot = some name →
    Kernel.slotName? inputs slot' = some name → slot = slot'

/-- The same call site with the chosen positional arguments passed by name. -/
def byName (inputs : List String) (chosen : Nat → Bool) (a : Incoming) : Incoming :=
  .ofList (a.toList.map fun p => (p.1.byName inputs chosen, p.2))

/-- Slots stay apart. -/
theorem PassedOnce.eq_of_byName_eq (h : a.PassedOnce inputs) (hslot : slot ∈ a) (hslot' : slot' ∈ a)
    (heq : slot.byName inputs chosen = slot'.byName inputs chosen) : slot = slot' := by
  have hnames : Kernel.slotName? inputs slot = Kernel.slotName? inputs slot' := by
    rw [← Kernel.slotName?_byName inputs chosen slot, heq, Kernel.slotName?_byName]
  rcases slot.byName_cases inputs chosen with hstays | ⟨i, name, rfl, -, hname, -⟩
  · rcases slot'.byName_cases inputs chosen with hstays' | ⟨i, name, rfl, -, hname, -⟩
    · rw [← hstays, heq, hstays']
    · rw [← Kernel.slotName?_input] at hname
      exact h slot hslot _ hslot' name (hnames.trans hname) hname
  · rw [← Kernel.slotName?_input] at hname
    exact h _ hslot slot' hslot' name hname (hnames ▸ hname)

/-- What is passed, slot by slot. -/
theorem getElem?_byName (h : a.PassedOnce inputs) :
    (a.byName inputs chosen)[slot]? = some passed ↔
      ∃ slot' : Slot, a[slot']? = some passed ∧ slot'.byName inputs chosen = slot := by
  have hdistinct : (a.toList.map fun p => (p.1.byName inputs chosen, p.2)).Pairwise
      fun p q => ¬compare p.1 q.1 = .eq := by
    rw [List.pairwise_map]
    refine (Std.ExtTreeMap.distinct_keys_toList (t := a)).imp_of_mem fun {p q} hp hq hne heq => ?_
    have heq := h.eq_of_byName_eq (mem_of_mem_toList hp) (mem_of_mem_toList hq)
      (Std.LawfulEqOrd.eq_of_compare heq)
    exact hne (heq ▸ Std.ReflOrd.compare_self)
  constructor
  · intro hslot
    have hkey : slot ∈ (a.toList.map fun p => (p.1.byName inputs chosen, p.2)).map (·.1) := by
      by_contra hnot
      rw [byName, Std.ExtTreeMap.getElem?_ofList_of_contains_eq_false (by simpa using hnot)] at hslot
      cases hslot
    obtain ⟨⟨_, passed'⟩, hpair, rfl⟩ := List.mem_map.1 hkey
    obtain ⟨⟨slot', _⟩, hslot', heq⟩ := List.mem_map.1 hpair
    obtain ⟨rfl, rfl⟩ := Prod.mk.inj heq
    rw [byName, Std.ExtTreeMap.getElem?_ofList_of_mem Std.ReflOrd.compare_self hdistinct hpair]
      at hslot
    obtain rfl := Option.some.inj hslot
    exact ⟨slot', Std.ExtTreeMap.mem_toList_iff_getElem?_eq_some.1 hslot', rfl⟩
  · rintro ⟨slot', hslot', rfl⟩
    refine Std.ExtTreeMap.getElem?_ofList_of_mem Std.ReflOrd.compare_self hdistinct ?_
    exact List.mem_map.2 ⟨_, Std.ExtTreeMap.mem_toList_iff_getElem?_eq_some.2 hslot', rfl⟩

theorem mem_toList_byName (h : a.PassedOnce inputs) {p : Slot × Option ElementType} :
    p ∈ (a.byName inputs chosen).toList ↔
      ∃ q ∈ a.toList, (q.1.byName inputs chosen, q.2) = p := by
  obtain ⟨slot, passed⟩ := p
  rw [Std.ExtTreeMap.mem_toList_iff_getElem?_eq_some, getElem?_byName h]
  constructor
  · rintro ⟨slot', hslot', rfl⟩
    exact ⟨_, Std.ExtTreeMap.mem_toList_iff_getElem?_eq_some.2 hslot', rfl⟩
  · rintro ⟨⟨slot', _⟩, hslot', heq⟩
    obtain ⟨rfl, rfl⟩ := Prod.mk.inj heq
    exact ⟨slot', Std.ExtTreeMap.mem_toList_iff_getElem?_eq_some.1 hslot', rfl⟩

theorem nodup_toList (a : Incoming) : a.toList.Nodup :=
  List.Nodup.of_map (·.1) (by
    rw [Std.ExtTreeMap.map_fst_toList_eq_keys]
    exact Std.ExtTreeMap.nodup_keys)

/-- The same arguments in another order. -/
theorem perm_toList_byName (h : a.PassedOnce inputs) :
    (a.toList.map fun p => (p.1.byName inputs chosen, p.2)).Perm
      (a.byName inputs chosen).toList := by
  refine (List.perm_ext_iff_of_nodup ?_ (nodup_toList _)).2 fun p => ?_
  · refine (nodup_toList a).map_on ?_
    rintro ⟨slot, passed⟩ hp ⟨slot', passed'⟩ hq heq
    obtain ⟨heq, rfl⟩ := Prod.mk.inj heq
    exact Prod.ext (h.eq_of_byName_eq (mem_of_mem_toList hp) (mem_of_mem_toList hq) heq) rfl
  · rw [mem_toList_byName h, List.mem_map]

/-! ### Arguments of a call -/

/-- What pairs of slots and types pass, of which the last counts where a slot is repeated. -/
def ofPairs (ps : List (Slot × Option ElementType)) : Incoming :=
  ps.foldl (fun a p => a.insert p.1 p.2) ∅

theorem ofArguments_eq (args : List (Option ElementType))
    (keywords : List (String × Option ElementType)) :
    ofArguments args keywords = ofPairs (args.zipIdx.map (fun p => (.input p.2, p.1)) ++
      keywords.map fun p => (.keyword p.1, p.2)) := by
  simp [ofArguments, ofPairs, List.foldl_append, List.foldl_map]

theorem ofPairs_append_singleton (ps : List (Slot × Option ElementType))
    (p : Slot × Option ElementType) : ofPairs (ps ++ [p]) = (ofPairs ps).insert p.1 p.2 := by
  rw [ofPairs, List.foldl_append]
  rfl

theorem mem_ofPairs {ps : List (Slot × Option ElementType)} :
    slot ∈ ofPairs ps ↔ slot ∈ ps.map (·.1) := by
  induction ps using List.reverseRecOn with
  | nil => simp [ofPairs]
  | append_singleton ps p ih =>
    rw [ofPairs_append_singleton, Std.ExtTreeMap.mem_insert, ih, List.map_append, List.mem_append,
      Std.LawfulEqOrd.compare_eq_iff_eq, List.map_singleton, List.mem_singleton, or_comm, eq_comm]

/-- Keywords leave the positional arguments as they are. -/
theorem getElem?_ofArguments (args : List (Option ElementType))
    (keywords : List (String × Option ElementType)) (i : Nat) :
    (ofArguments args keywords)[Slot.input i]? = args[i]? := by
  rw [ofArguments_eq]
  induction keywords using List.reverseRecOn with
  | append_singleton keywords p ih =>
    have hne : Slot.keyword p.1 ≠ .input i := nofun
    rw [List.map_append, List.map_singleton, ← List.append_assoc, ofPairs_append_singleton]
    simp [Std.ExtTreeMap.getElem?_insert, hne, ih]
  | nil =>
    rw [List.map_nil, List.append_nil]
    induction args using List.reverseRecOn with
    | nil => rfl
    | append_singleton args type ih =>
      have hinput : Slot.input args.length = .input i ↔ args.length = i := by
        rw [Slot.input, Slot.input, Slot.position.injEq, Int.natCast_inj]
      rw [List.zipIdx_append, List.map_append, List.zipIdx_singleton, List.map_singleton,
        ofPairs_append_singleton, Std.ExtTreeMap.getElem?_insert, ih]
      simp only [Nat.zero_add, Std.LawfulEqOrd.compare_eq_iff_eq, hinput]
      by_cases hi : args.length = i
      · simp [hi]
      · rw [if_neg hi]
        rcases Nat.lt_or_gt_of_ne hi with hlt | hgt
        · rw [List.getElem?_eq_none (by omega), List.getElem?_eq_none (by simp; omega)]
        · rw [List.getElem?_append_left hgt]

theorem PassedOnce.of_insert (h : PassedOnce inputs (a.insert slot passed)) :
    a.PassedOnce inputs := fun s hs s' hs' =>
  h s (Std.ExtTreeMap.mem_insert.2 (.inr hs)) s' (Std.ExtTreeMap.mem_insert.2 (.inr hs'))

theorem byName_insert (h : PassedOnce inputs (a.insert slot passed)) :
    byName inputs chosen (a.insert slot passed) =
      (a.byName inputs chosen).insert (slot.byName inputs chosen) passed := by
  refine Std.ExtTreeMap.ext_getElem? fun other => Option.ext fun type => ?_
  simp only [getElem?_byName h, Std.ExtTreeMap.getElem?_insert, Std.LawfulEqOrd.compare_eq_iff_eq]
  have hself : slot ∈ a.insert slot passed := Std.ExtTreeMap.mem_insert_self
  by_cases hother : slot.byName inputs chosen = other
  · rw [if_pos hother]
    constructor
    · rintro ⟨slot', hslot', rfl⟩
      have hmem : slot' ∈ a.insert slot passed := by
        rw [Std.ExtTreeMap.mem_iff_isSome_getElem?, Std.ExtTreeMap.getElem?_insert]
        simp [hslot']
      rwa [if_pos (h.eq_of_byName_eq hself hmem hother)] at hslot'
    · intro htype
      exact ⟨slot, by rw [if_pos rfl, htype], hother⟩
  · rw [if_neg hother, getElem?_byName h.of_insert]
    refine exists_congr fun slot' => and_congr_left fun hslot' => ?_
    rw [if_neg]
    rintro rfl
    exact hother hslot'

theorem byName_ofPairs {ps : List (Slot × Option ElementType)}
    (h : (ofPairs ps).PassedOnce inputs) :
    (ofPairs ps).byName inputs chosen =
      ofPairs (ps.map fun p => (p.1.byName inputs chosen, p.2)) := by
  induction ps using List.reverseRecOn with
  | nil => rfl
  | append_singleton ps p ih =>
    rw [ofPairs_append_singleton] at h
    rw [List.map_append, List.map_singleton, ofPairs_append_singleton, ofPairs_append_singleton,
      byName_insert h, ih h.of_insert]

/-- No input is passed twice where names are distinct and no keyword names an input that is passed
by position. -/
theorem passedOnce_ofArguments (hinputs : inputs.Nodup) {args : List (Option ElementType)}
    {keywords : List (String × Option ElementType)}
    (hkeywords : ∀ name ∈ keywords.map (·.1), name ∉ inputs.take args.length) :
    (ofArguments args keywords).PassedOnce inputs := by
  have hslots : ∀ slot ∈ ofArguments args keywords, ∀ name,
      Kernel.slotName? inputs slot = some name →
        (∃ i < args.length, slot = .input i ∧ inputs[i]? = some name) ∨
          slot = .keyword name ∧ name ∉ inputs.take args.length := by
    intro slot hslot name hname
    rw [ofArguments_eq, mem_ofPairs, List.map_append, List.mem_append] at hslot
    rcases hslot with hslot | hslot
    · simp only [List.map_map, List.mem_map, Function.comp_apply] at hslot
      obtain ⟨⟨type, i⟩, htype, rfl⟩ := hslot
      have hi : i < args.length := (List.mem_zipIdx' htype).1
      exact .inl ⟨i, hi, rfl, by simpa [Slot.input, Kernel.slotName?] using hname⟩
    · simp only [List.map_map, List.mem_map, Function.comp_apply] at hslot
      obtain ⟨⟨keyword, type⟩, hkeyword, rfl⟩ := hslot
      rw [Kernel.slotName?] at hname
      split at hname
      · obtain rfl := Option.some.inj hname
        exact .inr ⟨rfl, hkeywords _ (List.mem_map.2 ⟨_, hkeyword, rfl⟩)⟩
      · cases hname
  have htaken {i : Nat} {name : String} (hi : i < args.length) (hname : inputs[i]? = some name) :
      name ∈ inputs.take args.length := by
    rw [← List.getElem?_take_of_lt hi] at hname
    exact List.mem_of_getElem? hname
  intro slot hslot slot' hslot' name hname hname'
  rcases hslots slot hslot name hname with ⟨i, hi, rfl, hi'⟩ | ⟨rfl, hnot⟩
  · rcases hslots slot' hslot' name hname' with ⟨j, hj, rfl, hj'⟩ | ⟨rfl, hnot⟩
    · obtain ⟨hlength, -⟩ := List.getElem?_eq_some_iff.1 hi'
      rw [(List.getElem?_inj hlength hinputs).1 (hi'.trans hj'.symm)]
    · exact absurd (htaken hi hi') hnot
  · rcases hslots slot' hslot' name hname' with ⟨j, hj, rfl, hj'⟩ | ⟨rfl, -⟩
    · exact absurd (htaken hj hj') hnot
    · rfl

/-- The last positional arguments passed by name, in front of the keywords. -/
theorem byName_ofArguments {kept moved : List (Option ElementType)}
    {keywords : List (String × Option ElementType)}
    (hroom : kept.length + moved.length ≤ inputs.length)
    (h : (ofArguments (kept ++ moved) keywords).PassedOnce inputs) :
    (ofArguments (kept ++ moved) keywords).byName inputs (kept.length ≤ ·) =
      ofArguments kept ((inputs.drop kept.length).zip moved ++ keywords) := by
  have hkept : kept.zipIdx.map (fun p => ((Slot.input p.2).byName inputs (kept.length ≤ ·), p.1)) =
      kept.zipIdx.map fun p => (.input p.2, p.1) := by
    refine List.map_congr_left fun p hp => ?_
    have hlt : p.2 < kept.length := (List.mem_zipIdx' hp).1
    have hnot : ¬kept.length ≤ p.2 := by omega
    simp [Slot.input, Slot.byName, hnot]
  have hmoved : (moved.zipIdx kept.length).map
      (fun p => ((Slot.input p.2).byName inputs (kept.length ≤ ·), p.1)) =
      ((inputs.drop kept.length).zip moved).map fun p => (.keyword p.1, p.2) := by
    refine List.ext_getElem ?_ fun i hi hi' => ?_
    · simp
      omega
    · simp only [List.length_map, List.length_zipIdx] at hi
      have hname : kept.length + i < inputs.length := by omega
      simp [Slot.input, Slot.byName, hname]
  rw [ofArguments_eq] at h ⊢
  rw [byName_ofPairs h, ofArguments_eq]
  simp only [List.map_append, List.map_map, Function.comp_def, List.zipIdx_append, Nat.zero_add,
    hkept, hmoved, List.append_assoc]
  rfl

end Incoming

/-! ### Kernels that receive types in another order -/

namespace Kernel

variable {k k' : Kernel} {inputs : List String} {chosen : Nat → Bool} {a : Incoming} {slot : Slot}
  {passed : Option ElementType} {f g : Variable → Variable} {name name' : String}

theorem any_name_modify_findIdx (hf : ∀ v, (f v).name = v.name) (vs : List Variable)
    (name name' : String) :
    (vs.modify (vs.findIdx (·.name == name)) f).any (·.name == name') =
      vs.any (·.name == name') := by
  rw [any_eq_isSome_find?, any_eq_isSome_find?, find?_modify_findIdx hf]
  split
  · rw [Option.isSome_map]
  · rfl

theorem modify_findIdx_comm (hf : ∀ v, (f v).name = v.name) (hg : ∀ v, (g v).name = v.name)
    (hne : name ≠ name') (vs : List Variable) :
    (vs.modify (vs.findIdx (·.name == name)) f).modify
        ((vs.modify (vs.findIdx (·.name == name)) f).findIdx (·.name == name')) g =
      (vs.modify (vs.findIdx (·.name == name')) g).modify
        ((vs.modify (vs.findIdx (·.name == name')) g).findIdx (·.name == name)) f := by
  induction vs with
  | nil => rfl
  | cons v vs ih =>
    have hother : (name == name') = false := beq_false_of_ne hne
    have hother' : (name' == name) = false := beq_false_of_ne hne.symm
    by_cases hname : v.name = name
    · simp [List.findIdx_cons, hname, hf, hother]
    · by_cases hname' : v.name = name'
      · simp [List.findIdx_cons, hname', hg, hother']
      · simp [List.findIdx_cons, beq_false_of_ne hname, beq_false_of_ne hname', ih]

/-- Changes of variables of different names can be made in any order. -/
theorem modifyVariable_comm (hf : ∀ v, (f v).name = v.name) (hg : ∀ v, (g v).name = v.name)
    (hne : name ≠ name') (k : Kernel) :
    (k.modifyVariable name f).modifyVariable name' g =
      (k.modifyVariable name' g).modifyVariable name f := by
  have hargs := any_name_modify_findIdx hf k.args name name'
  have hargs' := any_name_modify_findIdx hg k.args name' name
  unfold modifyVariable
  cases hname : k.args.any (·.name == name) <;> cases hname' : k.args.any (·.name == name') <;>
    simp only [hname, hname', hargs, hargs', if_true, if_false, Bool.false_eq_true,
      modify_findIdx_comm hf hg hne]

theorem declare_comm (hne : name ≠ name') (k : Kernel) (type type' : ElementType) :
    (k.declare name type).declare name' type' = (k.declare name' type').declare name type := by
  have hname (type : ElementType) (v : Variable) : (v.receive type).name = v.name :=
    (v.knownIn_receive type).name.symm
  simp only [declare_eq]
  exact modifyVariable_comm (hname type) (hname type') hne k

theorem declare?_right_comm (k : Kernel) {name? name'? : Option String}
    {p q : Option ElementType} (h : ∀ name, name? = some name → name'? ≠ some name) :
    (k.declare? name? p).declare? name'? q = (k.declare? name'? q).declare? name? p := by
  match name?, name'?, p, q with
  | none, _, _, _ => rfl
  | some _, none, _, _ => rfl
  | some _, some _, none, none => rfl
  | some _, some _, none, some _ => rfl
  | some _, some _, some _, none => rfl
  | some name, some name', some type, some type' =>
    have hne : name ≠ name' := by
      rintro rfl
      exact h name rfl rfl
    exact declare_comm hne k type type'

/-! ### What a kernel takes -/

/-- There is an input for what is passed, unless that is not known or a result. -/
def Takes (inputs : List String) (slot : Slot) (passed : Option ElementType) : Prop :=
  passed.isSome = true → slot.isResult = false → (slotName? inputs slot).isSome = true

theorem takes_byName :
    Takes inputs (slot.byName inputs chosen) passed ↔ Takes inputs slot passed := by
  rcases slot.byName_cases inputs chosen with heq | ⟨i, name, rfl, -, hname, heq⟩
  · rw [heq]
  · have hkeyword : slotName? inputs (.keyword name) = some name := by
      rw [← heq, slotName?_byName, slotName?_input, hname]
    simp [Takes, heq, hkeyword, hname]

/-- A slot is taken or refused whatever the kernel is. -/
theorem receive_eq_ok : k.receive inputs slot passed = .ok k' ↔
    Takes inputs slot passed ∧ k' = k.declare? (slotName? inputs slot) passed := by
  have htakes : (∃ l, k.receive inputs slot passed = .ok l) ↔ Takes inputs slot passed := by
    unfold receive Takes
    cases passed with
    | none => simp
    | some type =>
      cases slot with
      | position i =>
        by_cases hneg : i < 0
        · simp [hneg, Slot.isResult]
        · cases hname : inputs[i.toNat]? <;> simp [hneg, Slot.isResult, slotName?, hname]
      | keyword name =>
        by_cases hname : name ∈ inputs <;> simp [Slot.isResult, slotName?, hname]
  constructor
  · intro h
    exact ⟨htakes.1 ⟨k', h⟩, eq_declare?_of_receive h⟩
  · rintro ⟨h, rfl⟩
    obtain ⟨l, hl⟩ := htakes.2 h
    rw [hl, eq_declare?_of_receive hl]

/-- A kernel receives all that is passed if it takes each of it. -/
theorem foldlM_receive_eq_ok {xs : List (Slot × Option ElementType)} :
    xs.foldlM (fun k p => k.receive inputs p.1 p.2) k = .ok k' ↔
      (∀ p ∈ xs, Takes inputs p.1 p.2) ∧
        k' = xs.foldl (fun k p => k.declare? (slotName? inputs p.1) p.2) k := by
  induction xs generalizing k with
  | nil =>
    rw [List.foldlM_nil, List.foldl_nil]
    exact ⟨fun h => ⟨by simp, (Except.ok.inj h).symm⟩, fun h => congrArg _ h.2.symm⟩
  | cons p xs ih =>
    rw [List.foldlM_cons, bind_eq_ok, List.foldl_cons, List.forall_mem_cons]
    constructor
    · rintro ⟨l, hl, hrest⟩
      obtain ⟨hp, rfl⟩ := receive_eq_ok.1 hl
      obtain ⟨hxs, rfl⟩ := ih.1 hrest
      exact ⟨⟨hp, hxs⟩, rfl⟩
    · rintro ⟨⟨hp, hxs⟩, rfl⟩
      exact ⟨_, receive_eq_ok.2 ⟨hp, rfl⟩, ih.2 ⟨hxs, rfl⟩⟩

/-- The order in which a kernel receives types, and under which names, does not matter. -/
theorem foldl_declare?_byName (h : a.PassedOnce inputs) (k : Kernel) :
    (a.byName inputs chosen).toList.foldl (fun k p => k.declare? (slotName? inputs p.1) p.2) k =
      a.toList.foldl (fun k p => k.declare? (slotName? inputs p.1) p.2) k := by
  rw [← (Incoming.perm_toList_byName h).foldl_eq', List.foldl_map]
  · simp only [slotName?_byName]
  · intro _ hmem _ hmem' l
    obtain ⟨p, hp, rfl⟩ := List.mem_map.1 hmem
    obtain ⟨q, hq, rfl⟩ := List.mem_map.1 hmem'
    simp only [slotName?_byName]
    by_cases heq : p = q
    · rw [heq]
    · refine declare?_right_comm l fun name hname hname' => heq ?_
      have hslot : p.1 = q.1 := h _ (Incoming.mem_of_mem_toList hp) _
        (Incoming.mem_of_mem_toList hq) name hname hname'
      have hp := Std.ExtTreeMap.mem_toList_iff_getElem?_eq_some.1 hp
      have hq := Std.ExtTreeMap.mem_toList_iff_getElem?_eq_some.1 hq
      rw [← hslot, hp] at hq
      exact Prod.ext hslot (Option.some.inj hq)

/-- A kernel receives what is passed by name as it does by position. -/
theorem receiveAll_byName (h : a.PassedOnce (k.inputs.map (·.name))) :
    k.receiveAll (a.byName (k.inputs.map (·.name)) chosen) = .ok k' ↔
      k.receiveAll a = .ok k' := by
  simp only [receiveAll, foldlM_receive_eq_ok, foldl_declare?_byName h]
  refine and_congr_left fun _ => ⟨fun htakes p hp => ?_, fun htakes p hp => ?_⟩
  · exact takes_byName.1 (htakes _ ((Incoming.mem_toList_byName h).2 ⟨p, hp, rfl⟩))
  · obtain ⟨q, hq, rfl⟩ := (Incoming.mem_toList_byName h).1 hp
    exact takes_byName.2 (htakes q hq)

end Kernel

/-! ### Recorded signatures -/

section Recorded

variable {recorded : Option Signature} {inputs : List String} {chosen : Nat → Bool} {a : Incoming}

theorem forM_eq_ok {ε α : Type} {f : α → Except ε Unit} {xs : List α} :
    xs.forM f = .ok () ↔ ∀ x ∈ xs, f x = .ok () := by
  induction xs with
  | nil => simp [List.forM_nil, pure, Except.pure]
  | cons x xs ih =>
    rw [List.forall_mem_cons, ← ih]
    show (f x >>= fun _ => xs.forM f) = _ ↔ _
    rw [bind_eq_ok]
    exact ⟨fun ⟨_, hx, hxs⟩ => ⟨hx, hxs⟩, fun ⟨hx, hxs⟩ => ⟨(), hx, hxs⟩⟩

/-- The recorded signature, if there is one, takes what is passed in this slot. -/
def Agrees (recorded : Option Signature) (slot : Slot) (passed : Option ElementType) : Prop :=
  ∀ s ∈ recorded, s.checkSlot slot passed = .ok ()

theorem checkOverwrite_eq_ok :
    checkOverwrite recorded a = .ok () ↔ ∀ p ∈ a.toList, Agrees recorded p.1 p.2 := by
  cases recorded with
  | none => simp [checkOverwrite, Agrees]
  | some s =>
    simp only [Agrees, Option.mem_some_iff, forall_eq']
    exact forM_eq_ok

/-- The recorded signature takes what is passed at the chosen positions, there and by name. -/
def MovesAgree (recorded : Option Signature) (inputs : List String) (chosen : Nat → Bool)
    (a : Incoming) : Prop :=
  ∀ i name passed, chosen i = true → inputs[i]? = some name → a[Slot.input i]? = some passed →
    Agrees recorded (.input i) passed ∧ Agrees recorded (.keyword name) passed

/-- Where nothing is recorded, nothing is refused. -/
theorem MovesAgree.generic : MovesAgree none inputs chosen a :=
  fun _ _ _ _ _ _ => ⟨nofun, nofun⟩

/-- Then the check passes by name as it does by position. -/
theorem checkOverwrite_byName (h : a.PassedOnce inputs)
    (hmoves : MovesAgree recorded inputs chosen a) :
    checkOverwrite recorded (a.byName inputs chosen) = .ok () ↔
      checkOverwrite recorded a = .ok () := by
  have hagrees : ∀ p ∈ a.toList,
      Agrees recorded (p.1.byName inputs chosen) p.2 ↔ Agrees recorded p.1 p.2 := by
    rintro ⟨slot, passed⟩ hp
    rcases slot.byName_cases inputs chosen with heq | ⟨i, name, rfl, hchosen, hname, heq⟩
    · rw [heq]
    · rw [heq]
      have hslot := Std.ExtTreeMap.mem_toList_iff_getElem?_eq_some.1 hp
      obtain ⟨hposition, hkeyword⟩ := hmoves i name passed hchosen hname hslot
      exact iff_of_true hkeyword hposition
  rw [checkOverwrite_eq_ok, checkOverwrite_eq_ok]
  constructor
  · intro hall p hp
    exact (hagrees p hp).1 (hall _ ((Incoming.mem_toList_byName h).2 ⟨p, hp, rfl⟩))
  · intro hall p hp
    obtain ⟨q, hq, rfl⟩ := (Incoming.mem_toList_byName h).1 hp
    exact (hagrees q hq).2 (hall q hq)

/-- The signature of a typed kernel has positions only, so that it refuses no keyword. -/
theorem Kernel.agrees_keyword {k : Kernel} {signature : Signature}
    (h : k.signature = .ok signature) (name : String) (passed : Option ElementType) :
    Agrees (some signature) (.keyword name) passed := by
  obtain ⟨slots, hslots, h⟩ := bind_eq_ok.1 h
  obtain rfl := Except.ok.inj h
  rw [mapM_eq_ok] at hslots
  have houtputs : ∀ slot ∈ slots, slot.1 ≠ .keyword name := by
    refine forall_right_of_forall₂ (Q := fun slot => slot.1 ≠ Slot.keyword name) hslots
      fun p _ slot hslot heq => ?_
    obtain ⟨v, i⟩ := p
    replace hslot : k.outputSlot v i = .ok slot := hslot
    unfold outputSlot at hslot
    cases htype : v.dtype.known? with
    | none =>
      rw [htype] at hslot
      cases hslot
    | some type =>
      rw [htype] at hslot
      rw [← Except.ok.inj hslot] at heq
      cases heq
  have hnone : ∀ types : List (Slot × ElementType), (∀ p ∈ types, p.1 ≠ .keyword name) →
      (Std.ExtTreeMap.ofList types compare)[Slot.keyword name]? = none := by
    intro types htypes
    refine Std.ExtTreeMap.getElem?_ofList_of_contains_eq_false ?_
    rw [← Bool.not_eq_true, List.contains_iff_mem]
    intro hmem
    obtain ⟨p, hp, heq⟩ := List.mem_map.1 hmem
    exact htypes p hp heq
  intro s hs
  obtain rfl := Option.some.inj hs
  simp only [Signature.checkSlot]
  rw [hnone]
  intro p hp
  rcases List.mem_append.1 hp with hp | hp
  · obtain ⟨v, -, hv⟩ := List.mem_filterMap.1 hp
    obtain ⟨type, -, rfl⟩ := Option.map_eq_some_iff.1 hv
    exact Slot.noConfusion
  · exact houtputs p hp

end Recorded

/-! ### Specialization -/

section Alike

variable {α β : Type}

/-- The outcomes are the same, or both are faults. -/
def Alike (x y : Outcome α) : Prop :=
  x = y ∨ (∃ f, x = .error (.fault f)) ∧ ∃ f, y = .error (.fault f)

theorem Alike.refl (x : Outcome α) : Alike x x := .inl rfl

/-- What follows in the same way. -/
theorem Alike.bind {x y : Outcome α} {f g : α → Outcome β} (h : Alike x y)
    (hfg : ∀ a, Alike (f a) (g a)) : Alike (x >>= f) (y >>= g) := by
  rcases h with rfl | ⟨⟨c, rfl⟩, ⟨c', rfl⟩⟩
  · cases x with
    | ok a => exact hfg a
    | error => exact .inl rfl
  · exact .inr ⟨⟨c, rfl⟩, ⟨c', rfl⟩⟩

theorem Alike.lift {x y : Except Fault α} (h : ∀ a, x = .ok a ↔ y = .ok a) :
    Alike (liftM x) (liftM y) := by
  cases x with
  | ok a =>
    rw [(h a).1 rfl]
    exact .refl _
  | error c =>
    cases y with
    | ok a => cases (h a).2 rfl
    | error c' => exact .inr ⟨⟨c, rfl⟩, ⟨c', rfl⟩⟩

end Alike

/-- A kernel is specialized for arguments by name as for those by position. -/
theorem Callable.alike_specialize_byName {target : Target} {infer : Inference} {caller k : Kernel}
    {c : Callable} {chosen : Nat → Bool} {a : Incoming} {t : Table}
    (hkernel : c.implementation = .kernel k) (h : a.PassedOnce (k.inputs.map (·.name))) :
    Alike (c.specialize target infer caller a t)
      (c.specialize target infer caller (a.byName (k.inputs.map (·.name)) chosen) t) := by
  simp only [specialize, hkernel, specializeKernel]
  exact Alike.bind (.lift fun k' => (Kernel.receiveAll_byName h).symm) fun passed => .refl _

end KernelTyping
