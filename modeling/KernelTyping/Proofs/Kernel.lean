import KernelTyping.Evaluation.Basic
import Mathlib.Data.List.Nodup

/-!
# KernelTyping.Proofs.Kernel — the variables and writers of a kernel

To fill in types changes the types of the variables and nothing else (`findVariable?_withTypes`).
`Kernel.types` are the known types of a kernel's variables by name (`getElem?_types`).  Where ids
are distinct, the writers of a variable are the instructions that write it, in program order.
-/

namespace KernelTyping

/-- The variable with another type, if there is one. -/
def Variable.retype (type? : Option ElementType) (v : Variable) : Variable :=
  match type? with
  | some type => { v with dtype := .known type }
  | none => v

@[simp] theorem Variable.retype_none (v : Variable) : v.retype none = v := rfl

namespace Kernel

variable {k : Kernel} {name : String}

/-- Where keys are distinct, each element is found under its own. -/
theorem find?_of_nodup_map {α : Type} {key : α → String} {xs : List α} (h : (xs.map key).Nodup)
    {x : α} (hx : x ∈ xs) : xs.find? (key · == key x) = some x := by
  cases hfind : xs.find? (key · == key x) with
  | none =>
    have := List.find?_eq_none.1 hfind x hx
    simp at this
  | some y =>
    have hkey : key y = key x := by simpa using List.find?_some hfind
    rw [List.inj_on_of_nodup_map h (List.mem_of_find?_eq_some hfind) hx hkey]

theorem findVariable?_of_mem (hnames : (k.declarations.map (·.name)).Nodup) {v : Variable}
    (hv : v ∈ k.declarations) : k.findVariable? v.name = some v := by
  rw [findVariable?_eq]
  exact find?_of_nodup_map hnames hv

/-- Where keys are distinct, an element is found wherever it stands. -/
theorem find?_eq_of_perm {α : Type} {key : α → String} {xs ys : List α} (h : (xs.map key).Nodup)
    (hperm : ys.Perm xs) (name : String) :
    ys.find? (key · == name) = xs.find? (key · == name) := by
  cases hfind : xs.find? (key · == name) with
  | none =>
    rw [List.find?_eq_none] at hfind ⊢
    exact fun y hy => hfind y (hperm.mem_iff.1 hy)
  | some x =>
    have hx : x ∈ ys := hperm.mem_iff.2 (List.mem_of_find?_eq_some hfind)
    have hkey : key x = name := by simpa using List.find?_some hfind
    rw [← hkey]
    exact find?_of_nodup_map ((hperm.map key).nodup_iff.2 h) hx

/-- Where names are distinct, a variable is found in whatever order the temporaries are listed. -/
theorem findVariable?_reordered (hnames : (k.declarations.map (·.name)).Nodup) {ts : List Variable}
    (hperm : ts.Perm k.temporaries) (name : String) :
    ({ k with temporaries := ts } : Kernel).findVariable? name = k.findVariable? name := by
  rw [findVariable?_eq, findVariable?_eq]
  exact find?_eq_of_perm hnames (hperm.append_left k.args) name

/-! ### Types filled in -/

/-- To change the first variable of a name changes what is found under that name. -/
theorem find?_modify_findIdx {f : Variable → Variable} (hf : ∀ v, (f v).name = v.name)
    (vs : List Variable) (changed name : String) :
    (vs.modify (vs.findIdx (·.name == changed)) f).find? (·.name == name) =
      if name = changed then (vs.find? (·.name == name)).map f
      else vs.find? (·.name == name) := by
  induction vs with
  | nil => simp
  | cons v vs ih =>
    rw [List.findIdx_cons]
    by_cases hv : v.name = changed
    · simp only [hv, beq_self_eq_true, cond_true, List.modify_zero_cons, List.find?_cons, hf]
      by_cases hname : name = changed
      · simp [hname]
      · have hne : (changed == name) = false := by simpa using Ne.symm hname
        simp [hname, hne]
    · have hne : (v.name == changed) = false := by simpa using hv
      simp only [hne, cond_false, List.modify_succ_cons, List.find?_cons, ih]
      by_cases hname : v.name = name
      · have : name ≠ changed := hname ▸ hv
        simp [hname, this]
      · have hne : (v.name == name) = false := by simpa using hname
        simp [hne]

theorem any_eq_isSome_find? (vs : List Variable) (name : String) :
    vs.any (·.name == name) = (vs.find? (·.name == name)).isSome := by
  rw [List.isSome_find?]

theorem findVariable?_withType (k : Kernel) (changed : String) (type : ElementType)
    (name : String) :
    (k.withType changed type).findVariable? name =
      (k.findVariable? name).map (.retype (if name = changed then some type else none)) := by
  have hf (v : Variable) : ({ v with dtype := .known type } : Variable).name = v.name := rfl
  unfold withType modifyVariable findVariable?
  rw [any_eq_isSome_find?]
  by_cases hname : name = changed
  · subst hname
    cases hargs : k.args.find? (·.name == name) with
    | some v =>
      simp [find?_modify_findIdx hf, hargs]
      rfl
    | none =>
      simp [find?_modify_findIdx hf, hargs]
      rfl
  · have hid : Variable.retype none = id := funext fun v => v.retype_none
    split <;> simp [find?_modify_findIdx hf, hname, hid]

/-- Each variable gets the type that is listed for its name. -/
theorem findVariable?_withTypes {types : List (String × ElementType)}
    (hdistinct : (types.map (·.1)).Nodup) (k : Kernel) (name : String) :
    (k.withTypes types).findVariable? name =
      (k.findVariable? name).map (.retype (types.lookup name)) := by
  induction types generalizing k with
  | nil =>
    have hid : Variable.retype none = id := funext fun v => v.retype_none
    simp [withTypes, hid]
  | cons entry types ih =>
    obtain ⟨changed, type⟩ := entry
    obtain ⟨hchanged, hdistinct⟩ := List.nodup_cons.1 hdistinct
    have hstep : k.withTypes ((changed, type) :: types) =
        (k.withType changed type).withTypes types := rfl
    rw [hstep, ih hdistinct, findVariable?_withType, Option.map_map, List.lookup_cons]
    congr 1
    funext v
    by_cases hname : name = changed
    · subst hname
      have hnone : types.lookup name = none := by
        rw [List.lookup_eq_none_iff]
        intro p hp
        simpa using fun h => hchanged (List.mem_map.2 ⟨p, hp, h.symm⟩)
      simp [hnone]
    · have hne : (name == changed) = false := by simpa using hname
      simp [hname, hne]

/-- Only the variables change. -/
theorem exists_withTypes_eq (k : Kernel) (types : List (String × ElementType)) :
    ∃ args temporaries, k.withTypes types = { k with args, temporaries } := by
  induction types generalizing k with
  | nil => exact ⟨k.args, k.temporaries, rfl⟩
  | cons entry types ih =>
    obtain ⟨changed, type⟩ := entry
    obtain ⟨args, temporaries, h⟩ := ih (k.withType changed type)
    refine ⟨args, temporaries, h.trans ?_⟩
    unfold withType modifyVariable
    split <;> rfl

/-- Types are filled in whatever the instructions and the rules are. -/
theorem withTypes_withProgram (k : Kernel) (is : List Instruction)
    (rules : Std.ExtTreeMap String Rule) (types : List (String × ElementType)) :
    ({ k with instructions := is, rules } : Kernel).withTypes types =
      { k.withTypes types with instructions := is, rules } := by
  have htype (k : Kernel) (changed : String) (type : ElementType) :
      ({ k with instructions := is, rules } : Kernel).withType changed type =
        { k.withType changed type with instructions := is, rules } := by
    unfold withType modifyVariable
    dsimp only
    split <;> rfl
  induction types generalizing k with
  | nil => rfl
  | cons entry types ih =>
    obtain ⟨changed, type⟩ := entry
    show (({ k with instructions := is, rules } : Kernel).withType changed type).withTypes types =
      { (k.withType changed type).withTypes types with instructions := is, rules }
    rw [htype, ih]

@[simp] theorem name_withTypes (k : Kernel) (types : List (String × ElementType)) :
    (k.withTypes types).name = k.name := by
  obtain ⟨args, temporaries, h⟩ := k.exists_withTypes_eq types
  rw [h]

@[simp] theorem instructions_withTypes (k : Kernel) (types : List (String × ElementType)) :
    (k.withTypes types).instructions = k.instructions := by
  obtain ⟨args, temporaries, h⟩ := k.exists_withTypes_eq types
  rw [h]

@[simp] theorem rules_withTypes (k : Kernel) (types : List (String × ElementType)) :
    (k.withTypes types).rules = k.rules := by
  obtain ⟨args, temporaries, h⟩ := k.exists_withTypes_eq types
  rw [h]

theorem nodup_map_fst_toList (env : Env) : (env.toList.map (·.1)).Nodup := by
  rw [List.Nodup, List.pairwise_map]
  exact env.distinct_keys_toList.imp fun h heq => h (by simp [heq])

theorem lookup_toList (env : Env) (name : String) : env.toList.lookup name = env[name]? := by
  refine Option.ext fun type => ?_
  rw [← Std.ExtTreeMap.mem_toList_iff_getElem?_eq_some]
  constructor
  · intro h
    obtain ⟨before, after, htypes, -⟩ := List.lookup_eq_some_iff.1 h
    simp [htypes]
  · intro h
    cases hlookup : env.toList.lookup name with
    | none =>
      have := List.lookup_eq_none_iff.1 hlookup _ h
      simp at this
    | some other =>
      obtain ⟨before, after, htypes, -⟩ := List.lookup_eq_some_iff.1 hlookup
      have hmem : (name, other) ∈ env.toList := by simp [htypes]
      have := List.inj_on_of_nodup_map (nodup_map_fst_toList env) hmem h rfl
      rw [(Prod.mk.inj this).2]

/-- Filled in with the types found, each variable that was found has its type. -/
theorem findVariable?_withEnv (k : Kernel) (env : Env) (name : String) :
    (k.withTypes env.toList).findVariable? name =
      (k.findVariable? name).map (.retype env[name]?) := by
  rw [findVariable?_withTypes (nodup_map_fst_toList env), lookup_toList]

theorem map_eq_self_of_not_any {f : Variable → Variable} {vs : List Variable} {changed : String}
    (h : ¬vs.any (·.name == changed)) :
    vs.map (fun v => if v.name = changed then f v else v) = vs := by
  refine (List.map_congr_left fun v hv => if_neg fun hname => h ?_).trans (List.map_id vs)
  exact List.any_eq_true.2 ⟨v, hv, beq_iff_eq.2 hname⟩

/-- Where names are distinct, to change the first variable of a name is to change each one. -/
theorem modify_findIdx_eq_map (f : Variable → Variable) {vs : List Variable}
    (hnames : (vs.map (·.name)).Nodup) (changed : String) :
    vs.modify (vs.findIdx (·.name == changed)) f =
      vs.map fun v => if v.name = changed then f v else v := by
  induction vs with
  | nil => rfl
  | cons v vs ih =>
    obtain ⟨hv, hnames⟩ := List.nodup_cons.1 hnames
    rw [List.findIdx_cons, List.map_cons]
    by_cases hchanged : v.name = changed
    · have hrest : ¬vs.any (·.name == changed) := by
        intro hany
        obtain ⟨w, hw, hname⟩ := List.any_eq_true.1 hany
        exact hv (List.mem_map.2 ⟨w, hw, (beq_iff_eq.1 hname).trans hchanged.symm⟩)
      rw [beq_iff_eq.2 hchanged, cond_true, List.modify_zero_cons, if_pos hchanged,
        map_eq_self_of_not_any hrest]
    · rw [beq_false_of_ne hchanged, cond_false, List.modify_succ_cons, if_neg hchanged, ih hnames]

theorem withType_eq_map (hnames : (k.declarations.map (·.name)).Nodup) (changed : String)
    (type : ElementType) :
    k.withType changed type =
      { k with
        args := k.args.map fun v => v.retype (if v.name = changed then some type else none)
        temporaries := k.temporaries.map fun v =>
          v.retype (if v.name = changed then some type else none) } := by
  rw [declarations, List.map_append] at hnames
  obtain ⟨hargs, htemporaries, hdisjoint⟩ := List.nodup_append.1 hnames
  have hretype : (fun v : Variable => v.retype (if v.name = changed then some type else none)) =
      fun v => if v.name = changed then { v with dtype := .known type } else v := by
    funext v
    split <;> rfl
  rw [hretype]
  unfold withType modifyVariable
  split
  case isTrue hany =>
    obtain ⟨v, hv, hname⟩ := List.any_eq_true.1 hany
    have hnone : ¬k.temporaries.any (·.name == changed) := by
      intro hany'
      obtain ⟨w, hw, hname'⟩ := List.any_eq_true.1 hany'
      exact hdisjoint _ (List.mem_map_of_mem hv) _ (List.mem_map_of_mem hw)
        ((beq_iff_eq.1 hname).trans (beq_iff_eq.1 hname').symm)
    rw [modify_findIdx_eq_map _ hargs, map_eq_self_of_not_any hnone]
  case isFalse hany =>
    rw [modify_findIdx_eq_map _ htemporaries, map_eq_self_of_not_any hany]

/-- Where names are distinct, filling in types is a map over the variables. -/
theorem withTypes_eq_map {types : List (String × ElementType)}
    (hdistinct : (types.map (·.1)).Nodup) (hnames : (k.declarations.map (·.name)).Nodup) :
    k.withTypes types =
      { k with
        args := k.args.map fun v => v.retype (types.lookup v.name)
        temporaries := k.temporaries.map fun v => v.retype (types.lookup v.name) } := by
  induction types generalizing k with
  | nil => simp [withTypes]
  | cons entry types ih =>
    obtain ⟨changed, type⟩ := entry
    obtain ⟨hchanged, hdistinct⟩ := List.nodup_cons.1 hdistinct
    have hname (v : Variable) (type? : Option ElementType) : (v.retype type?).name = v.name := by
      cases type? <;> rfl
    have hstep : k.withTypes ((changed, type) :: types) =
        (k.withType changed type).withTypes types := rfl
    have hlookup (v : Variable) :
        (v.retype (if v.name = changed then some type else none)).retype (types.lookup v.name) =
          v.retype (List.lookup v.name ((changed, type) :: types)) := by
      rw [List.lookup_cons]
      by_cases hv : v.name = changed
      · have hnone : types.lookup changed = none := by
          rw [List.lookup_eq_none_iff]
          intro p hp
          simpa using fun h => hchanged (List.mem_map.2 ⟨p, hp, h.symm⟩)
        simp [hv, hnone]
      · simp [hv, beq_false_of_ne hv]
    rw [hstep, withType_eq_map hnames, ih hdistinct]
    · simp only [List.map_map, Function.comp_def, hname, hlookup]
    · simpa [declarations, Function.comp_def, hname] using hnames

/-- Where names are distinct, each variable that was found gets its type, and nothing else
changes. -/
theorem withEnv_eq_map (hnames : (k.declarations.map (·.name)).Nodup) (env : Env) :
    k.withTypes env.toList =
      { k with
        args := k.args.map fun v => v.retype env[v.name]?
        temporaries := k.temporaries.map fun v => v.retype env[v.name]? } := by
  rw [withTypes_eq_map (nodup_map_fst_toList env) hnames]
  simp only [lookup_toList]

/-! ### The types of a kernel -/

/-- The known types of the variables, of the first one where several have the same name. -/
def types (k : Kernel) : Env :=
  k.declarations.foldr (fun v types => types.alter v.name fun _ => v.dtype.known?) ∅

theorem getElem?_types (k : Kernel) (name : String) :
    k.types[name]? = (k.findVariable? name).bind (·.dtype.known?) := by
  rw [findVariable?_eq, types]
  induction k.declarations with
  | nil => simp
  | cons v vs ih =>
    rw [List.foldr_cons, Std.ExtTreeMap.getElem?_alter, List.find?_cons]
    by_cases hname : v.name = name
    · simp [hname]
    · have hne : (v.name == name) = false := beq_false_of_ne hname
      simp [hname, hne, ih]

/-! ### Writers -/

theorem eraseDups_of_nodup {xs : List String} (h : xs.Nodup) : xs.eraseDups = xs := by
  induction xs with
  | nil => rfl
  | cons x xs ih =>
    obtain ⟨hx, hxs⟩ := List.nodup_cons.1 h
    have hfilter : xs.filter (fun b => !b == x) = xs :=
      List.filter_eq_self.2 fun y hy => by simpa using fun h : y = x => hx (h ▸ hy)
    rw [List.eraseDups_cons, hfilter, ih hxs]

theorem findInstruction?_of_mem (hids : (k.instructions.map (·.id)).Nodup) {i : Instruction}
    (hi : i ∈ k.instructions) : k.findInstruction? i.id = some i :=
  find?_of_nodup_map hids hi

/-- Where ids are distinct, the writers of a variable are the instructions that write it. -/
theorem writers_eq_filter (hids : (k.instructions.map (·.id)).Nodup) (name : String) :
    k.writers name = k.instructions.filter (name ∈ ·.writeNames) := by
  have hsub : (k.instructions.filter (name ∈ ·.writeNames)).Sublist k.instructions :=
    List.filter_sublist
  unfold writers writerIds
  rw [eraseDups_of_nodup (hids.sublist (hsub.map _)), List.filterMap_map]
  refine (List.filterMap_congr fun i hi => ?_).trans List.filterMap_some
  exact findInstruction?_of_mem hids (hsub.subset hi)

end Kernel

end KernelTyping
