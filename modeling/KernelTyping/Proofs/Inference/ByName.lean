import KernelTyping.Proofs.Callable.ByName
import KernelTyping.Proofs.Inference.OtherEntries

/-!
# KernelTyping.Proofs.Inference.ByName — calls that pass arguments by name

A call of a kernel can pass an input at its position or under its name.  An entry without a recorded
signature resolves both calls alike.  A recorded signature has no keywords, so that it refuses a type
only where it is passed by position: the calls are interchangeable as long as it refuses none of the
arguments that are moved (`passed_by_name`), and a call that it refuses can pass the same by name
(`scaled_by_name`).
-/

namespace KernelTyping

namespace Evaluation

variable {ctx : Context} {call call' : Expr} {name : String} {c : Callable} {k : Kernel}
  {chosen : Nat → Bool} {a : Incoming} {s s' : State} {t : Table}

/-- What two calls come to: the same results, recorded for both under the same name, or no results
for either. -/
inductive Interchangeable (call call' : Expr) {α : Type} :
    Except Halt α × State → Except Halt α × State → Prop where
  | resolved (a : α) (s : State) (found : Option Resolved) (table : Table) :
    Interchangeable call call' (.ok a, s.resolve call found table)
      (.ok a, s.resolve call' found table)
  | fault (f f' : Fault) (s s' : State) :
    Interchangeable call call' (.error (.fault f), s) (.error (.fault f'), s')
  | exhausted (s s' : State) :
    Interchangeable call call' (.error .exhausted, s) (.error .exhausted, s')

theorem Interchangeable.error {α : Type} (h : Halt) (s s' : State) :
    Interchangeable (α := α) call call' (.error h, s) (.error h, s') := by
  cases h with
  | fault f => exact .fault f f s s'
  | exhausted => exact .exhausted s s'

/-! ### Resolution -/

/-- An entry resolves alike for arguments by name and by position. -/
theorem alike_resolutionOfEntry (hentry : t.get? name = some c)
    (hkernel : c.implementation = .kernel k) (honce : a.PassedOnce (k.inputs.map (·.name)))
    (hmoves : MovesAgree c.signature (k.inputs.map (·.name)) chosen a) :
    Alike (resolutionOfEntry ctx name a t)
      (resolutionOfEntry ctx name (a.byName (k.inputs.map (·.name)) chosen) t) := by
  refine Alike.bind ?_ fun _ => .refl _
  simp only [specializeEntry, hentry]
  refine Alike.bind (.lift fun _ => (checkOverwrite_byName honce hmoves).symm) fun _ => ?_
  exact Callable.alike_specialize_byName hkernel honce

theorem interchangeable_resolveEntry (call call' : Expr) (hentry : s.table.get? name = some c)
    (hkernel : c.implementation = .kernel k) (honce : a.PassedOnce (k.inputs.map (·.name)))
    (hmoves : MovesAgree c.signature (k.inputs.map (·.name)) chosen a) :
    Interchangeable call call' (exec (resolveEntry ctx call name a) s)
      (exec (resolveEntry ctx call' name (a.byName (k.inputs.map (·.name)) chosen)) s) := by
  rw [exec_resolveEntry, exec_resolveEntry]
  rcases alike_resolutionOfEntry hentry hkernel honce hmoves with heq | ⟨⟨f, hf⟩, ⟨f', hf'⟩⟩
  · rw [← heq]
    match resolutionOfEntry ctx name a s.table with
    | .ok (found, table) => exact .resolved _ s found table
    | .error h => exact .error h _ _
  · rw [hf, hf']
    exact .fault f f' _ _

/-- A type that the recorded signature refuses in the slot where it is passed is a fault. -/
theorem exec_resolveEntry_of_not_agrees (call : Expr) (hentry : s.table.get? name = some c)
    {slot : Slot} {passed : Option ElementType} (hslot : a[slot]? = some passed)
    (hrefused : ¬Agrees c.signature slot passed) :
    ∃ f, exec (resolveEntry ctx call name a) s = (.error (.fault f), s) := by
  cases hcheck : checkOverwrite c.signature a with
  | ok _ =>
    have hmem := Std.ExtTreeMap.mem_toList_iff_getElem?_eq_some.2 hslot
    exact absurd (checkOverwrite_eq_ok.1 hcheck _ hmem) hrefused
  | error f =>
    refine ⟨f, ?_⟩
    have hfailed : resolutionOfEntry ctx name a s.table = .error (.fault f) := by
      simp only [resolutionOfEntry, specializeEntry, hentry, hcheck]
      rfl
    rw [exec_resolveEntry, hfailed, hentry, Option.any_some, hcheck]
    rfl

/-! ### Calls with arguments by name -/

section Calls

variable {kept moved : List Expr} {keywords : List (String × Expr)} {inputs : List String}
  {types : List (Option ElementType)}

/-- What a call passes in its slots, given the types of all its arguments. -/
def callSite (args : List Expr) (keywords : List (String × Expr))
    (types : List (Option ElementType)) : Incoming :=
  .ofArguments (types.take args.length) ((keywords.map (·.1)).zip (types.drop args.length))

theorem callResults_entry (args : List Expr) :
    callResults ctx (.entry name) args keywords types =
      resolveEntry ctx (.call (.entry name) args keywords) name (callSite args keywords types) :=
  rfl

/-- No input is passed twice if names are distinct and keywords name other inputs than those that
are passed by position. -/
theorem passedOnce_callSite (hinputs : inputs.Nodup)
    (hkeywords : ∀ name ∈ keywords.map (·.1), name ∉ inputs.take (kept.length + moved.length)) :
    (callSite (kept ++ moved) keywords types).PassedOnce inputs := by
  refine Incoming.passedOnce_ofArguments hinputs fun name hname htaken => ?_
  obtain ⟨⟨_, type⟩, hpair, rfl⟩ := List.mem_map.1 hname
  refine hkeywords _ (List.of_mem_zip hpair).1 (List.take_subset_take_left inputs ?_ htaken)
  rw [List.length_take, List.length_append]
  exact Nat.min_le_left _ _

variable (hroom : kept.length + moved.length ≤ inputs.length)

include hroom

/-- The arguments are evaluated in the same order. -/
theorem children_byName (callee : Callee) :
    (Expr.call callee kept ((inputs.drop kept.length).zip moved ++ keywords)).children =
      (Expr.call callee (kept ++ moved) keywords).children := by
  have hmoved : ((inputs.drop kept.length).zip moved).map (·.2) = moved :=
    List.map_snd_zip (by rw [List.length_drop]; omega)
  simp only [Expr.children, List.map_append, hmoved, List.append_assoc]

/-- They are passed in the same slots, but for those that are moved. -/
theorem callSite_byName
    (hlength : types.length = kept.length + moved.length + keywords.length)
    (honce : (callSite (kept ++ moved) keywords types).PassedOnce inputs) :
    callSite kept ((inputs.drop kept.length).zip moved ++ keywords) types =
      (callSite (kept ++ moved) keywords types).byName inputs (kept.length ≤ ·) := by
  obtain ⟨front, middle, last, rfl, hfront, hmiddle⟩ : ∃ front middle last,
      types = front ++ (middle ++ last) ∧ front.length = kept.length ∧
        middle.length = moved.length := by
    refine ⟨types.take kept.length, (types.drop kept.length).take moved.length,
      (types.drop kept.length).drop moved.length, ?_, ?_, ?_⟩
    · rw [List.take_append_drop, List.take_append_drop]
    · rw [List.length_take]
      omega
    · rw [List.length_take, List.length_drop]
      omega
  have hpositional : callSite (kept ++ moved) keywords (front ++ (middle ++ last)) =
      .ofArguments (front ++ middle) ((keywords.map (·.1)).zip last) := by
    have hboth : (kept ++ moved).length = (front ++ middle).length := by simp [hfront, hmiddle]
    rw [callSite, hboth, ← List.append_assoc, List.take_left, List.drop_left]
  have hnames : (((inputs.drop kept.length).zip moved).map (·.1)).zip middle =
      (inputs.drop front.length).zip middle := by
    refine List.ext_getElem (by simp; omega) fun i hi hi' => ?_
    simp [hfront]
  have hlengths : (((inputs.drop kept.length).zip moved).map (·.1)).length = middle.length := by
    rw [List.length_map, List.length_zip, List.length_drop]
    omega
  rw [hpositional] at honce ⊢
  rw [← hfront, Incoming.byName_ofArguments (by omega) honce, callSite, ← hfront, List.take_left,
    List.drop_left, hfront, List.map_append, List.zip_append hlengths, hnames, hfront]

/-- The last positional arguments can be passed by name if the recorded signature takes them. -/
theorem interchangeable_evalCall (hgrows : GrowsTable ctx.infer)
    (hentry : s.table.get? name = some c) (hkernel : c.implementation = .kernel k)
    (hinputs : inputs = k.inputs.map (·.name))
    (honce : ∀ types, (callSite (kept ++ moved) keywords types).PassedOnce inputs)
    (hmoves : ∀ types m,
      exec ((kept ++ moved ++ keywords.map (·.2)).mapM (eval ctx)) s = (.ok types, m) →
        MovesAgree c.signature inputs (kept.length ≤ ·) (callSite (kept ++ moved) keywords types)) :
    Interchangeable (.call (.entry name) (kept ++ moved) keywords)
      (.call (.entry name) kept ((inputs.drop kept.length).zip moved ++ keywords))
      (exec (evalCall ctx (.entry name) (kept ++ moved) keywords) s)
      (exec (evalCall ctx (.entry name) kept
        ((inputs.drop kept.length).zip moved ++ keywords)) s) := by
  rw [evalCall_eq_callResults, evalCall_eq_callResults, children_byName hroom, exec_bind, exec_bind]
  cases hoperands : exec ((Expr.call (.entry name) (kept ++ moved) keywords).children.mapM
      (eval ctx)) s with
  | mk types m =>
    cases types with
    | error h => exact .error h m m
    | ok types =>
      have hlength := length_eq_of_exec_mapM hoperands
      have hentry' : m.table.get? name = some c := (grows_of_exec_mapM hgrows hoperands).get? hentry
      rw [Expr.children, List.length_append, List.length_append, List.length_map] at hlength
      have hslots := callSite_byName hroom hlength (honce types)
      simp only [callResults_entry, hslots]
      subst hinputs
      exact interchangeable_resolveEntry _ _ hentry' hkernel (honce types) (hmoves types m hoperands)

end Calls

/-- A call with one result stands for its value, however its arguments are passed. -/
theorem Interchangeable.single {x y : Eval (Option (List ElementType))}
    (h : Interchangeable call call' (exec x s) (exec y s)) :
    Interchangeable call call' (exec (x >>= single call) s) (exec (y >>= single call') s) := by
  rw [exec_bind, exec_bind]
  generalize exec x s = r at h ⊢
  generalize exec y s = r' at h ⊢
  cases h with
  | resolved results m found table =>
    match results with
    | none => exact .resolved none m found table
    | some [] => exact .fault _ _ _ _
    | some [type] => exact .resolved (some type) m found table
    | some (_ :: _ :: _) => exact .fault _ _ _ _
  | fault f f' m m' => exact .fault f f' m m'
  | exhausted m m' => exact .exhausted m m'

end Evaluation

open Evaluation

/-- **Arguments by name.**  Let an entry be a kernel with distinct names of inputs, and let no call
pass an input twice.  Whatever positional arguments are passed by name instead, the entry resolves
alike, unless its recorded signature refuses one of them, and then the call that passes it there
fails.  So the last positional arguments of a call can be passed by name: the call has the same
results, which are recorded under the same name, or both calls fail. -/
theorem passed_by_name {target : Target} {fuel : Nat} {caller k : Kernel} {env : Env} {s : State}
    {name : String} {c : Callable} (hentry : s.table.get? name = some c)
    (hkernel : c.implementation = .kernel k) (hinputs : (k.inputs.map (·.name)).Nodup) :
    let ctx : Context := ⟨target, caller, env, inferKernel target fuel true⟩
    let inputs := k.inputs.map (·.name)
    (∀ call call' a chosen, a.PassedOnce inputs →
      (MovesAgree c.signature inputs chosen a →
        Interchangeable call call' (exec (resolveEntry ctx call name a) s)
          (exec (resolveEntry ctx call' name (a.byName inputs chosen)) s)) ∧
      (¬MovesAgree c.signature inputs chosen a →
        (∃ f, exec (resolveEntry ctx call name a) s = (.error (.fault f), s)) ∨
          ∃ f, exec (resolveEntry ctx call' name (a.byName inputs chosen)) s =
            (.error (.fault f), s))) ∧
    ∀ kept moved keywords, kept.length + moved.length ≤ inputs.length →
      (∀ keyword ∈ keywords.map (·.1),
        keyword ∉ inputs.take (kept.length + moved.length)) →
      (∀ types m, exec ((kept ++ moved ++ keywords.map (·.2)).mapM (eval ctx)) s = (.ok types, m) →
        MovesAgree c.signature inputs (kept.length ≤ ·)
          (callSite (kept ++ moved) keywords types)) →
      let call := Expr.call (.entry name) (kept ++ moved) keywords
      let call' := Expr.call (.entry name) kept ((inputs.drop kept.length).zip moved ++ keywords)
      Interchangeable call call' (exec (evalTuple ctx call) s) (exec (evalTuple ctx call') s) ∧
        Interchangeable call call' (exec (eval ctx call) s) (exec (eval ctx call') s) := by
  intro ctx inputs
  have hgrows : GrowsTable ctx.infer := inferKernel_grows target fuel true
  constructor
  · intro call call' a chosen honce
    refine ⟨interchangeable_resolveEntry call call' hentry hkernel honce, fun hmoves => ?_⟩
    simp only [MovesAgree, not_forall, not_and_or] at hmoves
    obtain ⟨i, name', passed, hchosen, hname, hslot, hrefused | hrefused⟩ := hmoves
    · exact .inl (exec_resolveEntry_of_not_agrees call hentry hslot hrefused)
    · refine .inr (exec_resolveEntry_of_not_agrees call' hentry ?_ hrefused)
      have hmoved : (Slot.input i).byName inputs chosen = .keyword name' := by
        simp [Slot.input, Slot.byName, hchosen, hname]
      exact (Incoming.getElem?_byName honce).2 ⟨.input i, hslot, hmoved⟩
  · intro kept moved keywords hroom hkeywords hmoves
    have hcall := interchangeable_evalCall hroom hgrows hentry hkernel rfl
      (fun types => passedOnce_callSite hinputs hkeywords) hmoves
    simp only [evalTuple_call, eval_call]
    exact ⟨hcall, hcall.single⟩

/-- A kernel with two inputs, whose types are to be passed. -/
def scaleKernel : Kernel := { Kernel.empty "scale" with
  args := [⟨"x", .unknown, .input⟩, ⟨"f", .unknown, .input⟩, ⟨"y", .unknown, .output⟩]
  instructions := [⟨"y", .assign (.var "y") (.nary .product [.var "x", .var "f"])⟩] }

/-- The kernel at single precision. -/
def scaledKernel : Kernel :=
  scaleKernel.withTypes [("x", .float32), ("f", .float32), ("y", .float32)]

def scaledCallable : Callable :=
  ⟨"scale", some (.ofLists [.float32, .float32] [.float32]), .kernel scaledKernel⟩

def scaleTable : Table :=
  ((Table.empty.insert "scale" (.ofKernel scaleKernel)).insert "scale_0" scaledCallable).beginEdit.1

def scaleCaller : Kernel := { Kernel.empty "k" with
  args := [⟨"a", .known .float32, .input⟩, ⟨"d", .known .float64, .input⟩] }

/-- The type that an evaluation finds for a call, and the name that it records for it. -/
def resolvedAs (fuel : Nat) (k : Kernel) (call : Expr) (t : Table) :
    Except Halt (Option ElementType × Option String) :=
  match exec (eval ⟨.cLike, k, ∅, inferKernel .cLike fuel true⟩ call) (.start t) with
  | (.ok type, s) => .ok (type, s.renames.get? call)
  | (.error h, _) => .error h

/-- The generic entry takes any type, and the specialized one the type that is recorded. -/
theorem passed_by_name_scaleKernel :
    let ctx : Context := ⟨.cLike, scaleCaller, ∅, inferKernel .cLike 8 true⟩
    let generic := Expr.call (.entry "scale") [.var "a", .var "d"] []
    let generic' := Expr.call (.entry "scale") [.var "a"] [("f", .var "d")]
    let special := Expr.call (.entry "scale_0") [.var "a", .var "a"] []
    let special' := Expr.call (.entry "scale_0") [.var "a"] [("f", .var "a")]
    (scaleKernel.inputs.map (·.name)).Nodup ∧ (scaledKernel.inputs.map (·.name)).Nodup ∧
      resolvedAs 8 scaleCaller generic scaleTable = .ok (some .float64, some "scale_1") ∧
      Interchangeable generic generic' (exec (eval ctx generic) (.start scaleTable))
        (exec (eval ctx generic') (.start scaleTable)) ∧
      resolvedAs 8 scaleCaller special scaleTable = .ok (some .float32, some "scale_0") ∧
      Interchangeable special special' (exec (eval ctx special) (.start scaleTable))
        (exec (eval ctx special') (.start scaleTable)) := by
  intro ctx generic generic' special special'
  have hentry : scaleTable.get? "scale" = some (.ofKernel scaleKernel) := by cbv
  have hentry' : scaleTable.get? "scale_0" = some scaledCallable := by cbv
  have hnames : (scaleKernel.inputs.map (·.name)).Nodup := by decide
  have hnames' : (scaledKernel.inputs.map (·.name)).Nodup := by decide
  refine ⟨hnames, hnames', by cbv, ?_, by cbv, ?_⟩
  · refine ((passed_by_name hentry rfl hnames).2 [.var "a"] [.var "d"] [] (by decide) (by simp)
      fun types m h => ?_).2
    exact .generic
  · refine ((passed_by_name hentry' rfl hnames').2 [.var "a"] [.var "a"] [] (by decide) (by simp)
      fun types m h => ?_).2
    intro i name passed hi hname hpassed
    have hsignature : scaledKernel.signature =
        .ok (.ofLists [.float32, .float32] [.float32]) := by cbv
    refine ⟨?_, Kernel.agrees_keyword hsignature name passed⟩
    have hresult : (exec ((([.var "a"] ++ [.var "a"] ++ [] : List Expr)).mapM (eval ctx))
        (.start scaleTable)).1 = .ok [some .float32, some .float32] := by cbv
    have htypes : types = [some .float32, some .float32] :=
      Except.ok.inj ((congrArg Prod.fst h).symm.trans hresult)
    have hcount : (scaledKernel.inputs.map (·.name)).length = 2 := rfl
    obtain ⟨hlt, -⟩ := List.getElem?_eq_some_iff.1 hname
    obtain rfl : i = 1 := Nat.le_antisymm (by omega) (of_decide_eq_true hi)
    rw [htypes, callSite, Incoming.getElem?_ofArguments] at hpassed
    obtain rfl := Option.some.inj hpassed
    intro signature hrecorded
    obtain rfl := Option.some.inj hrecorded
    cbv

/-- What is refused at its position is not looked at under its name: the specialized entry turns
down a double there, and takes it by name. -/
theorem scaled_by_name :
    let ctx : Context := ⟨.cLike, scaleCaller, ∅, inferKernel .cLike 8 true⟩
    let positional := Expr.call (.entry "scale_0") [.var "a", .var "d"] []
    let named := Expr.call (.entry "scale_0") [.var "a"] [("f", .var "d")]
    (∃ s, exec (eval ctx positional) (.start scaleTable) =
      (.error (.fault (.overwritten (.input 1) .float32 .float64)), s)) ∧
    ∃ s, exec (eval ctx named) (.start scaleTable) = (.ok (some .float32), s) ∧
      s.renames.get? named = some "scale_0" := by
  intro ctx positional named
  constructor
  · have h : resolvedAs 8 scaleCaller positional scaleTable =
        .error (.fault (.overwritten (.input 1) .float32 .float64)) := by cbv
    unfold resolvedAs at h
    split at h
    case h_1 => cases h
    case h_2 e s hs => exact ⟨s, Except.error.inj h ▸ hs⟩
  · have h : resolvedAs 8 scaleCaller named scaleTable = .ok (some .float32, some "scale_0") := by
      cbv
    unfold resolvedAs at h
    split at h
    case h_1 type s hs =>
      obtain ⟨rfl, hname⟩ := Prod.mk.inj (Except.ok.inj h)
      exact ⟨s, hs, hname⟩
    case h_2 => cases h

end KernelTyping
