import KernelTyping.Instruction
import Std.Data.ExtTreeMap

/-!
# KernelTyping.Kernel — a program over typed arrays

A kernel has variables (arguments and temporaries, each typed or still to be typed), instructions
in program order, index names and loop-bound parameters that count in `indexType`, substitution
rules, and the names of the matchers of its target, in the order in which they are asked.  Matchers
are known by name alone, so that equality of kernels is decidable.
-/

namespace KernelTyping

/-! ### Variables -/

/-- What is known about a variable's type. -/
inductive Dtype where
  /-- To be inferred. -/
  | unknown
  /-- Left open by the author; never a known type. -/
  | auto
  | known (type : ElementType)
  deriving DecidableEq

namespace Dtype

def known? : Dtype → Option ElementType
  | known type => some type
  | unknown | auto => none

def isKnown (d : Dtype) : Bool := d.known?.isSome

def text : Dtype → String
  | unknown => "<unknown>"
  | auto => "auto"
  | known type => type.text

instance : ToString Dtype := ⟨text⟩

end Dtype

/-- What a variable is for. -/
inductive Role where
  | input | output | temporary
  deriving DecidableEq

structure Variable where
  name : String
  dtype : Dtype
  role : Role
  deriving DecidableEq

namespace Variable

def isOutput (v : Variable) : Bool := v.role = .output

def text (v : Variable) : String :=
  if v.isOutput then s!"{v.name}: {v.dtype} (out)" else s!"{v.name}: {v.dtype}"

end Variable

/-! ### Kernels -/

/-- A substitution rule: calls to its bare name stand for the body with arguments in place of
`params`. -/
structure Rule where
  params : List String
  body : Expr
  deriving DecidableEq

structure Kernel where
  name : String
  args : List Variable
  temporaries : List Variable
  instructions : List Instruction
  inames : NameSet
  /-- Loop bounds.  Where they are not typed they count in `indexType`. -/
  params : NameSet
  indexType : ElementType
  rules : Std.ExtTreeMap String Rule
  symbolMatchers : List String
  functionMatchers : List String
  deriving DecidableEq

namespace Kernel

/-- A kernel without variables and instructions for the default target. -/
def empty (name : String) : Kernel where
  name := name
  args := []
  temporaries := []
  instructions := []
  inames := ∅
  params := ∅
  indexType := .int32
  rules := ∅
  symbolMatchers := ["c_symbols"]
  functionMatchers := ["c_math"]

/-! ### Variables of a kernel -/

/-- All variables, arguments first. -/
def declarations (k : Kernel) : List Variable := k.args ++ k.temporaries

/-- The first variable of that name. -/
def findVariable? (k : Kernel) (name : String) : Option Variable :=
  (k.args.find? (·.name == name)).or (k.temporaries.find? (·.name == name))

theorem findVariable?_eq (k : Kernel) (name : String) :
    k.findVariable? name = k.declarations.find? (·.name == name) :=
  List.find?_append.symm

/-- The arguments that are not outputs. -/
def inputs (k : Kernel) : List Variable := k.args.filter (!·.isOutput)

def outputs (k : Kernel) : List Variable := k.args.filter (·.isOutput)

/-- The kernel with its first variable of that name changed by `f`. -/
def modifyVariable (k : Kernel) (name : String) (f : Variable → Variable) : Kernel :=
  if k.args.any (·.name == name) then
    { k with args := k.args.modify (k.args.findIdx (·.name == name)) f }
  else
    { k with temporaries := k.temporaries.modify (k.temporaries.findIdx (·.name == name)) f }

/-- The kernel with `v` in place of the variable of the same name, if there is one. -/
def withVariable (k : Kernel) (v : Variable) : Kernel := k.modifyVariable v.name fun _ => v

/-- The kernel with a type for the variable of that name, if there is one. -/
def withType (k : Kernel) (name : String) (type : ElementType) : Kernel :=
  k.modifyVariable name fun v => { v with dtype := .known type }

/-- The kernel with the given types filled in. -/
def withTypes (k : Kernel) (types : List (String × ElementType)) : Kernel :=
  types.foldl (fun k (name, type) => k.withType name type) k

/-! ### Instructions of a kernel -/

/-- The first instruction with that id. -/
def findInstruction? (k : Kernel) (id : String) : Option Instruction :=
  k.instructions.find? (·.id == id)

/-- The ids of the instructions that write a variable, in program order and each once. -/
def writerIds (k : Kernel) (name : String) : List String :=
  ((k.instructions.filter (name ∈ ·.writeNames)).map (·.id)).eraseDups

/-- The instructions that stand under those ids. -/
def writers (k : Kernel) (name : String) : List Instruction :=
  (k.writerIds name).filterMap k.findInstruction?

/-- The variables that some instruction writes. -/
def writtenNames (k : Kernel) : NameSet :=
  Std.ExtTreeSet.ofList (k.instructions.flatMap Instruction.writeNames)

/-- The entries of the table of callables that a call refers to. -/
def entryName? : Expr → Option String
  | .call (.entry name) _ _ => some name
  | _ => none

/-- The entries of the table of callables that are called from the instructions or from the bodies
of the rules. -/
def calledEntries (k : Kernel) : NameSet :=
  let expressions := k.instructions.flatMap Instruction.expressions ++
    k.rules.toList.map (·.2.body)
  Std.ExtTreeSet.ofList (expressions.flatMap fun e => e.calls.filterMap entryName?)

/-! ### Text -/

/-- The rule under its name. -/
def ruleText (name : String) (rule : Rule) : String :=
  s!"  {applied name rule.params} := {rule.body}\n"

def text (k : Kernel) : String :=
  let args := s!"  args: {commaList (k.args.map Variable.text)}\n"
  let temporaries :=
    if k.temporaries.isEmpty then ""
    else s!"  temporaries: {commaList (k.temporaries.map Variable.text)}\n"
  let rules := String.join (k.rules.toList.map fun (name, rule) => ruleText name rule)
  let instructions := String.join (k.instructions.map fun i => s!"  {i}\n")
  s!"kernel {k.name}\n" ++ args ++ temporaries ++ rules ++ instructions

end Kernel

end KernelTyping
