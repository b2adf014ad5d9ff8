import KernelTyping.Signature

/-!
# KernelTyping.Fault — what can go wrong

A `Fault` is the cause of a failure.  Each has one of three kinds: a type is not known *yet*, the
types of an expression do not fit together, or a kernel or a request breaks a rule.  Only the first
kind is temporary.  `Fault.message` is the one place where faults are worded.
-/

namespace KernelTyping

/-- The cause of a failure. -/
inductive Fault where
  /-- The type of `e` is needed and hangs on the named variables. -/
  | typeNotKnownYet (e : Expr) (unknown : List String)
  -- types that do not fit together
  | unrelatedTypes (a b : ElementType)
  | handleMixed (types : List ElementType)
  | integerTooLarge (value : Int)
  | unsizedComplex (value : Constant)
  | unknownName (name : String)
  | unsupportedArgument (function : String) (type : ElementType)
  | notForComplex (function : String) (type : ElementType)
  | noVariant (function : String) (types : List ElementType)
  | secondNotIntegral (op : ReductionOp) (type : ElementType)
  /-- No type was found for a variable; `unknown` names what was missing. -/
  | undetermined (name : String) (unknown : List String) (kernel : String)
  | accumulatorUndetermined (reduction : Expr)
  -- expressions and instructions that break a rule
  | impossibleCast (source target : ElementType)
  | callNotSingle (e : Expr)
  | reductionNotSingle (e : Expr)
  | reductionNotTuple (e : Expr)
  | notTuple (e : Expr)
  | tupleReductionBody (body : Expr)
  | reductionArity (op : ReductionOp) (got : Nat)
  | lookupWithoutFields (field : String) (aggregate : Expr)
  | noSuchField (field : String) (aggregate : Expr) (type : ElementType)
  | targetCount (instruction : String) (values targets : Nat)
  -- calls and callables
  | noEntry (name : String)
  | unknownFunction (name : String)
  | noEntryInInstruction (name instruction kernel : String)
  | unresolvedInInstruction (name instruction kernel : String)
  | functionArity (function : String) (expected got : Nat)
  | noKeywords (function keyword : String)
  | overwritten (slot : Slot) (recorded passed : ElementType)
  | noInputAt (kernel : String) (inputs : Nat) (position : Int)
  | noInputNamed (kernel keyword : String)
  | outputUndetermined (output kernel : String)
  -- substitution rules
  | endlessRule (rule : String)
  | ruleArity (rule : String) (expected got : Nat)
  -- the table of callables
  | notEditing (function : String)
  | inferenceNotEditing (kernel : String)
  | unbalancedEdit (opened closed : Nat)
  | entryPointMissing (name : String)
  | entryPointNotKernel (name : String)

namespace Fault

/-- How a failure is to be taken. -/
inductive Kind where
  /-- Something is not known yet; trying again later may succeed. -/
  | waiting
  /-- The types of an expression do not fit together. -/
  | typing
  /-- A kernel or a request breaks a rule. -/
  | contract
  deriving DecidableEq

def kind : Fault → Kind
  | typeNotKnownYet _ _ => .waiting
  | unrelatedTypes _ _ | handleMixed _ | integerTooLarge _ | unsizedComplex _ | unknownName _
  | unsupportedArgument _ _ | notForComplex _ _ | noVariant _ _ | secondNotIntegral _ _
  | undetermined _ _ _ | accumulatorUndetermined _ => .typing
  | _ => .contract

/-- The failure is only for the time being. -/
def isTemporary (f : Fault) : Bool := f.kind = .waiting

/-- The advice that names the variables whose types were missing. -/
def missingTypes : List String → String
  | [] => ""
  | names => s!" (need type of '{commaList names}'--check for missing arguments)"

/-- The wording of a failure. -/
def message : Fault → String
  | typeNotKnownYet e unknown =>
    s!"type of '{e}' is not known yet (need type of: {commaList unknown})"
  | unrelatedTypes a b => s!"nothing known about result of operation on '{a}' and '{b}'"
  | handleMixed types =>
    s!"Nothing known about operations between '{commaList (types.map ElementType.text)}'"
  | integerTooLarge value => s!"integer constant '{value}' too large"
  | unsizedComplex value =>
    s!"complex constant '{value}' needs to be sized (as complex64 or complex128) for type inference"
  | unknownName name => s!"name not known in type inference: {name}"
  | unsupportedArgument function type =>
    s!"{function} is not supported for arguments of type '{type}'"
  | notForComplex function type => s!"{function} is not defined for complex type '{type}'"
  | noVariant function types =>
    s!"no variant of '{function}' takes arguments of type {tupled (types.map ElementType.text)}"
  | secondNotIntegral op type => s!"second argument of {op} must be integral, got {type}"
  | undetermined name unknown kernel =>
    s!"could not determine type of '{name}'{missingTypes unknown} in '{kernel}'"
  | accumulatorUndetermined reduction =>
    s!"failed to determine type of accumulator for reduction '{reduction}'"
  | impossibleCast source target => s!"Can't cast a '{source}' to '{target}'"
  | callNotSingle e =>
    "functions with more or fewer than one return value may only be used in direct " ++
      s!"assignments: '{e}'"
  | reductionNotSingle e =>
    "reductions with more or fewer than one return value may only be used in direct " ++
      s!"assignments: '{e}'"
  | reductionNotTuple e => s!"reduction '{e}' has a single value but was used as a tuple"
  | notTuple e => s!"expression '{e}' does not produce multiple values"
  | tupleReductionBody body => s!"unknown reduction type for tuple reduction: '{body}'"
  | reductionArity op got => s!"reduction {op} expects {op.arity} argument types, got {got}"
  | lookupWithoutFields field aggregate =>
    s!"cannot look up attribute '{field}' in non-aggregate expression '{aggregate}'"
  | noSuchField field aggregate type =>
    s!"cannot look up attribute '{field}' in aggregate expression '{aggregate}' of type '{type}'"
  | targetCount instruction values targets =>
    s!"instruction '{instruction}' assigns {values} values to {targets} targets"
  | noEntry name => s!"function '{name}' is not in the callables table"
  | unknownFunction name => s!"unknown function '{name}'"
  | noEntryInInstruction name instruction kernel =>
    s!"function '{name}' is not in the callables table (in instruction '{instruction}' of " ++
      s!"'{kernel}')"
  | unresolvedInInstruction name instruction kernel =>
    s!"unknown function '{name}' (in instruction '{instruction}' of '{kernel}')"
  | functionArity function expected got =>
    s!"function {function} expects {expected} arguments, got {got}"
  | noKeywords function keyword =>
    s!"function '{function}' does not take keyword argument '{keyword}'"
  | overwritten slot recorded passed =>
    s!"Overwriting a specialized function is illegal: argument {slot.quoted} has type " ++
      s!"'{recorded}', call site passes '{passed}'"
  | noInputAt kernel inputs position =>
    s!"kernel '{kernel}' takes {inputs} arguments, got argument {position}"
  | noInputNamed kernel keyword => s!"kernel '{kernel}' has no input argument '{keyword}'"
  | outputUndetermined output kernel =>
    s!"could not determine type of output '{output}' of '{kernel}'"
  | endlessRule rule => s!"substitution rule '{rule}' expands into itself"
  | ruleArity rule expected got =>
    s!"substitution rule '{rule}' takes {expected} arguments, got {got}"
  | notEditing function =>
    s!"cannot add a specialization of '{function}' outside of edit mode"
  | inferenceNotEditing kernel =>
    s!"inference on '{kernel}' must run inside an edit transaction of the callables table"
  | unbalancedEdit opened closed =>
    s!"unbalanced edit mode: transaction opened at depth {opened}, closed at depth {closed}"
  | entryPointMissing name => s!"entry point '{name}' is not in the callables table"
  | entryPointNotKernel name => s!"entry point '{name}' is not a kernel"

end Fault

end KernelTyping
