import KernelTyping.ElementType.Promotion

/-!
# KernelTyping.Evaluation.Operator — the types of constants and of operations

Given the types of the operands, where nothing may be known of some, these functions say what is
known of the result.  Nothing here looks at variables or calls.
-/

namespace KernelTyping

/-! ### Constants -/

/-- The type of an integer literal without a size: the first of `int32` and `int64` that holds
it. -/
def intType (value : Int) : Except Fault ElementType :=
  if Int32.minValue.toInt ≤ value ∧ value ≤ Int32.maxValue.toInt then .ok .int32
  else if Int64.minValue.toInt ≤ value ∧ value ≤ Int64.maxValue.toInt then .ok .int64
  else .error (.integerTooLarge value)

/-- The type of a literal: its size if it has one.  A float is single precision unless asked
otherwise; a complex number must be asked for if single precision does not hold it. -/
def Constant.type : Constant → Except Fault ElementType
  | .int _ (some s) | .float _ (some s) | .complex _ _ (some s) => .ok (.scalar s)
  | .int value none => intType value
  | .float _ none => .ok .float32
  | .complex re im none =>
    if re.fitsSingle && im.fitsSingle then .ok .complex64
    else .error (.unsizedComplex (.complex re im none))

/-! ### Operators -/

/-- The types that are known are all integral. -/
def knownAllIntegral (types : List (Option ElementType)) : Bool :=
  (types.filterMap id).all ElementType.isIntegral

/-- A sum or product.  Small integer literals take part only if all else that is known is
integral; they do not turn a float into a wider one. -/
def sumType (operands : List (Expr × Option ElementType)) :
    Except Fault (Option ElementType) :=
  let small := (operands.filter (·.1.isSmallInt)).map (·.2)
  let others := (operands.filter (!·.1.isSmallInt)).map (·.2)
  ElementType.combine (if knownAllIntegral others then others ++ small else others)

/-- An n-ary operation on operands of these types. -/
def NaryOp.type (op : NaryOp) (operands : List (Expr × Option ElementType)) :
    Except Fault (Option ElementType) :=
  match op with
  | .sum | .product => sumType operands
  | .bitAnd | .bitOr | .bitXor | .min | .max => ElementType.combine (operands.map (·.2))
  | .and | .or => .ok (some .truth)

/-- An operation on two operands.  The quotient of integers is a double. -/
def BinaryOp.type (op : BinaryOp) (left right : Option ElementType) :
    Except Fault (Option ElementType) :=
  match op with
  | .quotient =>
    if knownAllIntegral [left, right] then .ok (some .float64)
    else ElementType.combine [left, right]
  | .floorDiv | .remainder | .power | .shiftLeft | .shiftRight =>
    ElementType.combine [left, right]
  | .compare _ => .ok (some .truth)

/-- The field of an aggregate of a known type. -/
def fieldType (aggregate : Expr) (type : ElementType) (field : String) :
    Except Fault ElementType :=
  if type.hasFields then
    match type.field? field with
    | some t => .ok t
    | none => .error (.noSuchField field aggregate type)
  else .error (.lookupWithoutFields field aggregate)

/-- A cast from a known type. -/
def castType (source target : ElementType) : Except Fault ElementType :=
  if source.isNumeric then .ok target else .error (.impossibleCast source target)

/-! ### Reductions -/

/-- The types of the results of a reduction over values of these types.  The second value of a pair
is an index or a flag. -/
def ReductionOp.resultTypes (op : ReductionOp) (args : List ElementType) :
    Except Fault (List ElementType) :=
  match op.isTuple, args with
  | false, [value] => .ok [value]
  | true, [value, second] =>
    if second.isIntegral then .ok [value, second] else .error (.secondNotIntegral op second)
  | _, _ => .error (.reductionArity op args.length)

end KernelTyping
