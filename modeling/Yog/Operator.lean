import Yog.Attribute

/-!
# The operator instructions

An operator instruction looks at the representation of its left operand. For the types it knows it
calls the C function of that type (`YogFixnum_binop_add` and the like), for all others `exec_binop`
looks the method up and calls it. The same C functions are behind the methods of the built-in classes,
and the comparisons of those come from the module `Comparable` (`comparable.c`).

What the C functions compute, and what any other method does, is a `Meaning`.
-/

namespace Yog

/-- The instructions of `insts.def` from `add` to `subscript`. -/
inductive Operator where
  | binop (op : Binop)
  | subscript
  deriving DecidableEq

/-- The comparisons that are derived from `<=>`. -/
inductive Comparison where
  | less | greater | lessEqual | greaterEqual | equal | notEqual
  deriving DecidableEq

/-- The types that an operator instruction can know: `IS_FIXNUM`, or a `BASIC_OBJ_TYPE`. -/
inductive BasicType where
  | fixnum | bignum | float | string | regexp | array | dict
  deriving DecidableEq

/-- The name in `self must be %s`. -/
def BasicType.name : BasicType → String
  | fixnum => "Fixnum"
  | bignum => "Bignum"
  | float => "Float"
  | string => "String"
  | regexp => "Regexp"
  | array => "Array"
  | dict => "Dict"

def Comparison.operator : Comparison → Operator
  | less => .binop .less
  | greater => .binop .greater
  | lessEqual => .binop .lessEqual
  | greaterEqual => .binop .greaterEqual
  | equal => .binop .equal
  | notEqual => .binop .notEqual

def Comparison.holds : Comparison → Int → Bool
  | less, n => n < 0
  | greater, n => 0 < n
  | lessEqual, n => n ≤ 0
  | greaterEqual, n => 0 ≤ n
  | equal, n => n = 0
  | notEqual, n => n ≠ 0

/-- What `equal` and `not_equal` make of nil; the others raise. -/
def Comparison.ofNil? : Comparison → Option Bool
  | equal => some false
  | notEqual => some true
  | _ => none

namespace Operator

/-- The name that `exec_binop` is given. -/
def name : Operator → String
  | binop .add => "+"
  | binop .subtract => "-"
  | binop .multiply => "*"
  | binop .divide => "/"
  | binop .floorDivide => "//"
  | binop .search => "=~"
  | binop .lshift => "<<"
  | binop .rshift => ">>"
  | binop .modulo => "%"
  | binop .power => "**"
  | binop .and => "&"
  | binop .or => "|"
  | binop .xor => "^"
  | binop .less => "<"
  | binop .greater => ">"
  | binop .lessEqual => "<="
  | binop .greaterEqual => ">="
  | binop .equal => "=="
  | binop .notEqual => "!="
  | binop .ufo => "<=>"
  | subscript => "[]"

/-- The types that the instruction tests its left operand for, in the order of the tests. -/
def fastTypes : Operator → List BasicType
  | binop .add => [.fixnum, .string, .bignum, .float]
  | binop .subtract => [.fixnum, .bignum, .float]
  | binop .multiply => [.fixnum, .string, .bignum, .float]
  | binop .divide => [.fixnum, .bignum, .float]
  | binop .floorDivide => [.fixnum, .bignum, .float]
  | binop .search => [.string, .regexp]
  | binop .lshift => [.fixnum, .string, .bignum]
  | binop .rshift => [.fixnum, .bignum]
  | binop .modulo => [.fixnum, .bignum]
  | binop .power => [.fixnum, .bignum, .float]
  | binop .and => [.fixnum, .bignum]
  | binop .or => [.fixnum, .bignum]
  | binop .xor => [.fixnum, .bignum]
  | binop .less => [.fixnum, .bignum, .string, .float]
  | binop .greater => [.fixnum, .bignum, .string, .float]
  | binop .lessEqual => [.fixnum, .bignum, .string, .float]
  | binop .greaterEqual => [.fixnum, .bignum, .string, .float]
  | binop .equal => [.fixnum, .bignum, .string, .float]
  | binop .notEqual => [.fixnum, .bignum, .string, .float]
  | binop .ufo => [.fixnum, .bignum, .string, .float]
  | subscript => [.array, .string, .dict]

/-- The instructions of `CMP_BODY` and `EQUAL_BODY`. -/
def comparison? : Operator → Option Comparison
  | binop .less => some .less
  | binop .greater => some .greater
  | binop .lessEqual => some .lessEqual
  | binop .greaterEqual => some .greaterEqual
  | binop .equal => some .equal
  | binop .notEqual => some .notEqual
  | _ => none

end Operator

/-- The operators that a class defines as methods over the function its instruction calls. -/
def BasicType.methods : BasicType → List Operator
  | fixnum => integerMethods
  | bignum => integerMethods
  | float => [.binop .multiply, .binop .power, .binop .add, .binop .subtract, .binop .divide,
      .binop .floorDivide, .binop .ufo]
  | string => [.binop .multiply, .binop .add, .binop .lshift, .binop .ufo, .binop .search,
      .subscript]
  | regexp => []
  | array => [.subscript]
  | dict => [.subscript]
where
  integerMethods : List Operator :=
    [.binop .modulo, .binop .and, .binop .multiply, .binop .power, .binop .add, .binop .subtract,
      .binop .divide, .binop .floorDivide, .binop .lshift, .binop .ufo, .binop .rshift, .binop .xor,
      .binop .or]

/-- The types of right operands for which the `<=>` of a type does not answer nil. -/
def BasicType.answers : BasicType → List BasicType
  | fixnum => [.fixnum]
  | bignum => [.fixnum, .bignum]
  | float => [.float]
  | string => [.string]
  | _ => []

/-- The function in an attribute: the method of an operator of a built-in class, a function of
`Comparable`, or any other. -/
inductive Body (S : Type) where
  | operator (t : BasicType) (op : Operator) (h : op ∈ t.methods)
  | comparable (c : Comparison)
  | other (s : S)

/-- The objects, with the representation of each and the symbol of each name. -/
structure Operands (O K M S : Type) extends Objects O K M (Body S) where
  tag : O → Option BasicType
  tag_ne_fixnum : ∀ o, tag o ≠ some .fixnum
  intern : String → ID

/-- What is raised. A `TypeError` has its format and the values that `%C` names the classes of. -/
inductive Raised (O K M E : Type) where
  | lookup (e : AttrError O K M)
  /-- `%C object doesn't have an attribute of %s` -/
  | attributeError (obj : Value O K M) (op : String)
  | typeError (format : String) (args : List (Value O K M))
  /-- a failed `YOG_ASSERT` -/
  | assertion (message : String)
  | stackOverflow
  | other (e : E)

/-- What the C functions of the types compute, how the functions behind `<=>` order two operands, and
what calling anything else gives. -/
structure Meaning (O K M S E : Type) where
  binop : BasicType → Operator → Value O K M → Value O K M → Except (Raised O K M E) (Value O K M)
  order : BasicType → Value O K M → Value O K M → Int
  call : Access O K M (Body S) → Value O K M → Except (Raised O K M E) (Value O K M)

/-- Whether an access gives a pointer. For the fields and the getters `Meaning.call` says it. -/
def Access.isPtr {O K M F : Type} : Access O K M F → Bool
  | value v => v.isPtr
  | _ => true

namespace Operands

variable {O K M S E : Type} (w : Operands O K M S) (m : Meaning O K M S E)

def typeOf : Value O K M → Option BasicType
  | .fixnum _ => some .fixnum
  | .obj o => w.tag o
  | _ => none

/-- `YogFixnum_binop_ufo` and the other three. -/
def ufo (t : BasicType) (left right : Value O K M) : Value O K M :=
  match w.typeOf right with
  | some r => if r ∈ t.answers then .fixnum (m.order t left right) else .nil
  | none => .nil

/-- `YogFixnum_binop_add` and the others. `YogString_binop_add` looks at its right operand first. -/
def binop (t : BasicType) (op : Operator) (left right : Value O K M) :
    Except (Raised O K M E) (Value O K M) :=
  if op = .binop .ufo then .ok (w.ufo m t left right)
  else if t = .string ∧ op = .binop .add ∧ w.typeOf right ≠ some .string then
    .error (.typeError "unsupported operand type(s) for +: %C and %C" [left, right])
  else m.binop t op left right

/-- `do_less` and the others, with `check_comparison_result`. -/
def doComparison (c : Comparison) (left right n : Value O K M) :
    Except (Raised O K M E) (Value O K M) :=
  match n, c.ofNil? with
  | .nil, some b => .ok (.bool b)
  | .fixnum n, _ => .ok (.bool (c.holds n))
  | _, _ => .error (.typeError "Comparison of %C with %C failed" [left, right])

/-- `CHECK_SELF_TYPE2`: `search` of `string.c` has none, and that of `array.c` only looks at
pointers. -/
def checkSelfType (t : BasicType) (op : Operator) (self : Value O K M) : Bool :=
  match t, op with
  | .string, .binop .search => true
  | .array, _ => !self.isPtr || w.typeOf self = some .array
  | t, _ => w.typeOf self = some t

/-- A method of a built-in class over the function of its type. The method `+` of strings has an error
of its own. -/
def callOperator (t : BasicType) (op : Operator) (self right : Value O K M) :
    Except (Raised O K M E) (Value O K M) :=
  if w.checkSelfType t op self then
    if t = .string ∧ op = .binop .add ∧ w.typeOf right ≠ some .string then
      .error (.typeError "Can't convert %C object to string implicitly" [right])
    else w.binop m t op self right
  else .error (.typeError ("self must be " ++ t.name) [])

/-- The call of what `<=>` was found to be. A function of `Comparable` under that name calls `<=>`
again and never comes to an end. -/
def callUfo (access : Access O K M (Body S)) (right : Value O K M) :
    Except (Raised O K M E) (Value O K M) :=
  match access with
  | .nativeInstanceMethod self (.operator t op _) => w.callOperator m t op self right
  | .nativeInstanceMethod _ (.comparable _) => .error .stackOverflow
  | access => m.call access right

/-- `cmp` of `comparable.c`, that is `YogEval_call_method1` with `<=>`. -/
def cmp (self x : Value O K M) : Except (Raised O K M E) (Value O K M) :=
  match w.valGetAttr self (w.intern (Operator.binop .ufo).name) with
  | .error e => .error (.lookup e)
  | .ok none => .error (.assertion "attribute isn't object (0x%08x)")
  | .ok (some access) =>
    if access.isPtr then w.callUfo m access x
    else .error (.assertion "attribute isn't object (0x%08x)")

/-- What the functions of `comparable.c` make of the answer of `<=>`, with `conv_to_cmp`. -/
def fromCmp (c : Comparison) (self x n : Value O K M) : Except (Raised O K M E) (Value O K M) :=
  match n, c.ofNil? with
  | .nil, some b => .ok (.bool b)
  | .fixnum n, _ => .ok (.bool (c.holds n))
  | _, _ => .error (.typeError "comparison of %C with %C failed" [self, x])

/-- `less` of `comparable.c` and the others. -/
def comparable (c : Comparison) (self x : Value O K M) : Except (Raised O K M E) (Value O K M) :=
  match w.cmp m self x with
  | .error e => .error e
  | .ok n => fromCmp c self x n

/-- `exec_call` with one argument. -/
def execCall (access : Access O K M (Body S)) (right : Value O K M) :
    Except (Raised O K M E) (Value O K M) :=
  match access with
  | .nativeInstanceMethod self (.operator t op _) => w.callOperator m t op self right
  | .nativeInstanceMethod self (.comparable c) => w.comparable m c self right
  | access => m.call access right

/-- `exec_binop` -/
def execBinop (op : Operator) (left right : Value O K M) :
    Except (Raised O K M E) (Value O K M) :=
  match w.valGetAttr left (w.intern op.name) with
  | .error e => .error (.lookup e)
  | .ok none => .error (.attributeError left op.name)
  | .ok (some access) => w.execCall m access right

/-- The type of the left operand, where the instruction knows it. -/
def fastType (op : Operator) (left : Value O K M) : Option BasicType :=
  match w.typeOf left with
  | some t => if t ∈ op.fastTypes then some t else none
  | none => none

/-- The instruction of an operator, as a function of its operands. -/
def inst (op : Operator) (left right : Value O K M) : Except (Raised O K M E) (Value O K M) :=
  match w.fastType op left with
  | some t =>
    match op.comparison? with
    | some c => doComparison c left right (w.ufo m t left right)
    | none => w.binop m t op left right
  | none => w.execBinop m op left right

end Operands

end Yog
