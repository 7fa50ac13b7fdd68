import Yog.Inst

/-!
# The syntax tree

The nodes the parser builds (`parser.h`), split into expressions and statements as the grammar
has them. A list field that C keeps as nil or a non-empty array is a list, empty for nil. An
augmented assignment is what the parser makes of it: an assignment whose right side is a binary
(or logical) operation that shares its left side. Unary operators and `=~` are calls.

Arguments carry the line of their call, which nothing reads.
-/

namespace Yog

/-- What an action of `parser.y` reads for a line when it takes a token for a node, or a node for a
token. -/
inductive Misread where
  /-- `NODE_LINENO` of `[`, `{` or `not`, tokens without a value: `YUNDEF`. -/
  | undef
  /-- `NODE_LINENO` of a unary operator: its identifier. -/
  | id (name : ID)
  /-- `TOKEN_LINENO` of the left side of a multiple assignment: its `left`. -/
  | left (val : Nat)
  deriving DecidableEq, Repr

def Misread.word : Misread → Nat
  | .undef => 2
  | .id name => name.toNat
  | .left val => val

/-- The line of a node. It is the line of the token that the node starts with, unless something else
is read; a node that starts with another one has the line of that. -/
structure Lineno where
  start : Nat
  misread : Option Misread
  deriving DecidableEq, Repr

instance (n : Nat) : OfNat Lineno n := ⟨⟨n, none⟩⟩

/-- `YogNode.lineno` -/
def Lineno.number (lineno : Lineno) : Nat := (lineno.misread.map Misread.word).getD lineno.start

theorem Lineno.number_eq_iff (lineno : Lineno) :
    lineno.number = lineno.start ↔ ∀ m ∈ lineno.misread, m.word = lineno.start := by
  obtain ⟨start, _ | m⟩ := lineno <;> simp [Lineno.number]

/-- The values a compiled body can hold in its constants besides code. -/
inductive Val where
  | nil
  | bool (b : Bool)
  | fixnum (n : Int)
  | bignum (n : Int)
  | float (bits : UInt64)
  | string (s : String)
  | symbol (id : ID)
  | regexp (source : String) (ignoreCase : Bool)
  | objectClass
  deriving DecidableEq, Repr

/-- `NODE_PARAM`, `NODE_VAR_PARAM`, `NODE_KW_PARAM`, `NODE_BLOCK_PARAM`. -/
inductive ParamType where
  | param
  | varParam
  | kwParam
  | blockParam
  deriving DecidableEq, Repr

/-- `a as b` in a `from` statement. -/
structure ImportedAttr where
  lineno : Lineno
  name : ID
  as : Option ID
  deriving DecidableEq, Repr

mutual

inductive Expr where
  | array (lineno : Lineno) (elems : List Expr)
  | assign (lineno : Lineno) (left right : Expr)
  | attr (lineno : Lineno) (obj : Expr) (name : ID)
  | binop (lineno : Lineno) (op : Binop) (left right : Expr)
  | conditional (lineno : Lineno) (test trueExpr falseExpr : Expr)
  | dict (lineno : Lineno) (elems : List DictElem)
  | funcCall (lineno : Lineno) (callee : Expr) (args : Args) (blockarg : Option BlockArg)
  | literal (lineno : Lineno) (val : Val)
  | logicalAnd (lineno : Lineno) (left right : Expr)
  | logicalOr (lineno : Lineno) (left right : Expr)
  | not (lineno : Lineno) (expr : Expr)
  | set (lineno : Lineno) (elems : List Expr)
  | subscript (lineno : Lineno) (prefix_ index : Expr)
  | super (lineno : Lineno)
  | variable (lineno : Lineno) (id : ID)

inductive DictElem where
  | mk (key value : Expr)

inductive KwArg where
  | mk (lineno : Lineno) (name : ID) (value : Expr)

/-- The arguments of a call; `and_block` is the argument written `&expr`. -/
inductive Args where
  | mk (posargs : List Expr) (kwargs : List KwArg) (vararg varkwarg andBlock : Option Expr)

inductive BlockArg where
  | mk (lineno : Lineno) (params : List Param) (stmts : List Stmt)

inductive Param where
  | mk (type : ParamType) (lineno : Lineno) (name : ID) (default_ : Option Expr)

/-- An `except` clause: its conditions, the variable after `as` and its body. -/
inductive ExceptBody where
  | mk (lineno : Lineno) (types : List Expr) (var : Option ID) (stmts : List Stmt)

inductive Stmt where
  | expr (e : Expr)
  | break_ (lineno : Lineno) (exprs : List Expr)
  | klass (lineno : Lineno) (decorators : List Expr) (name : ID) (super : Option Expr)
      (stmts : List Stmt)
  | except (lineno : Lineno) (head : List Stmt) (excepts : List ExceptBody) (else_ : List Stmt)
  | finally_ (lineno : Lineno) (head body : List Stmt)
  | from_ (lineno : Lineno) (pkg : ID) (pkgRest : List ID) (attr : ImportedAttr)
      (attrs : List ImportedAttr)
  | funcDef (lineno : Lineno) (decorators : List Expr) (name : ID) (params : List Param)
      (stmts : List Stmt)
  | if_ (lineno : Lineno) (test : Expr) (stmts tail : List Stmt)
  | import_ (lineno : Lineno) (name : ID) (nameRest : List ID) (as : Option ID)
  | module_ (lineno : Lineno) (name : ID) (stmts : List Stmt)
  | multiAssign (lineno : Lineno) (left : List Expr) (middle : Option Expr) (right : List Expr)
      (rhs : Expr) (rhsRest : List Expr)
  | next (lineno : Lineno) (exprs : List Expr)
  | nonlocal (lineno : Lineno) (names : List ID)
  | raise (lineno : Lineno) (expr : Option Expr)
  | return_ (lineno : Lineno) (exprs : List Expr)
  | while_ (lineno : Lineno) (test : Expr) (stmts : List Stmt)

end

def Expr.lineno : Expr → Lineno
  | .array n _ | .assign n _ _ | .attr n _ _ | .binop n _ _ _ | .conditional n _ _ _ | .dict n _
  | .funcCall n _ _ _ | .literal n _ | .logicalAnd n _ _ | .logicalOr n _ _ | .not n _ | .set n _
  | .subscript n _ _ | .super n | .variable n _ => n

def Stmt.lineno : Stmt → Lineno
  | .expr e => e.lineno
  | .break_ n _ | .klass n _ _ _ _ | .except n _ _ _ | .finally_ n _ _ | .from_ n _ _ _ _
  | .funcDef n _ _ _ _ | .if_ n _ _ _ | .import_ n _ _ _ | .module_ n _ _
  | .multiAssign n _ _ _ _ _ | .next n _ | .nonlocal n _ | .raise n _ | .return_ n _
  | .while_ n _ _ => n

def DictElem.key : DictElem → Expr
  | .mk key _ => key

def DictElem.value : DictElem → Expr
  | .mk _ value => value

def KwArg.lineno : KwArg → Lineno
  | .mk lineno _ _ => lineno

def KwArg.name : KwArg → ID
  | .mk _ name _ => name

def KwArg.value : KwArg → Expr
  | .mk _ _ value => value

def Param.type : Param → ParamType
  | .mk type _ _ _ => type

def Param.lineno : Param → Lineno
  | .mk _ lineno _ _ => lineno

def Param.name : Param → ID
  | .mk _ _ name _ => name

def Param.default_ : Param → Option Expr
  | .mk _ _ _ default_ => default_

/-- `get_last_lineno`, with the line the callers fall back to when the array is nil. -/
def lastLineno (stmts : List Stmt) (lineno : Lineno) : Lineno :=
  (stmts.getLast?.map Stmt.lineno).getD lineno

end Yog
