import Yog.Lib.Partial
import Yog.YogString

/-!
# The lexer

`lexer.c`. A lexer reads a text that is one line to it, or a file of which `readline` gets the
lines. The value of a number, a name or a regular expression is the characters it is made of. The string of
a heredoc is read after its token has been returned, so such a token has the number of its string.

`isspace` and the others of its kind are those of the C locale, and nothing is of a class that is no
ASCII character. What is behind the characters of a line in memory is a parameter, since the search
for an end mark looks there.
-/

namespace Yog

namespace Lexer

def ch (c : Char) : YogChar := toYogChar c.toNat

def nul : YogChar := toYogChar 0

def lf : YogChar := toYogChar 0x0a

def cr : YogChar := toYogChar 0x0d

def quotation : YogChar := toYogChar 0x22

def apostrophe : YogChar := toYogChar 0x27

def backslash : YogChar := toYogChar 0x5c

def isblank (c : YogChar) : Bool := c = ch ' ' || c.val = 0x09

def isspace (c : YogChar) : Bool := c = ch ' ' || 0x09 ≤ c.val && c.val ≤ 0x0d

def isdigit (c : YogChar) : Bool := 0x30 ≤ c.val && c.val ≤ 0x39

def isalpha (c : YogChar) : Bool := 0x41 ≤ c.val && c.val ≤ 0x5a || 0x61 ≤ c.val && c.val ≤ 0x7a

def isalnum (c : YogChar) : Bool := isalpha c || isdigit c

def isNameChar (c : YogChar) : Bool := if isascii c.val then isalnum c || c = ch '_' else true

def isBinaryChar (c : YogChar) : Bool := c = ch '0' || c = ch '1'

def isOctetChar (c : YogChar) : Bool := 0x30 ≤ c.val && c.val ≤ 0x37

def isDigitChar (c : YogChar) : Bool := 0x30 ≤ c.val && c.val ≤ 0x39

def isHexChar (c : YogChar) : Bool :=
  isDigitChar c || 0x61 ≤ c.val && c.val ≤ 0x66 || 0x41 ≤ c.val && c.val ≤ 0x46

/-- What the end mark of a heredoc goes on with. -/
def isMarkChar (c : YogChar) : Bool := isalnum c || c = ch '_'

end Lexer

/-- `TK_*` -/
inductive TokenType where
  | eof | newline | number | string | regexp | symbol | name
  | lbrace | rbrace | lpar | rpar | lbracket | rbracket | dot | comma | colon | at_ | question
  | plus | plusEqual | minus | minusEqual | star | starEqual | starStar | starStarEqual
  | div | divEqual | divDiv | divDivEqual | percent | percentEqual
  | equal | equalEqual | equalTilda | not_ | notEqual
  | less | lessEqual | ufo | lshift | lshiftEqual | greater | greaterEqual | rshift | rshiftEqual
  | bar | barEqual | barBar | barBarEqual | and_ | andEqual | andAnd | andAndEqual
  | xor_ | xorEqual | tilda
  | file | line | as_ | break_ | klass | def_ | do_ | elif | else_ | end_ | except | false_
  | finally_ | from_ | if_ | import_ | module_ | next | nil | nonlocal | raise | return_ | super
  | true_ | try_ | while_
  deriving DecidableEq

inductive TokenVal where
  | undef
  | integer (digits : List YogChar)
  | float (digits : List YogChar)
  | string (s : List YogChar)
  /-- The string of this number is still to be read. -/
  | heredoc (str : Nat)
  | regexp (s : List YogChar) (ignoreCase : Bool)
  | id (name : List YogChar)
  deriving DecidableEq

structure Token where
  type : TokenType
  val : TokenVal
  lineno : Nat
  deriving DecidableEq

inductive LexError where
  | numberWithoutDigits
  | trailingUnderscore
  | eolInString
  | eolInRegexp
  | eofInComment
  | eofInHeredoc (lineno : Nat)
  | popFromEmpty
  deriving DecidableEq

inductive LexState where
  | expr
  | name
  | op
  deriving DecidableEq

/-- What a lexer changes on a line. -/
structure Cursor where
  state : LexState
  nextIndex : Nat
  parenDepth : UInt64
  endedTypeStack : List TokenType
  parenDepthStack : List UInt64

structure HereDoc where
  /-- The number of the string. -/
  str : Nat
  end_ : List YogChar
  lineno : Nat

structure Lexer where
  cursor : Cursor
  /-- What is left of the file. -/
  fp : Option (List Byte)
  line : Option (List YogChar)
  lineno : Nat
  encoding : Encoding
  heredocQueue : List HereDoc
  /-- The strings of the heredocs, in the order of their tokens. -/
  strs : List (List YogChar)

namespace Lexer

/-- `YogLexer_new` -/
def new (encoding : Encoding) : Lexer where
  cursor := ⟨.expr, 0, 0, [], []⟩
  fp := none
  line := none
  lineno := 0
  encoding
  heredocQueue := []
  strs := []

/-- The lexer of `YogParser_parse`. -/
def ofText (encoding : Encoding) (src : List YogChar) : Lexer :=
  { new encoding with line := some src, lineno := 1 }

/-- The lexer of `YogParser_parse_file`, which has found out the encoding. -/
def ofFile (encoding : Encoding) (fp : List Byte) : Lexer := { new encoding with fp := some fp }

/-- The loop of `readline` and the byte it takes behind a `'\r'`: the bytes of the line and those
that are left. -/
def splitLine : List Byte → List Byte × List Byte
  | [] => ([], [])
  | c :: fp =>
    if c = 0x0a then ([c], fp)
    else if c = 0x0d then ([c], if fp.head? = some 0x0a then fp.tail else fp)
    else (c :: (splitLine fp).1, (splitLine fp).2)

/-- `readline`, which gets a line or answers `FALSE`. -/
def readline (self : Lexer) : Option Lexer :=
  match self.fp with
  | none => none
  | some [] => none
  | some (c :: fp) =>
    some { self with
      fp := some (splitLine (c :: fp)).2
      line := some (self.encoding.convToYog (splitLine (c :: fp)).1)
      lineno := self.lineno + 1 }

end Lexer

namespace Cursor

variable (line : List YogChar)

/-- `nextc` -/
def nextc (self : Cursor) : YogChar × Cursor :=
  match (line)[self.nextIndex]? with
  | none => (Lexer.nul, self)
  | some c => (c, { self with nextIndex := self.nextIndex + 1 })

/-- `pushback` -/
def pushback (self : Cursor) (c : YogChar) : Cursor :=
  if c = Lexer.nul then self else { self with nextIndex := self.nextIndex - 1 }

def setState (self : Cursor) (state : LexState) : Cursor := { self with state }

/-- A loop that reads characters while `p` holds of them, and the character it ends with. `p` does
not hold of `'\0'`, so the loop ends with the line. -/
def readWhile (p : YogChar → Bool) (self : Cursor) : List YogChar × YogChar × Cursor :=
  let cs := (line.drop self.nextIndex).takeWhile p
  (cs, nextc line { self with nextIndex := self.nextIndex + cs.length })

/-- `skip_whitespace` -/
def skipWhitespace (self : Cursor) : Cursor :=
  let (_, c, self) := self.readWhile line Lexer.isspace
  self.pushback c

/-- The loop over a line comment: the character it ends with. -/
def skipLineComment (self : Cursor) : YogChar × Cursor :=
  (self.readWhile line fun c => c ≠ Lexer.cr && c ≠ Lexer.lf && c ≠ Lexer.nul).2

/-- The loop of `read_number`: the characters it adds. -/
def readDigits (isValidChar : YogChar → Bool) : List YogChar → Except LexError (List YogChar)
  | [] => .ok []
  | [c] =>
    if isValidChar c then .ok [c]
    else if c = Lexer.ch '_' then .error .numberWithoutDigits
    else .ok []
  | c :: d :: cs =>
    if isValidChar c then (readDigits isValidChar (d :: cs)).map (c :: ·)
    else if c = Lexer.ch '_' then
      if d = Lexer.ch '_' then .error .trailingUnderscore
      else if !isValidChar d then .error .numberWithoutDigits
      else (readDigits isValidChar cs).map (c :: d :: ·)
    else .ok []

/-- `read_number` -/
def readNumber (isValidChar : YogChar → Bool) (self : Cursor) :
    Except LexError (List YogChar × Cursor) :=
  let (c, self) := self.nextc line
  if !isValidChar c then .error .numberWithoutDigits
  else do
    let cs ← readDigits isValidChar (line.drop self.nextIndex)
    let (c', self) := nextc line { self with nextIndex := self.nextIndex + cs.length }
    return (c :: cs, self.pushback c')

/-- What a token of the line is: its type, its value and the cursor behind it. -/
abbrev Scanned := Except LexError (TokenType × TokenVal × Cursor)

def token (self : Cursor) (type : TokenType) : Scanned := .ok (type, .undef, self)

/-- `RETURN_ID_TOKEN` -/
def idToken (self : Cursor) (type : TokenType) (name : String) : Scanned :=
  .ok (type, .id (YogString.fromString name), self)

/-- `RETURN_INT` -/
def intToken (self : Cursor) (digits : List YogChar) : Scanned :=
  .ok (.number, .integer digits, self.setState .op)

/-- A number in a base that its second character `c2` names. -/
def baseToken (isValidChar : YogChar → Bool) (self : Cursor) (c c2 : YogChar) : Scanned := do
  let (digits, self) ← self.readNumber line isValidChar
  self.intToken (c :: c2 :: digits)

/-- A number that begins with the digit `c` and names no base. -/
def decimalToken (self : Cursor) (c : YogChar) : Scanned :=
  let (digits, c', self) := self.readWhile line Lexer.isdigit
  if c' = Lexer.ch '.' then
    let (c2, self) := self.nextc line
    if Lexer.isdigit c2 then
      let (fraction, c3, self) := self.readWhile line Lexer.isdigit
      .ok (.number, .float (c :: digits ++ c' :: c2 :: fraction), (self.pushback c3).setState .op)
    else ((self.pushback c2).pushback c').intToken (c :: digits)
  else (self.pushback c').intToken (c :: digits)

/-- The cases of the digits. -/
def numberToken (self : Cursor) (c : YogChar) : Scanned :=
  if c = Lexer.ch '0' then
    let (c2, self') := self.nextc line
    if c2 = Lexer.ch 'b' ∨ c2 = Lexer.ch 'B' then self'.baseToken line Lexer.isBinaryChar c c2
    else if c2 = Lexer.ch 'd' ∨ c2 = Lexer.ch 'D' then self'.baseToken line Lexer.isDigitChar c c2
    else if c2 = Lexer.ch 'o' ∨ c2 = Lexer.ch 'O' then self'.baseToken line Lexer.isOctetChar c c2
    else if c2 = Lexer.ch 'x' ∨ c2 = Lexer.ch 'X' then self'.baseToken line Lexer.isHexChar c c2
    else (self'.pushback c2).decimalToken line c
  else self.decimalToken line c

/-- `read_elf` -/
def readElf (self : Cursor) : Bool × Cursor :=
  let (c, self) := self.nextc line
  if c ≠ Lexer.ch 'e' then (false, self.pushback c)
  else
    let (c2, self) := self.nextc line
    if c2 ≠ Lexer.ch 'l' then (false, (self.pushback c2).pushback c)
    else
      let (c3, self) := self.nextc line
      if c3 ≠ Lexer.ch 'f' then (false, ((self.pushback c3).pushback c2).pushback c)
      else (true, self)

/-- The cases `'+'` and `'-'`. -/
def signToken (self : Cursor) (type equalType : TokenType) (name selfName : String) : Scanned :=
  let (c2, self) := self.nextc line
  if c2 = Lexer.ch '=' then (self.setState .expr).token equalType
  else if self.state = .name ∧ c2 = Lexer.ch 's' then
    let (elf, self) := self.readElf line
    if elf then (self.setState .op).idToken .name selfName
    else ((self.pushback c2).setState .expr).idToken type name
  else ((self.pushback c2).setState .expr).idToken type name

/-- What operators are made of one character: by itself, doubled, and with `'='` behind. A name that
is `none` is not returned with the token. -/
structure Doubled where
  c : YogChar
  type : TokenType
  name : String
  equalType : TokenType
  doubledType : TokenType
  doubledName : Option String
  doubledEqualType : TokenType

/-- The cases `'*'`, `'/'` where no expression can begin, `'|'` and `'&'`. -/
def doubledToken (self : Cursor) (op : Doubled) : Scanned :=
  let self := self.setState .expr
  let (c2, self) := self.nextc line
  if c2 = Lexer.ch '=' then self.token op.equalType
  else if c2 = op.c then
    let (c3, self) := self.nextc line
    if c3 = Lexer.ch '=' then self.token op.doubledEqualType
    else match op.doubledName with
      | some name => (self.pushback c3).idToken op.doubledType name
      | none => (self.pushback c3).token op.doubledType
  else (self.pushback c2).idToken op.type op.name

def starOps : Doubled := ⟨Lexer.ch '*', .star, "*", .starEqual, .starStar, "**", .starStarEqual⟩

def divOps : Doubled := ⟨Lexer.ch '/', .div, "/", .divEqual, .divDiv, "//", .divDivEqual⟩

def barOps : Doubled := ⟨Lexer.ch '|', .bar, "|", .barEqual, .barBar, none, .barBarEqual⟩

def andOps : Doubled := ⟨Lexer.ch '&', .and_, "&", .andEqual, .andAnd, none, .andAndEqual⟩

/-- The cases `'%'` and `'^'`. -/
def equalToken (self : Cursor) (type equalType : TokenType) (name : String) : Scanned :=
  let self := self.setState .expr
  let (c2, self) := self.nextc line
  if c2 = Lexer.ch '=' then self.token equalType else (self.pushback c2).idToken type name

/-- The case `'!'`. -/
def notToken (self : Cursor) : Scanned :=
  let self := self.setState .expr
  let (c2, self) := self.nextc line
  if c2 = Lexer.ch '=' then self.idToken .notEqual "!=" else (self.pushback c2).token .not_

/-- The case `'='`. -/
def assignToken (self : Cursor) : Scanned :=
  let self := self.setState .expr
  let (c2, self) := self.nextc line
  if c2 = Lexer.ch '~' then self.idToken .equalTilda "=~"
  else if c2 = Lexer.ch '=' then self.idToken .equalEqual "=="
  else (self.pushback c2).token .equal

/-- The case `'>'`. -/
def greaterToken (self : Cursor) : Scanned :=
  let self := self.setState .expr
  let (c2, self) := self.nextc line
  if c2 = Lexer.ch '>' then
    let (c3, self) := self.nextc line
    if c3 = Lexer.ch '=' then self.token .rshiftEqual
    else (self.pushback c3).idToken .rshift ">>"
  else if c2 = Lexer.ch '=' then self.idToken .greaterEqual ">="
  else (self.pushback c2).idToken .greater ">"

/-- The case `'~'`. -/
def tildaToken (self : Cursor) : Scanned :=
  let (c2, self) := self.nextc line
  if self.state = .name ∧ c2 = Lexer.ch 's' then
    let (elf, self) := self.readElf line
    if elf then (self.setState .op).idToken .name "~self"
    else ((self.pushback c2).setState .expr).idToken .tilda "~"
  else ((self.pushback c2).setState .expr).idToken .tilda "~"

/-- The end of the case `'['`. -/
def lbracketToken (self : Cursor) : Scanned :=
  { self with state := .expr, parenDepth := self.parenDepth + 1 }.token .lbracket

/-- The case `'['`. What is behind `'['` in the name of a method is not pushed back where it is no
`']'`, and where it is one, one character is pushed back for two. -/
def bracketToken (self : Cursor) : Scanned :=
  if self.state = .name then
    let (c2, self) := self.nextc line
    if c2 = Lexer.ch ']' then
      let (c3, self) := self.nextc line
      if c3 = Lexer.ch '=' then self.idToken .name "[]="
      else (self.pushback c2).idToken .name "[]"
    else self.lbracketToken
  else self.lbracketToken

/-- The case `'\''`. -/
def symbolToken (self : Cursor) : Scanned :=
  let (name, c, self) := self.readWhile line Lexer.isMarkChar
  .ok (.symbol, .id name, self.pushback c)

/-- `keywords` -/
def keywords : List (String × TokenType) :=
  [("__FILE__", .file), ("__LINE__", .line), ("as", .as_), ("break", .break_), ("class", .klass),
    ("def", .def_), ("do", .do_), ("elif", .elif), ("else", .else_), ("end", .end_),
    ("except", .except), ("false", .false_), ("finally", .finally_), ("from", .from_),
    ("if", .if_), ("import", .import_), ("module", .module_), ("next", .next), ("nil", .nil),
    ("nonlocal", .nonlocal), ("raise", .raise), ("return", .return_), ("super", .super),
    ("true", .true_), ("try", .try_), ("while", .while_)]

/-- `__Yog_lookup_keyword__` -/
def lookupKeyword (name : List YogChar) : Option TokenType :=
  (keywords.find? fun entry => YogString.fromString entry.1 = name).map Prod.snd

/-- `push_paren_depth` and what follows it. -/
def pushParenDepth (self : Cursor) : Cursor :=
  { self with parenDepthStack := self.parenDepth :: self.parenDepthStack, parenDepth := 0 }

/-- `push_ended_type` -/
def pushEndedType (self : Cursor) (type : TokenType) : Cursor :=
  { self with endedTypeStack := type :: self.endedTypeStack }

/-- `restore_paren_depth` -/
def restoreParenDepth (self : Cursor) : Except LexError Cursor :=
  match self.parenDepthStack with
  | [] => .error .popFromEmpty
  | depth :: depths => .ok { self with parenDepth := depth, parenDepthStack := depths }

/-- The case `TK_END`. -/
def popEndedType (self : Cursor) : Except LexError Cursor :=
  match self.endedTypeStack with
  | [] => .error .popFromEmpty
  | type :: types =>
    let self := { self with endedTypeStack := types }
    if type = .do_ then self.restoreParenDepth else .ok self

/-- What a keyword does to the stacks. -/
def nest (self : Cursor) : TokenType → Except LexError Cursor
  | .do_ => .ok (self.pushParenDepth.pushEndedType .do_)
  | .klass => .ok (self.pushEndedType .klass)
  | .def_ => .ok (self.pushEndedType .def_)
  | .if_ => .ok (self.pushEndedType .if_)
  | .module_ => .ok (self.pushEndedType .module_)
  | .try_ => .ok (self.pushEndedType .try_)
  | .while_ => .ok (self.pushEndedType .while_)
  | .end_ => self.popEndedType
  | _ => .ok self

/-- The characters of a name that begins with `c`; a `'!'` or `'?'` ends it. -/
def readName (self : Cursor) (c : YogChar) : List YogChar × Cursor :=
  let (cs, c2, self) := self.readWhile line Lexer.isNameChar
  if c2 = Lexer.ch '!' then
    let (c3, self) := self.nextc line
    if c3 = Lexer.ch '?' then (c :: cs ++ [c2, c3], self) else (c :: cs ++ [c2], self.pushback c3)
  else if c2 = Lexer.ch '?' then (c :: cs ++ [c2], self)
  else (c :: cs, self.pushback c2)

/-- The default case. -/
def nameToken (self : Cursor) (c : YogChar) : Scanned :=
  let (name, self) := self.readName line c
  if self.state = .name then .ok (.name, .id name, self.setState .op)
  else match lookupKeyword name with
    | some type => do
      let self ← self.nest type
      (self.setState (if type = .def_ then .name else .expr)).token type
    | none => .ok (.name, .id name, self.setState .op)

/-- What is added for a character behind a backslash. -/
def unescape (c : YogChar) : YogChar :=
  if c = Lexer.backslash then Lexer.backslash
  else if c = Lexer.ch 'n' then Lexer.lf
  else if c = Lexer.ch 'r' then Lexer.cr
  else if c = Lexer.ch 't' then toYogChar 0x09
  else c

/-- `get_rest_size` -/
def getRestSize (self : Cursor) : Int := line.length - self.nextIndex

/-- The loop over a string literal, with what is in the buffer. -/
def stringLoop : Nat → Cursor → List YogChar → Partial LexError (List YogChar × Cursor)
  | 0, _, _ => .running
  | fuel + 1, self, buffer =>
    let (c, self) := self.nextc line
    if c = Lexer.quotation then .done (.ok (buffer, self))
    else if c = Lexer.backslash then
      if self.getRestSize line < 1 then .done (.error .eolInString)
      else
        let (c, self) := self.nextc line
        stringLoop fuel self (buffer ++ [unescape c])
    else stringLoop fuel self (buffer ++ [c])

/-- The loop over a literal regular expression. -/
def regexpLoop : Nat → Cursor → List YogChar → Partial LexError (List YogChar × Cursor)
  | 0, _, _ => .running
  | fuel + 1, self, buffer =>
    let (c, self) := self.nextc line
    if c = Lexer.ch '/' then .done (.ok (buffer, self))
    else if c = Lexer.backslash then
      if self.getRestSize line < 1 then .done (.error .eolInRegexp)
      else
        let (c, self) := self.nextc line
        if c = Lexer.ch 'n' then regexpLoop fuel self (buffer ++ [Lexer.lf])
        else if c = Lexer.ch '/' then regexpLoop fuel self (buffer ++ [c])
        else regexpLoop fuel self (buffer ++ [Lexer.backslash, c])
    else regexpLoop fuel self (buffer ++ [c])

/-- The case `'"'`. -/
def stringToken (fuel : Nat) (self : Cursor) :
    Partial LexError (TokenType × TokenVal × Cursor) := do
  let (buffer, self) ← stringLoop line fuel self []
  .done (.ok (.string, .string buffer, self.setState .op))

/-- The case `'/'` where an expression can begin. -/
def regexpToken (fuel : Nat) (self : Cursor) :
    Partial LexError (TokenType × TokenVal × Cursor) := do
  let (buffer, self) ← regexpLoop line fuel self []
  let (c, self') := self.nextc line
  let self := if c = Lexer.ch 'i' then self' else self'.pushback c
  .done (.ok (.regexp, .regexp buffer (c = Lexer.ch 'i'), self.setState .expr))

/-- The cases that read no other line and begin no heredoc. -/
def charToken (fuel : Nat) (self : Cursor) (c : YogChar) :
    Partial LexError (TokenType × TokenVal × Cursor) :=
  if Lexer.isdigit c then .done (self.numberToken line c)
  else if c = Lexer.quotation then self.stringToken line fuel
  else if c = Lexer.ch '\x7b' then
    .done ({ self with parenDepth := self.parenDepth + 1 }.token .lbrace)
  else if c = Lexer.ch '\x7d' then
    .done ({ self with parenDepth := self.parenDepth - 1 }.token .rbrace)
  else if c = Lexer.ch ')' then
    .done ({ self with state := .op, parenDepth := self.parenDepth - 1 }.token .rpar)
  else if c = Lexer.ch '[' then .done (self.bracketToken line)
  else if c = Lexer.ch ']' then
    .done ({ self with state := .op, parenDepth := self.parenDepth - 1 }.token .rbracket)
  else if c = Lexer.ch '.' then .done ((self.setState .name).token .dot)
  else if c = Lexer.ch ',' then .done ((self.setState .expr).token .comma)
  else if c = Lexer.ch '+' then .done (self.signToken line .plus .plusEqual "+" "+self")
  else if c = Lexer.ch '-' then .done (self.signToken line .minus .minusEqual "-" "-self")
  else if c = Lexer.ch '*' then .done (self.doubledToken line starOps)
  else if c = Lexer.ch '/' then
    if self.state ≠ .expr then .done (self.doubledToken line divOps)
    else self.regexpToken line fuel
  else if c = Lexer.ch '%' then .done (self.equalToken line .percent .percentEqual "%")
  else if c = Lexer.ch '=' then .done (self.assignToken line)
  else if c = Lexer.ch '>' then .done (self.greaterToken line)
  else if c = Lexer.ch '|' then .done (self.doubledToken line barOps)
  else if c = Lexer.ch '&' then .done (self.doubledToken line andOps)
  else if c = Lexer.ch '!' then .done (self.notToken line)
  else if c = Lexer.ch '^' then .done (self.equalToken line .xor_ .xorEqual "^")
  else if c = Lexer.ch '~' then .done (self.tildaToken line)
  else if c = Lexer.ch ':' then .done ((self.setState .expr).token .colon)
  else if c = Lexer.apostrophe then .done (self.symbolToken line)
  else if c = Lexer.ch '@' then .done (self.token .at_)
  else if c = Lexer.ch '?' then .done (self.token .question)
  else .done (self.nameToken line c)

end Cursor

namespace Lexer

/-- `STRING_CHARS` of the line. -/
def chars (self : Lexer) : List YogChar := self.line.getD []

/-- `NEXTC` -/
def nextc (self : Lexer) : YogChar × Lexer :=
  let (c, cursor) := self.cursor.nextc self.chars
  (c, { self with cursor })

/-- `PUSHBACK` -/
def pushback (self : Lexer) (c : YogChar) : Lexer :=
  { self with cursor := self.cursor.pushback c }

def setState (self : Lexer) (state : LexState) : Lexer :=
  { self with cursor := self.cursor.setState state }

/-- The start of a line that `readline` has got. -/
def start (self : Lexer) : Lexer := { self with cursor := { self.cursor with nextIndex := 0 } }

/-- `RETURN_VAL_TOKEN` -/
def valToken (self : Lexer) (type : TokenType) (val : TokenVal) : Token × Lexer :=
  (⟨type, val, self.lineno⟩, self)

/-- A token of the line. -/
def scanned (self : Lexer) (r : TokenType × TokenVal × Cursor) : Token × Lexer :=
  { self with cursor := r.2.2 }.valToken r.1 r.2.1

/-- `skip_comment` -/
def skipComment : Nat → Nat → Lexer → Partial LexError Lexer
  | 0, _, _ => .running
  | fuel + 1, depth, self =>
    let (c, self) := self.nextc
    if c = ch ':' then
      let (c2, self) := self.nextc
      if c2 = ch ')' then
        if depth = 1 then .done (.ok self) else skipComment fuel (depth - 1) self
      else skipComment fuel depth (self.pushback c2)
    else if c = ch '(' then
      let (c2, self) := self.nextc
      if c2 = ch ':' then skipComment fuel (depth + 1) self
      else skipComment fuel depth (self.pushback c2)
    else if c = nul then
      match self.readline with
      | none => .done (.error .eofInComment)
      | some self => skipComment fuel depth self.start
    else skipComment fuel depth self

/-- What is in memory behind the characters of the line of a number. -/
abbrev Memory := Nat → Nat → YogChar

variable (memory : Memory)

/-- `STRING_CHARS(line)[i]` -/
def charAt (self : Lexer) (i : Nat) : YogChar :=
  self.chars.getD i (memory self.lineno (i - self.chars.length))

/-- `YogString_strncmp` of what is from a position on. -/
def strncmp (s : Nat → YogChar) : List YogChar → Nat → Int
  | [], _ => 0
  | c :: cs, i => if c ≠ s i then ((c - s i).val : Int) else strncmp s cs (i + 1)

/-- The line is the end mark. -/
def isEnd (self : Lexer) (end_ : List YogChar) : Bool :=
  strncmp (self.charAt memory) end_ 0 = 0 &&
    (self.charAt memory end_.length = cr || self.charAt memory end_.length = lf)

/-- `YogString_append` of the line to the string of a heredoc. -/
def append (self : Lexer) (str : Nat) : Lexer :=
  { self with strs := self.strs.modify str (· ++ self.chars) }

/-- The loop over the lines of a heredoc. No line takes less than a byte, so the bytes of the file
are steps enough. -/
def readHeredoc (heredoc : HereDoc) : Nat → Lexer → Except LexError Lexer
  | 0, _ => .error (.eofInHeredoc heredoc.lineno)
  | steps + 1, self =>
    match self.readline with
    | none => .error (.eofInHeredoc heredoc.lineno)
    | some self =>
      if self.isEnd memory heredoc.end_ then .ok self
      else readHeredoc heredoc steps (self.append heredoc.str)

/-- The loop over the queue of the heredocs. -/
def readHeredocs : List HereDoc → Lexer → Except LexError Lexer
  | [], self => .ok { self with heredocQueue := [] }
  | heredoc :: queue, self => do
    let self ← readHeredoc memory heredoc ((self.fp.getD []).length + 1)
      { self with heredocQueue := queue }
    readHeredocs queue self

/-- `HereDoc_new` and `enqueue_heredoc` -/
def enqueueHeredoc (self : Lexer) (end_ : List YogChar) : Lexer :=
  { self with
    strs := self.strs ++ [[]]
    heredocQueue := self.heredocQueue ++ [⟨self.strs.length, end_, self.lineno⟩] }

/-- `"<<"` where an expression can begin. -/
def heredocToken (self : Lexer) : Token × Lexer :=
  let (c3, self') := self.nextc
  if !isalpha c3 && c3 ≠ ch '_' then
    (self'.pushback c3).valToken .lshift (.id (YogString.fromString "<<"))
  else
    let (cs, c, cursor) := self'.cursor.readWhile self'.chars isMarkChar
    let self'' := { self' with cursor := (cursor.pushback c).setState .op }
    (self''.enqueueHeredoc (c3 :: cs)).valToken .string (.heredoc self.strs.length)

/-- The case `'<'`. -/
def lessToken (self : Lexer) : Token × Lexer :=
  let (c2, self) := self.nextc
  if c2 = ch '<' then
    if self.cursor.state = .expr then self.heredocToken
    else
      let self := self.setState .expr
      let (c3, self) := self.nextc
      if c3 = ch '=' then self.valToken .lshiftEqual .undef
      else (self.pushback c3).valToken .lshift (.id (YogString.fromString "<<"))
  else if c2 = ch '=' then
    let self := self.setState .expr
    let (c3, self) := self.nextc
    if c3 = ch '>' then self.valToken .ufo (.id (YogString.fromString "<=>"))
    else (self.pushback c3).valToken .lessEqual (.id (YogString.fromString "<="))
  else (self.pushback c2).valToken .less (.id (YogString.fromString "<"))

section Again

-- `again` is `YogLexer_next_token`, which calls itself behind comments and within parentheses.
variable (again : Lexer → Partial LexError (Token × Lexer))

/-- The cases `'\r'` and `'\n'`. -/
def newlineToken (self : Lexer) (c : YogChar) : Partial LexError (Token × Lexer) :=
  let self :=
    if c = cr then
      let (c, self') := self.nextc
      if c ≠ lf then self'.pushback c else self'
    else self
  if 0 < self.cursor.parenDepth then again self
  else .done (.ok ((self.setState .expr).valToken .newline .undef))

/-- The case `'('`. -/
def parToken (fuel : Nat) (self : Lexer) : Partial LexError (Token × Lexer) :=
  let (c2, self) := self.nextc
  if c2 = ch ':' then do
    let self ← skipComment fuel 1 self
    again self
  else
    let cursor := self.cursor.pushback c2
    .done (.ok ({ self with
      cursor := { cursor with state := .expr, parenDepth := cursor.parenDepth + 1 } }.valToken .lpar
        .undef))

/-- The `switch` over the first character of a token. -/
def tokenAt (fuel : Nat) (self : Lexer) (c : YogChar) : Partial LexError (Token × Lexer) :=
  if c = cr ∨ c = lf then self.newlineToken again c
  else if c = ch '(' then self.parToken again fuel
  else if c = ch '<' then .done (.ok self.lessToken)
  else do
    let r ← self.cursor.charToken self.chars fuel c
    .done (.ok (self.scanned r))

end Again

/-- `YogLexer_next_token`. To go on with its first loop is to begin again, since nothing has been
put into the buffer. -/
def nextToken : Nat → Lexer → Partial LexError (Token × Lexer)
  | 0, _ => .running
  | fuel + 1, self =>
    if self.cursor.nextIndex < self.chars.length then
      let (c, self) := self.nextc
      if isblank c then
        nextToken fuel { self with cursor := self.cursor.skipWhitespace self.chars }
      else if c = ch '#' then
        let (c, cursor) := self.cursor.skipLineComment self.chars
        tokenAt (nextToken fuel) fuel { self with cursor } c
      else tokenAt (nextToken fuel) fuel self c
    else
      match readHeredocs memory self.heredocQueue self with
      | .error e => .done (.error e)
      | .ok self =>
        match self.readline with
        | none => .done (.ok (self.valToken .eof .undef))
        | some self => nextToken fuel self.start

/-- What the tokens are that the lexer gets one after the other, and the lexer behind them. -/
inductive Lexes (memory : Memory) : Lexer → List Token → Lexer → Prop where
  | nil (self : Lexer) : Lexes memory self [] self
  | cons {self self' self'' : Lexer} {t : Token} {ts : List Token} {fuel : Nat} :
    nextToken memory fuel self = .done (.ok (t, self')) → Lexes memory self' ts self'' →
    Lexes memory self (t :: ts) self''

end Lexer

end Yog
