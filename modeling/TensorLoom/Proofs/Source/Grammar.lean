import TensorLoom.Proofs.Source.Execution

/-!
# How C reads an expression

The generated source is text, and what a text means is up to the grammar of C. This module reads the
expressions of C from their text, independently of how they are written: the characters are cut into
words and marks, these become tokens, comments and blanks apart, and the tokens are put together by
precedence. A minus sign or a conversion in front of an operand binds closest, then come products
with quotients and remainders, then sums, then comparisons, then equality, then conjunctions, and
operators of one level group from the left. A choice between two values binds least, and groups from
the right.

Integers are evaluated as integers of any size: quotients and remainders are cut off towards zero,
and a comparison has the value 1 where it holds and 0 where it fails. Floating-point numbers are of
single precision, and the functions on them are those that the operations of a graph have. The two
are never mixed, unless an integer is converted. What comes behind a conjunction that has failed,
and the side of a choice that is not taken, is not evaluated.
-/

namespace TensorLoom

/-- The operators between two operands. -/
inductive COperator where
  | mul | div | mod
  | add | sub
  | lt | gt | le | ge
  | eq
  | and
deriving DecidableEq, Repr

/-- An expression of C, with its brackets resolved. -/
inductive CExpr where
  | name (text : String)
  | number (n : Nat)
  /-- A number of single precision, by its digits and how many of them are decimal places. -/
  | decimal (digits places : Nat)
  | negation (e : CExpr)
  /-- An operand converted to a floating-point number. -/
  | cast (e : CExpr)
  | binary (op : COperator) (a b : CExpr)
  /-- One of two values, by a condition. -/
  | choice (c a b : CExpr)
  | call (f : String) (x : CExpr)
  | call2 (f : String) (a b : CExpr)
  | element (array : String) (i : CExpr)
deriving DecidableEq, Repr

/-! ## Values -/

/-- The value of an expression. -/
inductive CValue where
  | int (n : Int)
  | float (x : Float32)

namespace COperator

/-- How closely an operator binds its operands. -/
def level : COperator → Nat
  | mul | div | mod => 6
  | add | sub => 5
  | lt | gt | le | ge => 4
  | eq => 3
  | and => 2

/-- The result of an operator on integers. There is none of a division by zero. -/
def apply (x y : Int) : COperator → Option Int
  | mul => some (x * y)
  | div => if y = 0 then none else some (x.tdiv y)
  | mod => if y = 0 then none else some (x.tmod y)
  | add => some (x + y)
  | sub => some (x - y)
  | lt => some (if x < y then 1 else 0)
  | gt => some (if y < x then 1 else 0)
  | le => some (if x ≤ y then 1 else 0)
  | ge => some (if y ≤ x then 1 else 0)
  | eq => some (if x = y then 1 else 0)
  | and => some (if x ≠ 0 ∧ y ≠ 0 then 1 else 0)

/-- The result of an operator on floating-point numbers. Only those that are needed are there. -/
def applyFloat (x y : Float32) : COperator → Option CValue
  | mul => some (.float (x * y))
  | div => some (.float (x / y))
  | add => some (.float (x + y))
  | sub => some (.float (x - y))
  | eq => some (.int (if x == y then 1 else 0))
  | _ => none

end COperator

namespace CValue

/-- The result of an operator on operands of one type. -/
def apply (op : COperator) : CValue → CValue → Option CValue
  | int x, int y => (op.apply x y).map int
  | float x, float y => op.applyFloat x y
  | _, _ => none

/-- Whether a condition of the value holds. -/
def truth : CValue → Option Bool
  | int n => some (decide (n ≠ 0))
  | float _ => none

def negate : CValue → CValue
  | int n => int (-n)
  | float x => float (-x)

/-- The value as a floating-point number. -/
def convert : CValue → Float32
  | int n => Float32.ofInt n
  | float x => x

/-- The value of an expression of integers. -/
def int? : CValue → Option Int
  | int n => some n
  | float _ => none

/-- The value of a floating-point expression. -/
def float? : CValue → Option Float32
  | int _ => none
  | float x => some x

end CValue

/-- What an expression is evaluated in: the identity of the work item and what the names stand for.
-/
structure CScope where
  item : List Nat
  ints : Names
  floats : String → Option Float32
  arrays : String → Option (Array Float32)

namespace CScope

/-- Nothing is known but integers. -/
def ofNames (names : Names) : CScope := ⟨[], names, fun _ => none, fun _ => none⟩

/-- The value of a name. -/
def value (scope : CScope) (s : String) : Option CValue :=
  match scope.ints s with
  | some n => some (.int n)
  | none => (scope.floats s).map .float

/-- The value of a function of one argument. -/
def call (scope : CScope) (f : String) : CValue → Option CValue
  | .int n =>
    if f = "get_global_id" ∧ 0 ≤ n then some (.int (scope.item.getD n.toNat 0 : Nat)) else none
  | .float x =>
    if f = "exp" then some (.float (Unary.exp.apply x))
    else if f = "log" then some (.float (Unary.log.apply x))
    else if f = "sign" then some (.float (Unary.sign.apply x))
    else none

/-- An element of an array. -/
def element (scope : CScope) (array : String) (i : CValue) : Option CValue := do
  let xs ← scope.arrays array
  return .float (← xs[← positionIn xs.size (← i.int?)]?)

end CScope

/-- The value of a function of two arguments. -/
def CValue.call2 (f : String) : CValue → CValue → Option CValue
  | float a, float b =>
    if f = "max" then some (.float (larger a b))
    else if f = "pow" then some (.float (Binary.pow.apply a b))
    else none
  | _, _ => none

/-- The value of an expression. -/
def CExpr.eval (scope : CScope) : CExpr → Option CValue
  | name s => scope.value s
  | number n => some (.int n)
  | decimal digits places => some (.float (Float32.ofScientific digits true places))
  | negation e => do
    return (← e.eval scope).negate
  | cast e => do
    return .float (← e.eval scope).convert
  | binary .and a b => do
    if ← (← a.eval scope).truth then
      return .int (if ← (← b.eval scope).truth then 1 else 0)
    else return .int 0
  | binary op a b => do
    CValue.apply op (← a.eval scope) (← b.eval scope)
  | choice c a b => do
    if ← (← c.eval scope).truth then a.eval scope else b.eval scope
  | call f x => do
    scope.call f (← x.eval scope)
  | call2 f a b => do
    CValue.call2 f (← a.eval scope) (← b.eval scope)
  | element array i => do
    scope.element array (← i.eval scope)

/-! ## Tokens -/

/-- What the characters of a text are cut into: words of letters, digits, underscores and points,
and single other characters. -/
inductive Lexeme where
  | word (letters : List Char)
  | mark (c : Char)
deriving DecidableEq, Repr

/-- Whether a character is part of a name. -/
def isWordChar (c : Char) : Bool := c.isAlphanum || c == '_'

/-- Whether a word goes on with a character. Numbers have points. -/
def goesOn (c : Char) : Bool := isWordChar c || c == '.'

/-- Cut a text. A word goes on as long as it can. -/
def lexemes : List Char → List Lexeme
  | [] => []
  | c :: cs =>
    if goesOn c then
      match lexemes cs with
      | .word letters :: rest => .word (c :: letters) :: rest
      | rest => .word [c] :: rest
    else .mark c :: lexemes cs

/-- A token of a program. -/
inductive CToken where
  | name (text : String)
  | number (n : Nat)
  | decimal (digits places : Nat)
  | operator (op : COperator)
  | opening
  | closing
  | openingIndex
  | closingIndex
  | openingBlock
  | closingBlock
  | question
  | colon
  | comma
  | semicolon
  | assign
  | increment
deriving DecidableEq, Repr

/-- The token of a number of single precision, which has a point and ends in `f`. -/
def decimalToken (letters : List Char) : Option CToken :=
  match letters.dropWhile Char.isDigit with
  | '.' :: rest =>
    let places := rest.takeWhile Char.isDigit
    if rest.dropWhile Char.isDigit = ['f'] then
      let digits := letters.takeWhile Char.isDigit ++ places
      some (.decimal (Nat.ofDigitChars 10 digits 0) places.length)
    else none
  | _ => none

/-- The token of a word. A word that starts with a digit is a number in decimal digits. One that
starts with 0 and goes on with digits is not decimal in C. -/
def wordToken : List Char → Option CToken
  | [] => none
  | ['0'] => some (.number 0)
  | c :: rest =>
    if c.isDigit then
      if rest.all Char.isDigit then
        if c = '0' then none else some (.number (Nat.ofDigitChars 10 (c :: rest) 0))
      else decimalToken (c :: rest)
    else if (c :: rest).all isWordChar then some (.name (String.ofList (c :: rest)))
    else none

/-- The single marks. -/
def markTokens : List (Char × CToken) :=
  [('*', .operator .mul), ('/', .operator .div), ('%', .operator .mod), ('+', .operator .add),
    ('-', .operator .sub), ('<', .operator .lt), ('>', .operator .gt), ('(', .opening),
    (')', .closing), ('[', .openingIndex), (']', .closingIndex), ('\x7b', .openingBlock),
    ('\x7d', .closingBlock), ('?', .question), (':', .colon), (',', .comma), (';', .semicolon),
    ('=', .assign)]

/-- The token of a single mark. -/
def markToken (c : Char) : Option CToken := markTokens.lookup c

/-- The marks of two characters that are needed. -/
def jointTokens : List ((Char × Char) × CToken) :=
  [(('<', '='), .operator .le), (('>', '='), .operator .ge), (('=', '='), .operator .eq),
    (('&', '&'), .operator .and), (('+', '+'), .increment)]

/-- The token of a mark of two characters. -/
def jointToken (c d : Char) : Option CToken := jointTokens.lookup (c, d)

/-- The first two characters of the longer marks of C, and those of comments. -/
def jointMarks : List (Char × Char) :=
  [('+', '+'), ('+', '='), ('-', '-'), ('-', '='), ('-', '>'), ('*', '='), ('/', '='), ('/', '/'),
    ('/', '*'), ('%', '='), ('%', '>'), ('%', ':'), ('<', '<'), ('<', '='), ('<', ':'), ('<', '%'),
    ('>', '>'), ('>', '='), ('=', '='), ('!', '='), ('&', '&'), ('&', '='), ('|', '|'), ('|', '='),
    ('^', '='), (':', '>'), (':', ':'), ('#', '#')]

/-- Whether a character that follows another one goes on with its mark. -/
def isJoint (c d : Char) : Bool := jointMarks.contains (c, d)

/-- A mark in front of tokens. Blanks and line ends only keep tokens apart. -/
def withMark (c : Char) (ts : Option (List CToken)) : Option (List CToken) :=
  if c = ' ' ∨ c = '\n' then ts
  else do
    return (← markToken c) :: (← ts)

mutual

/-- The tokens of a text. -/
def tokens : List Lexeme → Option (List CToken)
  | [] => some []
  | .word letters :: rest => do
    return (← wordToken letters) :: (← tokens rest)
  | .mark c :: .mark d :: rest =>
    if isJoint c d then
      if c = '/' ∧ d = '*' then behindComment rest
      else do
        return (← jointToken c d) :: (← tokens rest)
    else withMark c (tokens (.mark d :: rest))
  | .mark c :: rest => withMark c (tokens rest)

/-- The tokens behind a comment. -/
def behindComment : List Lexeme → Option (List CToken)
  | [] => none
  | .mark '*' :: .mark '/' :: rest => tokens rest
  | _ :: rest => behindComment rest

end

/-! ## Precedence -/

/-- What has been opened and waits for an operand that is still to be read. -/
inductive Pending where
  | negation
  | cast
  | operand (a : CExpr) (op : COperator)
  | bracket
  | call (f : String)
  | callSecond (f : String) (a : CExpr)
  | element (array : String)
  /-- The first value of a choice is to be read. -/
  | condition (c : CExpr)
  /-- The second value of a choice is to be read. -/
  | otherwise (c a : CExpr)

/-- Apply the operators that wait for an operand and bind at least as closely as a level. -/
def complete (level : Nat) : List Pending → CExpr → List Pending × CExpr
  | .negation :: pending, e => complete level pending (.negation e)
  | .cast :: pending, e => complete level pending (.cast e)
  | .operand a op :: pending, e =>
    if level ≤ op.level then complete level pending (.binary op a e)
    else (.operand a op :: pending, e)
  | .otherwise c a :: pending, e =>
    if level ≤ 1 then complete level pending (.choice c a e)
    else (.otherwise c a :: pending, e)
  | pending, e => (pending, e)

/-- Close the bracket that was opened last. -/
def close : List Pending × CExpr → Option (List Pending × CExpr)
  | (.bracket :: pending, e) => some (pending, e)
  | (.call f :: pending, x) => some (pending, .call f x)
  | (.callSecond f a :: pending, b) => some (pending, .call2 f a b)
  | _ => none

/-- Read tokens behind what is pending, and behind an operand if there is one. A bracket that is
opened directly behind another one makes that one a type, to which its contents are converted. -/
def readTokens : List Pending → Option CExpr → List CToken → Option CExpr
  | pending, none, .name f :: .opening :: rest => readTokens (.call f :: pending) none rest
  | pending, none, .name a :: .openingIndex :: rest => readTokens (.element a :: pending) none rest
  | pending, none, .name s :: rest => readTokens pending (some (.name s)) rest
  | pending, none, .number n :: rest => readTokens pending (some (.number n)) rest
  | pending, none, .decimal digits places :: rest =>
    readTokens pending (some (.decimal digits places)) rest
  | pending, none, .opening :: rest => readTokens (.bracket :: pending) none rest
  | pending, none, .operator .sub :: rest => readTokens (.negation :: pending) none rest
  | pending, some e, .operator op :: rest =>
    let (pending, a) := complete op.level pending e
    readTokens (.operand a op :: pending) none rest
  | pending, some e, .question :: rest =>
    let (pending, c) := complete 2 pending e
    readTokens (.condition c :: pending) none rest
  | pending, some e, .colon :: rest =>
    match complete 0 pending e with
    | (.condition c :: pending, a) => readTokens (.otherwise c a :: pending) none rest
    | _ => none
  | pending, some e, .comma :: rest =>
    match complete 0 pending e with
    | (.call f :: pending, a) => readTokens (.callSecond f a :: pending) none rest
    | _ => none
  | pending, some e, .closingIndex :: rest =>
    match complete 0 pending e with
    | (.element a :: pending, i) => readTokens pending (some (.element a i)) rest
    | _ => none
  | pending, some e, .closing :: .opening :: rest =>
    match complete 0 pending e with
    | (.bracket :: pending, .name "float") => readTokens (.bracket :: .cast :: pending) none rest
    | _ => none
  | pending, some e, .closing :: rest => do
    let (pending, e) ← close (complete 0 pending e)
    readTokens pending (some e) rest
  | pending, some e, [] =>
    match complete 0 pending e with
    | ([], e) => some e
    | _ => none
  | _, _, _ => none

/-- Read the text of an expression. -/
def CExpr.read (text : String) : Option CExpr := do
  readTokens [] none (← tokens (lexemes text.toList))

/-- The value of a text as an integer expression of C. -/
def valueOfText (names : Names) (text : String) : Option Int := do
  (← (← CExpr.read text).eval (.ofNames names)).int?

/-- Precedence and grouping, a negative factor, and a number that is not decimal. -/
example : valueOfText .none "7-2*-3-4%3/2" = some 13 := by decide +kernel
example : valueOfText .none "((8-3-1)>=4)" = some 1 := by decide +kernel
example : valueOfText .none "1+010" = none := by decide +kernel

/-- A guarded element, a conversion and functions. -/
example : CExpr.read "((i<4) && (j<2)) ? x[(i*2+j)] : -0.5f" =
    some (.choice (.binary .and (.binary .lt (.name "i") (.number 4))
      (.binary .lt (.name "j") (.number 2)))
      (.element "x" (.binary .add (.binary .mul (.name "i") (.number 2)) (.name "j")))
      (.negation (.decimal 5 1))) := by decide +kernel
example : CExpr.read "max(acc, /* equal */ (float)(a==b)/pow(c, 2.0f))" =
    some (.call2 "max" (.name "acc") (.binary .div (.cast (.binary .eq (.name "a") (.name "b")))
      (.call2 "pow" (.name "c") (.decimal 20 1)))) := by decide +kernel

end TensorLoom
