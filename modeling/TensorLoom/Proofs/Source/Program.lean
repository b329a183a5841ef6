import TensorLoom.Proofs.Source.Grammar

/-!
# Kernel functions in C

This module reads the function of a kernel from its text and says what a run of it does, whoever
wrote it. The tokens of the text are cut into parts at semicolons and braces, and the parts are put
together to blocks, the last part first, so that a block is complete when its brace is met. Only
what a kernel needs is read: definitions of integers, loops that count up from zero, definitions and
assignments of floating-point variables, and stores to the first parameter. The other parameters are
constant. A name that is declared twice is refused, and so is a floating-point variable that is
declared in a loop.

A function is run once for each work item. Integers are defined once and do not depend on
floating-point numbers, so a run is first unrolled to the statements that it executes, each with the
integers that are in scope then (`CProgram.steps`), and these are executed in sequence
(`CProgram.runItem`). A variable keeps the values that it has had, first to last. There is no
outcome of a run that meets something that C leaves undefined: a name that is not defined, a
division by zero or an element beyond the end of an array.
-/

namespace TensorLoom

/-- A statement on floating-point numbers. -/
inductive CStatement where
  /-- `float name = value;` -/
  | float (name : String) (value : CExpr)
  /-- `name = value;` -/
  | assign (name : String) (value : CExpr)
  /-- `array[position] = value;` -/
  | store (array : String) (position value : CExpr)
deriving DecidableEq, Repr

namespace CStatement

/-- The variables that a statement declares. -/
def declared : CStatement → List String
  | float x _ => [x]
  | _ => []

/-- Whether a statement writes to an array. -/
def isStore : CStatement → Bool
  | store _ _ _ => true
  | _ => false

/-- Whether a statement gives a variable that has been declared a value. -/
def isAssign : CStatement → Bool
  | assign _ _ => true
  | _ => false

variable (x : String) (i e : CExpr)

@[simp] theorem isStore_float : (float x e).isStore = false := rfl

@[simp] theorem isStore_assign : (assign x e).isStore = false := rfl

@[simp] theorem isStore_store : (store x i e).isStore = true := rfl

@[simp] theorem isAssign_float : (float x e).isAssign = false := rfl

@[simp] theorem isAssign_assign : (assign x e).isAssign = true := rfl

@[simp] theorem isAssign_store : (store x i e).isAssign = false := rfl

end CStatement

/-- The statements of a block, one in front of the others. -/
inductive CBlock where
  | done
  /-- `int name = value;` -/
  | int (name : String) (value : CExpr) (rest : CBlock)
  | step (s : CStatement) (rest : CBlock)
  /-- `for (int name = 0; name < bound; name++)` with a block as its body. -/
  | loop (name : String) (bound : Nat) (body rest : CBlock)
deriving DecidableEq, Repr

namespace CBlock

/-- The names that are declared in a block and those inside it. -/
def declared : CBlock → List String
  | done => []
  | int x _ rest => x :: rest.declared
  | step s rest => s.declared ++ rest.declared
  | loop x _ body rest => x :: (body.declared ++ rest.declared)

/-- Whether a floating-point variable is declared in a block or inside it. -/
def declaresFloat : CBlock → Bool
  | done => false
  | int _ _ rest => rest.declaresFloat
  | step s rest => !s.declared.isEmpty || rest.declaresFloat
  | loop _ _ body rest => body.declaresFloat || rest.declaresFloat

/-- The stores that are written in a block and those inside it. -/
def stores : CBlock → List CStatement
  | done => []
  | int _ _ rest => rest.stores
  | step s rest => (if s.isStore then [s] else []) ++ rest.stores
  | loop _ _ body rest => body.stores ++ rest.stores

end CBlock

/-- The function of a kernel. -/
structure CProgram where
  name : String
  /-- The parameter that is written to. -/
  output : String
  /-- The constant parameters. -/
  inputs : List String
  body : CBlock
deriving DecidableEq, Repr

/-! ## Reading -/

/-- Tokens up to a semicolon or a brace. -/
structure CClause where
  tokens : List CToken
  ending : CToken
deriving DecidableEq, Repr

/-- Whether a token ends a clause. -/
def CToken.isEnd : CToken → Bool
  | semicolon => true
  | openingBlock => true
  | closingBlock => true
  | _ => false

/-- Cut tokens into clauses. Nothing may be left over. -/
def clauses : List CToken → Option (List CClause)
  | [] => some []
  | t :: ts =>
    if t.isEnd then do
      return ⟨[], t⟩ :: (← clauses ts)
    else
      match clauses ts with
      | some (c :: cs) => some ({ c with tokens := t :: c.tokens } :: cs)
      | _ => none

/-- What a clause says. -/
inductive CPart where
  | int (name : String) (value : CExpr)
  | step (s : CStatement)
  /-- `for (int name = 0;` -/
  | loopStart (name : String)
  /-- `name < bound;` -/
  | loopBound (name : String) (bound : Nat)
  /-- `name++) {` -/
  | loopStep (name : String)
  /-- `}` -/
  | close
deriving DecidableEq, Repr

/-- Read a clause that ends with a semicolon, given what is in front of an equals sign and what
comes behind it, if there is one. -/
def CPart.ofSides : List CToken → List CToken → Option CPart
  | [.name i, .operator .lt, .number n], [] => some (.loopBound i n)
  | [.name "for", .opening, .name "int", .name i], [.assign, .number 0] => some (.loopStart i)
  | [.name "int", .name x], .assign :: ts => do
    return .int x (← readTokens [] none ts)
  | [.name "float", .name x], .assign :: ts => do
    return .step (.float x (← readTokens [] none ts))
  | [.name x], .assign :: ts => do
    return .step (.assign x (← readTokens [] none ts))
  | left, .assign :: ts =>
    match readTokens [] none left with
    | some (.element a i) => do
      return .step (.store a i (← readTokens [] none ts))
    | _ => none
  | _, _ => none

/-- Read a clause. -/
def CPart.read : CClause → Option CPart
  | ⟨ts, .semicolon⟩ =>
    CPart.ofSides (ts.takeWhile fun t => t ≠ .assign) (ts.dropWhile fun t => t ≠ .assign)
  | ⟨[.name i, .increment, .closing], .openingBlock⟩ => some (.loopStep i)
  | ⟨[], .closingBlock⟩ => some .close
  | _ => none

/-- Put parts together to blocks: the rest of the block that the first part is in, then the rest of
the block around that one behind it, and so on. -/
def readParts : List CPart → Option (List CBlock)
  | [] => some []
  | .close :: parts => do
    return .done :: (← readParts parts)
  | .int x e :: parts =>
    match readParts parts with
    | some (block :: around) => some (.int x e block :: around)
    | _ => none
  | .step s :: parts =>
    match readParts parts with
    | some (block :: around) => some (.step s block :: around)
    | _ => none
  | .loopStart i :: .loopBound j n :: .loopStep k :: parts =>
    match readParts parts with
    | some (body :: block :: around) =>
      if i = j ∧ i = k ∧ body.declaresFloat = false then some (.loop i n body block :: around)
      else none
    | _ => none
  | _ => none

/-- Read constant parameters, up to the closing bracket. -/
def readInputs : List CToken → Option (List String)
  | [.closing] => some []
  | .comma :: .name "const" :: .name "__global" :: .name "float" :: .operator .mul :: .name x ::
      ts => do
    return x :: (← readInputs ts)
  | _ => none

/-- Read the head of a function: its name, its first parameter and the constant ones. -/
def readHead : List CToken → Option (String × String × List String)
  | .name "__kernel" :: .name "void" :: .name f :: .opening :: .name "__global" :: .name "float" ::
      .operator .mul :: .name x :: ts => do
    return (f, x, ← readInputs ts)
  | _ => none

/-- The program of a clause that opens a function and the parts behind it. -/
def CProgram.ofParts (head : List CToken) (parts : List CPart) : Option CProgram := do
  let (name, output, inputs) ← readHead head
  match ← readParts parts with
  | [body] =>
    if (output :: inputs ++ body.declared).Nodup then return ⟨name, output, inputs, body⟩ else none
  | _ => none

/-- Read the text of a function. -/
def CProgram.read (text : String) : Option CProgram := do
  match ← clauses (← tokens (lexemes text.toList)) with
  | ⟨head, .openingBlock⟩ :: cs => CProgram.ofParts head (← cs.mapM CPart.read)
  | _ => none

/-! ## Execution -/

/-- A statement that is executed, with the integers that are in scope. -/
structure CStep where
  names : Names
  statement : CStatement

/-- The statements on floating-point numbers that a block executes, in their order. -/
def CBlock.steps (item : List Nat) : CBlock → Names → Option (List CStep)
  | done, _ => some []
  | int x e rest, names => do
    let n ← (← e.eval ⟨item, names, fun _ => none, fun _ => none⟩).int?
    rest.steps item (names.define x n)
  | step s rest, names => do
    return ⟨names, s⟩ :: (← rest.steps item names)
  | loop x bound body rest, names => do
    let inner ← (List.range bound).mapM fun (i : Nat) => body.steps item (names.define x i)
    return inner.flatten ++ (← rest.steps item names)

/-- The values that the floating-point variables have had, and the output. -/
structure CState where
  floats : String → Option (List Float32)
  output : Array Float32

/-- Give a variable its first values, or more. -/
def CState.define (s : CState) (name : String) (values : List Float32) : CState :=
  { s with floats := fun x => if x = name then some values else s.floats x }

/-- The value of a floating-point constant or variable. -/
def CState.float? (s : CState) (name : String) : Option Float32 :=
  if name = "INFINITY" then some (Float32.ofBits 0x7f800000)
  else (s.floats name).bind List.getLast?

namespace CProgram

/-- The array that a constant parameter stands for. -/
def input (p : CProgram) (data : List (Array Float32)) (name : String) : Option (Array Float32) :=
  (p.inputs.zip data).lookup name

/-- What the names stand for when a statement is executed. -/
def scope (p : CProgram) (data : List (Array Float32)) (item : List Nat) (names : Names)
    (s : CState) : CScope :=
  ⟨item, names, s.float?, p.input data⟩

/-- Execute a statement. -/
def execute (p : CProgram) (data : List (Array Float32)) (item : List Nat) (s : CState)
    (t : CStep) : Option CState :=
  let scope := p.scope data item t.names s
  match t.statement with
  | .float x e => do
    let v ← (← e.eval scope).float?
    return s.define x [v]
  | .assign x e => do
    let v ← (← e.eval scope).float?
    return s.define x ((← s.floats x) ++ [v])
  | .store a i e => do
    let n ← (← i.eval scope).int?
    let v ← (← e.eval scope).float?
    if a = p.output then
      let position ← positionIn s.output.size n
      return { s with output := s.output.modify position fun _ => v }
    else none

/-- The statements that a work item executes. -/
def steps (p : CProgram) (item : List Nat) : Option (List CStep) := p.body.steps item .none

/-- The position that a work item writes to by one of the stores that it executes. -/
def target (p : CProgram) (item : List Nat) (store : Nat) : Option Int := do
  match ((← p.steps item).filter (·.statement.isStore))[store]? with
  | some ⟨names, .store _ i _⟩ => (← i.eval ⟨item, names, fun _ => none, fun _ => none⟩).int?
  | _ => none

/-- What the variables and the output are after a work item has been run. -/
def runItem (p : CProgram) (data : List (Array Float32)) (item : List Nat) (out : Array Float32) :
    Option CState := do
  (← p.steps item).foldlM (p.execute data item) ⟨fun _ => none, out⟩

/-- The output after some work items have been run one after the other. -/
def run (p : CProgram) (data : List (Array Float32)) (items : List (List Nat))
    (out : Array Float32) : Option (Array Float32) :=
  items.foldlM (fun out item => do return (← p.runItem data item out).output) out

end CProgram

/-- A function that sums along the rows of a matrix. -/
example : CProgram.read ("__kernel void sum(__global float* y, const __global float* x) \x7b\n" ++
    "  int i = get_global_id(0);\n  float s = 0.0f;\n" ++
    "  for (int j = 0; j < 3; j++) \x7b\n    s = s + x[(i*3+j)];\n  \x7d /* j */\n" ++
    "  y[i] = s;\n\x7d") =
    some ⟨"sum", "y", ["x"],
      .int "i" (.call "get_global_id" (.number 0)) <| .step (.float "s" (.decimal 0 1)) <|
        .loop "j" 3
          (.step (.assign "s" (.binary .add (.name "s") (.element "x" (.binary .add
            (.binary .mul (.name "i") (.number 3)) (.name "j"))))) .done) <|
        .step (.store "y" (.name "i") (.name "s")) .done⟩ := by decide +kernel

end TensorLoom
