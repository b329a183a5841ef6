import TensorLoom.Session.Basic
import TensorLoom.OpTree.MapLeaves

/-!
# Building and fusing graphs

Five steps make the tensors of a session. Which rules of fusion apply is a matter of the kind of the
operands, whether these have been realized, and the switches of the session.

* `Session.host` takes data of the host.
* `Session.elementwise` splices unrealized pointwise operands into one tree, and folds into the tree
  of a convolution what is computed from it alone.
* `Session.movement` drops movements that change nothing, pushes movements below pointwise trees,
  and chains movements.
* `Session.reduce` and `Session.convolve` take their operands as they are.
-/

namespace TensorLoom.Session

/-- A layout question inside a session. -/
def liftLayout {α : Type} (x : Attempt LayoutError α) : SessionM α :=
  ExceptT.mk (pure (x.mapError (Stop.mapRefusal .layout)))

/-- Refuse a step. -/
def fail {α : Type} (error : SessionError) : SessionM α := throw (.refused error)

/-- The tensor of a number. -/
def fetch (x : TensorId) : SessionM Tensor := do
  match (← get).tensors[x]? with
  | some t => pure t
  | none => throw (.fault .outOfBounds)

/-- An identity that no node has had. -/
def freshNode : SessionM Nat :=
  modifyGet fun s => (s.nextNode, { s with nextNode := s.nextNode + 1 })

/-- Add a tensor. -/
def addTensor (shape : List Nat) (content : Content) : SessionM TensorId :=
  modifyGet fun s => (s.tensors.size, { s with tensors := s.tensors.push ⟨shape, content⟩ })

/-- Add a tensor made by one new node. -/
def addNode (shape : List Nat) (category : Category) (op : Op) (sources : List (OpTree TensorId)) :
    SessionM TensorId := do
  let id ← freshNode
  addTensor shape (.deferred category (.node id op sources))

/-- Take data of the host, one element for each index of the shape. -/
def host (shape : List Nat) (data : Array Float32) : SessionM TensorId := do
  liftLayout (View.checkShape shape)
  let size ← liftLayout (Shape.size shape)
  if data.size = size then addTensor shape (.host data)
  else fail (.hostDataMismatch size data.size)

/-- A tensor as an operand: its tree, if it is open for the given kind, and a leaf otherwise. -/
def splice (category : Category) (x : TensorId) : SessionM (OpTree TensorId) := do
  let s ← get
  match s.tensors[x]? with
  | some t => return if s.isOpen x category then t.tree else .leaf x
  | none => return .leaf x

/-- Whether two operands are the same leaf or the same node. -/
def isSameOperand : OpTree TensorId → OpTree TensorId → Bool
  | .leaf x, .leaf y => x = y
  | .node id _ _, .node id' _ _ => id = id'
  | _, _ => false

/-- Whether two tensors hold the same convolution of the same operands. -/
def isSameConvolution (a b : Tensor) : Bool :=
  match a.convolution?, b.convolution? with
  | some p, some q =>
    p.op = q.op && p.sources.length = q.sources.length &&
      (p.sources.zip q.sources).all fun (x, y) => isSameOperand x y
  | _, _ => false

/-- Whether an operation on these tensors is folded into the tree of a convolution: one of them is
an unrealized convolution, or both are the same one. -/
def foldsIntoProcessing (s : Session) (xs : List TensorId) : Bool :=
  match xs.filter (s.isOpen · .processing) with
  | [_] => true
  | [a, b] => match s.tensors[a]?, s.tensors[b]? with
    | some a, some b => isSameConvolution a b
    | _, _ => false
  | _ => false

/-- Make the tensor of a pointwise operation. -/
def makeElementwise (op : Op) (xs : List TensorId) (shape : List Nat) : SessionM TensorId := do
  let s ← get
  if s.rules.mergeIntoProcessing && s.foldsIntoProcessing xs then
    addNode shape .processing op (← xs.mapM (splice .processing))
  else if s.rules.mergeElementwise then
    addNode shape .elementwise op (← xs.mapM (splice .elementwise))
  else
    addNode shape .elementwise op (xs.map .leaf)

/-- Apply a pointwise operation to tensors of one shape. -/
def elementwise (op : Op) (xs : List TensorId) : SessionM TensorId := do
  if !op.isElementwise then fail (.notElementwise op)
  if xs.length ≠ op.arity then fail (.elementwiseArity op op.arity xs.length)
  let operands ← xs.mapM fetch
  let some first := operands.head? | throw (.fault .outOfBounds)
  if let some other := operands.find? (·.shape ≠ first.shape) then
    fail (.sourceShapeMismatch first.shape other.shape)
  if let some known := (← get).elementwiseMemo[(op, xs)]? then
    return known
  let made ← makeElementwise op xs first.shape
  modify fun s => { s with elementwiseMemo := s.elementwiseMemo.insert (op, xs) made }
  return made

/-- Whether a movement of this tensor is pushed onto the leaves of its tree. -/
def pushesMovement (s : Session) (m : Movement) (x : TensorId) : Bool :=
  let isPad := match m with
    | .pad _ => true
    | _ => false
  s.rules.pushMovements && s.isOpen x .elementwise && (s.rules.pushPads || !isPad)

/-- Apply a movement. One that changes neither the shape nor the layout gives the tensor itself.
The leaves of a tree are older than its tensor, so pushing a movement ends. -/
def movement (m : Movement) (x : TensorId) : SessionM TensorId := do
  if let some known := (← get).movementMemo[(m, x)]? then
    return known
  let t ← fetch x
  let tracker ← liftLayout ((Tracker.ofShape t.shape).bind (·.move m))
  let s ← get
  let made ←
    if ← liftLayout (tracker.isIdentity t.shape) then
      pure x
    else if s.pushesMovement m x then do
      let tree ← t.tree.mapLeaves (fun _ => freshNode) fun leaf =>
        if _older : leaf < x then movement m leaf else throw (.fault .outOfBounds)
      addTensor tracker.shape (.deferred .elementwise tree)
    else do
      let source ← if s.rules.mergeMovements then splice .movement x else pure (.leaf x)
      addNode tracker.shape .movement (.movement m) [source]
  modify fun s => { s with movementMemo := s.movementMemo.insert (m, x) made }
  return made
termination_by x

/-- Fold a tensor into a shape of its rank that keeps each dimension or makes it 1. -/
def reduce (op : Reduction) (x : TensorId) (shape : List Nat) : SessionM TensorId := do
  let t ← fetch x
  if shape.length = t.shape.length ∧ (t.shape.zip shape).all (fun (i, o) => o = i ∨ o = 1) then
    addNode shape .reduction (.reduce op shape) [.leaf x]
  else
    fail (.layout (.reduceShapeMismatch t.shape shape))

/-- Convolve a tensor with weights. -/
def convolve (x w : TensorId) (args : Convolution) : SessionM TensorId := do
  liftLayout (View.checkShape args.outShape)
  addNode args.outShape .processing (.convolution args) [.leaf x, .leaf w]

/-- Apply a pointwise operation of one operand several times over. -/
def chain (op : Unary) (x : TensorId) : Nat → SessionM TensorId
  | 0 => pure x
  | n + 1 => do chain op (← elementwise (.unary op) [x]) n

end TensorLoom.Session
