/-!
# Machine words with checked arithmetic

Sizes are natural numbers below `2 ^ 64`, offsets and strides are integers from `-2 ^ 63` up to
`2 ^ 63 - 1`. Both are kept as `Nat` and `Int`, so that every law is one of plain arithmetic, and
each operation that could leave the range says so: it answers with a `Fault`.

A computation that can only fault is `Checked`. One that can also be refused for a stated reason is
an `Attempt`, and a checked computation may be used wherever an attempt is expected.
-/

namespace TensorLoom

/-- Why a computation has no value at all. -/
inductive Fault where
  /-- A sum, difference or product left the machine word. -/
  | overflow
  /-- A quotient or remainder by zero. -/
  | zeroDivisor
  /-- A position beyond the end of a list. -/
  | outOfBounds
  /-- A table too large for the address space. -/
  | unaddressable
deriving DecidableEq, Repr

/-- A computation that either has a value or faults. -/
abbrev Checked := Except Fault

/-- How an attempt ends without a value: it faults, or it is refused with an error of its domain. -/
inductive Stop (ε : Type) where
  | fault (cause : Fault)
  | refused (error : ε)
deriving DecidableEq, Repr

/-- A computation that may fault or be refused. -/
abbrev Attempt (ε : Type) := Except (Stop ε)

/-- A fault inside an attempt ends the attempt with that fault. -/
def Checked.toAttempt {ε α : Type} (x : Checked α) : Attempt ε α :=
  x.mapError .fault

instance {ε : Type} : MonadLift (Except Fault) (Except (Stop ε)) where
  monadLift := Checked.toAttempt

/-- Refuse an attempt. -/
def refuse {ε α : Type} (error : ε) : Attempt ε α :=
  .error (.refused error)

/-- Change the error of a refusal and keep faults as they are. -/
def Stop.mapRefusal {ε δ : Type} (f : ε → δ) : Stop ε → Stop δ
  | .fault cause => .fault cause
  | .refused error => .refused (f error)

/-! ## Sizes -/

namespace Word

/-- The number of values of a machine word, `2 ^ 64`. -/
def bound : Nat := 18446744073709551616

/-- The number of values of a signed machine word that are not negative, `2 ^ 63`. -/
def half : Nat := 9223372036854775808

/-- `n` itself, if a machine word holds it. -/
def check (n : Nat) : Checked Nat :=
  if n < bound then .ok n else .error .overflow

def add (a b : Nat) : Checked Nat := check (a + b)

def mul (a b : Nat) : Checked Nat := check (a * b)

/-- A difference of sizes never goes below zero. -/
def sub (a b : Nat) : Checked Nat :=
  if b ≤ a then .ok (a - b) else .error .overflow

/-- A quotient of sizes, rounded down. -/
def div (a b : Nat) : Checked Nat :=
  if b = 0 then .error .zeroDivisor else .ok (a / b)

/-- A table of `count` entries of `width` bytes each. The distance of two addresses is a signed
word, so no table has `2 ^ 63` bytes. -/
def table (count width : Nat) : Checked Unit :=
  if count * width < half then .ok () else .error .unaddressable

end Word

/-! ## Offsets and strides -/

namespace Signed

/-- `n` itself, if a signed machine word holds it. -/
def check (n : Int) : Checked Int :=
  if -(Word.half : Int) ≤ n ∧ n < (Word.half : Int) then .ok n else .error .overflow

def add (a b : Int) : Checked Int := check (a + b)

def sub (a b : Int) : Checked Int := check (a - b)

def mul (a b : Int) : Checked Int := check (a * b)

/-- A size read as a signed word: the upper half of the sizes stands for negative numbers. -/
def ofSize (n : Nat) : Int :=
  if n < Word.half then n else (n : Int) - (Word.bound : Int)

end Signed

/-- The entry of a list at a position, which has to exist. -/
def entry {α : Type} (xs : List α) (i : Nat) : Checked α :=
  match xs[i]? with
  | some x => .ok x
  | none => .error .outOfBounds

end TensorLoom
