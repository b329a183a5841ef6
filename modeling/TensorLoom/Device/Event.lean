/-!
# Events and their duration

A launch is timed by two readings of the device clock, and the ticks between them become a duration
by the scale of the device. Durations are compared, weighted and minimised by the tuner, which needs
no more of them than `Duration` lists: exact numbers serve as well as the double-precision ones that
are used when it runs.
-/

namespace TensorLoom

/-- What can be done with durations. -/
class Duration (τ : Type) where
  /-- The duration of what never ends. -/
  never : τ
  /-- The weight that changes nothing. -/
  unit : τ
  /-- A number of ticks. -/
  ofTicks : Nat → τ
  /-- A duration times a scale or weight. -/
  scale : τ → τ → τ
  shorter : τ → τ → τ
  isLess : τ → τ → Bool

/-- Double-precision durations. Of equal ones the second is taken for the shorter, and of a duration
and what is not a number the duration. -/
instance : Duration Float where
  never := Float.ofBits 0x7ff0000000000000
  unit := 1
  ofTicks := Float.ofNat
  scale a b := a * b
  shorter a b := if a.isNaN then b else if b.isNaN then a else if b ≤ a then b else a
  isLess a b := a < b

/-- The clock of the device before and after a launch. -/
structure Event where
  start : Nat
  stop : Nat
deriving DecidableEq, Repr

/-- The duration of an event; one that stops before it starts takes no time. -/
def Event.duration {τ : Type} [Duration τ] (e : Event) (scale : τ) : τ :=
  Duration.scale (Duration.ofTicks (e.stop - e.start)) scale

end TensorLoom
