import TensorLoom.Text.Numeral

/-!
# Search settings

The settings of a search have standard values, and two of them can be given as text. A text that is
not a size counts as not given.
-/

namespace TensorLoom

/-- The settings of a search, with durations and weights in `τ`. -/
structure SearchSettings (τ : Type) where
  /-- The most rounds to run. -/
  maxRounds : Nat
  /-- Launches for each timing, of which the shortest counts. -/
  runs : Nat
  /-- What the time of the current kernel is multiplied by before a candidate has to beat it. -/
  stopWeight : τ
  /-- Launches of the winner before it is checked. -/
  finalRuns : Nat
deriving BEq

namespace SearchSettings

/-- The standard settings. -/
def standard : SearchSettings Float := ⟨10, 3, 0.9, 3⟩

/-- The standard settings with the round limit and the runs given as text. -/
def ofTexts (maxRounds runs : Option String) : SearchSettings Float :=
  { standard with
    maxRounds := (maxRounds.bind Text.size?).getD standard.maxRounds
    runs := (runs.bind Text.size?).getD standard.runs }

end SearchSettings

end TensorLoom
