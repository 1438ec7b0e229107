/-!
# The program and its settings
-/

namespace PulseFlow

def programName : String := "pulsegraph"

def programVersion : String := "0.1.0"

/-- How an engine is set up. -/
structure Settings where
  /-- The most waves one run may take; without it a run goes on until nothing is pending. -/
  maxSteps : Option Nat := none
  /-- The most idle instances kept for a prototype. -/
  poolCapacity : Option Nat := none
  /-- Whether every firing is reported. -/
  traceFiring : Bool := false
deriving DecidableEq, Repr, Inhabited

end PulseFlow
