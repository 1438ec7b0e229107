import PulseFlow.Heap.Basic
import PulseFlow.Text.Quoted

/-!
# Describing a signal

A form of a signal for inspection that shows its kind: texts are quoted, whole reals keep a point,
and an array is shown by its identity and its length.
-/

namespace PulseFlow.Signal

/-- Reals in a description keep a point and have an exponent when they are large or small. -/
def describedReal : Decimal.Layout where
  positional := fun e => -4 ≤ e && e < 16
  point := true
  plus := false
  tie := .up

/-- Describes a signal; `identity` says how an array's identity is shown. -/
def describe (h : Heap) (identity : ArrayId → String) : Signal → String
  | nan => "NaN"
  | int v => "Int(" ++ intText v ++ ")"
  | real v => "Real(" ++ describedReal.write v ++ ")"
  | text v => "String(" ++ Text.quoteText v ++ ")"
  | array i =>
    "Array(ArrayHandle \x7b identity: " ++ identity i ++ ", len: "
      ++ toString (h.items i).length ++ " \x7d)"

end PulseFlow.Signal
