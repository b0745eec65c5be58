import ObjectFlow.Decimal.Significant
/-!
# Durations

A time in seconds as text: four significant digits, in milliseconds, seconds,
minutes or hours, whichever unit the time fills first.
-/

namespace ObjectFlow

/-- A number of at least five places with its unit. -/
def inUnit (x : Float) (unit : String) : String := Decimal.significant 5 4 x.toBits ++ " " ++ unit

/-- The text of a time in seconds. A time that is no number counts as hours. -/
def durationText (t : Float) : String :=
  if t < 1.0 then inUnit (t * 1000.0) "ms"
  else if t < 60.0 then inUnit t "s"
  else if t < 3600.0 then inUnit (t / 60.0) "m"
  else inUnit (t / 3600.0) "h"

end ObjectFlow
