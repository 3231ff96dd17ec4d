/-! # Intervals of timestamps -/

namespace LogCodec

/-- The timestamps from `lower` to `upper`, both included. -/
structure Interval where
  lower : Int64
  upper : Int64
deriving DecidableEq

namespace Interval

/-- Every timestamp. -/
def all : Interval := ⟨Int64.minValue, Int64.maxValue⟩

/-- The interval with these bounds, without a bound where there is none. -/
def ofBounds (lower upper : Option Int64) : Interval :=
  ⟨lower.getD all.lower, upper.getD all.upper⟩

/-- Is the timestamp in the interval? -/
def contains (i : Interval) (timestamp : Int64) : Bool :=
  i.lower ≤ timestamp && timestamp ≤ i.upper

/-- The text of an interval. -/
def display (i : Interval) : String :=
  "[" ++ toString i.lower.toInt ++ ", " ++ toString i.upper.toInt ++ "]"

end Interval

end LogCodec
