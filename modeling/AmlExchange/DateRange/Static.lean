import AmlExchange.Calendar.DateTime
import AmlExchange.Condition

/-!
# Date ranges between fixed bounds
-/

namespace AmlExchange.DateRange

open Calendar (DateTime)

/-- A range between two moments, either of which may be absent. -/
structure Static where
  lower : Option DateTime
  upper : Option DateTime
deriving DecidableEq

/-- The comparison that a range makes. -/
def Static.condition (range : Static) : Condition :=
  match range.lower, range.upper with
  | some _, some _ => .between
  | some _, none => .ge
  | none, some _ => .le
  | none, none => .undefined

end AmlExchange.DateRange
