import Reckoner.Number.Basic
import Reckoner.Decimal.Notation

/-!
# The text of a number

Integers are written in decimal, doubles as in `Reckoner.Decimal.Notation`. So the text tells the two apart.
-/

namespace Reckoner.Number

def render : Number → String
  | int n => n.toInt.repr
  | float x => renderFloat x
  | signalingNaN => renderFloat nan

end Reckoner.Number
