/-! # Log records

What the library reports while it works, in order.
-/

namespace Orthant

inductive Level
  | debug
  | info
  | warning
  deriving DecidableEq

namespace Level

def name : Level → String
  | debug => "DEBUG"
  | info => "INFO"
  | warning => "WARNING"

end Level

structure Record where
  level : Level
  /-- The part of the library that reports. -/
  source : String
  text : String
  deriving DecidableEq

abbrev Log := List Record

end Orthant
