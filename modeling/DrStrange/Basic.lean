/-
**What every layer shares: byte strings and the error type.**
-/

import Mathlib

namespace DrStrange

abbrev Bytes := List UInt8

/-- All fallible core operations return one of these. -/
inductive Error where
  | notFound (message : String)
  | planeMismatch (message : String)
  | planeExists (message : String)
  | conflict (message : String)
  | invalidArgument (message : String)
  | timeout (message : String)
  | corrupt (message : String)
  | readOnly (message : String)
  | unsupported (message : String)
  | backend (message : String)
  | io (message : String)
  deriving DecidableEq, Repr

end DrStrange
