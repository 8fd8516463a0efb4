import Mathlib.Tactic.Common

/-!
# Exceptions

`xju::Exception`: a cause, and what each handler that it passes on its way was trying to do.
-/

namespace Urnest.Xju

structure Exception where
  cause : String
  /-- innermost first -/
  context : List String
  deriving DecidableEq, Repr

/-- `addContext` -/
def Exception.addContext (e : Exception) (s : String) : Exception :=
  { e with context := e.context ++ [s] }

/-- `xju::format::quote` -/
def quote (s : String) : String := "\"" ++ s ++ "\""

end Urnest.Xju
