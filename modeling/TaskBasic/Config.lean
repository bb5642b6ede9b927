/-
Settings.
-/

namespace TaskBasic

structure Config where
  maxCallDepth : Nat := 1024
  /-- The extension of imported files that are named without one. -/
  moduleExtension : String := "mn"
  traceLimit : Nat := 16
  logLevel : String := "warn"
deriving Repr, DecidableEq

end TaskBasic
