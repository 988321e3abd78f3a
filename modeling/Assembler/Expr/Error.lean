/-!
# Why an expression has no value
-/

namespace Assembler

/-- Cause of a failed evaluation. -/
inductive EvalError
  /-- An operator that is not defined on values relative to a symbol. -/
  | illegalOperation (op : String)
  | unresolvedSymbol (identifier : String)
  | differentSections (left right : String)
  | divisionByZero
  /-- A function node reported a failure. -/
  | function (name message : String)
deriving DecidableEq, Repr

namespace EvalError

/-- The cause in words. -/
def message : EvalError → String
  | .illegalOperation op => "illegal `" ++ op ++ "` on a symbol-relative value"
  | .unresolvedSymbol identifier => "unresolved symbol `" ++ identifier ++ "`"
  | .differentSections left right =>
    "`" ++ left ++ "` and `" ++ right ++ "` are defined in different sections"
  | .divisionByZero => "division by zero"
  | .function name message => "function `" ++ name ++ "`: " ++ message

end EvalError

end Assembler
