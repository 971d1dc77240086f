import SsaCompiler.Text.Blank

/-!
Settings of a compilation.
-/
namespace SsaCompiler

structure Settings where
  /-- Whether a float division by zero stops the program. -/
  guardDivision : Bool := true
  optimize : Bool := true
  /-- Whether the end of the text inside a string or a comment is an error. -/
  strict : Bool := false
  deriving DecidableEq, Repr

namespace Settings

/-- The variable that turns off the division guard. -/
def noDivCheckVar : String := "NOVUM_NO_DIV_CHECK"

/-- The variable that turns off optimization. -/
def noOptVar : String := "NOVUM_NO_OPT"

/-- Whether the value of a variable turns a switch on. It does not if the variable is unset or
blank, nor if it is `0` or `false`. -/
def isSet : Option String → Bool
  | none => false
  | some s =>
    let word := String.ofList ((Text.trim s.toList).map Char.toLower)
    word ≠ "" && word ≠ "0" && word ≠ "false"

/-- The settings that the variables of an environment ask for. -/
def ofEnv (env : String → Option String) : Settings where
  guardDivision := !isSet (env noDivCheckVar)
  optimize := !isSet (env noOptVar)

end Settings

end SsaCompiler
