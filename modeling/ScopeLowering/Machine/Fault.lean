import ScopeLowering.Json.Basic

/-!
# What a machine cannot do

Failures of a run that are no exceptions of the script: a script can neither see nor catch them,
though its `finally` parts still run. They end the run without an outcome.
-/

namespace ScopeLowering

/-- A failure that is no exception of the script. -/
inductive Fault where
  /-- A tree lacks a part that the run needs, or a property's name is not a text. -/
  | missingPart
  /-- A value of a wrong type, or more arguments than a host function takes. -/
  | wrongType
  /-- A text of digits that is not a numeral, or a numeral that is too long. -/
  | badNumeral
  /-- A number beyond the largest double, or too large for a size. -/
  | tooLarge
  /-- Zero to a negative power. -/
  | zeroPower
  /-- A node that is neither expression nor statement in its place, or an unknown operator between
  two operands. -/
  | noRule
  /-- An operator that stands in no table. -/
  | unknownOperator (op : Json)
  /-- A list without the item that is asked for. -/
  | noItem
  /-- An array that does not fit. -/
  | noMemory
  /-- More timers than are ever run. -/
  | tooManyTasks
  deriving Inhabited

end ScopeLowering
