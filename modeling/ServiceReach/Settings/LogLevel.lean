import ServiceReach.Text.Digit
import ServiceReach.Text.LetterCase
import ServiceReach.Text.Part
import ServiceReach.Text.Quoted

/-
  Log levels as they are written: a number in decimal digits of any script, or a name in any case.
-/

namespace ServiceReach

/-- Why a text is no log level. -/
inductive LevelError where
  /-- Not a number and not the name of a level. -/
  | unknown (text : String)
  /-- Digits, but not all of them decimal. -/
  | notDecimal (text : String)
  /-- More digits than a number may have. -/
  | tooLong (digits : Nat)
deriving DecidableEq, Repr

/-- The number of characters of a text that are shown, its opening quote and escapes included. -/
def maxShown : Nat := 200

/-- What is said about a text that is no log level. -/
def LevelError.message : LevelError → String
  | .unknown text => "Unknown log level: " ++ text
  | .notDecimal text =>
    "invalid literal for int() with base 10: " ++ Text.take maxShown (Text.quoted text)
  | .tooLong digits => Text.tooManyDigits digits

/-- The named levels. -/
def namedLevels : List (String × Nat) :=
  [("CRITICAL", 50), ("FATAL", 50), ("ERROR", 40), ("WARN", 30), ("WARNING", 30), ("INFO", 20),
   ("DEBUG", 10), ("NOTSET", 0)]

/-- The number of a log level. Its length is judged by the decimal digits it starts with. -/
def parseLevel (text : String) : Except LevelError Nat :=
  if Text.isDigits text then
    if Text.maxDigits < Text.leadingDecimals text then
      .error (.tooLong (Text.leadingDecimals text))
    else
      match Text.decimal? text with
      | none => .error (.notDecimal text)
      | some n => .ok n
  else
    match namedLevels.lookup (Text.capitals text) with
    | some n => .ok n
    | none => .error (.unknown text)

end ServiceReach
