/-!
# Severities of errors

An error is fatal when stored data are damaged, and ordinary otherwise.
-/

namespace BlockQuery

inductive Severity where
  | error
  | fatal
deriving DecidableEq, Repr

def Severity.name : Severity → String
  | error => "ERROR"
  | fatal => "FATAL"

/-- An error line: severity, code, message, and what is known beside it. -/
def errorLine (severity code message : String) (offset : Option Nat) (cause : Option String) :
    String :=
  "[" ++ severity ++ "] " ++ code ++ ": " ++ message ++
    (match offset with
      | some n => s!" (byte_offset: {n})"
      | none => "") ++
    match cause with
    | some text => " (caused by: " ++ text ++ ")"
    | none => ""

end BlockQuery
