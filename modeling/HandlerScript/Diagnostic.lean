import HandlerScript.Location

/-!
# Diagnostics

The one shape in which every stage says what is wrong with a script, and where.
-/

namespace HandlerScript

/-- Whether more input could mend a fault. -/
inductive Severity where
  | recoverable
  | nonrecoverable
  deriving DecidableEq, Repr

structure Diagnostic where
  severity : Severity
  location : Location
  message : String
  deriving DecidableEq, Repr

/-- A diagnostic as a renderer wants it: one label over a byte range of the script. -/
structure Report where
  message : String
  label : Nat × Nat
  notes : List String
  deriving DecidableEq, Repr

namespace Diagnostic

def isRecoverable (d : Diagnostic) : Bool := d.severity = .recoverable

def text (d : Diagnostic) : String := d.location.text ++ ": " ++ d.message

instance : ToString Diagnostic := ⟨text⟩

/-- The report on a script; a recoverable fault carries a note that says so. -/
def report (d : Diagnostic) (source : String) : Report where
  message := d.message
  label := d.location.byteRange source
  notes := match d.severity with
    | .recoverable => ["this input may be completed by extending it"]
    | .nonrecoverable => []

end Diagnostic
end HandlerScript
