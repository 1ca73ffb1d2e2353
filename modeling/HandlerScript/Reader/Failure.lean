import HandlerScript.Diagnostic
import HandlerScript.Reader.Cursor

/-!
# Readers and their failures

A reader is a cursor together with the scopes it is in. When reading stops, the failure keeps the
cause and the reader as it stood, from which the place to report follows.
-/

namespace HandlerScript

/-! ## Readers -/

inductive ScopeKind where
  | topLevel
  | list
  | string
  | keyName
  deriving DecidableEq, Repr

/-- A construct that is not finished, and where it starts. -/
structure Scope where
  kind : ScopeKind
  start : Position
  deriving DecidableEq, Repr

/-- A point in a script and the scopes around it, innermost first. -/
structure Reader where
  cursor : Cursor
  scopes : List Scope
  deriving DecidableEq, Repr

/-- How many lists may be open at once, the outermost one included. -/
def nestingLimit : Nat := 128

namespace Reader

def start (source : List Char) : Reader := ⟨.start source, []⟩

def position (r : Reader) : Position := r.cursor.position

def peek (r : Reader) : Option Char := r.cursor.peek

def size (r : Reader) : Nat := r.cursor.size

def moveTo (r : Reader) (cursor : Cursor) : Reader := { r with cursor }

def next (r : Reader) : Reader := r.moveTo r.cursor.next

def skipBlanks (r : Reader) : Reader := r.moveTo (r.cursor.skipWhile isBlank)

def enter (r : Reader) (kind : ScopeKind) : Reader :=
  { r with scopes := ⟨kind, r.position⟩ :: r.scopes }

def leave (r : Reader) : Reader := { r with scopes := r.scopes.tail }

def openLists (r : Reader) : Nat := r.scopes.countP (·.kind = .list)

/-- Where the construct starts that a failure here is charged to. Being directly inside a list says
little about what was wanted, so the scope around the list is taken, if there is one. -/
def blamedStart (r : Reader) : Position :=
  match r.scopes with
  | [] => r.position
  | [scope] => scope.start
  | scope :: outer :: _ => if scope.kind = .list then outer.start else scope.start

end Reader

/-! ## Faults -/

inductive Fault where
  | listTerminator
  | expression
  | keyName
  | malformedNumber
  | malformedSymbol
  | malformedKeyName
  | unterminatedString
  | invalidEscape (escaped : Char)
  | unexpectedClose
  | nestingTooDeep
  deriving DecidableEq, Repr

namespace Fault

def message : Fault → String
  | listTerminator => "expected list terminator"
  | expression => "expected an expression"
  | keyName => "expected key name"
  | malformedNumber => "malformed number literal"
  | malformedSymbol => "malformed symbol"
  | malformedKeyName => "malformed key name"
  | unterminatedString => "unterminated string"
  | invalidEscape escaped => "invalid escape sequence \\" ++ escaped.toString
  | unexpectedClose => "unexpected )"
  | nestingTooDeep => "lists nested more than " ++ toString nestingLimit ++ " deep"

/-- Only a list that is still open can be mended by more input. -/
def severity : Fault → Severity
  | listTerminator => .recoverable
  | _ => .nonrecoverable

end Fault

/-! ## Failures -/

/-- Why and where reading stopped: `origin` is how far the attempt had got when it found the fault,
`reader` how it stood when it gave up. -/
structure Failure where
  fault : Fault
  origin : Cursor
  reader : Reader
  deriving DecidableEq, Repr

def Reader.fail (r : Reader) (fault : Fault) : Failure := ⟨fault, r.cursor, r⟩

namespace Failure

/-- The failure to report when two attempts from one point fail: the one that got further. Of two
that got equally far it is the first, but a missing key name says more than a missing
expression. -/
def or (first second : Failure) : Failure :=
  if second.origin.size < first.origin.size then second
  else if first.origin.size < second.origin.size then first
  else if first.fault = .expression ∧ second.fault = .keyName then second
  else first

/-- From the start of the blamed construct to just past the character the reader gave up on. -/
def location (f : Failure) : Location := ⟨f.reader.blamedStart, f.reader.cursor.next.position⟩

def diagnostic (f : Failure) : Diagnostic := ⟨f.fault.severity, f.location, f.fault.message⟩

end Failure
end HandlerScript
