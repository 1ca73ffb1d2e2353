import HandlerScript.Key
import HandlerScript.Location
import HandlerScript.Number.Digits

/-!
# Nodes and expressions

A node is a piece of a script as it is written, before anyone asks what it means. An expression is what
a node means once its shape has been checked. All of them keep the location they come from; the text of
an expression does not show it.
-/

namespace HandlerScript

/-! ## Nodes -/

/-- A piece of a script. Strings are decoded, keys are still names. -/
inductive Node where
  | list (span : Location) (children : List Node)
  | symbol (span : Location) (name : String)
  | string (span : Location) (value : String)
  | number (span : Location) (value : Binary64)
  | key (span : Location) (name : String)
  deriving Repr, Inhabited

def Node.span : Node → Location
  | .list span _ | .symbol span _ | .string span _ | .number span _ | .key span _ => span

/-! ## Expressions -/

structure Name where
  span : Location
  text : String
  deriving DecidableEq, Repr, Inhabited

inductive Expr where
  | set (span : Location) (target : Name) (value : Expr)
  | get (span : Location) (name : String)
  /-- A call. Whoever runs the program knows what the name means. -/
  | call (span : Location) (name : Name) (arguments : List Expr)
  | cond (span : Location) (condition : Expr) (body : List Expr)
  | string (span : Location) (value : String)
  | number (span : Location) (value : Binary64)
  | key (span : Location) (code : KeyCode)
  deriving Repr, Inhabited

abbrev Body := List Expr

namespace Expr

def span : Expr → Location
  | set span _ _ | get span _ | call span _ _ | cond span _ _ | string span _ | number span _
  | key span _ => span

/-! ## Locations -/

mutual

/-- Every location in an expression, outermost first and then in the order of the script. -/
def locations : Expr → List Location
  | set span target value => span :: target.span :: value.locations
  | call span name arguments => span :: name.span :: allLocations arguments
  | cond span condition body => span :: (condition.locations ++ allLocations body)
  | get span _ | string span _ | number span _ | key span _ => [span]

def allLocations : List Expr → List Location
  | [] => []
  | expr :: exprs => expr.locations ++ allLocations exprs

end

/-! ## Text -/

/-- How numbers are written in expressions: all their digits, and no more than needed. -/
def numberFormat : NumberFormat where
  tie := .away
  positional := fun _ => true
  wholeEnd := []

/-- A number of an expression, which a script cannot write if it is not finite. -/
def numberText (x : Binary64) : List Char :=
  if x.isNaN then "NaN".toList
  else if x.isFinite then numberFormat.write x
  else if x.negative then "-inf".toList
  else "inf".toList

/-- A character inside a string; four are escaped. -/
def escape (c : Char) : List Char :=
  if c = '\n' then ['\\', 'n']
  else if c = '\t' then ['\\', 't']
  else if c = '"' then ['\\', '"']
  else if c = '\\' then ['\\', '\\']
  else [c]

def stringText (value : String) : List Char := '"' :: (value.toList.flatMap escape ++ ['"'])

/-- A key, by its code: no script can write it back as a key. -/
def keyText (code : KeyCode) : List Char :=
  let digits := Nat.toDigits 10 code.toInt.natAbs
  "(key ".toList ++ (if code.toInt < 0 then '-' :: digits else digits) ++ [')']

mutual

/-- The text of an expression, in the form that scripts are written in. -/
def chars : Expr → List Char
  | set _ target value => "(set ".toList ++ target.text.toList ++ ' ' :: (value.chars ++ [')'])
  | get _ name => name.toList
  | call _ name arguments => '(' :: (name.text.toList ++ (spaced arguments ++ [')']))
  | cond _ condition body => "(if ".toList ++ condition.chars ++ (spaced body ++ [')'])
  | string _ value => stringText value
  | number _ value => numberText value
  | key _ code => keyText code

/-- The texts of expressions, each after a space. -/
def spaced : List Expr → List Char
  | [] => []
  | expr :: exprs => ' ' :: (expr.chars ++ spaced exprs)

end

def text (expr : Expr) : String := String.ofList expr.chars

instance : ToString Expr := ⟨text⟩

end Expr

end HandlerScript
