import HandlerScript.Program
import HandlerScript.Reader.Nested

/-!
# Checking the shape of a script

Nodes become expressions and declarations, or are rejected for the first defect in the order of
the script.
-/

namespace HandlerScript

inductive Defect where
  | notADeclaration
  | duplicate (handler : Handler)
  | emptyList
  | headNotSymbol
  | ifWithoutCondition
  | setWithoutOperands
  | setWithoutValue
  | setWithTooMany
  | targetNotSymbol
  | unknownKey (name : String)
  deriving DecidableEq, Repr

namespace Defect

/-- An unknown key name is answered with the names it may stand for. -/
def unknownKeyMessage (name : String) (suggestions : List String) : String :=
  let unknown := "unknown key name @" ++ name
  if suggestions = [] then unknown
  else unknown ++ "; did you mean " ++ " or ".intercalate (suggestions.map ("@" ++ ·)) ++ "?"

def message : Defect → String
  | notADeclaration => "top-level expression must be an init, update, or draw declaration"
  | duplicate handler => "duplicate " ++ handler.name ++ " declaration"
  | emptyList => "empty list is not a valid expression"
  | headNotSymbol => "first element of a list must be a symbol"
  | ifWithoutCondition => "if missing condition"
  | setWithoutOperands => "missing operands to set"
  | setWithoutValue => "missing value to set the variable to"
  | setWithTooMany => "too many operands to set"
  | targetNotSymbol => "first operand to set must be a symbol"
  | unknownKey name => unknownKeyMessage name (Key.suggest name)

end Defect

structure Rejection where
  location : Location
  defect : Defect
  deriving DecidableEq, Repr

/-- No rejection can be mended by more input. -/
def Rejection.diagnostic (r : Rejection) : Diagnostic :=
  ⟨.nonrecoverable, r.location, r.defect.message⟩

namespace Node

/-- A symbol as a name; anything else has the given defect. -/
def asName (defect : Defect) : Node → Except Rejection Name
  | symbol span name => .ok ⟨span, name⟩
  | other => .error ⟨other.span, defect⟩

mutual

def check : Node → Except Rejection Expr
  | symbol span name => .ok (.get span name)
  | string span value => .ok (.string span value)
  | number span value => .ok (.number span value)
  | key span name =>
    match Key.resolve name with
    | some code => .ok (.key span code)
    | none => .error ⟨span, .unknownKey name⟩
  | list span [] => .error ⟨span, .emptyList⟩
  | list span (head :: operands) => do
    let name ← head.asName .headNotSymbol
    if name.text = "if" then checkIf span operands
    else if name.text = "set" then checkSet span operands
    else return .call span name (← checkAll operands)

def checkIf (span : Location) : List Node → Except Rejection Expr
  | [] => .error ⟨span, .ifWithoutCondition⟩
  | condition :: body => return .cond span (← condition.check) (← checkAll body)

/-- A variable and its value. How many operands there are is looked at first. -/
def checkSet (span : Location) : List Node → Except Rejection Expr
  | [] => .error ⟨span, .setWithoutOperands⟩
  | [_] => .error ⟨span, .setWithoutValue⟩
  | [target, value] => return .set span (← target.asName .targetNotSymbol) (← value.check)
  | _ :: _ :: _ :: _ => .error ⟨span, .setWithTooMany⟩

def checkAll : List Node → Except Rejection (List Expr)
  | [] => .ok []
  | node :: nodes => return (← node.check) :: (← checkAll nodes)

end

def declaration? : Node → Option (Handler × List Node)
  | list _ (symbol _ name :: body) => (Handler.ofName? name).map (·, body)
  | _ => none

end Node

namespace Program

/-- Adds the declaration that a node stands for. A defect in the body is reported before a handler
that is declared twice. -/
def add (p : Program) (node : Node) : Except Rejection Program :=
  match node.declaration? with
  | none => .error ⟨node.span, .notADeclaration⟩
  | some (handler, nodes) => do
    let body ← Node.checkAll nodes
    match p.declare handler body with
    | .ok program => .ok program
    | .error _ => .error ⟨node.span, .duplicate handler⟩

def ofNodes (nodes : List Node) : Except Rejection Program := nodes.foldlM add {}

end Program

/-- Reading and checking, one after the other. -/
def compile (source : String) : Except Diagnostic Program := do
  let nodes ← parse source
  (Program.ofNodes nodes).mapError Rejection.diagnostic

end HandlerScript
