import HandlerScript.Tree

/-!
# Programs

Up to three handlers, each declared at most once.
-/

namespace HandlerScript

inductive Handler where
  | init
  | update
  | draw
  deriving DecidableEq, Repr

namespace Handler

/-- All handlers, in the order in which they are listed and printed. -/
def all : List Handler := [init, update, draw]

def name : Handler → String
  | init => "init"
  | update => "update"
  | draw => "draw"

def ofName? (name : String) : Option Handler := all.find? (·.name = name)

@[simp] theorem ofName?_name (handler : Handler) : ofName? handler.name = some handler := by
  cases handler <;> decide

end Handler

/-- The bodies of the declared handlers. Nothing in a script declares variables yet. -/
structure Program where
  vars : List String := []
  init : Option Body := none
  update : Option Body := none
  draw : Option Body := none
  deriving Repr, Inhabited

namespace Program

def body? (p : Program) : Handler → Option Body
  | .init => p.init
  | .update => p.update
  | .draw => p.draw

def setBody (p : Program) (handler : Handler) (body : Body) : Program :=
  match handler with
  | .init => { p with init := some body }
  | .update => { p with update := some body }
  | .draw => { p with draw := some body }

@[simp] theorem body?_setBody (p : Program) (declared handler : Handler) (body : Body) :
    (p.setBody declared body).body? handler =
      if handler = declared then some body else p.body? handler := by
  cases declared <;> cases handler <;> rfl

/-- Declares a handler. If it is declared already, the new body is handed back. -/
def declare (p : Program) (handler : Handler) (body : Body) : Except Body Program :=
  match p.body? handler with
  | some _ => .error body
  | none => .ok (p.setBody handler body)

def declarations (p : Program) : List (Handler × Body) :=
  Handler.all.filterMap fun handler => (p.body? handler).map (handler, ·)

def declared (p : Program) : String :=
  ", ".intercalate (p.declarations.map (·.1.name))

/-! ## Text -/

/-- A declaration in the form that scripts are written in. -/
def declarationChars (handler : Handler) (body : Body) : List Char :=
  '(' :: (handler.name.toList ++ (Expr.spaced body ++ [')']))

/-- The declarations, one a line. -/
def chars (p : Program) : List Char :=
  ['\n'].intercalate (p.declarations.map fun (handler, body) => declarationChars handler body)

def text (p : Program) : String := String.ofList p.chars

instance : ToString Program := ⟨text⟩

end Program
end HandlerScript
