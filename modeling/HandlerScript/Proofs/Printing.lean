import HandlerScript.Proofs.Number.Text
import HandlerScript.Proofs.Printable
import HandlerScript.Proofs.Relocation

/-!
# What a printed program reads back as

The text of a program tells the program, but for two things: where everything stood, and which calls of
`key` were keys.
-/

namespace HandlerScript

/-! ## What a program reads back as -/

def keyNumber (code : KeyCode) : Binary64 := .ofDecimal (code.toInt < 0) code.toInt.natAbs 0

theorem natAbs_keyCode (code : KeyCode) : code.toInt.natAbs ≤ 2 ^ 31 := by
  have hlow := code.le_toInt
  have hhigh := code.toInt_lt
  omega

/-- No code is too large for a number. -/
theorem absValue_keyNumber (code : KeyCode) : (keyNumber code).absValue = code.toInt.natAbs := by
  have hbound := natAbs_keyCode code
  exact Binary64.absValue_ofDecimal_natCast (by omega) _

mutual

/-- The expression with every key as the call that it is printed as. -/
def Expr.readBack : Expr → Expr
  | .set span target value => .set span target value.readBack
  | .call span name arguments => .call span name (Expr.allReadBack arguments)
  | .cond span condition body => .cond span condition.readBack (Expr.allReadBack body)
  | .key span code => .call span ⟨span, "key"⟩ [.number span (keyNumber code)]
  | .get span name => .get span name
  | .string span value => .string span value
  | .number span value => .number span value

def Expr.allReadBack : List Expr → List Expr
  | [] => []
  | expr :: exprs => expr.readBack :: Expr.allReadBack exprs

end

/-- Nothing in a text declares variables. -/
def Program.readBack (p : Program) : Program :=
  ⟨[], p.init.map Expr.allReadBack, p.update.map Expr.allReadBack, p.draw.map Expr.allReadBack⟩

def nowhere (_ : Location) : Location := default

def Program.unlocated (p : Program) : Program := p.mapSpans nowhere

mutual

/-- How deep lists are nested in the text of an expression. A key is printed as a list. -/
def Expr.nesting : Expr → Nat
  | .set _ _ value => value.nesting + 1
  | .call _ _ arguments => Expr.allNesting arguments + 1
  | .cond _ condition body => max condition.nesting (Expr.allNesting body) + 1
  | .key _ _ => 1
  | .get _ _ | .string _ _ | .number _ _ => 0

def Expr.allNesting : List Expr → Nat
  | [] => 0
  | expr :: exprs => max expr.nesting (Expr.allNesting exprs)

end

/-- How deep lists are nested in the text of a program; a declaration is one of them. -/
def Program.nesting (p : Program) : Nat :=
  (p.declarations.map fun (_, body) => Expr.allNesting body + 1).foldr max 0

/-! ## The nodes of a text -/

mutual

/-- The node that the text of an expression is read as, without locations. -/
def Expr.node : Expr → Node
  | .set _ target value =>
    .list default [.symbol default "set", .symbol default target.text, value.node]
  | .get _ name => .symbol default name
  | .call _ name arguments => .list default (.symbol default name.text :: Expr.allNodes arguments)
  | .cond _ condition body =>
    .list default (.symbol default "if" :: condition.node :: Expr.allNodes body)
  | .string _ value => .string default value
  | .number _ value => .number default value
  | .key _ code => .list default [.symbol default "key", .number default (keyNumber code)]

def Expr.allNodes : List Expr → List Node
  | [] => []
  | expr :: exprs => expr.node :: Expr.allNodes exprs

end

def Program.declarationNode (handler : Handler) (body : Body) : Node :=
  .list default (.symbol default handler.name :: Expr.allNodes body)

def Program.nodes (p : Program) : List Node :=
  p.declarations.map fun (handler, body) => declarationNode handler body

mutual

theorem Expr.depth_node : (expr : Expr) → expr.node.depth = expr.nesting
  | .set _ _ value => by
    simp [Expr.node, Node.depth, Node.depthAll, Expr.nesting, depth_node value]
  | .call _ _ arguments => by
    simp [Expr.node, Node.depth, Node.depthAll, Expr.nesting, depthAll_allNodes arguments]
  | .cond _ condition body => by
    simp [Expr.node, Node.depth, Node.depthAll, Expr.nesting, depth_node condition,
      depthAll_allNodes body]
  | .get _ _ | .string _ _ | .number _ _ | .key _ _ => rfl

theorem Expr.depthAll_allNodes :
    (exprs : List Expr) → Node.depthAll (Expr.allNodes exprs) = Expr.allNesting exprs
  | [] => rfl
  | expr :: exprs => by
    rw [Expr.allNodes, Node.depthAll, Expr.allNesting, depth_node expr, depthAll_allNodes exprs]

end

theorem Program.depth_declarationNode (handler : Handler) (body : Body) :
    (declarationNode handler body).depth = Expr.allNesting body + 1 := by
  simp [declarationNode, Node.depth, Node.depthAll, Expr.depthAll_allNodes]

theorem Program.depthAll_nodes (p : Program) : Node.depthAll p.nodes = p.nesting := by
  rw [nodes, nesting]
  induction p.declarations with
  | nil => rfl
  | cons declaration declarations ih =>
    rw [List.map_cons, List.map_cons, List.foldr_cons, Node.depthAll, ih, depth_declarationNode]

/-! ## Checking them -/

mutual

theorem Expr.check_node : (expr : Expr) → expr.Printable →
    expr.node.check = .ok (expr.readBack.mapSpans nowhere)
  | .set _ target value, ⟨_, hvalue⟩ => by
    simp only [Expr.node, Node.check, Node.asName, Node.checkSet, check_node value hvalue, bind,
      Except.bind]
    rfl
  | .get _ _, _ | .string _ _, _ | .number _ _, _ => rfl
  | .call _ name arguments, ⟨_, hif, hset, harguments⟩ => by
    simp only [Expr.node, Node.check, Node.asName, bind, Except.bind, if_neg hif, if_neg hset,
      checkAll_allNodes arguments harguments]
    rfl
  | .cond _ condition body, ⟨hcondition, hbody⟩ => by
    simp only [Expr.node, Node.check, Node.asName, Node.checkIf, bind, Except.bind,
      check_node condition hcondition, checkAll_allNodes body hbody]
    rfl
  | .key _ _, _ => rfl

theorem Expr.checkAll_allNodes : (exprs : List Expr) → Expr.AllPrintable exprs →
    Node.checkAll (Expr.allNodes exprs) = .ok (Expr.mapAllSpans nowhere (Expr.allReadBack exprs))
  | [], _ => rfl
  | expr :: exprs, ⟨hexpr, hexprs⟩ => by
    simp only [Expr.allNodes, Node.checkAll, check_node expr hexpr, checkAll_allNodes exprs hexprs,
      bind, Except.bind]
    rfl

end

end HandlerScript
