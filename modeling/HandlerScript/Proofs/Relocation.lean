import HandlerScript.Check
import HandlerScript.Proofs.Grammar

/-!
# Locations do not matter to what is checked

With other locations in a script the outcome of checking it is the same, at the other locations.
-/

namespace HandlerScript

variable (f : Location → Location)

/-! ## Other locations -/

mutual

/-- The node with another location wherever it has one. -/
def Node.mapSpans : Node → Node
  | .list span children => .list (f span) (Node.mapAllSpans children)
  | .symbol span name => .symbol (f span) name
  | .string span value => .string (f span) value
  | .number span value => .number (f span) value
  | .key span name => .key (f span) name

def Node.mapAllSpans : List Node → List Node
  | [] => []
  | node :: nodes => node.mapSpans :: Node.mapAllSpans nodes

end

def Name.mapSpan (name : Name) : Name := ⟨f name.span, name.text⟩

mutual

def Expr.mapSpans : Expr → Expr
  | .set span target value => .set (f span) (target.mapSpan f) value.mapSpans
  | .get span name => .get (f span) name
  | .call span name arguments => .call (f span) (name.mapSpan f) (Expr.mapAllSpans arguments)
  | .cond span condition body => .cond (f span) condition.mapSpans (Expr.mapAllSpans body)
  | .string span value => .string (f span) value
  | .number span value => .number (f span) value
  | .key span code => .key (f span) code

def Expr.mapAllSpans : List Expr → List Expr
  | [] => []
  | expr :: exprs => expr.mapSpans :: Expr.mapAllSpans exprs

end

def Program.mapSpans (p : Program) : Program :=
  ⟨p.vars, p.init.map (Expr.mapAllSpans f), p.update.map (Expr.mapAllSpans f),
    p.draw.map (Expr.mapAllSpans f)⟩

def Rejection.mapSpan (r : Rejection) : Rejection := ⟨f r.location, r.defect⟩

/-- The outcome of a check with other locations, `g` being what that makes of a result. -/
def relocated {α : Type} (g : α → α) : Except Rejection α → Except Rejection α
  | .ok a => .ok (g a)
  | .error r => .error (r.mapSpan f)

theorem relocated_bind {α β : Type} {g : α → α} {g' : β → β} {k k' : α → Except Rejection β}
    (h : ∀ a, k' (g a) = relocated f g' (k a)) (x : Except Rejection α) :
    (relocated f g x >>= k') = relocated f g' (x >>= k) := by
  cases x with
  | ok a => exact h a
  | error r => rfl

/-! ## What locations do not change -/

mutual

theorem Node.mapSpans_mapSpans (g : Location → Location) :
    (node : Node) → (node.mapSpans g).mapSpans f = node.mapSpans (f ∘ g)
  | .list _ children => by
    simp only [Node.mapSpans, mapAllSpans_mapAllSpans g children, Function.comp_apply]
  | .symbol _ _ | .string _ _ | .number _ _ | .key _ _ => rfl

theorem Node.mapAllSpans_mapAllSpans (g : Location → Location) :
    (nodes : List Node) →
      Node.mapAllSpans f (Node.mapAllSpans g nodes) = Node.mapAllSpans (f ∘ g) nodes
  | [] => rfl
  | node :: nodes => by
    simp only [Node.mapAllSpans, mapSpans_mapSpans g node, mapAllSpans_mapAllSpans g nodes]

end

mutual

theorem Node.depth_mapSpans : (node : Node) → (node.mapSpans f).depth = node.depth
  | .list _ children => by rw [Node.mapSpans, Node.depth, Node.depth, depthAll_mapAllSpans children]
  | .symbol _ _ | .string _ _ | .number _ _ | .key _ _ => rfl

theorem Node.depthAll_mapAllSpans :
    (nodes : List Node) → Node.depthAll (Node.mapAllSpans f nodes) = Node.depthAll nodes
  | [] => rfl
  | node :: nodes => by
    rw [Node.mapAllSpans, Node.depthAll, Node.depthAll, depth_mapSpans node,
      depthAll_mapAllSpans nodes]

end

mutual

theorem Expr.chars_mapSpans : (expr : Expr) → (expr.mapSpans f).chars = expr.chars
  | .set _ _ value => by
    rw [Expr.mapSpans, Expr.chars, Expr.chars, chars_mapSpans value]
    rfl
  | .call _ _ arguments => by
    rw [Expr.mapSpans, Expr.chars, Expr.chars, spaced_mapAllSpans arguments]
    rfl
  | .cond _ condition body => by
    rw [Expr.mapSpans, Expr.chars, Expr.chars, chars_mapSpans condition, spaced_mapAllSpans body]
  | .get _ _ | .string _ _ | .number _ _ | .key _ _ => rfl

theorem Expr.spaced_mapAllSpans :
    (exprs : List Expr) → Expr.spaced (Expr.mapAllSpans f exprs) = Expr.spaced exprs
  | [] => rfl
  | expr :: exprs => by
    rw [Expr.mapAllSpans, Expr.spaced, Expr.spaced, chars_mapSpans expr, spaced_mapAllSpans exprs]

end

/-! ## Checking -/

theorem Node.span_mapSpans (node : Node) : (node.mapSpans f).span = f node.span := by
  cases node <;> rfl

theorem Node.asName_mapSpans (defect : Defect) (node : Node) :
    (node.mapSpans f).asName defect = relocated f (Name.mapSpan f) (node.asName defect) := by
  cases node <;> rfl

mutual

theorem Node.check_mapSpans :
    (node : Node) → (node.mapSpans f).check = relocated f (Expr.mapSpans f) node.check
  | .symbol _ _ | .string _ _ | .number _ _ => rfl
  | .key _ name => by
    rw [Node.mapSpans, Node.check, Node.check]
    cases Key.resolve name <;> rfl
  | .list _ [] => rfl
  | .list span (head :: operands) => by
    rw [Node.mapSpans, Node.mapAllSpans, Node.check, Node.check, asName_mapSpans]
    refine relocated_bind f (fun name => ?_) _
    -- The form is told by the text of the name, which is the same.
    change (if name.text = "if" then _ else if name.text = "set" then _ else _) = _
    split
    · exact checkIf_mapSpans span operands
    split
    · exact checkSet_mapSpans span operands
    · rw [checkAll_mapAllSpans operands]
      refine relocated_bind f (fun _ => ?_) _
      rfl

theorem Node.checkIf_mapSpans (span : Location) : (operands : List Node) →
    Node.checkIf (f span) (Node.mapAllSpans f operands) =
      relocated f (Expr.mapSpans f) (Node.checkIf span operands)
  | [] => rfl
  | condition :: body => by
    rw [Node.mapAllSpans, Node.checkIf, Node.checkIf, check_mapSpans condition,
      checkAll_mapAllSpans body]
    refine relocated_bind f (fun _ => ?_) _
    refine relocated_bind f (fun _ => ?_) _
    rfl

theorem Node.checkSet_mapSpans (span : Location) : (operands : List Node) →
    Node.checkSet (f span) (Node.mapAllSpans f operands) =
      relocated f (Expr.mapSpans f) (Node.checkSet span operands)
  | [] => rfl
  | [_] => rfl
  | [target, value] => by
    rw [Node.mapAllSpans, Node.mapAllSpans, Node.mapAllSpans, Node.checkSet, Node.checkSet,
      asName_mapSpans, check_mapSpans value]
    refine relocated_bind f (fun _ => ?_) _
    refine relocated_bind f (fun _ => ?_) _
    rfl
  | _ :: _ :: _ :: _ => rfl

theorem Node.checkAll_mapAllSpans : (nodes : List Node) →
    Node.checkAll (Node.mapAllSpans f nodes) =
      relocated f (Expr.mapAllSpans f) (Node.checkAll nodes)
  | [] => rfl
  | node :: nodes => by
    rw [Node.mapAllSpans, Node.checkAll, Node.checkAll, check_mapSpans node,
      checkAll_mapAllSpans nodes]
    refine relocated_bind f (fun _ => ?_) _
    refine relocated_bind f (fun _ => ?_) _
    rfl

end

/-! ## Programs -/

theorem Program.body?_mapSpans (p : Program) (handler : Handler) :
    (p.mapSpans f).body? handler = (p.body? handler).map (Expr.mapAllSpans f) := by
  cases handler <;> rfl

theorem Program.text_eq_of_spaced {p q : Program}
    (h : ∀ handler, (p.body? handler).map Expr.spaced = (q.body? handler).map Expr.spaced) :
    p.text = q.text := by
  have hchars : ∀ p : Program, p.chars =
      ['\n'].intercalate (Handler.all.filterMap fun handler => ((p.body? handler).map Expr.spaced).map
        fun inside => '(' :: (handler.name.toList ++ (inside ++ [')']))) := by
    intro p
    rw [chars, declarations, List.map_filterMap]
    congr 2
    funext handler
    rw [Option.map_map, Option.map_map]
    rfl
  rw [text, text, hchars, hchars]
  simp only [h]

theorem Program.text_mapSpans (p : Program) : (p.mapSpans f).text = p.text := by
  refine text_eq_of_spaced fun handler => ?_
  rw [body?_mapSpans, Option.map_map]
  congr 1
  funext body
  exact Expr.spaced_mapAllSpans f body

theorem Node.declaration?_mapSpans (node : Node) : (node.mapSpans f).declaration? =
    node.declaration?.map fun (handler, body) => (handler, Node.mapAllSpans f body) := by
  cases node with
  | list span children =>
    cases children with
    | nil => rfl
    | cons head body =>
      cases head with
      | symbol span name =>
        change (Handler.ofName? name).map (·, Node.mapAllSpans f body) =
          ((Handler.ofName? name).map (·, body)).map _
        rw [Option.map_map]
        rfl
      | list | string | number | key => rfl
  | symbol | string | number | key => rfl

theorem Program.setBody_mapSpans (p : Program) (handler : Handler) (body : Body) :
    (p.mapSpans f).setBody handler (Expr.mapAllSpans f body) =
      (p.setBody handler body).mapSpans f := by
  cases handler <;> rfl

theorem Program.add_mapSpans (p : Program) (node : Node) :
    (p.mapSpans f).add (node.mapSpans f) = relocated f (Program.mapSpans f) (p.add node) := by
  rw [add, add, Node.declaration?_mapSpans, Node.span_mapSpans]
  cases node.declaration? with
  | none => rfl
  | some declaration =>
    obtain ⟨handler, nodes⟩ := declaration
    simp only [Option.map_some]
    rw [Node.checkAll_mapAllSpans]
    refine relocated_bind f (fun body => ?_) _
    rw [declare, declare, body?_mapSpans]
    cases p.body? handler with
    | none => exact congrArg Except.ok (setBody_mapSpans f p handler body)
    | some _ => rfl

theorem Program.foldlM_add_mapSpans (nodes : List Node) (p : Program) :
    (Node.mapAllSpans f nodes).foldlM add (p.mapSpans f) =
      relocated f (Program.mapSpans f) (nodes.foldlM add p) := by
  induction nodes generalizing p with
  | nil => rfl
  | cons node nodes ih =>
    rw [Node.mapAllSpans, List.foldlM_cons, List.foldlM_cons, add_mapSpans]
    exact relocated_bind f (fun q => ih q) _

theorem Program.ofNodes_mapAllSpans (nodes : List Node) :
    Program.ofNodes (Node.mapAllSpans f nodes) =
      relocated f (Program.mapSpans f) (Program.ofNodes nodes) :=
  Program.foldlM_add_mapSpans f nodes {}

/-! ## Diagnostics -/

/-- The same fault elsewhere. -/
def Diagnostic.relocate (d : Diagnostic) : Diagnostic := { d with location := f d.location }

theorem mapError_diagnostic_relocated {α : Type} (g : α → α) (x : Except Rejection α) :
    (relocated f g x).mapError Rejection.diagnostic =
      ((x.mapError Rejection.diagnostic).map g).mapError (Diagnostic.relocate f) := by
  cases x <;> rfl

/-- Checking does not look at locations. Whatever is put for those of a script, a program or an
expression comes out as before with the same put for its locations, and so does a diagnostic. -/
theorem checking_ignores_locations :
    (∀ nodes : List Node,
      (Program.ofNodes (Node.mapAllSpans f nodes)).mapError Rejection.diagnostic =
        (((Program.ofNodes nodes).mapError Rejection.diagnostic).map (Program.mapSpans f)).mapError
          (Diagnostic.relocate f)) ∧
    ∀ node : Node,
      (node.mapSpans f).check.mapError Rejection.diagnostic =
        ((node.check.mapError Rejection.diagnostic).map (Expr.mapSpans f)).mapError
          (Diagnostic.relocate f) := by
  constructor
  · intro nodes
    rw [Program.ofNodes_mapAllSpans, mapError_diagnostic_relocated]
  · intro node
    rw [Node.check_mapSpans, mapError_diagnostic_relocated]

end HandlerScript
