import HandlerScript.Proofs.Checked
import HandlerScript.Proofs.Compiling

/-!
# What can be printed

The programs whose text is a script: their names are symbols, their numbers are finite, and no call is
named like one of the forms that are not calls. Every program that was compiled is of this kind.
-/

namespace HandlerScript

/-! ## Names -/

def IsSymbolName (name : String) : Prop := ∃ span, parse name = .ok [.symbol span name]

theorem Reads.symbolText {admits : Numeral → Prop} {after text : List Char} {p : Position}
    {nodes : List Node} (h : Reads admits after p text nodes) {span : Location} {name : String}
    (hmem : .symbol span name ∈ nodes) : SymbolText name.toList := by
  induction h with
  | nil => simp at hmem
  | blank _ _ ih => exact ih hmem
  | atom hatom _ _ ih =>
    rcases List.mem_cons.mp hmem with heq | hmem
    · cases hatom with
      | symbol hname =>
        obtain ⟨-, rfl⟩ := Node.symbol.inj heq
        simpa using hname
      | string | key | number => simp at heq
    · exact ih hmem
  | list _ _ _ _ ih =>
    rcases List.mem_cons.mp hmem with heq | hmem
    · simp at heq
    · exact ih hmem

theorem AtomText.of_symbolText {admits : Numeral → Prop} {span : Location} {name : String}
    (h : SymbolText name.toList) : AtomText admits span name.toList (.symbol span name) := by
  have hatom : AtomText admits span name.toList (.symbol span (String.ofList name.toList)) := .symbol h
  rwa [String.ofList_toList] at hatom

theorem isSymbolName_iff (name : String) : IsSymbolName name ↔ SymbolText name.toList := by
  constructor
  · rintro ⟨span, hparse⟩
    obtain ⟨hread, -⟩ := (parse_eq_ok_iff _ _).mp hparse
    exact hread.symbolText List.mem_cons_self
  · intro h
    refine ⟨⟨.start, Position.start.advanceAll name.toList⟩, (parse_eq_ok_iff _ _).mpr ⟨?_, ?_⟩⟩
    · exact .of_atom (.of_symbolText h) fun _ => delimited_nil
    · simp [Node.depthAll, Node.depth]

/-! ## Expressions and programs -/

mutual

/-- The text of the expression is one that a script can hold. -/
def Expr.Printable : Expr → Prop
  | .set _ target value => IsSymbolName target.text ∧ value.Printable
  | .get _ name => IsSymbolName name
  | .call _ name arguments =>
    IsSymbolName name.text ∧ name.text ≠ "if" ∧ name.text ≠ "set" ∧ Expr.AllPrintable arguments
  | .cond _ condition body => condition.Printable ∧ Expr.AllPrintable body
  | .number _ value => value.isFinite
  | .string _ _ | .key _ _ => True

def Expr.AllPrintable : List Expr → Prop
  | [] => True
  | expr :: exprs => expr.Printable ∧ Expr.AllPrintable exprs

end

def Program.Printable (p : Program) : Prop :=
  ∀ handler, ∀ body ∈ p.body? handler, Expr.AllPrintable body

/-! ## What was compiled can be printed -/

mutual

/-- The names in a node are symbols, and its numbers are finite. -/
def Node.Proper : Node → Prop
  | .list _ children => Node.AllProper children
  | .symbol _ name => IsSymbolName name
  | .number _ value => value.isFinite
  | .string _ _ | .key _ _ => True

def Node.AllProper : List Node → Prop
  | [] => True
  | node :: nodes => node.Proper ∧ Node.AllProper nodes

end

theorem Reads.allProper {after text : List Char} {p : Position} {nodes : List Node}
    (h : Reads Numeral.IsFinite after p text nodes) : Node.AllProper nodes := by
  induction h with
  | nil => trivial
  | blank _ _ ih => exact ih
  | atom hatom _ _ ih =>
    refine ⟨?_, ih⟩
    cases hatom with
    | string | key => trivial
    | number _ hfinite => exact hfinite
    | symbol hname => exact (isSymbolName_iff _).mpr (by simpa using hname)
  | list _ _ _ ihinside ih => exact ⟨ihinside, ih⟩

mutual

theorem Node.check_printable : (node : Node) → node.Proper → ∀ {expr}, node.check = .ok expr →
    expr.Printable
  | .symbol _ _, hproper, _, h => by
    cases h
    exact hproper
  | .string _ _, _, _, h => by
    cases h
    trivial
  | .number _ _, hproper, _, h => by
    cases h
    exact hproper
  | .key _ _, _, _, h => by
    obtain ⟨code, -, rfl⟩ := Node.check_key_eq_ok h
    trivial
  | .list _ [], _, _, h => by cases h
  | .list span (head :: operands), ⟨hhead, hoperands⟩, _, h => by
    obtain ⟨name, rfl, ⟨-, hif⟩ | ⟨-, hset⟩ | ⟨hif, hset, arguments, harguments, rfl⟩⟩ :=
      Node.check_list_eq_ok h
    · exact checkIf_printable span operands hoperands hif
    · exact checkSet_printable span operands hoperands hset
    · exact ⟨hhead, hif, hset, checkAll_printable operands hoperands harguments⟩

theorem Node.checkIf_printable (span : Location) : (operands : List Node) →
    Node.AllProper operands → ∀ {expr}, Node.checkIf span operands = .ok expr → expr.Printable
  | [], _, _, h => by cases h
  | condition :: body, ⟨hcondition, hbody⟩, _, h => by
    obtain ⟨_, _, _, _, heq, hcondition', hbody', rfl⟩ := Node.checkIf_eq_ok h
    obtain ⟨rfl, rfl⟩ := List.cons.inj heq
    exact ⟨check_printable condition hcondition hcondition', checkAll_printable body hbody hbody'⟩

theorem Node.checkSet_printable (span : Location) : (operands : List Node) →
    Node.AllProper operands → ∀ {expr}, Node.checkSet span operands = .ok expr → expr.Printable
  | [], _, _, h => by cases h
  | [_], _, _, h => by cases h
  | [target, value], ⟨htarget, hvalue, _⟩, _, h => by
    obtain ⟨name, _, _, heq, hvalue', rfl⟩ := Node.checkSet_eq_ok h
    simp only [List.cons.injEq, and_true] at heq
    obtain ⟨rfl, rfl⟩ := heq
    exact ⟨htarget, check_printable value hvalue hvalue'⟩
  | _ :: _ :: _ :: _, _, _, h => by cases h

theorem Node.checkAll_printable : (nodes : List Node) → Node.AllProper nodes →
    ∀ {exprs}, Node.checkAll nodes = .ok exprs → Expr.AllPrintable exprs
  | [], _, _, h => by
    cases h
    trivial
  | node :: nodes, ⟨hnode, hnodes⟩, _, h => by
    obtain ⟨_, _, hnode', hnodes', rfl⟩ := Node.checkAll_cons_eq_ok h
    exact ⟨check_printable node hnode hnode', checkAll_printable nodes hnodes hnodes'⟩

end

theorem Program.printable_setBody {p : Program} {handler : Handler} {body : Body}
    (h : p.Printable) (hbody : Expr.AllPrintable body) : (p.setBody handler body).Printable := by
  intro other body' hbody'
  rw [body?_setBody] at hbody'
  split at hbody'
  · obtain rfl := Option.some.inj hbody'
    exact hbody
  · exact h other body' hbody'

theorem Program.foldlM_add_printable {p q : Program} {nodes : List Node} (hp : p.Printable)
    (hnodes : Node.AllProper nodes) (h : nodes.foldlM add p = .ok q) : q.Printable := by
  induction nodes generalizing p with
  | nil =>
    cases h
    exact hp
  | cons node nodes ih =>
    obtain ⟨hnode, hnodes⟩ := hnodes
    rw [List.foldlM_cons] at h
    obtain ⟨_, hadd, hrest⟩ := bind_eq_ok h
    obtain ⟨handler, inside, body, hdeclaration, hbody, -, rfl⟩ := add_eq_ok hadd
    obtain ⟨span, span', rfl⟩ := Node.declaration?_eq_some hdeclaration
    exact ih (printable_setBody hp (Node.checkAll_printable inside hnode.2 hbody)) hnodes hrest

theorem printable_of_compile {source : String} {q : Program} (h : compile source = .ok q) :
    q.Printable := by
  obtain ⟨nodes, ⟨hread, -⟩, hprogram⟩ := compile_eq_ok h
  refine Program.foldlM_add_printable ?_ hread.allProper hprogram
  intro handler body hbody
  cases handler <;> cases hbody

end HandlerScript
