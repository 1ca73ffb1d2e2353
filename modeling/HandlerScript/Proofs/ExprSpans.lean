import HandlerScript.Proofs.Compiling
import HandlerScript.Proofs.Forest
import HandlerScript.Proofs.Slots

/-!
# Where expressions stand

An expression lists the locations of the nodes that it was checked from, in the order of the script.
Since nodes nest, all that it lists is within its own location and within that of its declaration.
-/

namespace HandlerScript

/-! ## The locations of nodes -/

mutual

/-- The location of a node and of all nodes in it, in the order of the script. Only `if` and `set` at
the head of a list are left out. -/
def Node.locations : Node → List Location
  | .list span (.symbol headSpan name :: operands) =>
    span :: ((if name = "if" ∨ name = "set" then [] else [headSpan]) ++ Node.allLocations operands)
  | .list span children => span :: Node.allLocations children
  | .symbol span _ | .string span _ | .number span _ | .key span _ => [span]

def Node.allLocations : List Node → List Location
  | [] => []
  | node :: nodes => node.locations ++ Node.allLocations nodes

end

mutual

theorem Node.locations_of_check : (node : Node) → ∀ {expr}, node.check = .ok expr →
    expr.locations = node.locations
  | .symbol _ _, _, h | .string _ _, _, h | .number _ _, _, h => by
    cases h
    rfl
  | .key span name, _, h => by
    obtain ⟨code, -, rfl⟩ := check_key_eq_ok h
    rfl
  | .list _ [], _, h => by cases h
  | .list span (head :: operands), _, h => by
    obtain ⟨name, rfl, ⟨hif, h⟩ | ⟨hset, h⟩ | ⟨hif, hset, arguments, harguments, rfl⟩⟩ :=
      check_list_eq_ok h
    · rw [locations_of_checkIf span operands h, locations, if_pos (.inl hif), List.nil_append]
    · rw [locations_of_checkSet span operands h, locations, if_pos (.inr hset), List.nil_append]
    · rw [Expr.locations, locations_of_checkAll operands harguments, locations,
        if_neg (not_or.mpr ⟨hif, hset⟩), List.singleton_append]

theorem Node.locations_of_checkIf (span : Location) : (operands : List Node) →
    ∀ {expr}, checkIf span operands = .ok expr → expr.locations = span :: allLocations operands
  | [], _, h => by cases h
  | condition :: body, _, h => by
    obtain ⟨_, _, condition', body', heq, hcondition, hbody, rfl⟩ := checkIf_eq_ok h
    obtain ⟨rfl, rfl⟩ := List.cons.inj heq
    rw [Expr.locations, locations_of_check condition hcondition, locations_of_checkAll body hbody,
      allLocations]

theorem Node.locations_of_checkSet (span : Location) : (operands : List Node) →
    ∀ {expr}, checkSet span operands = .ok expr → expr.locations = span :: allLocations operands
  | [], _, h => by cases h
  | [_], _, h => by cases h
  | [target, value], _, h => by
    obtain ⟨name, _, value', heq, hvalue, rfl⟩ := checkSet_eq_ok h
    simp only [List.cons.injEq, and_true] at heq
    obtain ⟨rfl, rfl⟩ := heq
    simp only [Expr.locations, locations_of_check value hvalue, allLocations, locations,
      List.singleton_append, List.append_nil]
  | _ :: _ :: _ :: _, _, h => by cases h

theorem Node.locations_of_checkAll : (nodes : List Node) →
    ∀ {exprs}, checkAll nodes = .ok exprs → Expr.allLocations exprs = allLocations nodes
  | [], _, h => by
    cases h
    rfl
  | node :: nodes, _, h => by
    obtain ⟨expr, exprs, hnode, hnodes, rfl⟩ := checkAll_cons_eq_ok h
    rw [Expr.allLocations, locations_of_check node hnode, locations_of_checkAll nodes hnodes,
      allLocations]

end

/-! ## Expressions inside of expressions -/

def Expr.children : Expr → List Expr
  | .set _ _ value => [value]
  | .call _ _ arguments => arguments
  | .cond _ condition body => condition :: body
  | .get _ _ | .string _ _ | .number _ _ | .key _ _ => []

/-- One of the expressions, or inside of one of them. -/
inductive Expr.Within (expr : Expr) : List Expr → Prop where
  | here {exprs : List Expr} : expr ∈ exprs → expr.Within exprs
  | inside {exprs : List Expr} {outer : Expr} : outer ∈ exprs → expr.Within outer.children →
      expr.Within exprs

section

variable {node other : Node} {nodes operands : List Node} {expr : Expr} {exprs : List Expr}

theorem Node.exists_checkAll_children (h : node.check = .ok expr) :
    ∃ operands, checkAll operands = .ok expr.children ∧
      ∀ other : Node, other.Within operands → other.Within [node] := by
  have hnone : ∃ operands, checkAll operands = .ok [] ∧
      ∀ other : Node, other.Within operands → other.Within [node] :=
    ⟨[], rfl, fun other hother => absurd hother other.not_within_nil⟩
  match node, h with
  | .symbol _ _, h | .string _ _, h | .number _ _, h =>
    cases h
    exact hnone
  | .key span name, h =>
    obtain ⟨code, -, rfl⟩ := check_key_eq_ok h
    exact hnone
  | .list _ [], h => cases h
  | .list span (head :: operands), h =>
    obtain ⟨name, rfl, ⟨-, h⟩ | ⟨-, h⟩ | ⟨-, -, arguments, harguments, rfl⟩⟩ := check_list_eq_ok h
    · obtain ⟨condition, body, condition', body', rfl, hcondition, hbody, rfl⟩ := checkIf_eq_ok h
      refine ⟨condition :: body, ?_, fun other hother => (hother.cons _).child⟩
      rw [checkAll, hcondition, hbody]
      rfl
    · obtain ⟨target, value, value', rfl, hvalue, rfl⟩ := checkSet_eq_ok h
      refine ⟨[value], ?_, fun other hother => ((hother.cons _).cons _).child⟩
      rw [checkAll, hvalue]
      rfl
    · exact ⟨operands, harguments, fun other hother => (hother.cons _).child⟩

theorem Node.exists_check_of_mem (h : checkAll nodes = .ok exprs) (hexpr : expr ∈ exprs) :
    ∃ node ∈ nodes, node.check = .ok expr := by
  induction nodes generalizing exprs with
  | nil =>
    cases h
    exact absurd hexpr List.not_mem_nil
  | cons node nodes ih =>
    obtain ⟨first, others, hfirst, hothers, rfl⟩ := checkAll_cons_eq_ok h
    rcases List.mem_cons.mp hexpr with rfl | hexpr
    · exact ⟨node, List.mem_cons_self, hfirst⟩
    · obtain ⟨found, hfound, hcheck⟩ := ih hothers hexpr
      exact ⟨found, List.mem_cons_of_mem _ hfound, hcheck⟩

theorem Expr.Within.exists_check (h : expr.Within exprs) (hnodes : Node.checkAll nodes = .ok exprs) :
    ∃ node : Node, node.Within nodes ∧ node.check = .ok expr := by
  induction h generalizing nodes with
  | here hexpr =>
    obtain ⟨node, hnode, hcheck⟩ := Node.exists_check_of_mem hnodes hexpr
    exact ⟨node, .here hnode, hcheck⟩
  | inside houter _ ih =>
    obtain ⟨node, hnode, hcheck⟩ := Node.exists_check_of_mem hnodes houter
    obtain ⟨operands, hoperands, hwithin⟩ := Node.exists_checkAll_children hcheck
    obtain ⟨inner, hinner, hinnerCheck⟩ := ih hoperands
    exact ⟨inner, (hwithin inner hinner).trans (.here hnode), hinnerCheck⟩

end

/-! ## Locations inside of locations -/

section

variable {admits : Numeral → Prop} {after text : List Char} {p : Position} {node other : Node}
  {nodes : List Node} {expr : Expr} {l : Location}

theorem Node.locations_eq_cons (node : Node) : ∃ inner, node.locations = node.span :: inner := by
  unfold locations
  split <;> exact ⟨_, rfl⟩

theorem Expr.locations_eq_cons (expr : Expr) : ∃ inner, expr.locations = expr.span :: inner := by
  cases expr <;> exact ⟨_, rfl⟩

theorem Node.span_of_check (h : node.check = .ok expr) : expr.span = node.span := by
  obtain ⟨inner, hexpr⟩ := expr.locations_eq_cons
  obtain ⟨inner', hnode⟩ := node.locations_eq_cons
  have heq := node.locations_of_check h
  rw [hexpr, hnode] at heq
  exact (List.cons.inj heq).1

theorem Node.locations_list_subset (span : Location) (children : List Node) :
    (Node.list span children).locations ⊆ span :: allLocations children := by
  have hsubset : ∀ (head : Node) (kept : List Location) (operands : List Node), kept ⊆ head.locations →
      span :: (kept ++ allLocations operands) ⊆ span :: allLocations (head :: operands) := by
    intro head kept operands hkept
    rw [allLocations]
    refine List.cons_subset_cons span (List.append_subset.mpr ⟨?_, List.subset_append_right _ _⟩)
    exact List.subset_append_of_subset_left _ hkept
  match children with
  | [] => exact List.Subset.refl _
  | .symbol headSpan name :: operands =>
    rw [locations]
    refine hsubset _ _ operands ?_
    split
    · exact List.nil_subset _
    · exact List.Subset.refl _
  | .string _ _ :: operands | .number _ _ :: operands | .key _ _ :: operands | .list _ _ :: operands =>
    exact List.Subset.refl _

mutual

theorem Node.exists_within_of_mem : (node : Node) → l ∈ node.locations →
    ∃ other : Node, other.Within [node] ∧ other.span = l
  | .list span children, h => by
    rcases List.mem_cons.mp (locations_list_subset span children h) with rfl | h
    · exact ⟨_, .here List.mem_cons_self, rfl⟩
    · obtain ⟨other, hother, hspan⟩ := exists_within_of_mem_all children h
      exact ⟨other, hother.child, hspan⟩
  | .symbol _ _, h | .string _ _, h | .number _ _, h | .key _ _, h =>
    ⟨_, .here List.mem_cons_self, (List.mem_singleton.mp h).symm⟩

theorem Node.exists_within_of_mem_all : (nodes : List Node) → l ∈ allLocations nodes →
    ∃ other : Node, other.Within nodes ∧ other.span = l
  | [], h => by simp [allLocations] at h
  | node :: nodes, h => by
    rw [allLocations] at h
    rcases List.mem_append.mp h with h | h
    · obtain ⟨other, hother, hspan⟩ := exists_within_of_mem node h
      exact ⟨other, hother.trans (.here List.mem_cons_self), hspan⟩
    · obtain ⟨other, hother, hspan⟩ := exists_within_of_mem_all nodes h
      exact ⟨other, hother.cons node, hspan⟩

end

theorem Reads.contains (h : Reads admits after p text nodes) (hnode : node.Within nodes)
    (hother : other.Within [node]) : node.span.Contains other.span := by
  obtain ⟨before, word, rest, -, hspan, _, hreads⟩ := h.standsAt hnode
  have hbounds := hreads.bounds hother
  rw [hspan]
  rwa [← Position.advanceAll_append] at hbounds

theorem Reads.contains_location (h : Reads admits after p text nodes) (hnode : node.Within nodes)
    (hother : other.Within [node]) (hcheck : other.check = .ok expr) (hl : l ∈ expr.locations) :
    node.span.Contains l := by
  rw [other.locations_of_check hcheck] at hl
  obtain ⟨inner, hinner, rfl⟩ := other.exists_within_of_mem hl
  exact h.contains hnode (hinner.trans hother)

end

/-! ## Bodies -/

namespace Program

variable {p q : Program} {nodes : List Node} {handler : Handler} {body : Body}

theorem body?_foldlM_add (h : nodes.foldlM add p = .ok q) :
    q.body? handler = some body ↔
      p.body? handler = some body ∨ ∃ node ∈ nodes, node.Offers handler body := by
  induction nodes generalizing p with
  | nil =>
    cases h
    simp
  | cons node nodes ih =>
    rw [List.foldlM_cons] at h
    obtain ⟨middle, hadd, hrest⟩ := bind_eq_ok h
    obtain ⟨declared, checked, hoffers, hslot, rfl⟩ := (add_eq_ok_iff p middle node).mp hadd
    rw [ih hrest, body?_setBody, List.exists_mem_cons_iff, ← or_assoc]
    refine or_congr_left ?_
    constructor
    · intro hbody
      split at hbody
      · next heq =>
        obtain rfl := heq
        obtain rfl := Option.some.inj hbody
        exact .inr hoffers
      · exact .inl hbody
    · rintro (hbody | hbody)
      · have hne : handler ≠ declared := by
          rintro rfl
          simp [hslot] at hbody
        rw [if_neg hne, hbody]
      · obtain ⟨rfl, rfl⟩ := hbody.unique hoffers
        rw [if_pos rfl]

theorem exists_offers (h : nodes.foldlM add p = .ok q) {node : Node} (hnode : node ∈ nodes) :
    ∃ handler body, node.Offers handler body := by
  induction nodes generalizing p with
  | nil => exact absurd hnode List.not_mem_nil
  | cons first nodes ih =>
    rw [List.foldlM_cons] at h
    obtain ⟨middle, hadd, hrest⟩ := bind_eq_ok h
    obtain ⟨handler, body, hoffers, -, -⟩ := (add_eq_ok_iff p middle first).mp hadd
    rcases List.mem_cons.mp hnode with rfl | hnode
    · exact ⟨handler, body, hoffers⟩
    · exact ih hrest hnode

theorem body?_ofNodes (h : ofNodes nodes = .ok q) :
    q.body? handler = some body ↔ ∃ node ∈ nodes, node.Offers handler body := by
  rw [body?_foldlM_add h, body?_empty]
  simp

theorem checkAll_of_declares (h : ofNodes nodes = .ok q) (hbody : q.body? handler = some body)
    {form : Node} (hform : form ∈ nodes) {operands : List Node}
    (hdeclares : form.Declares handler operands) : Node.checkAll operands = .ok body := by
  obtain ⟨handler', body', operands', hdeclares', hchecked⟩ := exists_offers h hform
  obtain ⟨rfl, rfl⟩ := hdeclares.unique hdeclares'
  have hbody' : q.body? handler = some body' :=
    (body?_ofNodes h).mpr ⟨form, hform, operands, hdeclares, hchecked⟩
  obtain rfl := Option.some.inj (hbody.symm.trans hbody')
  exact (Node.checkAll_eq_ok_iff operands body).mpr hchecked

end Program

theorem Node.Declares.within {form node : Node} {handler : Handler} {operands : List Node}
    (h : form.Declares handler operands) (hnode : node.Within operands) : node.Within [form] := by
  obtain ⟨span, headSpan, rfl⟩ := h
  exact (hnode.cons _).child

/-- An expression lists the locations of the nodes that it was checked from, without the heads of
`if` and `set`. If a script compiles, all that an expression of a body lists is within the declaration
of its handler and within each expression around it. -/
theorem locations_of_expressions :
    (∀ (node : Node) (expr : Expr), node.check = .ok expr → expr.locations = node.locations) ∧
    ∀ (source : String) (p : Program) (nodes : List Node), compile source = .ok p →
      parse source = .ok nodes → ∀ handler body, p.body? handler = some body →
        (∃ form ∈ nodes, ∃ operands, form.Declares handler operands) ∧
        ∀ form ∈ nodes, ∀ operands, form.Declares handler operands →
          ∀ outer : Expr, outer.Within body → ∀ expr : Expr, expr.Within [outer] →
            ∀ l ∈ expr.locations, form.span.Contains l ∧ outer.span.Contains l := by
  refine ⟨fun node expr => node.locations_of_check, ?_⟩
  intro source p nodes hcompile hparse handler body hbody
  obtain ⟨nodes', hreading, hprogram⟩ := compile_eq_ok hcompile
  obtain rfl : nodes' = nodes :=
    Except.ok.inj (((parse_eq_ok_iff source nodes').mpr hreading).symm.trans hparse)
  obtain ⟨hread, -⟩ := hreading
  constructor
  · obtain ⟨form, hform, operands, hdeclares, -⟩ := (Program.body?_ofNodes hprogram).mp hbody
    exact ⟨form, hform, operands, hdeclares⟩
  · intro form hform operands hdeclares outer houter expr hexpr l hl
    have hoperands := Program.checkAll_of_declares hprogram hbody hform hdeclares
    obtain ⟨outerNode, houterNode, houterCheck⟩ := houter.exists_check hoperands
    have honly : Node.checkAll [outerNode] = .ok [outer] := by
      rw [Node.checkAll, houterCheck]
      rfl
    obtain ⟨exprNode, hexprNode, hexprCheck⟩ := hexpr.exists_check honly
    have houterForm := hdeclares.within houterNode
    constructor
    · exact hread.contains_location (.here hform) (hexprNode.trans houterForm) hexprCheck hl
    · rw [Node.span_of_check houterCheck]
      exact hread.contains_location (houterForm.trans (.here hform)) hexprNode hexprCheck hl

theorem locations_of_expressions_nested :
    let inside : Node := .list ⟨⟨1, 7⟩, ⟨1, 19⟩⟩ [.symbol ⟨⟨1, 8⟩, ⟨1, 10⟩⟩ "if",
      .symbol ⟨⟨1, 11⟩, ⟨1, 12⟩⟩ "a", .list ⟨⟨1, 13⟩, ⟨1, 18⟩⟩
        [.symbol ⟨⟨1, 14⟩, ⟨1, 15⟩⟩ "f", .symbol ⟨⟨1, 16⟩, ⟨1, 17⟩⟩ "b"]]
    let form : Node := .list ⟨⟨1, 1⟩, ⟨1, 20⟩⟩ [.symbol ⟨⟨1, 2⟩, ⟨1, 6⟩⟩ "draw", inside]
    let call : Expr := .call ⟨⟨1, 13⟩, ⟨1, 18⟩⟩ ⟨⟨⟨1, 14⟩, ⟨1, 15⟩⟩, "f"⟩
      [.get ⟨⟨1, 16⟩, ⟨1, 17⟩⟩ "b"]
    let outer : Expr := .cond ⟨⟨1, 7⟩, ⟨1, 19⟩⟩ (.get ⟨⟨1, 11⟩, ⟨1, 12⟩⟩ "a") [call]
    parse "(draw (if a (f b)))" = .ok [form] ∧
      compile "(draw (if a (f b)))" = .ok { draw := some [outer] } ∧
      outer.locations = [⟨⟨1, 7⟩, ⟨1, 19⟩⟩, ⟨⟨1, 11⟩, ⟨1, 12⟩⟩, ⟨⟨1, 13⟩, ⟨1, 18⟩⟩,
        ⟨⟨1, 14⟩, ⟨1, 15⟩⟩, ⟨⟨1, 16⟩, ⟨1, 17⟩⟩] ∧
      ∀ l ∈ call.locations, form.span.Contains l ∧ outer.span.Contains l := by
  intro inside form call outer
  have hchars : "(draw (if a (f b)))".toList = ['(', 'd', 'r', 'a', 'w', ' ', '(', 'i', 'f', ' ',
      'a', ' ', '(', 'f', ' ', 'b', ')', ')', ')'] := by decide
  have hparse : parse "(draw (if a (f b)))" = .ok [form] := by
    rw [parse, hchars]
    cbv
  have hcompile : compile "(draw (if a (f b)))" = .ok { draw := some [outer] } := by
    rw [compile_of_parse_ok hparse]
    rfl
  obtain ⟨hlocations, hbodies⟩ := locations_of_expressions
  have hcheck := hlocations inside outer rfl
  obtain ⟨-, hform⟩ := hbodies _ _ _ hcompile hparse .draw [outer] rfl
  refine ⟨hparse, hcompile, ?_, ?_⟩
  · rw [hcheck]
    rfl
  · exact hform form List.mem_cons_self _ ⟨_, _, rfl⟩ outer (.here List.mem_cons_self) call
      (.inside List.mem_cons_self (.here (List.mem_cons_of_mem _ List.mem_cons_self)))

end HandlerScript
