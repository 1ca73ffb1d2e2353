import HandlerScript.Proofs.Labels

/-!
# Nodes nest

The locations of the nodes of a script are nested as the nodes are. Those of siblings stand one after
the other, and those of children stand between the parentheses of their list.
-/

namespace HandlerScript

/-! ## The order of positions -/

namespace Position

instance : Preorder Position where
  le_refl := le_refl
  le_trans p q r hpq hqr := by
    rw [le_def] at *
    omega
  lt_iff_le_not_ge p q := by
    rw [lt_def, le_def, le_def]
    omega

theorem le_advanceAll (p : Position) (text : List Char) : p ≤ p.advanceAll text := by
  by_cases hne : text = []
  · rw [hne]
    exact le_refl p
  · exact le_of_lt (lt_advanceAll p hne)

end Position

/-! ## Where a reading has its nodes -/

section

variable {admits : Numeral → Prop} {after text : List Char} {p : Position} {node : Node}
  {nodes children : List Node} {span : Location}

theorem Reads.bounds (h : Reads admits after p text nodes) (hnode : node.Within nodes) :
    p ≤ node.span.start ∧ node.span.stop ≤ p.advanceAll text := by
  obtain ⟨before, word, rest, rfl, hstands⟩ := h.standsAt hnode
  rw [hstands.span_eq]
  constructor
  · exact p.le_advanceAll before
  · rw [Position.advanceAll_append p (before ++ word)]
    exact Position.le_advanceAll _ rest

theorem Reads.between (h : Reads admits after p text nodes)
    (hlist : (Node.list span children).Within nodes) :
    ∃ inside, Reads admits [')'] (span.start.advance '(') inside children ∧
      span.stop = ((span.start.advance '(').advanceAll inside).advance ')' := by
  induction h with
  | nil => exact absurd hlist (Node.not_within_nil _)
  | blank _ _ ih => exact ih hlist
  | atom hatom _ _ ih =>
    rcases Node.within_cons hlist with rfl | ⟨_, _, rfl, -⟩ | hlist
    · cases hatom
    · cases hatom
    · exact ih hlist
  | @list _ inside _ p stop _ _ hinside hstop _ ihinside ih =>
    rcases Node.within_cons hlist with heq | ⟨_, _, heq, hlist⟩ | hlist
    · obtain ⟨rfl, rfl⟩ := Node.list.inj heq
      exact ⟨inside, hinside, hstop⟩
    · obtain ⟨rfl, rfl⟩ := Node.list.inj heq
      exact ihinside hlist
    · exact ih hlist

/-- Each node stops before those after it start, or where they start. -/
def InOrder (nodes : List Node) : Prop :=
  nodes.Pairwise fun node later => node.span.stop ≤ later.span.start

theorem Reads.inOrder (h : Reads admits after p text nodes) : InOrder nodes := by
  induction h with
  | nil => exact .nil
  | blank _ _ ih => exact ih
  | atom hatom _ hrest ih =>
    refine .cons ?_ ih
    intro later hlater
    rw [hatom.span_eq]
    exact (hrest.bounds (.here hlater)).1
  | list _ _ hrest _ ih =>
    refine .cons ?_ ih
    intro later hlater
    exact (hrest.bounds (.here hlater)).1

theorem Reads.strictly_between {inside : List Char} {child : Node}
    (h : Reads admits [')'] (span.start.advance '(') inside children)
    (hstop : span.stop = ((span.start.advance '(').advanceAll inside).advance ')')
    (hchild : child ∈ children) :
    span.start < child.span.start ∧ child.span.stop < span.stop := by
  obtain ⟨hfirst, hlast⟩ := h.bounds (.here hchild)
  have hopen : span.start < span.start.advance '(' := Position.lt_advance (le_refl _) '('
  have hclose := Position.lt_advance (le_refl ((span.start.advance '(').advanceAll inside)) ')'
  rw [← hstop] at hclose
  exact ⟨lt_of_lt_of_le hopen hfirst, lt_of_le_of_lt hlast hclose⟩

end

/-! ## The forest of a script -/

/-- All nodes of a script start before they stop and are within it. Siblings are in order, at the top
level and in every list, and a list has all of its children strictly between its start and its stop. -/
theorem spans_nested (source : String) (nodes : List Node) (h : parse source = .ok nodes) :
    (∀ node : Node, node.Within nodes → Position.start ≤ node.span.start ∧
      node.span.start < node.span.stop ∧
      node.span.stop ≤ Position.start.advanceAll source.toList) ∧
    InOrder nodes ∧
    ∀ span children, (Node.list span children).Within nodes → InOrder children ∧
      ∀ child ∈ children, span.start < child.span.start ∧ child.span.stop < span.stop := by
  obtain ⟨hread, -⟩ := (parse_eq_ok_iff source nodes).mp h
  refine ⟨?_, hread.inOrder, ?_⟩
  · intro node hnode
    obtain ⟨hfirst, hlast⟩ := hread.bounds hnode
    exact ⟨hfirst, hread.span_lt hnode, hlast⟩
  · intro span children hlist
    obtain ⟨inside, hinside, hstop⟩ := hread.between hlist
    exact ⟨hinside.inOrder, fun child hchild => hinside.strictly_between hstop hchild⟩

/-- A line feed inside of a string moves what comes after it to the left. -/
theorem spans_nested_line_feed :
    let string : Node := .string ⟨⟨1, 4⟩, ⟨2, 2⟩⟩ "\n"
    let symbol : Node := .symbol ⟨⟨2, 2⟩, ⟨2, 3⟩⟩ "x"
    let children := [.symbol ⟨⟨1, 2⟩, ⟨1, 3⟩⟩ "f", string, symbol]
    parse "(f \"\n\"x)" = .ok [.list ⟨⟨1, 1⟩, ⟨2, 4⟩⟩ children] ∧ InOrder children ∧
      (⟨1, 1⟩ : Position) < string.span.start ∧ string.span.stop < ⟨2, 4⟩ ∧
      symbol.span.stop ≤ Position.start.advanceAll "(f \"\n\"x)".toList := by
  intro string symbol children
  have hchars : "(f \"\n\"x)".toList = ['(', 'f', ' ', '"', '\n', '"', 'x', ')'] := by decide
  have hparse : parse "(f \"\n\"x)" = .ok [.list ⟨⟨1, 1⟩, ⟨2, 4⟩⟩ children] := by
    rw [parse, hchars]
    cbv
  obtain ⟨hnodes, -, hlists⟩ := spans_nested _ _ hparse
  obtain ⟨horder, hchildren⟩ := hlists ⟨⟨1, 1⟩, ⟨2, 4⟩⟩ children (.here List.mem_cons_self)
  obtain ⟨hstart, hstop⟩ := hchildren string (by simp [children])
  have hsymbol : symbol.Within [.list ⟨⟨1, 1⟩, ⟨2, 4⟩⟩ children] :=
    .child (.here (by simp [children]))
  exact ⟨hparse, horder, hstart, hstop, (hnodes symbol hsymbol).2.2⟩

end HandlerScript
