import HandlerScript.Proofs.Acceptance
import HandlerScript.Proofs.ByteOffset
import HandlerScript.Proofs.Relocation
import Mathlib

/-!
# The text of a node

The location of a node cuts out of the script the text that the node was read from. Read by itself that
text gives the same node, at the start of a script of its own.
-/

namespace HandlerScript

variable {admits : Numeral → Prop}

/-! ## Another start -/

namespace Position

theorem le_refl (p : Position) : p ≤ p := le_def.mpr (.inr ⟨rfl, Nat.le_refl _⟩)

theorem le_advance {p q : Position} (h : p ≤ q) (c : Char) : p ≤ q.advance c := by
  rw [le_def] at h ⊢
  rw [advance]
  split <;> simp only <;> omega

/-- The same position in a script that starts at `origin`. Only the first row has its columns moved. -/
def seenFrom (p origin : Position) : Position :=
  if p.row = origin.row then ⟨1, p.col - origin.col + 1⟩ else ⟨p.row - origin.row + 1, p.col⟩

@[simp] theorem seenFrom_self (p : Position) : p.seenFrom p = start := by
  simp [seenFrom, start]

theorem seenFrom_advance {origin p : Position} (h : origin ≤ p) (c : Char) :
    (p.advance c).seenFrom origin = (p.seenFrom origin).advance c := by
  rw [le_def] at h
  by_cases hc : c = '\n'
  · subst hc
    simp only [seenFrom, advance, if_true]
    split <;> split <;> simp only [mk.injEq, and_true] <;> omega
  · simp only [seenFrom, advance, if_neg hc]
    split
    · simp only [mk.injEq, true_and]
      omega
    · rfl

theorem seenFrom_advanceAll {origin p : Position} (h : origin ≤ p) (text : List Char) :
    (p.advanceAll text).seenFrom origin = (p.seenFrom origin).advanceAll text := by
  induction text generalizing p with
  | nil => rfl
  | cons c text ih => rw [advanceAll_cons, advanceAll_cons, ih (le_advance h c), seenFrom_advance h]

end Position

def Location.map (f : Position → Position) (span : Location) : Location :=
  ⟨f span.start, f span.stop⟩

/-! ## Reading at another start -/

theorem AtomText.mapSpans {span : Location} {word : List Char} {node : Node}
    (h : AtomText admits span word node) (f : Location → Location) :
    AtomText admits (f span) word (node.mapSpans f) := by
  cases h with
  | string h => exact .string h
  | key h => exact .key h
  | number h hn => exact .number h hn
  | symbol h => exact .symbol h

theorem Node.isBare_mapSpans (f : Location → Location) (node : Node) :
    (node.mapSpans f).IsBare ↔ node.IsBare := by
  cases node <;> rfl

theorem Position.advanceAll_after {f : Position → Position} {p : Position}
    (hf : ∀ text, f (p.advanceAll text) = (f p).advanceAll text) (done text : List Char) :
    f ((p.advanceAll done).advanceAll text) = (f (p.advanceAll done)).advanceAll text := by
  rw [← advanceAll_append, hf, hf, advanceAll_append]

/-- A text that is read in one place is read in another, if positions go on from there as they did. -/
theorem Reads.moved {after text : List Char} {p : Position} {nodes : List Node}
    (h : Reads admits after p text nodes) {f : Position → Position}
    (hf : ∀ text, f (p.advanceAll text) = (f p).advanceAll text) :
    Reads admits after (f p) text (Node.mapAllSpans (Location.map f) nodes) := by
  induction h with
  | nil => exact .nil
  | @blank _ _ p c _ hc _ ih =>
    have hstep : f (p.advance c) = (f p).advance c := hf [c]
    refine .blank hc ?_
    rw [← hstep]
    exact ih (Position.advanceAll_after hf [c])
  | @atom _ word _ p node _ hatom hend _ ih =>
    have hword := hf word
    have hatom' := hatom.mapSpans (Location.map f)
    rw [Location.map, hword] at hatom'
    refine .atom hatom' (fun hbare => hend ((node.isBare_mapSpans _).mp hbare)) ?_
    rw [← hword]
    exact ih (Position.advanceAll_after hf word)
  | @list after inside text p stop children nodes _ hstop _ ihinside ih =>
    -- A list stops where its whole text does, from its start, so what is assumed of `f` says where.
    have hopen : f (p.advance '(') = (f p).advance '(' := hf ['(']
    rw [← Position.advanceAll_between] at hstop
    have hstop' : f stop = (f p).advanceAll ('(' :: (inside ++ [')'])) := by rw [hstop, hf]
    have hinside := ihinside (Position.advanceAll_after hf ['('])
    rw [hopen] at hinside
    refine .list hinside ?_ (ih ?_)
    · exact hstop'.trans (Position.advanceAll_between _ _ _ _)
    · rw [hstop]
      exact Position.advanceAll_after hf _

/-! ## Nodes inside of nodes -/

/-- One of the nodes, or inside of one of them. -/
inductive Node.Within (node : Node) : List Node → Prop where
  | here {nodes : List Node} : node ∈ nodes → node.Within nodes
  | inside {nodes children : List Node} {span : Location} : .list span children ∈ nodes →
      node.Within children → node.Within nodes

theorem Node.not_within_nil (node : Node) : ¬ node.Within [] := by
  rintro (hnode | hlist)
  · exact absurd hnode List.not_mem_nil
  · exact absurd hlist List.not_mem_nil

theorem Node.depth_le_of_mem {node : Node} {nodes : List Node} (h : node ∈ nodes) :
    node.depth ≤ Node.depthAll nodes := by
  induction h with
  | head => exact Nat.le_max_left _ _
  | tail _ _ ih => exact Nat.le_trans ih (Nat.le_max_right _ _)

theorem Node.Within.depth_le {node : Node} {nodes : List Node} (h : node.Within nodes) :
    node.depth ≤ Node.depthAll nodes := by
  induction h with
  | here hnode => exact Node.depth_le_of_mem hnode
  | inside hlist _ ih =>
    have hdepth := Node.depth_le_of_mem hlist
    rw [Node.depth] at hdepth
    omega

theorem Node.within_cons {node first : Node} {nodes : List Node}
    (h : node.Within (first :: nodes)) :
    node = first ∨ (∃ span children, first = .list span children ∧ node.Within children) ∨
      node.Within nodes := by
  cases h with
  | here hnode =>
    rcases List.mem_cons.mp hnode with rfl | hnode
    · exact .inl rfl
    · exact .inr (.inr (.here hnode))
  | inside hlist hnode =>
    rcases List.mem_cons.mp hlist with rfl | hlist
    · exact .inr (.inl ⟨_, _, rfl, hnode⟩)
    · exact .inr (.inr (.inside hlist hnode))

theorem Node.Within.trans {other node : Node} {nodes : List Node} (h : other.Within [node])
    (hnode : node.Within nodes) : other.Within nodes := by
  rcases Node.within_cons h with rfl | ⟨span, children, rfl, hother⟩ | hother
  · exact hnode
  · induction hnode with
    | here hlist => exact .inside hlist hother
    | inside hlist _ ih => exact .inside hlist ih
  · exact absurd hother other.not_within_nil

theorem Node.Within.cons {other : Node} {nodes : List Node} (h : other.Within nodes) (node : Node) :
    other.Within (node :: nodes) := by
  cases h with
  | here hother => exact .here (List.mem_cons_of_mem _ hother)
  | inside hlist hother => exact .inside (List.mem_cons_of_mem _ hlist) hother

theorem Node.Within.child {other : Node} {span : Location} {children : List Node}
    (h : other.Within children) : other.Within [.list span children] := .inside List.mem_cons_self h

/-- The node was read from `word`, after `before` of a text that stands at `p`, and has just that for
its location. -/
structure StandsAt (admits : Numeral → Prop) (p : Position) (node : Node)
    (before word : List Char) : Prop where
  span_eq : node.span = ⟨p.advanceAll before, p.advanceAll (before ++ word)⟩
  reads : ∃ after, Reads admits after (p.advanceAll before) word [node]

theorem StandsAt.prepend {p : Position} {node : Node} {before word : List Char}
    (done : List Char) (h : StandsAt admits (p.advanceAll done) node before word) :
    StandsAt admits p node (done ++ before) word := by
  obtain ⟨hspan, hreads⟩ := h
  rw [← Position.advanceAll_append] at hspan hreads
  rw [← Position.advanceAll_append, ← List.append_assoc] at hspan
  exact ⟨hspan, hreads⟩

theorem AtomText.span_eq {span : Location} {word : List Char} {node : Node}
    (h : AtomText admits span word node) : node.span = span := by
  cases h <;> rfl

theorem Reads.standsAt {after text : List Char} {p : Position} {node : Node} {nodes : List Node}
    (h : Reads admits after p text nodes) (hnode : node.Within nodes) :
    ∃ before word rest, text = before ++ word ++ rest ∧ StandsAt admits p node before word := by
  induction h with
  | nil => exact absurd hnode node.not_within_nil
  | @blank _ _ _ c _ _ _ ih =>
    obtain ⟨before, word, rest, rfl, hstands⟩ := ih hnode
    exact ⟨c :: before, word, rest, rfl, hstands.prepend [c]⟩
  | @atom _ word text p first nodes hatom hend _ ih =>
    rcases Node.within_cons hnode with rfl | ⟨span, children, rfl, -⟩ | hnode
    · exact ⟨[], word, text, rfl, hatom.span_eq, _, .of_atom hatom hend⟩
    · cases hatom
    · obtain ⟨before, word', rest, rfl, hstands⟩ := ih hnode
      exact ⟨word ++ before, word', rest, by simp, hstands.prepend word⟩
  | @list _ inside text p stop children nodes hinside hstop _ ihinside ih =>
    have hall : stop = p.advanceAll ('(' :: (inside ++ [')'])) :=
      hstop.trans (Position.advanceAll_between _ _ _ _).symm
    rcases Node.within_cons hnode with rfl | ⟨span, children', heq, hnode⟩ | hnode
    · refine ⟨[], '(' :: (inside ++ [')']), text, by simp, ?_, [], .list hinside hstop .nil⟩
      rw [Node.span, hall]
      rfl
    · obtain ⟨rfl, rfl⟩ := Node.list.inj heq
      obtain ⟨before, word, rest, rfl, hstands⟩ := ihinside hnode
      exact ⟨'(' :: before, word, rest ++ ')' :: text, by simp, hstands.prepend ['(']⟩
    · rw [hall] at ih
      obtain ⟨before, word, rest, rfl, hstands⟩ := ih hnode
      exact ⟨'(' :: (inside ++ [')']) ++ before, word, rest, by simp, hstands.prepend _⟩

/-! ## The text of a node is a script -/

/-- The bytes of the source in this range are those of the text. -/
def Cuts (source : String) (range : Nat × Nat) (text : String) : Prop :=
  ∃ before after, source = before ++ text ++ after ∧ before.utf8ByteSize = range.1 ∧
    (before ++ text).utf8ByteSize = range.2

/-- The node where the script starts with it. -/
def Node.alone (node : Node) : Node := node.mapSpans (Location.map (·.seenFrom node.span.start))

theorem StandsAt.cuts {before word rest : List Char} {node : Node}
    (h : StandsAt admits .start node before word) :
    Cuts (String.ofList (before ++ word ++ rest))
      (node.span.byteRange (String.ofList (before ++ word ++ rest))) (String.ofList word) := by
  rw [h.span_eq, Location.byteRange_advanceAll]
  refine ⟨String.ofList before, String.ofList rest, ?_, utf8ByteSize_ofList before, ?_⟩
  · rw [← String.ofList_append, ← String.ofList_append]
  · rw [← String.ofList_append, utf8ByteSize_ofList]

theorem StandsAt.reads_alone {p : Position} {before word : List Char} {node : Node}
    (h : StandsAt admits p node before word) : Reads admits [] .start word [node.alone] := by
  obtain ⟨hspan, after, hreads⟩ := h
  have hstart : node.span.start = p.advanceAll before := by rw [hspan]
  have hmoved := hreads.moved (f := (·.seenFrom (p.advanceAll before)))
    (Position.seenFrom_advanceAll (Position.le_refl _))
  rw [Position.seenFrom_self] at hmoved
  rw [Node.alone, hstart]
  exact hmoved.change_after fun _ => delimited_nil

/-- The location of a node, at any depth, cuts a text out of the script that is read as that node
alone. -/
theorem span_cuts_node (source : String) (nodes : List Node) (node : Node)
    (h : parse source = .ok nodes) (hnode : node.Within nodes) :
    ∃ text, Cuts source (node.span.byteRange source) text ∧ parse text = .ok [node.alone] := by
  obtain ⟨hread, hdepth⟩ := (parse_eq_ok_iff source nodes).mp h
  obtain ⟨before, word, rest, htext, hstands⟩ := hread.standsAt hnode
  have hsource : source = String.ofList (before ++ word ++ rest) := by
    rw [← htext, String.ofList_toList]
  refine ⟨String.ofList word, ?_, ?_⟩
  · rw [hsource]
    exact hstands.cuts
  · rw [parse_eq_ok_iff, IsReading, String.toList_ofList]
    refine ⟨hstands.reads_alone, ?_⟩
    have hnodeDepth := hnode.depth_le
    simp only [Node.depthAll, Node.alone, Node.depth_mapSpans]
    omega

theorem span_cuts_node_second_row :
    let source := "(f \"é\n\" (g x))"
    let node : Node := .list ⟨⟨2, 3⟩, ⟨2, 8⟩⟩ [.symbol ⟨⟨2, 4⟩, ⟨2, 5⟩⟩ "g", .symbol ⟨⟨2, 6⟩, ⟨2, 7⟩⟩ "x"]
    (∃ nodes, parse source = .ok nodes ∧ node.Within nodes) ∧ node.span.byteRange source = (9, 14) ∧
      ∃ text, Cuts source (9, 14) text ∧ parse text = .ok [node.alone] := by
  intro source node
  have hchars : source.toList =
      ['(', 'f', ' ', '"', 'é', '\n', '"', ' ', '(', 'g', ' ', 'x', ')', ')'] := by decide
  have hparse : parse source = .ok [.list ⟨.start, ⟨2, 9⟩⟩
      [.symbol ⟨⟨1, 2⟩, ⟨1, 3⟩⟩ "f", .string ⟨⟨1, 4⟩, ⟨2, 2⟩⟩ "é\n", node]] := by
    rw [parse, hchars]
    cbv
  have hnode : node.Within [.list ⟨.start, ⟨2, 9⟩⟩
      [.symbol ⟨⟨1, 2⟩, ⟨1, 3⟩⟩ "f", .string ⟨⟨1, 4⟩, ⟨2, 2⟩⟩ "é\n", node]] :=
    .inside List.mem_cons_self (.here (by simp))
  have hrange : node.span.byteRange source = (9, 14) := by decide
  have hcuts := span_cuts_node source _ node hparse hnode
  rw [hrange] at hcuts
  exact ⟨⟨_, hparse, hnode⟩, hrange, hcuts⟩

end HandlerScript
