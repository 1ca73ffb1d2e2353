import HandlerScript.Proofs.Advance
import HandlerScript.Proofs.FirstDefect
import HandlerScript.Proofs.ViablePrefix

/-!
# What a diagnostic labels

The location of a diagnostic is that of a piece of the script with something in it: from the start
of what the fault is charged to up to and with the character it was found at, or else all of a node.
So nothing is cut off when the location is turned into bytes.
-/

namespace HandlerScript

/-! ## Places in a text -/

namespace Position

theorem lt_advance {p q : Position} (h : p ≤ q) (c : Char) : p < q.advance c := by
  rw [le_def] at h
  rw [lt_def]
  unfold advance
  split <;> simp only <;> omega

theorem lt_advanceAll (p : Position) {text : List Char} (hne : text ≠ []) : p < p.advanceAll text := by
  have hlt : ∀ (q : Position) (c : Char) (text : List Char), p ≤ q → p < q.advanceAll (c :: text) := by
    intro q c text
    induction text generalizing q c with
    | nil => exact fun h => lt_advance h c
    | cons d text ih => exact fun h => ih _ d (le_advance h c)
  obtain ⟨c, text, rfl⟩ := List.exists_cons_of_ne_nil hne
  exact hlt p c text (le_refl p)

/-- The position of a character of this text. -/
def IsInside (p : Position) (text : List Char) : Prop :=
  ∃ before rest, text = before ++ rest ∧ rest ≠ [] ∧ p = start.advanceAll before

theorem isInside_end {text rest : List Char} (hne : rest ≠ []) :
    (start.advanceAll text).IsInside (text ++ rest) := ⟨text, rest, rfl, hne, rfl⟩

theorem IsInside.append {p : Position} {text : List Char} (h : p.IsInside text) (more : List Char) :
    p.IsInside (text ++ more) := by
  obtain ⟨before, rest, rfl, hne, hp⟩ := h
  refine ⟨before, rest ++ more, by simp, ?_, hp⟩
  simp [hne]

end Position

/-- The location is that of a piece of the text, and the piece is not empty. -/
def Location.IsPiece (l : Location) (text : List Char) : Prop :=
  ∃ before piece rest, text = before ++ piece ++ rest ∧ piece ≠ [] ∧
    l = ⟨Position.start.advanceAll before, Position.start.advanceAll (before ++ piece)⟩

/-! ## What a node is read from -/

section

variable {admits : Numeral → Prop} {after text : List Char} {p : Position} {node : Node}
  {nodes : List Node}

theorem Reads.ne_nil_of_within (h : Reads admits after p text nodes) (hnode : node.Within nodes) :
    text ≠ [] := by
  intro hnil
  rw [h.eq_nil hnil] at hnode
  exact node.not_within_nil hnode

theorem StandsAt.word_ne_nil {before word : List Char} (h : StandsAt admits p node before word) :
    word ≠ [] := by
  obtain ⟨-, after, hreads⟩ := h
  exact hreads.ne_nil_of_within (.here List.mem_cons_self)

theorem Reads.span_lt (h : Reads admits after p text nodes) (hnode : node.Within nodes) :
    node.span.start < node.span.stop := by
  obtain ⟨before, word, rest, -, hstands⟩ := h.standsAt hnode
  rw [hstands.span_eq, Position.advanceAll_append]
  exact Position.lt_advanceAll _ hstands.word_ne_nil

theorem Reads.isPiece (h : Reads admits after .start text nodes) (hnode : node.Within nodes) :
    node.span.IsPiece text := by
  obtain ⟨before, word, rest, htext, hstands⟩ := h.standsAt hnode
  exact ⟨before, word, rest, htext, hstands.word_ne_nil, hstands.span_eq⟩

end

theorem Reader.node_span_lt (r : Reader) {node : Node} {next : Reader}
    (h : r.node.outcome = .ok (node, next)) : node.span.start < node.span.stop := by
  have hadvances := node_advances h
  obtain ⟨taken, hne, hleads⟩ := hadvances.took
  have hstop : next.position = r.position.advanceAll taken := hleads.position
  rw [hadvances.span, hstop]
  exact Position.lt_advanceAll _ hne

/-! ## What a fault in the text is charged to -/

theorem Reader.exists_blamedStart {r : Reader} (h : r.scopes ≠ []) :
    ∃ scope ∈ r.scopes, r.blamedStart = scope.start := by
  obtain ⟨cursor, scopes⟩ := r
  match scopes with
  | [] => exact absurd rfl h
  | [scope] => exact ⟨scope, by simp, rfl⟩
  | scope :: outer :: _ =>
    by_cases hlist : scope.kind = .list
    · exact ⟨outer, by simp, by simp [blamedStart, hlist]⟩
    · exact ⟨scope, by simp, by simp [blamedStart, hlist]⟩

section

variable {f : Failure} {done read taken left : List Char} {scopes : List Scope} {p : Position}

theorem scopesAt_ne_nil (scopes : List Scope) (p : Position) : scopesAt scopes p ≠ [] := by
  unfold scopesAt
  split
  · exact List.cons_ne_nil _ _
  · assumption

theorem mem_scopesAt {scope : Scope} (h : scope ∈ scopesAt scopes p) :
    scope ∈ scopes ∨ scopes = [] ∧ scope.start = p := by
  unfold scopesAt at h
  split at h
  · next hnil =>
    obtain rfl := List.mem_singleton.mp h
    exact .inr ⟨hnil, rfl⟩
  · exact .inl h

theorem Fault.start_of_mem_scope {fault : Fault} {scope : Scope} (h : scope ∈ fault.scope p) :
    scope.start = p := by
  cases fault with
  | unterminatedString | invalidEscape | keyName | malformedKeyName =>
    rw [List.mem_singleton.mp h]
  | listTerminator | expression | malformedNumber | malformedSymbol | unexpectedClose
  | nestingTooDeep => exact absurd h List.not_mem_nil

theorem isInside_of_mem_scopesAt {more : List Char} (hmore : more ≠ [])
    (hp : p = Position.start.advanceAll done)
    (hscopes : ∀ scope ∈ scopes, scope.start.IsInside done) :
    ∀ scope ∈ scopesAt scopes p, scope.start.IsInside (done ++ more) := by
  intro scope hscope
  rcases mem_scopesAt hscope with hscope | ⟨-, hstart⟩
  · exact (hscopes scope hscope).append more
  · rw [hstart, hp]
    exact Position.isInside_end hmore

theorem Stall.isInside_blamedStart (h : Stall (listsIn scopes) taken left f.fault)
    (hhalts : f.Halts (scopesAt scopes p) p taken left) (hp : p = Position.start.advanceAll done)
    (hscopes : ∀ scope ∈ scopes, scope.start.IsInside done) :
    f.reader.blamedStart.IsInside (done ++ (taken ++ left.take 1)) := by
  have hne : f.reader.scopes ≠ [] := by
    rw [hhalts.reader]
    simp [scopesAt_ne_nil]
  obtain ⟨scope, hscope, hstart⟩ := Reader.exists_blamedStart hne
  rw [hhalts.reader] at hscope
  rw [hstart]
  by_cases hend : taken ++ left.take 1 = []
  · -- At the end of an open list, what is around it has been entered before.
    rcases h.place with ⟨-, hfault, hlists⟩ | ⟨_, -, rfl, -, -⟩ | ⟨c, _, hmore, -, -⟩
    · rw [scopesAt_of_listsIn hlists, hfault] at hscope
      exact (hscopes scope hscope).append _
    · simp at hend
    · obtain ⟨rfl, hleft⟩ := List.append_eq_nil_iff.mp hend
      rw [List.nil_append] at hmore
      simp [hmore] at hleft
  · rcases List.mem_append.mp hscope with hscope | hscope
    · rw [Fault.start_of_mem_scope hscope, hp]
      exact Position.isInside_end hend
    · exact isInside_of_mem_scopesAt hend hp hscopes scope hscope

/-- On the way to a stall, no scope is entered that is not inside of what has been read. -/
theorem Breaks.isInside_blamedStart (h : Breaks f left scopes p read)
    (hp : p = Position.start.advanceAll done)
    (hscopes : ∀ scope ∈ scopes, scope.start.IsInside done) :
    f.reader.blamedStart.IsInside (done ++ read ++ left.take 1) := by
  induction h generalizing done with
  | @stall scopes p q more taken nodes _ _ hq hstall hhalts =>
    have hq : q = Position.start.advanceAll (done ++ more) := by
      rw [hq, hp, Position.advanceAll_append]
    have hinside := hstall.isInside_blamedStart hhalts hq
      fun scope hscope => (hscopes scope hscope).append more
    simpa using hinside
  | @list scopes p q more read nodes _ _ hq _ _ ih =>
    have hq : q = Position.start.advanceAll (done ++ more) := by
      rw [hq, hp, Position.advanceAll_append]
    have hopen : q.advance '(' = Position.start.advanceAll (done ++ more ++ ['(']) := by
      rw [hq, Position.advanceAll_append _ (done ++ more)]
      rfl
    have hlist : q.IsInside (done ++ more ++ ['(']) := by
      rw [hq]
      exact Position.isInside_end (List.cons_ne_nil _ _)
    have houter := isInside_of_mem_scopesAt (List.cons_ne_nil '(' []) hq
      fun scope hscope => (hscopes scope hscope).append more
    have hinside := ih hopen (List.forall_mem_cons.mpr ⟨hlist, houter⟩)
    simpa using hinside

theorem Breaks.isPiece (h : Breaks f left [] .start read) : f.location.IsPiece (read ++ left) := by
  have hinside : f.reader.blamedStart.IsInside ([] ++ read ++ left.take 1) :=
    h.isInside_blamedStart rfl nofun
  obtain ⟨before, piece, heq, hne, hstart⟩ := hinside
  rw [List.nil_append] at heq
  refine ⟨before, piece, left.drop 1, ?_, hne, ?_⟩
  · rw [← heq, List.append_assoc, List.take_append_drop]
  · unfold Failure.location
    rw [hstart, ← heq, h.cursor, Position.advanceAll_append]
    cases left <;> rfl

end

/-! ## What a defect is charged to -/

section

variable {node other : Node} {nodes : List Node} {r : Rejection}

theorem Node.Flaw.within (h : node.Flaw r) : ∃ n : Node, n.Within [node] ∧ n.span = r.location := by
  cases h with
  | unknownKey | emptyList | ifWithoutCondition | setWithoutOperands | setWithoutValue
  | setWithTooMany => exact ⟨_, .here List.mem_cons_self, rfl⟩
  | headNotSymbol => exact ⟨_, .child (.here List.mem_cons_self), rfl⟩
  | targetNotSymbol => exact ⟨_, .child (.here (by simp)), rfl⟩

mutual

theorem Node.within_of_mem_expressions : (node : Node) → other ∈ node.expressions →
    other.Within [node]
  | .list span (.symbol headSpan name :: operands), h => by
    rw [expressions] at h
    rcases List.mem_cons.mp h with rfl | h
    · exact .here List.mem_cons_self
    · refine .child (.cons ?_ _)
      split at h
      · exact within_of_mem_valueExpressions operands h
      · exact within_of_mem_allExpressions operands h
  | .list _ [] , h | .list _ (.list _ _ :: _), h | .list _ (.string _ _ :: _), h
  | .list _ (.number _ _ :: _), h | .list _ (.key _ _ :: _), h | .symbol _ _, h | .string _ _, h
  | .number _ _, h | .key _ _, h => .here h

theorem Node.within_of_mem_valueExpressions : (nodes : List Node) →
    other ∈ Node.valueExpressions nodes → other.Within nodes
  | [_, value], h => by
    rw [valueExpressions] at h
    exact (within_of_mem_expressions value h).trans (.here (by simp))
  | [], h | [_], h | _ :: _ :: _ :: _, h => absurd h List.not_mem_nil

theorem Node.within_of_mem_allExpressions : (nodes : List Node) →
    other ∈ Node.allExpressions nodes → other.Within nodes
  | [], h => absurd h List.not_mem_nil
  | node :: nodes, h => by
    rw [allExpressions] at h
    rcases List.mem_append.mp h with h | h
    · exact (within_of_mem_expressions node h).trans (.here List.mem_cons_self)
    · exact (within_of_mem_allExpressions nodes h).cons node

end

theorem DeclarationFlaw.within {earlier : List Node} (h : DeclarationFlaw earlier node r) :
    ∃ n : Node, n.Within [node] ∧ n.span = r.location := by
  cases h with
  | notADeclaration | duplicate => exact ⟨node, .here List.mem_cons_self, rfl⟩
  | @body _ body _ hdeclares hfirst =>
    obtain ⟨span, headSpan, rfl⟩ := hdeclares
    obtain ⟨before, inner, after, heq, -, hflaw⟩ := hfirst
    have hinner : inner.Within body :=
      Node.within_of_mem_allExpressions body (by simp [heq])
    obtain ⟨n, hn, hspan⟩ := hflaw.within
    exact ⟨n, .child ((hn.trans hinner).cons _), hspan⟩

theorem Program.within_of_ofNodes_eq_error (h : Program.ofNodes nodes = .error r) :
    ∃ n : Node, n.Within nodes ∧ n.span = r.location := by
  have hjudged := Program.ofNodes_judged nodes
  rw [h] at hjudged
  cases hjudged with
  | rejected hfirst =>
    obtain ⟨before, node, after, rfl, -, hflaw⟩ := hfirst
    obtain ⟨n, hn, hspan⟩ := hflaw.within
    exact ⟨n, hn.trans (.here (by simp)), hspan⟩

end

/-! ## The label -/

/-- Reading this many bytes of the source, which are whole characters, one gets to `p`. -/
def Reaches (source : String) (offset : Nat) (p : Position) : Prop :=
  ∃ before after, source = before ++ after ∧ before.utf8ByteSize = offset ∧
    Position.start.advanceAll before.toList = p

section

variable {source : String} {l : Location}

theorem Location.IsPiece.lt {text : List Char} (h : l.IsPiece text) : l.start < l.stop := by
  obtain ⟨before, piece, rest, -, hne, rfl⟩ := h
  simp only [Position.advanceAll_append]
  exact Position.lt_advanceAll _ hne

theorem reaches_byteLength (before after : List Char) :
    Reaches (String.ofList (before ++ after)) (byteLength before)
      (Position.start.advanceAll before) := by
  refine ⟨String.ofList before, String.ofList after, ?_, utf8ByteSize_ofList before, ?_⟩
  · exact String.ofList_append
  · rw [String.toList_ofList]

theorem Location.IsPiece.byteRange (h : l.IsPiece source.toList) :
    (l.byteRange source).1 < (l.byteRange source).2 ∧
      (l.byteRange source).2 ≤ source.utf8ByteSize ∧
      Reaches source (l.byteRange source).1 l.start ∧ Reaches source (l.byteRange source).2 l.stop := by
  obtain ⟨before, piece, rest, htext, hne, rfl⟩ := h
  have hsource : source = String.ofList (before ++ piece ++ rest) := by
    rw [← htext, String.ofList_toList]
  have hpos := byteLength_pos hne
  have hstart := reaches_byteLength before (piece ++ rest)
  rw [← List.append_assoc] at hstart
  rw [hsource, Location.byteRange_advanceAll, utf8ByteSize_ofList]
  simp only [byteLength_append] at hpos ⊢
  refine ⟨by omega, by omega, hstart, ?_⟩
  rw [← byteLength_append]
  exact reaches_byteLength (before ++ piece) rest

end

theorem isPiece_of_compile {source : String} {d : Diagnostic} (h : compile source = .error d) :
    d.location.IsPiece source.toList := by
  rcases compile_error_cases h with hparse | ⟨nodes, r, hparse, hprogram, rfl⟩
  · rcases parse_cases source with ⟨_, hok, -⟩ | ⟨f, read, left, herror, -, htext, hbreaks⟩
    · simp [hok] at hparse
    obtain rfl : f.diagnostic = d := Except.error.inj (herror.symm.trans hparse)
    rw [htext]
    exact hbreaks.isPiece
  · obtain ⟨n, hn, hspan⟩ := Program.within_of_ofNodes_eq_error hprogram
    have hread := ((parse_eq_ok_iff source nodes).mp hparse).1
    have hpiece := hread.isPiece hn
    rw [hspan] at hpiece
    exact hpiece

/-- Every diagnostic labels a piece of its script with something in it, between whole characters and
with nothing cut off. All locations made on the way start before they stop, and what is wrong with a
script that can be read is charged to one of its nodes. -/
theorem diagnostic_labels_piece (source : String) (d : Diagnostic) (h : compile source = .error d) :
    d.location.start < d.location.stop ∧
      (∀ (r : Reader) (node : Node) (next : Reader), r.node.outcome = .ok (node, next) →
        node.span.start < node.span.stop) ∧
      (∃ i j, (d.report source).label = (i, j) ∧ i < j ∧ j ≤ source.utf8ByteSize ∧
        Reaches source i d.location.start ∧ Reaches source j d.location.stop) ∧
      ∀ nodes, parse source = .ok nodes → ∃ node : Node, node.Within nodes ∧ node.span = d.location := by
  have hpiece := isPiece_of_compile h
  obtain ⟨hlt, hle, hstart, hstop⟩ := hpiece.byteRange
  refine ⟨hpiece.lt, fun r _ _ hr => r.node_span_lt hr, ⟨_, _, rfl, hlt, hle, hstart, hstop⟩, ?_⟩
  intro nodes hparse
  rw [compile_of_parse_ok hparse] at h
  cases hprogram : Program.ofNodes nodes with
  | ok program =>
    rw [hprogram] at h
    cases h
  | error r =>
    rw [hprogram] at h
    obtain rfl : r.diagnostic = d := Except.error.inj h
    exact Program.within_of_ofNodes_eq_error hprogram

theorem diagnostic_labels_piece_line_feed :
    let source := "\"é\" \"\\\n"
    ∃ d, compile source = .error d ∧ d.location = ⟨⟨1, 5⟩, ⟨2, 1⟩⟩ ∧
      d.location.start < d.location.stop ∧ (d.report source).label = (5, 8) ∧
      Reaches source 5 d.location.start ∧ Reaches source 8 d.location.stop := by
  intro source
  have hprogram : (Reader.start source.toList).program =
      .error ⟨.invalidEscape '\n', ⟨⟨1, 6⟩, ['\\', '\n']⟩,
        ⟨⟨⟨1, 7⟩, ['\n']⟩, [⟨.string, ⟨1, 5⟩⟩, ⟨.topLevel, ⟨1, 5⟩⟩]⟩⟩ := by
    cbv
  have hcompile := compile_of_program_error hprogram
  obtain ⟨hlt, -, ⟨i, j, hlabel, -, -, hstart, hstop⟩, -⟩ := diagnostic_labels_piece _ _ hcompile
  have hrange : (5, 8) = (i, j) := by
    rw [← hlabel]
    decide
  obtain ⟨rfl, rfl⟩ := Prod.mk.inj hrange
  exact ⟨_, hcompile, rfl, hlt, hlabel, hstart, hstop⟩

end HandlerScript
