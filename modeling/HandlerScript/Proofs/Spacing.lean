import HandlerScript.Proofs.Concatenation
import HandlerScript.Proofs.Forest
import HandlerScript.Proofs.Printing

/-!
# Blanks between words mean nothing

Blanks may be put into a script anywhere but in the middle of a word. The same nodes are read, at other
positions, and what is checked after that does not depend on positions.
-/

namespace HandlerScript

/-! ## Nodes in other places -/

/-- The same nodes, wherever they stand. -/
def Alike (nodes nodes' : List Node) : Prop :=
  Node.mapAllSpans nowhere nodes = Node.mapAllSpans nowhere nodes'

section

variable {nodes nodes' children children' : List Node}

theorem alike_mapAllSpans (f : Location → Location) (nodes : List Node) :
    Alike (Node.mapAllSpans f nodes) nodes := by
  unfold Alike
  rw [Node.mapAllSpans_mapAllSpans]
  rfl

theorem Alike.cons (h : Alike nodes nodes') (node : Node) : Alike (node :: nodes) (node :: nodes') := by
  unfold Alike at h ⊢
  rw [Node.mapAllSpans, Node.mapAllSpans, h]

theorem Alike.list (hchildren : Alike children children') (h : Alike nodes nodes')
    (span span' : Location) :
    Alike (.list span children :: nodes) (.list span' children' :: nodes') := by
  unfold Alike at hchildren h ⊢
  simp only [Node.mapAllSpans, Node.mapSpans, hchildren, h]
  rfl

theorem Alike.depthAll_eq (h : Alike nodes nodes') : Node.depthAll nodes = Node.depthAll nodes' := by
  unfold Alike at h
  rw [← Node.depthAll_mapAllSpans nowhere, h, Node.depthAll_mapAllSpans]

theorem Alike.ofNodes (h : Alike nodes nodes') :
    relocated nowhere Program.unlocated (Program.ofNodes nodes) =
      relocated nowhere Program.unlocated (Program.ofNodes nodes') := by
  unfold Alike at h
  have hnodes := Program.ofNodes_mapAllSpans nowhere nodes
  rw [h] at hnodes
  exact hnodes.symm.trans (Program.ofNodes_mapAllSpans nowhere nodes')

end

/-! ## Another start -/

section

variable {admits : Numeral → Prop} {rest text before after blanks word : List Char} {p : Position}
  {node : Node} {nodes : List Node}

theorem Reads.elsewhere (h : Reads admits rest p text nodes) (q : Position) :
    ∃ nodes', Reads admits rest q text nodes' ∧ Alike nodes' nodes := by
  have hmove : ∀ text, ((p.advanceAll text).seenFrom p).movedTo q = q.advanceAll text := by
    intro text
    have hstart : Position.start.movedTo q = q := by simp [Position.movedTo, Position.start]
    rw [Position.seenFrom_advanceAll (Position.le_refl p), Position.seenFrom_self,
      Position.movedTo_advanceAll (Position.le_refl _), hstart]
  have hhere : (p.seenFrom p).movedTo q = q := hmove []
  have hmoved := h.moved (f := fun r => (r.seenFrom p).movedTo q) (by
    intro text
    rw [hmove, hhere])
  rw [hhere] at hmoved
  exact ⟨_, hmoved, alike_mapAllSpans _ nodes⟩

theorem Reads.after_blanks (h : Reads admits rest p text nodes) (hblanks : ∀ c ∈ blanks, isBlank c) :
    ∃ nodes', Reads admits rest p (blanks ++ text) nodes' ∧ Alike nodes' nodes := by
  obtain ⟨nodes', hread, halike⟩ := h.elsewhere (p.advanceAll blanks)
  exact ⟨nodes', .skip hblanks hread, halike⟩

/-! ## In the middle of a text -/

theorem delimited_with_blanks (hblanks : ∀ c ∈ blanks, isBlank c)
    (h : Delimited (before ++ after)) : Delimited (before ++ (blanks ++ after)) := by
  apply delimited_append_of ?_ h
  intro hafter
  cases blanks with
  | nil => exact hafter
  | cons c blanks =>
    have hc := hblanks c List.mem_cons_self
    simp [isDelimiter, hc]

def Node.IsWord : Node → Prop
  | .list _ _ => False
  | .symbol _ _ | .string _ _ | .number _ _ | .key _ _ => True

/-- No word has this position in its middle. -/
def Between (nodes : List Node) (q : Position) : Prop :=
  ∀ node : Node, node.Within nodes → node.IsWord → ¬ (node.span.start < q ∧ q < node.span.stop)

theorem Between.tail {q : Position} (h : Between (node :: nodes) q) : Between nodes q := by
  intro other hother
  exact h other (hother.cons node)

theorem Between.children {q : Position} {span : Location} {children : List Node}
    (h : Between (.list span children :: nodes) q) : Between children q := by
  intro other hother
  exact h other (.inside List.mem_cons_self hother)

theorem AtomText.isWord {span : Location} (h : AtomText admits span word node) : node.IsWord := by
  cases h <;> trivial

theorem AtomText.cases_of_between (h : AtomText admits ⟨p, p.advanceAll word⟩ word node)
    (hplace : Between (node :: nodes) (p.advanceAll before)) (htext : word ++ text = before ++ after) :
    before = [] ∨ ∃ more, before = word ++ more ∧ text = more ++ after := by
  rcases List.append_eq_append_iff.mp htext with ⟨more, rfl, rfl⟩ | ⟨more, rfl, rfl⟩
  · exact .inr ⟨more, rfl, rfl⟩
  · by_cases hbefore : before = []
    · exact .inl hbefore
    · by_cases hmore : more = []
      · subst hmore
        exact .inr ⟨[], by simp, rfl⟩
      · have hinside := hplace node (.here List.mem_cons_self) h.isWord
        rw [h.span_eq, Position.advanceAll_append] at hinside
        exact absurd ⟨p.lt_advanceAll hbefore, Position.lt_advanceAll _ hmore⟩ hinside

theorem list_cases {inside : List Char} (htext : '(' :: (inside ++ ')' :: text) = before ++ after) :
    before = [] ∨
      (∃ front back, before = '(' :: front ∧ inside = front ++ back ∧ after = back ++ ')' :: text) ∨
      ∃ more, before = '(' :: (inside ++ ')' :: more) ∧ text = more ++ after := by
  cases before with
  | nil => exact .inl rfl
  | cons c front =>
    obtain ⟨rfl, hfront⟩ := List.cons.inj htext
    rcases List.append_eq_append_iff.mp hfront with ⟨more, rfl, hmore⟩ | ⟨back, rfl, rfl⟩
    · cases more with
      | nil => exact .inr (.inl ⟨inside, [], by simp, by simp, hmore.symm⟩)
      | cons c more =>
        obtain ⟨rfl, rfl⟩ := List.cons.inj hmore
        exact .inr (.inr ⟨more, rfl, rfl⟩)
    · exact .inr (.inl ⟨front, back, rfl, rfl, rfl⟩)

/-- Blanks that are put between words leave all nodes as they are, in other places. -/
theorem Reads.with_blanks (h : Reads admits rest p text nodes) (htext : text = before ++ after)
    (hplace : Between nodes (p.advanceAll before)) (hblanks : ∀ c ∈ blanks, isBlank c) :
    ∃ nodes', Reads admits rest p (before ++ (blanks ++ after)) nodes' ∧ Alike nodes' nodes := by
  induction h generalizing before after with
  | nil =>
    obtain ⟨rfl, rfl⟩ := List.append_eq_nil_iff.mp htext.symm
    exact Reads.nil.after_blanks hblanks
  | blank hc hread ih =>
    cases before with
    | nil =>
      obtain rfl := htext
      exact (Reads.blank hc hread).after_blanks hblanks
    | cons c before =>
      obtain ⟨rfl, rfl⟩ := List.cons.inj htext
      obtain ⟨nodes', hread', halike⟩ := ih rfl hplace
      exact ⟨nodes', .blank hc hread', halike⟩
  | @atom rest word text p node nodes hatom hend hread ih =>
    rcases hatom.cases_of_between hplace htext with rfl | ⟨more, rfl, rfl⟩
    · obtain rfl := htext
      exact (Reads.atom hatom hend hread).after_blanks hblanks
    · have hplace' := hplace.tail
      rw [Position.advanceAll_append] at hplace'
      obtain ⟨nodes', hread', halike⟩ := ih rfl hplace'
      refine ⟨node :: nodes', ?_, halike.cons node⟩
      rw [List.append_assoc]
      refine .atom hatom ?_ hread'
      intro hbare
      have hdelimited := hend hbare
      rw [List.append_assoc] at hdelimited
      have hdelimited' := delimited_with_blanks hblanks hdelimited
      simpa using hdelimited'
  | @list rest inside text p stop children nodes hinside hstop hread ihinside ih =>
    rcases list_cases htext with rfl | ⟨front, back, rfl, rfl, rfl⟩ | ⟨more, rfl, rfl⟩
    · obtain rfl := htext
      exact (Reads.list hinside hstop hread).after_blanks hblanks
    · -- The list gets longer, so all that comes after it is read from another place on.
      obtain ⟨children', hinside', hchildren⟩ := ihinside rfl hplace.children
      obtain ⟨nodes', hread', halike⟩ := hread.elsewhere
        (((p.advance '(').advanceAll (front ++ (blanks ++ back))).advance ')')
      have hlist := Reads.list hinside' rfl hread'
      exact ⟨_, by simpa using hlist, hchildren.list halike _ _⟩
    · have hplace' := hplace.tail
      rw [Position.advanceAll_list hstop] at hplace'
      obtain ⟨nodes', hread', halike⟩ := ih rfl hplace'
      have hlist := Reads.list hinside hstop hread'
      exact ⟨_, by simpa using hlist, halike.cons _⟩

end

/-! ## In the middle of a script -/

/-- The byte offset is in the middle of the node. -/
def Node.Surrounds (node : Node) (source : String) (offset : Nat) : Prop :=
  (node.span.byteRange source).1 < offset ∧ offset < (node.span.byteRange source).2

instance (node : Node) (source : String) (offset : Nat) : Decidable (node.Surrounds source offset) :=
  inferInstanceAs (Decidable (_ ∧ _))

theorem byteLength_lt_of_advanceAll_lt {before before' after after' : List Char}
    (htext : before ++ after = before' ++ after')
    (h : Position.start.advanceAll before < Position.start.advanceAll before') :
    byteLength before < byteLength before' := by
  rcases List.append_eq_append_iff.mp htext with ⟨more, rfl, -⟩ | ⟨more, rfl, -⟩
  · have hne : more ≠ [] := by
      rintro rfl
      simp at h
    have hpos := byteLength_pos hne
    rw [byteLength_append]
    omega
  · rw [Position.advanceAll_append] at h
    exact absurd (lt_of_le_of_lt (Position.le_advanceAll _ more) h) (lt_irrefl _)

theorem StandsAt.surrounds {admits : Numeral → Prop} {before after first word last : List Char}
    {node : Node} (h : StandsAt admits .start node first word)
    (htext : before ++ after = first ++ word ++ last)
    (hstart : node.span.start < Position.start.advanceAll before)
    (hstop : Position.start.advanceAll before < node.span.stop) :
    node.Surrounds (String.ofList (before ++ after)) (byteLength before) := by
  have hspan := h.span_eq
  have hfirst : first ++ (word ++ last) = before ++ after := by rw [htext, List.append_assoc]
  rw [hspan] at hstart hstop
  unfold Node.Surrounds
  rw [htext, hspan, Location.byteRange_advanceAll]
  constructor
  · exact byteLength_lt_of_advanceAll_lt hfirst hstart
  · exact byteLength_lt_of_advanceAll_lt htext hstop

/-- The second script is compiled to the program that the first is compiled to, but for locations, or
is rejected in the same words. -/
def CompiledAlike (source source' : String) : Prop :=
  match compile source with
  | .ok p => ∃ q, compile source' = .ok q ∧ q.unlocated = p.unlocated
  | .error d => ∃ d', compile source' = .error d' ∧ d'.message = d.message ∧ d'.severity = d.severity

section

variable {before after blanks source source' : String} {nodes nodes' : List Node}

theorem IsReading.with_blanks (h : IsReading (before ++ after) nodes)
    (hplace : ∀ node : Node, node.Within nodes → node.IsWord →
      ¬ node.Surrounds (before ++ after) before.utf8ByteSize)
    (hblanks : ∀ c ∈ blanks.toList, isBlank c) :
    ∃ nodes', IsReading (before ++ blanks ++ after) nodes' ∧ Alike nodes' nodes := by
  obtain ⟨hread, hdepth⟩ := h
  have hbetween : Between nodes (Position.start.advanceAll before.toList) := by
    rintro node hnode hword ⟨hstart, hstop⟩
    obtain ⟨first, word, last, htext, hstands⟩ := hread.standsAt hnode
    rw [String.toList_append] at htext
    have hsurrounds := hstands.surrounds htext hstart hstop
    rw [← utf8ByteSize_ofList, ← String.toList_append, String.ofList_toList,
      String.ofList_toList] at hsurrounds
    exact hplace node hnode hword hsurrounds
  obtain ⟨nodes', hread', halike⟩ := hread.with_blanks String.toList_append hbetween hblanks
  refine ⟨nodes', ⟨?_, ?_⟩, halike⟩
  · simpa using hread'
  · rw [halike.depthAll_eq]
    exact hdepth

theorem Alike.compiledAlike (halike : Alike nodes' nodes) (h : parse source = .ok nodes)
    (h' : parse source' = .ok nodes') : CompiledAlike source source' := by
  unfold CompiledAlike
  have hprograms := halike.ofNodes
  rw [compile_of_parse_ok h, compile_of_parse_ok h']
  cases hp : Program.ofNodes nodes with
  | ok p =>
    cases hq : Program.ofNodes nodes' with
    | ok q =>
      rw [hp, hq] at hprograms
      exact ⟨q, rfl, Except.ok.inj hprograms⟩
    | error r =>
      rw [hp, hq] at hprograms
      cases hprograms
  | error r =>
    cases hq : Program.ofNodes nodes' with
    | ok q =>
      rw [hp, hq] at hprograms
      cases hprograms
    | error r' =>
      rw [hp, hq] at hprograms
      have hrejection : r'.mapSpan nowhere = r.mapSpan nowhere := Except.error.inj hprograms
      have hdefect : (r'.mapSpan nowhere).defect = (r.mapSpan nowhere).defect := by
        rw [hrejection]
      refine ⟨r'.diagnostic, rfl, ?_, rfl⟩
      exact congrArg Defect.message hdefect

end

/-- Blanks between the words of a script make no difference but for locations: it is read as the same
nodes, compiled to the same program, or rejected in the same words. -/
theorem blanks_between_words (before after blanks : String) (nodes : List Node)
    (h : parse (before ++ after) = .ok nodes)
    (hplace : ∀ node : Node, node.Within nodes → node.IsWord →
      ¬ node.Surrounds (before ++ after) before.utf8ByteSize)
    (hblanks : ∀ c ∈ blanks.toList, isBlank c) :
    (∃ nodes', parse (before ++ blanks ++ after) = .ok nodes' ∧ Alike nodes' nodes) ∧
      CompiledAlike (before ++ after) (before ++ blanks ++ after) := by
  have hreading := (parse_eq_ok_iff _ _).mp h
  obtain ⟨nodes', hreading', halike⟩ := hreading.with_blanks hplace hblanks
  have hparse' := (parse_eq_ok_iff _ _).mpr hreading'
  exact ⟨⟨nodes', hparse', halike⟩, halike.compiledAlike h hparse'⟩

/-- Where a string ends another word may start, and blanks may come between them. -/
theorem blanks_between_words_string :
    let before := "(init \"é\""
    let words : List Node := [.symbol ⟨⟨1, 2⟩, ⟨1, 6⟩⟩ "init", .string ⟨⟨1, 7⟩, ⟨1, 10⟩⟩ "é",
      .symbol ⟨⟨1, 10⟩, ⟨1, 11⟩⟩ "x"]
    let nodes : List Node := [.list ⟨⟨1, 1⟩, ⟨1, 12⟩⟩ words]
    parse (before ++ "x)") = .ok nodes ∧ before.utf8ByteSize = 10 ∧
      (∀ node : Node, node.Within nodes → node.IsWord → ¬ node.Surrounds (before ++ "x)") 10) ∧
      (∀ c ∈ "\n ".toList, isBlank c) ∧
      (∃ nodes', parse (before ++ "\n " ++ "x)") = .ok nodes' ∧ Alike nodes' nodes) ∧
      CompiledAlike (before ++ "x)") (before ++ "\n " ++ "x)") := by
  intro before words nodes
  have hchars : (before ++ "x)").toList =
      ['(', 'i', 'n', 'i', 't', ' ', '"', 'é', '"', 'x', ')'] := by decide
  have hparse : parse (before ++ "x)") = .ok nodes := by
    rw [parse, hchars]
    cbv
  have hwords : ∀ node ∈ words, ¬ node.Surrounds (before ++ "x)") 10 := by
    decide +kernel
  have hplace : ∀ node : Node, node.Within nodes → node.IsWord →
      ¬ node.Surrounds (before ++ "x)") 10 := by
    intro node hnode hword
    -- Nothing is inside of a word, so all that is inside of the list is one of its words.
    rcases Node.within_cons hnode with rfl | ⟨_, _, heq, hnode⟩ | hnode
    · cases hword
    · obtain ⟨-, rfl⟩ := Node.list.inj heq
      cases hnode with
      | here hmem => exact hwords node hmem
      | inside hlist => simp [words] at hlist
    · exact absurd hnode node.not_within_nil
  have hblanks : ∀ c ∈ "\n ".toList, isBlank c := by
    have hchars : "\n ".toList = ['\n', ' '] := by decide
    simp [hchars, isBlank]
  have hsize : before.utf8ByteSize = 10 := by decide
  refine ⟨hparse, hsize, hplace, hblanks, ?_⟩
  exact blanks_between_words before "x)" "\n " nodes hparse (hsize ▸ hplace) hblanks

end HandlerScript
