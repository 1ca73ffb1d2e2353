import HandlerScript.Proofs.Breaks

/-!
# What reading comes to

One statement for each reader: either it has read what the grammar says, or it has stalled where the
grammar says nothing.
-/

namespace HandlerScript

/-! ## Atoms -/

inductive AtomResult (scopes : List Scope) (p : Position) (text : List Char) :
    Except Failure (Node × Reader) → Prop where
  | read {word left : List Char} {node : Node} : text = word ++ left →
      AtomText Numeral.IsFinite ⟨p, p.advanceAll word⟩ word node →
      (node.IsBare → Delimited left) →
      AtomResult scopes p text (.ok (node, ⟨⟨p.advanceAll word, left⟩, scopes⟩))
  | stall {f : Failure} {taken left : List Char} : text = taken ++ left →
      Stall (listsIn scopes) taken left f.fault → f.Halts scopes p taken left →
      AtomResult scopes p text (.error f)

namespace Reader

theorem string_result (p : Position) (text : List Char) (scopes : List Scope) :
    AtomResult scopes p ('"' :: text) (string ⟨⟨p, '"' :: text⟩, scopes⟩).outcome := by
  have hread := Quoted.read_explains (p.advance '"') text
  rw [string, dif_pos (by rfl)]
  simp only
  split
  · next value after heq =>
    have hread := heq ▸ hread
    obtain ⟨inside, left, rfl, hinside, rfl⟩ := hread
    change AtomResult scopes p _ (.ok (.string ⟨p, ((p.advance '"').advanceAll inside).advance '"'⟩
      (String.ofList value), ⟨⟨((p.advance '"').advanceAll inside).advance '"', left⟩, scopes⟩))
    rw [← Position.advanceAll_between]
    exact .read (by simp) (.string hinside) (fun hbare => hbare.elim)
  · next halted heq =>
    have hread := heq ▸ hread
    obtain ⟨value, inside, hinside, htext, rfl⟩ := hread
    refine .stall (List.append_nil ('"' :: text)).symm ?_ ⟨rfl, by simp [fail]⟩
    rcases htext with rfl | rfl
    · exact .unterminated hinside
    · exact .unescaped hinside
  · next escaped backslash halted heq =>
    have hread := heq ▸ hread
    obtain ⟨value, inside, left, hinside, rfl, hescape, rfl, rfl⟩ := hread
    have htext : '"' :: (inside ++ '\\' :: escaped :: left) =
        '"' :: (inside ++ ['\\']) ++ escaped :: left := by simp
    refine .stall htext (.badEscape hinside hescape) ⟨?_, ?_⟩
    · rw [Position.advanceAll_between]
      rfl
    · intro hfault
      cases hfault

theorem keyName_result (p : Position) (text : List Char) (scopes : List Scope) :
    AtomResult scopes p ('@' :: text) (keyName ⟨⟨p, '@' :: text⟩, scopes⟩).outcome := by
  have hsplit := List.takeWhile_append_dropWhile (p := Char.isAlphanum) (l := text)
  have hstop := stops_dropWhile Char.isAlphanum text
  rw [keyName, dif_pos (by rfl)]
  simp only
  split
  · next hnil =>
    have hnil : text.takeWhile Char.isAlphanum = [] := hnil
    rw [hnil, List.nil_append] at hsplit
    rw [hsplit] at hstop
    exact .stall (List.singleton_append.symm) (.unnamed hstop) ⟨rfl, by simp⟩
  · next hne =>
    have hname : KeyText (text.takeWhile Char.isAlphanum) := ⟨hne, forall_mem_takeWhile _ _⟩
    have htext : '@' :: text =
        '@' :: text.takeWhile Char.isAlphanum ++ text.dropWhile Char.isAlphanum := by
      rw [List.cons_append, hsplit]
    split
    · next hend => exact .read htext (.key hname) fun _ => (atDelimiter_iff _ _).mp hend
    · next hend =>
      exact .stall htext (.gluedKey hname hstop (mt (atDelimiter_iff _ _).mpr hend))
        ⟨rfl, by simp [fail]⟩

theorem number_result (p : Position) (text : List Char) (scopes : List Scope)
    (h : (⟨p, text⟩ : Cursor).startsNumeral) :
    AtomResult scopes p text (number ⟨⟨p, text⟩, scopes⟩).outcome := by
  rw [number, if_pos h]
  rcases Cursor.numeral_cases h with ⟨run, left, rfl, hbreak, hread⟩ |
    ⟨n, run, left, rfl, hrun, hread⟩
  · split
    · next halted heq =>
      obtain rfl : Cursor.past p run left = halted := Except.error.inj (hread.symm.trans heq)
      exact .stall rfl (.brokenNumeral hbreak) ⟨rfl, fun _ => rfl⟩
    · next heq => simp [hread] at heq
  · split
    · next heq => simp [hread] at heq
    · next numeral after heq =>
      obtain ⟨rfl, rfl⟩ : n = numeral ∧ Cursor.past p run left = after := by
        simpa [hread] using heq
      split
      · next hend =>
        exact .read rfl (.number hrun.numeralText hend.2) fun _ => (atDelimiter_iff _ _).mp hend.1
      · next hend =>
        by_cases hleft : Delimited left
        · have hfinite : n.value.isFinite = false := by
            simpa [(atDelimiter_iff _ _).mpr hleft, Cursor.past] using hend
          exact .stall rfl (.outOfRange hrun.numeralText hleft hfinite) ⟨rfl, fun _ => rfl⟩
        · exact .stall rfl (.gluedNumeral hrun hleft) ⟨rfl, fun _ => rfl⟩

theorem symbol_result (p : Position) (c : Char) (text : List Char) (scopes : List Scope)
    (hstart : isSymbolStart c) (h : (⟨p, c :: text⟩ : Cursor).startsNumeral = false) :
    AtomResult scopes p (c :: text) (symbol ⟨⟨p, c :: text⟩, scopes⟩).outcome := by
  have hpart := isSymbolPart_of_isSymbolStart c hstart
  have hsplit := List.takeWhile_append_dropWhile (p := isSymbolPart) (l := c :: text)
  have hstop := stops_dropWhile isSymbolPart (c :: text)
  have hname : SymbolText ((c :: text).takeWhile isSymbolPart) := by
    rw [List.takeWhile_cons_of_pos hpart]
    refine .mk hstart (forall_mem_takeWhile _ _) fun hsign => ?_
    -- After a sign no digit comes, so none comes first in the run.
    cases text with
    | nil => simp
    | cons d text =>
      have hdigit : d.isDigit = false := by
        rcases (isSign_iff c).mp hsign with rfl | rfl <;>
          simpa [Cursor.startsNumeral, Cursor.sign, Cursor.peek, Cursor.next] using h
      by_cases hd : isSymbolPart d
      · simp [List.takeWhile_cons_of_pos hd, hdigit]
      · simp [List.takeWhile_cons_of_neg hd]
  simp only [symbol]
  rw [dif_pos (by simpa [peek, Cursor.peek] using hstart)]
  split
  · next hend => exact .read hsplit.symm (.symbol hname) fun _ => (atDelimiter_iff _ _).mp hend
  · next hend =>
    exact .stall hsplit.symm (.gluedSymbol hname hstop (mt (atDelimiter_iff _ _).mpr hend))
      ⟨rfl, by simp⟩

end Reader

/-! ## Blanks before a node -/

theorem Node.depthAll_append (nodes nodes' : List Node) :
    Node.depthAll (nodes ++ nodes') = max (Node.depthAll nodes) (Node.depthAll nodes') := by
  induction nodes with
  | nil => simp [Node.depthAll]
  | cons node nodes ih => simp [Node.depthAll, ih, Nat.max_assoc]

theorem AtomText.depth {admits : Numeral → Prop} {span : Location} {word : List Char} {node : Node}
    (h : AtomText admits span word node) : node.depth = 0 := by
  cases h <;> simp [Node.depth]

theorem Reads.skip {admits : Numeral → Prop} {after blanks text : List Char} {p : Position}
    {nodes : List Node} (hblanks : ∀ c ∈ blanks, isBlank c)
    (h : Reads admits after (p.advanceAll blanks) text nodes) :
    Reads admits after p (blanks ++ text) nodes := by
  induction blanks generalizing p with
  | nil => exact h
  | cons c blanks ih =>
    obtain ⟨hc, hblanks⟩ := List.forall_mem_cons.mp hblanks
    exact .blank hc (ih hblanks h)

theorem Reads.blanks {admits : Numeral → Prop} {after text : List Char} (p : Position)
    (h : ∀ c ∈ text, isBlank c) : Reads admits after p text [] := by
  rw [← text.append_nil]
  exact .skip h .nil

theorem Reads.length_lt {admits : Numeral → Prop} {after text : List Char} {p : Position}
    {node : Node} {nodes : List Node} (h : Reads admits after p text (node :: nodes))
    (left : List Char) : left.length < (text ++ left).length := by
  have hne : text ≠ [] := fun htext => List.cons_ne_nil node nodes (h.eq_nil htext)
  have hpos := List.length_pos_iff.mpr hne
  rw [List.length_append]
  omega

theorem Breaks.prepend {f : Failure} {left read done : List Char} {scopes : List Scope}
    {p : Position} {nodes : List Node} (hdone : Reads Numeral.IsFinite (read ++ left) p done nodes)
    (hdepth : listsIn scopes + Node.depthAll nodes ≤ nestingLimit)
    (h : Breaks f left scopes (p.advanceAll done) read) : Breaks f left scopes p (done ++ read) := by
  cases h with
  | @stall _ _ q more taken nodes' hmore hdepth' hq hstall hhalts =>
    rw [← List.append_assoc]
    refine .stall (hdone.append hmore (by simp)) ?_ ?_ hstall hhalts
    · rw [Node.depthAll_append]
      omega
    · rw [hq, Position.advanceAll_append]
  | @list _ _ q more read nodes' hmore hdepth' hq hlimit h =>
    rw [← List.append_assoc]
    refine .list (hdone.append hmore (by simp)) ?_ ?_ hlimit h
    · rw [Node.depthAll_append]
      omega
    · rw [hq, Position.advanceAll_append]

@[simp] theorem listsIn_list (start : Position) (scopes : List Scope) :
    listsIn (⟨.list, start⟩ :: scopes) = listsIn scopes + 1 := by
  simp [listsIn]

/-! ## Nodes and lists -/

inductive NodeResult (scopes : List Scope) (p : Position) (text : List Char) :
    Except Failure (Node × Reader) → Prop where
  | read {word left : List Char} {node : Node} : text = word ++ left →
      Reads Numeral.IsFinite left p word [node] → listsIn scopes + node.depth ≤ nestingLimit →
      NodeResult scopes p text (.ok (node, ⟨⟨p.advanceAll word, left⟩, scopes⟩))
  | stall {f : Failure} {taken left : List Char} : text = taken ++ left →
      Stall (listsIn scopes) taken left f.fault → f.Halts scopes p taken left →
      NodeResult scopes p text (.error f)
  | list {f : Failure} {read left : List Char} : text = '(' :: read ++ left →
      listsIn scopes < nestingLimit → Breaks f left (⟨.list, p⟩ :: scopes) (p.advance '(') read →
      NodeResult scopes p text (.error f)

inductive ItemsResult (scopes : List Scope) (p : Position) (text : List Char) :
    Except Failure (List Node × Reader) → Prop where
  | read {inside left : List Char} {children : List Node} : text = inside ++ ')' :: left →
      Reads Numeral.IsFinite [')'] p inside children →
      listsIn scopes + Node.depthAll children ≤ nestingLimit →
      ItemsResult scopes p text
        (.ok (children, ⟨⟨(p.advanceAll inside).advance ')', left⟩, scopes⟩))
  | breaks {f : Failure} {read left : List Char} : text = read ++ left →
      Breaks f left scopes p read → ItemsResult scopes p text (.error f)

inductive ProgramResult (p : Position) (text : List Char) : Except Failure (List Node) → Prop where
  | read {nodes : List Node} : Reads Numeral.IsFinite [] p text nodes →
      Node.depthAll nodes ≤ nestingLimit → ProgramResult p text (.ok nodes)
  | breaks {f : Failure} {read left : List Char} : text = read ++ left →
      Breaks f left [] p read → ProgramResult p text (.error f)

/-- The nodes up to a closing parenthesis and the reader after it, or the failure. -/
def Items.outcome {size : Nat} (result : Except Failure (Items size)) :
    Except Failure (List Node × Reader) :=
  result.map fun items => (items.children, items.next)

theorem AtomResult.node {scopes : List Scope} {p : Position} {text : List Char}
    {result : Except Failure (Node × Reader)} (h : AtomResult scopes p text result)
    (hlists : listsIn scopes ≤ nestingLimit) : NodeResult scopes p text result := by
  cases h with
  | @read word left node htext hatom hend =>
    exact .read htext (.of_atom hatom hend) (by rwa [hatom.depth])
  | stall htext hstall hhalts => exact .stall htext hstall hhalts

theorem ItemsResult.prepend {scopes : List Scope} {p : Position} {read rest : List Char}
    {node : Node} {result : Except Failure (List Node × Reader)}
    (hread : Reads Numeral.IsFinite rest p read [node])
    (hdepth : listsIn scopes + node.depth ≤ nestingLimit)
    (h : ItemsResult scopes (p.advanceAll read) rest result) :
    ItemsResult scopes p (read ++ rest) (result.map fun (nodes, after) => (node :: nodes, after)) := by
  cases h with
  | @read inside left children htext hinside hinsideDepth =>
    subst htext
    rw [← Position.advanceAll_append]
    refine .read (by simp) (hread.append hinside ?_) ?_
    · cases inside <;> simp
    · rw [Node.depthAll]
      omega
  | breaks htext hbreaks =>
    subst htext
    refine .breaks (List.append_assoc ..).symm (hbreaks.prepend hread ?_)
    simpa [Node.depthAll] using hdepth

theorem ProgramResult.prepend {p : Position} {read rest : List Char} {node : Node}
    {result : Except Failure (List Node)} (hread : Reads Numeral.IsFinite rest p read [node])
    (hdepth : node.depth ≤ nestingLimit) (h : ProgramResult (p.advanceAll read) rest result) :
    ProgramResult p (read ++ rest) (result.map (node :: ·)) := by
  cases h with
  | read hrest hrestDepth =>
    refine .read (hread.append hrest (by simp)) ?_
    rw [Node.depthAll]
    omega
  | breaks htext hbreaks =>
    subst htext
    refine .breaks (List.append_assoc ..).symm (hbreaks.prepend hread ?_)
    simpa [Node.depthAll, listsIn] using hdepth

theorem NodeResult.breaks {scopes : List Scope} {p q : Position} {f : Failure}
    {blanks text : List Char} (hblanks : ∀ c ∈ blanks, isBlank c) (hq : q = p.advanceAll blanks)
    (hlists : listsIn (scopesAt scopes q) = listsIn scopes) (hlimit : listsIn scopes ≤ nestingLimit)
    (h : NodeResult (scopesAt scopes q) q text (.error f)) :
    ∃ read left, blanks ++ text = read ++ left ∧ Breaks f left scopes p read := by
  cases h with
  | @stall _ taken left htext hstall hhalts =>
    rw [hlists] at hstall
    refine ⟨blanks ++ taken, left, by simp [htext], ?_⟩
    exact .stall (.blanks p hblanks) (by simpa [Node.depthAll] using hlimit) hq hstall hhalts
  | @list _ read left htext hlimit' h =>
    rw [hlists] at hlimit'
    refine ⟨blanks ++ '(' :: read, left, by simp [htext], ?_⟩
    exact .list (.blanks p hblanks) (by simpa [Node.depthAll] using hlimit) hq hlimit' h

namespace Reader

theorem list_result {scopes : List Scope} {p : Position} {text : List Char}
    (hitems : listsIn scopes < nestingLimit → ItemsResult (⟨.list, p⟩ :: scopes) (p.advance '(') text
      (Items.outcome (items ⟨⟨p.advance '(', text⟩, ⟨.list, p⟩ :: scopes⟩))) :
    NodeResult scopes p ('(' :: text) (list ⟨⟨p, '(' :: text⟩, scopes⟩).outcome := by
  rw [list, dif_pos (by rfl)]
  split
  · next hlimit =>
    have hlimit : listsIn scopes < nestingLimit := hlimit
    have hitems := hitems hlimit
    simp only
    split
    · next children after shorter heq =>
      have heq : items ⟨⟨p.advance '(', text⟩, ⟨.list, p⟩ :: scopes⟩ = _ := heq
      rw [heq] at hitems
      cases hitems with
      | @read inside left _ htext hinside hdepth =>
        have hread : Reads Numeral.IsFinite left p ('(' :: (inside ++ [')'])) [.list ⟨p, _⟩ children] :=
          .list hinside rfl .nil
        change NodeResult scopes p _ (.ok (.list ⟨p, ((p.advance '(').advanceAll inside).advance ')'⟩
          children, ⟨⟨((p.advance '(').advanceAll inside).advance ')', left⟩, scopes⟩))
        rw [← Position.advanceAll_between] at hread ⊢
        rw [listsIn_list] at hdepth
        change _ + Node.depthAll children ≤ _ at hdepth
        exact .read (by simp [htext]) hread (by simp only [Node.depth]; omega)
    · next failure heq =>
      have heq : items ⟨⟨p.advance '(', text⟩, ⟨.list, p⟩ :: scopes⟩ = _ := heq
      rw [heq] at hitems
      cases hitems with
      | breaks htext h => exact .list (by simp [htext]) hlimit h
  · next hlimit =>
    have hlimit : nestingLimit ≤ listsIn scopes := Nat.le_of_not_lt hlimit
    exact .stall (List.nil_append _).symm (.tooDeep hlimit) ⟨rfl, by simp [fail]⟩

theorem startsNothing_of {p : Position} {c : Char} {text : List Char}
    (hnumber : (⟨p, c :: text⟩ : Cursor).startsNumeral = false) (hsymbol : isSymbolStart c = false)
    (hblank : isBlank c = false) (hmark : c ∉ ['(', ')', '"', '@']) : StartsNothing c := by
  refine ⟨hsymbol, ?_, hblank, hmark⟩
  cases hdigit : c.isDigit with
  | false => rfl
  | true => simp [startsNumeral_of_isDigit hdigit] at hnumber

theorem node_result {scopes : List Scope} {p : Position} {c : Char} {text : List Char}
    (hblank : isBlank c = false) (hclose : c ≠ ')') (hlists : listsIn scopes ≤ nestingLimit)
    (hitems : listsIn scopes < nestingLimit → ItemsResult (⟨.list, p⟩ :: scopes) (p.advance '(') text
      (Items.outcome (items ⟨⟨p.advance '(', text⟩, ⟨.list, p⟩ :: scopes⟩))) :
    NodeResult scopes p (c :: text) (node ⟨⟨p, c :: text⟩, scopes⟩).outcome := by
  rw [node_eq]
  rcases opening_cases ⟨⟨p, c :: text⟩, scopes⟩ with ⟨h, hopening⟩ | ⟨h, hopening⟩ |
    ⟨h, hopening⟩ | ⟨hlist, hstring, hkey, hopening⟩
  · obtain rfl : c = '(' := Option.some.inj h
    exact list_result hitems
  · obtain rfl : c = '"' := Option.some.inj h
    exact (string_result p text scopes).node hlists
  · obtain rfl : c = '@' := Option.some.inj h
    exact (keyName_result p text scopes).node hlists
  · rw [hopening]
    by_cases hnumber : (⟨p, c :: text⟩ : Cursor).startsNumeral
    · simp only [hnumber, if_true]
      exact (number_result p (c :: text) scopes hnumber).node hlists
    · have hnumber : (⟨p, c :: text⟩ : Cursor).startsNumeral = false := by simpa using hnumber
      by_cases hsymbol : isSymbolStart c
      · have hpeek : (peek ⟨⟨p, c :: text⟩, scopes⟩).any isSymbolStart = true := hsymbol
        simp only [hnumber, hpeek, Bool.false_eq_true, if_false, if_true]
        exact (symbol_result p c text scopes hsymbol hnumber).node hlists
      · have hpeek : (peek ⟨⟨p, c :: text⟩, scopes⟩).any isSymbolStart = false := by
          simpa [peek, Cursor.peek] using hsymbol
        simp only [hnumber, hpeek, Bool.false_eq_true, if_false]
        have hmark : c ∉ ['(', ')', '"', '@'] := by
          simp only [List.mem_cons, List.not_mem_nil, or_false, not_or]
          exact ⟨fun h => hlist (congrArg some h), hclose, fun h => hstring (congrArg some h),
            fun h => hkey (congrArg some h)⟩
        have hnothing := startsNothing_of hnumber (by simpa using hsymbol) hblank hmark
        exact .stall (List.nil_append _).symm (.noNode hnothing) ⟨rfl, by simp [fail]⟩

theorem skipBlanks_eq (p : Position) (text : List Char) (scopes : List Scope) :
    ∃ blanks rest, text = blanks ++ rest ∧ (∀ c ∈ blanks, isBlank c) ∧ Stops isBlank rest ∧
      skipBlanks ⟨⟨p, text⟩, scopes⟩ = ⟨⟨p.advanceAll blanks, rest⟩, scopes⟩ :=
  ⟨_, _, List.takeWhile_append_dropWhile.symm, forall_mem_takeWhile _ _, stops_dropWhile _ _, rfl⟩

theorem items_end {r : Reader} (h : r.skipBlanks.peek = none) :
    Items.outcome r.items = .error (r.skipBlanks.fail .listTerminator) := by
  rw [items]
  split
  · rfl
  · next hpeek => simp [h] at hpeek
  · next hpeek => simp [h] at hpeek

theorem items_close {r : Reader} (h : r.skipBlanks.peek = some ')') :
    Items.outcome r.items = .ok ([], r.skipBlanks.next) := by
  rw [items]
  split
  · next hpeek => simp [h] at hpeek
  · rfl
  · next hclose hpeek => exact absurd (Option.some.inj (hpeek.symm.trans h)) hclose

theorem items_node {r : Reader} {c : Char} (h : r.skipBlanks.peek = some c) (hclose : c ≠ ')') :
    Items.outcome r.items = r.skipBlanks.node.outcome >>= fun (node, next) =>
      (Items.outcome next.items).map fun (nodes, after) => (node :: nodes, after) := by
  rw [items]
  simp only
  split
  · next hpeek => simp [h] at hpeek
  · next hpeek => exact absurd (Option.some.inj (h.symm.trans hpeek)) hclose
  · split
    · next node next shorter heq =>
      rw [heq]
      simp only [Attempt.outcome, bind, Except.bind]
      split <;> next hitems => rw [hitems]; rfl
    · next heq => rw [heq]; rfl
    · next heq => rw [heq]; rfl

theorem program_end {r : Reader} (h : r.skipBlanks.peek = none) : r.program = .ok [] := by
  rw [program]
  simp only [h]

theorem program_close {r : Reader} (h : r.skipBlanks.peek = some ')') :
    r.program = .error ((r.skipBlanks.enter .topLevel).fail .unexpectedClose) := by
  rw [program]
  simp only [h]

theorem program_node {r : Reader} {c : Char} (h : r.skipBlanks.peek = some c) (hclose : c ≠ ')') :
    r.program = (r.skipBlanks.enter .topLevel).node.outcome >>= fun (node, next) =>
      next.leave.program.map (node :: ·) := by
  rw [program]
  simp only
  split
  · next hpeek => simp [h] at hpeek
  · next hpeek => exact absurd (Option.some.inj (h.symm.trans hpeek)) hclose
  · split
    · next node next shorter heq =>
      rw [heq]
      simp only [Attempt.outcome, bind, Except.bind]
      split <;> next hprogram => rw [hprogram]; rfl
    · next heq => rw [heq]; rfl
    · next heq => rw [heq]; rfl

theorem items_result (scopes : List Scope) (p : Position) (text : List Char)
    (hlists : 0 < listsIn scopes) (hlimit : listsIn scopes ≤ nestingLimit) :
    ItemsResult scopes p text (Items.outcome (items ⟨⟨p, text⟩, scopes⟩)) := by
  -- Every list and every node takes something, so what is left to read gets shorter.
  induction hn : text.length using Nat.strongRecOn generalizing scopes p text with
  | ind n ih =>
  obtain ⟨blanks, rest, rfl, hblanks, hstop, hskip⟩ := skipBlanks_eq p text scopes
  have hscopes : ∀ q, scopesAt scopes q = scopes := by
    intro q
    rw [scopesAt, if_neg]
    rintro rfl
    simp [listsIn] at hlists
  have hdepth : listsIn scopes + Node.depthAll [] ≤ nestingLimit := by simpa [Node.depthAll]
  match rest with
  | [] =>
    rw [items_end (by rw [hskip]; rfl), hskip]
    have hhalts : ((⟨⟨p.advanceAll blanks, []⟩, scopes⟩ : Reader).fail .listTerminator).Halts
        (scopesAt scopes (p.advanceAll blanks)) (p.advanceAll blanks) [] [] :=
      ⟨by rw [hscopes]; rfl, by simp [fail]⟩
    refine .breaks rfl ?_
    simpa using Breaks.stall (.blanks p hblanks) hdepth rfl (.unclosed hlists) hhalts
  | c :: left =>
    by_cases hclose : c = ')'
    · subst hclose
      rw [items_close (by rw [hskip]; rfl), hskip]
      exact .read rfl (.blanks p hblanks) hdepth
    rw [items_node (by rw [hskip]; rfl) hclose, hskip]
    have hnode : NodeResult scopes (p.advanceAll blanks) (c :: left)
        (node ⟨⟨p.advanceAll blanks, c :: left⟩, scopes⟩).outcome := by
      refine node_result (by simpa using hstop) hclose hlimit fun hlimit' => ?_
      exact ih left.length (by simp at hn; omega) _ _ left (by simp) (by simp; omega) rfl
    cases hresult : (node ⟨⟨p.advanceAll blanks, c :: left⟩, scopes⟩).outcome with
    | error f =>
      rw [hresult, ← hscopes (p.advanceAll blanks)] at hnode
      obtain ⟨read, left, htext, hbreaks⟩ := hnode.breaks hblanks rfl (by rw [hscopes]) hlimit
      exact .breaks htext hbreaks
    | ok result =>
      rw [hresult] at hnode
      cases hnode with
      | @read word rest node hword hread hnodeDepth =>
        have hlength : rest.length < n := by
          have := hword ▸ hread.length_lt rest
          simp at hn this
          omega
        have hrest := ih rest.length hlength scopes ((p.advanceAll blanks).advanceAll word) rest
          hlists hlimit rfl
        rw [hword, ← List.append_assoc]
        rw [← Position.advanceAll_append] at hrest ⊢
        exact hrest.prepend (.skip hblanks hread) hnodeDepth

theorem program_result (p : Position) (text : List Char) :
    ProgramResult p text (program ⟨⟨p, text⟩, []⟩) := by
  induction hn : text.length using Nat.strongRecOn generalizing p text with
  | ind n ih =>
  obtain ⟨blanks, rest, rfl, hblanks, hstop, hskip⟩ := skipBlanks_eq p text []
  match rest with
  | [] =>
    rw [program_end (by rw [hskip]; rfl), List.append_nil]
    exact .read (.blanks p hblanks) (by simp [Node.depthAll])
  | c :: left =>
    by_cases hclose : c = ')'
    · subst hclose
      rw [program_close (by rw [hskip]; rfl), hskip]
      have hbreaks : Breaks ((enter ⟨⟨p.advanceAll blanks, ')' :: left⟩, []⟩ .topLevel).fail
          .unexpectedClose) (')' :: left) [] p (blanks ++ []) :=
        .stall (.blanks p hblanks) (by simp [Node.depthAll, listsIn]) rfl (.unopened rfl)
          ⟨rfl, by simp [fail]⟩
      exact .breaks rfl (by simpa using hbreaks)
    rw [program_node (by rw [hskip]; rfl) hclose, hskip]
    have hnode : NodeResult (scopesAt [] (p.advanceAll blanks)) (p.advanceAll blanks) (c :: left)
        (node (enter ⟨⟨p.advanceAll blanks, c :: left⟩, []⟩ .topLevel)).outcome :=
      node_result (by simpa using hstop) hclose (by simp [listsIn, scopesAt]) fun _ =>
        items_result _ _ left (by simp) (by simp [listsIn, scopesAt, nestingLimit])
    cases hresult : (node (enter ⟨⟨p.advanceAll blanks, c :: left⟩, []⟩ .topLevel)).outcome with
    | error f =>
      rw [hresult] at hnode
      obtain ⟨read, left, htext, hbreaks⟩ :=
        hnode.breaks hblanks rfl (by simp [listsIn, scopesAt]) (by simp [listsIn])
      exact .breaks htext hbreaks
    | ok result =>
      rw [hresult] at hnode
      cases hnode with
      | @read word rest node hword hread hdepth =>
        have hlength : rest.length < n := by
          have := hword ▸ hread.length_lt rest
          simp at hn this
          omega
        have hrest := ih rest.length hlength ((p.advanceAll blanks).advanceAll word) rest rfl
        rw [← Position.advanceAll_append] at hrest ⊢
        rw [hword, ← List.append_assoc]
        exact hrest.prepend (.skip hblanks hread) (by omega)

end Reader
end HandlerScript
