import HandlerScript.Proofs.Printing

/-!
# Printing and compiling

The text of a program is read as the nodes of that program, and these make up what it reads back as. So
the text compiles, unless its lists are nested too deep.
-/

namespace HandlerScript

/-! ## Atoms -/

theorem quotedText_escape (value : List Char) : QuotedText value (value.flatMap Expr.escape) := by
  induction value with
  | nil => exact .nil
  | cons c value ih =>
    rw [List.flatMap_cons, Expr.escape]
    split
    · next h =>
      subst h
      exact .escape .lineFeed ih
    split
    · next h =>
      subst h
      exact .escape .tab ih
    split
    · next h =>
      subst h
      exact .escape .quote ih
    split
    · next h =>
      subst h
      exact .escape .backslash ih
    · exact .plain ‹_› ‹_› ih

theorem symbolText_of_isAlpha {name : List Char} (hfirst : name.head?.any Char.isAlpha)
    (hall : name.all isSymbolPart) : SymbolText name := by
  cases name with
  | nil => simp at hfirst
  | cons first others =>
    have halpha : first.isAlpha := hfirst
    obtain ⟨-, hothers⟩ := List.forall_mem_cons.mp (List.all_eq_true.mp hall)
    refine .mk (by simp [isSymbolStart, halpha]) hothers fun hsign => ?_
    rcases (isSign_iff first).mp hsign with rfl | rfl <;> exact absurd halpha (by decide)

theorem Handler.symbolText_name (handler : Handler) : SymbolText handler.name.toList := by
  cases handler <;> exact symbolText_of_isAlpha (by decide) (by decide)

namespace Expr

variable {expr : Expr} {exprs : List Expr} {name : String}

/-- Where the text of the expression stands, it is read as its node. -/
def IsRead (expr : Expr) : Prop := ∀ p after, Delimited after →
  ∃ node, Reads Numeral.IsFinite after p expr.chars [node] ∧ node.mapSpans nowhere = expr.node

def AllRead (exprs : List Expr) : Prop := ∀ p after, Delimited after →
  ∃ nodes, Reads Numeral.IsFinite after p (spaced exprs) nodes ∧
    Node.mapAllSpans nowhere nodes = allNodes exprs

theorem isRead_get (span : Location) (h : SymbolText name.toList) : IsRead (.get span name) := by
  intro p after hafter
  exact ⟨_, .of_atom (.of_symbolText h) fun _ => hafter, rfl⟩

theorem isRead_string (span : Location) (value : String) : IsRead (.string span value) := by
  intro p after _
  refine ⟨_, .of_atom (.string (quotedText_escape value.toList)) False.elim, ?_⟩
  rw [String.ofList_toList]
  rfl

theorem isRead_number (span : Location) {value : Binary64} (h : value.isFinite) :
    IsRead (.number span value) := by
  intro p after hafter
  obtain ⟨n, htext, rfl⟩ := numberText_numeral h
  exact ⟨_, .of_atom (.number htext h) fun _ => hafter, rfl⟩

/-! ## Lists -/

theorem delimited_spaced {after : List Char} (h : Delimited after) (exprs : List Expr) :
    Delimited (spaced exprs ++ after) := by
  cases exprs with
  | nil => exact h
  | cons expr exprs => exact (delimited_cons _ _).mpr (by decide)

theorem allRead_nil : AllRead [] := fun _ _ _ => ⟨[], .nil, rfl⟩

theorem AllRead.cons (hexpr : expr.IsRead) (hexprs : AllRead exprs) : AllRead (expr :: exprs) := by
  intro p after hafter
  obtain ⟨node, hnode, hnode'⟩ := hexpr (p.advance ' ') _ (delimited_spaced hafter exprs)
  obtain ⟨nodes, hnodes, hnodes'⟩ := hexprs _ after hafter
  refine ⟨node :: nodes, .blank (by decide) (hnode.append hnodes id), ?_⟩
  rw [Node.mapAllSpans, hnode', hnodes', allNodes]

theorem AllRead.form (hexprs : AllRead exprs) (name : String) (hname : SymbolText name.toList)
    (p : Position) (after : List Char) : ∃ node,
      Reads Numeral.IsFinite after p ('(' :: (name.toList ++ (spaced exprs ++ [')']))) [node] ∧
      node.mapSpans nowhere = .list default (.symbol default name :: allNodes exprs) := by
  have hclose : Delimited [')'] := (delimited_cons _ _).mpr (by decide)
  obtain ⟨nodes, hnodes, hnodes'⟩ := hexprs ((p.advance '(').advanceAll name.toList) [')'] hclose
  have hinside := Reads.atom (.of_symbolText hname) (fun _ => delimited_spaced hclose exprs) hnodes
  have hlist : Reads Numeral.IsFinite after p
      ('(' :: ((name.toList ++ spaced exprs) ++ [')'])) _ := .list hinside rfl .nil
  rw [List.append_assoc] at hlist
  refine ⟨_, hlist, ?_⟩
  rw [Node.mapSpans, Node.mapAllSpans, hnodes']
  rfl

/-! ## Expressions -/

theorem chars_set (span : Location) (target : Name) (value : Expr) : (set span target value).chars =
    '(' :: ("set".toList ++ (spaced [.get default target.text, value] ++ [')'])) := by
  simp [chars, spaced]

theorem chars_cond (span : Location) (condition : Expr) (body : List Expr) :
    (cond span condition body).chars =
      '(' :: ("if".toList ++ (spaced (condition :: body) ++ [')'])) := by
  simp [chars, spaced]

theorem chars_key (span : Location) (code : KeyCode) : (key span code).chars =
    '(' :: ("key".toList ++ (spaced [.number default (keyNumber code)] ++ [')'])) := by
  have hbound := natAbs_keyCode code
  have hnumber := numberText_natCast (n := code.toInt.natAbs) (by omega) (code.toInt < 0)
  unfold chars keyText
  simp [spaced, chars, keyNumber, hnumber]

mutual

-- The forms are printed as calls of their names would be, so they are read like these.
theorem isRead : (expr : Expr) → expr.Printable → expr.IsRead
  | .set span target value, ⟨htarget, hvalue⟩ => by
    have hget := isRead_get default ((isSymbolName_iff _).mp htarget)
    have hoperands := AllRead.cons hget (.cons (isRead value hvalue) allRead_nil)
    intro p after _
    rw [chars_set]
    exact hoperands.form "set" (symbolText_of_isAlpha (by decide) (by decide)) p after
  | .get span name, hname => isRead_get span ((isSymbolName_iff _).mp hname)
  | .call span name arguments, ⟨hname, _, _, harguments⟩ => by
    intro p after _
    exact (allRead arguments harguments).form name.text ((isSymbolName_iff _).mp hname) p after
  | .cond span condition body, ⟨hcondition, hbody⟩ => by
    have hoperands := AllRead.cons (isRead condition hcondition) (allRead body hbody)
    intro p after _
    rw [chars_cond]
    exact hoperands.form "if" (symbolText_of_isAlpha (by decide) (by decide)) p after
  | .string span value, _ => isRead_string span value
  | .number span value, hvalue => isRead_number span hvalue
  | .key span code, _ => by
    have hbound := natAbs_keyCode code
    have hnumber := isRead_number default
      (Binary64.isFinite_ofDecimal_natCast (n := code.toInt.natAbs) (by omega) (code.toInt < 0))
    have hoperands := AllRead.cons hnumber allRead_nil
    intro p after _
    rw [chars_key]
    exact hoperands.form "key" (symbolText_of_isAlpha (by decide) (by decide)) p after

theorem allRead : (exprs : List Expr) → AllPrintable exprs → AllRead exprs
  | [], _ => allRead_nil
  | expr :: exprs, ⟨hexpr, hexprs⟩ => .cons (isRead expr hexpr) (allRead exprs hexprs)

end

/-! ## Printing again -/

mutual

theorem chars_readBack : (expr : Expr) → expr.readBack.chars = expr.chars
  | .set _ _ value => by rw [readBack, chars, chars, chars_readBack value]
  | .call _ _ arguments => by rw [readBack, chars, chars, spaced_allReadBack arguments]
  | .cond _ condition body => by
    rw [readBack, chars, chars, chars_readBack condition, spaced_allReadBack body]
  | .key span code => by
    rw [chars_key, readBack, chars]
    rfl
  | .get _ _ | .string _ _ | .number _ _ => rfl

theorem spaced_allReadBack : (exprs : List Expr) → spaced (allReadBack exprs) = spaced exprs
  | [] => rfl
  | expr :: exprs => by
    rw [allReadBack, spaced, spaced, chars_readBack expr, spaced_allReadBack exprs]

end

end Expr

namespace Program

/-! ## Programs -/

theorem Printable.declarations {p : Program} (hp : p.Printable) :
    ∀ declaration ∈ p.declarations, Expr.AllPrintable declaration.2 := by
  intro declaration hmem
  obtain ⟨handler, -, hslot⟩ := List.mem_filterMap.mp hmem
  obtain ⟨body, hbody, rfl⟩ := Option.map_eq_some_iff.mp hslot
  exact hp handler body hbody

theorem exists_reading_declaration (handler : Handler) {body : Body}
    (hbody : Expr.AllPrintable body) (p : Position) (after : List Char) : ∃ node,
      Reads Numeral.IsFinite after p (declarationChars handler body) [node] ∧
      node.mapSpans nowhere = declarationNode handler body :=
  (Expr.allRead body hbody).form handler.name handler.symbolText_name p after

theorem exists_reading_declarations (declarations : List (Handler × Body))
    (hprintable : ∀ declaration ∈ declarations, Expr.AllPrintable declaration.2) (p : Position) :
    ∃ nodes,
      Reads Numeral.IsFinite [] p (['\n'].intercalate
        (declarations.map fun (handler, body) => declarationChars handler body)) nodes ∧
      Node.mapAllSpans nowhere nodes =
        declarations.map fun (handler, body) => declarationNode handler body := by
  induction declarations generalizing p with
  | nil => exact ⟨[], .nil, rfl⟩
  | cons declaration declarations ih =>
    obtain ⟨handler, body⟩ := declaration
    obtain ⟨hbody, hothers⟩ := List.forall_mem_cons.mp hprintable
    obtain ⟨nodes, hnodes, hnodes'⟩ := ih hothers
      ((p.advanceAll (declarationChars handler body)).advance '\n')
    cases declarations with
    | nil =>
      obtain ⟨node, hnode, hnode'⟩ := exists_reading_declaration handler hbody p []
      refine ⟨[node], by simpa using hnode, ?_⟩
      rw [Node.mapAllSpans, hnode']
      rfl
    | cons next others =>
      obtain ⟨node, hnode, hnode'⟩ := exists_reading_declaration handler hbody p _
      refine ⟨node :: nodes, ?_, ?_⟩
      · rw [List.map_cons, List.map_cons, List.intercalate_cons_cons, List.append_assoc]
        exact hnode.append (.blank (by decide) hnodes) id
      · rw [Node.mapAllSpans, hnode', hnodes']
        rfl

/-- The text of a program is read as its nodes. -/
theorem exists_reading {p : Program} (hp : p.Printable) : ∃ nodes,
    Reads Numeral.IsFinite [] .start p.text.toList nodes ∧ Node.mapAllSpans nowhere nodes = p.nodes := by
  rw [text, String.toList_ofList]
  exact exists_reading_declarations p.declarations hp.declarations .start

/-! ## What the nodes are checked to be -/

theorem add_declarationNode {q : Program} {handler : Handler} {body : Body}
    (hbody : Expr.AllPrintable body) (hq : q.body? handler = none) :
    q.add (declarationNode handler body) =
      .ok (q.setBody handler (Expr.mapAllSpans nowhere (Expr.allReadBack body))) := by
  have hdeclaration : (declarationNode handler body).declaration? =
      some (handler, Expr.allNodes body) := by
    rw [declarationNode, Node.declaration?, Handler.ofName?_name]
    rfl
  rw [add, hdeclaration]
  simp only [Expr.checkAll_allNodes body hbody, declare, hq]
  rfl

theorem foldlM_add_declarationNode {q : Program} {declarations : List (Handler × Body)}
    (hprintable : ∀ declaration ∈ declarations, Expr.AllPrintable declaration.2)
    (hnodup : (declarations.map Prod.fst).Nodup)
    (hq : ∀ handler ∈ declarations.map Prod.fst, q.body? handler = none) :
    (declarations.map fun (handler, body) => declarationNode handler body).foldlM add q =
      .ok (declarations.foldl (fun q (handler, body) =>
        q.setBody handler (Expr.mapAllSpans nowhere (Expr.allReadBack body))) q) := by
  induction declarations generalizing q with
  | nil => rfl
  | cons declaration declarations ih =>
    obtain ⟨handler, body⟩ := declaration
    obtain ⟨hbody, hprintable⟩ := List.forall_mem_cons.mp hprintable
    obtain ⟨hhandler, hnodup⟩ := List.nodup_cons.mp hnodup
    obtain ⟨hslot, hothers⟩ := List.forall_mem_cons.mp hq
    rw [List.map_cons, List.foldlM_cons, add_declarationNode hbody hslot, List.foldl_cons]
    refine ih hprintable hnodup fun other hother => ?_
    rw [body?_setBody, if_neg (ne_of_mem_of_not_mem hother hhandler)]
    exact hothers other hother

theorem nodup_declarations (p : Program) : (p.declarations.map Prod.fst).Nodup := by
  obtain ⟨vars, init, update, draw⟩ := p
  cases init <;> cases update <;> cases draw <;> simp [declarations, Handler.all, body?]

theorem foldl_setBody_declarations (p : Program) :
    p.declarations.foldl (fun q (handler, body) =>
      q.setBody handler (Expr.mapAllSpans nowhere (Expr.allReadBack body))) {} =
      p.readBack.mapSpans nowhere := by
  obtain ⟨vars, init, update, draw⟩ := p
  cases init <;> cases update <;> cases draw <;> rfl

theorem ofNodes_nodes {p : Program} (hp : p.Printable) :
    ofNodes p.nodes = .ok (p.readBack.mapSpans nowhere) := by
  rw [ofNodes, nodes, ← foldl_setBody_declarations]
  refine foldlM_add_declarationNode hp.declarations p.nodup_declarations fun handler _ => ?_
  cases handler <;> rfl

theorem text_readBack (p : Program) : p.readBack.text = p.text := by
  refine text_eq_of_spaced fun handler => ?_
  have hbody : p.readBack.body? handler = (p.body? handler).map Expr.allReadBack := by
    cases handler <;> rfl
  rw [hbody, Option.map_map]
  congr 1
  funext body
  exact Expr.spaced_allReadBack body

/-! ## There and back -/

theorem ofNodes_eq_ok {p : Program} (hp : p.Printable) {nodes : List Node}
    (h : Node.mapAllSpans nowhere nodes = p.nodes) :
    ∃ q, ofNodes nodes = .ok q ∧ q.unlocated = p.readBack.unlocated := by
  have hnodes := ofNodes_nodes hp
  rw [← h, ofNodes_mapAllSpans] at hnodes
  cases hq : ofNodes nodes with
  | ok q =>
    rw [hq] at hnodes
    exact ⟨q, rfl, Except.ok.inj hnodes⟩
  | error r =>
    rw [hq] at hnodes
    cases hnodes

theorem depthAll_of_mapAllSpans {p : Program} {nodes : List Node}
    (h : Node.mapAllSpans nowhere nodes = p.nodes) : Node.depthAll nodes = p.nesting := by
  rw [← depthAll_nodes, ← h, Node.depthAll_mapAllSpans]

theorem compile_text_eq_ok {p : Program} (hp : p.Printable) (hdepth : p.nesting ≤ nestingLimit) :
    ∃ q, compile p.text = .ok q ∧ q.unlocated = p.readBack.unlocated := by
  obtain ⟨nodes, hread, hnodes⟩ := exists_reading hp
  obtain ⟨q, hq, hback⟩ := ofNodes_eq_ok hp hnodes
  have hparse : parse p.text = .ok nodes :=
    (parse_eq_ok_iff _ _).mpr ⟨hread, (depthAll_of_mapAllSpans hnodes).trans_le hdepth⟩
  refine ⟨q, ?_, hback⟩
  rw [compile_of_parse_ok hparse, hq]
  rfl

theorem compile_text_eq_error {p : Program} (hp : p.Printable) (hdepth : nestingLimit < p.nesting) :
    ∃ span, compile p.text = .error ⟨.nonrecoverable, span, Fault.nestingTooDeep.message⟩ := by
  obtain ⟨nodes, hread, hnodes⟩ := exists_reading hp
  rcases parse_cases p.text with ⟨nodes', -, hread', hdepth'⟩ |
    ⟨f, read, left, hparse, -, htext, hbreaks⟩
  · rw [hread'.unique hread, depthAll_of_mapAllSpans hnodes] at hdepth'
    omega
  · -- The text has a reading, so no other fault can have stopped the reader.
    rw [htext] at hread
    obtain ⟨hfault, -⟩ := hbreaks.nestingTooDeep hread
    refine ⟨f.location, ?_⟩
    rw [compile_of_parse_error hparse, Failure.diagnostic, hfault]
    rfl

theorem nesting_le_of_compile {p q : Program} (hp : p.Printable) (h : compile p.text = .ok q) :
    p.nesting ≤ nestingLimit := by
  apply Nat.le_of_not_lt
  intro hdepth
  obtain ⟨span, herror⟩ := compile_text_eq_error hp hdepth
  cases h.symm.trans herror

theorem unlocated_of_compile {p q : Program} (hp : p.Printable) (h : compile p.text = .ok q) :
    q.unlocated = p.readBack.unlocated := by
  obtain ⟨q', hq', hback⟩ := compile_text_eq_ok hp (nesting_le_of_compile hp h)
  obtain rfl : q = q' := Except.ok.inj (h.symm.trans hq')
  exact hback

theorem text_of_unlocated {p q : Program} (h : q.unlocated = p.readBack.unlocated) :
    q.text = p.text :=
  calc q.text = q.unlocated.text := (text_mapSpans nowhere q).symm
    _ = p.readBack.unlocated.text := by rw [h]
    _ = p.readBack.text := text_mapSpans nowhere p.readBack
    _ = p.text := text_readBack p

end Program

/-- A program that can be printed is compiled from its text to what it reads back as, which is printed
the same, unless the lists of the text are nested too deep. Every compiled program can be printed. -/
theorem compile_print :
    (∀ p : Program, p.Printable →
      ((∃ q, compile p.text = .ok q) ↔ p.nesting ≤ 128) ∧
      (∀ q, compile p.text = .ok q → q.unlocated = p.readBack.unlocated ∧ q.text = p.text) ∧
      (128 < p.nesting → ∃ span, compile p.text =
        .error ⟨.nonrecoverable, span, "lists nested more than 128 deep"⟩)) ∧
    ∀ source q, compile source = .ok q → q.Printable := by
  constructor
  · intro p hp
    refine ⟨⟨?_, ?_⟩, ?_, ?_⟩
    · rintro ⟨q, hq⟩
      exact Program.nesting_le_of_compile hp hq
    · intro hdepth
      obtain ⟨q, hq, -⟩ := Program.compile_text_eq_ok hp hdepth
      exact ⟨q, hq⟩
    · intro q hq
      have hback := Program.unlocated_of_compile hp hq
      exact ⟨hback, Program.text_of_unlocated hback⟩
    · intro hdepth
      have hmessage : Fault.nestingTooDeep.message = "lists nested more than 128 deep" := by decide
      rw [← hmessage]
      exact Program.compile_text_eq_error hp hdepth
  · intro source q hq
    exact printable_of_compile hq

/-- A key comes back as the call that it is printed as. -/
theorem compile_print_key : ∃ q,
    compile (Program.text { draw := some [.call default ⟨default, "pressed?"⟩ [.key default 97]] }) =
      .ok q ∧
    q.unlocated = { draw := some [.call default ⟨default, "pressed?"⟩
      [.call default ⟨default, "key"⟩ [.number default (keyNumber 97)]]] } := by
  have hname : IsSymbolName "pressed?" :=
    (isSymbolName_iff _).mpr (symbolText_of_isAlpha (by decide) (by decide))
  obtain ⟨hiff, hback, -⟩ := compile_print.1
    { draw := some [.call default ⟨default, "pressed?"⟩ [.key default 97]] } (by
      rintro (_ | _ | _) body hbody <;> cases hbody
      exact ⟨⟨hname, by decide, by decide, trivial, trivial⟩, trivial⟩)
  obtain ⟨q, hq⟩ := hiff.mpr (by decide)
  exact ⟨q, hq, (hback q hq).1⟩

end HandlerScript
