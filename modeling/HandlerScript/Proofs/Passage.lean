import HandlerScript.Proofs.Compiling

/-!
# Passing over what can be read

Where the grammar reads nodes, the reader takes just these and goes on after them, and where there
is a stall it fails. So the way to a stall says how reading fails.
-/

namespace HandlerScript

/-! ## One attempt -/

namespace Reader

variable (p : Position) (text : List Char) (scopes : List Scope)

theorem list_outcome (hlimit : listsIn scopes < nestingLimit) :
    (list ⟨⟨p, '(' :: text⟩, scopes⟩).outcome =
      (Items.outcome (items ⟨⟨p.advance '(', text⟩, ⟨.list, p⟩ :: scopes⟩)).map
        fun (children, after) => (.list ⟨p, after.position⟩ children, after.leave) := by
  rw [list, dif_pos (by rfl)]
  split
  · simp only
    split <;> next heq =>
      have heq : items ⟨⟨p.advance '(', text⟩, ⟨.list, p⟩ :: scopes⟩ = _ := heq
      rw [heq]
      rfl
  · next hdeep => exact absurd hlimit hdeep

theorem string_outcome :
    (string ⟨⟨p, '"' :: text⟩, scopes⟩).outcome = match Quoted.read (p.advance '"') text with
      | .closed value after =>
        .ok (.string ⟨p, after.position⟩ (String.ofList value), ⟨after, scopes⟩)
      | .unterminated halted => .error (fail ⟨halted, ⟨.string, p⟩ :: scopes⟩ .unterminatedString)
      | .badEscape escaped backslash halted =>
        .error ⟨.invalidEscape escaped, backslash, ⟨halted, ⟨.string, p⟩ :: scopes⟩⟩ := by
  rw [string, dif_pos (by rfl)]
  simp only
  split <;> next heq =>
    have heq : Quoted.read (p.advance '"') text = _ := heq
    rw [heq]
    rfl

theorem keyName_outcome {name left : List Char} (hname : ∀ c ∈ name, c.isAlphanum)
    (hleft : Stops Char.isAlphanum left) :
    (keyName ⟨⟨p, '@' :: (name ++ left)⟩, scopes⟩).outcome =
      if name = [] then
        .error ⟨.keyName, ⟨p, '@' :: left⟩, ⟨⟨p.advance '@', left⟩, ⟨.keyName, p⟩ :: scopes⟩⟩
      else if (⟨p.advanceAll ('@' :: name), left⟩ : Cursor).atDelimiter then
        .ok (.key ⟨p, p.advanceAll ('@' :: name)⟩ (String.ofList name),
          ⟨⟨p.advanceAll ('@' :: name), left⟩, scopes⟩)
      else
        .error (fail ⟨⟨p.advanceAll ('@' :: name), left⟩, ⟨.keyName, p⟩ :: scopes⟩
          .malformedKeyName) := by
  have htake : (⟨p.advance '@', name ++ left⟩ : Cursor).takeWhile Char.isAlphanum = name :=
    takeWhile_run hname hleft
  have hskip : (⟨p.advance '@', name ++ left⟩ : Cursor).skipWhile Char.isAlphanum =
      ⟨p.advanceAll ('@' :: name), left⟩ := skipWhile_run hname hleft
  rw [keyName, dif_pos (by rfl)]
  simp only [enter, next, moveTo, Cursor.next, htake, hskip]
  split
  · next hnil => subst hnil; rfl
  · split <;> rfl

theorem number_outcome {n : Numeral} {word left : List Char} (h : NumeralRun n word left) :
    (number ⟨⟨p, word ++ left⟩, scopes⟩).outcome =
      if (⟨p.advanceAll word, left⟩ : Cursor).atDelimiter ∧ n.value.isFinite then
        .ok (.number ⟨p, p.advanceAll word⟩ n.value, ⟨⟨p.advanceAll word, left⟩, scopes⟩)
      else
        .error ⟨.malformedNumber, ⟨p, word ++ left⟩, ⟨⟨p.advanceAll word, left⟩, scopes⟩⟩ := by
  have hread : (⟨p, word ++ left⟩ : Cursor).numeral = .ok (n, ⟨p.advanceAll word, left⟩) :=
    Cursor.numeral_run h p
  rw [number, if_pos (h.numeralText.startsNumeral p left)]
  split
  · next heq => simp [hread] at heq
  · next heq =>
    simp only [hread, Except.ok.injEq, Prod.mk.injEq] at heq
    obtain ⟨rfl, rfl⟩ := heq
    split <;> rfl

theorem number_outcome_of_break {taken left : List Char} (h : NumeralBreak taken left) :
    (number ⟨⟨p, taken ++ left⟩, scopes⟩).outcome =
      .error ⟨.malformedNumber, ⟨p, taken ++ left⟩, ⟨⟨p.advanceAll taken, left⟩, scopes⟩⟩ := by
  have hread : (⟨p, taken ++ left⟩ : Cursor).numeral = .error ⟨p.advanceAll taken, left⟩ :=
    Cursor.numeral_break h p
  rw [number, if_pos (h.startsNumeral p)]
  split
  · next heq =>
    simp only [hread, Except.error.injEq] at heq
    subst heq
    rfl
  · next heq => simp [hread] at heq

theorem symbol_outcome {name left : List Char} (hname : SymbolText name)
    (hleft : Stops isSymbolPart left) :
    (symbol ⟨⟨p, name ++ left⟩, scopes⟩).outcome =
      if (⟨p.advanceAll name, left⟩ : Cursor).atDelimiter then
        .ok (.symbol ⟨p, p.advanceAll name⟩ (String.ofList name),
          ⟨⟨p.advanceAll name, left⟩, scopes⟩)
      else
        .error ⟨.malformedSymbol, ⟨p, name ++ left⟩, ⟨⟨p.advanceAll name, left⟩, scopes⟩⟩ := by
  have htake : (⟨p, name ++ left⟩ : Cursor).takeWhile isSymbolPart = name :=
    takeWhile_run hname.isSymbolPart hleft
  have hskip : (⟨p, name ++ left⟩ : Cursor).skipWhile isSymbolPart = ⟨p.advanceAll name, left⟩ :=
    skipWhile_run hname.isSymbolPart hleft
  have hstart : (peek ⟨⟨p, name ++ left⟩, scopes⟩).any isSymbolStart := by
    obtain ⟨hfirst, -, -⟩ := hname
    exact hfirst
  simp only [symbol, htake, hskip, moveTo]
  rw [dif_pos hstart]
  split <;> rfl

end Reader

/-! ## One node -/

section

variable {p : Position} {scopes : List Scope} {word taken left : List Char} {node : Node}
  {fault : Fault}

variable (scopes) in
theorem AtomText.node_outcome (h : AtomText Numeral.IsFinite ⟨p, p.advanceAll word⟩ word node)
    (hend : node.IsBare → Delimited left) :
    (Reader.node ⟨⟨p, word ++ left⟩, scopes⟩).outcome =
      .ok (node, ⟨⟨p.advanceAll word, left⟩, scopes⟩) := by
  have hopening := h.opening hend
  rw [Reader.node_eq]
  simp only [hopening]
  cases h with
  | string hvalue =>
    rw [List.cons_append, List.append_assoc, List.singleton_append]
    simp only [Node.opening, Reader.string_outcome, hvalue.read, ← Position.advanceAll_between]
  | key hname =>
    simp only [Node.opening, List.cons_append]
    rw [Reader.keyName_outcome _ _ hname.2 ((hend trivial).stops inner_isAlphanum), if_neg hname.1,
      if_pos ((atDelimiter_iff _ _).mpr (hend trivial))]
  | number hn hfinite =>
    simp only [Node.opening]
    rw [Reader.number_outcome _ _ (hn.run (hend trivial)),
      if_pos ⟨(atDelimiter_iff _ _).mpr (hend trivial), hfinite⟩]
  | symbol hname =>
    simp only [Node.opening]
    rw [Reader.symbol_outcome _ _ hname ((hend trivial).stops inner_isSymbolPart),
      if_pos ((atDelimiter_iff _ _).mpr (hend trivial))]

variable (p) in
theorem Stall.node_outcome (h : Stall (listsIn scopes) taken left fault)
    (hne : taken ++ left ≠ []) (hclose : (taken ++ left).head? ≠ some ')') :
    ∃ origin, (Reader.node ⟨⟨p, taken ++ left⟩, scopes⟩).outcome =
      .error ⟨fault, origin, ⟨⟨p.advanceAll taken, left⟩, fault.scope p ++ scopes⟩⟩ := by
  rw [Reader.node_eq]
  cases h with
  | unclosed => exact absurd rfl hne
  | unopened => exact absurd rfl hclose
  | @tooDeep left hdeep =>
    refine ⟨⟨p, '(' :: left⟩, ?_⟩
    change (Reader.list ⟨⟨p, '(' :: left⟩, scopes⟩).outcome = _
    rw [Reader.list, dif_pos (by rfl)]
    split
    · next hlimit => exact absurd hlimit (Nat.not_lt_of_le hdeep)
    · rfl
  | noNode hnothing =>
    simp only [List.nil_append, hnothing.opening]
    exact ⟨_, rfl⟩
  | @unterminated value inside hinside =>
    have houtcome := Reader.string_outcome p inside scopes
    rw [hinside.read_unterminated] at houtcome
    exact ⟨_, by rw [List.append_nil]; exact houtcome⟩
  | @unescaped value inside hinside =>
    have houtcome := Reader.string_outcome p (inside ++ ['\\']) scopes
    rw [hinside.read_unescaped] at houtcome
    exact ⟨_, by rw [List.append_nil]; exact houtcome⟩
  | @badEscape escaped value inside left hinside hescape =>
    have houtcome := Reader.string_outcome p (inside ++ '\\' :: escaped :: left) scopes
    rw [hinside.read_badEscape hescape] at houtcome
    have htext : '"' :: (inside ++ ['\\']) ++ escaped :: left =
        '"' :: (inside ++ '\\' :: escaped :: left) := by simp
    rw [htext, Position.advanceAll_between]
    exact ⟨_, houtcome⟩
  | @unnamed left hstops =>
    have hempty : ∀ c ∈ ([] : List Char), c.isAlphanum := by simp
    exact ⟨_, Reader.keyName_outcome p scopes hempty hstops⟩
  | gluedKey hname hstops hglued =>
    have houtcome := Reader.keyName_outcome p scopes hname.2 hstops
    rw [if_neg hname.1, if_neg (mt (atDelimiter_iff _ _).mp hglued)] at houtcome
    exact ⟨_, houtcome⟩
  | brokenNumeral hbreak =>
    simp only [hbreak.opening]
    exact ⟨_, Reader.number_outcome_of_break p scopes hbreak⟩
  | gluedNumeral hrun hglued =>
    have houtcome := Reader.number_outcome p scopes hrun
    rw [if_neg fun hend => hglued ((atDelimiter_iff _ _).mp hend.1)] at houtcome
    simp only [hrun.numeralText.opening]
    exact ⟨_, houtcome⟩
  | outOfRange hn hleft hinf =>
    have houtcome := Reader.number_outcome p scopes (hn.run hleft)
    rw [if_neg (by simp [hinf])] at houtcome
    simp only [hn.opening]
    exact ⟨_, houtcome⟩
  | gluedSymbol hname hstops hglued =>
    have houtcome := Reader.symbol_outcome p scopes hname hstops
    rw [if_neg (mt (atDelimiter_iff _ _).mp hglued)] at houtcome
    have hdigit : Stops Char.isDigit left :=
      hstops.mono fun c hc => isAlphanum_isSymbolPart (isDigit_isAlphanum hc)
    simp only [hname.opening hdigit]
    exact ⟨_, houtcome⟩

end

/-! ## From one node to the next -/

namespace Reader

variable {p : Position} {scopes : List Scope} {text : List Char} {c : Char}

theorem skipBlanks_blank (hc : isBlank c) :
    skipBlanks ⟨⟨p, c :: text⟩, scopes⟩ = skipBlanks ⟨⟨p.advance c, text⟩, scopes⟩ := by
  simp [skipBlanks, moveTo, Cursor.skipWhile, List.takeWhile_cons_of_pos hc,
    List.dropWhile_cons_of_pos hc]

variable (p scopes text) in
theorem skipBlanks_stop (hc : isBlank c = false) :
    skipBlanks ⟨⟨p, c :: text⟩, scopes⟩ = ⟨⟨p, c :: text⟩, scopes⟩ := by
  simp [skipBlanks, moveTo, Cursor.skipWhile, hc]

theorem items_outcome_congr {r r' : Reader} (h : r.skipBlanks = r'.skipBlanks) :
    Items.outcome r.items = Items.outcome r'.items := by
  cases hpeek : r.skipBlanks.peek with
  | none => rw [items_end hpeek, items_end (h ▸ hpeek), h]
  | some c =>
    by_cases hclose : c = ')'
    · subst hclose
      rw [items_close hpeek, items_close (h ▸ hpeek), h]
    · rw [items_node hpeek hclose, items_node (h ▸ hpeek) hclose, h]

theorem program_congr {r r' : Reader} (h : r.skipBlanks = r'.skipBlanks) :
    r.program = r'.program := by
  cases hpeek : r.skipBlanks.peek with
  | none => rw [program_end hpeek, program_end (h ▸ hpeek)]
  | some c =>
    by_cases hclose : c = ')'
    · subst hclose
      rw [program_close hpeek, program_close (h ▸ hpeek), h]
    · rw [program_node hpeek hclose, program_node (h ▸ hpeek) hclose, h]

theorem items_at_node (hblank : isBlank c = false) (hclose : c ≠ ')') :
    Items.outcome (items ⟨⟨p, c :: text⟩, scopes⟩) =
      (node ⟨⟨p, c :: text⟩, scopes⟩).outcome >>= fun (node, next) =>
        (Items.outcome next.items).map fun (nodes, after) => (node :: nodes, after) := by
  have hskip := skipBlanks_stop p scopes text hblank
  rw [items_node (by rw [hskip]; rfl) hclose, hskip]

theorem items_at_close :
    Items.outcome (items ⟨⟨p, ')' :: text⟩, scopes⟩) =
      .ok ([], ⟨⟨p.advance ')', text⟩, scopes⟩) := by
  have hskip := @skipBlanks_stop p scopes text ')' (by decide)
  rw [items_close (by rw [hskip]; rfl), hskip]
  rfl

theorem program_at_node (hblank : isBlank c = false) (hclose : c ≠ ')') :
    program ⟨⟨p, c :: text⟩, []⟩ =
      (node ⟨⟨p, c :: text⟩, [⟨.topLevel, p⟩]⟩).outcome >>= fun (node, next) =>
        next.leave.program.map (node :: ·) := by
  have hskip := skipBlanks_stop p [] text hblank
  rw [program_node (by rw [hskip]; rfl) hclose, hskip]
  rfl

variable (p text) in
theorem node_list_outcome (hlimit : listsIn scopes < nestingLimit) :
    (node ⟨⟨p, '(' :: text⟩, scopes⟩).outcome =
      (Items.outcome (items ⟨⟨p.advance '(', text⟩, ⟨.list, p⟩ :: scopes⟩)).map
        fun (children, after) => (.list ⟨p, after.position⟩ children, after.leave) := by
  rw [node_eq, ← list_outcome p text scopes hlimit]
  rfl

end Reader

section

variable {after inside rest text word : List Char} {p stop : Position} {scopes : List Scope}
  {node : Node} {nodes children : List Node}

theorem AtomText.exists_head {span : Location} (h : AtomText Numeral.IsFinite span word node)
    (rest : List Char) : ∃ c more, word ++ rest = c :: more ∧ isBlank c = false ∧ c ≠ ')' := by
  obtain ⟨c, more, hword, -⟩ := h.head
  have hmore : word ++ rest = c :: (more ++ rest) := by rw [hword, List.cons_append]
  obtain ⟨hblank, -, hclose⟩ := h.head_ne hmore
  exact ⟨c, _, hmore, hblank, hclose⟩

theorem Reader.node_closed_list (hlimit : listsIn scopes < nestingLimit)
    (hstop : stop = ((p.advance '(').advanceAll inside).advance ')')
    (hinside : Items.outcome (items ⟨⟨p.advance '(', inside ++ ')' :: rest⟩, ⟨.list, p⟩ :: scopes⟩) =
      (Items.outcome (items ⟨⟨(p.advance '(').advanceAll inside, ')' :: rest⟩,
        ⟨.list, p⟩ :: scopes⟩)).map fun (others, last) => (children ++ others, last)) :
    (Reader.node ⟨⟨p, '(' :: (inside ++ ')' :: rest)⟩, scopes⟩).outcome =
      .ok (.list ⟨p, stop⟩ children, ⟨⟨stop, rest⟩, scopes⟩) := by
  rw [items_at_close] at hinside
  rw [node_list_outcome _ _ hlimit, hinside, hstop]
  simp only [Except.map, List.append_nil]
  rfl

theorem Position.advanceAll_list (hstop : stop = ((p.advance '(').advanceAll inside).advance ')') :
    p.advanceAll ('(' :: (inside ++ ')' :: text)) = stop.advanceAll text := by
  rw [hstop, advanceAll_cons, advanceAll_append, advanceAll_cons]

theorem Reads.items_outcome (h : Reads Numeral.IsFinite after p text nodes)
    (hafter : Delimited after → Delimited rest)
    (hdepth : listsIn scopes + Node.depthAll nodes ≤ nestingLimit) :
    Items.outcome (Reader.items ⟨⟨p, text ++ rest⟩, scopes⟩) =
      (Items.outcome (Reader.items ⟨⟨p.advanceAll text, rest⟩, scopes⟩)).map
        fun (others, last) => (nodes ++ others, last) := by
  induction h generalizing rest scopes with
  | @nil _ p =>
    rw [List.nil_append, Position.advanceAll_nil]
    cases Items.outcome (Reader.items ⟨⟨p, rest⟩, scopes⟩) <;> rfl
  | blank hc _ ih =>
    rw [List.cons_append, Reader.items_outcome_congr (Reader.skipBlanks_blank hc)]
    exact ih hafter hdepth
  | @atom _ word text p node nodes hatom hend _ ih =>
    have hnode := hatom.node_outcome scopes
      (fun hbare => delimited_append_of hafter (hend hbare))
    obtain ⟨c, more, hmore, hblank, hclose⟩ := hatom.exists_head (text ++ rest)
    rw [Node.depthAll] at hdepth
    rw [hmore] at hnode
    rw [List.append_assoc, hmore, Reader.items_at_node hblank hclose, hnode]
    simp only [bind, Except.bind]
    rw [ih hafter (by omega), Position.advanceAll_append]
    cases Items.outcome (Reader.items ⟨⟨_, rest⟩, scopes⟩) <;> rfl
  | @list _ inside text p stop children nodes _ hstop _ ihinside ih =>
    rw [Node.depthAll, Node.depth] at hdepth
    have hinside := @ihinside (')' :: (text ++ rest)) (⟨.list, p⟩ :: scopes)
      (fun _ => by simp [isDelimiter]) (by rw [listsIn_list]; omega)
    rw [List.cons_append, List.append_assoc, List.cons_append,
      Reader.items_at_node (by decide) (by decide),
      Reader.node_closed_list (by omega) hstop hinside]
    simp only [bind, Except.bind]
    rw [ih hafter (by omega), Position.advanceAll_list hstop]
    cases Items.outcome (Reader.items ⟨⟨_, rest⟩, scopes⟩) <;> rfl

theorem listsIn_topLevel (p : Position) : listsIn [⟨.topLevel, p⟩] = 0 := rfl

theorem Reads.program_outcome (h : Reads Numeral.IsFinite after p text nodes)
    (hafter : Delimited after → Delimited rest) (hdepth : Node.depthAll nodes ≤ nestingLimit) :
    Reader.program ⟨⟨p, text ++ rest⟩, []⟩ =
      (Reader.program ⟨⟨p.advanceAll text, rest⟩, []⟩).map (nodes ++ ·) := by
  induction h generalizing rest with
  | @nil _ p =>
    rw [List.nil_append, Position.advanceAll_nil]
    cases Reader.program ⟨⟨p, rest⟩, []⟩ <;> rfl
  | blank hc _ ih =>
    rw [List.cons_append, Reader.program_congr (Reader.skipBlanks_blank hc)]
    exact ih hafter hdepth
  | @atom _ word text p node nodes hatom hend _ ih =>
    have hnode := hatom.node_outcome [⟨.topLevel, p⟩]
      (fun hbare => delimited_append_of hafter (hend hbare))
    obtain ⟨c, more, hmore, hblank, hclose⟩ := hatom.exists_head (text ++ rest)
    rw [Node.depthAll] at hdepth
    rw [hmore] at hnode
    rw [List.append_assoc, hmore, Reader.program_at_node hblank hclose, hnode]
    simp only [bind, Except.bind]
    change (Reader.program ⟨⟨p.advanceAll word, text ++ rest⟩, []⟩).map _ = _
    rw [ih hafter (by omega), Position.advanceAll_append]
    cases Reader.program ⟨⟨_, rest⟩, []⟩ <;> rfl
  | @list _ inside text p stop children nodes hinside hstop _ _ ih =>
    rw [Node.depthAll, Node.depth] at hdepth
    have hlimit : listsIn [⟨.topLevel, p⟩] < nestingLimit := by rw [listsIn_topLevel]; decide
    have hread := @Reads.items_outcome _ (')' :: (text ++ rest)) _ _
      [⟨.list, p⟩, ⟨.topLevel, p⟩] _ hinside (fun _ => by simp [isDelimiter])
      (by rw [listsIn_list, listsIn_topLevel]; omega)
    rw [List.cons_append, List.append_assoc, List.cons_append,
      Reader.program_at_node (by decide) (by decide), Reader.node_closed_list hlimit hstop hread]
    simp only [bind, Except.bind]
    change (Reader.program ⟨⟨stop, text ++ rest⟩, []⟩).map _ = _
    rw [ih hafter (by omega), Position.advanceAll_list hstop]
    cases Reader.program ⟨⟨_, rest⟩, []⟩ <;> rfl

end

/-! ## To the stall -/

section

variable {f : Failure} {fault : Fault} {read taken left : List Char} {scopes : List Scope}
  {p : Position}

theorem exists_head_of_opening {text : List Char} (hlist : opening text ≠ .list)
    (hother : opening text ≠ .other) :
    ∃ c more, text = c :: more ∧ isBlank c = false ∧ c ≠ ')' := by
  cases text with
  | nil => exact absurd rfl hother
  | cons c more =>
    obtain ⟨hblank, -, hclose⟩ := opening_head hlist hother
    exact ⟨c, more, rfl, hblank, hclose⟩

theorem Stall.place {lists : Nat} (h : Stall lists taken left fault) :
    (taken ++ left = [] ∧ fault = .listTerminator ∧ 0 < lists) ∨
      (∃ more, taken = [] ∧ left = ')' :: more ∧ fault = .unexpectedClose ∧ lists = 0) ∨
      ∃ c more, taken ++ left = c :: more ∧ isBlank c = false ∧ c ≠ ')' := by
  by_cases htaken : taken = []
  · subst htaken
    cases h with
    | unclosed hlists => exact .inl ⟨rfl, rfl, hlists⟩
    | unopened hlists => exact .inr (.inl ⟨_, rfl, rfl, rfl, hlists⟩)
    | tooDeep => exact .inr (.inr ⟨_, _, rfl, by decide, by decide⟩)
    | noNode hnothing =>
      obtain ⟨-, -, hblank, hmark⟩ := hnothing
      simp only [List.mem_cons, List.not_mem_nil, or_false, not_or] at hmark
      exact .inr (.inr ⟨_, _, rfl, hblank, hmark.2.1⟩)
    | brokenNumeral hbreak => exact absurd (hbreak.opening []) (by decide)
    | gluedNumeral hrun => exact absurd (hrun.numeralText.opening []) (by decide)
    | outOfRange hn => exact absurd (hn.opening []) (by decide)
    | gluedSymbol hname => exact absurd (hname.opening (stops_nil _)) (by decide)
  · obtain ⟨hlist, hother⟩ := h.opening (.refl fault left) htaken
    exact .inr (.inr (exists_head_of_opening hlist hother))

theorem scopesAt_of_listsIn (hlists : 0 < listsIn scopes) (p : Position) :
    scopesAt scopes p = scopes := by
  rw [scopesAt, if_neg]
  rintro rfl
  exact absurd hlists (Nat.lt_irrefl 0)

theorem Breaks.items_fail (h : Breaks f left scopes p read) (hlists : 0 < listsIn scopes) :
    ∃ origin, Items.outcome (Reader.items ⟨⟨p, read ++ left⟩, scopes⟩) =
      .error ⟨f.fault, origin, f.reader⟩ := by
  induction h with
  | @stall scopes p q done taken nodes hdone hdepth hq hstall hhalts =>
    have hreader := hhalts.reader
    rw [scopesAt_of_listsIn hlists] at hreader
    rw [List.append_assoc, hdone.items_outcome id hdepth, ← hq]
    rcases hstall.place with ⟨hnil, hfault, -⟩ | ⟨-, -, -, -, hzero⟩ | ⟨c, more, hmore, hblank, hclose⟩
    · obtain ⟨rfl, rfl⟩ := List.append_eq_nil_iff.mp hnil
      rw [Reader.items_end rfl, hreader, hfault]
      exact ⟨_, rfl⟩
    · omega
    · obtain ⟨origin, hnode⟩ := hstall.node_outcome q
        (by simp [hmore]) (by simpa [hmore] using hclose)
      rw [hmore] at hnode
      rw [hmore, Reader.items_at_node hblank hclose, hnode, hreader]
      exact ⟨origin, rfl⟩
  | @list scopes p q done read nodes hdone hdepth hq hlimit hbreaks ih =>
    rw [scopesAt_of_listsIn hlists] at ih
    obtain ⟨origin, hinside⟩ := ih (by rw [listsIn_list]; omega)
    rw [List.append_assoc, List.cons_append, hdone.items_outcome id hdepth, ← hq,
      Reader.items_at_node (by decide) (by decide), Reader.node_list_outcome _ _ hlimit, hinside]
    exact ⟨origin, rfl⟩

theorem Breaks.program_fails (h : Breaks f left [] p read) :
    ∃ origin, Reader.program ⟨⟨p, read ++ left⟩, []⟩ = .error ⟨f.fault, origin, f.reader⟩ := by
  cases h with
  | @stall _ _ q done taken nodes hdone hdepth hq hstall hhalts =>
    have hreader := hhalts.reader
    rw [List.append_assoc, hdone.program_outcome id (by simpa [listsIn] using hdepth), ← hq]
    rcases hstall.place with ⟨-, -, hlists⟩ | ⟨more, rfl, rfl, hfault, -⟩ |
      ⟨c, more, hmore, hblank, hclose⟩
    · exact absurd hlists (Nat.lt_irrefl 0)
    · rw [Reader.program_close rfl, hreader, hfault]
      exact ⟨_, rfl⟩
    · obtain ⟨origin, hnode⟩ := @Stall.node_outcome q [⟨.topLevel, q⟩] _ _ _ hstall
        (by simp [hmore]) (by simpa [hmore] using hclose)
      rw [hmore] at hnode
      rw [hmore, Reader.program_at_node hblank hclose, hnode, hreader]
      exact ⟨origin, rfl⟩
  | @list _ _ q done read nodes hdone hdepth hq hlimit hbreaks =>
    obtain ⟨origin, hinside⟩ := hbreaks.items_fail (by rw [listsIn_list]; omega)
    have hlimit : listsIn (scopesAt [] q) < nestingLimit := by rwa [listsIn_scopesAt]
    have hnode := Reader.node_list_outcome q (read ++ left) hlimit
    rw [hinside] at hnode
    rw [List.append_assoc, List.cons_append,
      hdone.program_outcome id (by simpa [listsIn] using hdepth), ← hq,
      Reader.program_at_node (by decide) (by decide)]
    change ∃ origin, ((Reader.node ⟨⟨q, '(' :: (read ++ left)⟩, scopesAt [] q⟩).outcome >>= _).map _ = _
    rw [hnode]
    exact ⟨origin, rfl⟩

/-- What is reported does not depend on where an attempt found the fault, only on where reading was
given up. -/
theorem Breaks.parse_eq {source : String} (h : Breaks f left [] .start read)
    (htext : source.toList = read ++ left) : parse source = .error f.diagnostic := by
  obtain ⟨origin, hprogram⟩ := h.program_fails
  rw [← htext] at hprogram
  have hparse := parse_of_program_error hprogram
  exact hparse

end
end HandlerScript
