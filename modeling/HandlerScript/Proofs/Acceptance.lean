import HandlerScript.Proofs.Outcome

/-!
# What is accepted

A script is accepted when the grammar has a reading of it. One direction is what reading comes to.
For the other, where reading gives up there is nothing that the grammar allows either.
-/

namespace HandlerScript

variable {admits : Numeral → Prop}

/-! ## Texts that mend no stall -/

/-- After a stall with this fault and `left` to come, `text` in its place is of no help: it starts
with the same character, or brings closing parentheses only where none is missing. -/
inductive Futile (fault : Fault) : List Char → List Char → Prop where
  | same {c : Char} {left text : List Char} : Futile fault (c :: left) (c :: text)
  | nothing : Futile fault [] []
  | closing {k : Nat} : fault ≠ .listTerminator →
      Futile fault [] (List.replicate (k + 1) ')')

variable {fault : Fault} {left text : List Char}

theorem Futile.refl (fault : Fault) (text : List Char) : Futile fault text text := by
  cases text with
  | nil => exact .nothing
  | cons => exact .same

theorem Futile.stopsAlike (h : Futile fault left text) : StopsAlike left text := by
  intro p hp hstops
  cases h with
  | same => simpa using hstops
  | nothing => exact hstops
  | closing =>
    rw [List.replicate_succ, stops_cons]
    exact hp ')' (by decide)

theorem Futile.delimited_iff (h : Futile fault left text) : Delimited left ↔ Delimited text := by
  cases h with
  | same => simp
  | nothing => simp
  | closing => simp [List.replicate_succ, isDelimiter]

theorem Futile.cons {c : Char} (h : Futile fault (c :: left) text) :
    ∃ more, text = c :: more := by
  cases h with
  | same => exact ⟨_, rfl⟩

theorem Futile.of_nil (h : Futile fault [] text) : ∀ c ∈ text, c = ')' := by
  cases h with
  | nothing => simp
  | closing => exact fun c hc => List.eq_of_mem_replicate hc

/-! ## No atom at a stall -/

theorem StartsNothing.opening {c : Char} (h : StartsNothing c) (more : List Char) :
    opening (c :: more) = .other := by
  obtain ⟨hstart, hdigit, -, hmark⟩ := h
  simp only [List.mem_cons, List.not_mem_nil, or_false, not_or] at hmark
  have hsign : ¬ (c = '+' ∨ c = '-') := fun hsign => by
    rw [isSign_isSymbolStart ((isSign_iff c).mpr hsign)] at hstart
    simp at hstart
  have hnumeral : (⟨.start, c :: more⟩ : Cursor).startsNumeral = false := by
    simpa [Cursor.startsNumeral, Cursor.sign, Cursor.peek, not_or.mp hsign] using hdigit
  simp only [HandlerScript.opening, List.head?_cons]
  split <;> simp_all

theorem Node.opening_ne_other (node : Node) : node.opening ≠ .other := by
  cases node <;> simp [Node.opening]

theorem opening_head {c : Char} {more : List Char} (hlist : opening (c :: more) ≠ .list)
    (hother : opening (c :: more) ≠ .other) : isBlank c = false ∧ c ≠ '(' ∧ c ≠ ')' := by
  refine ⟨?_, ?_, ?_⟩
  · rw [Bool.eq_false_iff]
    intro hblank
    simp only [isBlank, Bool.or_eq_true, beq_iff_eq, or_assoc] at hblank
    rcases hblank with rfl | rfl | rfl | rfl <;> exact hother rfl
  · rintro rfl
    exact hlist rfl
  · rintro rfl
    exact hother rfl

theorem NumeralBreak.opening (h : NumeralBreak text left) (other : List Char) :
    opening (text ++ other) = .number := by
  cases h with
  | fraction hsign hwhole => simpa using opening_of_digits hsign hwhole _
  | power hsign hwhole => simpa using opening_of_digits hsign hwhole _

structure AtomAt (admits : Numeral → Prop) (p : Position) (text word rest : List Char)
    (node : Node) : Prop where
  atom : AtomText admits ⟨p, p.advanceAll word⟩ word node
  bare : node.IsBare → Delimited rest
  text_eq : word ++ rest = text

theorem Reads.atomAt {after tail : List Char} {p : Position} {nodes : List Node}
    (h : Reads admits after p text nodes) (htail : Closing tail) {other : List Char}
    (heq : text ++ tail = other) (hlist : opening other ≠ .list) (hother : opening other ≠ .other) :
    ∃ word rest node, AtomAt admits p other word rest node ∧ node.opening = opening other := by
  subst heq
  cases hc : text ++ tail with
  | nil => exact absurd (by rw [hc]; rfl) hother
  | cons c more =>
    rw [hc] at hlist hother
    obtain ⟨hblank, hopen, hclose⟩ := opening_head hlist hother
    obtain ⟨word, text', node, nodes', rfl, -, hatom, hend, -⟩ :=
      h.at_atom htail hblank hopen hclose hc
    rw [List.append_assoc] at hc
    exact ⟨word, text' ++ tail, node, ⟨hatom, hend, hc⟩, by rw [← hc, hatom.opening hend]⟩

namespace AtomAt

variable {p : Position} {word rest : List Char} {node : Node}

theorem string (h : AtomAt admits p text word rest node) (hnode : node.opening = .string) :
    ∃ value inside, QuotedText value inside ∧ '"' :: (inside ++ '"' :: rest) = text := by
  obtain ⟨hatom, -, rfl⟩ := h
  cases hatom with
  | string hinside => exact ⟨_, _, hinside, by simp⟩
  | key | number | symbol => simp [Node.opening] at hnode

theorem string_cut {value inside more : List Char}
    (h : AtomAt admits p ('"' :: (inside ++ more)) word rest node) (hnode : node.opening = .string)
    (hinside : QuotedText value inside) :
    ∃ value' inside', QuotedText value' inside' ∧ inside' ++ '"' :: rest = more := by
  obtain ⟨value', inside', hinside', heq⟩ := h.string hnode
  obtain ⟨-, heq⟩ := List.cons.inj heq
  obtain ⟨value'', inside'', -, rfl, hinside''⟩ := hinside.cut hinside' heq
  rw [List.append_assoc, List.append_cancel_left_eq] at heq
  exact ⟨value'', inside'', hinside'', heq⟩

theorem key (h : AtomAt admits p text word rest node) (hnode : node.opening = .key) :
    ∃ name, KeyText name ∧ Delimited rest ∧ '@' :: (name ++ rest) = text := by
  obtain ⟨hatom, hend, rfl⟩ := h
  cases hatom with
  | key hname => exact ⟨_, hname, hend trivial, rfl⟩
  | string | number | symbol => simp [Node.opening] at hnode

theorem number (h : AtomAt admits p text word rest node) (hnode : node.opening = .number) :
    ∃ n, NumeralRun n word rest ∧ admits n ∧ Delimited rest := by
  obtain ⟨hatom, hend, heq⟩ := h
  cases hatom with
  | number hn hadmits => exact ⟨_, hn.run (hend trivial), hadmits, hend trivial⟩
  | string | key | symbol => simp [Node.opening] at hnode

theorem symbol (h : AtomAt admits p text word rest node) (hnode : node.opening = .symbol) :
    SymbolText word ∧ Delimited rest := by
  obtain ⟨hatom, hend, heq⟩ := h
  cases hatom with
  | symbol hname => exact ⟨hname, hend trivial⟩
  | string | key | number => simp [Node.opening] at hnode

end AtomAt

theorem QuotedText.at_backslash {value inside rest more : List Char} (h : QuotedText value inside)
    (heq : inside ++ '"' :: rest = '\\' :: more) :
    ∃ escaped decoded, Escape escaped decoded ∧ more.head? = some escaped := by
  cases h with
  | nil => simp at heq
  | plain _ hback => exact absurd (List.cons.inj heq).1 hback
  | escape hescape => exact ⟨_, _, hescape, by rw [← (List.cons.inj heq).2]; rfl⟩

theorem Stops.mono {p q : Char → Bool} (hpq : ∀ c, q c → p c) (h : Stops p text) : Stops q text := by
  intro c hc
  rw [Bool.eq_false_iff]
  intro hq
  exact absurd (hpq c hq) (by simp [h c hc])

/-! ## Nothing is read at a stall -/

section

variable {lists : Nat} {taken word rest after tail other : List Char} {p : Position} {node : Node}
  {nodes : List Node}

theorem Stall.opening (hstall : Stall lists taken left fault) (hfutile : Futile fault left other)
    (htaken : taken ≠ []) : opening (taken ++ other) ≠ .list ∧ opening (taken ++ other) ≠ .other := by
  cases hstall with
  | unclosed | unopened | tooDeep | noNode => exact absurd rfl htaken
  | unterminated | unescaped | badEscape => exact ⟨Opening.noConfusion, Opening.noConfusion⟩
  | unnamed | gluedKey => exact ⟨Opening.noConfusion, Opening.noConfusion⟩
  | brokenNumeral hbreak => simp [hbreak.opening]
  | gluedNumeral hrun => simp [hrun.numeralText.opening]
  | outOfRange hn => simp [hn.opening]
  | gluedSymbol hname hstops =>
    have hdigit : Stops Char.isDigit other :=
      (hfutile.stopsAlike _ inner_isSymbolPart hstops).mono fun c hc =>
        isAlphanum_isSymbolPart (isDigit_isAlphanum hc)
    simp [hname.opening hdigit]

theorem Stall.no_atom (hstall : Stall lists taken left fault) (hfutile : Futile fault left other)
    (hadmits : ∀ n, fault = .malformedNumber → NumeralText n taken → Delimited left → admits n →
      n.IsFinite)
    (hatom : AtomAt admits p (taken ++ other) word rest node)
    (hnode : node.opening = HandlerScript.opening (taken ++ other)) : taken = [] := by
  cases hstall with
  | unclosed | unopened | tooDeep | noNode => rfl
  | unterminated hinside =>
    obtain ⟨value', inside', -, heq⟩ := hatom.string_cut hnode hinside
    exact absurd (hfutile.of_nil '"' (by simp [← heq])) (by decide)
  | unescaped hinside =>
    rw [List.cons_append, List.append_assoc] at hatom hnode
    obtain ⟨value', inside', hinside', heq⟩ := hatom.string_cut hnode hinside
    obtain ⟨escaped, decoded, hescape, hhead⟩ := hinside'.at_backslash heq
    obtain rfl := hfutile.of_nil escaped (List.mem_of_mem_head? hhead)
    cases hescape
  | badEscape hinside hescape =>
    rw [List.cons_append, List.append_assoc] at hatom hnode
    obtain ⟨value', inside', hinside', heq⟩ := hatom.string_cut hnode hinside
    obtain ⟨escaped', decoded, hescape', hhead⟩ := hinside'.at_backslash heq
    obtain ⟨more, rfl⟩ := hfutile.cons
    obtain rfl := Option.some.inj hhead
    exact absurd hescape' (hescape decoded)
  | unnamed hstops =>
    obtain ⟨name, ⟨hne, hname⟩, -, heq⟩ := hatom.key hnode
    obtain ⟨c, name, rfl⟩ := List.exists_cons_of_ne_nil hne
    have hstops := hfutile.stopsAlike _ inner_isAlphanum hstops
    obtain rfl : c :: name ++ rest = other := (List.cons.inj heq).2
    rw [List.cons_append, stops_cons, hname c List.mem_cons_self] at hstops
    simp at hstops
  | gluedKey hname hstops hglued =>
    obtain ⟨name', hname', hend, heq⟩ := hatom.key hnode
    obtain ⟨-, rfl⟩ := run_unique hname'.2 (hend.stops inner_isAlphanum) hname.2
      (hfutile.stopsAlike _ inner_isAlphanum hstops) (List.cons.inj heq).2
    exact absurd (hfutile.delimited_iff.mpr hend) hglued
  | brokenNumeral hbreak =>
    obtain ⟨n, hrun, -, -⟩ := hatom.number (hnode.trans (hbreak.opening other))
    exact absurd hatom.text_eq.symm ((hbreak.congr hfutile.stopsAlike).not_run hrun)
  | gluedNumeral hrun hglued =>
    obtain ⟨n, hrun', -, hend⟩ := hatom.number (hnode.trans (hrun.numeralText.opening other))
    obtain ⟨-, -, rfl⟩ := hrun'.unique (hrun.congr hfutile.stopsAlike) hatom.text_eq
    exact absurd (hfutile.delimited_iff.mpr hend) hglued
  | outOfRange hn hleft hinf =>
    obtain ⟨n, hrun', hadmitted, -⟩ := hatom.number (hnode.trans (hn.opening other))
    obtain ⟨rfl, -, -⟩ := hrun'.unique (hn.run (hfutile.delimited_iff.mp hleft)) hatom.text_eq
    exact absurd (hadmits n rfl hn hleft hadmitted) (by simp [Numeral.IsFinite, hinf])
  | gluedSymbol hname hstops hglued =>
    have hother := hfutile.stopsAlike _ inner_isSymbolPart hstops
    have hdigit : Stops Char.isDigit other :=
      hother.mono fun c hc => isAlphanum_isSymbolPart (isDigit_isAlphanum hc)
    obtain ⟨hname', hend⟩ := hatom.symbol (hnode.trans (hname.opening hdigit))
    obtain ⟨-, rfl⟩ := run_unique hname'.isSymbolPart (hend.stops inner_isSymbolPart)
      hname.isSymbolPart hother hatom.text_eq
    exact absurd (hfutile.delimited_iff.mpr hend) hglued

theorem Stall.blocked_of_nil (hstall : Stall lists [] left fault) (hfutile : Futile fault left other)
    (h : Reads admits after p text nodes) (htail : Closing tail) (hopen : tail = [] ↔ lists = 0)
    (heq : text ++ tail = other) :
    fault = .nestingTooDeep ∧ nestingLimit < lists + Node.depthAll nodes := by
  cases hstall with
  | unclosed hlists =>
    -- No closing parenthesis may follow, so the text ends where one is wanted.
    have hother : other = [] := by
      cases hfutile with
      | nothing => rfl
      | closing hfault => exact absurd rfl hfault
    obtain ⟨-, -, hnil⟩ := h.at_end (heq.trans hother)
    have := hopen.mp hnil
    omega
  | unopened hlists =>
    obtain ⟨more, rfl⟩ := hfutile.cons
    obtain ⟨rfl, -⟩ := h.at_close heq
    rw [hopen.mpr hlists] at heq
    simp at heq
  | tooDeep hlists =>
    obtain ⟨more, rfl⟩ := hfutile.cons
    obtain ⟨_, _, children, nodes', stop, -, rfl, -⟩ := h.at_open htail heq
    refine ⟨rfl, ?_⟩
    rw [Node.depthAll, Node.depth]
    omega
  | @noNode c _ hnothing =>
    obtain ⟨more, rfl⟩ := hfutile.cons
    obtain ⟨-, -, hblank, hmark⟩ := id hnothing
    simp only [List.mem_cons, List.not_mem_nil, or_false, not_or] at hmark
    obtain ⟨word, text', node, nodes', rfl, -, hatom, hend, -⟩ :=
      h.at_atom htail hblank hmark.1 hmark.2.1 heq
    rw [List.append_assoc] at heq
    have hnode := hatom.opening hend
    rw [heq, hnothing.opening] at hnode
    exact absurd hnode.symm node.opening_ne_other
  -- An atom that was begun has taken something.
  | brokenNumeral hbreak => exact absurd (hbreak.opening []) (by decide)
  | gluedNumeral hrun => exact absurd (hrun.numeralText.opening []) (by decide)
  | outOfRange hn => exact absurd (hn.opening []) (by decide)
  | gluedSymbol hname => exact absurd (hname.opening (stops_nil _)) (by decide)

theorem Stall.blocked (hstall : Stall lists taken left fault) (hfutile : Futile fault left other)
    (hadmits : ∀ n, fault = .malformedNumber → NumeralText n taken → Delimited left → admits n →
      n.IsFinite)
    (h : Reads admits after p text nodes) (htail : Closing tail) (hopen : tail = [] ↔ lists = 0)
    (heq : text ++ tail = taken ++ other) :
    fault = .nestingTooDeep ∧ nestingLimit < lists + Node.depthAll nodes := by
  by_cases htaken : taken = []
  · subst htaken
    exact hstall.blocked_of_nil hfutile h htail hopen heq
  · obtain ⟨hlist, hother⟩ := hstall.opening hfutile htaken
    obtain ⟨word, rest, node, hatom, hnode⟩ := h.atomAt htail heq hlist hother
    exact absurd (hstall.no_atom hfutile hadmits hatom hnode) htaken

end

/-! ## Nothing is read after a break -/

/-- Reading gave up on a number with nothing wrong but its value. -/
def Failure.OutOfRange (f : Failure) : Prop :=
  f.fault = .malformedNumber ∧ ∃ n word rest, f.origin.rest = word ++ rest ∧
    NumeralText n word ∧ Delimited rest ∧ n.value.isFinite = false

theorem listsIn_append (scopes scopes' : List Scope) :
    listsIn (scopes ++ scopes') = listsIn scopes + listsIn scopes' := List.countP_append

@[simp] theorem listsIn_scopesAt (scopes : List Scope) (p : Position) :
    listsIn (scopesAt scopes p) = listsIn scopes := by
  rw [scopesAt]
  split
  · next h => simp [h, listsIn]
  · rfl

theorem Failure.Halts.isFinite {f : Failure} {scopes : List Scope} {p : Position}
    {taken : List Char} (h : f.Halts scopes p taken left)
    (hadmits : (∀ n, admits n → n.IsFinite) ∨ ¬ f.OutOfRange) {n : Numeral}
    (hfault : f.fault = .malformedNumber) (hn : NumeralText n taken) (hleft : Delimited left)
    (hadmitted : admits n) : n.IsFinite := by
  rcases hadmits with hadmits | hrange
  · exact hadmits n hadmitted
  · cases hfinite : n.value.isFinite with
    | true => exact hfinite
    | false =>
      have hrest : f.origin.rest = taken ++ left := by rw [h.origin hfault]
      exact absurd ⟨hfault, n, taken, left, hrest, hn, hleft, hfinite⟩ hrange

/-- What holds at the stall holds from the start: whatever the lists on the way are closed with,
only lists nested too deep can be read. -/
theorem Breaks.blocked {f : Failure} {read after tail other : List Char} {scopes : List Scope}
    {p : Position} {nodes : List Node} (hbreaks : Breaks f left scopes p read)
    (hfutile : Futile f.fault left other)
    (hadmits : (∀ n, admits n → n.IsFinite) ∨ ¬ f.OutOfRange)
    (h : Reads admits after p text nodes) (htail : Closing tail)
    (hopen : tail = [] ↔ listsIn scopes = 0) (heq : text ++ tail = read ++ other) :
    f.fault = .nestingTooDeep ∧ nestingLimit < listsIn scopes + Node.depthAll nodes := by
  induction hbreaks generalizing text after tail nodes with
  | @stall scopes p q done taken nodes hdone hdepth hq hstall hhalts =>
    rw [List.append_assoc] at heq
    obtain ⟨text', nodes', rfl, rfl, h'⟩ :=
      hdone.cut h (delimited_append_of hfutile.delimited_iff.mp) htail heq
    rw [List.append_assoc, List.append_cancel_left_eq] at heq
    obtain ⟨hfault, hlimit⟩ :=
      hstall.blocked hfutile (fun _ => hhalts.isFinite hadmits) h' htail hopen heq
    rw [Node.depthAll_append]
    exact ⟨hfault, by omega⟩
  | @list scopes p q done read nodes hdone hdepth hq hlimit _ ih =>
    -- What is inside of the list has one closing parenthesis after it, and is blocked itself.
    rw [List.append_assoc] at heq
    obtain ⟨text', nodes', rfl, rfl, h'⟩ := hdone.cut h (fun hd => by simpa using hd) htail heq
    rw [List.append_assoc, List.append_cancel_left_eq] at heq
    obtain ⟨inside, text'', children, nodes'', stop, rfl, rfl, heq, -, hinside, -⟩ :=
      h'.at_open htail heq
    rw [← hq] at hinside
    obtain ⟨hfault, hlimit⟩ := ih hinside (by simp) (by simp) heq
    rw [listsIn_list, listsIn_scopesAt] at hlimit
    rw [Node.depthAll_append, Node.depthAll, Node.depth]
    exact ⟨hfault, by omega⟩

/-! ## The grammar is what is accepted -/

theorem Reader.program_start (source : String) :
    ProgramResult .start source.toList (start source.toList).program :=
  program_result .start source.toList

theorem parse_of_program_error {source : String} {f : Failure}
    (h : (Reader.start source.toList).program = .error f) : parse source = .error f.diagnostic := by
  rw [parse, h]
  rfl

theorem parse_cases (source : String) :
    (∃ nodes, parse source = .ok nodes ∧ IsReading source nodes) ∨
      ∃ f read left, parse source = .error f.diagnostic ∧
        (Reader.start source.toList).program = .error f ∧ source.toList = read ++ left ∧
        Breaks f left [] .start read := by
  have hresult := Reader.program_start source
  rw [parse]
  cases hprogram : (Reader.start source.toList).program with
  | ok nodes =>
    rw [hprogram] at hresult
    cases hresult with
    | read hread hdepth => exact .inl ⟨nodes, rfl, hread, hdepth⟩
  | error f =>
    rw [hprogram] at hresult
    cases hresult with
    | breaks htext hbreaks => exact .inr ⟨f, _, _, rfl, rfl, htext, hbreaks⟩

theorem IsReading.unique {source : String} {nodes nodes' : List Node} (h : IsReading source nodes)
    (h' : IsReading source nodes') : nodes = nodes' := h.1.unique h'.1

theorem Breaks.nestingTooDeep {f : Failure} {read : List Char} {p : Position} {nodes : List Node}
    (hbreaks : Breaks f left [] p read)
    (h : Reads Numeral.IsFinite [] p (read ++ left) nodes) :
    f.fault = .nestingTooDeep ∧ nestingLimit < Node.depthAll nodes := by
  have hblocked := hbreaks.blocked (.refl _ left) (.inl fun _ => id) h closing_nil
    (by simp [listsIn]) (List.append_nil _)
  simpa [listsIn] using hblocked

theorem parse_eq_ok_iff (source : String) (nodes : List Node) :
    parse source = .ok nodes ↔ IsReading source nodes := by
  constructor
  · intro hparse
    rcases parse_cases source with ⟨nodes', hparse', h⟩ | ⟨f, read, left, hparse', -⟩
    · obtain rfl : nodes' = nodes := Except.ok.inj (hparse'.symm.trans hparse)
      exact h
    · simp [hparse'] at hparse
  · intro h
    rcases parse_cases source with ⟨nodes', hparse, h'⟩ | ⟨f, read, left, -, -, htext, hbreaks⟩
    · rw [hparse, h.unique h']
    · obtain ⟨hread, hdepth⟩ := h
      rw [htext] at hread
      obtain ⟨-, hdeep⟩ := hbreaks.nestingTooDeep hread
      omega

/-- Scripts are accepted exactly as the grammar reads them, and it reads each in one way at most. -/
theorem parse_accepts_grammar (source : String) :
    (∀ nodes, parse source = .ok nodes ↔ IsReading source nodes) ∧
      ∀ nodes nodes', IsReading source nodes → IsReading source nodes' → nodes = nodes' :=
  ⟨parse_eq_ok_iff source, fun _ _ => IsReading.unique⟩

end HandlerScript
