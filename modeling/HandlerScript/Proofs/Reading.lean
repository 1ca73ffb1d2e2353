import HandlerScript.Proofs.NumeralText
import HandlerScript.Proofs.QuotedText

/-!
# Texts have one reading

Two readings of one text go hand in hand: the next character says which rule applies, and a literal
ends where its class of characters does. So a text that is read up to some point is read the same way
whatever comes after that point.
-/

namespace HandlerScript

variable {admits admits' : Numeral → Prop}

/-! ## Atoms -/

theorem NumeralText.head {n : Numeral} {text : List Char} (h : NumeralText n text) :
    ∃ c rest, text = c :: rest ∧ (isSign c ∨ c.isDigit) := by
  obtain ⟨hsign, ⟨hne, hall⟩, -, -⟩ := h
  cases hsign with
  | none =>
    obtain ⟨c, rest, rfl⟩ := List.exists_cons_of_ne_nil hne
    exact ⟨c, _, rfl, .inr (hall c List.mem_cons_self)⟩
  | plus => exact ⟨'+', _, rfl, .inl rfl⟩
  | minus => exact ⟨'-', _, rfl, .inl rfl⟩

theorem SymbolText.isSymbolPart {name : List Char} (h : SymbolText name) :
    ∀ c ∈ name, isSymbolPart c := by
  obtain ⟨hfirst, hothers, -⟩ := h
  exact List.forall_mem_cons.mpr ⟨isSymbolPart_of_isSymbolStart _ hfirst, hothers⟩

theorem SymbolText.not_startsNumeral {name left : List Char} (h : SymbolText name)
    (hleft : Stops Char.isDigit left) (p : Position) :
    (⟨p, name ++ left⟩ : Cursor).startsNumeral = false := by
  obtain ⟨hfirst, hothers, hsign⟩ := h
  rename_i first others
  have hdigit : first.isDigit = false := by
    cases hd : first.isDigit with
    | false => rfl
    | true => rw [isDigit_not_isSymbolStart hd] at hfirst; simp at hfirst
  have hnext : isSign first → Stops Char.isDigit (others ++ left) := by
    intro hs
    cases others with
    | nil => exact hleft
    | cons c others => simpa using hsign hs
  rw [Cursor.startsNumeral, List.cons_append]
  by_cases hs : isSign first
  · have := hnext hs
    rcases (isSign_iff first).mp hs with rfl | rfl <;>
      cases hrest : others ++ left <;>
        simp_all [Cursor.sign, Cursor.peek, Cursor.next]
  · have hne := mt (isSign_iff first).mpr hs
    simp [Cursor.sign, Cursor.peek, hdigit, not_or.mp hne]

theorem AtomText.head {span : Location} {word : List Char} {node : Node}
    (h : AtomText admits span word node) :
    ∃ c rest, word = c :: rest ∧ (c = '"' ∨ isDelimiter c = false) := by
  cases h with
  | string => exact ⟨'"', _, rfl, .inl rfl⟩
  | key => exact ⟨'@', _, rfl, .inr (by decide)⟩
  | number hn =>
    obtain ⟨c, rest, rfl, hs | hd⟩ := hn.head
    · exact ⟨c, rest, rfl, .inr (inner_isSign.not_isDelimiter hs)⟩
    · exact ⟨c, rest, rfl, .inr (inner_isDigit.not_isDelimiter hd)⟩
  | symbol hname =>
    obtain ⟨c, rest, rfl⟩ : ∃ c rest, word = c :: rest := by
      obtain ⟨-, -, -⟩ := hname
      exact ⟨_, _, rfl⟩
    have hpart := hname.isSymbolPart c List.mem_cons_self
    exact ⟨c, rest, rfl, .inr (inner_isSymbolPart.not_isDelimiter hpart)⟩

theorem AtomText.head_ne {span : Location} {word more : List Char} {node : Node} {c : Char}
    (h : AtomText admits span word node) {text : List Char} (heq : word ++ text = c :: more) :
    isBlank c = false ∧ c ≠ '(' ∧ c ≠ ')' := by
  obtain ⟨d, rest, rfl, hd⟩ := h.head
  obtain rfl : d = c := (List.cons.inj heq).1
  rcases hd with rfl | hd
  · decide
  · simp only [isDelimiter, Bool.or_eq_false_iff, beq_eq_false_iff_ne] at hd
    exact ⟨hd.1.1.1, hd.1.1.2, hd.1.2⟩

/-! ## What a text starts with -/

inductive Opening where
  | list
  | string
  | key
  | number
  | symbol
  | other
  deriving DecidableEq, Repr

/-- What the next node is, if there is one, from the next two characters. -/
def opening (text : List Char) : Opening :=
  match text.head? with
  | some '(' => .list
  | some '"' => .string
  | some '@' => .key
  | next =>
    if (⟨.start, text⟩ : Cursor).startsNumeral then .number
    else if next.any isSymbolStart then .symbol
    else .other

def Node.opening : Node → Opening
  | .list _ _ => .list
  | .string _ _ => .string
  | .key _ _ => .key
  | .number _ _ => .number
  | .symbol _ _ => .symbol

theorem opening_cons {c : Char} (hlist : c ≠ '(') (hstring : c ≠ '"') (hkey : c ≠ '@')
    (text : List Char) :
    opening (c :: text) =
      if (⟨.start, c :: text⟩ : Cursor).startsNumeral then .number
      else if isSymbolStart c then .symbol
      else .other := by
  simp only [opening, List.head?_cons]
  split <;> simp_all

theorem opening_eq_of_isSymbolPart {c : Char} (hc : isSymbolPart c) (text : List Char) :
    opening (c :: text) =
      if (⟨.start, c :: text⟩ : Cursor).startsNumeral then .number
      else if isSymbolStart c then .symbol
      else .other := by
  have hparen : c ≠ '(' := by rintro rfl; exact absurd hc (by decide)
  have hquote : c ≠ '"' := by rintro rfl; exact absurd hc (by decide)
  have hat : c ≠ '@' := by rintro rfl; exact absurd hc (by decide)
  exact opening_cons hparen hquote hat text

theorem opening_of_digits {negative : Bool} {sign digits : List Char}
    (hsign : SignText negative sign) (hdigits : Digits digits) (left : List Char) :
    opening (sign ++ (digits ++ left)) = .number := by
  have hstarts : (⟨.start, sign ++ (digits ++ left)⟩ : Cursor).startsNumeral :=
    Cursor.startsNumeral_of_digits hsign hdigits
  obtain ⟨c, rest, heq, hc⟩ : ∃ c rest, sign ++ (digits ++ left) = c :: rest ∧ isSymbolPart c := by
    obtain ⟨d, others, rfl⟩ := List.exists_cons_of_ne_nil hdigits.1
    have hd := hdigits.2 d List.mem_cons_self
    cases hsign with
    | none => exact ⟨d, _, rfl, isAlphanum_isSymbolPart (isDigit_isAlphanum hd)⟩
    | plus => exact ⟨'+', _, rfl, by decide⟩
    | minus => exact ⟨'-', _, rfl, by decide⟩
  rw [heq] at hstarts ⊢
  rw [opening_eq_of_isSymbolPart hc, if_pos hstarts]

theorem NumeralText.opening {n : Numeral} {text : List Char} (h : NumeralText n text)
    (left : List Char) : opening (text ++ left) = .number := by
  obtain ⟨hsign, hwhole, -, -⟩ := h
  simpa using opening_of_digits hsign hwhole _

theorem SymbolText.opening {name left : List Char} (h : SymbolText name)
    (hleft : Stops Char.isDigit left) : opening (name ++ left) = .symbol := by
  have hstarts := h.not_startsNumeral hleft .start
  obtain ⟨hfirst, -, -⟩ := h
  rw [List.cons_append] at hstarts ⊢
  rw [opening_eq_of_isSymbolPart (isSymbolPart_of_isSymbolStart _ hfirst), hstarts, if_neg (by simp),
    if_pos hfirst]

theorem AtomText.opening {span : Location} {word text : List Char} {node : Node}
    (h : AtomText admits span word node) (hend : node.IsBare → Delimited text) :
    opening (word ++ text) = node.opening := by
  cases h with
  | string => rfl
  | key => rfl
  | number hn => exact hn.opening text
  | symbol hname => exact hname.opening ((hend trivial).stops inner_isDigit)

theorem AtomText.unique {p : Position} {word word' text text' : List Char} {node node' : Node}
    (h : AtomText admits ⟨p, p.advanceAll word⟩ word node)
    (h' : AtomText admits' ⟨p, p.advanceAll word'⟩ word' node')
    (hend : node.IsBare → Delimited text) (hend' : node'.IsBare → Delimited text')
    (heq : word ++ text = word' ++ text') : word = word' ∧ node = node' := by
  have hopening := h.opening hend
  rw [heq, h'.opening hend'] at hopening
  cases h <;> cases h' <;> simp only [Node.opening, reduceCtorEq] at hopening
  case string.string hvalue _ _ hvalue' =>
    obtain ⟨rfl, rfl⟩ := hvalue.unique hvalue' (by simpa using heq)
    exact ⟨rfl, rfl⟩
  case key.key hname _ hname' =>
    obtain ⟨rfl, -⟩ := run_unique hname.2 ((hend trivial).stops inner_isAlphanum) hname'.2
      ((hend' trivial).stops inner_isAlphanum) (List.cons.inj heq).2
    exact ⟨rfl, rfl⟩
  case number.number _ hn _ _ hn' =>
    obtain ⟨rfl, rfl, -⟩ := (hn.run (hend trivial)).unique (hn'.run (hend' trivial)) heq
    exact ⟨rfl, rfl⟩
  case symbol.symbol hname hname' =>
    obtain ⟨rfl, -⟩ := run_unique hname.isSymbolPart ((hend trivial).stops inner_isSymbolPart)
      hname'.isSymbolPart ((hend' trivial).stops inner_isSymbolPart) heq
    exact ⟨rfl, rfl⟩

/-! ## What comes after a reading -/

/-- Reading stops here: a list is closed, or the script ends. -/
def Closing (text : List Char) : Prop := ∀ c ∈ text.head?, c = ')'

@[simp] theorem closing_nil : Closing [] := by simp [Closing]

@[simp] theorem closing_cons (c : Char) (text : List Char) : Closing (c :: text) ↔ c = ')' := by
  simp [Closing]

theorem Closing.delimited {text : List Char} (h : Closing text) : Delimited text := by
  intro c hc
  rw [h c hc]
  rfl

theorem Reads.mono {after text : List Char} {p : Position} {nodes : List Node}
    (h : Reads admits after p text nodes) (hmono : ∀ n, admits n → admits' n) :
    Reads admits' after p text nodes := by
  induction h with
  | nil => exact .nil
  | blank hc _ ih => exact .blank hc ih
  | atom hatom hend _ ih =>
    refine .atom ?_ hend ih
    cases hatom with
    | string h => exact .string h
    | key h => exact .key h
    | number h hn => exact .number h (hmono _ hn)
    | symbol h => exact .symbol h
  | list _ hstop _ ihinside ih => exact .list ihinside hstop ih

theorem Reads.of_atom {after word : List Char} {p : Position} {node : Node}
    (h : AtomText admits ⟨p, p.advanceAll word⟩ word node) (hend : node.IsBare → Delimited after) :
    Reads admits after p word [node] := by
  rw [← word.append_nil]
  exact .atom h (by simpa using hend) .nil

theorem Reads.append {after after' text text' : List Char} {p : Position}
    {nodes nodes' : List Node} (h : Reads admits after p text nodes)
    (h' : Reads admits after' (p.advanceAll text) text' nodes')
    (hafter : Delimited after → Delimited (text' ++ after')) :
    Reads admits after' p (text ++ text') (nodes ++ nodes') := by
  induction h with
  | nil => exact h'
  | blank hc _ ih => exact .blank hc (ih h' hafter)
  | @atom after word text p node nodes hatom hend _ ih =>
    rw [Position.advanceAll_append] at h'
    rw [List.append_assoc]
    refine .atom hatom (fun hbare => ?_) (ih h' hafter)
    rw [List.append_assoc]
    exact delimited_append_of hafter (hend hbare)
  | @list after inside text p stop children nodes hinside hstop _ _ ih =>
    have heq : '(' :: (inside ++ ')' :: text) ++ text' =
        '(' :: (inside ++ ')' :: (text ++ text')) := by simp
    rw [heq]
    refine .list hinside hstop (ih ?_ hafter)
    simpa [hstop, Position.advanceAll_append] using h'

theorem Reads.change_after {after after' text : List Char} {p : Position} {nodes : List Node}
    (h : Reads admits after p text nodes) (hafter : Delimited after → Delimited after') :
    Reads admits after' p text nodes := by
  simpa using h.append .nil hafter

theorem Reads.eq_nil {after text : List Char} {p : Position} {nodes : List Node}
    (h : Reads admits after p text nodes) (htext : text = []) : nodes = [] := by
  cases h with
  | nil => rfl
  | blank => simp at htext
  | atom hatom =>
    obtain ⟨c, rest, rfl, -⟩ := hatom.head
    simp at htext
  | list => simp at htext

/-! ## The next character says which rule applies -/

section

variable {after text tail more : List Char} {p : Position} {nodes : List Node} {c : Char}

theorem Reads.at_close (h : Reads admits after p text nodes) (heq : text ++ tail = ')' :: more) :
    text = [] ∧ nodes = [] := by
  cases h with
  | nil => exact ⟨rfl, rfl⟩
  | blank hc =>
    rw [(List.cons.inj heq).1] at hc
    exact absurd hc (by decide)
  | atom hatom =>
    rw [List.append_assoc] at heq
    exact absurd rfl (hatom.head_ne heq).2.2
  | list => simp at heq

theorem Reads.at_end (h : Reads admits after p text nodes) (heq : text ++ tail = []) :
    text = [] ∧ nodes = [] ∧ tail = [] := by
  obtain ⟨htext, htail⟩ := List.append_eq_nil_iff.mp heq
  exact ⟨htext, h.eq_nil htext, htail⟩

theorem Reads.at_blank (h : Reads admits after p text nodes) (htail : Closing tail)
    (hc : isBlank c) (heq : text ++ tail = c :: more) :
    ∃ text', text = c :: text' ∧ text' ++ tail = more ∧
      Reads admits after (p.advance c) text' nodes := by
  cases h with
  | nil =>
    rw [List.nil_append] at heq
    obtain rfl : c = ')' := by simpa [heq] using htail
    exact absurd hc (by decide)
  | blank _ h =>
    obtain ⟨rfl, rfl⟩ := List.cons.inj heq
    exact ⟨_, rfl, rfl, h⟩
  | atom hatom =>
    rw [List.append_assoc] at heq
    rw [(hatom.head_ne heq).1] at hc
    simp at hc
  | list =>
    rw [← (List.cons.inj heq).1] at hc
    exact absurd hc (by decide)

theorem Reads.at_open (h : Reads admits after p text nodes) (htail : Closing tail)
    (heq : text ++ tail = '(' :: more) :
    ∃ inside text' children nodes' stop, text = '(' :: (inside ++ ')' :: text') ∧
      nodes = .list ⟨p, stop⟩ children :: nodes' ∧ inside ++ ')' :: (text' ++ tail) = more ∧
      stop = ((p.advance '(').advanceAll inside).advance ')' ∧
      Reads admits [')'] (p.advance '(') inside children ∧ Reads admits after stop text' nodes' := by
  cases h with
  | nil =>
    rw [List.nil_append] at heq
    simp [heq] at htail
  | blank hc =>
    rw [(List.cons.inj heq).1] at hc
    exact absurd hc (by decide)
  | atom hatom =>
    rw [List.append_assoc] at heq
    exact absurd rfl (hatom.head_ne heq).2.1
  | list hinside hstop h =>
    exact ⟨_, _, _, _, _, rfl, rfl, by simpa using heq, hstop, hinside, h⟩

theorem Reads.at_atom (h : Reads admits after p text nodes) (htail : Closing tail)
    (hblank : isBlank c = false) (hopen : c ≠ '(') (hclose : c ≠ ')')
    (heq : text ++ tail = c :: more) :
    ∃ word text' node nodes', text = word ++ text' ∧ nodes = node :: nodes' ∧
      AtomText admits ⟨p, p.advanceAll word⟩ word node ∧
      (node.IsBare → Delimited (text' ++ tail)) ∧ Reads admits after (p.advanceAll word) text' nodes' := by
  cases h with
  | nil =>
    rw [List.nil_append] at heq
    exact absurd (by simpa [heq] using htail) hclose
  | blank hc =>
    rw [(List.cons.inj heq).1, hblank] at hc
    simp at hc
  | atom hatom hend h =>
    exact ⟨_, _, _, _, rfl, rfl, hatom,
      fun hbare => delimited_append_of (fun _ => htail.delimited) (hend hbare), h⟩
  | list => exact absurd (List.cons.inj heq).1.symm hopen

end

/-! ## One reading -/

theorem Reads.cut {after after' text text' rest tail : List Char} {p : Position}
    {nodes nodes' : List Node} (h : Reads admits after p text nodes)
    (h' : Reads admits' after' p text' nodes') (hafter : Delimited after → Delimited rest)
    (htail : Closing tail) (heq : text' ++ tail = text ++ rest) :
    ∃ text'' nodes'', text' = text ++ text'' ∧ nodes' = nodes ++ nodes'' ∧
      Reads admits' after' (p.advanceAll text) text'' nodes'' := by
  induction h generalizing after' text' nodes' rest tail with
  | nil => exact ⟨text', nodes', rfl, rfl, h'⟩
  | blank hc _ ih =>
    obtain ⟨text', rfl, heq, h'⟩ := h'.at_blank htail hc heq
    obtain ⟨text'', nodes'', rfl, rfl, h''⟩ := ih h' hafter htail heq
    exact ⟨text'', nodes'', rfl, rfl, h''⟩
  | @atom after word text p node nodes hatom hend _ ih =>
    rw [List.append_assoc] at heq
    obtain ⟨c, more, hmore⟩ : ∃ c more, word ++ (text ++ rest) = c :: more := by
      obtain ⟨c, more, rfl, -⟩ := hatom.head
      exact ⟨c, _, rfl⟩
    obtain ⟨hblank, hopen, hclose⟩ := hatom.head_ne hmore
    obtain ⟨word', text', node', nodes', rfl, rfl, hatom', hend', hrest⟩ :=
      h'.at_atom htail hblank hopen hclose (heq.trans hmore)
    rw [List.append_assoc] at heq
    obtain ⟨rfl, rfl⟩ := hatom.unique hatom'
      (fun hbare => delimited_append_of hafter (hend hbare)) hend' heq.symm
    obtain ⟨text'', nodes'', rfl, rfl, h''⟩ := ih hrest hafter htail (List.append_cancel_left heq)
    exact ⟨text'', nodes'', by simp, by simp, by rwa [Position.advanceAll_append]⟩
  | @list after inside text p stop children nodes _ hstop _ ihinside ih =>
    simp only [List.cons_append, List.append_assoc] at heq
    obtain ⟨inside', text', children', nodes', stop', rfl, rfl, heq, hstop', hinside', hrest⟩ :=
      h'.at_open htail heq
    obtain ⟨inside'', children'', rfl, rfl, h''⟩ :=
      ihinside hinside' (by simp) (by simp) heq
    -- The inner list is closed where the other reading of it goes on.
    simp only [List.append_assoc, List.append_cancel_left_eq] at heq
    obtain ⟨rfl, rfl⟩ := h''.at_close heq
    obtain ⟨-, heq⟩ := List.cons.inj heq
    simp only [List.append_nil] at hstop' ⊢
    subst hstop hstop'
    obtain ⟨text'', nodes'', rfl, rfl, h''⟩ := ih hrest hafter htail heq
    exact ⟨text'', nodes'', by simp, by simp, by simpa [Position.advanceAll_append] using h''⟩

theorem Reads.unique {text : List Char} {p : Position} {nodes nodes' : List Node}
    (h : Reads admits [] p text nodes) (h' : Reads admits' [] p text nodes') : nodes = nodes' := by
  obtain ⟨text'', nodes'', heq, rfl, h''⟩ := h.cut h' (fun hd => hd) closing_nil rfl
  have hnil : text'' = [] := List.self_eq_append_right.mp heq
  rw [h''.eq_nil hnil, List.append_nil]

end HandlerScript
