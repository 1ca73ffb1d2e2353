import HandlerScript.Proofs.Json.Grammar
import HandlerScript.Proofs.Number.Text
import HandlerScript.Proofs.Reading

/-!
# JSON texts have one reading

The first character of a value shows what kind of value it is, and a value ends where the grammar
lets it end. So two values at the start of one text are the same, as long as a blank, a comma, a
closing bracket or nothing comes after each.
-/

namespace HandlerScript

/-! ## Numerals -/

def isNumeralPart (c : Char) : Bool := c.isDigit || isSign c || isPoint c || isExponent c

theorem isDigit_isNumeralPart {c : Char} (h : c.isDigit) : isNumeralPart c := by
  simp [isNumeralPart, h]

theorem SignText.isNumeralPart {negative : Bool} {sign : List Char} (h : SignText negative sign) :
    ∀ c ∈ sign, isNumeralPart c := by
  cases h <;> simp [HandlerScript.isNumeralPart, isSign]

theorem NumeralText.isNumeralPart {n : Numeral} {text : List Char} (h : NumeralText n text) :
    ∀ c ∈ text, isNumeralPart c := by
  have hdigits : ∀ {digits}, Digits digits → ∀ c ∈ digits, HandlerScript.isNumeralPart c :=
    fun h c hc => isDigit_isNumeralPart (h.2 c hc)
  obtain ⟨hsign, hwhole, hfraction, hpower⟩ := h
  simp only [List.forall_mem_append]
  refine ⟨hsign.isNumeralPart, hdigits hwhole, ?_, ?_⟩
  · cases hfraction with
    | none => exact nofun
    | some h => exact List.forall_mem_cons.mpr ⟨rfl, hdigits h⟩
  · cases hpower with
    | none => exact nofun
    | some he hsign h =>
      refine List.forall_mem_cons.mpr
        ⟨?_, List.forall_mem_append.mpr ⟨hsign.isNumeralPart, hdigits h⟩⟩
      rcases he with rfl | rfl <;> rfl

namespace Json

/-! ## What comes after a value -/

def isMark (c : Char) : Bool := c == ',' || c == ']' || c == '}'

def isEnd (c : Char) : Bool := isBlank c || isMark c

theorem isEnd_iff (c : Char) : isEnd c ↔ c ∈ [' ', '\t', '\r', '\n', ',', ']', '}'] := by
  simp [isEnd, isBlank, isMark, or_assoc]

theorem isMark_isEnd {c : Char} (h : isMark c) : isEnd c := by
  simp [isEnd, h]

theorem isMark_not_isBlank {c : Char} (h : isMark c) : isBlank c = false := by
  simp only [isMark, Bool.or_eq_true, beq_iff_eq, or_assoc] at h
  rcases h with rfl | rfl | rfl <;> rfl

/-- A value may end before this text. -/
def Ended (text : List Char) : Prop := ∀ c ∈ text.head?, isEnd c

theorem ended_nil : Ended [] := nofun

theorem Ended.stops {p : Char → Bool} {text : List Char} (h : Ended text)
    (hp : [' ', '\t', '\r', '\n', ',', ']', '}'].all (!p ·)) : Stops p text := by
  intro c hc
  simpa using List.all_eq_true.mp hp c ((isEnd_iff c).mp (h c hc))

namespace Blanks

variable {text left left' : List Char} {c : Char}

theorem none (text : List Char) : Blanks text text := ⟨[], by simp, rfl⟩

theorem unique (h : Blanks text left) (h' : Blanks text left') (hleft : Stops isBlank left)
    (hleft' : Stops isBlank left') : left = left' := by
  obtain ⟨blanks, hblanks, rfl⟩ := h
  obtain ⟨blanks', hblanks', heq⟩ := h'
  exact (run_unique hblanks hleft hblanks' hleft' heq).2

theorem ended (h : Blanks text left) (hleft : Ended left) : Ended text := by
  obtain ⟨blanks, hblanks, rfl⟩ := h
  cases blanks with
  | nil => exact hleft
  | cons c blanks =>
    intro d hd
    obtain rfl : c = d := by simpa using hd
    simp [isEnd, hblanks c List.mem_cons_self]

theorem ended_cons (h : Blanks text (c :: left)) (hc : isEnd c) : Ended text :=
  h.ended fun d hd => by
    obtain rfl : c = d := by simpa using hd
    exact hc

end Blanks

/-! ## Strings -/

theorem CodeText.unique {number number' : Nat} {digits digits' rest rest' : List Char}
    (h : CodeText number digits) (h' : CodeText number' digits')
    (heq : digits ++ rest = digits' ++ rest') : number = number' ∧ rest = rest' := by
  obtain ⟨rfl, hrest⟩ := List.append_inj heq (h.1.trans h'.1.symm)
  exact ⟨Option.some.inj (h.2.symm.trans h'.2), hrest⟩

theorem unescape_ne_u {escaped c : Char} (h : unescape escaped = some c) : escaped ≠ 'u' := by
  rintro rfl
  cases h

theorem not_isValidChar_of_high {high : Nat} (h : high < 0x400) : ¬ (0xd800 + high).isValidChar := by
  unfold Nat.isValidChar
  omega

theorem CharText.unique {c c' : Char} {word word' rest rest' : List Char} (h : CharText c word)
    (h' : CharText c' word') (heq : word ++ rest = word' ++ rest') : c = c' ∧ rest = rest' := by
  cases h <;> cases h' <;>
    simp only [List.cons_append, List.nil_append, List.append_assoc, List.cons.injEq] at heq
  case plain.plain => exact heq
  case plain.letter | plain.code | plain.pair => exact absurd heq.1 ‹_›
  case letter.plain | code.plain | pair.plain => exact absurd heq.1.symm ‹_›
  case letter.letter hletter _ hletter' =>
    obtain ⟨-, rfl, hrest⟩ := heq
    exact ⟨Option.some.inj (hletter.symm.trans hletter'), hrest⟩
  case letter.code hletter _ _ _ _ | letter.pair hletter _ _ _ _ _ _ _ _ =>
    exact absurd heq.2.1 (unescape_ne_u hletter)
  case code.letter hletter | pair.letter hletter => exact absurd heq.2.1.symm (unescape_ne_u hletter)
  case code.code hcode _ _ _ hcode' _ =>
    obtain ⟨rfl, hrest⟩ := hcode.unique hcode' heq.2.2
    exact ⟨rfl, hrest⟩
  -- A code that stands for a character is none of those that come in pairs.
  case code.pair hcode hvalid _ _ _ _ hcode' _ hhigh _ =>
    obtain ⟨rfl, -⟩ := hcode.unique hcode' heq.2.2
    exact absurd hvalid (not_isValidChar_of_high hhigh)
  case pair.code hcode _ hhigh _ _ _ hcode' hvalid =>
    obtain ⟨rfl, -⟩ := hcode.unique hcode' heq.2.2
    exact absurd hvalid (not_isValidChar_of_high hhigh)
  case pair.pair hhigh hlow _ _ _ _ _ _ hhigh' hlow' _ _ =>
    obtain ⟨hnumber, hrest⟩ := hhigh.unique hhigh' heq.2.2
    obtain ⟨hnumber', hrest⟩ := hlow.unique hlow' (by simpa using hrest)
    obtain rfl := Nat.add_left_cancel hnumber
    obtain rfl := Nat.add_left_cancel hnumber'
    exact ⟨rfl, hrest⟩

theorem CharText.head_ne {c : Char} {word : List Char} (h : CharText c word) (rest : List Char) :
    (word ++ rest).head? ≠ some '"' := by
  cases h <;> simp_all

theorem InsideText.unique {text value value' left left' : List Char}
    (h : InsideText text value left) (h' : InsideText text value' left') :
    value = value' ∧ left = left' := by
  generalize htext : text = text' at h'
  induction h generalizing text' value' left' with
  | nil =>
    cases h' with
    | nil => exact ⟨rfl, (List.cons.inj htext).2⟩
    | cons hchar => exact absurd (by rw [← htext]; rfl) (hchar.head_ne _)
  | cons hchar _ ih =>
    cases h' with
    | nil => exact absurd (by rw [htext]; rfl) (hchar.head_ne _)
    | cons hchar' h' =>
      obtain ⟨rfl, hrest⟩ := hchar.unique hchar' htext
      obtain ⟨rfl, hleft⟩ := ih _ hrest h'
      exact ⟨rfl, hleft⟩

/-! ## Entries -/

section

variable {α : Type} {entry : List Char → α → List Char → Prop} {closing : Char} {a : α}
  {entries entries' : List α} {text left left' : List Char}

/-- The text of this entry is that of no other, and ends in one place. -/
def Determined (entry : List Char → α → List Char → Prop) (a : α) : Prop :=
  ∀ ⦃text a' left left'⦄, entry text a left → entry text a' left' → Ended left → Ended left' →
    a = a' ∧ left = left'

/-- An entry starts with a character that could not come after one. -/
def Starts (entry : List Char → α → List Char → Prop) : Prop :=
  ∀ ⦃text a left⦄, entry text a left → ∃ c more, text = c :: more ∧ isEnd c = false

theorem Starts.stops (hstarts : Starts entry) (h : entry text a left) : Stops isBlank text := by
  obtain ⟨c, more, rfl, hc⟩ := hstarts h
  rw [stops_cons]
  simp only [isEnd, Bool.or_eq_false_iff] at hc
  exact hc.1

theorem Starts.not_mark {c : Char} {start : List Char} (hstarts : Starts entry) (hc : isMark c)
    (hmark : Blanks text (c :: left)) (hstart : Blanks text start) (h : entry start a left') : False := by
  have heq := hmark.unique hstart ((stops_cons _ _ _).mpr (isMark_not_isBlank hc)) (hstarts.stops h)
  obtain ⟨d, more, rfl, hd⟩ := hstarts h
  rw [← (List.cons.inj heq).1, (isMark_isEnd hc)] at hd
  cases hd

theorem Determined.step {c c' : Char} {a' : α} {start start' stop stop' rest rest' : List Char}
    (h : Determined entry a) (hstarts : Starts entry) (hc : isMark c) (hc' : isMark c')
    (hbefore : Blanks text start) (hentry : entry start a stop) (hafter : Blanks stop (c :: rest))
    (hbefore' : Blanks text start') (hentry' : entry start' a' stop')
    (hafter' : Blanks stop' (c' :: rest')) : a = a' ∧ c = c' ∧ rest = rest' := by
  obtain rfl := hbefore.unique hbefore' (hstarts.stops hentry) (hstarts.stops hentry')
  obtain ⟨rfl, rfl⟩ :=
    h hentry hentry' (hafter.ended_cons (isMark_isEnd hc)) (hafter'.ended_cons (isMark_isEnd hc'))
  have heq := hafter.unique hafter' ((stops_cons _ _ _).mpr (isMark_not_isBlank hc))
    ((stops_cons _ _ _).mpr (isMark_not_isBlank hc'))
  exact ⟨rfl, List.cons.inj heq⟩

theorem Entries.unique (h : Entries entry closing text entries left) (hstarts : Starts entry)
    (hclosing : isMark closing) (hcomma : closing ≠ ',')
    (hentries : ∀ a ∈ entries, Determined entry a)
    (h' : Entries entry closing text entries' left') : entries = entries' ∧ left = left' := by
  induction h generalizing entries' with
  | none hmark =>
    cases h' with
    | none hmark' =>
      have hstop : Stops isBlank (closing :: left') := (stops_cons _ _ _).mpr (isMark_not_isBlank hclosing)
      exact ⟨rfl, (List.cons.inj (hmark.unique hmark' (by simpa using hstop) hstop)).2⟩
    | last hbefore hentry | next hbefore hentry =>
      exact (hstarts.not_mark hclosing hmark hbefore hentry).elim
  | last hbefore hentry hafter =>
    have ha := hentries _ List.mem_cons_self
    cases h' with
    | none hmark => exact (hstarts.not_mark hclosing hmark hbefore hentry).elim
    | last hbefore' hentry' hafter' =>
      obtain ⟨rfl, -, rfl⟩ :=
        ha.step hstarts hclosing hclosing hbefore hentry hafter hbefore' hentry' hafter'
      exact ⟨rfl, rfl⟩
    | next hbefore' hentry' hafter' =>
      obtain ⟨-, hc, -⟩ := ha.step hstarts hclosing rfl hbefore hentry hafter hbefore' hentry' hafter'
      exact absurd hc hcomma
  | next hbefore hentry hafter _ _ ih =>
    obtain ⟨ha, hentries⟩ := List.forall_mem_cons.mp hentries
    cases h' with
    | none hmark => exact (hstarts.not_mark hclosing hmark hbefore hentry).elim
    | last hbefore' hentry' hafter' =>
      obtain ⟨-, hc, -⟩ := ha.step hstarts rfl hclosing hbefore hentry hafter hbefore' hentry' hafter'
      exact absurd hc.symm hcomma
    | next hbefore' hentry' hafter' hrest' =>
      obtain ⟨rfl, -, rfl⟩ := ha.step hstarts rfl rfl hbefore hentry hafter hbefore' hentry' hafter'
      obtain ⟨rfl, rfl⟩ := ih hentries hrest'
      exact ⟨rfl, rfl⟩

end

/-! ## Words and numbers -/

section

variable {v v' : Json} {word word' text left left' : List Char}

theorem WordText.isAlpha (h : WordText v word) : ∀ c ∈ word, c.isAlpha := by
  cases h <;> exact List.all_eq_true.mp (by decide)

theorem WordText.unique (h : WordText v word) (h' : WordText v' word) : v = v' := by
  cases h <;> cases h' <;> rfl

theorem NumberText.isNumeralPart (h : NumberText v word) : ∀ c ∈ word, isNumeralPart c := by
  cases h with
  | natural value =>
    exact fun c hc => isDigit_isNumeralPart ((digits_toDigits value).2 c hc)
  | real hn => exact hn.isNumeralPart

theorem isDigit_not_isPoint_isExponent {c : Char} (h : c.isDigit) : ¬ (isPoint c ∨ isExponent c) := by
  rintro (hc | hc)
  · obtain rfl : c = '.' := by simpa [isPoint] using hc
    exact absurd h (by decide)
  · rcases (isExponent_iff c).mp hc with rfl | rfl <;> exact absurd h (by decide)

theorem NumberText.unique (h : NumberText v word) (h' : NumberText v' word) : v = v' := by
  generalize heq : word = word' at h'
  have hnatural : ∀ {value text}, (∃ c ∈ text, isPoint c ∨ isExponent c) →
      Nat.toDigits 10 value = text → False := by
    rintro value _ ⟨c, hc, hmark⟩ rfl
    exact isDigit_not_isPoint_isExponent ((digits_toDigits value).2 c hc) hmark
  cases h with
  | natural value =>
    cases h' with
    | natural value' =>
      have hvalue := congrArg digitsValue heq
      rw [digitsValue_toDigits, digitsValue_toDigits] at hvalue
      rw [hvalue]
    | real _ _ _ hmark => exact (hnatural hmark heq).elim
  | real hn _ _ hmark =>
    cases h' with
    | natural => exact (hnatural hmark heq.symm).elim
    | real hn' =>
      subst heq
      obtain ⟨rfl, -, -⟩ := (hn.run delimited_nil).unique (hn'.run delimited_nil) rfl
      rfl

/-! ## What a value starts with -/

inductive Kind where
  | word
  | number
  | string
  | array
  | object
  deriving DecidableEq, Repr

def kind : Json → Kind
  | null | bool _ => .word
  | natural _ | real _ => .number
  | string _ => .string
  | array _ => .array
  | object _ => .object

def kindOf (c : Char) : Kind :=
  if c = '"' then .string
  else if c = '[' then .array
  else if c = '{' then .object
  else if c.isAlpha then .word
  else .number

theorem WordText.kind_eq (h : WordText v word) : v.kind = .word := by
  cases h <;> rfl

theorem NumberText.kind_eq (h : NumberText v word) : v.kind = .number := by
  cases h <;> rfl

theorem isEnd_kindOf_of_isDigit {c : Char} (h : c.isDigit) : isEnd c = false ∧ kindOf c = .number := by
  have hend : isEnd c = false := by
    rw [Bool.eq_false_iff]
    intro hend
    have hended : Ended [c] := by simpa [Ended] using hend
    have hstops : Stops Char.isDigit [c] := hended.stops (by decide)
    rw [stops_cons, h] at hstops
    cases hstops
  refine ⟨hend, ?_⟩
  have hne : ∀ d : Char, d.isDigit = false → c ≠ d := by
    rintro d hd rfl
    rw [h] at hd
    cases hd
  unfold kindOf
  rw [if_neg (hne _ (by decide)), if_neg (hne _ (by decide)), if_neg (hne _ (by decide)),
    isDigit_not_isAlpha h]
  rfl

theorem NumberText.head (h : NumberText v word) :
    ∃ c more, word = c :: more ∧ isEnd c = false ∧ kindOf c = .number := by
  cases h with
  | natural value =>
    obtain ⟨hne, hall⟩ := digits_toDigits value
    obtain ⟨c, more, hword⟩ := List.exists_cons_of_ne_nil hne
    rw [hword] at hall
    exact ⟨c, more, hword, isEnd_kindOf_of_isDigit (hall c List.mem_cons_self)⟩
  | real hn =>
    obtain ⟨c, more, rfl, hsign | hdigit⟩ := hn.head
    · rcases (isSign_iff c).mp hsign with rfl | rfl <;> exact ⟨_, more, rfl, rfl, rfl⟩
    · exact ⟨c, more, rfl, isEnd_kindOf_of_isDigit hdigit⟩

theorem ValueText.head (h : ValueText text v left) :
    ∃ c more, text = c :: more ∧ isEnd c = false ∧ kindOf c = v.kind := by
  cases h with
  | word h => cases h <;> exact ⟨_, _, rfl, rfl, rfl⟩
  | number h =>
    obtain ⟨c, more, rfl, hc⟩ := h.head
    rw [h.kind_eq]
    exact ⟨c, _, rfl, hc⟩
  | string => exact ⟨'"', _, rfl, rfl, rfl⟩
  | array => exact ⟨'[', _, rfl, rfl, rfl⟩
  | object => exact ⟨'{', _, rfl, rfl, rfl⟩

theorem starts_valueText : Starts ValueText := by
  intro text v left h
  obtain ⟨c, more, htext, hc, -⟩ := h.head
  exact ⟨c, more, htext, hc⟩

theorem starts_fieldText (value : List Char → Json → List Char → Prop) : Starts (FieldText value) := by
  intro text field left h
  cases h with
  | mk => exact ⟨'"', _, rfl, rfl⟩

end

/-! ## Values -/

theorem FieldText.determined {name : String} {v : Json} (h : Determined ValueText v) :
    Determined (FieldText ValueText) (name, v) := by
  intro text field left left' hfield hfield' hend hend'
  cases hfield with
  | mk hname hcolon hblanks hvalue =>
    cases hfield' with
    | mk hname' hcolon' hblanks' hvalue' =>
      obtain ⟨hchars, rfl⟩ := hname.unique hname'
      obtain rfl := String.toList_inj.mp hchars
      have heq := hcolon.unique hcolon' ((stops_cons _ _ _).mpr rfl) ((stops_cons _ _ _).mpr rfl)
      obtain ⟨-, rfl⟩ := List.cons.inj heq
      obtain rfl := hblanks.unique hblanks' (starts_valueText.stops hvalue)
        (starts_valueText.stops hvalue')
      obtain ⟨rfl, rfl⟩ := h hvalue hvalue' hend hend'
      exact ⟨rfl, rfl⟩

section

variable {v v' : Json} {text left left' : List Char}

theorem ValueText.kind_eq (h : ValueText text v left) (h' : ValueText text v' left') :
    v.kind = v'.kind := by
  obtain ⟨c, more, htext, -, hc⟩ := h.head
  obtain ⟨c', more', htext', -, hc'⟩ := h'.head
  obtain ⟨rfl, -⟩ := List.cons.inj (htext.symm.trans htext')
  exact hc.symm.trans hc'

theorem ValueText.word_inv (h : ValueText text v left) (hkind : v.kind = .word) :
    ∃ word, WordText v word ∧ text = word ++ left := by
  cases h with
  | word h => exact ⟨_, h, rfl⟩
  | number h => cases h.kind_eq.symm.trans hkind
  | string | array | object => cases hkind

theorem ValueText.number_inv (h : ValueText text v left) (hkind : v.kind = .number) :
    ∃ word, NumberText v word ∧ text = word ++ left := by
  cases h with
  | number h => exact ⟨_, h, rfl⟩
  | word h => cases h.kind_eq.symm.trans hkind
  | string | array | object => cases hkind

theorem ValueText.string_inv {value : String} (h : ValueText text (.string value) left) :
    ∃ inside, text = '"' :: inside ∧ InsideText inside value.toList left := by
  cases h with
  | string h => exact ⟨_, rfl, h⟩
  | word h | number h => cases h

theorem ValueText.array_inv {items : List Json} (h : ValueText text (.array items) left) :
    ∃ inside, text = '[' :: inside ∧ Entries ValueText ']' inside items left := by
  cases h with
  | array h => exact ⟨_, rfl, h⟩
  | word h | number h => cases h

theorem ValueText.object_inv {fields : List (String × Json)}
    (h : ValueText text (.object fields) left) :
    ∃ inside, text = '{' :: inside ∧ Entries (FieldText ValueText) '}' inside fields left := by
  cases h with
  | object h => exact ⟨_, rfl, h⟩
  | word h | number h => cases h

theorem determined_of_word (hkind : v.kind = .word) : Determined ValueText v := by
  intro text v' left left' h h' hend hend'
  obtain ⟨word, hword, rfl⟩ := h.word_inv hkind
  obtain ⟨word', hword', heq⟩ := h'.word_inv ((h.kind_eq h').symm.trans hkind)
  obtain ⟨rfl, rfl⟩ := run_unique hword.isAlpha (hend.stops (by decide)) hword'.isAlpha
    (hend'.stops (by decide)) heq
  exact ⟨hword.unique hword', rfl⟩

theorem determined_of_number (hkind : v.kind = .number) : Determined ValueText v := by
  intro text v' left left' h h' hend hend'
  obtain ⟨word, hword, rfl⟩ := h.number_inv hkind
  obtain ⟨word', hword', heq⟩ := h'.number_inv ((h.kind_eq h').symm.trans hkind)
  obtain ⟨rfl, rfl⟩ := run_unique hword.isNumeralPart (hend.stops (by decide))
    hword'.isNumeralPart (hend'.stops (by decide)) heq
  exact ⟨hword.unique hword', rfl⟩

theorem determined_of_string (value : String) : Determined ValueText (.string value) := by
  intro text v' left left' h h' _ _
  have hkind := h.kind_eq h'
  obtain ⟨inside, rfl, hinside⟩ := h.string_inv
  cases v' with
  | string value' =>
    obtain ⟨inside', heq, hinside'⟩ := h'.string_inv
    obtain ⟨-, rfl⟩ := List.cons.inj heq
    obtain ⟨hchars, rfl⟩ := hinside.unique hinside'
    exact ⟨congrArg string (String.toList_inj.mp hchars), rfl⟩
  | null | bool | natural | real | array | object => cases hkind

theorem determined_of_array {items : List Json} (hitems : ∀ item ∈ items, Determined ValueText item) :
    Determined ValueText (.array items) := by
  intro text v' left left' h h' _ _
  have hkind := h.kind_eq h'
  obtain ⟨inside, rfl, hentries⟩ := h.array_inv
  cases v' with
  | array items' =>
    obtain ⟨inside', heq, hentries'⟩ := h'.array_inv
    obtain ⟨-, rfl⟩ := List.cons.inj heq
    obtain ⟨rfl, rfl⟩ :=
      hentries.unique starts_valueText rfl (by decide) hitems hentries'
    exact ⟨rfl, rfl⟩
  | null | bool | natural | real | string | object => cases hkind

theorem determined_of_object {fields : List (String × Json)}
    (hfields : ∀ field ∈ fields, Determined ValueText field.2) :
    Determined ValueText (.object fields) := by
  intro text v' left left' h h' _ _
  have hkind := h.kind_eq h'
  obtain ⟨inside, rfl, hentries⟩ := h.object_inv
  cases v' with
  | object fields' =>
    obtain ⟨inside', heq, hentries'⟩ := h'.object_inv
    obtain ⟨-, rfl⟩ := List.cons.inj heq
    obtain ⟨rfl, rfl⟩ := hentries.unique (starts_fieldText ValueText) rfl (by decide)
      (fun field hfield => FieldText.determined (hfields field hfield)) hentries'
    exact ⟨rfl, rfl⟩
  | null | bool | natural | real | string | array => cases hkind

end

theorem ValueText.determined : (v : Json) → Determined ValueText v
  | .null | .bool _ => determined_of_word rfl
  | .natural _ | .real _ => determined_of_number rfl
  | .string value => determined_of_string value
  | .array items => determined_of_array fun item _ => determined item
  | .object fields => determined_of_object fun field _ => determined field.2
decreasing_by
  all_goals simp_wf
  · have := List.sizeOf_lt_of_mem ‹item ∈ items›
    omega
  · have := List.sizeOf_lt_of_mem ‹field ∈ fields›
    have : sizeOf field = 1 + sizeOf field.1 + sizeOf field.2 := rfl
    omega

/-- A text stands for one value at most. -/
theorem Denotes.unique {text : String} {v v' : Json} (h : Denotes text v) (h' : Denotes text v') :
    v = v' := by
  obtain ⟨start, stop, hbefore, hvalue, hafter⟩ := h
  obtain ⟨start', stop', hbefore', hvalue', hafter'⟩ := h'
  obtain rfl := hbefore.unique hbefore' (starts_valueText.stops hvalue)
    (starts_valueText.stops hvalue')
  exact (ValueText.determined v hvalue hvalue' (hafter.ended ended_nil) (hafter'.ended ended_nil)).1

end Json
end HandlerScript
