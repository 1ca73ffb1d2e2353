import HandlerScript.Reader.Nested

/-!
# The grammar of scripts

What a script is, without a word on how one is read: which texts are literals, and which nodes a
text stands for. Nothing here looks for the longest match or tries one alternative before another.

`Reads admits after p text nodes` says that `text`, standing at `p` and followed by `after`, reads
as `nodes`. Which numerals are allowed is left open: those with a finite value for a script, all of
them where only the shape of the text counts.
-/

namespace HandlerScript

/-! ## Numbers -/

def Digits (text : List Char) : Prop := text ≠ [] ∧ ∀ c ∈ text, c.isDigit

inductive SignText : Bool → List Char → Prop where
  | none : SignText false []
  | plus : SignText false ['+']
  | minus : SignText true ['-']

/-- The digits after the point, and how they are written. -/
inductive FractionText : List Char → List Char → Prop where
  | none : FractionText [] []
  | some {digits : List Char} : Digits digits → FractionText digits ('.' :: digits)

/-- The power of ten, and how it is written. -/
inductive PowerText : Int → List Char → Prop where
  | none : PowerText 0 []
  | some {e : Char} {negative : Bool} {sign digits : List Char} : e = 'e' ∨ e = 'E' →
      SignText negative sign → Digits digits →
      PowerText (if negative then -digitsValue digits else digitsValue digits)
        (e :: (sign ++ digits))

inductive NumeralText : Numeral → List Char → Prop where
  | mk {negative : Bool} {sign whole fraction fractionText powerText : List Char} {power : Int} :
      SignText negative sign → Digits whole → FractionText fraction fractionText →
      PowerText power powerText →
      NumeralText ⟨negative, whole, fraction, power⟩
        (sign ++ (whole ++ (fractionText ++ powerText)))

/-! ## Strings, key names and symbols -/

/-- The character after a backslash, and the one that it stands for. -/
inductive Escape : Char → Char → Prop where
  | lineFeed : Escape 'n' '\n'
  | tab : Escape 't' '\t'
  | quote : Escape '"' '"'
  | backslash : Escape '\\' '\\'

/-- The value of a string, and what stands between its quotes. -/
inductive QuotedText : List Char → List Char → Prop where
  | nil : QuotedText [] []
  | plain {c : Char} {value text : List Char} : c ≠ '"' → c ≠ '\\' → QuotedText value text →
      QuotedText (c :: value) (c :: text)
  | escape {escaped decoded : Char} {value text : List Char} : Escape escaped decoded →
      QuotedText value text → QuotedText (decoded :: value) ('\\' :: escaped :: text)

def KeyText (name : List Char) : Prop := name ≠ [] ∧ ∀ c ∈ name, c.isAlphanum

/-- The next character, if there is one, is not of this class. -/
def Stops (p : Char → Bool) (text : List Char) : Prop := ∀ c ∈ text.head?, p c = false

def isSign (c : Char) : Bool := c == '+' || c == '-'

/-- A symbol does not start as a number does. -/
inductive SymbolText : List Char → Prop where
  | mk {first : Char} {others : List Char} : isSymbolStart first →
      (∀ c ∈ others, isSymbolPart c) → (isSign first → Stops Char.isDigit others) →
      SymbolText (first :: others)

/-! ## Nodes -/

inductive AtomText (admits : Numeral → Prop) (span : Location) : List Char → Node → Prop where
  | string {value text : List Char} : QuotedText value text →
      AtomText admits span ('"' :: (text ++ ['"'])) (.string span (String.ofList value))
  | key {name : List Char} : KeyText name →
      AtomText admits span ('@' :: name) (.key span (String.ofList name))
  | number {numeral : Numeral} {text : List Char} : NumeralText numeral text → admits numeral →
      AtomText admits span text (.number span numeral.value)
  | symbol {name : List Char} : SymbolText name →
      AtomText admits span name (.symbol span (String.ofList name))

/-- Nothing in the text of a bare node shows where it ends. -/
def Node.IsBare : Node → Prop
  | .list _ _ | .string _ _ => False
  | .symbol _ _ | .number _ _ | .key _ _ => True

/-- A bare node may stand before this text. -/
def Delimited (text : List Char) : Prop := ∀ c ∈ text.head?, isDelimiter c

/-- Blanks and nodes in any order. -/
inductive Reads (admits : Numeral → Prop) :
    List Char → Position → List Char → List Node → Prop where
  | nil {after : List Char} {p : Position} : Reads admits after p [] []
  | blank {after text : List Char} {p : Position} {c : Char} {nodes : List Node} : isBlank c →
      Reads admits after (p.advance c) text nodes → Reads admits after p (c :: text) nodes
  | atom {after word text : List Char} {p : Position} {node : Node} {nodes : List Node} :
      AtomText admits ⟨p, p.advanceAll word⟩ word node →
      (node.IsBare → Delimited (text ++ after)) →
      Reads admits after (p.advanceAll word) text nodes →
      Reads admits after p (word ++ text) (node :: nodes)
  | list {after inside text : List Char} {p stop : Position} {children nodes : List Node} :
      Reads admits [')'] (p.advance '(') inside children →
      stop = ((p.advance '(').advanceAll inside).advance ')' →
      Reads admits after stop text nodes →
      Reads admits after p ('(' :: (inside ++ ')' :: text)) (.list ⟨p, stop⟩ children :: nodes)

mutual

/-- How deep lists are nested in a node. -/
def Node.depth : Node → Nat
  | .list _ children => Node.depthAll children + 1
  | .symbol _ _ | .string _ _ | .number _ _ | .key _ _ => 0

def Node.depthAll : List Node → Nat
  | [] => 0
  | node :: nodes => max node.depth (Node.depthAll nodes)

end

/-- The value is a number that a script can write. -/
def Numeral.IsFinite (n : Numeral) : Prop := n.value.isFinite

/-- The reading of a script: numbers are finite, and lists are not nested too deep. -/
def IsReading (source : String) (nodes : List Node) : Prop :=
  Reads Numeral.IsFinite [] .start source.toList nodes ∧
    Node.depthAll nodes ≤ nestingLimit

end HandlerScript
