import HandlerScript.Json
import HandlerScript.Proofs.NumeralText

/-!
# The grammar of JSON

Which text stands for which value, without a word on how values are written or texts are read. A
relation here takes a text to what it starts with and to what is left of it after that.

Every text that stands for a value here is JSON. Two kinds of JSON numbers stand for none: whole
numbers with a minus sign, and those that no finite float is near.
-/

namespace HandlerScript.Json

/-! ## Strings -/

/-- What a letter after a backslash stands for. -/
def unescape : Char → Option Char
  | '"' => some '"'
  | '\\' => some '\\'
  | '/' => some '/'
  | 'b' => some '\x08'
  | 'f' => some '\x0c'
  | 'n' => some '\n'
  | 'r' => some '\r'
  | 't' => some '\t'
  | _ => none

/-- The value of a hexadecimal digit, in either case. -/
def hexValue (c : Char) : Option Nat :=
  (List.range 16).find? fun n => c = Nat.digitChar n || c = (Nat.digitChar n).toUpper

def hexNumber (digits : List Char) : Option Nat :=
  digits.foldlM (fun number c => (hexValue c).map (16 * number + ·)) 0

/-- Four hexadecimal digits, and their number. -/
def CodeText (number : Nat) (digits : List Char) : Prop :=
  digits.length = 4 ∧ hexNumber digits = some number

/-- A character, and what stands for it in a string. Outside of the first plane it takes two codes. -/
inductive CharText : Char → List Char → Prop where
  | plain {c : Char} : c ≠ '"' → c ≠ '\\' → 0x20 ≤ c.toNat → CharText c [c]
  | letter {escaped c : Char} : unescape escaped = some c → CharText c ['\\', escaped]
  | code {digits : List Char} {number : Nat} : CodeText number digits → number.isValidChar →
      CharText (Char.ofNat number) ('\\' :: 'u' :: digits)
  | pair {digits digits' : List Char} {high low : Nat} : CodeText (0xd800 + high) digits →
      CodeText (0xdc00 + low) digits' → high < 0x400 → low < 0x400 →
      CharText (Char.ofNat (0x10000 + 0x400 * high + low))
        ('\\' :: 'u' :: (digits ++ '\\' :: 'u' :: digits'))

/-- The inside of a string, and the quote after it. -/
inductive InsideText : List Char → List Char → List Char → Prop where
  | nil {left : List Char} : InsideText ('"' :: left) [] left
  | cons {word text value left : List Char} {c : Char} : CharText c word →
      InsideText text value left → InsideText (word ++ text) (c :: value) left

/-! ## Values -/

inductive WordText : Json → List Char → Prop where
  | null : WordText .null ['n', 'u', 'l', 'l']
  | true : WordText (.bool true) ['t', 'r', 'u', 'e']
  | false : WordText (.bool false) ['f', 'a', 'l', 's', 'e']

/-- A number is real if it has a point or an exponent. There is no plus sign in front, and no zero
before other digits. -/
inductive NumberText : Json → List Char → Prop where
  | natural (value : Nat) : NumberText (.natural value) (Nat.toDigits 10 value)
  | real {n : Numeral} {text : List Char} : NumeralText n text → text.head? ≠ some '+' →
      (n.whole.head? = some '0' → n.whole = ['0']) → (∃ c ∈ text, isPoint c ∨ isExponent c) →
      n.IsFinite → NumberText (.real n.value) text

/-- Any number of blanks, and what is left after them. -/
def Blanks (text left : List Char) : Prop :=
  ∃ blanks, (∀ c ∈ blanks, isBlank c) ∧ text = blanks ++ left

/-- Entries with commas between them, and the closing bracket. -/
inductive Entries {α : Type} (entry : List Char → α → List Char → Prop) (closing : Char) :
    List Char → List α → List Char → Prop where
  | none {text left : List Char} : Blanks text (closing :: left) → Entries entry closing text [] left
  | last {text start stop left : List Char} {a : α} : Blanks text start → entry start a stop →
      Blanks stop (closing :: left) → Entries entry closing text [a] left
  | next {text start stop rest left : List Char} {a : α} {entries : List α} : Blanks text start →
      entry start a stop → Blanks stop (',' :: rest) → Entries entry closing rest entries left →
      entries ≠ [] → Entries entry closing text (a :: entries) left

/-- A name, a colon and a value. -/
inductive FieldText (value : List Char → Json → List Char → Prop) :
    List Char → String × Json → List Char → Prop where
  | mk {text stop rest start left : List Char} {name : String} {v : Json} :
      InsideText text name.toList stop → Blanks stop (':' :: rest) → Blanks rest start →
      value start v left → FieldText value ('"' :: text) (name, v) left

inductive ValueText : List Char → Json → List Char → Prop where
  | word {v : Json} {text left : List Char} : WordText v text → ValueText (text ++ left) v left
  | number {v : Json} {text left : List Char} : NumberText v text → ValueText (text ++ left) v left
  | string {text left : List Char} {value : String} : InsideText text value.toList left →
      ValueText ('"' :: text) (.string value) left
  | array {text left : List Char} {items : List Json} : Entries ValueText ']' text items left →
      ValueText ('[' :: text) (.array items) left
  | object {text left : List Char} {fields : List (String × Json)} :
      Entries (FieldText ValueText) '}' text fields left →
      ValueText ('{' :: text) (.object fields) left

/-- The text is JSON, and stands for this value. -/
def Denotes (text : String) (v : Json) : Prop :=
  ∃ start stop, Blanks text.toList start ∧ ValueText start v stop ∧ Blanks stop []

end HandlerScript.Json
