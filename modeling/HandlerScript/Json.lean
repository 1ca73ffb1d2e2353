import HandlerScript.Number.Digits

/-!
# JSON values and their text

The part of JSON that encodings need. Compact text has no blanks; indented text gives every entry
a line of its own, two spaces deeper than the value it belongs to.
-/

namespace HandlerScript

inductive Json where
  | null
  | bool (value : Bool)
  | natural (value : Nat)
  | real (value : Binary64)
  | string (value : String)
  | array (items : List Json)
  | object (fields : List (String × Json))
  deriving Repr, Inhabited

namespace Json

/-- Any float. JSON has no way to write one that is not finite, so it is null. -/
def float (x : Binary64) : Json := if x.isFinite then real x else null

/-! ## Scalars -/

/-- How floats are written: positional from `1e-5` up to `1e16`, and then never without a point. -/
def numberFormat : NumberFormat where
  tie := .even
  positional := fun power => -5 ≤ power ∧ power < 16
  wholeEnd := ['.', '0']

/-- A character inside a string. Control characters are escaped, by a letter if they have one, and
nothing else but the quote and the backslash is. -/
def escape (c : Char) : List Char :=
  if c = '"' then ['\\', '"']
  else if c = '\\' then ['\\', '\\']
  else if c = '\x08' then ['\\', 'b']
  else if c = '\x0c' then ['\\', 'f']
  else if c = '\n' then ['\\', 'n']
  else if c = '\r' then ['\\', 'r']
  else if c = '\t' then ['\\', 't']
  else if c.toNat < 0x20 then
    ['\\', 'u', '0', '0', Nat.digitChar (c.toNat / 16), Nat.digitChar (c.toNat % 16)]
  else [c]

def quote (value : String) : List Char := '"' :: (value.toList.flatMap escape ++ ['"'])

/-! ## Compact text -/

mutual

def compactChars : Json → List Char
  | null => "null".toList
  | bool value => (toString value).toList
  | natural value => Nat.toDigits 10 value
  | real value => numberFormat.write value
  | string value => quote value
  | array items => '[' :: ([','].intercalate (compactItems items) ++ [']'])
  | object fields => '{' :: ([','].intercalate (compactFields fields) ++ ['}'])

def compactItems : List Json → List (List Char)
  | [] => []
  | item :: items => item.compactChars :: compactItems items

def compactFields : List (String × Json) → List (List Char)
  | [] => []
  | (name, value) :: fields =>
    (quote name ++ ':' :: value.compactChars) :: compactFields fields

end

def compact (value : Json) : String := String.ofList value.compactChars

/-! ## Indented text -/

def newLine (depth : Nat) : List Char := '\n' :: List.replicate (2 * depth) ' '

/-- Entries on lines of their own, one level deeper than the brackets around them. -/
def block (depth : Nat) (opening closing : Char) (entries : List (List Char)) : List Char :=
  if entries = [] then [opening, closing]
  else
    opening :: (newLine (depth + 1) ++ (',' :: newLine (depth + 1)).intercalate entries ++
      newLine depth ++ [closing])

mutual

def indentedChars (depth : Nat) : Json → List Char
  | array items => block depth '[' ']' (indentedItems (depth + 1) items)
  | object fields => block depth '{' '}' (indentedFields (depth + 1) fields)
  | null => "null".toList
  | bool value => (toString value).toList
  | natural value => Nat.toDigits 10 value
  | real value => numberFormat.write value
  | string value => quote value

def indentedItems (depth : Nat) : List Json → List (List Char)
  | [] => []
  | item :: items => item.indentedChars depth :: indentedItems depth items

def indentedFields (depth : Nat) : List (String × Json) → List (List Char)
  | [] => []
  | (name, value) :: fields =>
    (quote name ++ ':' :: ' ' :: value.indentedChars depth) :: indentedFields depth fields

end

def indented (value : Json) : String := String.ofList (value.indentedChars 0)

end Json
end HandlerScript
