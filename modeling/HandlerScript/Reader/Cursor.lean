import HandlerScript.Location

/-!
# Characters and cursors

Blanks, delimiters and the characters of symbols are all ASCII: any other character can stand in a
string only. A cursor is a point in a script: the text still to be read and the position before it.
-/

namespace HandlerScript

/-! ## Character classes -/

/-- Blanks separate expressions and mean nothing else. -/
def isBlank (c : Char) : Bool := c == ' ' || c == '\t' || c == '\r' || c == '\n'

/-- Numbers, symbols and key names end before one of these, or where the script ends. -/
def isDelimiter (c : Char) : Bool := isBlank c || c == '(' || c == ')' || c == '"'

def isSymbolMark (c : Char) : Bool := c ∈ ['+', '-', '*', '/', '?', '=', '<', '>', '_', '!']

def isSymbolStart (c : Char) : Bool := c.isAlpha || isSymbolMark c

def isSymbolPart (c : Char) : Bool := c.isAlphanum || isSymbolMark c

theorem isSymbolPart_of_isSymbolStart (c : Char) (h : isSymbolStart c) : isSymbolPart c := by
  simp only [isSymbolStart, isSymbolPart, Char.isAlphanum, Bool.or_eq_true] at *
  exact h.elim (.inl ∘ .inl) .inr

/-! ## Cursors -/

structure Cursor where
  position : Position
  rest : List Char
  deriving DecidableEq, Repr, Inhabited

namespace Cursor

/-- The point before the first character. -/
def start (source : List Char) : Cursor := ⟨.start, source⟩

def size (c : Cursor) : Nat := c.rest.length

/-- The next character, if one is left. -/
def peek (c : Cursor) : Option Char := c.rest.head?

/-- The point after the next character; the end stays where it is. -/
def next (c : Cursor) : Cursor :=
  match c.rest with
  | [] => c
  | char :: rest => ⟨c.position.advance char, rest⟩

def takeWhile (p : Char → Bool) (c : Cursor) : List Char := c.rest.takeWhile p

def skipWhile (p : Char → Bool) (c : Cursor) : Cursor :=
  ⟨c.position.advanceAll (c.rest.takeWhile p), c.rest.dropWhile p⟩

/-- An atom may end here. -/
def atDelimiter (c : Cursor) : Bool := c.peek.all isDelimiter

/-! ## Sizes -/

theorem size_next_lt {c : Cursor} {char : Char} (h : c.peek = some char) :
    c.next.size < c.size := by
  cases hr : c.rest with
  | nil => simp [peek, hr] at h
  | cons a rest => simp [size, next, hr]

theorem size_next_le (c : Cursor) : c.next.size ≤ c.size := by
  cases hr : c.rest with
  | nil => simp [size, next, hr]
  | cons a rest => simp [size, next, hr]

theorem takeWhile_append_skipWhile (p : Char → Bool) (c : Cursor) :
    c.takeWhile p ++ (c.skipWhile p).rest = c.rest := List.takeWhile_append_dropWhile

theorem takeWhile_ne_nil {p q : Char → Bool} {c : Cursor} (h : c.peek.any q)
    (hpq : ∀ char, q char → p char) : c.takeWhile p ≠ [] := by
  cases hr : c.rest with
  | nil => simp [peek, hr] at h
  | cons a rest =>
    have : p a := hpq a (by simpa [peek, hr] using h)
    simp [takeWhile, hr, this]

theorem size_skipWhile_le (p : Char → Bool) (c : Cursor) : (c.skipWhile p).size ≤ c.size := by
  simpa [size, skipWhile] using (List.dropWhile_suffix p).length_le

theorem size_skipWhile_lt {p : Char → Bool} {c : Cursor} (h : c.takeWhile p ≠ []) :
    (c.skipWhile p).size < c.size := by
  have hlen := congrArg List.length (takeWhile_append_skipWhile p c)
  have hpos := List.length_pos_iff.mpr h
  simp only [List.length_append] at hlen
  simp only [size]
  omega

end Cursor

end HandlerScript
