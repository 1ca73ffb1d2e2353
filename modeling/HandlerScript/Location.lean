/-!
# Positions and locations

A position is a row and a column, both counted from 1. Columns count characters, and only a line feed
starts a new row. A location runs from one position to another, the second just past its last character.

A renderer wants offsets into the UTF-8 text instead. A position past the end of its row stands for the
end of the row, and a row past the last one for the end of the text.
-/

namespace HandlerScript

/-- A place between two characters of a script. -/
structure Position where
  row : Nat
  col : Nat
  deriving DecidableEq, Repr, Inhabited

namespace Position

/-- The place before the first character. -/
def start : Position := ⟨1, 1⟩

/-- The place after `c`, when the place before it is `p`. -/
def advance (p : Position) (c : Char) : Position :=
  if c = '\n' then ⟨p.row + 1, 1⟩ else ⟨p.row, p.col + 1⟩

/-- The place after a text. -/
def advanceAll (p : Position) (text : List Char) : Position := text.foldl advance p

@[simp] theorem advanceAll_nil (p : Position) : p.advanceAll [] = p := rfl

@[simp] theorem advanceAll_cons (p : Position) (c : Char) (text : List Char) :
    p.advanceAll (c :: text) = (p.advance c).advanceAll text := rfl

theorem advanceAll_append (p : Position) (s t : List Char) :
    p.advanceAll (s ++ t) = (p.advanceAll s).advanceAll t := List.foldl_append

theorem advanceAll_between (p : Position) (first last : Char) (inside : List Char) :
    p.advanceAll (first :: (inside ++ [last])) =
      ((p.advance first).advanceAll inside).advance last := by
  rw [advanceAll_cons, advanceAll_append]
  rfl

/-! ## Order: rows first -/

instance : LE Position := ⟨fun p q => p.row < q.row ∨ p.row = q.row ∧ p.col ≤ q.col⟩
instance : LT Position := ⟨fun p q => p.row < q.row ∨ p.row = q.row ∧ p.col < q.col⟩

theorem le_def {p q : Position} : p ≤ q ↔ p.row < q.row ∨ p.row = q.row ∧ p.col ≤ q.col := Iff.rfl
theorem lt_def {p q : Position} : p < q ↔ p.row < q.row ∨ p.row = q.row ∧ p.col < q.col := Iff.rfl

instance (p q : Position) : Decidable (p ≤ q) := decidable_of_iff _ le_def.symm
instance (p q : Position) : Decidable (p < q) := decidable_of_iff _ lt_def.symm

instance : Ord Position := ⟨fun p q => (compare p.row q.row).then (compare p.col q.col)⟩

/-! ## Text -/

/-- The row and the column with a colon between them. -/
def text (p : Position) : String := toString p.row ++ ":" ++ toString p.col

instance : ToString Position := ⟨text⟩

end Position

/-! ## Locations -/

/-- A stretch of a script. Locations made by hand may start after they stop. -/
structure Location where
  start : Position
  stop : Position
  deriving DecidableEq, Repr, Inhabited

namespace Location

/-- `a.Contains b` when `b` lies within `a`. -/
def Contains (a b : Location) : Prop := a.start ≤ b.start ∧ b.stop ≤ a.stop

instance (a b : Location) : Decidable (a.Contains b) :=
  inferInstanceAs (Decidable (a.start ≤ b.start ∧ b.stop ≤ a.stop))

/-- The two positions with a dash between them. -/
def text (l : Location) : String := l.start.text ++ "-" ++ l.stop.text

instance : ToString Location := ⟨text⟩

end Location

/-! ## Byte ranges -/

/-- How many bytes a text takes in UTF-8. -/
def byteLength (text : List Char) : Nat := text.foldr (fun c bytes => c.utf8Size + bytes) 0

/-- The text after the `n`-th line feed, with the byte offset it starts at; `offset` is where
the given text starts. -/
def afterLineFeeds : (n offset : Nat) → List Char → Option (Nat × List Char)
  | 0, offset, text => some (offset, text)
  | _ + 1, _, [] => none
  | n + 1, offset, c :: text =>
    afterLineFeeds (if c = '\n' then n else n + 1) (offset + c.utf8Size) text

/-- How many line feeds stand before a row. Rows count from 1, and row 0 stands for the last. -/
def lineFeedsBefore (source : List Char) (row : Nat) : Nat :=
  if row = 0 then source.count '\n' else row - 1

/-- The byte offset of a position. -/
def Position.byteOffset (p : Position) (source : List Char) : Nat :=
  match afterLineFeeds (lineFeedsBefore source p.row) 0 source with
  | none => byteLength source
  | some (offset, text) =>
    offset + byteLength ((text.takeWhile (· ≠ '\n')).take (p.col - 1))

/-- First and last byte offset of a location; one that stops before it starts is empty. -/
def Location.byteRange (l : Location) (source : String) : Nat × Nat :=
  let first := l.start.byteOffset source.toList
  (first, max (l.stop.byteOffset source.toList) first)

end HandlerScript
