import HandlerScript.Reader.Failure
import HandlerScript.Reader.NumeralText
import HandlerScript.Reader.Quoted
import HandlerScript.Tree

/-!
# Atoms

Strings, key names, numbers and symbols. All but strings have to end at a delimiter.

There are five kinds of node, and a reader tries them in order. An attempt that took nothing from
the script leaves room for the next one; an attempt that took something and failed settles the
matter.
-/

namespace HandlerScript

/-! ## Attempts -/

/-- What came of an attempt, made with `size` characters left. -/
inductive Attempt (size : Nat) where
  /-- A node was read, and something was taken for it. -/
  | read (node : Node) (next : Reader) (shorter : next.size < size)
  /-- It failed and took nothing. -/
  | refused (failure : Failure)
  /-- It failed after it had taken something. -/
  | failed (failure : Failure)

namespace Attempt

/-- Makes the second attempt when the first took nothing. If that takes nothing either, the
failure that got further is reported. -/
def orElse {size : Nat} (first : Attempt size) (second : Unit → Attempt size) : Attempt size :=
  match first with
  | .refused failure =>
    match second () with
    | .refused other => .refused (failure.or other)
    | settled => settled
  | settled => settled

/-- The node and the reader after it, or the failure of either kind. -/
def outcome {size : Nat} : Attempt size → Except Failure (Node × Reader)
  | .read node next _ => .ok (node, next)
  | .refused failure | .failed failure => .error failure

end Attempt

/-! ## Kinds of atoms -/

namespace Reader

/-- A quote, the inside of the string, and a quote. -/
def string (r : Reader) : Attempt r.size :=
  if hopen : r.peek = some '"' then
    let inside := (r.enter .string).next
    match hread : Quoted.read inside.position inside.cursor.rest with
    | .closed value after =>
      .read (.string ⟨r.position, after.position⟩ (String.ofList value)) (inside.moveTo after).leave
        (Nat.lt_trans (Quoted.size_after_lt hread) (Cursor.size_next_lt hopen))
    | .unterminated halted => .failed ((inside.moveTo halted).fail .unterminatedString)
    | .badEscape escaped backslash halted =>
      .failed ⟨.invalidEscape escaped, backslash, inside.moveTo halted⟩
  else .refused (r.fail .expression)

/-- An at sign and letters or digits. A bare at sign takes nothing, but its failure is that of a
reader inside the key name. -/
def keyName (r : Reader) : Attempt r.size :=
  if hat : r.peek = some '@' then
    let inside := (r.enter .keyName).next
    let name := inside.cursor.takeWhile Char.isAlphanum
    let after := inside.moveTo (inside.cursor.skipWhile Char.isAlphanum)
    if name = [] then .refused ⟨.keyName, r.cursor, inside⟩
    else if after.cursor.atDelimiter then
      .read (.key ⟨r.position, after.position⟩ (String.ofList name)) after.leave
        (Nat.lt_of_le_of_lt (Cursor.size_skipWhile_le _ _) (Cursor.size_next_lt hat))
    else .failed (after.fail .malformedKeyName)
  else .refused (r.fail .expression)

/-- A number literal. Once a digit is there it is a number or nothing; a value out of range is as
malformed as a wrong shape. -/
def number (r : Reader) : Attempt r.size :=
  if r.cursor.startsNumeral then
    match hread : r.cursor.numeral with
    | .error halted => .failed ⟨.malformedNumber, r.cursor, r.moveTo halted⟩
    | .ok (numeral, after) =>
      if after.atDelimiter ∧ numeral.value.isFinite then
        .read (.number ⟨r.position, after.position⟩ numeral.value) (r.moveTo after)
          (Cursor.size_numeral_lt hread)
      else .failed ⟨.malformedNumber, r.cursor, r.moveTo after⟩
  else .refused (r.fail .expression)

/-- A character that may start a symbol and those that may be part of one. -/
def symbol (r : Reader) : Attempt r.size :=
  let name := r.cursor.takeWhile isSymbolPart
  let after := r.moveTo (r.cursor.skipWhile isSymbolPart)
  if hstart : r.peek.any isSymbolStart then
    if after.cursor.atDelimiter then
      .read (.symbol ⟨r.position, after.position⟩ (String.ofList name)) after
        (Cursor.size_skipWhile_lt (Cursor.takeWhile_ne_nil hstart isSymbolPart_of_isSymbolStart))
    else .failed ⟨.malformedSymbol, r.cursor, after⟩
  else .refused (r.fail .expression)

end Reader

end HandlerScript
