import HandlerScript.Proofs.Choice

/-!
# Where reading gives up

A script that cannot be read starts with a text that can: blanks and nodes, an open list with blanks
and nodes in it, an open list in that, and so on, up to a place where no node can be read. `Stall`
lists what such a place looks like, and `Breaks` the way to it.
-/

namespace HandlerScript

/-! ## Stalls -/

/-- No node starts with this character, and it is not for the list around it either. -/
def StartsNothing (c : Char) : Prop :=
  isSymbolStart c = false ∧ c.isDigit = false ∧ isBlank c = false ∧ c ∉ ['(', ')', '"', '@']

/-- What was taken of a node inside of this many lists, what is left, and the fault. -/
inductive Stall (lists : Nat) : List Char → List Char → Fault → Prop where
  | unclosed : 0 < lists → Stall lists [] [] .listTerminator
  | unopened {left : List Char} : lists = 0 → Stall lists [] (')' :: left) .unexpectedClose
  | tooDeep {left : List Char} : nestingLimit ≤ lists →
      Stall lists [] ('(' :: left) .nestingTooDeep
  | noNode {c : Char} {left : List Char} : StartsNothing c → Stall lists [] (c :: left) .expression
  | unterminated {value inside : List Char} : QuotedText value inside →
      Stall lists ('"' :: inside) [] .unterminatedString
  | unescaped {value inside : List Char} : QuotedText value inside →
      Stall lists ('"' :: (inside ++ ['\\'])) [] .unterminatedString
  | badEscape {escaped : Char} {value inside left : List Char} : QuotedText value inside →
      (∀ decoded, ¬ Escape escaped decoded) →
      Stall lists ('"' :: (inside ++ ['\\'])) (escaped :: left) (.invalidEscape escaped)
  | unnamed {left : List Char} : Stops Char.isAlphanum left → Stall lists ['@'] left .keyName
  | gluedKey {name left : List Char} : KeyText name → Stops Char.isAlphanum left →
      ¬ Delimited left → Stall lists ('@' :: name) left .malformedKeyName
  | brokenNumeral {text left : List Char} : NumeralBreak text left →
      Stall lists text left .malformedNumber
  | gluedNumeral {n : Numeral} {text left : List Char} : NumeralRun n text left →
      ¬ Delimited left → Stall lists text left .malformedNumber
  | outOfRange {n : Numeral} {text left : List Char} : NumeralText n text → Delimited left →
      n.value.isFinite = false → Stall lists text left .malformedNumber
  | gluedSymbol {name left : List Char} : SymbolText name → Stops isSymbolPart left →
      ¬ Delimited left → Stall lists name left .malformedSymbol

/-- The scope that a reader enters before it can find this fault. -/
def Fault.scope (start : Position) : Fault → List Scope
  | .unterminatedString | .invalidEscape _ => [⟨.string, start⟩]
  | .keyName | .malformedKeyName => [⟨.keyName, start⟩]
  | _ => []

/-- How reading stood when it gave up on a node that starts at `p`. -/
structure Failure.Halts (f : Failure) (scopes : List Scope) (p : Position)
    (taken left : List Char) : Prop where
  reader : f.reader = ⟨⟨p.advanceAll taken, left⟩, f.fault.scope p ++ scopes⟩
  origin : f.fault = .malformedNumber → f.origin = ⟨p, taken ++ left⟩

/-! ## The way to a stall -/

def listsIn (scopes : List Scope) : Nat := scopes.countP (·.kind = .list)

def scopesAt (scopes : List Scope) (p : Position) : List Scope :=
  if scopes = [] then [⟨.topLevel, p⟩] else scopes

/-- Reading `read` and then `left`, inside of `scopes` and from `p` on, fails with `left` still to be
read. -/
inductive Breaks (f : Failure) (left : List Char) : List Scope → Position → List Char → Prop where
  | stall {scopes : List Scope} {p q : Position} {done taken : List Char} {nodes : List Node} :
      Reads Numeral.IsFinite (taken ++ left) p done nodes →
      listsIn scopes + Node.depthAll nodes ≤ nestingLimit → q = p.advanceAll done →
      Stall (listsIn scopes) taken left f.fault → f.Halts (scopesAt scopes q) q taken left →
      Breaks f left scopes p (done ++ taken)
  | list {scopes : List Scope} {p q : Position} {done read : List Char} {nodes : List Node} :
      Reads Numeral.IsFinite ('(' :: (read ++ left)) p done nodes →
      listsIn scopes + Node.depthAll nodes ≤ nestingLimit → q = p.advanceAll done →
      listsIn scopes < nestingLimit →
      Breaks f left (⟨.list, q⟩ :: scopesAt scopes q) (q.advance '(') read →
      Breaks f left scopes p (done ++ '(' :: read)

theorem Breaks.cursor {f : Failure} {left read : List Char} {scopes : List Scope} {p : Position}
    (h : Breaks f left scopes p read) : f.reader.cursor = ⟨p.advanceAll read, left⟩ := by
  induction h with
  | stall _ _ hq _ hhalts => rw [hhalts.reader, hq, Position.advanceAll_append]
  | list _ _ hq _ _ ih => rw [ih, hq, Position.advanceAll_append, Position.advanceAll_cons]

end HandlerScript
