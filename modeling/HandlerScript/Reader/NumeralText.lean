import HandlerScript.Number.Binary64
import HandlerScript.Reader.Cursor

/-!
# Number literals in a script

A sign, digits, a point with digits, and an `e` with a sign and digits; all but the first digits
may be missing. A reading that breaks off leaves the point where a digit was wanted.
-/

namespace HandlerScript
namespace Cursor

/-- Whether a minus stands here, and the point after the sign, if there is one. -/
def sign (c : Cursor) : Bool × Cursor :=
  if c.peek = some '-' then (true, c.next)
  else if c.peek = some '+' then (false, c.next)
  else (false, c)

def digits (c : Cursor) : Except Cursor (List Char × Cursor) :=
  if c.takeWhile Char.isDigit = [] then .error c
  else .ok (c.takeWhile Char.isDigit, c.skipWhile Char.isDigit)

/-- The digits after a point; none if there is no point. -/
def fraction (c : Cursor) : Except Cursor (List Char × Cursor) :=
  if c.peek = some '.' then c.next.digits else .ok ([], c)

/-- The power of ten after an `e`; 0 if there is no `e`. -/
def power (c : Cursor) : Except Cursor (Int × Cursor) :=
  if c.peek = some 'e' ∨ c.peek = some 'E' then do
    let (negative, c) := c.next.sign
    let (digits, c) ← c.digits
    return (if negative then -digitsValue digits else digitsValue digits, c)
  else .ok (0, c)

def numeral (c : Cursor) : Except Cursor (Numeral × Cursor) := do
  let (negative, c) := c.sign
  let (whole, c) ← c.digits
  let (fraction, c) ← c.fraction
  let (power, c) ← c.power
  return (⟨negative, whole, fraction, power⟩, c)

/-- A literal begins here: a digit, or a sign and a digit. -/
def startsNumeral (c : Cursor) : Bool := c.sign.2.peek.any Char.isDigit

/-! ## Sizes -/

theorem size_sign_le (c : Cursor) : c.sign.2.size ≤ c.size := by
  unfold sign
  split
  · exact c.size_next_le
  · split
    · exact c.size_next_le
    · exact Nat.le_refl _

theorem size_digits_lt {c after : Cursor} {text : List Char} (h : c.digits = .ok (text, after)) :
    after.size < c.size := by
  unfold digits at h
  split at h
  · simp at h
  · next hne =>
    obtain ⟨rfl, rfl⟩ : c.takeWhile Char.isDigit = text ∧ c.skipWhile Char.isDigit = after := by
      simpa using h
    exact size_skipWhile_lt hne

theorem size_fraction_le {c after : Cursor} {text : List Char}
    (h : c.fraction = .ok (text, after)) : after.size ≤ c.size := by
  unfold fraction at h
  split at h
  · exact Nat.le_of_lt (Nat.lt_of_lt_of_le (size_digits_lt h) c.size_next_le)
  · obtain ⟨-, rfl⟩ : [] = text ∧ c = after := by simpa using h
    exact Nat.le_refl _

theorem size_power_le {c after : Cursor} {power : Int} (h : c.power = .ok (power, after)) :
    after.size ≤ c.size := by
  unfold Cursor.power at h
  split at h
  · cases hd : c.next.sign.2.digits with
    | error _ => simp [hd, bind, Except.bind] at h
    | ok found =>
      obtain ⟨-, rfl⟩ : _ ∧ found.2 = after := by
        simpa [hd, bind, Except.bind, pure, Except.pure] using h
      have hdigits : found.2.size < c.next.sign.2.size := size_digits_lt hd
      have := c.next.size_sign_le
      have := c.size_next_le
      omega
  · obtain ⟨-, rfl⟩ : 0 = power ∧ c = after := by simpa using h
    exact Nat.le_refl _

theorem size_numeral_lt {c after : Cursor} {n : Numeral} (h : c.numeral = .ok (n, after)) :
    after.size < c.size := by
  unfold numeral at h
  cases hw : c.sign.2.digits with
  | error _ => simp [hw, bind, Except.bind] at h
  | ok whole =>
    cases hf : whole.2.fraction with
    | error _ => simp [hw, hf, bind, Except.bind] at h
    | ok fraction =>
      cases hp : fraction.2.power with
      | error _ => simp [hw, hf, hp, bind, Except.bind] at h
      | ok power =>
        obtain ⟨-, rfl⟩ : _ ∧ power.2 = after := by
          simpa [hw, hf, hp, bind, Except.bind, pure, Except.pure] using h
        have := c.size_sign_le
        have : whole.2.size < c.sign.2.size := size_digits_lt hw
        have : fraction.2.size ≤ whole.2.size := size_fraction_le hf
        have : power.2.size ≤ fraction.2.size := size_power_le hp
        omega

end Cursor
end HandlerScript
