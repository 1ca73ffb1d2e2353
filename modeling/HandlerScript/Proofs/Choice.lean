import HandlerScript.Proofs.Reading

/-!
# One choice instead of five attempts

Which attempt settles what a node is can be told from the next two characters, and the failures of
the other attempts leave no trace.
-/

namespace HandlerScript

/-! ## Attempts in order -/

namespace Attempt

variable {size : Nat} {first : Attempt size} {second : Unit → Attempt size} {failure : Failure}

/-- An attempt that took something, whatever came of it. -/
def Settles : Attempt size → Prop
  | .read _ _ _ | .failed _ => True
  | .refused _ => False

theorem orElse_of_settles (h : first.Settles) : first.orElse second = first := by
  cases first with
  | read | failed => rfl
  | refused => exact absurd h (by simp [Settles])

theorem refused_orElse (h : ∀ other, second () = .refused other → failure.or other = other) :
    (Attempt.refused failure).orElse second = second () := by
  rw [orElse]
  cases hsecond : second () with
  | read | failed => rfl
  | refused other => simp [h other hsecond]

theorem refused_orElse_of_settles (h : (second ()).Settles) :
    (Attempt.refused failure).orElse second = second () := by
  refine refused_orElse fun other hother => ?_
  rw [hother] at h
  exact h.elim

theorem orElse_refused (hsecond : second () = .refused failure)
    (h : ∀ other, first = .refused other → other.or failure = other) :
    first.orElse second = first := by
  cases hfirst : first with
  | read | failed => rfl
  | refused other => simp [orElse, hsecond, h other hfirst]

end Attempt

theorem Failure.or_self (f : Failure) : f.or f = f := by simp [Failure.or]

theorem Failure.expression_or_keyName {f g : Failure} (horigin : f.origin = g.origin)
    (hf : f.fault = .expression) (hg : g.fault = .keyName) : f.or g = g := by
  simp [Failure.or, horigin, hf, hg]

theorem Failure.or_expression {f g : Failure} (horigin : f.origin = g.origin)
    (hg : g.fault = .expression) : f.or g = f := by
  simp [Failure.or, horigin, hg]

/-! ## When an attempt takes nothing -/

namespace Reader

theorem list_refused {r : Reader} (h : r.peek ≠ some '(') :
    r.list = .refused (r.fail .expression) := by
  rw [list, dif_neg h]

theorem string_refused {r : Reader} (h : r.peek ≠ some '"') :
    r.string = .refused (r.fail .expression) := by
  rw [string, dif_neg h]

theorem keyName_refused {r : Reader} (h : r.peek ≠ some '@') :
    r.keyName = .refused (r.fail .expression) := by
  rw [keyName, dif_neg h]

theorem number_refused {r : Reader} (h : r.cursor.startsNumeral = false) :
    r.number = .refused (r.fail .expression) := by
  rw [number, if_neg (by simp [h])]

theorem symbol_refused {r : Reader} (h : r.peek.any isSymbolStart = false) :
    r.symbol = .refused (r.fail .expression) := by
  rw [symbol, dif_neg (by simp [h])]

theorem list_refusal {r : Reader} {failure : Failure} (h : r.list = .refused failure) :
    failure = r.fail .expression ∨ failure = r.fail .nestingTooDeep := by
  rw [list] at h
  split at h
  · split at h
    · split at h <;> simp at h
    · cases h
      exact .inr rfl
  · cases h
    exact .inl rfl

theorem list_or_expression {r : Reader} {failure : Failure} (h : r.list = .refused failure) :
    failure.or (r.fail .expression) = failure := by
  rcases list_refusal h with rfl | rfl <;> exact Failure.or_expression rfl rfl

theorem string_settles {r : Reader} (h : r.peek = some '"') : r.string.Settles := by
  rw [string, dif_pos h]
  simp only
  split <;> trivial

theorem keyName_refusal {r : Reader} (h : r.peek = some '@') {failure : Failure}
    (hrefused : r.keyName = .refused failure) :
    failure.origin = r.cursor ∧ failure.fault = .keyName := by
  rw [keyName, dif_pos h] at hrefused
  simp only at hrefused
  split at hrefused
  · cases hrefused
    exact ⟨rfl, rfl⟩
  · split at hrefused <;> simp at hrefused

theorem number_settles {r : Reader} (h : r.cursor.startsNumeral) : r.number.Settles := by
  rw [number, if_pos h]
  split
  · trivial
  · split <;> trivial

theorem symbol_settles {r : Reader} (h : r.peek.any isSymbolStart) : r.symbol.Settles := by
  rw [symbol, dif_pos h]
  split <;> trivial

/-! ## The choice -/

theorem startsNumeral_start (p : Position) (text : List Char) :
    (⟨.start, text⟩ : Cursor).startsNumeral = (⟨p, text⟩ : Cursor).startsNumeral := by
  cases text with
  | nil => rfl
  | cons c text =>
    by_cases hminus : c = '-'
    · subst hminus; rfl
    · by_cases hplus : c = '+'
      · subst hplus; rfl
      · simp [Cursor.startsNumeral, Cursor.sign, Cursor.peek, hminus, hplus]

theorem opening_cases (r : Reader) :
    (r.peek = some '(' ∧ opening r.cursor.rest = .list) ∨
    (r.peek = some '"' ∧ opening r.cursor.rest = .string) ∨
    (r.peek = some '@' ∧ opening r.cursor.rest = .key) ∨
    (r.peek ≠ some '(' ∧ r.peek ≠ some '"' ∧ r.peek ≠ some '@' ∧
      opening r.cursor.rest =
        if r.cursor.startsNumeral then .number
        else if r.peek.any isSymbolStart then .symbol
        else .other) := by
  have hstart : r.cursor.startsNumeral = (⟨.start, r.cursor.rest⟩ : Cursor).startsNumeral :=
    (startsNumeral_start _ _).symm
  rw [hstart]
  simp only [opening, peek, Cursor.peek]
  split
  · next h => exact .inl ⟨h, rfl⟩
  · next h => exact .inr (.inl ⟨h, rfl⟩)
  · next h => exact .inr (.inr (.inl ⟨h, rfl⟩))
  · next hlist hstring hkey => exact .inr (.inr (.inr ⟨hlist, hstring, hkey, rfl⟩))

theorem not_startsNumeral {r : Reader} {c : Char} (h : r.peek = some c) (hsign : isSign c = false)
    (hdigit : c.isDigit = false) : r.cursor.startsNumeral = false := by
  have hne := not_or.mp (mt (isSign_iff c).mpr (by simp [hsign]))
  have hpeek : r.cursor.peek = some c := h
  simp [Cursor.startsNumeral, Cursor.sign, hpeek, hne, hdigit]

theorem startsNumeral_of_isDigit {p : Position} {c : Char} {text : List Char} (h : c.isDigit) :
    (⟨p, c :: text⟩ : Cursor).startsNumeral := by
  have hne := not_or.mp (mt (isSign_iff c).mpr (by simp [isDigit_not_isSign h]))
  simp [Cursor.startsNumeral, Cursor.sign, Cursor.peek, hne, h]

theorem expression_orElse_self (r : Reader) (size : Nat) :
    (Attempt.refused (r.fail .expression) : Attempt size).orElse
      (fun _ => .refused (r.fail .expression)) = .refused (r.fail .expression) := by
  simp [Attempt.orElse, Failure.or_self]

/-- The attempt that the next two characters call for is the only one that counts. -/
theorem node_eq (r : Reader) :
    r.node = match opening r.cursor.rest with
      | .list => r.list
      | .string => r.string
      | .key => r.keyName
      | .number => r.number
      | .symbol => r.symbol
      | .other => .refused (r.fail .expression) := by
  rw [node]
  rcases r.opening_cases with ⟨h, hopening⟩ | ⟨h, hopening⟩ | ⟨h, hopening⟩ |
    ⟨hlist, hstring, hkey, hopening⟩
  · have hnumber := number_refused (not_startsNumeral h (by decide) (by decide))
    have hsymbol : r.symbol = _ := symbol_refused (by rw [h]; decide)
    simp only [hopening, string_refused (r := r) (by simp [h]),
      keyName_refused (r := r) (by simp [h]), hnumber, hsymbol]
    repeat rw [Attempt.orElse_refused rfl fun _ => list_or_expression]
  · have hsettles := string_settles h
    simp only [hopening, list_refused (r := r) (by simp [h])]
    rw [Attempt.refused_orElse_of_settles hsettles]
    repeat rw [Attempt.orElse_of_settles hsettles]
  · have hnumber := number_refused (not_startsNumeral h (by decide) (by decide))
    have hsymbol : r.symbol = _ := symbol_refused (by rw [h]; decide)
    have hafter : ∀ failure, r.keyName = .refused failure →
        failure.or (r.fail .expression) = failure := fun failure hf =>
      Failure.or_expression (keyName_refusal h hf).1 rfl
    simp only [hopening, list_refused (r := r) (by simp [h]),
      string_refused (r := r) (by simp [h]), r.expression_orElse_self, hnumber, hsymbol]
    rw [Attempt.refused_orElse fun failure hf => Failure.expression_or_keyName
      (keyName_refusal h hf).1.symm rfl (keyName_refusal h hf).2]
    repeat rw [Attempt.orElse_refused rfl hafter]
  · simp only [hopening, list_refused hlist, string_refused hstring, keyName_refused hkey,
      r.expression_orElse_self]
    by_cases hnumber : r.cursor.startsNumeral
    · have hsettles := number_settles hnumber
      rw [Attempt.refused_orElse_of_settles hsettles, Attempt.orElse_of_settles hsettles]
      simp only [hnumber, if_true]
    · rw [number_refused (by simpa using hnumber), r.expression_orElse_self]
      by_cases hsymbol : r.peek.any isSymbolStart
      · rw [Attempt.refused_orElse_of_settles (symbol_settles hsymbol)]
        simp only [hnumber, hsymbol, Bool.false_eq_true, if_false, if_true]
      · rw [symbol_refused (by simpa using hsymbol), r.expression_orElse_self]
        simp only [hnumber, hsymbol, Bool.false_eq_true, if_false]

end Reader
end HandlerScript
