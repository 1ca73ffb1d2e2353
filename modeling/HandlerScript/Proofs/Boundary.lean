import HandlerScript.Proofs.Grammar

/-!
# Where a literal ends

A run of characters of one class ends at the first character outside of it. Delimiters belong to
none of the classes that literals are made of, so a delimiter ends them all.
-/

namespace HandlerScript

/-! ## Character classes -/

theorem isDelimiter_iff (c : Char) :
    isDelimiter c ↔ c ∈ [' ', '\t', '\r', '\n', '(', ')', '"'] := by
  simp [isDelimiter, isBlank, or_assoc]

def Inner (p : Char → Bool) : Prop := ∀ c, isDelimiter c → p c = false

theorem Inner.not_isDelimiter {p : Char → Bool} {c : Char} (hp : Inner p) (h : p c) :
    isDelimiter c = false := by
  cases hd : isDelimiter c with
  | false => rfl
  | true => rw [hp c hd] at h; simp at h

theorem inner_of_all {p : Char → Bool}
    (h : [' ', '\t', '\r', '\n', '(', ')', '"'].all (!p ·)) : Inner p := by
  intro c hc
  simpa using List.all_eq_true.mp h c ((isDelimiter_iff c).mp hc)

theorem inner_isDigit : Inner Char.isDigit := inner_of_all (by decide)
theorem inner_isAlphanum : Inner Char.isAlphanum := inner_of_all (by decide)
theorem inner_isSymbolPart : Inner isSymbolPart := inner_of_all (by decide)
theorem inner_isSign : Inner isSign := inner_of_all (by decide)

theorem isDigit_isAlphanum {c : Char} (h : c.isDigit) : c.isAlphanum := by
  simp [Char.isAlphanum, h]

theorem isAlphanum_isSymbolPart {c : Char} (h : c.isAlphanum) : isSymbolPart c := by
  simp [isSymbolPart, h]

theorem isSign_iff (c : Char) : isSign c ↔ c = '+' ∨ c = '-' := by simp [isSign]

theorem isSign_isSymbolStart {c : Char} (h : isSign c) : isSymbolStart c := by
  rcases (isSign_iff c).mp h with rfl | rfl <;> decide

theorem isDigit_not_isAlpha {c : Char} (h : c.isDigit) : c.isAlpha = false := by
  have halpha : c.isAlpha = (decide ('A'.val ≤ c.val ∧ c.val ≤ 'Z'.val) ||
      (decide ('a'.val ≤ c.val) && decide (c.val ≤ 'z'.val))) := rfl
  simp only [halpha, Char.isDigit, Bool.and_eq_true, decide_eq_true_eq, Bool.or_eq_false_iff,
    Bool.and_eq_false_iff, decide_eq_false_iff_not, UInt32.le_iff_toNat_le, ge_iff_le] at *
  have : 'A'.val.toNat = 65 := rfl
  have : 'a'.val.toNat = 97 := rfl
  have : '9'.val.toNat = 57 := rfl
  simp_all only
  omega

theorem isDigit_not_isSymbolMark {c : Char} (h : c.isDigit) : isSymbolMark c = false := by
  simp only [isSymbolMark, decide_eq_false_iff_not, List.mem_cons, List.not_mem_nil, or_false]
  rintro (rfl | rfl | rfl | rfl | rfl | rfl | rfl | rfl | rfl | rfl) <;> exact absurd h (by decide)

theorem isDigit_not_isSymbolStart {c : Char} (h : c.isDigit) : isSymbolStart c = false := by
  simp [isSymbolStart, isDigit_not_isAlpha h, isDigit_not_isSymbolMark h]

theorem isDigit_not_isSign {c : Char} (h : c.isDigit) : isSign c = false := by
  cases hs : isSign c with
  | false => rfl
  | true => rw [← isDigit_not_isSymbolStart h, isSign_isSymbolStart hs]

/-! ## The next character -/

@[simp] theorem stops_nil (p : Char → Bool) : Stops p [] := by simp [Stops]

@[simp] theorem stops_cons (p : Char → Bool) (c : Char) (text : List Char) :
    Stops p (c :: text) ↔ p c = false := by simp [Stops]

@[simp] theorem delimited_nil : Delimited [] := by simp [Delimited]

@[simp] theorem delimited_cons (c : Char) (text : List Char) :
    Delimited (c :: text) ↔ isDelimiter c := by simp [Delimited]

theorem Delimited.stops {p : Char → Bool} {text : List Char} (h : Delimited text) (hp : Inner p) :
    Stops p text := fun c hc => hp c (h c hc)

theorem atDelimiter_iff (p : Position) (text : List Char) :
    (⟨p, text⟩ : Cursor).atDelimiter ↔ Delimited text := by
  simp [Cursor.atDelimiter, Cursor.peek, Delimited, Option.all_eq_true]

theorem stops_append_of {p : Char → Bool} {text left other : List Char}
    (h : Stops p left → Stops p other) (hs : Stops p (text ++ left)) : Stops p (text ++ other) := by
  cases text with
  | nil => exact h hs
  | cons c text => simpa using hs

theorem delimited_append_of {text left other : List Char}
    (h : Delimited left → Delimited other) (hd : Delimited (text ++ left)) :
    Delimited (text ++ other) := by
  cases text with
  | nil => exact h hd
  | cons c text => simpa using hd

/-! ## Runs -/

theorem takeWhile_run {p : Char → Bool} {run left : List Char} (hrun : ∀ c ∈ run, p c)
    (hleft : Stops p left) : (run ++ left).takeWhile p = run := by
  rw [List.takeWhile_append_of_pos hrun]
  cases left with
  | nil => simp
  | cons c left => simp [(stops_cons p c left).mp hleft]

theorem dropWhile_run {p : Char → Bool} {run left : List Char} (hrun : ∀ c ∈ run, p c)
    (hleft : Stops p left) : (run ++ left).dropWhile p = left := by
  rw [List.dropWhile_append_of_pos hrun]
  cases left with
  | nil => simp
  | cons c left => simp [(stops_cons p c left).mp hleft]

theorem stops_dropWhile (p : Char → Bool) (text : List Char) : Stops p (text.dropWhile p) := by
  induction text with
  | nil => simp
  | cons c text ih =>
    by_cases hc : p c
    · rwa [List.dropWhile_cons_of_pos hc]
    · rw [List.dropWhile_cons_of_neg hc]
      simpa using hc

theorem forall_mem_takeWhile (p : Char → Bool) (text : List Char) :
    ∀ c ∈ text.takeWhile p, p c := List.all_eq_true.mp List.all_takeWhile

theorem run_unique {p : Char → Bool} {run run' left left' : List Char} (hrun : ∀ c ∈ run, p c)
    (hleft : Stops p left) (hrun' : ∀ c ∈ run', p c) (hleft' : Stops p left')
    (heq : run ++ left = run' ++ left') : run = run' ∧ left = left' := by
  have htake := congrArg (List.takeWhile p) heq
  have hdrop := congrArg (List.dropWhile p) heq
  rw [takeWhile_run hrun hleft, takeWhile_run hrun' hleft'] at htake
  rw [dropWhile_run hrun hleft, dropWhile_run hrun' hleft'] at hdrop
  exact ⟨htake, hdrop⟩

theorem skipWhile_run {p : Char → Bool} {run left : List Char} {start : Position}
    (hrun : ∀ c ∈ run, p c) (hleft : Stops p left) :
    (⟨start, run ++ left⟩ : Cursor).skipWhile p = ⟨start.advanceAll run, left⟩ := by
  simp only [Cursor.skipWhile, takeWhile_run hrun hleft, dropWhile_run hrun hleft]

end HandlerScript
