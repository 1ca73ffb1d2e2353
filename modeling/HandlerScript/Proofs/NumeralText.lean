import HandlerScript.Proofs.Boundary

/-!
# Reading number literals

The cursor reads the longest numeral that a text starts with. A `NumeralRun` is a numeral with a text
after it that does not go on with it, a `NumeralBreak` the start of one after which a digit is
missing; these two are all that reading a numeral can come to.
-/

namespace HandlerScript

def isPoint (c : Char) : Bool := c == '.'

def isExponent (c : Char) : Bool := c == 'e' || c == 'E'

theorem inner_isPoint : Inner isPoint := inner_of_all (by decide)
theorem inner_isExponent : Inner isExponent := inner_of_all (by decide)

theorem isExponent_iff (c : Char) : isExponent c ↔ c = 'e' ∨ c = 'E' := by simp [isExponent]

/-! ## Runs -/

inductive FractionRun : List Char → List Char → List Char → Prop where
  | none {left : List Char} : Stops isPoint left → FractionRun [] [] left
  | some {digits left : List Char} : Digits digits → Stops Char.isDigit left →
      FractionRun digits ('.' :: digits) left

inductive PowerRun : Int → List Char → List Char → Prop where
  | none {left : List Char} : Stops isExponent left → PowerRun 0 [] left
  | some {e : Char} {negative : Bool} {sign digits left : List Char} : isExponent e →
      SignText negative sign → Digits digits → Stops Char.isDigit left →
      PowerRun (if negative then -digitsValue digits else digitsValue digits)
        (e :: (sign ++ digits)) left

/-- A numeral, its text, and a text that does not go on with it. -/
inductive NumeralRun : Numeral → List Char → List Char → Prop where
  | mk {negative : Bool} {sign whole fraction fractionText powerText left : List Char}
      {power : Int} : SignText negative sign → Digits whole →
      Stops Char.isDigit (fractionText ++ (powerText ++ left)) →
      FractionRun fraction fractionText (powerText ++ left) → PowerRun power powerText left →
      NumeralRun ⟨negative, whole, fraction, power⟩
        (sign ++ (whole ++ (fractionText ++ powerText))) left

/-- The start of a numeral, and a text that does not go on with the digit it needs. -/
inductive NumeralBreak : List Char → List Char → Prop where
  | fraction {negative : Bool} {sign whole left : List Char} : SignText negative sign →
      Digits whole → Stops Char.isDigit left → NumeralBreak (sign ++ (whole ++ ['.'])) left
  | power {negative negative' : Bool} {e : Char}
      {sign whole fraction fractionText sign' left : List Char} : SignText negative sign →
      Digits whole → Stops Char.isDigit (fractionText ++ e :: (sign' ++ left)) →
      FractionRun fraction fractionText (e :: (sign' ++ left)) → isExponent e →
      SignText negative' sign' → (sign' = [] → Stops isSign left) → Stops Char.isDigit left →
      NumeralBreak (sign ++ (whole ++ (fractionText ++ e :: sign'))) left

/-! ## Runs and texts -/

theorem FractionRun.fractionText {digits text left : List Char}
    (h : FractionRun digits text left) : FractionText digits text := by
  cases h with
  | none => exact .none
  | some hdigits => exact .some hdigits

theorem PowerRun.powerText {power : Int} {text left : List Char} (h : PowerRun power text left) :
    PowerText power text := by
  cases h with
  | none => exact .none
  | some he hsign hdigits => exact .some ((isExponent_iff _).mp he) hsign hdigits

theorem NumeralRun.numeralText {n : Numeral} {text left : List Char} (h : NumeralRun n text left) :
    NumeralText n text := by
  obtain ⟨hsign, hwhole, _, hfraction, hpower⟩ := h
  exact .mk hsign hwhole hfraction.fractionText hpower.powerText

theorem PowerText.run {power : Int} {text left : List Char} (h : PowerText power text)
    (hleft : Delimited left) : PowerRun power text left := by
  cases h with
  | none => exact .none (hleft.stops inner_isExponent)
  | some he hsign hdigits =>
    exact .some ((isExponent_iff _).mpr he) hsign hdigits (hleft.stops inner_isDigit)

theorem PowerText.stops {power : Int} {text left : List Char} (h : PowerText power text)
    (hleft : Delimited left) {p : Char → Bool} (hp : Inner p) (he : p 'e' = false)
    (hE : p 'E' = false) : Stops p (text ++ left) := by
  cases h with
  | none => exact hleft.stops hp
  | some hexp =>
    rcases hexp with rfl | rfl
    · simpa using he
    · simpa using hE

theorem NumeralText.run {n : Numeral} {text left : List Char} (h : NumeralText n text)
    (hleft : Delimited left) : NumeralRun n text left := by
  obtain ⟨hsign, hwhole, hfraction, hpower⟩ := h
  have hdigit := hpower.stops hleft inner_isDigit (by decide) (by decide)
  have hpoint := hpower.stops hleft inner_isPoint (by decide) (by decide)
  cases hfraction with
  | none => exact .mk hsign hwhole hdigit (.none hpoint) (hpower.run hleft)
  | some hdigits =>
    exact .mk hsign hwhole (by simp) (.some hdigits hdigit) (hpower.run hleft)

theorem NumeralBreak.ne_nil {text left : List Char} (h : NumeralBreak text left) : text ≠ [] := by
  cases h <;> simp

theorem NumeralBreak.mended {text left : List Char} (h : NumeralBreak text left) :
    ∃ n, NumeralText n (text ++ ['0']) := by
  have hzero : Digits ['0'] := ⟨by simp, List.forall_mem_singleton.mpr rfl⟩
  cases h with
  | fraction hsign hwhole =>
    have := NumeralText.mk hsign hwhole (.some hzero) .none
    exact ⟨_, by simpa using this⟩
  | power hsign hwhole _ hfraction he hsign' =>
    have := NumeralText.mk hsign hwhole hfraction.fractionText
      (.some ((isExponent_iff _).mp he) hsign' hzero)
    exact ⟨_, by simpa using this⟩

/-! ## Another text after a run -/

/-- A class without delimiters that does not go on with `left` does not go on with `other`. -/
def StopsAlike (left other : List Char) : Prop := ∀ p, Inner p → Stops p left → Stops p other

theorem FractionRun.congr {digits text left other : List Char} (h : FractionRun digits text left)
    (halike : StopsAlike left other) : FractionRun digits text other := by
  cases h with
  | none hs => exact .none (halike _ inner_isPoint hs)
  | some hdigits hs => exact .some hdigits (halike _ inner_isDigit hs)

theorem PowerRun.congr {power : Int} {text left other : List Char} (h : PowerRun power text left)
    (halike : StopsAlike left other) : PowerRun power text other := by
  cases h with
  | none hs => exact .none (halike _ inner_isExponent hs)
  | some he hsign hdigits hs => exact .some he hsign hdigits (halike _ inner_isDigit hs)

theorem StopsAlike.append {left other : List Char} (h : StopsAlike left other)
    (text : List Char) : StopsAlike (text ++ left) (text ++ other) :=
  fun p hp => stops_append_of (h p hp)

theorem NumeralRun.congr {n : Numeral} {text left other : List Char}
    (h : NumeralRun n text left) (halike : StopsAlike left other) : NumeralRun n text other := by
  obtain ⟨hsign, hwhole, hstop, hfraction, hpower⟩ := h
  exact .mk hsign hwhole (((halike.append _).append _) _ inner_isDigit hstop)
    (hfraction.congr (halike.append _)) (hpower.congr halike)

theorem NumeralBreak.congr {text left other : List Char} (h : NumeralBreak text left)
    (halike : StopsAlike left other) : NumeralBreak text other := by
  cases h with
  | fraction hsign hwhole hs => exact .fraction hsign hwhole (halike _ inner_isDigit hs)
  | @power _ _ e _ _ _ fractionText sign' _ hsign hwhole hstop hfraction he hsign' hnosign hs =>
    have halike' : StopsAlike (e :: (sign' ++ left)) (e :: (sign' ++ other)) :=
      halike.append (e :: sign')
    exact .power hsign hwhole ((halike'.append _) _ inner_isDigit hstop) (hfraction.congr halike')
      he hsign' (fun hnil => halike _ inner_isSign (hnosign hnil)) (halike _ inner_isDigit hs)

theorem Digits.stops_isSign {digits : List Char} (h : Digits digits) (left : List Char) :
    Stops isSign (digits ++ left) := by
  obtain ⟨hne, hall⟩ := h
  cases digits with
  | nil => exact absurd rfl hne
  | cons c digits => simpa using isDigit_not_isSign (hall c List.mem_cons_self)

/-! ## What the cursor reads -/

namespace Cursor

def past (start : Position) (taken left : List Char) : Cursor := ⟨start.advanceAll taken, left⟩

theorem digits_run {start : Position} {run left : List Char} (hrun : Digits run)
    (hleft : Stops Char.isDigit left) :
    (⟨start, run ++ left⟩ : Cursor).digits = .ok (run, past start run left) := by
  rw [digits, takeWhile, takeWhile_run hrun.2 hleft, if_neg hrun.1, skipWhile_run hrun.2 hleft]
  rfl

theorem digits_stop {start : Position} {left : List Char} (hleft : Stops Char.isDigit left) :
    (⟨start, left⟩ : Cursor).digits = .error ⟨start, left⟩ := by
  rw [digits, takeWhile, if_pos]
  exact @takeWhile_run _ [] left (by simp) hleft

theorem digits_cases (start : Position) (text : List Char) :
    (Stops Char.isDigit text ∧ (⟨start, text⟩ : Cursor).digits = .error ⟨start, text⟩) ∨
      ∃ run left, text = run ++ left ∧ Digits run ∧ Stops Char.isDigit left ∧
        (⟨start, text⟩ : Cursor).digits = .ok (run, past start run left) := by
  have hsplit := List.takeWhile_append_dropWhile (p := Char.isDigit) (l := text)
  have hstop := stops_dropWhile Char.isDigit text
  by_cases hnil : text.takeWhile Char.isDigit = []
  · rw [hnil, List.nil_append] at hsplit
    rw [hsplit] at hstop
    exact .inl ⟨hstop, digits_stop hstop⟩
  · have hrun : Digits (text.takeWhile Char.isDigit) := ⟨hnil, forall_mem_takeWhile _ _⟩
    refine .inr ⟨_, _, hsplit.symm, hrun, hstop, ?_⟩
    have hread : (⟨start, _ ++ _⟩ : Cursor).digits = .ok (_, past start _ _) := digits_run hrun hstop
    rwa [hsplit] at hread

theorem sign_run {start : Position} {negative : Bool} {text left : List Char}
    (hsign : SignText negative text) (hleft : text = [] → Stops isSign left) :
    (⟨start, text ++ left⟩ : Cursor).sign = (negative, past start text left) := by
  cases hsign with
  | none =>
    have hnone := hleft rfl
    cases left with
    | nil => rfl
    | cons c left =>
      have hc : isSign c = false := by simpa using hnone
      have hplus : c ≠ '+' := by rintro rfl; exact absurd hc (by decide)
      have hminus : c ≠ '-' := by rintro rfl; exact absurd hc (by decide)
      simp [sign, peek, past, hplus, hminus]
  | plus => rfl
  | minus => rfl

theorem sign_digits {start : Position} {negative : Bool} {sign digits : List Char}
    (hsign : SignText negative sign) (hdigits : Digits digits) (left : List Char) :
    (⟨start, sign ++ (digits ++ left)⟩ : Cursor).sign =
      (negative, past start sign (digits ++ left)) :=
  sign_run hsign fun _ => hdigits.stops_isSign left

theorem sign_cases (start : Position) (text : List Char) :
    ∃ negative run left, text = run ++ left ∧ SignText negative run ∧
      (run = [] → Stops isSign left) ∧
      (⟨start, text⟩ : Cursor).sign = (negative, past start run left) := by
  cases text with
  | nil => exact ⟨false, [], [], rfl, .none, by simp, rfl⟩
  | cons c text =>
    by_cases hplus : c = '+'
    · subst hplus
      exact ⟨false, ['+'], text, rfl, .plus, by simp, sign_run .plus (by simp)⟩
    · by_cases hminus : c = '-'
      · subst hminus
        exact ⟨true, ['-'], text, rfl, .minus, by simp, sign_run .minus (by simp)⟩
      · have hstop : Stops isSign (c :: text) := by simp [isSign, hplus, hminus]
        exact ⟨false, [], c :: text, rfl, .none, fun _ => hstop, sign_run .none fun _ => hstop⟩

theorem fraction_run {start : Position} {digits text left : List Char}
    (h : FractionRun digits text left) :
    (⟨start, text ++ left⟩ : Cursor).fraction = .ok (digits, past start text left) := by
  cases h with
  | none hstop =>
    rw [fraction, if_neg]
    · rfl
    · intro hpeek
      cases left with
      | nil => simp [peek] at hpeek
      | cons c left =>
        obtain rfl : c = '.' := by simpa [peek] using hpeek
        exact absurd hstop (by simp [isPoint])
  | some hdigits hstop =>
    rw [fraction, if_pos (by rfl)]
    exact digits_run hdigits hstop

theorem fraction_cases (start : Position) (text : List Char) :
    (∃ left, text = '.' :: left ∧ Stops Char.isDigit left ∧
        (⟨start, text⟩ : Cursor).fraction = .error (past start ['.'] left)) ∨
      ∃ digits run left, text = run ++ left ∧ FractionRun digits run left ∧
        (⟨start, text⟩ : Cursor).fraction = .ok (digits, past start run left) := by
  by_cases hpoint : text.head? = some '.'
  · obtain ⟨tail, rfl⟩ : ∃ tail, text = '.' :: tail := by
      cases text with
      | nil => simp at hpoint
      | cons c tail => exact ⟨tail, by simpa using hpoint⟩
    rcases digits_cases (start.advance '.') tail with ⟨hstop, hread⟩ | ⟨run, left, rfl, hrun, hstop, -⟩
    · refine .inl ⟨tail, rfl, hstop, ?_⟩
      rw [fraction, if_pos (by rfl)]
      exact hread
    · exact .inr ⟨run, '.' :: run, left, rfl, .some hrun hstop, fraction_run (.some hrun hstop)⟩
  · have hstop : Stops isPoint text := by
      intro c hc
      simp only [isPoint, beq_eq_false_iff_ne]
      rintro rfl
      exact hpoint hc
    exact .inr ⟨[], [], text, rfl, .none hstop, fraction_run (.none hstop)⟩

theorem peek_exponent (start : Position) (text : List Char) :
    ((⟨start, text⟩ : Cursor).peek = some 'e' ∨ (⟨start, text⟩ : Cursor).peek = some 'E') ↔
      ¬ Stops isExponent text := by
  cases text with
  | nil => simp [peek]
  | cons c text => simp [peek, isExponent, Decidable.or_iff_not_imp_left]

theorem power_run {start : Position} {power : Int} {text left : List Char}
    (h : PowerRun power text left) :
    (⟨start, text ++ left⟩ : Cursor).power = .ok (power, past start text left) := by
  cases h with
  | none hstop =>
    rw [Cursor.power, if_neg (by rw [peek_exponent]; exact not_not_intro hstop)]
    rfl
  | @some e negative sign digits _ he hsign hdigits hstop =>
    have hread : (⟨start, e :: (sign ++ digits) ++ left⟩ : Cursor).next.sign =
        (negative, past (start.advance e) sign (digits ++ left)) := by
      rw [List.cons_append, List.append_assoc]
      exact sign_digits hsign hdigits left
    rw [Cursor.power, if_pos (by rw [peek_exponent]; simp [he]), hread]
    simp only [past, digits_run hdigits hstop]
    simp [bind, Except.bind, pure, Except.pure, Position.advanceAll_append]

theorem power_cases (start : Position) (text : List Char) :
    (∃ e negative sign left, text = e :: (sign ++ left) ∧ isExponent e ∧ SignText negative sign ∧
        (sign = [] → Stops isSign left) ∧ Stops Char.isDigit left ∧
        (⟨start, text⟩ : Cursor).power = .error (past start (e :: sign) left)) ∨
      ∃ power run left, text = run ++ left ∧ PowerRun power run left ∧
        (⟨start, text⟩ : Cursor).power = .ok (power, past start run left) := by
  by_cases hexp : Stops isExponent text
  · exact .inr ⟨0, [], text, rfl, .none hexp, power_run (.none hexp)⟩
  · obtain ⟨e, tail, rfl, he⟩ : ∃ e tail, text = e :: tail ∧ isExponent e := by
      cases text with
      | nil => simp at hexp
      | cons e tail => exact ⟨e, tail, rfl, by simpa using hexp⟩
    obtain ⟨negative, sign, rest, rfl, hsign, hnosign, hread⟩ := sign_cases (start.advance e) tail
    rcases digits_cases ((start.advance e).advanceAll sign) rest with
      ⟨hstop, hdigits⟩ | ⟨run, left, rfl, hrun, hstop, -⟩
    · refine .inl ⟨e, negative, sign, rest, rfl, he, hsign, hnosign, hstop, ?_⟩
      have hsigned : (⟨start, e :: (sign ++ rest)⟩ : Cursor).next.sign =
          (negative, past (start.advance e) sign rest) := hread
      rw [Cursor.power, if_pos ((peek_exponent _ _).mpr hexp), hsigned]
      simp [past, hdigits, bind, Except.bind]
    · have hpower : PowerRun _ _ left := .some he hsign hrun hstop
      exact .inr ⟨_, e :: (sign ++ run), left, by simp, hpower, by simpa using power_run hpower⟩

theorem numeral_run {n : Numeral} {text left : List Char} (h : NumeralRun n text left)
    (start : Position) :
    (⟨start, text ++ left⟩ : Cursor).numeral = .ok (n, past start text left) := by
  obtain ⟨hsign, hwhole, hstop, hfraction, hpower⟩ := h
  simp only [List.append_assoc]
  rw [numeral, sign_digits hsign hwhole]
  simp only [past, digits_run hwhole hstop, fraction_run hfraction, power_run hpower, bind,
    Except.bind, pure, Except.pure, Position.advanceAll_append]

theorem numeral_break {text left : List Char} (h : NumeralBreak text left) (start : Position) :
    (⟨start, text ++ left⟩ : Cursor).numeral = .error (past start text left) := by
  cases h with
  | fraction hsign hwhole hstop =>
    have hfraction : ∀ p, (⟨p, '.' :: left⟩ : Cursor).fraction = .error (past p ['.'] left) := by
      intro p
      rw [fraction, if_pos (by rfl)]
      exact digits_stop hstop
    simp only [List.append_assoc, List.cons_append, List.nil_append]
    rw [numeral, sign_digits hsign hwhole]
    have hpoint : Stops Char.isDigit ('.' :: left) := by simp
    simp only [past, digits_run hwhole hpoint, hfraction, bind, Except.bind,
      Position.advanceAll_append]
  | @power _ _ e _ _ _ _ sign' _ hsign hwhole hstop hfraction he hsign' hnosign hdigits =>
    have hpower : ∀ p, (⟨p, e :: (sign' ++ left)⟩ : Cursor).power =
        .error (past p (e :: sign') left) := by
      intro p
      have hsigned : (⟨p, e :: (sign' ++ left)⟩ : Cursor).next.sign =
          (_, past (p.advance e) sign' left) := sign_run hsign' hnosign
      rw [Cursor.power, if_pos (by rw [peek_exponent]; simp [he]), hsigned]
      simp [past, digits_stop hdigits, bind, Except.bind]
    simp only [List.append_assoc, List.cons_append]
    rw [numeral, sign_digits hsign hwhole]
    simp only [past, digits_run hwhole hstop, fraction_run hfraction, hpower, bind, Except.bind,
      Position.advanceAll_append]

theorem startsNumeral_of_digits {start : Position} {negative : Bool} {sign digits left : List Char}
    (hsign : SignText negative sign) (hdigits : Digits digits) :
    (⟨start, sign ++ (digits ++ left)⟩ : Cursor).startsNumeral := by
  rw [startsNumeral, sign_digits hsign hdigits]
  obtain ⟨hne, hall⟩ := hdigits
  cases digits with
  | nil => exact absurd rfl hne
  | cons c digits => simpa [past, peek] using hall c List.mem_cons_self

theorem numeral_cases {start : Position} {text : List Char}
    (h : (⟨start, text⟩ : Cursor).startsNumeral) :
    (∃ run left, text = run ++ left ∧ NumeralBreak run left ∧
        (⟨start, text⟩ : Cursor).numeral = .error (past start run left)) ∨
      ∃ n run left, text = run ++ left ∧ NumeralRun n run left ∧
        (⟨start, text⟩ : Cursor).numeral = .ok (n, past start run left) := by
  obtain ⟨negative, sign, rest, rfl, hsign, -, hread⟩ := sign_cases start text
  rw [startsNumeral, hread] at h
  rcases digits_cases (start.advanceAll sign) rest with ⟨hstop, -⟩ |
    ⟨whole, rest, rfl, hwhole, hwstop, -⟩
  · cases rest with
    | nil => simp [past, peek] at h
    | cons c rest => simp_all [past, peek]
  · rcases fraction_cases ((start.advanceAll sign).advanceAll whole) rest with
      ⟨left, rfl, hstop, -⟩ | ⟨fraction, fractionText, rest, rfl, hfraction, -⟩
    · have hbreak := NumeralBreak.fraction hsign hwhole hstop
      exact .inl ⟨_, left, by simp, hbreak, by simpa using numeral_break hbreak start⟩
    · rcases power_cases (((start.advanceAll sign).advanceAll whole).advanceAll fractionText) rest
        with ⟨e, _, sign', left, rfl, he, hsign', hnosign, hstop, -⟩ |
          ⟨power, powerText, left, rfl, hpower, -⟩
      · have hbreak := NumeralBreak.power hsign hwhole hwstop hfraction he hsign' hnosign hstop
        exact .inl ⟨_, left, by simp, hbreak, by simpa using numeral_break hbreak start⟩
      · have hrun := NumeralRun.mk hsign hwhole hwstop hfraction hpower
        exact .inr ⟨_, _, left, by simp, hrun, by simpa using numeral_run hrun start⟩

end Cursor

/-! ## Numerals are read in one way -/

theorem NumeralText.startsNumeral {n : Numeral} {text : List Char} (h : NumeralText n text)
    (start : Position) (left : List Char) : (⟨start, text ++ left⟩ : Cursor).startsNumeral := by
  obtain ⟨hsign, hwhole, -, -⟩ := h
  simpa using Cursor.startsNumeral_of_digits hsign hwhole

theorem NumeralBreak.startsNumeral {text left : List Char} (h : NumeralBreak text left)
    (start : Position) : (⟨start, text ++ left⟩ : Cursor).startsNumeral := by
  cases h with
  | fraction hsign hwhole => simpa using Cursor.startsNumeral_of_digits hsign hwhole
  | power hsign hwhole => simpa using Cursor.startsNumeral_of_digits hsign hwhole

theorem NumeralRun.unique {n n' : Numeral} {text text' left left' : List Char}
    (h : NumeralRun n text left) (h' : NumeralRun n' text' left')
    (heq : text ++ left = text' ++ left') : n = n' ∧ text = text' ∧ left = left' := by
  have hread := Cursor.numeral_run h .start
  rw [heq, Cursor.numeral_run h'] at hread
  simp only [Cursor.past, Except.ok.injEq, Prod.mk.injEq, Cursor.mk.injEq] at hread
  obtain ⟨rfl, -, rfl⟩ := hread
  exact ⟨rfl, List.append_cancel_right heq, rfl⟩

theorem NumeralBreak.not_run {n : Numeral} {text text' left left' : List Char}
    (h : NumeralBreak text left) (h' : NumeralRun n text' left') :
    text ++ left ≠ text' ++ left' := by
  intro heq
  have hread := Cursor.numeral_break h .start
  rw [heq, Cursor.numeral_run h'] at hread
  simp at hread

end HandlerScript
