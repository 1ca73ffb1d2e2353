import HandlerScript.Proofs.Boundary

/-!
# Reading strings

The inside of a string is cut into characters and escapes in one way only, so the quote that ends it
is determined by the text.
-/

namespace HandlerScript

theorem unescape_eq_some_iff (escaped decoded : Char) :
    unescape escaped = some decoded ↔ Escape escaped decoded := by
  constructor
  · intro h
    unfold unescape at h
    split at h
    · cases h; exact .lineFeed
    · cases h; exact .tab
    · cases h; exact .quote
    · cases h; exact .backslash
    · simp at h
  · rintro (_ | _ | _ | _) <;> rfl

theorem Escape.unique {escaped decoded decoded' : Char} (h : Escape escaped decoded)
    (h' : Escape escaped decoded') : decoded = decoded' := by
  rw [← unescape_eq_some_iff] at h h'
  exact Option.some.inj (h.symm.trans h')

/-! ## One way to cut a string -/

theorem QuotedText.cut {value text value' text' rest left : List Char} (h : QuotedText value text)
    (h' : QuotedText value' text') (heq : text' ++ '"' :: left = text ++ rest) :
    ∃ value'' text'', value' = value ++ value'' ∧ text' = text ++ text'' ∧
      QuotedText value'' text'' := by
  induction h generalizing value' text' with
  | nil => exact ⟨value', text', rfl, rfl, h'⟩
  | @plain c value text hquote hback _ ih =>
    cases h' with
    | nil => exact absurd (List.cons.inj heq).1.symm hquote
    | plain _ _ h' =>
      simp only [List.cons_append, List.cons.injEq] at heq
      obtain ⟨rfl, heq⟩ := heq
      obtain ⟨value'', text'', rfl, rfl, h''⟩ := ih h' heq
      exact ⟨value'', text'', rfl, rfl, h''⟩
    | escape => exact absurd (List.cons.inj heq).1.symm hback
  | @escape escaped decoded value text hescape _ ih =>
    cases h' with
    | nil => simp at heq
    | plain _ hback => exact absurd (List.cons.inj heq).1 hback
    | escape hescape' h' =>
      simp only [List.cons_append, List.cons.injEq, true_and] at heq
      obtain ⟨rfl, heq⟩ := heq
      obtain rfl := hescape.unique hescape'
      obtain ⟨value'', text'', rfl, rfl, h''⟩ := ih h' heq
      exact ⟨value'', text'', rfl, rfl, h''⟩

theorem QuotedText.unique {value text value' text' left left' : List Char}
    (h : QuotedText value text) (h' : QuotedText value' text')
    (heq : text ++ '"' :: left = text' ++ '"' :: left') : value = value' ∧ text = text' := by
  obtain ⟨value'', text'', rfl, rfl, h''⟩ := h.cut h' heq.symm
  cases h'' with
  | nil => simp
  | plain hquote =>
    simp only [List.append_assoc, List.append_cancel_left_eq] at heq
    exact absurd (List.cons.inj heq).1.symm hquote
  | escape => simp at heq

/-! ## What is read -/

theorem QuotedText.read_append {value text : List Char} (h : QuotedText value text) (p : Position)
    (rest : List Char) :
    Quoted.read p (text ++ rest) =
      value.foldr Quoted.push (Quoted.read (p.advanceAll text) rest) := by
  induction h generalizing p with
  | nil => rfl
  | plain hquote hback _ ih =>
    rw [List.cons_append, Quoted.read.eq_def]
    simp only [if_neg hquote, if_neg hback, ih]
    rfl
  | escape hescape _ ih =>
    rw [List.cons_append, List.cons_append, Quoted.read.eq_def]
    simp only [(unescape_eq_some_iff _ _).mpr hescape, ih]
    rfl

theorem Quoted.foldr_push_closed (value : List Char) (after : Cursor) :
    value.foldr Quoted.push (.closed [] after) = .closed value after := by
  induction value with
  | nil => rfl
  | cons c value ih => rw [List.foldr_cons, ih, Quoted.push]

theorem Quoted.foldr_push_unterminated (value : List Char) (halted : Cursor) :
    value.foldr Quoted.push (.unterminated halted) = .unterminated halted := by
  induction value with
  | nil => rfl
  | cons c value ih => rw [List.foldr_cons, ih, Quoted.push]

theorem Quoted.foldr_push_badEscape (value : List Char) (escaped : Char)
    (backslash halted : Cursor) :
    value.foldr Quoted.push (.badEscape escaped backslash halted) =
      .badEscape escaped backslash halted := by
  induction value with
  | nil => rfl
  | cons c value ih => rw [List.foldr_cons, ih, Quoted.push]

theorem QuotedText.read {value text : List Char} (h : QuotedText value text) (p : Position)
    (left : List Char) :
    Quoted.read p (text ++ '"' :: left) = .closed value ⟨(p.advanceAll text).advance '"', left⟩ := by
  have hquote : Quoted.read (p.advanceAll text) ('"' :: left) =
      .closed [] ⟨(p.advanceAll text).advance '"', left⟩ := by
    rw [Quoted.read.eq_def]
    rfl
  rw [h.read_append, hquote, Quoted.foldr_push_closed]

theorem QuotedText.read_unterminated {value text : List Char} (h : QuotedText value text)
    (p : Position) : Quoted.read p text = .unterminated ⟨p.advanceAll text, []⟩ := by
  have hread := h.read_append p []
  rwa [List.append_nil, Quoted.read, Quoted.foldr_push_unterminated] at hread

theorem QuotedText.read_unescaped {value text : List Char} (h : QuotedText value text)
    (p : Position) :
    Quoted.read p (text ++ ['\\']) = .unterminated ⟨p.advanceAll (text ++ ['\\']), []⟩ := by
  have hback : Quoted.read (p.advanceAll text) ['\\'] =
      .unterminated ⟨(p.advanceAll text).advance '\\', []⟩ := rfl
  rw [h.read_append, hback, Quoted.foldr_push_unterminated, Position.advanceAll_append]
  rfl

theorem QuotedText.read_badEscape {value text : List Char} {escaped : Char}
    (h : QuotedText value text) (hescape : ∀ decoded, ¬ Escape escaped decoded) (p : Position)
    (left : List Char) :
    Quoted.read p (text ++ '\\' :: escaped :: left) =
      .badEscape escaped ⟨p.advanceAll text, '\\' :: escaped :: left⟩
        ⟨(p.advanceAll text).advance '\\', escaped :: left⟩ := by
  have hnone : unescape escaped = none := by
    rw [Option.eq_none_iff_forall_ne_some]
    exact fun decoded hsome => hescape decoded ((unescape_eq_some_iff _ _).mp hsome)
  have hback : Quoted.read (p.advanceAll text) ('\\' :: escaped :: left) =
      .badEscape escaped ⟨p.advanceAll text, '\\' :: escaped :: left⟩
        ⟨(p.advanceAll text).advance '\\', escaped :: left⟩ := by
    rw [Quoted.read.eq_def]
    simp [hnone]
  rw [h.read_append, hback, Quoted.foldr_push_badEscape]

/-- What each end says about the text that was read. -/
def Quoted.Explains (p : Position) (text : List Char) : Quoted → Prop
  | .closed value after => ∃ inside left, text = inside ++ '"' :: left ∧ QuotedText value inside ∧
      after = ⟨(p.advanceAll inside).advance '"', left⟩
  | .unterminated halted => ∃ value inside, QuotedText value inside ∧
      (text = inside ∨ text = inside ++ ['\\']) ∧ halted = ⟨p.advanceAll text, []⟩
  | .badEscape escaped backslash halted => ∃ value inside left, QuotedText value inside ∧
      text = inside ++ '\\' :: escaped :: left ∧ (∀ decoded, ¬ Escape escaped decoded) ∧
      backslash = ⟨p.advanceAll inside, '\\' :: escaped :: left⟩ ∧
      halted = ⟨(p.advanceAll inside).advance '\\', escaped :: left⟩

theorem Quoted.Explains.push {p p' : Position} {char : Char} {text : List Char} {q : Quoted}
    (word : List Char)
    (hword : ∀ {value inside}, QuotedText value inside → QuotedText (char :: value) (word ++ inside))
    (hp : p' = p.advanceAll word) (h : q.Explains p' text) :
    (q.push char).Explains p (word ++ text) := by
  subst hp
  cases q with
  | closed value after =>
    obtain ⟨inside, left, rfl, hinside, rfl⟩ := h
    exact ⟨word ++ inside, left, by simp, hword hinside, by rw [Position.advanceAll_append]⟩
  | unterminated halted =>
    obtain ⟨value, inside, hinside, htext, rfl⟩ := h
    refine ⟨char :: value, word ++ inside, hword hinside, ?_, by rw [Position.advanceAll_append]⟩
    rcases htext with rfl | rfl
    · exact .inl rfl
    · exact .inr (by simp)
  | badEscape escaped backslash halted =>
    obtain ⟨value, inside, left, hinside, rfl, hescape, rfl, rfl⟩ := h
    exact ⟨char :: value, word ++ inside, left, hword hinside, by simp, hescape,
      by rw [Position.advanceAll_append], by rw [Position.advanceAll_append]⟩

theorem Quoted.read_explains (p : Position) (text : List Char) :
    (Quoted.read p text).Explains p text := by
  fun_induction Quoted.read p text with
  | case1 p => exact ⟨[], [], .nil, .inl rfl, rfl⟩
  | case2 p rest => exact ⟨[], rest, rfl, .nil, rfl⟩
  | case3 p => exact ⟨[], [], .nil, .inr rfl, rfl⟩
  | case4 p escaped rest hnone =>
    refine ⟨[], [], rest, .nil, rfl, ?_, rfl, rfl⟩
    intro decoded hescape
    rw [← unescape_eq_some_iff, hnone] at hescape
    simp at hescape
  | case5 p escaped rest decoded hsome _ ih =>
    exact ih.push ['\\', escaped]
      (fun h => .escape ((unescape_eq_some_iff _ _).mp hsome) h) rfl
  | case6 p char rest hquote hback ih =>
    exact ih.push [char] (fun h => .plain hquote hback h) rfl

end HandlerScript
