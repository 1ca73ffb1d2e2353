import HandlerScript.Proofs.Outcome

/-!
# Looking ahead

Making the attempts one after the other comes to the same as making the one that the next two
characters call for. No attempt follows one that took something, and failures that are weighed against
each other were found at one point.
-/

namespace HandlerScript

/-! ## Attempts in a row -/

namespace Attempt

variable {size : Nat} {first attempt : Attempt size} {before after later : List (Attempt size)}

theorem orElse_of_not_settles {second : Unit → Attempt size} (h : ¬ first.Settles)
    (hsecond : (second ()).Settles) : first.orElse second = second () := by
  cases first with
  | read | failed => exact absurd trivial h
  | refused failure => exact refused_orElse_of_settles hsecond

theorem not_settles_orElse {second : Unit → Attempt size} (h : ¬ first.Settles)
    (hsecond : ¬ (second ()).Settles) : ¬ (first.orElse second).Settles := by
  cases first with
  | read | failed => exact absurd trivial h
  | refused failure =>
    rw [orElse]
    cases hother : second () with
    | read | failed =>
      rw [hother] at hsecond
      exact absurd trivial hsecond
    | refused other => exact id

theorem foldl_orElse_of_settles (h : first.Settles) (later : List (Attempt size)) :
    later.foldl (fun first second => first.orElse fun _ => second) first = first := by
  induction later with
  | nil => rfl
  | cons second later ih => rw [List.foldl_cons, orElse_of_settles h, ih]

/-- Of attempts made one after the other, the first that settles is the last one made. -/
theorem foldl_orElse_first (h : ¬ first.Settles) (hbefore : ∀ earlier ∈ before, ¬ earlier.Settles)
    (hattempt : attempt.Settles) :
    (before ++ attempt :: after).foldl (fun first second => first.orElse fun _ => second) first =
      attempt := by
  induction before generalizing first with
  | nil =>
    rw [List.nil_append, List.foldl_cons, orElse_of_not_settles h hattempt,
      foldl_orElse_of_settles hattempt]
  | cons second before ih =>
    obtain ⟨hsecond, hbefore⟩ := List.forall_mem_cons.mp hbefore
    exact ih (not_settles_orElse h hsecond) hbefore

end Attempt

namespace Reader

variable {r : Reader} {f : Failure} {before after : List ((r : Reader) → Attempt r.size)}
  {attempt : (r : Reader) → Attempt r.size}

/-! ## The choice -/

/-- What comes of the attempt that the next two characters call for, and of no other. -/
def foreseen (r : Reader) : Except Failure (Node × Reader) :=
  match r.cursor.rest with
  | [] => .error (r.fail .expression)
  | '(' :: _ => if r.openLists < nestingLimit then r.list.outcome else .error (r.fail .nestingTooDeep)
  | '"' :: _ => r.string.outcome
  | '@' :: _ => r.keyName.outcome
  | c :: rest =>
    if c.isDigit ∨ (isSign c ∧ rest.head?.any Char.isDigit) then r.number.outcome
    else if isSymbolStart c then r.symbol.outcome
    else .error (r.fail .expression)

theorem startsNumeral_cons_iff (p : Position) (c : Char) (rest : List Char) :
    (⟨p, c :: rest⟩ : Cursor).startsNumeral ↔
      c.isDigit ∨ (isSign c ∧ rest.head?.any Char.isDigit) := by
  by_cases hsign : isSign c
  · have hdigit : c.isDigit = false := by
      rcases (isSign_iff c).mp hsign with rfl | rfl <;> rfl
    have hafter : (⟨p, c :: rest⟩ : Cursor).sign.2 = ⟨p.advance c, rest⟩ := by
      rcases (isSign_iff c).mp hsign with rfl | rfl <;> rfl
    unfold Cursor.startsNumeral
    rw [hafter]
    cases rest <;> simp [Cursor.peek, hdigit, hsign]
  · have hne := not_or.mp (mt (isSign_iff c).mpr hsign)
    simp [Cursor.startsNumeral, Cursor.sign, Cursor.peek, hne, hsign]

theorem list_too_deep (h : r.peek = some '(') (hdeep : ¬ r.openLists < nestingLimit) :
    r.list = .refused (r.fail .nestingTooDeep) := by
  rw [list, dif_pos h]
  split
  · contradiction
  · rfl

theorem node_outcome_eq_foreseen (r : Reader) : r.node.outcome = r.foreseen := by
  have hnode := r.node_eq
  unfold foreseen
  split
  · next htext =>
    have hopening : opening r.cursor.rest = .other := by rw [htext]; rfl
    rw [hopening] at hnode
    rw [hnode]
    rfl
  · next rest htext =>
    have hopening : opening r.cursor.rest = .list := by rw [htext]; rfl
    rw [hopening] at hnode
    rw [hnode]
    by_cases hlimit : r.openLists < nestingLimit
    · rw [if_pos hlimit]
    · rw [if_neg hlimit, list_too_deep (congrArg List.head? htext) hlimit]
      rfl
  · next rest htext =>
    have hopening : opening r.cursor.rest = .string := by rw [htext]; rfl
    rw [hopening] at hnode
    rw [hnode]
  · next rest htext =>
    have hopening : opening r.cursor.rest = .key := by rw [htext]; rfl
    rw [hopening] at hnode
    rw [hnode]
  · next c rest hlist hstring hkey htext =>
    have hopening : opening r.cursor.rest =
        if c.isDigit ∨ (isSign c ∧ rest.head?.any Char.isDigit) then .number
        else if isSymbolStart c then .symbol
        else .other := by
      rw [htext, opening_cons (by simpa using hlist) (by simpa using hstring) (by simpa using hkey)]
      simp only [startsNumeral_cons_iff]
    rw [hopening] at hnode
    by_cases hnumber : c.isDigit ∨ (isSign c ∧ rest.head?.any Char.isDigit)
    · rw [if_pos hnumber] at hnode ⊢
      rw [hnode]
    rw [if_neg hnumber] at hnode ⊢
    by_cases hsymbol : isSymbolStart c
    · rw [if_pos hsymbol] at hnode ⊢
      rw [hnode]
    · rw [if_neg hsymbol] at hnode ⊢
      rw [hnode]
      rfl

/-! ## The first attempt that takes something -/

/-- The attempts in the order in which they are made. -/
def attempts : List ((r : Reader) → Attempt r.size) := [list, string, keyName, number, symbol]

theorem node_eq_foldl (r : Reader) :
    r.node = [r.string, r.keyName, r.number, r.symbol].foldl (fun first second =>
      first.orElse fun _ => second) r.list := by
  rw [node]
  rfl

theorem node_of_first_settles (h : attempts = before ++ attempt :: after)
    (hbefore : ∀ earlier ∈ before, ¬ (earlier r).Settles) (hattempt : (attempt r).Settles) :
    r.node = attempt r := by
  rw [node_eq_foldl]
  cases before with
  | nil =>
    obtain ⟨rfl, -⟩ := List.cons.inj h
    exact Attempt.foldl_orElse_of_settles hattempt _
  | cons first before =>
    obtain ⟨rfl, htail : [string, keyName, number, symbol] = before ++ attempt :: after⟩ :=
      List.cons.inj h
    obtain ⟨hfirst, hbefore⟩ := List.forall_mem_cons.mp hbefore
    have hlater := congrArg (List.map fun attempt => attempt r) htail
    rw [List.map_append, List.map_cons] at hlater
    refine (congrArg _ hlater).trans (Attempt.foldl_orElse_first hfirst ?_ hattempt)
    intro earlier hearlier
    obtain ⟨second, hsecond, rfl⟩ := List.mem_map.mp hearlier
    exact hbefore second hsecond

/-! ## Refusals -/

theorem refusal_origin : ∀ attempt ∈ attempts, attempt r = .refused f → f.origin = r.cursor := by
  simp only [attempts, List.forall_mem_cons, List.not_mem_nil, false_imp_iff, implies_true, and_true]
  have hexpression : ∀ {size : Nat}, (Attempt.refused (r.fail .expression) : Attempt size) =
      .refused f → f.origin = r.cursor := by
    rintro size ⟨⟩
    rfl
  refine ⟨fun h => ?_, fun h => ?_, fun h => ?_, fun h => ?_, fun h => ?_⟩
  · rcases list_refusal h with rfl | rfl <;> rfl
  · by_cases hpeek : r.peek = some '"'
    · exact absurd (string_settles hpeek) (by simp [h, Attempt.Settles])
    · exact hexpression ((string_refused hpeek).symm.trans h)
  · by_cases hpeek : r.peek = some '@'
    · exact (keyName_refusal hpeek h).1
    · exact hexpression ((keyName_refused hpeek).symm.trans h)
  · by_cases hnumber : r.cursor.startsNumeral
    · exact absurd (number_settles hnumber) (by simp [h, Attempt.Settles])
    · exact hexpression ((number_refused (by simpa using hnumber)).symm.trans h)
  · by_cases hsymbol : r.peek.any isSymbolStart
    · exact absurd (symbol_settles hsymbol) (by simp [h, Attempt.Settles])
    · exact hexpression ((symbol_refused (by simpa using hsymbol)).symm.trans h)

/-! ## Failures after something was taken -/

theorem list_failed_lt (h : r.list = .failed f) : f.reader.size < r.size := by
  obtain ⟨⟨p, text⟩, scopes⟩ := r
  by_cases hpeek : peek ⟨⟨p, text⟩, scopes⟩ = some '('
  · obtain ⟨text, rfl⟩ := List.head?_eq_some_iff.mp hpeek
    rw [list, dif_pos hpeek] at h
    split at h
    · next hlimit =>
      have hitems := items_result (⟨.list, p⟩ :: scopes) (p.advance '(') text (by simp)
        (by rw [listsIn_list]; exact hlimit)
      simp only at h
      split at h
      · cases h
      · next failure heq =>
        cases h
        have heq : items ⟨⟨p.advance '(', text⟩, ⟨.list, p⟩ :: scopes⟩ = .error f := heq
        rw [heq] at hitems
        cases hitems with
        | @breaks _ read left htext hbreaks =>
          simp only [size, Cursor.size, hbreaks.cursor, htext, List.length_cons, List.length_append]
          omega
    · cases h
  · rw [list_refused hpeek] at h
    cases h

theorem string_failed_lt (h : r.string = .failed f) : f.reader.size < r.size := by
  obtain ⟨⟨p, text⟩, scopes⟩ := r
  by_cases hpeek : peek ⟨⟨p, text⟩, scopes⟩ = some '"'
  · obtain ⟨text, rfl⟩ := List.head?_eq_some_iff.mp hpeek
    have hread := Quoted.read_explains (p.advance '"') text
    rw [string, dif_pos hpeek] at h
    simp only at h
    split at h
    · cases h
    · next halted heq =>
      cases h
      have hread := heq ▸ hread
      obtain ⟨_, _, _, _, rfl⟩ := hread
      simp [size, Cursor.size, fail, moveTo]
    · next escaped backslash halted heq =>
      cases h
      have hread := heq ▸ hread
      obtain ⟨_, _, _, _, rfl, _, _, rfl⟩ := hread
      simp [size, Cursor.size, moveTo]
      omega
  · rw [string_refused hpeek] at h
    cases h

theorem keyName_failed_lt (h : r.keyName = .failed f) : f.reader.size < r.size := by
  by_cases hpeek : r.peek = some '@'
  · rw [keyName, dif_pos hpeek] at h
    simp only at h
    split at h
    · cases h
    · split at h
      · cases h
      · cases h
        exact Nat.lt_of_le_of_lt (Cursor.size_skipWhile_le _ _) (Cursor.size_next_lt hpeek)
  · rw [keyName_refused hpeek] at h
    cases h

theorem number_failed_lt (h : r.number = .failed f) : f.reader.size < r.size := by
  obtain ⟨⟨p, text⟩, scopes⟩ := r
  by_cases hnumber : (⟨p, text⟩ : Cursor).startsNumeral
  · rw [number, if_pos hnumber] at h
    split at h
    · next halted heq =>
      cases h
      rcases Cursor.numeral_cases hnumber with ⟨run, left, rfl, hbreak, hread⟩ | ⟨_, _, _, _, _, hread⟩
      · obtain rfl := Except.error.inj (hread.symm.trans heq)
        have hpos := List.length_pos_iff.mpr hbreak.ne_nil
        simp only [size, Cursor.size, moveTo, Cursor.past, List.length_append]
        omega
      · cases hread.symm.trans heq
    · next heq =>
      split at h
      · cases h
      · cases h
        exact Cursor.size_numeral_lt heq
  · rw [number_refused (by simpa using hnumber)] at h
    cases h

theorem symbol_failed_lt (h : r.symbol = .failed f) : f.reader.size < r.size := by
  by_cases hstart : r.peek.any isSymbolStart
  · rw [symbol, dif_pos hstart] at h
    split at h
    · cases h
    · cases h
      exact Cursor.size_skipWhile_lt (Cursor.takeWhile_ne_nil hstart isSymbolPart_of_isSymbolStart)
  · rw [symbol_refused (by simpa using hstart)] at h
    cases h

theorem failed_lt : ∀ attempt ∈ attempts, attempt r = .failed f → f.reader.size < r.size := by
  simp only [attempts, List.forall_mem_cons, List.not_mem_nil, false_imp_iff, implies_true, and_true]
  exact ⟨list_failed_lt, string_failed_lt, keyName_failed_lt, number_failed_lt, symbol_failed_lt⟩

/-! ## Bare at signs -/

theorem keyName_of_stops (h : r.peek = some '@')
    (hstops : Stops Char.isAlphanum r.cursor.next.rest) :
    r.keyName = .refused ⟨.keyName, r.cursor, (r.enter .keyName).next⟩ := by
  have hname : ([] ++ r.cursor.next.rest).takeWhile Char.isAlphanum = [] :=
    takeWhile_run (by simp) hstops
  rw [keyName, dif_pos h]
  simp only
  exact if_pos hname

end Reader

/-- The attempt that the next two characters call for is the one whose outcome counts: in each state
of a reader, all attempts together come to what it comes to, be it a node and the reader after it or a
failure with its place. The first attempt that takes something is the last one made, and one that
fails has taken something or was found at fault where it started. -/
theorem attempts_foreseen (r : Reader) :
    r.node.outcome = r.foreseen ∧
    (r.peek = some '@' → Stops Char.isAlphanum r.cursor.next.rest →
      r.keyName.outcome = .error ⟨.keyName, r.cursor, (r.enter .keyName).next⟩) ∧
    (∀ before attempt after, Reader.attempts = before ++ attempt :: after →
      (∀ earlier ∈ before, ¬ (earlier r).Settles) → (attempt r).Settles → r.node = attempt r) ∧
    ∀ attempt ∈ Reader.attempts,
      (∀ f, attempt r = .failed f → f.reader.size < r.size) ∧
      ∀ f, attempt r = .refused f → f.origin = r.cursor := by
  refine ⟨r.node_outcome_eq_foreseen, ?_, ?_, ?_⟩
  · intro hpeek hstops
    rw [Reader.keyName_of_stops hpeek hstops]
    rfl
  · intro before attempt after h hbefore hattempt
    exact Reader.node_of_first_settles h hbefore hattempt
  · intro attempt hattempt
    exact ⟨fun f => Reader.failed_lt attempt hattempt, fun f => Reader.refusal_origin attempt hattempt⟩

end HandlerScript
