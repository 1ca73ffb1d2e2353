import HandlerScript.Proofs.Passage
import HandlerScript.Proofs.ViablePrefix

/-!
# Writing on after a fault

A fault that is found at a character is found there whatever is written after that character.
Only what is found at the end of a script can change when the script goes on.
-/

namespace HandlerScript

/-! ## A fault before the end -/

/-- The reader gave up with a character of the script still to be read. -/
def GivesUpBeforeEnd (source : String) : Prop :=
  ∃ f, (Reader.start source.toList).program = .error f ∧ f.reader.peek.isSome

def Cursor.extended (c : Cursor) (more : List Char) : Cursor := ⟨c.position, c.rest ++ more⟩

/-- The same failure in a script that goes on. -/
def Failure.extended (f : Failure) (more : List Char) : Failure :=
  ⟨f.fault, f.origin.extended more, f.reader.moveTo (f.reader.cursor.extended more)⟩

section

variable {f : Failure} {c : Char} {read taken left : List Char} {scopes : List Scope} {p : Position}

theorem Stall.same_next {lists : Nat} {fault : Fault} (h : Stall lists taken (c :: left) fault)
    (text : List Char) : Stall lists taken (c :: text) fault := by
  have halike : StopsAlike (c :: left) (c :: text) := (@Futile.same fault c left text).stopsAlike
  have hdelimited : Delimited (c :: left) ↔ Delimited (c :: text) := by
    simp only [delimited_cons]
  cases h with
  | unopened hlists => exact .unopened hlists
  | tooDeep hlists => exact .tooDeep hlists
  | noNode hnothing => exact .noNode hnothing
  | badEscape hinside hescape => exact .badEscape hinside hescape
  | unnamed hstops => exact .unnamed (halike _ inner_isAlphanum hstops)
  | gluedKey hname hstops hglued =>
    exact .gluedKey hname (halike _ inner_isAlphanum hstops) (mt hdelimited.mpr hglued)
  | brokenNumeral hbreak => exact .brokenNumeral (hbreak.congr halike)
  | gluedNumeral hrun hglued =>
    exact .gluedNumeral (hrun.congr halike) (mt hdelimited.mpr hglued)
  | outOfRange hn hleft hinf => exact .outOfRange hn (hdelimited.mp hleft) hinf
  | gluedSymbol hname hstops hglued =>
    exact .gluedSymbol hname (halike _ inner_isSymbolPart hstops) (mt hdelimited.mpr hglued)

theorem Failure.Halts.extended (h : f.Halts scopes p taken left) (more : List Char) :
    (f.extended more).Halts scopes p taken (left ++ more) := by
  obtain ⟨hreader, horigin⟩ := h
  refine ⟨?_, fun hfault => ?_⟩
  · simp only [Failure.extended, hreader]
    rfl
  · simp only [Failure.extended, horigin hfault, Cursor.extended, List.append_assoc]

theorem Breaks.extended (h : Breaks f (c :: left) scopes p read) (more : List Char) :
    Breaks (f.extended more) (c :: (left ++ more)) scopes p read := by
  induction h with
  | stall hdone hdepth hq hstall hhalts =>
    have hnext : ∀ {text}, Delimited (text ++ c :: left) → Delimited (text ++ c :: (left ++ more)) :=
      fun h => delimited_append_of (by simp) h
    exact .stall (hdone.change_after hnext) hdepth hq (hstall.same_next _) (hhalts.extended more)
  | list hdone hdepth hq hlimit _ ih =>
    exact .list (hdone.change_after (by simp)) hdepth hq hlimit ih

theorem Breaks.diagnostic_extended (h : Breaks f (c :: left) scopes p read) (more : List Char) :
    (f.extended more).diagnostic = f.diagnostic := by
  have hnext : (f.extended more).reader.cursor.next.position = f.reader.cursor.next.position := by
    simp only [Failure.extended, Reader.moveTo, h.cursor]
    rfl
  simp only [Failure.diagnostic, Failure.location, hnext]
  rfl

end

/-! ## Nothing after it matters -/

/-- What is wrong with a script is reported the same when more is written after it, if the reader
did not come to its end. -/
theorem fault_unchanged_by_more (source more : String) (d : Diagnostic)
    (h : parse source = .error d) (hgives : GivesUpBeforeEnd source) :
    parse (source ++ more) = .error d ∧ compile source = .error d ∧
      compile (source ++ more) = .error d := by
  rcases parse_cases source with ⟨nodes, hok, -⟩ | ⟨f, read, left, herror, hprogram, htext, hbreaks⟩
  · simp [hok] at h
  obtain rfl : f.diagnostic = d := Except.error.inj (herror.symm.trans h)
  obtain ⟨f', hprogram', hpeek⟩ := hgives
  obtain rfl : f = f' := Except.error.inj (hprogram.symm.trans hprogram')
  rw [Reader.peek, Cursor.peek, hbreaks.cursor] at hpeek
  cases left with
  | nil => cases hpeek
  | cons c left =>
    have hmore : parse (source ++ more) = .error f.diagnostic := by
      rw [← hbreaks.diagnostic_extended more.toList]
      exact (hbreaks.extended more.toList).parse_eq (by simp [htext])
    exact ⟨hmore, compile_of_parse_error h, compile_of_parse_error hmore⟩

theorem fault_unchanged_by_more_symbol :
    ∃ d, parse "(x y%" = .error d ∧ GivesUpBeforeEnd "(x y%" ∧
      parse ("(x y%" ++ ") \"z") = .error d ∧ compile "(x y%" = .error d ∧
      compile ("(x y%" ++ ") \"z") = .error d := by
  have hprogram : (Reader.start "(x y%".toList).program =
      .error ⟨.malformedSymbol, ⟨⟨1, 4⟩, ['y', '%']⟩,
        ⟨⟨⟨1, 5⟩, ['%']⟩, [⟨.list, .start⟩, ⟨.topLevel, .start⟩]⟩⟩ := by
    cbv
  have hparse := parse_of_program_error hprogram
  have hgives : GivesUpBeforeEnd "(x y%" := ⟨_, hprogram, rfl⟩
  exact ⟨_, hparse, hgives, fault_unchanged_by_more _ _ _ hparse hgives⟩

end HandlerScript
