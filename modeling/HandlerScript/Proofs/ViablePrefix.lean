import HandlerScript.Proofs.Completion

/-!
# Where faults are reported

A text is viable when a script can start with it. A fault is reported just past the character that
makes the text before it viable no more, which is as early as it can be known.
-/

namespace HandlerScript

/-! ## Viable texts -/

/-- The grammar reads some script that starts with this text. The values of numbers do not count. -/
def Viable (text : List Char) : Prop :=
  ∃ more nodes, Reads (fun _ => True) [] .start (text ++ more) nodes ∧
    Node.depthAll nodes ≤ nestingLimit

/-- The shortest text that a script starts with and that no script can start with. -/
structure IsShortestNonviable (source text : List Char) : Prop where
  is_start : text <+: source
  not_viable : ¬ Viable text
  shortest : ∀ other, other <+: source → ¬ Viable other → text.length ≤ other.length

/-- The script is rejected for a number that is written as numbers are, but is out of range. -/
def RejectsOutOfRange (source : String) : Prop :=
  ∃ f, (Reader.start source.toList).program = .error f ∧ f.OutOfRange

theorem Viable.of_append {text more : List Char} (h : Viable (text ++ more)) : Viable text := by
  obtain ⟨ending, nodes, hread, hdepth⟩ := h
  exact ⟨more ++ ending, nodes, by simpa using hread, hdepth⟩

theorem Viable.mono {text other : List Char} (h : Viable text) (hother : other <+: text) :
    Viable other := by
  obtain ⟨more, rfl⟩ := hother
  exact h.of_append

/-! ## Where reading gives up -/

section

variable {f : Failure} {read left : List Char}

theorem Breaks.viable (h : Breaks f left [] .start read) : Viable read := by
  obtain ⟨ending, nodes, -, hread, hdepth⟩ :=
    h.completed (fun _ _ => trivial) (fun _ _ => trivial) delimited_nil
  exact ⟨_, nodes, hread, by simpa [listsIn] using hdepth⟩

theorem Breaks.not_viable {c : Char} (h : Breaks f (c :: left) [] .start read)
    (hrange : ¬ f.OutOfRange) : ¬ Viable (read ++ [c]) := by
  rintro ⟨more, nodes, hread, hdepth⟩
  rw [List.append_assoc] at hread
  obtain ⟨-, hdeep⟩ :=
    h.blocked .same (.inr hrange) hread closing_nil (by simp [listsIn]) (List.append_nil _)
  simp only [listsIn, List.countP_nil, Nat.zero_add] at hdeep
  omega

theorem Breaks.shortest {c : Char} (h : Breaks f (c :: left) [] .start read)
    (hrange : ¬ f.OutOfRange) : IsShortestNonviable (read ++ c :: left) (read ++ [c]) where
  is_start := ⟨left, by simp⟩
  not_viable := h.not_viable hrange
  shortest := by
    intro other hother hviable
    have hnot : ¬ other.length ≤ read.length := fun hle =>
      hviable (h.viable.mono (List.prefix_of_prefix_length_le hother (List.prefix_append _ _) hle))
    simp
    omega

end

/-! ## Faults are reported as early as possible -/

/-- A fault is reported just past the shortest text that no script starts with, or at the end if the
whole script is viable. Numbers out of range apart, which are written as numbers are. -/
theorem fault_at_shortest_nonviable (source : String) (d : Diagnostic) (h : parse source = .error d)
    (hrange : ¬ RejectsOutOfRange source) :
    (∃ text, IsShortestNonviable source.toList text ∧
        d.location.stop = Position.start.advanceAll text) ∨
      ((∀ text, text <+: source.toList → Viable text) ∧
        d.location.stop = Position.start.advanceAll source.toList) := by
  rcases parse_cases source with ⟨nodes, hok, -⟩ | ⟨f, read, left, herror, hprogram, htext, hbreaks⟩
  · simp [hok] at h
  obtain rfl : f.diagnostic = d := Except.error.inj (herror.symm.trans h)
  have hrange : ¬ f.OutOfRange := fun hf => hrange ⟨f, hprogram, hf⟩
  rw [htext, Failure.diagnostic, Failure.location, hbreaks.cursor]
  cases left with
  | nil =>
    rw [List.append_nil]
    exact .inr ⟨fun text => hbreaks.viable.mono, rfl⟩
  | cons c left =>
    refine .inl ⟨read ++ [c], hbreaks.shortest hrange, ?_⟩
    rw [Position.advanceAll_append]
    rfl

theorem fault_at_shortest_nonviable_symbol :
    ∃ d, parse "(x y%)" = .error d ∧ ¬ RejectsOutOfRange "(x y%)" ∧
      IsShortestNonviable "(x y%)".toList "(x y%".toList ∧ d.location.stop = ⟨1, 6⟩ := by
  have hprogram : (Reader.start "(x y%)".toList).program =
      .error ⟨.malformedSymbol, ⟨⟨1, 4⟩, ['y', '%', ')']⟩,
        ⟨⟨⟨1, 5⟩, ['%', ')']⟩, [⟨.list, .start⟩, ⟨.topLevel, .start⟩]⟩⟩ := by
    cbv
  have hrange : ¬ RejectsOutOfRange "(x y%)" := by
    rintro ⟨f, hf, hfault, -⟩
    obtain rfl := Except.error.inj (hprogram.symm.trans hf)
    cases hfault
  have hparse := parse_of_program_error hprogram
  refine ⟨_, hparse, hrange, ?_, rfl⟩
  rcases fault_at_shortest_nonviable _ _ hparse hrange with ⟨text, hshortest, hstop⟩ | ⟨-, hstop⟩
  · have hstarts : ∀ text ∈ "(x y%)".toList.inits,
        Position.start.advanceAll text = ⟨1, 6⟩ → text = "(x y%".toList := by
      decide
    have htext := hstarts text ((List.mem_inits _ _).mpr hshortest.is_start) hstop.symm
    rwa [htext] at hshortest
  · exact absurd hstop (by decide)

end HandlerScript
