import HandlerScript.Check
import HandlerScript.Proofs.Acceptance

/-!
# Reading first, then checking

Compiling fails where reading does, and otherwise comes to what checking the nodes comes to.
-/

namespace HandlerScript

variable {source : String}

theorem compile_of_parse_error {d : Diagnostic} (h : parse source = .error d) :
    compile source = .error d := by
  unfold compile
  rw [h]
  rfl

theorem compile_of_parse_ok {nodes : List Node} (h : parse source = .ok nodes) :
    compile source = (Program.ofNodes nodes).mapError Rejection.diagnostic := by
  unfold compile
  rw [h]
  rfl

theorem compile_of_program_error {f : Failure}
    (h : (Reader.start source.toList).program = .error f) : compile source = .error f.diagnostic :=
  compile_of_parse_error (parse_of_program_error h)

theorem compile_eq_ok {q : Program} (h : compile source = .ok q) :
    ∃ nodes, IsReading source nodes ∧ Program.ofNodes nodes = .ok q := by
  cases hparse : parse source with
  | error d => cases (compile_of_parse_error hparse).symm.trans h
  | ok nodes =>
    refine ⟨nodes, (parse_eq_ok_iff source nodes).mp hparse, ?_⟩
    rw [compile_of_parse_ok hparse] at h
    cases hprogram : Program.ofNodes nodes with
    | error r =>
      rw [hprogram] at h
      cases h
    | ok q' =>
      rw [hprogram] at h
      exact congrArg Except.ok (Except.ok.inj h)

theorem compile_error_cases {d : Diagnostic} (h : compile source = .error d) :
    parse source = .error d ∨
      ∃ nodes r, parse source = .ok nodes ∧ Program.ofNodes nodes = .error r ∧ d = r.diagnostic := by
  cases hparse : parse source with
  | error d' =>
    rw [compile_of_parse_error hparse] at h
    exact .inl (congrArg Except.error (Except.error.inj h))
  | ok nodes =>
    rw [compile_of_parse_ok hparse] at h
    cases hprogram : Program.ofNodes nodes with
    | error r =>
      rw [hprogram] at h
      exact .inr ⟨nodes, r, rfl, hprogram, (Except.error.inj h).symm⟩
    | ok q =>
      rw [hprogram] at h
      cases h

end HandlerScript
