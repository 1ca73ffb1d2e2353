import HandlerScript.Proofs.Arguments
import HandlerScript.Proofs.Compiling
import HandlerScript.Proofs.Encoded
import HandlerScript.Proofs.Json.Layout

/-!
# What the command answers

Whoever calls the command sees an exit code and what is on the standard output. Both follow from what
reading and compiling the script come to, in either form of output.
-/

namespace HandlerScript

/-! ## Answers -/

/-- The exit code and the standard output. -/
def Outcome.answer (outcome : Outcome) : Nat × String := (outcome.exitCode, outcome.stdout)

/-- How a fault is answered: with nothing, or with one line for a program to read. -/
structure Refuses (json : Bool) (d : Diagnostic) (answer : Nat × String) : Prop where
  code : answer.1 = 1
  silent : json = false → answer.2 = ""
  line : json = true → answer.2 = d.toJson.compact ++ "\n" ∧ '\n' ∉ d.toJson.compact.toList

/-- How a program, or a fault in place of it, is answered. -/
def Answers (json : Bool) (answer : Nat × String) : Except Diagnostic Program → Prop
  | .ok p => answer = (0, p.text ++ "\n")
  | .error d => Refuses json d answer

theorem refuses_faulty (d : Diagnostic) (json : Bool) : Refuses json d (Outcome.faulty d json).answer where
  code := rfl
  silent := by
    rintro rfl
    rfl
  line := by
    rintro rfl
    exact ⟨rfl, Json.lineFeed_not_mem_compact d.finite_toJson⟩

/-! ## Nodes on the standard output -/

theorem denotes_nodes (nodes : List Node) :
    Json.Denotes ((encodeNodes nodes).indented ++ "\n") (encodeNodes nodes) :=
  Json.denotes_indented (finite_encodeNodes nodes) (by simp [isBlank])

theorem decodes_nodes_iff {nodes decoded : List Node} (h : Node.AllFinite nodes) :
    Json.Decodes Json.nodes? ((encodeNodes nodes).indented ++ "\n") decoded ↔ decoded = nodes :=
  Json.Decodes.iff_eq ⟨encodeNodes nodes, denotes_nodes nodes, nodes?_encodeNodes h⟩

/-! ## Outcomes -/

section

variable {arguments arguments' : List String} {options options' : Options} {source : String}
  {contents : String → Except ReadError String}

theorem answer_run (h : Options.ofArguments arguments = some options)
    (hsource : contents options.script = .ok source) :
    (run arguments contents).answer = (options.outcome (.ok source)).answer := by
  unfold run
  simp only [h, hsource]

namespace Options

theorem outcome_of_output_ok {text : String} (h : options.output source = .ok text) :
    options.outcome (.ok source) = .printed text := by
  unfold outcome
  simp only [h]

theorem outcome_of_output_error {d : Diagnostic} (h : options.output source = .error d) :
    options.outcome (.ok source) = .faulty d options.json := by
  unfold outcome
  simp only [h]

theorem output_of_parse_error (options : Options) {d : Diagnostic} (h : parse source = .error d) :
    options.output source = .error d := by
  unfold output
  rw [h]
  rfl

theorem output_nodes {nodes : List Node} (hemit : options.emit = .nodes)
    (h : parse source = .ok nodes) : options.output source = .ok (encodeNodes nodes).indented := by
  unfold output
  rw [h, hemit]
  rfl

theorem output_program (hemit : options.emit = .program) (source : String) :
    options.output source = (compile source).map Program.text := by
  cases hparse : parse source with
  | error d =>
    rw [options.output_of_parse_error hparse, compile_of_parse_error hparse]
    rfl
  | ok nodes =>
    rw [compile_of_parse_ok hparse]
    unfold output
    rw [hparse, hemit]
    change ((Program.ofNodes nodes).mapError Rejection.diagnostic >>= fun p => pure p.text) = _
    cases (Program.ofNodes nodes).mapError Rejection.diagnostic <;> rfl

/-! ## Both forms of output -/

theorem refuses_of_parse_error (options : Options) {d : Diagnostic} (h : parse source = .error d) :
    Refuses options.json d (options.outcome (.ok source)).answer := by
  rw [outcome_of_output_error (options.output_of_parse_error h)]
  exact refuses_faulty d options.json

theorem answers_program (hemit : options.emit = .program) (source : String) :
    Answers options.json (options.outcome (.ok source)).answer (compile source) := by
  have houtput := output_program hemit source
  cases hcompile : compile source with
  | ok p =>
    rw [hcompile] at houtput
    rw [outcome_of_output_ok houtput]
    rfl
  | error d =>
    rw [hcompile] at houtput
    rw [outcome_of_output_error houtput]
    exact refuses_faulty d options.json

theorem answer_nodes {nodes : List Node} (hemit : options.emit = .nodes)
    (h : parse source = .ok nodes) :
    (options.outcome (.ok source)).answer = (0, (encodeNodes nodes).indented ++ "\n") := by
  rw [outcome_of_output_ok (output_nodes hemit h)]
  rfl

theorem answer_code_nodes (hemit : options.emit = .nodes) (source : String) :
    (options.outcome (.ok source)).answer.1 = 0 ↔ ∃ nodes, parse source = .ok nodes := by
  cases hparse : parse source with
  | error d =>
    rw [(options.refuses_of_parse_error hparse).code]
    simp
  | ok nodes =>
    rw [answer_nodes hemit hparse]
    simp

theorem answer_of_parse_error (hjson : options.json = options'.json) {d : Diagnostic}
    (h : parse source = .error d) :
    (options.outcome (.ok source)).answer = (options'.outcome (.ok source)).answer := by
  rw [outcome_of_output_error (options.output_of_parse_error h),
    outcome_of_output_error (options'.output_of_parse_error h), hjson]

theorem answers_decoded (hjson : options.json = options'.json) (hemit : options.emit = .nodes)
    (hemit' : options'.emit = .program) (hcode : (options.outcome (.ok source)).answer.1 = 0)
    {decoded : List Node}
    (h : Json.Decodes Json.nodes? (options.outcome (.ok source)).answer.2 decoded) :
    Answers options.json (options'.outcome (.ok source)).answer
      ((Program.ofNodes decoded).mapError Rejection.diagnostic) := by
  obtain ⟨nodes, hparse⟩ := (answer_code_nodes hemit source).mp hcode
  rw [answer_nodes hemit hparse, decodes_nodes_iff (allFinite_of_parse hparse)] at h
  rw [h, ← compile_of_parse_ok hparse, hjson]
  exact answers_program hemit' source

/-! ## What has no bearing on the answer -/

theorem Agree.outcome_eq (h : options.Agree options') (contents : Except ReadError String) :
    options.outcome contents = options'.outcome contents := by
  obtain ⟨hscript, hemit, hjson⟩ := h
  unfold outcome output readsStdin
  rw [hscript, hemit, hjson]

end Options

end

/-- With the program as output, the command answers with what compiling the script comes to. With
nodes as output it answers with what reading the script comes to: JSON that is decoded to the nodes,
and checking these comes to the answer with the program as output. A fault of reading is answered alike
in both. The order of the words and what is said about colors and logging make no difference. -/
theorem command_answers (contents : String → Except ReadError String) (arguments : List String)
    (options : Options) (source : String) (hoptions : Options.ofArguments arguments = some options)
    (hsource : contents options.script = .ok source) :
    let answer := fun arguments => (run arguments contents).answer
    (options.emit = .program → Answers options.json (answer arguments) (compile source)) ∧
    (options.emit = .nodes →
      ((answer arguments).1 = 0 ↔ ∃ nodes, parse source = .ok nodes) ∧
      (∀ nodes, parse source = .ok nodes →
        Json.Denotes (answer arguments).2 (encodeNodes nodes) ∧
        ∀ decoded, Json.Decodes Json.nodes? (answer arguments).2 decoded ↔ decoded = nodes) ∧
      ∀ d, parse source = .error d → Refuses options.json d (answer arguments)) ∧
    (∀ arguments' options', Options.ofArguments arguments' = some options' →
      contents options'.script = .ok source → options.json = options'.json →
      options.emit = .nodes → options'.emit = .program →
      (∀ d, parse source = .error d → answer arguments = answer arguments') ∧
      ∀ decoded, (answer arguments).1 = 0 → Json.Decodes Json.nodes? (answer arguments).2 decoded →
        Answers options.json (answer arguments')
          ((Program.ofNodes decoded).mapError Rejection.diagnostic)) ∧
    ∀ arguments' words words', Word.ofArguments arguments = some words →
      Word.ofArguments arguments' = some words' →
      (words.Perm words' → Options.ofArguments arguments' = some options) ∧
      ((words.filter (!·.isCosmetic)).Perm (words'.filter (!·.isCosmetic)) →
        (∃ options', Options.ofArguments arguments' = some options') →
        answer arguments = answer arguments') := by
  intro answer
  have hanswer : answer arguments = (options.outcome (.ok source)).answer :=
    answer_run hoptions hsource
  refine ⟨?_, ?_, ?_, ?_⟩
  · intro hemit
    rw [hanswer]
    exact Options.answers_program hemit source
  · intro hemit
    rw [hanswer]
    refine ⟨Options.answer_code_nodes hemit source, ?_, fun d => options.refuses_of_parse_error⟩
    intro nodes hparse
    rw [Options.answer_nodes hemit hparse]
    exact ⟨denotes_nodes nodes, fun decoded => decodes_nodes_iff (allFinite_of_parse hparse)⟩
  · intro arguments' options' hoptions' hsource' hjson hemit hemit'
    have hanswer' : answer arguments' = (options'.outcome (.ok source)).answer :=
      answer_run hoptions' hsource'
    rw [hanswer, hanswer']
    constructor
    · intro d hparse
      exact Options.answer_of_parse_error hjson hparse
    · intro decoded hcode hdecodes
      exact Options.answers_decoded hjson hemit hemit' hcode hdecodes
  · intro arguments' words words' hwords hwords'
    constructor
    · intro hperm
      rw [← Options.ofArguments_perm hwords hwords' hperm, hoptions]
    · rintro hperm ⟨options', hoptions'⟩
      have hagree := Options.agree_of_perm hwords hwords' hperm hoptions hoptions'
      have hsource' : contents options'.script = .ok source := by rw [← hagree.1, hsource]
      rw [hanswer, hagree.outcome_eq]
      exact (answer_run hoptions' hsource').symm

/-- A script in a directory, in both forms of output, and with its words the other way round. -/
theorem command_answers_draw :
    let contents : String → Except ReadError String := fun name =>
      if name = "scripts/s" then .ok "(draw x)" else .error .missing
    let answer := fun arguments => (run arguments contents).answer
    let nodes : List Node := [.list ⟨⟨1, 1⟩, ⟨1, 9⟩⟩ [.symbol ⟨⟨1, 2⟩, ⟨1, 6⟩⟩ "draw",
      .symbol ⟨⟨1, 7⟩, ⟨1, 8⟩⟩ "x"]]
    Options.ofArguments ["--emit", "syntax", "scripts/s"] =
        some ⟨"scripts/s", .nodes, false, .auto, false⟩ ∧
      (answer ["--emit", "syntax", "scripts/s"]).1 = 0 ∧
      Json.Decodes Json.nodes? (answer ["--emit", "syntax", "scripts/s"]).2 nodes ∧
      answer ["scripts/s"] = (0, "(draw x)\n") ∧
      answer ["--emit", "syntax", "scripts/s"] =
        answer ["-v", "scripts/s", "--color=never", "--emit=syntax"] := by
  intro contents answer nodes
  have hoptions : Options.ofArguments ["--emit", "syntax", "scripts/s"] =
      some ⟨"scripts/s", .nodes, false, .auto, false⟩ := by decide
  have hoptions' : Options.ofArguments ["scripts/s"] =
      some ⟨"scripts/s", .program, false, .auto, false⟩ := by decide
  have hsource : contents "scripts/s" = .ok "(draw x)" := rfl
  have hparse : parse "(draw x)" = .ok nodes := by
    have hchars : "(draw x)".toList = ['(', 'd', 'r', 'a', 'w', ' ', 'x', ')'] := by decide
    rw [parse, hchars]
    cbv
  obtain ⟨-, hnodes, hprogram, hwords⟩ := command_answers contents _ _ _ hoptions hsource
  obtain ⟨hcode, hdecodes, -⟩ := hnodes rfl
  have hzero := hcode.mpr ⟨nodes, hparse⟩
  have hdecoded := ((hdecodes nodes hparse).2 nodes).mpr rfl
  obtain ⟨-, hanswers⟩ := hprogram ["scripts/s"] _ hoptions' hsource rfl rfl rfl
  refine ⟨hoptions, hzero, hdecoded, hanswers nodes hzero hdecoded, ?_⟩
  obtain ⟨-, hcosmetic⟩ := hwords ["-v", "scripts/s", "--color=never", "--emit=syntax"]
    [.setting "--emit" "syntax", .script "scripts/s"]
    [.flag "-v", .script "scripts/s", .setting "--color" "never", .setting "--emit" "syntax"]
    (by decide) (by decide)
  exact hcosmetic (.swap _ _ _) ⟨⟨"scripts/s", .nodes, false, .never, true⟩, by decide⟩

end HandlerScript
