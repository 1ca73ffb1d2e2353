import HandlerScript.Proofs.Checked

/-!
# The first defect is the one reported

What can be wrong with a node is said of one node at a time, and the nodes that are expressions are
listed in the order of the script. Checking reports the first of them that has something wrong.
-/

namespace HandlerScript

/-! ## The first flaw -/

/-- No element has a flaw. Whether it has one may depend on those before it. -/
def Flawless (flaw : List Node → Node → Rejection → Prop) (nodes : List Node) : Prop :=
  ∀ before node after, nodes = before ++ node :: after → ∀ r, ¬ flaw before node r

/-- The first element that has a flaw has this one. -/
def FirstFlaw (flaw : List Node → Node → Rejection → Prop) (nodes : List Node) (r : Rejection) :
    Prop :=
  ∃ before node after, nodes = before ++ node :: after ∧ Flawless flaw before ∧ flaw before node r

section

variable {flaw : List Node → Node → Rejection → Prop} {nodes before : List Node} {node : Node}
  {r r' : Rejection} {α : Type} {result : Except Rejection α}

theorem flawless_nil : Flawless flaw [] := by
  intro before node after heq
  simp at heq

theorem place_cases {before before' after after' : List Node} {node node' : Node}
    (h : before ++ node :: after = before' ++ node' :: after') :
    (before = before' ∧ node = node') ∨ (∃ between, before' = before ++ node :: between) ∨
      ∃ between, before = before' ++ node' :: between := by
  rcases List.append_eq_append_iff.mp h with ⟨between, rfl, hrest⟩ | ⟨between, rfl, hrest⟩
  · cases between with
    | nil => exact .inl ⟨(List.append_nil _).symm, (List.cons.inj hrest).1⟩
    | cons _ between =>
      obtain ⟨rfl, -⟩ := List.cons.inj hrest
      exact .inr (.inl ⟨between, rfl⟩)
  · cases between with
    | nil => exact .inl ⟨List.append_nil _, (List.cons.inj hrest).1.symm⟩
    | cons _ between =>
      obtain ⟨rfl, -⟩ := List.cons.inj hrest
      exact .inr (.inr ⟨between, rfl⟩)

theorem Flawless.append_one (h : Flawless flaw nodes) (hnode : ∀ r, ¬ flaw nodes node r) :
    Flawless flaw (nodes ++ [node]) := by
  intro before other after heq
  rcases place_cases heq with ⟨rfl, rfl⟩ | ⟨between, rfl⟩ | ⟨between, rfl⟩
  · exact hnode
  · simp at heq
  · exact h _ _ _ rfl

theorem FirstFlaw.not_flawless (h : FirstFlaw flaw nodes r) : ¬ Flawless flaw nodes := by
  obtain ⟨before, node, after, rfl, -, hflaw⟩ := h
  exact fun hnone => hnone before node after rfl r hflaw

theorem FirstFlaw.append (h : FirstFlaw flaw nodes r) (others : List Node) :
    FirstFlaw flaw (nodes ++ others) r := by
  obtain ⟨before, node, after, rfl, hbefore, hflaw⟩ := h
  exact ⟨before, node, after ++ others, by simp, hbefore, hflaw⟩

theorem FirstFlaw.unique (hflaw : ∀ before node r r', flaw before node r → flaw before node r' → r = r')
    (h : FirstFlaw flaw nodes r) (h' : FirstFlaw flaw nodes r') : r = r' := by
  obtain ⟨before, node, after, rfl, hbefore, hnode⟩ := h
  obtain ⟨before', node', after', heq, hbefore', hnode'⟩ := h'
  rcases place_cases heq with ⟨rfl, rfl⟩ | ⟨between, rfl⟩ | ⟨between, rfl⟩
  · exact hflaw _ _ _ _ hnode hnode'
  · exact absurd hnode (hbefore' _ _ _ rfl r)
  · exact absurd hnode' (hbefore _ _ _ rfl r')

/-- The outcome of a check that looks for flaws in these nodes and stops at the first. -/
inductive Judged (flaw : List Node → Node → Rejection → Prop) (nodes : List Node) {α : Type} :
    Except Rejection α → Prop where
  | passed {a : α} : Flawless flaw nodes → Judged flaw nodes (.ok a)
  | rejected {r : Rejection} : FirstFlaw flaw nodes r → Judged flaw nodes (.error r)

theorem Judged.exists_ok_iff (h : Judged flaw nodes result) :
    (∃ a, result = .ok a) ↔ Flawless flaw nodes := by
  cases h with
  | passed hnone => exact ⟨fun _ => hnone, fun _ => ⟨_, rfl⟩⟩
  | rejected hfirst => exact ⟨nofun, fun hnone => absurd hnone hfirst.not_flawless⟩

theorem Judged.eq_error_iff
    (hflaw : ∀ before node r r', flaw before node r → flaw before node r' → r = r')
    (h : Judged flaw nodes result) (r : Rejection) :
    result = .error r ↔ FirstFlaw flaw nodes r := by
  cases h with
  | passed hnone => exact ⟨nofun, fun hfirst => absurd hnone hfirst.not_flawless⟩
  | rejected hfirst =>
    constructor
    · rintro ⟨⟩
      exact hfirst
    · exact fun hfirst' => congrArg Except.error (hfirst.unique hflaw hfirst')

theorem mapError_diagnostic_eq_error_iff (d : Diagnostic) :
    result.mapError Rejection.diagnostic = .error d ↔
      ∃ r, result = .error r ∧ d = ⟨.nonrecoverable, r.location, r.defect.message⟩ := by
  cases result with
  | ok a => exact ⟨nofun, by rintro ⟨r, ⟨⟩, -⟩⟩
  | error r =>
    constructor
    · rintro ⟨⟩
      exact ⟨r, rfl, rfl⟩
    · rintro ⟨r, ⟨⟩, rfl⟩
      rfl

end

section

variable {flaw : Node → Rejection → Prop} {nodes nodes' : List Node} {node : Node} {r : Rejection}
  {α β : Type} {x : Except Rejection α} {k : α → Except Rejection β}

theorem flawless_iff : Flawless (fun _ => flaw) nodes ↔ ∀ n ∈ nodes, ∀ r, ¬ flaw n r := by
  constructor
  · intro h n hn
    obtain ⟨before, after, rfl⟩ := List.append_of_mem hn
    exact h before n after rfl
  · rintro h before node after rfl
    exact h node (by simp)

theorem FirstFlaw.after_flawless (hnone : Flawless (fun _ => flaw) nodes)
    (h : FirstFlaw (fun _ => flaw) nodes' r) : FirstFlaw (fun _ => flaw) (nodes ++ nodes') r := by
  obtain ⟨before, node, after, rfl, hbefore, hflaw⟩ := h
  refine ⟨nodes ++ before, node, after, by simp, ?_, hflaw⟩
  rw [flawless_iff] at hnone hbefore ⊢
  exact List.forall_mem_append.mpr ⟨hnone, hbefore⟩

theorem Judged.after_flawless (hnone : Flawless (fun _ => flaw) nodes)
    (h : Judged (fun _ => flaw) nodes' x) : Judged (fun _ => flaw) (nodes ++ nodes') x := by
  cases h with
  | passed hnone' =>
    rw [flawless_iff] at hnone hnone'
    exact .passed (flawless_iff.mpr (List.forall_mem_append.mpr ⟨hnone, hnone'⟩))
  | rejected hfirst => exact .rejected (hfirst.after_flawless hnone)

theorem Judged.bind (h : Judged (fun _ => flaw) nodes x)
    (hk : ∀ a, Judged (fun _ => flaw) nodes' (k a)) :
    Judged (fun _ => flaw) (nodes ++ nodes') (x >>= k) := by
  cases h with
  | passed hnone => exact (hk _).after_flawless hnone
  | rejected hfirst => exact .rejected (hfirst.append nodes')

theorem Judged.map (h : Judged (fun _ => flaw) nodes x) (f : α → β) :
    Judged (fun _ => flaw) nodes (x >>= fun a => .ok (f a)) := by
  cases h with
  | passed hnone => exact .passed hnone
  | rejected hfirst => exact .rejected hfirst

end

/-! ## Expressions -/

theorem Key.resolve_eq_none_iff (name : String) :
    resolve name = none ↔ ∀ key ∈ table, key.name ≠ name := by
  simp [resolve]

namespace Node

/-- Calls start with a symbol, and symbols are what is assigned to. -/
def IsSymbol (node : Node) : Prop := ∃ span name, node = .symbol span name

/-- What can be wrong with a node where an expression is wanted, and the place that is reported.
What is further inside does not count. -/
inductive Flaw : Node → Rejection → Prop where
  | unknownKey {span : Location} {name : String} : (∀ key ∈ Key.table, key.name ≠ name) →
      Flaw (.key span name) ⟨span, .unknownKey name⟩
  | emptyList {span : Location} : Flaw (.list span []) ⟨span, .emptyList⟩
  | headNotSymbol {span : Location} {head : Node} {operands : List Node} : ¬ head.IsSymbol →
      Flaw (.list span (head :: operands)) ⟨head.span, .headNotSymbol⟩
  | ifWithoutCondition {span headSpan : Location} :
      Flaw (.list span [.symbol headSpan "if"]) ⟨span, .ifWithoutCondition⟩
  | setWithoutOperands {span headSpan : Location} :
      Flaw (.list span [.symbol headSpan "set"]) ⟨span, .setWithoutOperands⟩
  | setWithoutValue {span headSpan : Location} {target : Node} :
      Flaw (.list span [.symbol headSpan "set", target]) ⟨span, .setWithoutValue⟩
  | setWithTooMany {span headSpan : Location} {operands : List Node} : 3 ≤ operands.length →
      Flaw (.list span (.symbol headSpan "set" :: operands)) ⟨span, .setWithTooMany⟩
  | targetNotSymbol {span headSpan : Location} {target value : Node} : ¬ target.IsSymbol →
      Flaw (.list span [.symbol headSpan "set", target, value]) ⟨target.span, .targetNotSymbol⟩

mutual

/-- The nodes where an expression is wanted, this one first and then those inside of it. The head of
a list is none of them, and neither is what is assigned to. -/
def expressions : Node → List Node
  | .list span (.symbol headSpan name :: operands) =>
    .list span (.symbol headSpan name :: operands) ::
      if name = "set" then valueExpressions operands else allExpressions operands
  | node => [node]

def valueExpressions : List Node → List Node
  | [_, value] => value.expressions
  | _ => []

def allExpressions : List Node → List Node
  | [] => []
  | node :: nodes => node.expressions ++ allExpressions nodes

end

section

variable {node : Node} {nodes nodes' : List Node} {r r' : Rejection} {α β : Type}

theorem asName_of_not_isSymbol (defect : Defect) (h : ¬ node.IsSymbol) :
    node.asName defect = .error ⟨node.span, defect⟩ := by
  cases node with
  | symbol span name => exact absurd ⟨span, name, rfl⟩ h
  | list | string | number | key => rfl

theorem Flaw.check_eq (h : node.Flaw r) : node.check = .error r := by
  cases h with
  | unknownKey hname => rw [check, (Key.resolve_eq_none_iff _).mpr hname]
  | emptyList => rw [check]
  | headNotSymbol hhead =>
    rw [check, asName_of_not_isSymbol _ hhead]
    rfl
  | ifWithoutCondition | setWithoutOperands | setWithoutValue => rfl
  | @setWithTooMany span headSpan operands hlength =>
    rcases operands with _ | ⟨_, _ | ⟨_, _ | ⟨_, _⟩⟩⟩
    · simp at hlength
    · simp at hlength
    · simp at hlength
    · rfl
  | targetNotSymbol htarget =>
    change checkSet _ _ = _
    rw [checkSet, asName_of_not_isSymbol _ htarget]
    rfl

theorem Flaw.unique (h : node.Flaw r) (h' : node.Flaw r') : r = r' :=
  Except.error.inj (h.check_eq.symm.trans h'.check_eq)

theorem expressions_eq_cons (node : Node) : ∃ inner, node.expressions = node :: inner := by
  unfold expressions
  split <;> exact ⟨_, rfl⟩

theorem Flaw.judged (h : node.Flaw r) : Judged (fun _ => Flaw) node.expressions node.check := by
  obtain ⟨inner, hinner⟩ := node.expressions_eq_cons
  rw [h.check_eq, hinner]
  exact .rejected ⟨[], node, inner, rfl, flawless_nil, h⟩

end

/-! ## Checking expressions -/

/-- No flaw of its own. -/
def Sound (node : Node) : Prop := ∀ r, ¬ node.Flaw r

theorem Sound.flawless {node : Node} (h : node.Sound) : Flawless (fun _ => Flaw) [node] :=
  flawless_iff.mpr (List.forall_mem_singleton.mpr h)

theorem Sound.headIsSymbol {span : Location} {head : Node} {operands : List Node}
    (h : (list span (head :: operands)).Sound) : head.IsSymbol :=
  Classical.byContradiction fun hhead => h _ (.headNotSymbol hhead)

mutual

theorem check_judged : (node : Node) → Judged (fun _ => Flaw) node.expressions node.check
  | .symbol _ _ | .string _ _ | .number _ _ => .passed (Sound.flawless nofun)
  | .key span name => by
    rw [check]
    split
    · next code hcode =>
      refine .passed (Sound.flawless ?_)
      rintro r ⟨hname⟩
      simp [(Key.resolve_eq_none_iff name).mpr hname] at hcode
    · next hnone =>
      have hflaw : (key span name).Flaw _ := .unknownKey ((Key.resolve_eq_none_iff name).mp hnone)
      exact .rejected ⟨[], _, [], rfl, flawless_nil, hflaw⟩
  | .list _ [] => Flaw.emptyList.judged
  | .list span (head :: operands) => by
    -- A list with a flaw of its own is rejected whatever is in it. All others start with a symbol.
    by_cases hflaw : ∃ r, (list span (head :: operands)).Flaw r
    · obtain ⟨r, hflaw⟩ := hflaw
      exact hflaw.judged
    have hsound : (list span (head :: operands)).Sound := fun r hr => hflaw ⟨r, hr⟩
    obtain ⟨headSpan, name, rfl⟩ := hsound.headIsSymbol
    rw [expressions, ← List.singleton_append]
    refine Judged.after_flawless hsound.flawless ?_
    by_cases hset : name = "set"
    · subst hset
      rw [if_pos rfl]
      exact checkSet_judged span headSpan operands hsound
    rw [if_neg hset]
    by_cases hif : name = "if"
    · subst hif
      exact checkIf_judged span headSpan operands hsound
    have hcall : (list span (symbol headSpan name :: operands)).check =
        checkAll operands >>= fun arguments => .ok (.call span ⟨headSpan, name⟩ arguments) := by
      rw [check]
      change (if name = "if" then _ else if name = "set" then _ else _) = _
      rw [if_neg hif, if_neg hset]
      rfl
    rw [hcall]
    exact (checkAll_judged operands).map _

theorem checkIf_judged (span headSpan : Location) : (operands : List Node) →
    (list span (symbol headSpan "if" :: operands)).Sound →
    Judged (fun _ => Flaw) (allExpressions operands) (checkIf span operands)
  | [], hsound => absurd .ifWithoutCondition (hsound _)
  | condition :: body, _ => by
    rw [allExpressions, checkIf]
    exact (check_judged condition).bind fun _ => (checkAll_judged body).map _

theorem checkSet_judged (span headSpan : Location) : (operands : List Node) →
    (list span (symbol headSpan "set" :: operands)).Sound →
    Judged (fun _ => Flaw) (valueExpressions operands) (checkSet span operands)
  | [], hsound => absurd .setWithoutOperands (hsound _)
  | [_], hsound => absurd .setWithoutValue (hsound _)
  | [target, value], hsound => by
    obtain ⟨targetSpan, name, rfl⟩ : target.IsSymbol :=
      Classical.byContradiction fun htarget => hsound _ (.targetNotSymbol htarget)
    rw [valueExpressions, checkSet]
    exact (check_judged value).map _
  | _ :: _ :: _ :: _, hsound => absurd (.setWithTooMany (by simp)) (hsound _)

theorem checkAll_judged : (nodes : List Node) →
    Judged (fun _ => Flaw) (allExpressions nodes) (checkAll nodes)
  | [] => .passed flawless_nil
  | node :: nodes => by
    rw [allExpressions, checkAll]
    exact (check_judged node).bind fun _ => (checkAll_judged nodes).map _

end

/-! ## Declarations -/

/-- A list that starts with the name of a handler declares it. -/
def Declares (node : Node) (handler : Handler) (body : List Node) : Prop :=
  ∃ span headSpan, node = .list span (.symbol headSpan handler.name :: body)

theorem declaration?_eq_some_iff (node : Node) (handler : Handler) (body : List Node) :
    node.declaration? = some (handler, body) ↔ node.Declares handler body := by
  constructor
  · exact declaration?_eq_some
  · rintro ⟨span, headSpan, rfl⟩
    simp [declaration?]

theorem Declares.unique {node : Node} {handler handler' : Handler} {body body' : List Node}
    (h : node.Declares handler body) (h' : node.Declares handler' body') :
    handler = handler' ∧ body = body' := by
  rw [← declaration?_eq_some_iff] at h h'
  simpa using h.symm.trans h'

end Node

/-- What can be wrong with a declaration that comes after these, and the place that is reported. What
is inside of it goes before its being declared twice. -/
inductive DeclarationFlaw (earlier : List Node) (node : Node) : Rejection → Prop where
  | notADeclaration : (∀ handler body, ¬ node.Declares handler body) →
      DeclarationFlaw earlier node ⟨node.span, .notADeclaration⟩
  | body {handler : Handler} {body : List Node} {r : Rejection} : node.Declares handler body →
      FirstFlaw (fun _ => Node.Flaw) (Node.allExpressions body) r → DeclarationFlaw earlier node r
  | duplicate {handler : Handler} {body : List Node} : node.Declares handler body →
      (∀ n ∈ Node.allExpressions body, n.Sound) →
      (∃ other ∈ earlier, ∃ otherBody, other.Declares handler otherBody) →
      DeclarationFlaw earlier node ⟨node.span, .duplicate handler⟩

section

variable {earlier nodes : List Node} {node : Node} {p q : Program} {r r' : Rejection}

theorem DeclarationFlaw.unique (h : DeclarationFlaw earlier node r)
    (h' : DeclarationFlaw earlier node r') : r = r' := by
  cases h with
  | notADeclaration hnone =>
    cases h' with
    | notADeclaration => rfl
    | body hdeclares | duplicate hdeclares => exact absurd hdeclares (hnone _ _)
  | body hdeclares hfirst =>
    cases h' with
    | notADeclaration hnone => exact absurd hdeclares (hnone _ _)
    | body hdeclares' hfirst' =>
      obtain ⟨-, rfl⟩ := hdeclares.unique hdeclares'
      refine FirstFlaw.unique ?_ hfirst hfirst'
      exact fun _ _ _ _ => Node.Flaw.unique
    | duplicate hdeclares' hsound =>
      obtain ⟨-, rfl⟩ := hdeclares.unique hdeclares'
      exact absurd (flawless_iff.mpr hsound) hfirst.not_flawless
  | duplicate hdeclares hsound =>
    cases h' with
    | notADeclaration hnone => exact absurd hdeclares (hnone _ _)
    | body hdeclares' hfirst =>
      obtain ⟨-, rfl⟩ := hdeclares.unique hdeclares'
      exact absurd (flawless_iff.mpr hsound) hfirst.not_flawless
    | duplicate hdeclares' =>
      obtain ⟨rfl, -⟩ := hdeclares.unique hdeclares'
      rfl

namespace Program

/-- The handlers that are declared in a program are those that these nodes declare. -/
def DeclaredBy (p : Program) (nodes : List Node) : Prop :=
  ∀ handler, p.body? handler ≠ none ↔ ∃ node ∈ nodes, ∃ body, node.Declares handler body

theorem DeclaredBy.setBody {handler : Handler} {body : List Node} (h : p.DeclaredBy earlier)
    (hdeclares : node.Declares handler body) (checked : Body) :
    (p.setBody handler checked).DeclaredBy (earlier ++ [node]) := by
  intro other
  rw [body?_setBody]
  simp only [List.mem_append, List.mem_singleton, or_and_right, exists_or, exists_eq_left, ← h other]
  by_cases hother : other = handler
  · subst hother
    simpa using Or.inr ⟨body, hdeclares⟩
  · have hnot : ¬ ∃ body, node.Declares other body := fun ⟨_, hother'⟩ =>
      hother (hother'.unique hdeclares).1
    simp [hother, hnot]

theorem add_of_not_declares (h : ∀ handler body, ¬ node.Declares handler body) :
    p.add node = .error ⟨node.span, .notADeclaration⟩ := by
  have hnone : node.declaration? = none := by
    rw [Option.eq_none_iff_forall_ne_some]
    rintro ⟨handler, body⟩ hdeclaration
    exact h handler body ((node.declaration?_eq_some_iff handler body).mp hdeclaration)
  rw [add, hnone]

theorem add_of_declares {handler : Handler} {body : List Node} (h : node.Declares handler body) :
    p.add node = Node.checkAll body >>= fun checked =>
      match p.body? handler with
      | none => .ok (p.setBody handler checked)
      | some _ => .error ⟨node.span, .duplicate handler⟩ := by
  rw [add, (node.declaration?_eq_some_iff handler body).mpr h]
  simp only [declare]
  cases p.body? handler <;> rfl

theorem add_cases (h : p.DeclaredBy earlier) (node : Node) :
    (∃ q, p.add node = .ok q ∧ q.DeclaredBy (earlier ++ [node]) ∧ ∀ r, ¬ DeclarationFlaw earlier node r) ∨
      ∃ r, p.add node = .error r ∧ DeclarationFlaw earlier node r := by
  by_cases hdeclares : ∃ handler body, node.Declares handler body
  · obtain ⟨handler, body, hdeclares⟩ := hdeclares
    have hbody := Node.checkAll_judged body
    rw [add_of_declares hdeclares]
    cases hchecked : Node.checkAll body with
    | error r =>
      rw [hchecked] at hbody
      cases hbody with
      | rejected hfirst => exact .inr ⟨r, rfl, .body hdeclares hfirst⟩
    | ok checked =>
      rw [hchecked] at hbody
      cases hbody with
      | passed hnone =>
        have hsound := flawless_iff.mp hnone
        simp only [bind, Except.bind]
        cases hslot : p.body? handler with
        | some other =>
          exact .inr ⟨_, rfl, .duplicate hdeclares hsound ((h handler).mp (by simp [hslot]))⟩
        | none =>
          refine .inl ⟨_, rfl, h.setBody hdeclares checked, ?_⟩
          rintro r (hnot | ⟨hdeclares', hfirst⟩ | ⟨hdeclares', -, hother⟩)
          · exact hnot _ _ hdeclares
          · obtain ⟨-, rfl⟩ := hdeclares.unique hdeclares'
            exact hfirst.not_flawless hnone
          · obtain ⟨rfl, -⟩ := hdeclares.unique hdeclares'
            exact (h handler).mpr hother hslot
  · have hnot : ∀ handler body, ¬ node.Declares handler body :=
      fun handler body h => hdeclares ⟨handler, body, h⟩
    exact .inr ⟨_, add_of_not_declares hnot, .notADeclaration hnot⟩

theorem foldlM_add_judged (h : p.DeclaredBy earlier) (hnone : Flawless DeclarationFlaw earlier) :
    Judged DeclarationFlaw (earlier ++ nodes) (nodes.foldlM add p) := by
  -- Along the nodes, those that are added already have no flaw and fill the slots that are taken.
  induction nodes generalizing earlier p with
  | nil => exact .passed (by simpa using hnone)
  | cons node nodes ih =>
    rw [List.foldlM_cons]
    rcases add_cases h node with ⟨q, hadd, hq, hnode⟩ | ⟨r, hadd, hflaw⟩
    · have hrest := ih hq (hnone.append_one hnode)
      rw [List.append_assoc, List.singleton_append] at hrest
      rw [hadd]
      exact hrest
    · rw [hadd]
      exact .rejected ⟨earlier, node, nodes, rfl, hnone, hflaw⟩

theorem ofNodes_judged (nodes : List Node) : Judged DeclarationFlaw nodes (ofNodes nodes) := by
  have hempty : ({} : Program).DeclaredBy [] := fun handler => by cases handler <;> simp [body?]
  exact foldlM_add_judged hempty flawless_nil

end Program
end

/-! ## The first defect -/

/-- A node passes if no expression in it has a flaw, and is otherwise rejected for the first one. A
script passes if no declaration has a flaw where it stands, and is otherwise rejected for the first
one. The diagnostic is at the place of that flaw, with its message. The three wrong numbers of operands
to `set` are told apart. -/
theorem first_defect_reported :
    (∀ node : Node,
      ((∃ expr, node.check = .ok expr) ↔ ∀ n ∈ node.expressions, n.Sound) ∧
      (∀ r, node.check = .error r ↔ FirstFlaw (fun _ => Node.Flaw) node.expressions r) ∧
      ∀ d, node.check.mapError Rejection.diagnostic = .error d ↔
        ∃ r, FirstFlaw (fun _ => Node.Flaw) node.expressions r ∧
          d = ⟨.nonrecoverable, r.location, r.defect.message⟩) ∧
    (∀ nodes : List Node,
      ((∃ p, Program.ofNodes nodes = .ok p) ↔ Flawless DeclarationFlaw nodes) ∧
      (∀ r, Program.ofNodes nodes = .error r ↔ FirstFlaw DeclarationFlaw nodes r) ∧
      ∀ d, (Program.ofNodes nodes).mapError Rejection.diagnostic = .error d ↔
        ∃ r, FirstFlaw DeclarationFlaw nodes r ∧
          d = ⟨.nonrecoverable, r.location, r.defect.message⟩) ∧
    [Defect.setWithoutOperands, .setWithoutValue, .setWithTooMany].Pairwise
      (·.message ≠ ·.message) := by
  have hnode (node : Node) :
      ∀ r, node.check = .error r ↔ FirstFlaw (fun _ => Node.Flaw) node.expressions r :=
    node.check_judged.eq_error_iff fun _ _ _ _ => Node.Flaw.unique
  have hnodes (nodes : List Node) :
      ∀ r, Program.ofNodes nodes = .error r ↔ FirstFlaw DeclarationFlaw nodes r :=
    (Program.ofNodes_judged nodes).eq_error_iff fun _ _ _ _ => DeclarationFlaw.unique
  refine ⟨fun node => ⟨?_, hnode node, fun d => ?_⟩, fun nodes => ⟨?_, hnodes nodes, fun d => ?_⟩,
    by decide⟩
  · rw [node.check_judged.exists_ok_iff]
    exact flawless_iff
  · simp only [mapError_diagnostic_eq_error_iff, hnode]
  · exact (Program.ofNodes_judged nodes).exists_ok_iff
  · simp only [mapError_diagnostic_eq_error_iff, hnodes]

end HandlerScript
