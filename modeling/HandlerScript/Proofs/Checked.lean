import HandlerScript.Check

/-!
# What was checked

What a node is like if it passes: one statement for each kind of list.
-/

namespace HandlerScript

theorem bind_eq_ok {α β : Type} {x : Except Rejection α} {k : α → Except Rejection β} {b : β}
    (h : (x >>= k) = .ok b) : ∃ a, x = .ok a ∧ k a = .ok b := by
  cases x with
  | ok a => exact ⟨a, rfl, h⟩
  | error r => cases h

namespace Node

variable {span : Location} {node head : Node} {nodes operands : List Node} {expr : Expr}

theorem asName_eq_ok {defect : Defect} {name : Name} (h : node.asName defect = .ok name) :
    node = .symbol name.span name.text := by
  cases node <;> cases h
  rfl

theorem check_key_eq_ok {name : String} (h : (key span name).check = .ok expr) :
    ∃ code, Key.resolve name = some code ∧ expr = .key span code := by
  rw [check] at h
  split at h <;> cases h
  exact ⟨_, ‹_›, rfl⟩

theorem check_list_eq_ok (h : (list span (head :: operands)).check = .ok expr) :
    ∃ name, head = .symbol name.span name.text ∧
      ((name.text = "if" ∧ checkIf span operands = .ok expr) ∨
        (name.text = "set" ∧ checkSet span operands = .ok expr) ∨
        (name.text ≠ "if" ∧ name.text ≠ "set" ∧
          ∃ arguments, checkAll operands = .ok arguments ∧ expr = .call span name arguments)) := by
  rw [check] at h
  obtain ⟨name, hname, hform⟩ := bind_eq_ok h
  refine ⟨name, asName_eq_ok hname, ?_⟩
  split at hform
  · exact .inl ⟨‹_›, hform⟩
  · split at hform
    · exact .inr (.inl ⟨‹_›, hform⟩)
    · obtain ⟨arguments, harguments, hcall⟩ := bind_eq_ok hform
      cases hcall
      exact .inr (.inr ⟨‹_›, ‹_›, arguments, harguments, rfl⟩)

theorem checkIf_eq_ok (h : checkIf span operands = .ok expr) :
    ∃ condition body condition' body', operands = condition :: body ∧
      condition.check = .ok condition' ∧ checkAll body = .ok body' ∧
      expr = .cond span condition' body' := by
  cases operands with
  | nil => cases h
  | cons condition body =>
    rw [checkIf] at h
    obtain ⟨condition', hcondition, h⟩ := bind_eq_ok h
    obtain ⟨body', hbody, h⟩ := bind_eq_ok h
    cases h
    exact ⟨condition, body, condition', body', rfl, hcondition, hbody, rfl⟩

theorem checkSet_eq_ok (h : checkSet span operands = .ok expr) :
    ∃ name value value', operands = [.symbol name.span name.text, value] ∧
      value.check = .ok value' ∧ expr = .set span name value' := by
  match operands with
  | [] => cases h
  | [_] => cases h
  | [target, value] =>
    rw [checkSet] at h
    obtain ⟨name, hname, h⟩ := bind_eq_ok h
    obtain ⟨value', hvalue, h⟩ := bind_eq_ok h
    cases h
    obtain rfl := asName_eq_ok hname
    exact ⟨name, value, value', rfl, hvalue, rfl⟩
  | _ :: _ :: _ :: _ => cases h

theorem checkAll_cons_eq_ok {exprs : List Expr} (h : checkAll (node :: nodes) = .ok exprs) :
    ∃ expr others, node.check = .ok expr ∧ checkAll nodes = .ok others ∧ exprs = expr :: others := by
  rw [checkAll] at h
  obtain ⟨expr, hexpr, h⟩ := bind_eq_ok h
  obtain ⟨others, hothers, h⟩ := bind_eq_ok h
  cases h
  exact ⟨expr, others, hexpr, hothers, rfl⟩

theorem declaration?_eq_some {handler : Handler} {body : List Node}
    (h : node.declaration? = some (handler, body)) :
    ∃ span span', node = .list span (.symbol span' handler.name :: body) := by
  unfold declaration? at h
  split at h
  · next span span' name body' =>
    obtain ⟨found, hfound, heq⟩ := Option.map_eq_some_iff.mp h
    obtain ⟨rfl, rfl⟩ := Prod.mk.inj heq
    have hname : found.name = name := by
      simpa using List.find?_some hfound
    rw [hname]
    exact ⟨span, span', rfl⟩
  · cases h

end Node

theorem Program.add_eq_ok {p q : Program} {node : Node} (h : p.add node = .ok q) :
    ∃ handler nodes body, node.declaration? = some (handler, nodes) ∧
      Node.checkAll nodes = .ok body ∧ p.body? handler = none ∧ q = p.setBody handler body := by
  rw [add] at h
  cases hdeclaration : node.declaration? with
  | none => simp [hdeclaration] at h
  | some declaration =>
    obtain ⟨handler, nodes⟩ := declaration
    simp only [hdeclaration] at h
    obtain ⟨body, hbody, h⟩ := bind_eq_ok h
    refine ⟨handler, nodes, body, rfl, hbody, ?_⟩
    rw [declare] at h
    cases hslot : p.body? handler with
    | none =>
      simp only [hslot, Except.ok.injEq] at h
      exact ⟨rfl, h.symm⟩
    | some _ => simp [hslot] at h

end HandlerScript
