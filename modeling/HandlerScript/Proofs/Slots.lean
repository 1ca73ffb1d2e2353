import HandlerScript.Proofs.FirstDefect
import Mathlib.Data.List.Forall2

/-!
# Slots are written once

A program has a slot for the body of each handler. A declaration and a node that stands for one both
offer a body for one slot, and the first offer for a slot is the one that stays in it.
-/

namespace HandlerScript

variable {p q : Program} {handler handler' : Handler} {body body' : Body}

/-! ## What a node offers -/

theorem Node.checkAll_eq_ok_iff (nodes : List Node) (exprs : List Expr) :
    checkAll nodes = .ok exprs ↔ List.Forall₂ (fun node expr => node.check = .ok expr) nodes exprs := by
  constructor
  · intro h
    induction nodes generalizing exprs with
    | nil =>
      cases h
      exact .nil
    | cons node nodes ih =>
      obtain ⟨expr, others, hexpr, hothers, rfl⟩ := checkAll_cons_eq_ok h
      exact .cons hexpr (ih others hothers)
  · intro h
    induction h with
    | nil => rfl
    | cons hexpr _ ih =>
      rw [checkAll, hexpr, ih]
      rfl

/-- The node declares this handler, and all that is inside passes and gives this body. -/
def Node.Offers (node : Node) (handler : Handler) (body : Body) : Prop :=
  ∃ nodes, node.Declares handler nodes ∧
    List.Forall₂ (fun node expr => node.check = .ok expr) nodes body

theorem Node.Offers.unique {node : Node} (h : node.Offers handler body)
    (h' : node.Offers handler' body') : handler = handler' ∧ body = body' := by
  obtain ⟨nodes, hdeclares, hbody⟩ := h
  obtain ⟨nodes', hdeclares', hbody'⟩ := h'
  obtain ⟨rfl, rfl⟩ := hdeclares.unique hdeclares'
  rw [← Node.checkAll_eq_ok_iff] at hbody hbody'
  exact ⟨rfl, Except.ok.inj (hbody.symm.trans hbody')⟩

namespace Program

theorem add_of_offers {node : Node} (h : node.Offers handler body) (p : Program) :
    p.add node = match p.body? handler with
      | none => .ok (p.setBody handler body)
      | some _ => .error ⟨node.span, .duplicate handler⟩ := by
  obtain ⟨nodes, hdeclares, hbody⟩ := h
  rw [add_of_declares hdeclares, (Node.checkAll_eq_ok_iff nodes body).mpr hbody]
  rfl

theorem add_eq_ok_iff (p q : Program) (node : Node) :
    p.add node = .ok q ↔ ∃ handler body, node.Offers handler body ∧ p.body? handler = none ∧
      q = p.setBody handler body := by
  constructor
  · intro h
    obtain ⟨handler, nodes, body, hdeclaration, hbody, hslot, rfl⟩ := add_eq_ok h
    refine ⟨handler, body, ⟨nodes, ?_, ?_⟩, hslot, rfl⟩
    · exact (node.declaration?_eq_some_iff handler nodes).mp hdeclaration
    · exact (Node.checkAll_eq_ok_iff nodes body).mp hbody
  · rintro ⟨handler, body, hoffers, hslot, rfl⟩
    rw [add_of_offers hoffers, hslot]

end Program

/-! ## One step -/

/-- What may be done with a program: declare a handler, or add what a node stands for. -/
inductive Step where
  | declare (handler : Handler) (body : Body)
  | add (node : Node)
  deriving Repr

/-- What comes of a step that fails. -/
inductive Refusal where
  | handedBack (body : Body)
  | rejected (diagnostic : Diagnostic)
  deriving Repr

namespace Step

def Offers : Step → Handler → Body → Prop
  | declare offered checked, handler, body => offered = handler ∧ checked = body
  | add node, handler, body => node.Offers handler body

def OffersFor (step : Step) (handler : Handler) : Prop := ∃ body, step.Offers handler body

/-- What comes of the step if the slot of this handler is taken. -/
def tooLate (handler : Handler) : Step → Refusal
  | declare _ body => .handedBack body
  | add node =>
    .rejected ⟨.nonrecoverable, node.span, "duplicate " ++ handler.name ++ " declaration"⟩

theorem Offers.unique {step : Step} (h : step.Offers handler body)
    (h' : step.Offers handler' body') : handler = handler' ∧ body = body' := by
  cases step with
  | declare offered checked =>
    obtain ⟨rfl, rfl⟩ := h
    exact h'
  | add node => exact Node.Offers.unique h h'

end Step

namespace Program

def step (p : Program) : Step → Except Refusal Program
  | .declare handler body => (p.declare handler body).mapError .handedBack
  | .add node => (p.add node).mapError fun rejection => .rejected rejection.diagnostic

/-- The program after a step. A step that fails leaves it as it was. -/
def after (p : Program) (step : Step) : Program :=
  match p.step step with
  | .ok q => q
  | .error _ => p

def run (p : Program) (steps : List Step) : Program := steps.foldl after p

variable {step : Step}

theorem step_of_offers (h : step.Offers handler body) (p : Program) :
    p.step step = match p.body? handler with
      | none => .ok (p.setBody handler body)
      | some _ => .error (step.tooLate handler) := by
  cases step with
  | declare offered checked =>
    obtain ⟨rfl, rfl⟩ := h
    rw [Program.step, declare]
    cases p.body? offered <;> rfl
  | add node =>
    rw [Program.step, add_of_offers h]
    cases p.body? handler <;> rfl

theorem step_of_not_offers (h : ∀ handler, ¬ step.OffersFor handler) (p : Program) :
    ∃ refusal, p.step step = .error refusal := by
  cases step with
  | declare handler body => exact absurd ⟨body, rfl, rfl⟩ (h handler)
  | add node =>
    cases hadd : p.add node with
    | ok q =>
      obtain ⟨handler, body, hoffers, -, -⟩ := (add_eq_ok_iff p q node).mp hadd
      exact absurd ⟨body, hoffers⟩ (h handler)
    | error rejection =>
      refine ⟨.rejected rejection.diagnostic, ?_⟩
      rw [Program.step, hadd]
      rfl

theorem after_of_offers (h : step.Offers handler body) (p : Program) :
    p.after step = if p.body? handler = none then p.setBody handler body else p := by
  unfold after
  rw [step_of_offers h]
  cases p.body? handler <;> rfl

theorem after_of_not_offers (h : ∀ handler, ¬ step.OffersFor handler) (p : Program) :
    p.after step = p := by
  obtain ⟨refusal, hstep⟩ := step_of_not_offers h p
  unfold after
  rw [hstep]

/-- A step does nothing, or fills one free slot with what it offers. -/
theorem after_cases (p : Program) (step : Step) :
    p.after step = p ∨ ∃ handler body, step.Offers handler body ∧ p.body? handler = none ∧
      p.after step = p.setBody handler body := by
  by_cases hoffers : ∃ handler body, step.Offers handler body
  · obtain ⟨handler, body, hoffers⟩ := hoffers
    rw [after_of_offers hoffers]
    by_cases hslot : p.body? handler = none
    · exact .inr ⟨handler, body, hoffers, hslot, if_pos hslot⟩
    · exact .inl (if_neg hslot)
  · exact .inl (after_of_not_offers (fun handler h => hoffers ⟨handler, h⟩) p)

theorem body?_after_of_some (h : p.body? handler = some body) (step : Step) :
    (p.after step).body? handler = some body := by
  rcases p.after_cases step with hafter | ⟨other, offered, -, hslot, hafter⟩
  · rw [hafter, h]
  · have hne : handler ≠ other := by
      rintro rfl
      simp [h] at hslot
    rw [hafter, body?_setBody, if_neg hne, h]

theorem body?_after_of_offers (hslot : p.body? handler = none) (h : step.Offers handler body) :
    (p.after step).body? handler = some body := by
  rw [after_of_offers h, if_pos hslot, body?_setBody, if_pos rfl]

theorem body?_after_of_not_offersFor (h : ¬ step.OffersFor handler) (p : Program) :
    (p.after step).body? handler = p.body? handler := by
  rcases p.after_cases step with hafter | ⟨other, offered, hoffers, -, hafter⟩
  · rw [hafter]
  · have hne : handler ≠ other := by
      rintro rfl
      exact h ⟨offered, hoffers⟩
    rw [hafter, body?_setBody, if_neg hne]

theorem vars_after (p : Program) (step : Step) : (p.after step).vars = p.vars := by
  rcases p.after_cases step with hafter | ⟨handler, body, -, -, hafter⟩
  · rw [hafter]
  · rw [hafter]
    cases handler <;> rfl

end Program

/-! ## A whole run -/

/-- The first step that offers a body for this handler offers this one. -/
def FirstOffer (steps : List Step) (handler : Handler) (body : Body) : Prop :=
  ∃ before step after, steps = before ++ step :: after ∧ step.Offers handler body ∧
    ∀ earlier ∈ before, ¬ earlier.OffersFor handler

section

variable {step : Step} {steps : List Step}

theorem not_firstOffer_nil : ¬ FirstOffer [] handler body := by
  rintro ⟨before, step, after, heq, -⟩
  simp at heq

theorem firstOffer_cons_of_offers (h : step.Offers handler body) :
    FirstOffer (step :: steps) handler body' ↔ body = body' := by
  constructor
  · rintro ⟨before, first, after, heq, hoffers, hbefore⟩
    cases before with
    | nil =>
      obtain ⟨rfl, -⟩ := List.cons.inj heq
      exact (h.unique hoffers).2
    | cons earlier before =>
      obtain ⟨rfl, -⟩ := List.cons.inj heq
      exact absurd ⟨body, h⟩ (hbefore step List.mem_cons_self)
  · rintro rfl
    exact ⟨[], step, steps, rfl, h, nofun⟩

theorem firstOffer_cons_of_not_offersFor (h : ¬ step.OffersFor handler) :
    FirstOffer (step :: steps) handler body ↔ FirstOffer steps handler body := by
  constructor
  · rintro ⟨before, first, after, heq, hoffers, hbefore⟩
    cases before with
    | nil =>
      obtain ⟨rfl, -⟩ := List.cons.inj heq
      exact absurd ⟨body, hoffers⟩ h
    | cons earlier before =>
      obtain ⟨-, rfl⟩ := List.cons.inj heq
      exact ⟨before, first, after, rfl, hoffers, (List.forall_mem_cons.mp hbefore).2⟩
  · rintro ⟨before, first, after, rfl, hoffers, hbefore⟩
    exact ⟨step :: before, first, after, rfl, hoffers, List.forall_mem_cons.mpr ⟨h, hbefore⟩⟩

end

namespace Program

theorem body?_run_of_some (h : p.body? handler = some body) (steps : List Step) :
    (p.run steps).body? handler = some body := by
  induction steps generalizing p with
  | nil => exact h
  | cons step steps ih => exact ih (body?_after_of_some h step)

theorem body?_run_of_none (h : p.body? handler = none) (steps : List Step) (body : Body) :
    (p.run steps).body? handler = some body ↔ FirstOffer steps handler body := by
  induction steps generalizing p with
  | nil =>
    have hnone : (p.run []).body? handler = none := h
    rw [hnone]
    exact ⟨nofun, fun hfirst => absurd hfirst not_firstOffer_nil⟩
  | cons step steps ih =>
    change ((p.after step).run steps).body? handler = some body ↔ _
    by_cases hoffers : step.OffersFor handler
    · obtain ⟨offered, hoffers⟩ := hoffers
      rw [body?_run_of_some (body?_after_of_offers h hoffers), firstOffer_cons_of_offers hoffers,
        Option.some.injEq]
    · rw [ih ((body?_after_of_not_offersFor hoffers p).trans h),
        firstOffer_cons_of_not_offersFor hoffers]

theorem body?_run_eq_none_iff (h : p.body? handler = none) (steps : List Step) :
    (p.run steps).body? handler = none ↔ ∀ step ∈ steps, ¬ step.OffersFor handler := by
  induction steps generalizing p with
  | nil => exact ⟨fun _ => nofun, fun _ => h⟩
  | cons step steps ih =>
    change ((p.after step).run steps).body? handler = none ↔ _
    rw [List.forall_mem_cons]
    by_cases hoffers : step.OffersFor handler
    · obtain ⟨offered, hoffers'⟩ := hoffers
      rw [body?_run_of_some (body?_after_of_offers h hoffers')]
      exact ⟨nofun, fun hnone => absurd ⟨offered, hoffers'⟩ hnone.1⟩
    · rw [ih ((body?_after_of_not_offersFor hoffers p).trans h)]
      exact ⟨fun hsteps => ⟨hoffers, hsteps⟩, fun hsteps => hsteps.2⟩

theorem vars_run (p : Program) (steps : List Step) : (p.run steps).vars = p.vars := by
  induction steps generalizing p with
  | nil => rfl
  | cons step steps ih => exact (ih (p.after step)).trans (p.vars_after step)

theorem body?_empty (handler : Handler) : ({} : Program).body? handler = none := by
  cases handler <;> rfl

theorem declared_eq (p : Program) : p.declared = ", ".intercalate
    (([Handler.init, .update, .draw].filter fun handler => (p.body? handler).isSome).map
      Handler.name) := by
  obtain ⟨vars, init, update, draw⟩ := p
  cases init <;> cases update <;> cases draw <;> rfl

end Program

/-- After any steps on an empty program each slot holds what was offered for it first. A step that
offers for such a slot again fails: a declaration hands its body back, and a node is a duplicate
declaration. One that offers nothing fails in any case. -/
theorem first_offer_stays (steps : List Step) :
    let p := ({} : Program).run steps
    (∀ handler body, p.body? handler = some body ↔ FirstOffer steps handler body) ∧
    (∀ handler, p.body? handler = none ↔ ∀ step ∈ steps, ¬ step.OffersFor handler) ∧
    (∀ before step after, steps = before ++ step :: after →
      let q := ({} : Program).run before
      (∀ handler, step.OffersFor handler → (∃ earlier ∈ before, earlier.OffersFor handler) →
        q.step step = .error (step.tooLate handler)) ∧
      ((∀ handler, ¬ step.OffersFor handler) → ∃ refusal, q.step step = .error refusal)) ∧
    p.vars = [] ∧
    p.declared = ", ".intercalate
      (([Handler.init, .update, .draw].filter fun handler => (p.body? handler).isSome).map
        Handler.name) := by
  have hnone : ∀ steps handler, (({} : Program).run steps).body? handler = none ↔
      ∀ step ∈ steps, ¬ step.OffersFor handler :=
    fun steps handler => Program.body?_run_eq_none_iff (Program.body?_empty handler) steps
  refine ⟨?_, hnone steps, ?_, Program.vars_run {} steps, Program.declared_eq _⟩
  · exact fun handler => Program.body?_run_of_none (Program.body?_empty handler) steps
  · intro before step after _
    refine ⟨?_, fun h => Program.step_of_not_offers h _⟩
    rintro handler ⟨body, hoffers⟩ ⟨earlier, hearlier, hother⟩
    rw [Program.step_of_offers hoffers]
    cases hslot : (({} : Program).run before).body? handler with
    | none => exact absurd hother ((hnone before handler).mp hslot earlier hearlier)
    | some _ => rfl

/-- The second step comes too late, and the third offers nothing. -/
example : (({} : Program).run [.declare .draw [], .add (.list default [.symbol default "draw"]),
    .add (.symbol default "update"), .add (.list default [.symbol default "init"])]).declared =
      "init, draw" := by decide

end HandlerScript
