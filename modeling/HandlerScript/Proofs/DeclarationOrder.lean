import HandlerScript.Proofs.Slots

/-!
# The order of declarations

Two nodes that can be added to a program one after the other fill two slots, so they can be added the
other way round, with the same result. Any order of a script comes from its own by such exchanges.
-/

namespace HandlerScript
namespace Program

variable {p q : Program} {nodes nodes' : List Node}

theorem setBody_comm (p : Program) {handler handler' : Handler} (body body' : Body)
    (h : handler ≠ handler') :
    (p.setBody handler body).setBody handler' body' =
      (p.setBody handler' body').setBody handler body := by
  cases handler <;> cases handler' <;> first | rfl | exact absurd rfl h

theorem add_comm {middle : Program} {first second : Node} (hfirst : p.add first = .ok middle)
    (hsecond : middle.add second = .ok q) :
    ∃ middle', p.add second = .ok middle' ∧ middle'.add first = .ok q := by
  obtain ⟨handler, body, hoffers, hslot, rfl⟩ := (add_eq_ok_iff p middle first).mp hfirst
  obtain ⟨handler', body', hoffers', hslot', rfl⟩ := (add_eq_ok_iff _ q second).mp hsecond
  rw [body?_setBody] at hslot'
  have hne : handler' ≠ handler := by
    rintro rfl
    simp at hslot'
  rw [if_neg hne] at hslot'
  refine ⟨p.setBody handler' body', ?_, ?_⟩
  · exact (add_eq_ok_iff _ _ _).mpr ⟨handler', body', hoffers', hslot', rfl⟩
  · refine (add_eq_ok_iff _ _ _).mpr ⟨handler, body, hoffers, ?_, setBody_comm p body body' hne.symm⟩
    rw [body?_setBody, if_neg hne.symm]
    exact hslot

theorem foldlM_add_perm (h : nodes.Perm nodes') (hq : nodes.foldlM add p = .ok q) :
    nodes'.foldlM add p = .ok q := by
  induction h generalizing p with
  | nil => exact hq
  | cons node _ ih =>
    rw [List.foldlM_cons] at hq ⊢
    obtain ⟨middle, hadd, hrest⟩ := bind_eq_ok hq
    rw [hadd]
    exact ih hrest
  | swap second first nodes =>
    rw [List.foldlM_cons] at hq
    obtain ⟨middle, hfirst, hq⟩ := bind_eq_ok hq
    rw [List.foldlM_cons] at hq
    obtain ⟨both, hsecond, hrest⟩ := bind_eq_ok hq
    obtain ⟨middle', hsecond', hfirst'⟩ := add_comm hfirst hsecond
    rw [List.foldlM_cons, hsecond']
    change List.foldlM add middle' _ = _
    rw [List.foldlM_cons, hfirst']
    exact hrest
  | trans _ _ ih ih' => exact ih' (ih hq)

end Program

/-- The declarations of a script may be put in any order: they make up the same program, with all its
locations, or are rejected in each order. -/
theorem declarations_in_any_order (nodes nodes' : List Node) (h : nodes.Perm nodes') :
    (∀ p, Program.ofNodes nodes = .ok p → Program.ofNodes nodes' = .ok p) ∧
      ((∃ r, Program.ofNodes nodes = .error r) → ∃ r, Program.ofNodes nodes' = .error r) := by
  refine ⟨fun p hp => Program.foldlM_add_perm h hp, ?_⟩
  rintro ⟨r, hr⟩
  cases hnodes' : Program.ofNodes nodes' with
  | error r' => exact ⟨r', rfl⟩
  | ok p =>
    have hnodes : Program.ofNodes nodes = .ok p := Program.foldlM_add_perm h.symm hnodes'
    cases hr.symm.trans hnodes

theorem declarations_in_any_order_draw_first :
    let draw : Node := .list ⟨⟨1, 1⟩, ⟨1, 7⟩⟩ [.symbol ⟨⟨1, 2⟩, ⟨1, 6⟩⟩ "draw"]
    let init : Node := .list ⟨⟨2, 1⟩, ⟨2, 9⟩⟩
      [.symbol ⟨⟨2, 2⟩, ⟨2, 6⟩⟩ "init", .key ⟨⟨2, 7⟩, ⟨2, 9⟩⟩ "a"]
    let program : Program := { init := some [.key ⟨⟨2, 7⟩, ⟨2, 9⟩⟩ 97], draw := some [] }
    [draw, init].Perm [init, draw] ∧ Program.ofNodes [draw, init] = .ok program ∧
      Program.ofNodes [init, draw] = .ok program := by
  intro draw init program
  have hperm : [draw, init].Perm [init, draw] := .swap init draw []
  have hdraw : Program.ofNodes [draw, init] = .ok program := rfl
  exact ⟨hperm, hdraw, (declarations_in_any_order _ _ hperm).1 _ hdraw⟩

end HandlerScript
