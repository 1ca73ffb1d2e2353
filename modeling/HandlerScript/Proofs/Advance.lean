import HandlerScript.Proofs.ByteRange
import HandlerScript.Proofs.LookAhead
import HandlerScript.Proofs.Passage
import HandlerScript.Proofs.Spans

/-!
# What one node takes

A node that is read takes some of the text, is located by what it takes, and leaves the scopes as they were.
-/

namespace HandlerScript

/-! ## Reading on -/

namespace Cursor

/-- When these characters are read, the first cursor becomes the second one. -/
structure Leads (c : Cursor) (taken : List Char) (d : Cursor) : Prop where
  rest : c.rest = taken ++ d.rest
  position : d.position = c.position.advanceAll taken

variable {c d : Cursor} {taken : List Char} {source : String} {offset : Nat}

theorem Leads.size_eq (h : c.Leads taken d) : c.size = taken.length + d.size := by
  rw [size, size, h.rest, List.length_append]

theorem leads_skipWhile (p : Char → Bool) (c : Cursor) :
    c.Leads (c.takeWhile p) (c.skipWhile p) :=
  ⟨(takeWhile_append_skipWhile p c).symm, rfl⟩

theorem leads_next {char : Char} (h : c.peek = some char) : c.Leads [char] c.next := by
  obtain ⟨p, text⟩ := c
  obtain ⟨rest, rfl⟩ := List.head?_eq_some_iff.mp h
  exact ⟨rfl, rfl⟩

theorem IsAt.leads (h : c.IsAt source offset) (hleads : c.Leads taken d) :
    d.IsAt source (offset + byteLength taken) := by
  obtain ⟨⟨n, hn⟩, hoffset⟩ := h
  have hd : d = next^[taken.length] c := by
    rw [iterate_next, hleads.rest, List.take_left, List.drop_left, ← hleads.position]
  refine ⟨⟨taken.length + n, ?_⟩, ?_⟩
  · rw [Function.iterate_add_apply, ← hn, hd]
  · rw [hleads.rest, byteLength_append] at hoffset
    omega

theorem IsAt.isValid (h : c.IsAt source offset) : String.Pos.Raw.IsValid source ⟨offset⟩ := by
  obtain ⟨before, hsource, hlength, -⟩ := h.position_eq
  refine (isValid_iff source offset).mpr ⟨before, ?_, hlength⟩
  rw [hsource]
  exact List.prefix_append _ _

theorem isAt_start (source : String) : (start source.toList).IsAt source 0 := by
  refine ⟨⟨0, rfl⟩, ?_⟩
  rw [Nat.zero_add, start, byteLength_toList]

end Cursor

/-! ## One node -/

namespace Reader

theorem openLists_enter_topLevel (r : Reader) : (r.enter .topLevel).openLists = r.openLists := by
  simp [openLists, enter]

theorem openLists_enter_list (r : Reader) : (r.enter .list).openLists = r.openLists + 1 := by
  simp [openLists, enter]

/-- What is taken for a node has at least one character, and is what the node is located by. The scopes
are as they were before. -/
structure Advances (r : Reader) (node : Node) (next : Reader) : Prop where
  took : ∃ taken, taken ≠ [] ∧ r.cursor.Leads taken next.cursor
  scopes : next.scopes = r.scopes
  span : node.span = ⟨r.position, next.position⟩

variable {r next : Reader} {node : Node} {source : String} {offset : Nat}

theorem Advances.size_lt (h : r.Advances node next) : next.size < r.size := by
  obtain ⟨taken, hne, hleads⟩ := h.took
  have hpos := List.length_pos_iff.mpr hne
  have hsize : r.size = taken.length + next.size := hleads.size_eq
  omega

theorem Advances.openLists (h : r.Advances node next) : next.openLists = r.openLists := by
  rw [Reader.openLists, h.scopes, Reader.openLists]

theorem Advances.isAt (h : r.Advances node next) (hr : r.cursor.IsAt source offset) :
    ∃ offset', next.cursor.IsAt source offset' ∧ offset < offset' := by
  obtain ⟨taken, hne, hleads⟩ := h.took
  exact ⟨_, hr.leads hleads, Nat.lt_add_of_pos_right (byteLength_pos hne)⟩

end Reader

section

variable {scopes : List Scope} {p : Position} {text : List Char} {node : Node} {next : Reader}

theorem AtomResult.advances (h : AtomResult scopes p text (.ok (node, next))) :
    Reader.Advances ⟨⟨p, text⟩, scopes⟩ node next := by
  cases h with
  | @read word left _ htext hatom _ =>
    obtain ⟨c, rest, hword, -⟩ := hatom.head
    have hne : word ≠ [] := by rw [hword]; exact List.cons_ne_nil _ _
    exact ⟨⟨word, hne, htext, rfl⟩, rfl, hatom.span_eq⟩

theorem Reader.list_advances (hlimit : listsIn scopes < nestingLimit)
    (h : (list ⟨⟨p, '(' :: text⟩, scopes⟩).outcome = .ok (node, next)) :
    Reader.Advances ⟨⟨p, '(' :: text⟩, scopes⟩ node next := by
  have hitems := items_result (⟨.list, p⟩ :: scopes) (p.advance '(') text (by simp)
    (by rw [listsIn_list]; omega)
  rw [list_outcome p text scopes hlimit] at h
  cases hresult : Items.outcome (items ⟨⟨p.advance '(', text⟩, ⟨.list, p⟩ :: scopes⟩) with
  | error f =>
    rw [hresult] at h
    cases h
  | ok result =>
    rw [hresult] at h hitems
    cases hitems with
    | @read inside left children htext _ _ =>
      cases h
      have hposition := Position.advanceAll_between p '(' ')' inside
      exact ⟨⟨'(' :: (inside ++ [')']), by simp, by simp [htext, leave], hposition.symm⟩, rfl, rfl⟩

theorem Reader.node_advances {r : Reader} (h : r.node.outcome = .ok (node, next)) :
    r.Advances node next := by
  obtain ⟨⟨p, text⟩, scopes⟩ := r
  rw [node_outcome_eq_foreseen] at h
  unfold foreseen at h
  split at h
  · cases h
  · next text htext =>
    obtain rfl := htext
    split at h
    · next hlimit => exact list_advances hlimit h
    · cases h
  · next text htext =>
    obtain rfl := htext
    exact (h ▸ string_result p text scopes).advances
  · next text htext =>
    obtain rfl := htext
    exact (h ▸ keyName_result p text scopes).advances
  · next c text _ _ _ htext =>
    obtain rfl := htext
    split at h
    · next hdigit =>
      have hnumber := (startsNumeral_cons_iff p c text).mpr hdigit
      exact (h ▸ number_result p (c :: text) scopes hnumber).advances
    · next hdigit =>
      have hnumber := mt (startsNumeral_cons_iff p c text).mp hdigit
      split at h
      · next hsymbol =>
        exact (h ▸ symbol_result p c text scopes hsymbol (by simpa using hnumber)).advances
      · cases h

end

end HandlerScript
