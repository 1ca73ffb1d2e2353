import HandlerScript.Proofs.Advance
import Mathlib.Logic.Relation

/-!
# Reading makes progress

Each node that is read takes some of the text and leaves as many lists open as there were. So the program
and all its lists get to the end of their nodes, and there are never too many lists open.
-/

namespace HandlerScript

/-! ## Stages of reading -/

/-- What is to be read next: the nodes of a program that are left, those of a list that are left, or one
node. -/
inductive Stage where
  | program (r : Reader)
  | items (r : Reader)
  | node (r : Reader)

namespace Stage

def reader : Stage → Reader
  | .program r | .items r | .node r => r

/-- The next stage: a node is begun or, when it has been read, the program or the list goes on after it. -/
inductive Next : Stage → Stage → Prop where
  | programNode {r : Reader} {c : Char} : r.skipBlanks.peek = some c → c ≠ ')' →
      Next (.program r) (.node (r.skipBlanks.enter .topLevel))
  | programRest {r next : Reader} {c : Char} {node : Node} : r.skipBlanks.peek = some c → c ≠ ')' →
      (r.skipBlanks.enter .topLevel).node.outcome = .ok (node, next) →
      Next (.program r) (.program next.leave)
  | listItems {r : Reader} : r.peek = some '(' → r.openLists < nestingLimit →
      Next (.node r) (.items (r.enter .list).next)
  | itemsNode {r : Reader} {c : Char} : r.skipBlanks.peek = some c → c ≠ ')' →
      Next (.items r) (.node r.skipBlanks)
  | itemsRest {r next : Reader} {c : Char} {node : Node} : r.skipBlanks.peek = some c → c ≠ ')' →
      r.skipBlanks.node.outcome = .ok (node, next) → Next (.items r) (.items next)

/-- Reading this script gets to this stage. -/
def Reached (source : String) (stage : Stage) : Prop :=
  Relation.ReflTransGen Next (.program (.start source.toList)) stage

/-- What holds whenever reading gets to a stage. -/
structure Sound (source : String) (stage : Stage) : Prop where
  isAt : ∃ offset, stage.reader.cursor.IsAt source offset
  openLists_le : stage.reader.openLists ≤ nestingLimit

variable {r last : Reader} {stage later : Stage} {source : String}

theorem Next.sound (h : stage.Next later) (hstage : stage.Sound source) : later.Sound source := by
  obtain ⟨⟨offset, hoffset⟩, hlists⟩ := hstage
  cases h with
  | @programNode r c hpeek hclose =>
    refine ⟨⟨_, hoffset.leads (r.cursor.leads_skipWhile isBlank)⟩, ?_⟩
    exact (r.skipBlanks.openLists_enter_topLevel).trans_le hlists
  | @programRest r next c node hpeek hclose hnode =>
    have hadvances := Reader.node_advances hnode
    obtain ⟨offset', hoffset', -⟩ :=
      hadvances.isAt (hoffset.leads (r.cursor.leads_skipWhile isBlank))
    have hscopes : next.leave.scopes = r.scopes := by
      rw [Reader.leave, hadvances.scopes]
      rfl
    refine ⟨⟨offset', hoffset'⟩, ?_⟩
    change next.leave.scopes.countP _ ≤ _
    rw [hscopes]
    exact hlists
  | @listItems r hpeek hlimit =>
    refine ⟨⟨_, hoffset.leads (Cursor.leads_next hpeek)⟩, ?_⟩
    exact r.openLists_enter_list.trans_le hlimit
  | @itemsNode r c hpeek hclose =>
    exact ⟨⟨_, hoffset.leads (r.cursor.leads_skipWhile isBlank)⟩, hlists⟩
  | @itemsRest r next c node hpeek hclose hnode =>
    have hadvances := Reader.node_advances hnode
    obtain ⟨offset', hoffset', -⟩ :=
      hadvances.isAt (hoffset.leads (r.cursor.leads_skipWhile isBlank))
    exact ⟨⟨offset', hoffset'⟩, hadvances.openLists.trans_le hlists⟩

theorem Reached.sound (h : Reached source stage) : stage.Sound source := by
  induction h with
  | refl => exact ⟨⟨0, Cursor.isAt_start source⟩, Nat.zero_le _⟩
  | tail _ hnext ih => exact hnext.sound ih

/-! ## Reading comes to an end -/

/-- Gets smaller from stage to stage. Blanks may be missing, so a node begins with as much left as the
program or the list that it is in. -/
def rank : Stage → Nat
  | .program r | .items r => 2 * r.size + 1
  | .node r => 2 * r.size

theorem Next.rank_lt (h : stage.Next later) : later.rank < stage.rank := by
  cases h with
  | @programNode r c hpeek hclose | @itemsNode r c hpeek hclose =>
    have hsize := r.size_skipBlanks_le
    change 2 * r.skipBlanks.size < 2 * r.size + 1
    omega
  | @programRest r next c node hpeek hclose hnode | @itemsRest r next c node hpeek hclose hnode =>
    have hsize := r.size_skipBlanks_le
    have hnext : next.size < r.skipBlanks.size := (Reader.node_advances hnode).size_lt
    change 2 * next.size + 1 < 2 * r.size + 1
    omega
  | @listItems r hpeek hlimit =>
    have hnext : r.next.size < r.size := Cursor.size_next_lt hpeek
    change 2 * r.next.size + 1 < 2 * r.size
    omega

theorem wellFounded_next : WellFounded fun later earlier : Stage => earlier.Next later :=
  Subrelation.wf Next.rank_lt (measure rank).wf

theorem exists_end {nodes : List Node} (h : r.program = .ok nodes) :
    ∃ last, Relation.ReflTransGen Next (.program r) (.program last) ∧
      last.skipBlanks.peek = none := by
  induction hn : r.size using Nat.strongRecOn generalizing r nodes with
  | ind n ih =>
  cases hpeek : r.skipBlanks.peek with
  | none => exact ⟨r, .refl, hpeek⟩
  | some c =>
    by_cases hclose : c = ')'
    · rw [Reader.program_close (hclose ▸ hpeek)] at h
      cases h
    rw [Reader.program_node hpeek hclose] at h
    cases hnode : (r.skipBlanks.enter .topLevel).node.outcome with
    | error f =>
      rw [hnode] at h
      cases h
    | ok result =>
      obtain ⟨node, next⟩ := result
      have hsize := r.size_skipBlanks_le
      have hnext : next.size < r.skipBlanks.size := (Reader.node_advances hnode).size_lt
      rw [hnode] at h
      cases hrest : next.leave.program with
      | error f =>
        simp [bind, Except.bind, hrest, Except.map] at h
      | ok rest =>
        obtain ⟨last, hlast, hend⟩ := ih next.leave.size (by change next.size < n; omega) hrest rfl
        exact ⟨last, .head (.programRest hpeek hclose hnode) hlast, hend⟩

theorem program_ok (h : Relation.ReflTransGen Next stage (.program last))
    (hlast : last.skipBlanks.peek = none) :
    ∃ r nodes, stage = .program r ∧ r.program = .ok nodes := by
  induction h using Relation.ReflTransGen.head_induction_on with
  | refl => exact ⟨last, [], rfl, Reader.program_end hlast⟩
  | head hnext _ ih =>
    obtain ⟨r', nodes, rfl, hrest⟩ := ih
    cases hnext with
    | @programRest r next c node hpeek hclose hnode =>
      refine ⟨r, node :: nodes, rfl, ?_⟩
      rw [Reader.program_node hpeek hclose, hnode]
      simp only [bind, Except.bind]
      rw [hrest]
      rfl

theorem parse_ok_iff (source : String) :
    (∃ nodes, parse source = .ok nodes) ↔
      ∃ r, Reached source (.program r) ∧ r.skipBlanks.peek = none := by
  constructor
  · rintro ⟨nodes, hparse⟩
    unfold parse at hparse
    cases hprogram : (Reader.start source.toList).program with
    | error f =>
      rw [hprogram] at hparse
      cases hparse
    | ok nodes' => exact exists_end hprogram
  · rintro ⟨last, hreached, hend⟩
    obtain ⟨r, nodes, hstart, hprogram⟩ := program_ok hreached hend
    cases hstart
    refine ⟨nodes, ?_⟩
    rw [parse, hprogram]
    rfl

end Stage

/-- Wherever reading gets to, a node that is read takes at least one whole character, leaves the scopes as
they were and is located from where it began to where reading goes on. No more than 128 lists are open at
once. There is no endless row of stages, and a script can be read exactly if its end is one of them. -/
theorem reading_progresses (source : String) :
    (∀ r node next, Stage.Reached source (.node r) → r.node.outcome = .ok (node, next) →
      ∃ first last, r.cursor.IsAt source first ∧ next.cursor.IsAt source last ∧ first < last ∧
        last ≤ source.utf8ByteSize ∧ String.Pos.Raw.IsValid source ⟨last⟩ ∧
        next.scopes = r.scopes ∧ node.span = ⟨r.position, next.position⟩) ∧
    (∀ stage, Stage.Reached source stage → stage.reader.openLists ≤ 128) ∧
    (WellFounded fun later earlier : Stage => earlier.Next later) ∧
    ((∃ nodes, parse source = .ok nodes) ↔
      ∃ r, Stage.Reached source (.program r) ∧ r.skipBlanks.peek = none) := by
  refine ⟨?_, fun stage h => h.sound.openLists_le, Stage.wellFounded_next, Stage.parse_ok_iff source⟩
  intro r node next hreached hnode
  have hadvances := Reader.node_advances hnode
  obtain ⟨first, hfirst⟩ := hreached.sound.isAt
  obtain ⟨last, hlast, hlt⟩ := hadvances.isAt hfirst
  have hsize := hlast.2
  exact ⟨first, last, hfirst, hlast, hlt, by omega, hlast.isValid, hadvances.scopes, hadvances.span⟩

/-- A node in a list, after a character of two bytes. -/
theorem reading_progresses_in_list :
    let source := "(\"é\" (a))"
    let r : Reader :=
      ⟨⟨⟨1, 6⟩, ['(', 'a', ')', ')']⟩, [⟨.list, .start⟩, ⟨.topLevel, .start⟩]⟩
    let next : Reader := ⟨⟨⟨1, 9⟩, [')']⟩, r.scopes⟩
    let node : Node := .list ⟨⟨1, 6⟩, ⟨1, 9⟩⟩ [.symbol ⟨⟨1, 7⟩, ⟨1, 8⟩⟩ "a"]
    Stage.Reached source (.node r) ∧ r.node.outcome = .ok (node, next) ∧
      (∃ first last, r.cursor.IsAt source first ∧ next.cursor.IsAt source last ∧ first < last ∧
        last ≤ source.utf8ByteSize ∧ String.Pos.Raw.IsValid source ⟨last⟩ ∧
        next.scopes = r.scopes ∧ node.span = ⟨r.position, next.position⟩) ∧
      r.openLists ≤ 128 := by
  intro source r next node
  have hsource : Reader.start source.toList =
      ⟨⟨.start, ['(', '"', 'é', '"', ' ', '(', 'a', ')', ')']⟩, []⟩ := by decide
  have hstring : (Reader.node ⟨⟨⟨1, 2⟩, ['"', 'é', '"', ' ', '(', 'a', ')', ')']⟩,
      [⟨.list, .start⟩, ⟨.topLevel, .start⟩]⟩).outcome =
      .ok (.string ⟨⟨1, 2⟩, ⟨1, 5⟩⟩ "é",
        ⟨⟨⟨1, 5⟩, [' ', '(', 'a', ')', ')']⟩, [⟨.list, .start⟩, ⟨.topLevel, .start⟩]⟩) := by
    cbv
  have hnode : (Reader.node ⟨⟨⟨1, 6⟩, ['(', 'a', ')', ')']⟩,
      [⟨.list, .start⟩, ⟨.topLevel, .start⟩]⟩).outcome = .ok (node, next) := by
    cbv
  have hreached : Stage.Reached source (.node r) := by
    unfold Stage.Reached
    rw [hsource]
    refine .head (.programNode (c := '(') rfl (by decide)) ?_
    refine .head (.listItems rfl (by decide)) ?_
    refine .head (.itemsRest (c := '"') rfl (by decide) hstring) ?_
    exact .single (.itemsNode (c := '(') rfl (by decide))
  obtain ⟨hprogress, hlists, -⟩ := reading_progresses source
  exact ⟨hreached, hnode, hprogress r node next hreached hnode, hlists _ hreached⟩

end HandlerScript
