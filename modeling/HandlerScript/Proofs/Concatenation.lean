import HandlerScript.Proofs.Passage
import HandlerScript.Proofs.Spans
import HandlerScript.Proofs.ViablePrefix

/-!
# Scripts one after the other

A script that can be read leaves nothing behind: with blanks after it, the next script is read as if
it stood alone, and only the positions in it are other ones.
-/

namespace HandlerScript

/-! ## Positions in the second script -/

namespace Position

/-- The same position where the script starts at `origin` and not at the first row and column. Only
the first row has its columns moved. -/
def movedTo (p origin : Position) : Position :=
  if p.row = 1 then ⟨origin.row, origin.col + p.col - 1⟩ else ⟨origin.row + p.row - 1, p.col⟩

theorem movedTo_advance {p : Position} (h : start ≤ p) (origin : Position) (c : Char) :
    (p.advance c).movedTo origin = (p.movedTo origin).advance c := by
  simp only [le_def, start] at h
  by_cases hc : c = '\n'
  · -- After a line feed the row is not the first one.
    subst hc
    simp only [movedTo, advance, if_true]
    split <;> split <;> simp only [mk.injEq, and_true] <;> omega
  · simp only [movedTo, advance, if_neg hc]
    split
    · simp only [mk.injEq, true_and]
      omega
    · rfl

theorem movedTo_advanceAll {p : Position} (h : start ≤ p) (origin : Position) (text : List Char) :
    (p.advanceAll text).movedTo origin = (p.movedTo origin).advanceAll text := by
  induction text generalizing p with
  | nil => rfl
  | cons c text ih =>
    rw [advanceAll_cons, advanceAll_cons, ih (le_advance h c), movedTo_advance h]

end Position

/-! ## A stall at another place -/

section

variable (f : Position → Position)

def Scope.map (scope : Scope) : Scope := ⟨scope.kind, f scope.start⟩

def Cursor.map (c : Cursor) : Cursor := ⟨f c.position, c.rest⟩

def Reader.map (r : Reader) : Reader := ⟨r.cursor.map f, r.scopes.map (Scope.map f)⟩

/-- The failure with another position wherever it has one. -/
def Failure.map (failure : Failure) : Failure :=
  ⟨failure.fault, failure.origin.map f, failure.reader.map f⟩

def Diagnostic.mapSpan (d : Diagnostic) : Diagnostic := ⟨d.severity, d.location.map f, d.message⟩

theorem listsIn_map (scopes : List Scope) : listsIn (scopes.map (Scope.map f)) = listsIn scopes := by
  unfold listsIn
  rw [List.countP_map]
  rfl

theorem scopesAt_map (scopes : List Scope) (p : Position) :
    scopesAt (scopes.map (Scope.map f)) (f p) = (scopesAt scopes p).map (Scope.map f) := by
  cases scopes <;> rfl

theorem Fault.scope_map (fault : Fault) (p : Position) :
    (fault.scope p).map (Scope.map f) = fault.scope (f p) := by
  cases fault <;> rfl

theorem Reader.blamedStart_map (r : Reader) : (r.map f).blamedStart = f r.blamedStart := by
  obtain ⟨cursor, scopes⟩ := r
  match scopes with
  | [] => rfl
  | [_] => rfl
  | scope :: outer :: _ =>
    unfold map blamedStart
    simp only [List.map_cons]
    unfold Scope.map
    split <;> rfl

end

section

variable {f : Position → Position} {failure : Failure} {scopes : List Scope} {p : Position}
  {read taken left : List Char}

theorem Failure.Halts.moved (h : failure.Halts scopes p taken left)
    (hf : ∀ text, f (p.advanceAll text) = (f p).advanceAll text) :
    (failure.map f).Halts (scopes.map (Scope.map f)) (f p) taken left := by
  obtain ⟨hreader, horigin⟩ := h
  constructor
  · unfold map
    rw [hreader]
    simp only [Reader.map, Cursor.map, List.map_append, Fault.scope_map, hf]
  · intro hfault
    unfold map
    rw [horigin hfault]
    rfl

/-- The way to a stall is the same in another place, if positions go on from there as they did. -/
theorem Breaks.moved (h : Breaks failure left scopes p read)
    (hf : ∀ text, f (p.advanceAll text) = (f p).advanceAll text) :
    Breaks (failure.map f) left (scopes.map (Scope.map f)) (f p) read := by
  induction h with
  | @stall scopes p q done taken nodes hdone hdepth hq hstall hhalts =>
    have hfq : ∀ text, f (q.advanceAll text) = (f q).advanceAll text := by
      rw [hq]
      exact Position.advanceAll_after hf done
    refine .stall (hdone.moved hf) ?_ (hq ▸ hf done) ?_ ?_
    · rwa [listsIn_map, Node.depthAll_mapAllSpans]
    · rwa [listsIn_map]
    · rw [scopesAt_map]
      exact hhalts.moved hfq
  | @list scopes p q done read nodes hdone hdepth hq hlimit _ ih =>
    have hfq : ∀ text, f (q.advanceAll text) = (f q).advanceAll text := by
      rw [hq]
      exact Position.advanceAll_after hf done
    have hopen : f (q.advance '(') = (f q).advance '(' := hfq ['(']
    refine .list (hdone.moved hf) ?_ (hq ▸ hf done) (by rwa [listsIn_map]) ?_
    · rwa [listsIn_map, Node.depthAll_mapAllSpans]
    · rw [scopesAt_map, ← hopen]
      exact ih (Position.advanceAll_after hfq ['('])

theorem Breaks.diagnostic_moved (h : Breaks failure left scopes p read)
    (hf : ∀ text, f (p.advanceAll text) = (f p).advanceAll text) :
    (failure.map f).diagnostic = failure.diagnostic.mapSpan f := by
  have hnext : (failure.map f).reader.cursor.next.position =
      f failure.reader.cursor.next.position := by
    simp only [Failure.map, Reader.map, Cursor.map, h.cursor]
    cases left with
    | nil => rfl
    | cons c left =>
      exact (Position.advanceAll_after hf read [c]).symm
  have hstart : (failure.map f).reader.blamedStart = f failure.reader.blamedStart :=
    Reader.blamedStart_map f failure.reader
  simp only [Failure.diagnostic, Failure.location, hnext, hstart, Diagnostic.mapSpan, Location.map]
  rfl

end

/-! ## One script after the other -/

section

variable {first between second : String} {nodes : List Node}

theorem IsReading.before (h : IsReading first nodes) (hne : between ≠ "")
    (hblank : ∀ c ∈ between.toList, isBlank c) (after : List Char) :
    Reads Numeral.IsFinite after .start (first ++ between).toList nodes := by
  have hdelimited : Delimited (between.toList ++ after) := by
    cases hchars : between.toList with
    | nil => exact absurd (String.toList_eq_nil_iff.mp hchars) hne
    | cons c chars =>
      rw [hchars] at hblank
      simp [isDelimiter, hblank c List.mem_cons_self]
  have hblanks : Reads Numeral.IsFinite after (Position.start.advanceAll first.toList)
      between.toList [] := .blanks _ hblank
  simpa using h.1.append hblanks fun _ => hdelimited

theorem IsReading.concat (h : IsReading first nodes) (hne : between ≠ "")
    (hblank : ∀ c ∈ between.toList, isBlank c) {others : List Node}
    (h' : IsReading second others) :
    IsReading (first ++ between ++ second)
      (nodes ++ Node.mapAllSpans
        (Location.map (·.movedTo (Position.start.advanceAll (first ++ between).toList))) others) := by
  obtain ⟨hread, hdepth⟩ := h'
  generalize horigin : Position.start.advanceAll (first ++ between).toList = origin
  have hmoved := hread.moved (f := (·.movedTo origin))
    (Position.movedTo_advanceAll (Position.le_refl _) origin)
  constructor
  · rw [String.toList_append]
    refine (h.before hne hblank second.toList).append ?_ fun hd => ?_
    · rw [horigin]
      exact hmoved
    · simpa using hd
  · rw [Node.depthAll_append, Node.depthAll_mapAllSpans]
    exact Nat.max_le.mpr ⟨h.2, hdepth⟩

end

/-- After a script that can be read and some blanks, a second script is read as it is alone, and
fails as it does alone. Its positions are moved to where it starts. -/
theorem parse_concat (first between second : String) (nodes : List Node)
    (h : parse first = .ok nodes) (hne : between ≠ "")
    (hblank : ∀ c ∈ between.toList, isBlank c) :
    let move := fun p : Position => p.movedTo (Position.start.advanceAll (first ++ between).toList)
    parse (first ++ between ++ second) = match parse second with
      | .ok others => .ok (nodes ++ Node.mapAllSpans (Location.map move) others)
      | .error d => .error ⟨d.severity, d.location.map move, d.message⟩ := by
  intro move
  have hfirst := (parse_eq_ok_iff first nodes).mp h
  rcases parse_cases second with ⟨others, hok, hsecond⟩ | ⟨f, read, left, herror, -, htext, hbreaks⟩
  · rw [hok, parse_eq_ok_iff]
    exact hfirst.concat hne hblank hsecond
  · have hmove : ∀ text, move (Position.start.advanceAll text) = (move .start).advanceAll text :=
      Position.movedTo_advanceAll (Position.le_refl _) _
    have hmoved := hbreaks.moved hmove
    have hbefore := hmoved.prepend (hfirst.before hne hblank (read ++ left))
      (by simpa [listsIn] using hfirst.2)
    rw [herror, hbefore.parse_eq (by simp [htext]), hbreaks.diagnostic_moved hmove]
    rfl

theorem parse_concat_second_row :
    parse "f" = .ok [.symbol ⟨⟨1, 1⟩, ⟨1, 2⟩⟩ "f"] ∧ " \n " ≠ "" ∧
      (∀ c ∈ " \n ".toList, isBlank c) ∧
      parse ("f" ++ " \n " ++ "x\n(y%") =
        .error ⟨.nonrecoverable, ⟨⟨3, 1⟩, ⟨3, 4⟩⟩, "malformed symbol"⟩ := by
  have hfirst : parse "f" = .ok [.symbol ⟨⟨1, 1⟩, ⟨1, 2⟩⟩ "f"] := by
    unfold parse
    have hchars : "f".toList = ['f'] := by decide
    rw [hchars]
    cbv
  have hprogram : (Reader.start "x\n(y%".toList).program =
      .error ⟨.malformedSymbol, ⟨⟨2, 2⟩, ['y', '%']⟩,
        ⟨⟨⟨2, 3⟩, ['%']⟩, [⟨.list, ⟨2, 1⟩⟩, ⟨.topLevel, ⟨2, 1⟩⟩]⟩⟩ := by
    cbv
  have hsecond := parse_of_program_error hprogram
  have hchars : " \n ".toList = [' ', '\n', ' '] := by decide
  have hblank : ∀ c ∈ " \n ".toList, isBlank c := by simp [hchars, isBlank]
  have hne : " \n " ≠ "" := by simp
  have hconcat := parse_concat "f" " \n " "x\n(y%" _ hfirst hne hblank
  rw [hsecond] at hconcat
  exact ⟨hfirst, hne, hblank, hconcat⟩

end HandlerScript
