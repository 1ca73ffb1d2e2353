import HandlerScript.Proofs.ByteOffset
import HandlerScript.Reader.Cursor
import Mathlib.Logic.Function.Iterate

/-!
# Byte ranges

Any position stands for a place in the text, and what is before that place is whole characters. Places
are in the order of their positions if rows count from 1, so a location within another one has its bytes
within those of the other.
-/

namespace HandlerScript

/-! ## What stands before a place -/

/-- The text up to so many line feeds, and then so many characters, but no further than the row goes. -/
def upTo : (lineFeeds columns : Nat) → List Char → List Char
  | 0, columns, text => (text.takeWhile (· ≠ '\n')).take columns
  | _ + 1, _, [] => []
  | lineFeeds + 1, columns, c :: text =>
    c :: upTo (if c = '\n' then lineFeeds else lineFeeds + 1) columns text

section

variable {lineFeeds lineFeeds' columns columns' : Nat}

theorem upTo_isPrefix (lineFeeds columns : Nat) (text : List Char) :
    upTo lineFeeds columns text <+: text := by
  induction text generalizing lineFeeds with
  | nil => cases lineFeeds <;> simp [upTo]
  | cons c text ih =>
    cases lineFeeds with
    | zero => exact (List.take_prefix columns _).trans (List.takeWhile_prefix _)
    | succ lineFeeds => exact (List.prefix_cons_inj c).mpr (ih _)

theorem upTo_zero_cons (columns : Nat) {c : Char} (h : c ≠ '\n') (text : List Char) :
    upTo 0 (columns + 1) (c :: text) = c :: upTo 0 columns text := by
  simp [upTo, h]

theorem upTo_mono (h : lineFeeds < lineFeeds' ∨ lineFeeds = lineFeeds' ∧ columns ≤ columns')
    (text : List Char) : upTo lineFeeds columns text <+: upTo lineFeeds' columns' text := by
  induction text generalizing lineFeeds lineFeeds' columns columns' with
  | nil => cases lineFeeds <;> simp [upTo]
  | cons c text ih =>
    cases lineFeeds with
    | zero =>
      cases lineFeeds' with
      | zero =>
        obtain ⟨-, hcolumns⟩ := h.resolve_left (Nat.lt_irrefl 0)
        exact List.take_prefix_take_left hcolumns
      | succ lineFeeds' =>
        -- The row ends before the later place comes.
        by_cases hc : c = '\n'
        · simp [upTo, hc]
        · cases columns with
          | zero => simp [upTo]
          | succ columns =>
            have hlater : upTo (lineFeeds' + 1) columns' (c :: text) =
                c :: upTo (lineFeeds' + 1) columns' text := by
              simp [upTo, hc]
            rw [upTo_zero_cons columns hc, hlater, List.prefix_cons_inj]
            exact ih (.inl (Nat.succ_pos _))
    | succ lineFeeds =>
      cases lineFeeds' with
      | zero => omega
      | succ lineFeeds' =>
        rw [upTo, upTo, List.prefix_cons_inj]
        refine ih ?_
        split <;> omega

/-! ## Bytes before a place -/

/-- So many bytes are whole characters exactly if they are those of a text that the source starts with. -/
theorem isValid_iff (source : String) (i : Nat) :
    String.Pos.Raw.IsValid source ⟨i⟩ ↔ ∃ before, before <+: source.toList ∧ byteLength before = i := by
  rw [String.Pos.Raw.isValid_iff_exists_append]
  constructor
  · rintro ⟨before, rest, rfl, heq⟩
    refine ⟨before.toList, ?_, ?_⟩
    · rw [String.toList_append]
      exact List.prefix_append _ _
    · rw [byteLength_toList, ← String.byteIdx_rawEndPos, ← heq]
  · rintro ⟨before, ⟨rest, hrest⟩, rfl⟩
    refine ⟨String.ofList before, String.ofList rest, ?_, ?_⟩
    · rw [← String.ofList_append, hrest, String.ofList_toList]
    · rw [String.Pos.Raw.ext_iff, String.byteIdx_rawEndPos, utf8ByteSize_ofList]

theorem afterLineFeeds_spec (lineFeeds columns offset : Nat) (text : List Char) :
    (match afterLineFeeds lineFeeds offset text with
      | none => offset + byteLength text
      | some (first, row) => first + byteLength ((row.takeWhile (· ≠ '\n')).take columns)) =
      offset + byteLength (upTo lineFeeds columns text) := by
  induction text generalizing lineFeeds offset with
  | nil => cases lineFeeds <;> simp [afterLineFeeds, upTo]
  | cons c text ih =>
    cases lineFeeds with
    | zero => rfl
    | succ lineFeeds =>
      have hih := ih (if c = '\n' then lineFeeds else lineFeeds + 1) (offset + c.utf8Size)
      rw [afterLineFeeds, upTo, byteLength_cons, byteLength_cons, ← Nat.add_assoc, ← Nat.add_assoc]
      exact hih

namespace Position

theorem byteOffset_eq (p : Position) (text : List Char) :
    p.byteOffset text = byteLength (upTo (lineFeedsBefore text p.row) (p.col - 1) text) := by
  have hspec := afterLineFeeds_spec (lineFeedsBefore text p.row) (p.col - 1) 0 text
  simp only [Nat.zero_add] at hspec
  exact hspec

theorem byteOffset_le (p : Position) (source : String) :
    p.byteOffset source.toList ≤ source.utf8ByteSize := by
  rw [byteOffset_eq, ← byteLength_toList]
  exact byteLength_le_of_isPrefix (upTo_isPrefix _ _ _)

theorem isValid_byteOffset (p : Position) (source : String) :
    String.Pos.Raw.IsValid source ⟨p.byteOffset source.toList⟩ := by
  rw [byteOffset_eq]
  exact (isValid_iff _ _).mpr ⟨_, upTo_isPrefix _ _ _, rfl⟩

theorem byteOffset_mono {p q : Position} (hrow : 1 ≤ p.row) (h : p ≤ q) (text : List Char) :
    p.byteOffset text ≤ q.byteOffset text := by
  rw [le_def] at h
  rw [byteOffset_eq, byteOffset_eq, lineFeedsBefore, lineFeedsBefore, if_neg (by omega),
    if_neg (by omega)]
  refine byteLength_le_of_isPrefix (upTo_mono ?_ text)
  omega

/-- Row 0 is the last one, so it does not come before row 1. -/
example : (⟨0, 1⟩ : Position).byteOffset ['a', '\n', 'b'] = 2 ∧
    (⟨1, 1⟩ : Position).byteOffset ['a', '\n', 'b'] = 0 := by decide

end Position

end

/-! ## Reading on from the start -/

namespace Cursor

theorem iterate_next (c : Cursor) (n : Nat) :
    next^[n] c = ⟨c.position.advanceAll (c.rest.take n), c.rest.drop n⟩ := by
  induction n generalizing c with
  | zero => rfl
  | succ n ih =>
    rw [Function.iterate_succ_apply, ih]
    obtain ⟨p, _ | ⟨char, rest⟩⟩ := c
    · simp [next]
    · rfl

/-- Reading on from the start, one gets here with so many bytes read. -/
def IsAt (c : Cursor) (source : String) (offset : Nat) : Prop :=
  (∃ n, c = next^[n] (start source.toList)) ∧ offset + byteLength c.rest = source.utf8ByteSize

variable {c : Cursor} {source : String} {offset : Nat}

theorem IsAt.position_eq (h : c.IsAt source offset) :
    ∃ before, source.toList = before ++ c.rest ∧ byteLength before = offset ∧
      c.position = Position.start.advanceAll before := by
  obtain ⟨⟨n, rfl⟩, hoffset⟩ := h
  rw [iterate_next] at hoffset ⊢
  have hsource : source.toList = source.toList.take n ++ source.toList.drop n :=
    (List.take_append_drop n _).symm
  have hlength := congrArg byteLength hsource
  rw [byteLength_append, byteLength_toList] at hlength
  refine ⟨source.toList.take n, hsource, ?_, rfl⟩
  simp only [start] at hoffset
  omega

theorem exists_isAt (h : String.Pos.Raw.IsValid source ⟨offset⟩) : ∃ c : Cursor, c.IsAt source offset := by
  obtain ⟨before, ⟨rest, hsource⟩, rfl⟩ := (isValid_iff _ _).mp h
  refine ⟨next^[before.length] (start source.toList), ⟨_, rfl⟩, ?_⟩
  rw [iterate_next, start, ← byteLength_toList, ← hsource, List.drop_left, byteLength_append]

theorem IsAt.byteOffset (h : c.IsAt source offset) : c.position.byteOffset source.toList = offset := by
  obtain ⟨before, hsource, rfl, hposition⟩ := h.position_eq
  rw [hposition, hsource]
  exact Position.byteOffset_advanceAll before c.rest

end Cursor

namespace Location

theorem byteRange_valid (l : Location) (source : String) :
    (l.byteRange source).1 ≤ (l.byteRange source).2 ∧
      (l.byteRange source).2 ≤ source.utf8ByteSize ∧
      String.Pos.Raw.IsValid source ⟨(l.byteRange source).1⟩ ∧
      String.Pos.Raw.IsValid source ⟨(l.byteRange source).2⟩ := by
  simp only [byteRange]
  refine ⟨Nat.le_max_right _ _, Nat.max_le.mpr ⟨?_, ?_⟩, l.start.isValid_byteOffset source, ?_⟩
  · exact l.stop.byteOffset_le source
  · exact l.start.byteOffset_le source
  · rcases Nat.le_total (l.stop.byteOffset source.toList) (l.start.byteOffset source.toList) with h | h
    · rw [Nat.max_eq_right h]
      exact l.start.isValid_byteOffset source
    · rw [Nat.max_eq_left h]
      exact l.stop.isValid_byteOffset source

theorem Contains.byteRange_le {a b : Location} (h : a.Contains b) (hrow : 1 ≤ a.start.row)
    (hb : b.start ≤ b.stop) (source : String) :
    (a.byteRange source).1 ≤ (b.byteRange source).1 ∧
      (b.byteRange source).2 ≤ (a.byteRange source).2 := by
  obtain ⟨hstart, hstop⟩ := h
  have hstartRow : 1 ≤ b.start.row := by
    rw [Position.le_def] at hstart
    omega
  have hstopRow : 1 ≤ b.stop.row := by
    rw [Position.le_def] at hb
    omega
  have hfirst := Position.byteOffset_mono hrow hstart source.toList
  have hinside := Position.byteOffset_mono hstartRow hb source.toList
  have hlast := Position.byteOffset_mono hstopRow hstop source.toList
  refine ⟨hfirst, ?_⟩
  simp only [byteRange]
  omega

end Location

/-- The byte range of a location goes back from positions to the offsets they were reached at. Whatever
the location, its range is in order and inside of the source, from one boundary between characters to
another. If rows count from 1, a location within another one has its range within that of the other. -/
theorem byteRange_of_locations (source : String) :
    (∀ i j, i ≤ j → String.Pos.Raw.IsValid source ⟨i⟩ → String.Pos.Raw.IsValid source ⟨j⟩ →
      (∃ c d : Cursor, c.IsAt source i ∧ d.IsAt source j) ∧
      ∀ c d : Cursor, c.IsAt source i → d.IsAt source j →
        (⟨c.position, d.position⟩ : Location).byteRange source = (i, j)) ∧
    (∀ l : Location, (l.byteRange source).1 ≤ (l.byteRange source).2 ∧
      (l.byteRange source).2 ≤ source.utf8ByteSize ∧
      String.Pos.Raw.IsValid source ⟨(l.byteRange source).1⟩ ∧
      String.Pos.Raw.IsValid source ⟨(l.byteRange source).2⟩) ∧
    ∀ a b : Location, 1 ≤ a.start.row → b.start ≤ b.stop → a.Contains b →
      (a.byteRange source).1 ≤ (b.byteRange source).1 ∧
        (b.byteRange source).2 ≤ (a.byteRange source).2 := by
  refine ⟨?_, fun l => l.byteRange_valid source, ?_⟩
  · intro i j hij hi hj
    obtain ⟨c, hc⟩ := Cursor.exists_isAt hi
    obtain ⟨d, hd⟩ := Cursor.exists_isAt hj
    refine ⟨⟨c, d, hc, hd⟩, ?_⟩
    intro c d hc hd
    simp only [Location.byteRange, hc.byteOffset, hd.byteOffset, Nat.max_eq_left hij]
  · intro a b hrow hb hcontains
    exact hcontains.byteRange_le hrow hb source

/-- A column past the end of its row stands for the end of the row, and a row past the last one for the
end of the text. -/
theorem byteRange_of_locations_past_end :
    let source := "éé\nb"
    let inner : Location := ⟨⟨1, 2⟩, ⟨1, 9⟩⟩
    let outer : Location := ⟨⟨1, 1⟩, ⟨9, 0⟩⟩
    (∃ c d : Cursor, c.IsAt source 2 ∧ d.IsAt source 6 ∧
      (⟨c.position, d.position⟩ : Location).byteRange source = (2, 6)) ∧
      inner.byteRange source = (2, 4) ∧ outer.byteRange source = (0, 6) ∧ outer.Contains inner ∧
      (outer.byteRange source).1 ≤ (inner.byteRange source).1 ∧
        (inner.byteRange source).2 ≤ (outer.byteRange source).2 := by
  intro source inner outer
  have hvalid : String.Pos.Raw.IsValid source ⟨2⟩ ∧ String.Pos.Raw.IsValid source ⟨6⟩ :=
    ⟨(isValid_iff _ _).mpr ⟨['é'], by decide, by decide⟩,
      (isValid_iff _ _).mpr ⟨['é', 'é', '\n', 'b'], by decide, by decide⟩⟩
  obtain ⟨hreached, -, hcontained⟩ := byteRange_of_locations source
  obtain ⟨⟨c, d, hc, hd⟩, hrange⟩ := hreached 2 6 (by decide) hvalid.1 hvalid.2
  exact ⟨⟨c, d, hc, hd, hrange c d hc hd⟩, by decide, by decide, by decide,
    hcontained outer inner (by decide) (by decide) (by decide)⟩

end HandlerScript
