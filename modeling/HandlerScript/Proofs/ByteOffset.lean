import HandlerScript.Location

/-!
# From positions to bytes

The position after a text is counted character by character. Its row is told by the line feeds of the
text and its column by what comes after the last one, so that going through the rows once more leads to
the same place, counted in bytes.
-/

namespace HandlerScript

/-! ## Bytes -/

@[simp] theorem byteLength_nil : byteLength [] = 0 := rfl

@[simp] theorem byteLength_cons (c : Char) (text : List Char) :
    byteLength (c :: text) = c.utf8Size + byteLength text := rfl

@[simp] theorem byteLength_append (text other : List Char) :
    byteLength (text ++ other) = byteLength text + byteLength other := by
  induction text with
  | nil => simp
  | cons c text ih => simp [ih, Nat.add_assoc]

theorem utf8ByteSize_ofList (text : List Char) :
    (String.ofList text).utf8ByteSize = byteLength text := by
  induction text with
  | nil => rfl
  | cons c text ih =>
    rw [String.ofList_cons, String.utf8ByteSize_append, String.utf8ByteSize_singleton, ih,
      byteLength_cons]

theorem byteLength_toList (source : String) : byteLength source.toList = source.utf8ByteSize := by
  rw [← utf8ByteSize_ofList, String.ofList_toList]

theorem byteLength_pos {text : List Char} (hne : text ≠ []) : 0 < byteLength text := by
  obtain ⟨c, text, rfl⟩ := List.exists_cons_of_ne_nil hne
  rw [byteLength_cons]
  have := c.utf8Size_pos
  omega

theorem byteLength_le_of_isPrefix {text other : List Char} (h : text <+: other) :
    byteLength text ≤ byteLength other := by
  obtain ⟨rest, rfl⟩ := h
  rw [byteLength_append]
  exact Nat.le_add_right _ _

/-! ## Rows -/

/-- What comes after the last line feed of a text. -/
def lastRow (text : List Char) : List Char := (text.reverse.takeWhile (· ≠ '\n')).reverse

theorem lineFeed_not_mem_lastRow (text : List Char) : '\n' ∉ lastRow text := by
  intro h
  simpa using List.all_eq_true.mp List.all_takeWhile _ (List.mem_reverse.mp h)

theorem eq_lastRow_or (text : List Char) :
    text = lastRow text ∨ ∃ lines, text = lines ++ '\n' :: lastRow text := by
  have hsplit := congrArg List.reverse (text.reverse.takeWhile_append_dropWhile (p := (· ≠ '\n')))
  rw [List.reverse_append, List.reverse_reverse] at hsplit
  cases hbefore : text.reverse.dropWhile (· ≠ '\n') with
  | nil =>
    rw [hbefore] at hsplit
    exact .inl hsplit.symm
  | cons c lines =>
    have hc := List.head?_dropWhile_not (· ≠ '\n') text.reverse
    rw [hbefore] at hc
    obtain rfl : c = '\n' := by simpa using hc
    rw [hbefore, List.reverse_cons, List.append_assoc] at hsplit
    exact .inr ⟨lines.reverse, hsplit.symm⟩

namespace Position

theorem row_advanceAll (p : Position) (text : List Char) :
    (p.advanceAll text).row = p.row + text.count '\n' := by
  induction text generalizing p with
  | nil => rfl
  | cons c text ih =>
    rw [advanceAll_cons, ih, advance]
    by_cases hc : c = '\n'
    · subst hc
      simp
      omega
    · simp [hc]

theorem advanceAll_row (p : Position) {row : List Char} (h : '\n' ∉ row) :
    p.advanceAll row = ⟨p.row, p.col + row.length⟩ := by
  induction row generalizing p with
  | nil => rfl
  | cons c row ih =>
    obtain ⟨hc, hrow⟩ := not_or.mp (mt List.mem_cons.mpr h)
    rw [advanceAll_cons, ih _ hrow, advance, if_neg (Ne.symm hc), List.length_cons]
    simp only [mk.injEq, true_and]
    omega

theorem col_advanceAll_lineFeed (p : Position) (lines : List Char) {row : List Char} (h : '\n' ∉ row) :
    (p.advanceAll (lines ++ '\n' :: row)).col = 1 + row.length := by
  rw [advanceAll_append, advanceAll_cons, advanceAll_row _ h, advance, if_pos rfl]

/-- A row for every line feed, and a column for every character after the last one. -/
theorem advanceAll_start (text : List Char) :
    start.advanceAll text = ⟨1 + text.count '\n', 1 + (lastRow text).length⟩ := by
  have hcol : (start.advanceAll text).col = 1 + (lastRow text).length := by
    have hrow := lineFeed_not_mem_lastRow text
    have hcases := eq_lastRow_or text
    generalize lastRow text = row at hrow hcases ⊢
    rcases hcases with rfl | ⟨lines, rfl⟩
    · rw [advanceAll_row _ hrow]
      rfl
    · exact col_advanceAll_lineFeed _ _ hrow
  rw [← hcol]
  exact congrArg (mk · _) (row_advanceAll start text)

end Position

theorem afterLineFeeds_lines (offset : Nat) (lines text : List Char) :
    afterLineFeeds (lines.count '\n' + 1) offset (lines ++ '\n' :: text) =
      some (offset + byteLength lines + '\n'.utf8Size, text) := by
  induction lines generalizing offset with
  | nil => simp [afterLineFeeds]
  | cons c lines ih =>
    rw [List.cons_append, afterLineFeeds, byteLength_cons, ← Nat.add_assoc, ← ih]
    by_cases hc : c = '\n'
    · subst hc
      simp
    · simp [hc]

theorem afterLineFeeds_count (text rest : List Char) :
    ∃ offset, afterLineFeeds (text.count '\n') 0 (text ++ rest) = some (offset, lastRow text ++ rest) ∧
      offset + byteLength (lastRow text) = byteLength text := by
  have hcount := List.count_eq_zero.mpr (lineFeed_not_mem_lastRow text)
  rcases eq_lastRow_or text with htext | ⟨lines, htext⟩
  · rw [← htext] at hcount ⊢
    refine ⟨0, ?_, Nat.zero_add _⟩
    rw [hcount, afterLineFeeds]
  · generalize lastRow text = row at htext hcount ⊢
    subst htext
    have hlines : (lines ++ '\n' :: row).count '\n' = lines.count '\n' + 1 := by simp [hcount]
    refine ⟨byteLength lines + '\n'.utf8Size, ?_, ?_⟩
    · rw [hlines, List.append_assoc, List.cons_append, afterLineFeeds_lines, Nat.zero_add]
    · rw [byteLength_append, byteLength_cons, Nat.add_assoc]

theorem take_row {row : List Char} (h : '\n' ∉ row) (text : List Char) :
    ((row ++ text).takeWhile (· ≠ '\n')).take row.length = row := by
  have hrow : ∀ c ∈ row, decide (c ≠ '\n') = true := by
    intro c hc
    simpa using ne_of_mem_of_not_mem hc h
  rw [List.takeWhile_append_of_pos hrow, List.take_left]

/-! ## Offsets -/

theorem Position.byteOffset_advanceAll (text rest : List Char) :
    (Position.start.advanceAll text).byteOffset (text ++ rest) = byteLength text := by
  obtain ⟨offset, hafter, hoffset⟩ := afterLineFeeds_count text rest
  have hfeeds : lineFeedsBefore (text ++ rest) (1 + text.count '\n') = text.count '\n' := by
    rw [lineFeedsBefore, if_neg (by omega), Nat.add_sub_cancel_left]
  rw [advanceAll_start, byteOffset]
  simp only [hfeeds, hafter, Nat.add_sub_cancel_left, take_row (lineFeed_not_mem_lastRow text), hoffset]

theorem Location.byteRange_advanceAll (before text rest : List Char) :
    (⟨Position.start.advanceAll before, Position.start.advanceAll (before ++ text)⟩ :
        Location).byteRange (String.ofList (before ++ text ++ rest)) =
      (byteLength before, byteLength (before ++ text)) := by
  have hstart := Position.byteOffset_advanceAll before (text ++ rest)
  have hstop := Position.byteOffset_advanceAll (before ++ text) rest
  rw [← List.append_assoc] at hstart
  simp only [byteRange, String.toList_ofList, hstart, hstop, byteLength_append]
  rw [Nat.max_eq_left (Nat.le_add_right _ _)]

end HandlerScript
