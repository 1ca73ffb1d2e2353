import HandlerScript.Proofs.Json.Writing

/-!
# The layout of JSON texts

Indented text stands for the same value as compact text: only blanks are added, and only where the
grammar lets them stand. Compact text is one line, as line feeds in strings are escaped.
-/

namespace HandlerScript.Json

/-! ## Indented text -/

theorem isBlank_newLine (depth : Nat) : ∀ c ∈ newLine depth, isBlank c := by
  intro c hc
  unfold newLine at hc
  rcases List.mem_cons.mp hc with rfl | hc
  · rfl
  · rw [List.eq_of_mem_replicate hc]
    rfl

section

variable {α : Type} {entry : List Char → α → List Char → Prop} {texts : List (List Char)}
  {entries : List α}

theorem block_entries (h : List.Forall₂ (Writes entry) texts entries) (depth : Nat)
    (opening closing : Char) (left : List Char) :
    ∃ inside, block depth opening closing texts ++ left = opening :: inside ∧
      Entries entry closing inside entries left := by
  cases h with
  | nil => exact ⟨closing :: left, rfl, .none (.none _)⟩
  | cons htext hrest =>
    refine ⟨_, ?_, entries_separated (.cons htext hrest) (isBlank_newLine (depth + 1))
      (isBlank_newLine depth) closing left⟩
    simp [block]

end

mutual

theorem writes_indentedChars (depth : Nat) : (v : Json) → v.Finite →
    Writes ValueText (v.indentedChars depth) v
  | .null, h | .bool _, h | .natural _, h | .real _, h | .string _, h => by
    simpa [indentedChars, compactChars] using writes_compactChars _ h
  | .array items, h => fun left => by
    obtain ⟨inside, htext, hitems⟩ := block_entries
      (writes_indentedItems (depth + 1) items fun _ => h.item) depth '[' ']' left
    rw [indentedChars, htext]
    exact .array hitems
  | .object fields, h => fun left => by
    obtain ⟨inside, htext, hfields⟩ := block_entries
      (writes_indentedFields (depth + 1) fields fun _ => h.field) depth '{' '}' left
    rw [indentedChars, htext]
    exact .object hfields

theorem writes_indentedItems (depth : Nat) : (items : List Json) → (∀ item ∈ items, item.Finite) →
    List.Forall₂ (Writes ValueText) (indentedItems depth items) items
  | [], _ => .nil
  | item :: items, h => by
    obtain ⟨hitem, hitems⟩ := List.forall_mem_cons.mp h
    exact .cons (writes_indentedChars depth item hitem) (writes_indentedItems depth items hitems)

theorem writes_indentedFields (depth : Nat) : (fields : List (String × Json)) →
    (∀ field ∈ fields, field.2.Finite) →
    List.Forall₂ (Writes (FieldText ValueText)) (indentedFields depth fields) fields
  | [], _ => .nil
  | (name, value) :: fields, h => by
    obtain ⟨hvalue, hfields⟩ := List.forall_mem_cons.mp h
    refine .cons (fun left => ?_) (writes_indentedFields depth fields hfields)
    have htext : quote name ++ ':' :: ' ' :: value.indentedChars depth ++ left =
        '"' :: (name.toList.flatMap escape ++
          '"' :: ':' :: ' ' :: (value.indentedChars depth ++ left)) := by
      simp [quote]
    have hblank : Blanks (' ' :: (value.indentedChars depth ++ left))
        (value.indentedChars depth ++ left) := ⟨[' '], by simp [isBlank], rfl⟩
    rw [htext]
    exact .mk (insideText_escape _ _) (.none _) hblank
      (writes_indentedChars depth value hvalue left)

end

theorem denotes_indented {v : Json} (h : v.Finite) {ending : String}
    (hending : ∀ c ∈ ending.toList, isBlank c) : Denotes (v.indented ++ ending) v := by
  have hvalue := writes_indentedChars 0 v h ending.toList
  unfold Denotes indented
  rw [String.toList_append, String.toList_ofList]
  exact ⟨_, _, .none _, hvalue, ending.toList, hending, by simp⟩

/-! ## One line -/

theorem not_mem_intercalate {c : Char} {gap : List Char} {texts : List (List Char)} (hgap : c ∉ gap)
    (h : ∀ text ∈ texts, c ∉ text) : c ∉ gap.intercalate texts := by
  induction texts with
  | nil => simp [List.intercalate]
  | cons text texts ih =>
    obtain ⟨htext, htexts⟩ := List.forall_mem_cons.mp h
    cases texts with
    | nil => rwa [List.intercalate_singleton]
    | cons next texts =>
      rw [List.intercalate_cons_cons]
      simp only [List.mem_append, not_or]
      exact ⟨⟨htext, hgap⟩, ih htexts⟩

theorem lineFeed_not_mem_escape (c : Char) : '\n' ∉ escape c := by
  have hcontrol : ∀ k < 0x20, '\n' ∉ escape (Char.ofNat k) := by decide
  by_cases hc : c.toNat < 0x20
  · have hescape := hcontrol c.toNat hc
    rwa [Char.ofNat_toNat] at hescape
  · have hne : '\n' ≠ c := by
      rintro rfl
      exact hc (by decide)
    unfold escape
    rw [if_neg hc]
    split_ifs <;> simp [hne]

theorem lineFeed_not_mem_quote (value : String) : '\n' ∉ quote value := by
  simp only [quote, List.mem_cons, List.mem_append, List.mem_flatMap, List.not_mem_nil, or_false]
  rintro (h | ⟨c, -, hc⟩ | h)
  · exact absurd h (by decide)
  · exact lineFeed_not_mem_escape c hc
  · exact absurd h (by decide)

theorem NumberText.lineFeed_not_mem {v : Json} {word : List Char} (h : NumberText v word) :
    '\n' ∉ word := by
  intro hmem
  exact absurd (h.isNumeralPart _ hmem) (by decide)

mutual

theorem lineFeed_not_mem_compactChars : (v : Json) → v.Finite → '\n' ∉ v.compactChars
  | .null, _ => by decide
  | .bool true, _ => by decide
  | .bool false, _ => by decide
  | .natural value, _ => (NumberText.natural value).lineFeed_not_mem
  | .real _, h => (numberText_write (h _ .here)).lineFeed_not_mem
  | .string value, _ => lineFeed_not_mem_quote value
  | .array items, h => by
    have hitems := not_mem_intercalate (by decide : '\n' ∉ [','])
      (lineFeed_not_mem_compactItems items fun _ => h.item)
    simp [compactChars, hitems]
  | .object fields, h => by
    have hfields := not_mem_intercalate (by decide : '\n' ∉ [','])
      (lineFeed_not_mem_compactFields fields fun _ => h.field)
    simp [compactChars, hfields]

theorem lineFeed_not_mem_compactItems : (items : List Json) → (∀ item ∈ items, item.Finite) →
    ∀ text ∈ compactItems items, '\n' ∉ text
  | [], _ => by simp [compactItems]
  | item :: items, h => by
    obtain ⟨hitem, hitems⟩ := List.forall_mem_cons.mp h
    rw [compactItems, List.forall_mem_cons]
    exact ⟨lineFeed_not_mem_compactChars item hitem, lineFeed_not_mem_compactItems items hitems⟩

theorem lineFeed_not_mem_compactFields : (fields : List (String × Json)) →
    (∀ field ∈ fields, field.2.Finite) → ∀ text ∈ compactFields fields, '\n' ∉ text
  | [], _ => by simp [compactFields]
  | (name, value) :: fields, h => by
    obtain ⟨hvalue, hfields⟩ := List.forall_mem_cons.mp h
    rw [compactFields, List.forall_mem_cons]
    refine ⟨?_, lineFeed_not_mem_compactFields fields hfields⟩
    have htext := lineFeed_not_mem_compactChars value hvalue
    simp [lineFeed_not_mem_quote, htext]

end

theorem lineFeed_not_mem_compact {v : Json} (h : v.Finite) : '\n' ∉ v.compact.toList := by
  unfold compact
  rw [String.toList_ofList]
  exact lineFeed_not_mem_compactChars v h

end HandlerScript.Json
