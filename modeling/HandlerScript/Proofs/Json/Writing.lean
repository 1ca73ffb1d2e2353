import HandlerScript.Proofs.Json.Reading
import Mathlib.Data.List.Forall2

/-!
# The text of a value is JSON for it

What is written for a value stands for it, whatever comes next. Only numbers that are not finite are
not covered, which JSON cannot write.
-/

namespace HandlerScript.Json

/-! ## Values inside of values -/

/-- One of the two is the other, or somewhere in it. -/
inductive Inside (part : Json) : Json → Prop where
  | here : Inside part part
  | item {item : Json} {items : List Json} : item ∈ items → Inside part item →
      Inside part (.array items)
  | field {field : String × Json} {fields : List (String × Json)} : field ∈ fields →
      Inside part field.2 → Inside part (.object fields)

def Finite (v : Json) : Prop := ∀ x, (real x).Inside v → x.isFinite

theorem Finite.item {items : List Json} (h : (array items).Finite) {item : Json}
    (hitem : item ∈ items) : item.Finite := fun x hx => h x (.item hitem hx)

theorem Finite.field {fields : List (String × Json)} (h : (object fields).Finite)
    {field : String × Json} (hfield : field ∈ fields) : field.2.Finite :=
  fun x hx => h x (.field hfield hx)

/-! ## Strings -/

theorem hexValue_digitChar : ∀ k < 16, hexValue (Nat.digitChar k) = some k := by decide

theorem hexNumber_control {k : Nat} (h : k < 0x20) :
    hexNumber ['0', '0', Nat.digitChar (k / 16), Nat.digitChar (k % 16)] = some k := by
  have hzero : hexValue '0' = some 0 := hexValue_digitChar 0 (by decide)
  have hhigh := hexValue_digitChar (k / 16) (by omega)
  have hlow := hexValue_digitChar (k % 16) (by omega)
  simp only [hexNumber, List.foldlM_cons, List.foldlM_nil, hzero, hhigh, hlow, Option.map_some,
    Option.pure_def, Option.bind_eq_bind, Option.bind_some, Option.some.injEq]
  omega

theorem charText_escape (c : Char) : CharText c (escape c) := by
  by_cases hletter : c ∈ ['"', '\\', '\x08', '\x0c', '\n', '\r', '\t']
  · simp only [List.mem_cons, List.not_mem_nil, or_false] at hletter
    rcases hletter with rfl | rfl | rfl | rfl | rfl | rfl | rfl <;> exact .letter rfl
  · simp only [List.mem_cons, List.not_mem_nil, or_false, not_or] at hletter
    obtain ⟨hquote, hback, hbackspace, hformFeed, hlineFeed, hreturn, htab⟩ := hletter
    simp only [escape, hquote, hback, hbackspace, hformFeed, hlineFeed, hreturn, htab, if_false]
    split
    · next hcontrol =>
      have hcode := CharText.code ⟨rfl, hexNumber_control hcontrol⟩ c.valid
      rwa [Char.ofNat_toNat] at hcode
    · next hcontrol => exact .plain hquote hback (Nat.le_of_not_lt hcontrol)

theorem insideText_escape (value left : List Char) :
    InsideText (value.flatMap escape ++ '"' :: left) value left := by
  induction value with
  | nil => exact .nil
  | cons c value ih =>
    rw [List.flatMap_cons, List.append_assoc]
    exact .cons (charText_escape c) ih

/-! ## Numbers -/

theorem exists_mark_write (x : Binary64) :
    ∃ c ∈ numberFormat.write x, isPoint c ∨ isExponent c := by
  have hunsigned : ∃ c ∈ numberFormat.unsigned x, isPoint c ∨ isExponent c := by
    unfold NumberFormat.unsigned
    split
    · exact ⟨'.', by simp [numberFormat], .inl rfl⟩
    simp only
    split
    · refine ⟨'.', ?_, .inl rfl⟩
      unfold NumberFormat.placed
      split
      · simp
      split
      · simp [numberFormat]
      · simp
    · refine ⟨'e', ?_, .inr rfl⟩
      simp [NumberFormat.scientific]
  obtain ⟨c, hc, hmark⟩ := hunsigned
  refine ⟨c, ?_, hmark⟩
  unfold NumberFormat.write
  split
  · exact List.mem_cons_of_mem _ hc
  · exact hc

theorem numberText_write {x : Binary64} (h : x.isFinite) :
    NumberText (real x) (numberFormat.write x) := by
  have hend : FractionText (List.replicate 1 '0') numberFormat.wholeEnd :=
    .some (digits_zeros one_pos)
  obtain ⟨n, hn, rfl, hplus, hzeros⟩ := NumberFormat.write_numeral hend h
  exact .real hn hplus hzeros (exists_mark_write n.value) h

example : numberFormat.write (.ofDecimal false 1 15) = "1000000000000000.0".toList := by
  decide +kernel
example : numberFormat.write (.ofDecimal false 1 16) = "1e+16".toList := by decide +kernel

/-! ## Entries -/

section

variable {α : Type} {entry : List Char → α → List Char → Prop} {texts : List (List Char)}
  {entries : List α}

/-- The text is written for the entry, whatever comes next. -/
def Writes (entry : List Char → α → List Char → Prop) (text : List Char) (a : α) : Prop :=
  ∀ left, entry (text ++ left) a left

theorem entries_separated {text : List Char} {a : α} {gap last : List Char}
    (h : List.Forall₂ (Writes entry) (text :: texts) (a :: entries)) (hgap : ∀ c ∈ gap, isBlank c)
    (hlast : ∀ c ∈ last, isBlank c) (closing : Char) (left : List Char) :
    Entries entry closing
      (gap ++ ((',' :: gap).intercalate (text :: texts) ++ (last ++ closing :: left)))
      (a :: entries) left := by
  induction texts generalizing text a entries with
  | nil =>
    cases h with
    | cons htext hnil =>
      cases hnil
      rw [List.intercalate_singleton]
      exact .last ⟨gap, hgap, rfl⟩ (htext _) ⟨last, hlast, rfl⟩
  | cons next texts ih =>
    cases h with
    | cons htext hrest =>
      cases hrest with
      | cons hnext hrest =>
        rw [List.intercalate_cons_cons, List.append_assoc, List.append_assoc, List.cons_append]
        exact .next ⟨gap, hgap, rfl⟩ (htext _) (.none _) (ih (.cons hnext hrest)) nofun

theorem entries_intercalate (h : List.Forall₂ (Writes entry) texts entries) (closing : Char)
    (left : List Char) :
    Entries entry closing ([','].intercalate texts ++ closing :: left) entries left := by
  have hnone : ∀ c ∈ ([] : List Char), isBlank c := by simp
  cases h with
  | nil => exact .none (.none _)
  | cons htext hrest => exact entries_separated (.cons htext hrest) hnone hnone closing left

end

/-! ## Values -/

theorem writes_quote {value : String} : Writes ValueText (quote value) (string value) := by
  intro left
  have htext : quote value ++ left = '"' :: (value.toList.flatMap escape ++ '"' :: left) := by
    simp [quote]
  rw [htext]
  exact .string (insideText_escape value.toList left)

mutual

theorem writes_compactChars : (v : Json) → v.Finite → Writes ValueText v.compactChars v
  | .null, _ => fun _ => .word .null
  | .bool true, _ => fun _ => .word .true
  | .bool false, _ => fun _ => .word .false
  | .natural value, _ => fun _ => .number (.natural value)
  | .real x, h => fun _ => .number (numberText_write (h x .here))
  | .string _, _ => writes_quote
  | .array items, h => fun left => by
    have hitems := entries_intercalate (writes_compactItems items fun _ => h.item) ']' left
    simpa [compactChars] using ValueText.array hitems
  | .object fields, h => fun left => by
    have hfields := entries_intercalate (writes_compactFields fields fun _ => h.field) '}' left
    simpa [compactChars] using ValueText.object hfields

theorem writes_compactItems : (items : List Json) → (∀ item ∈ items, item.Finite) →
    List.Forall₂ (Writes ValueText) (compactItems items) items
  | [], _ => .nil
  | item :: items, h => by
    obtain ⟨hitem, hitems⟩ := List.forall_mem_cons.mp h
    exact .cons (writes_compactChars item hitem) (writes_compactItems items hitems)

theorem writes_compactFields : (fields : List (String × Json)) →
    (∀ field ∈ fields, field.2.Finite) →
    List.Forall₂ (Writes (FieldText ValueText)) (compactFields fields) fields
  | [], _ => .nil
  | (name, value) :: fields, h => by
    obtain ⟨hvalue, hfields⟩ := List.forall_mem_cons.mp h
    refine .cons (fun left => ?_) (writes_compactFields fields hfields)
    have htext : quote name ++ ':' :: value.compactChars ++ left =
        '"' :: (name.toList.flatMap escape ++ '"' :: ':' :: (value.compactChars ++ left)) := by
      simp [quote]
    rw [htext]
    exact .mk (insideText_escape _ _) (.none _) (.none _) (writes_compactChars value hvalue left)

end

theorem denotes_compact {v : Json} (h : v.Finite) : Denotes v.compact v := by
  have hvalue := writes_compactChars v h []
  rw [List.append_nil] at hvalue
  unfold Denotes compact
  rw [String.toList_ofList]
  exact ⟨_, _, .none _, hvalue, .none _⟩

end HandlerScript.Json
