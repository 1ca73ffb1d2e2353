import HandlerScript.Key
import Mathlib.Order.Bounds.Defs
import Mathlib.Order.MinMax

/-!
# The fewest edits

An edit inserts, deletes or replaces one character, anywhere in a text. Rows are built from the ends of
both texts, but what they come to is the least number of edits in any order that turn one text into the
other.
-/

namespace HandlerScript

/-! ## Edits -/

inductive Edit : List Char → List Char → Prop where
  | insert (before after : List Char) (c : Char) : Edit (before ++ after) (before ++ c :: after)
  | delete (before after : List Char) (c : Char) : Edit (before ++ c :: after) (before ++ after)
  | replace (before after : List Char) (c d : Char) :
      Edit (before ++ c :: after) (before ++ d :: after)

/-- So many edits, one after the other. -/
inductive Edits : Nat → List Char → List Char → Prop where
  | none {a : List Char} : Edits 0 a a
  | more {n : Nat} {a b c : List Char} : Edit a b → Edits n b c → Edits (n + 1) a c

theorem Edit.cons {a b : List Char} (h : Edit a b) (c : Char) : Edit (c :: a) (c :: b) := by
  cases h with
  | insert before after d => exact .insert (c :: before) after d
  | delete before after d => exact .delete (c :: before) after d
  | replace before after d e => exact .replace (c :: before) after d e

namespace Edits

variable {n : Nat} {a b : List Char}

theorem cons (h : Edits n a b) (c : Char) : Edits n (c :: a) (c :: b) := by
  induction h with
  | none => exact .none
  | more hedit _ ih => exact .more (hedit.cons c) ih

theorem delete (h : Edits n a b) (c : Char) : Edits (n + 1) (c :: a) b :=
  .more (.delete [] a c) h

theorem insert (h : Edits n a b) (c : Char) : Edits (n + 1) a (c :: b) :=
  .more (.insert [] a c) (h.cons c)

theorem replace (h : Edits n a b) (c d : Char) : Edits (n + 1) (c :: a) (d :: b) :=
  .more (.replace [] a c d) (h.cons d)

theorem zero_iff : Edits 0 a b ↔ a = b := by
  constructor
  · rintro ⟨⟩
    rfl
  · rintro rfl
    exact .none

end Edits

/-! ## Distances -/

namespace EditDistance

variable {a b c : List Char}

def distance (a b : List Char) : Nat := (row a b).headD 0

theorem tail_row (a : List Char) (y : Char) (b : List Char) : (row a (y :: b)).tail = row a b := by
  induction a with
  | nil => rfl
  | cons x a ih =>
    change extendRow x b (row a (y :: b)).tail = extendRow x b (row a b)
    rw [ih]

@[simp] theorem distance_nil (b : List Char) : distance [] b = b.length := by
  cases b <;> rfl

@[simp] theorem distance_cons_nil (x : Char) (a : List Char) :
    distance (x :: a) [] = distance a [] + 1 := rfl

theorem distance_cons_cons (x y : Char) (a b : List Char) :
    distance (x :: a) (y :: b) =
      if x = y then distance a b
      else min (distance a b) (min (distance a (y :: b)) (distance (x :: a) b)) + 1 := by
  change (if x = y then (row a (y :: b)).tail.headD 0 else
    min ((row a (y :: b)).tail.headD 0) (min ((row a (y :: b)).headD 0)
      ((extendRow x b (row a (y :: b)).tail).headD 0)) + 1) = _
  rw [tail_row]
  rfl

theorem distance_nil_right (a : List Char) : distance a [] = a.length := by
  induction a with
  | nil => rfl
  | cons x a ih => rw [distance_cons_nil, ih, List.length_cons]

theorem distance_comm (a b : List Char) : distance a b = distance b a := by
  induction a generalizing b with
  | nil => rw [distance_nil, distance_nil_right]
  | cons x a iha =>
    induction b with
    | nil => rw [distance_nil, distance_nil_right]
    | cons y b ihb =>
      rw [distance_cons_cons, distance_cons_cons, iha b, iha (y :: b), ihb]
      simp only [@eq_comm _ x, min_comm (distance b (x :: a))]

theorem edits_distance (a b : List Char) : Edits (distance a b) a b := by
  induction a generalizing b with
  | nil =>
    rw [distance_nil]
    induction b with
    | nil => exact .none
    | cons y b ih => exact ih.insert y
  | cons x a iha =>
    induction b with
    | nil => exact (iha []).delete x
    | cons y b ihb =>
      rw [distance_cons_cons]
      split
      · next heq =>
        rw [heq]
        exact (iha b).cons y
      · rcases min_choice (distance a b) (min (distance a (y :: b)) (distance (x :: a) b)) with h | h
        · rw [h]
          exact (iha b).replace x y
        · rw [h]
          rcases min_choice (distance a (y :: b)) (distance (x :: a) b) with h | h
          · rw [h]
            exact (iha (y :: b)).delete x
          · rw [h]
            exact ihb.insert y

/-! ## What one edit does to a distance -/

theorem distance_cons_le_of (h : ∀ y c, distance a c ≤ distance a (y :: c) + 1) (x : Char)
    (c : List Char) : distance (x :: a) c ≤ distance a c + 1 := by
  cases c with
  | nil => exact Nat.le_refl _
  | cons y c =>
    have := h y c
    rw [distance_cons_cons]
    split <;> omega

theorem distance_le_cons_right (a : List Char) (y : Char) (c : List Char) :
    distance a c ≤ distance a (y :: c) + 1 := by
  induction a generalizing y c with
  | nil => simp only [distance_nil, List.length_cons]; omega
  | cons x a ih =>
    have hdelete := distance_cons_le_of ih x c
    have := ih y c
    rw [distance_cons_cons]
    split <;> omega

theorem distance_cons_le (x : Char) (a c : List Char) : distance (x :: a) c ≤ distance a c + 1 :=
  distance_cons_le_of (distance_le_cons_right a) x c

theorem distance_le_cons (x : Char) (a c : List Char) : distance a c ≤ distance (x :: a) c + 1 := by
  rw [distance_comm a, distance_comm (x :: a)]
  exact distance_le_cons_right c x a

theorem distance_cons_right_le (a : List Char) (y : Char) (c : List Char) :
    distance a (y :: c) ≤ distance a c + 1 := by
  rw [distance_comm a, distance_comm a]
  exact distance_cons_le y c a

theorem distance_replace_le (x z : Char) (a c : List Char) :
    distance (x :: a) c ≤ distance (z :: a) c + 1 := by
  induction c with
  | nil => rw [distance_cons_nil, distance_cons_nil]; omega
  | cons y c ih =>
    have hdelete := distance_cons_le x a (y :: c)
    have hinsert := distance_cons_right_le (x :: a) y c
    have hreplace : distance (x :: a) (y :: c) ≤ distance a c + 1 := by
      rw [distance_cons_cons]
      split <;> omega
    rw [distance_cons_cons z]
    split <;> omega

theorem distance_cons_mono (h : ∀ c, distance a c ≤ distance b c + 1) (x : Char) (c : List Char) :
    distance (x :: a) c ≤ distance (x :: b) c + 1 := by
  induction c with
  | nil =>
    have := h []
    rw [distance_cons_nil, distance_cons_nil]
    omega
  | cons y c ih =>
    have := h c
    have := h (y :: c)
    rw [distance_cons_cons, distance_cons_cons]
    split <;> omega

theorem distance_append_mono (h : ∀ c, distance a c ≤ distance b c + 1) (before c : List Char) :
    distance (before ++ a) c ≤ distance (before ++ b) c + 1 := by
  induction before generalizing c with
  | nil => exact h c
  | cons x before ih => exact distance_cons_mono ih x c

theorem distance_le_of_edit (h : Edit a b) (c : List Char) : distance a c ≤ distance b c + 1 := by
  cases h with
  | insert before after d => exact distance_append_mono (distance_le_cons d after) before c
  | delete before after d => exact distance_append_mono (distance_cons_le d after) before c
  | replace before after d e => exact distance_append_mono (distance_replace_le d e after) before c

theorem distance_le_of_edits {n : Nat} (h : Edits n a b) : distance a b ≤ n := by
  induction h with
  | @none a =>
    induction a with
    | nil => exact Nat.le_refl _
    | cons x a ih => simpa [distance_cons_cons] using ih
  | @more n a b c hedit _ ih =>
    have := distance_le_of_edit hedit c
    omega

end EditDistance

theorem editDistance_isLeast (a b : String) :
    IsLeast {n | Edits n a.toList b.toList} (editDistance a b) :=
  ⟨EditDistance.edits_distance _ _, fun _ => EditDistance.distance_le_of_edits⟩

@[simp] theorem editDistance_eq_zero_iff (a b : String) : editDistance a b = 0 ↔ a = b := by
  rw [← String.toList_inj, ← Edits.zero_iff]
  constructor
  · intro h
    rw [← h]
    exact (editDistance_isLeast a b).1
  · intro h
    exact Nat.le_zero.mp ((editDistance_isLeast a b).2 h)

end HandlerScript
