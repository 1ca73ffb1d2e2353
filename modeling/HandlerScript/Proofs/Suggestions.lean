import HandlerScript.Proofs.EditDistance
import HandlerScript.Proofs.Lossless
import Mathlib

/-!
# The two nearest names

What is suggested for a name are the two keys that come first when all are put in order by their distance
from it and, where distances are the same, by their place in the table. A name is known exactly if it is
the first suggestion for itself.
-/

namespace HandlerScript
namespace Key

variable {metric : Metric} {name : String}

/-! ## The order of suggestions -/

/-- What a key is put in order by: its distance first, and then its place in the table. -/
def rank (metric : Metric) (name : String) (i : Fin table.length) : ℕ ×ₗ Fin table.length :=
  toLex (metric name table[i].name, i)

/-- The first and the second of all keys in order. -/
structure NearestTwo (metric : Metric) (name : String) (first second : Fin table.length) : Prop where
  least : ∀ i, i ≠ first → rank metric name first < rank metric name i
  distinct : second ≠ first
  nextLeast : ∀ i, i ≠ first → i ≠ second → rank metric name second < rank metric name i

/-- A row of the ranking, with its place. -/
def entry (metric : Metric) (name : String) (i : Fin table.length) : (ℕ × String) × ℕ :=
  ((metric name table[i].name, table[i].name), i)

/-- All rows, in the order of the table. -/
def entries (metric : Metric) (name : String) : List ((ℕ × String) × ℕ) :=
  (table.map fun key => (metric name key.name, key.name)).zipIdx

theorem mem_entries (x : (ℕ × String) × ℕ) :
    x ∈ entries metric name ↔ ∃ i, x = entry metric name i := by
  obtain ⟨row, i⟩ := x
  rw [entries, List.mem_zipIdx_iff_getElem?, List.getElem?_map, Option.map_eq_some_iff]
  constructor
  · rintro ⟨key, hkey, rfl⟩
    obtain ⟨hi, hrow⟩ := List.getElem?_eq_some_iff.mp hkey
    exact ⟨⟨i, hi⟩, by rw [← hrow]; rfl⟩
  · rintro ⟨j, heq⟩
    obtain ⟨rfl, rfl⟩ := Prod.mk.inj heq
    exact ⟨table[j], List.getElem?_eq_getElem j.isLt, rfl⟩

theorem entry_injective : Function.Injective (entry metric name) := by
  intro i j h
  exact Fin.ext (congrArg Prod.snd h)

theorem nodup_entries : (entries metric name).Nodup := by
  refine List.Nodup.of_map Prod.snd ?_
  rw [entries, List.zipIdx_map_snd]
  exact List.nodup_range'

/-- The order that suggestions are sorted by, refined by the places of the rows. -/
def before (x y : (ℕ × String) × ℕ) : Bool := List.zipIdxLE (fun a b => a.1 ≤ b.1) x y

theorem before_iff (d e : ℕ) (s t : String) (i j : ℕ) :
    before ((d, s), i) ((e, t), j) ↔ d < e ∨ d = e ∧ i ≤ j := by
  simp only [before, List.zipIdxLE, decide_eq_true_eq]
  split
  · split
    · rw [decide_eq_true_eq]
      omega
    · simp only [true_iff]
      omega
  · simp only [Bool.false_eq_true, false_iff]
    omega

theorem before_entry_iff (i j : Fin table.length) :
    before (entry metric name i) (entry metric name j) ↔ rank metric name i ≤ rank metric name j := by
  rw [rank, rank, Prod.Lex.toLex_le_toLex]
  exact before_iff _ _ _ _ _ _

/-- The rows in order. -/
def ordered (metric : Metric) (name : String) : List ((ℕ × String) × ℕ) :=
  (entries metric name).mergeSort before

theorem pairwise_ordered : (ordered metric name).Pairwise fun x y => before x y := by
  refine List.pairwise_mergeSort (List.zipIdxLE_trans ?_) (List.zipIdxLE_total ?_) _
  · intro a b c hab hbc
    simp only [decide_eq_true_eq] at *
    omega
  · intro a b
    simp only [Bool.or_eq_true, decide_eq_true_eq]
    omega

theorem mem_ordered (x : (ℕ × String) × ℕ) :
    x ∈ ordered metric name ↔ ∃ i, x = entry metric name i := by
  rw [ordered, (List.mergeSort_perm _ _).mem_iff, mem_entries]

/-- Sorting keeps the order of the table where distances are the same. -/
theorem suggestWith_eq (metric : Metric) (name : String) :
    suggestWith metric name = ((ordered metric name).take 2).map (·.1.2) := by
  rw [suggestWith, ← List.mergeSort_zipIdx, ← List.map_take, List.map_map]
  rfl

theorem exists_ordered (metric : Metric) (name : String) :
    ∃ first second rest,
      ordered metric name = entry metric name first :: entry metric name second :: rest := by
  have hlength : (ordered metric name).length = table.length := by
    rw [ordered, List.length_mergeSort, entries, List.length_zipIdx, List.length_map]
  have hmem := @mem_ordered metric name
  match hordered : ordered metric name with
  | [] | [_] =>
    rw [hordered] at hlength
    simp [table] at hlength
  | x :: y :: rest =>
    rw [hordered] at hmem
    obtain ⟨first, rfl⟩ := (hmem x).mp (by simp)
    obtain ⟨second, rfl⟩ := (hmem y).mp (by simp)
    exact ⟨first, second, rest, rfl⟩

theorem rank_lt_of_before {i j : Fin table.length} (hne : i ≠ j)
    (h : before (entry metric name i) (entry metric name j)) :
    rank metric name i < rank metric name j := by
  refine lt_of_le_of_ne ((before_entry_iff i j).mp h) fun heq => hne ?_
  exact (Prod.mk.inj (toLex_inj.mp heq)).2

theorem suggestWith_nearest (metric : Metric) (name : String) :
    ∃ first second, NearestTwo metric name first second ∧
      suggestWith metric name = [table[first].name, table[second].name] := by
  obtain ⟨first, second, rest, hordered⟩ := exists_ordered metric name
  have hnodup : (ordered metric name).Nodup :=
    (List.mergeSort_perm _ _).nodup_iff.mpr nodup_entries
  have hpairwise := @pairwise_ordered metric name
  have hmem : ∀ i, entry metric name i ∈ ordered metric name := fun i => (mem_ordered _).mpr ⟨i, rfl⟩
  rw [hordered] at hnodup hpairwise hmem
  obtain ⟨hfirst, hpairwise⟩ := List.pairwise_cons.mp hpairwise
  obtain ⟨hsecond, -⟩ := List.pairwise_cons.mp hpairwise
  have hlater : ∀ i, i ≠ first → entry metric name i ∈ entry metric name second :: rest :=
    fun i hi => List.mem_of_ne_of_mem (entry_injective.ne hi) (hmem i)
  refine ⟨first, second, ⟨?_, ?_, ?_⟩, ?_⟩
  · intro i hi
    exact rank_lt_of_before hi.symm (hfirst _ (hlater i hi))
  · rintro rfl
    exact (List.nodup_cons.mp hnodup).1 List.mem_cons_self
  · intro i hi hi'
    exact rank_lt_of_before hi'.symm
      (hsecond _ (List.mem_of_ne_of_mem (entry_injective.ne hi') (hlater i hi)))
  · rw [suggestWith_eq, hordered]
    rfl

/-! ## Names that are known -/

theorem getElem?_ofList_table (name : String) :
    (Std.HashMap.ofList (table.map fun key => (key.name, key.code)))[name]? = resolve name := by
  cases hresolve : resolve name with
  | some code =>
    have hmem := (resolve_eq_some_iff name code).mp hresolve
    refine Std.HashMap.getElem?_ofList_of_mem BEq.rfl ?_ (List.mem_map_of_mem hmem)
    have hnodup := nodup_names
    rw [List.Nodup, List.pairwise_map] at hnodup
    rw [List.pairwise_map]
    exact hnodup.imp fun hne => beq_false_of_ne hne
  | none =>
    refine Std.HashMap.getElem?_ofList_of_contains_eq_false ?_
    rw [List.map_map, List.contains_eq_mem, decide_eq_false_iff_not]
    intro hmem
    obtain ⟨key, hkey, rfl⟩ := List.mem_map.mp hmem
    cases hresolve.symm.trans ((resolve_eq_some_iff key.name key.code).mpr hkey)

theorem resolve_iff_first {first second : Fin table.length}
    (h : NearestTwo editDistance name first second) (code : KeyCode) :
    resolve name = some code ↔ table[first] = ⟨name, code⟩ := by
  rw [resolve_eq_some_iff]
  constructor
  · intro hmem
    obtain ⟨i, hi, hrow⟩ := List.mem_iff_getElem.mp hmem
    by_cases hfirst : (⟨i, hi⟩ : Fin table.length) = first
    · rw [← hfirst]
      exact hrow
    · -- The row of the name itself is at distance 0, so the first is, and is that row then.
      have hrank := h.least ⟨i, hi⟩ hfirst
      have hzero : editDistance name table[i].name = 0 := by
        rw [hrow, editDistance_eq_zero_iff]
      have hnearest : editDistance name table[first].name = 0 := by
        rw [rank, rank, Prod.Lex.toLex_lt_toLex] at hrank
        change _ < editDistance name table[i].name ∨
          _ = editDistance name table[i].name ∧ _ at hrank
        omega
      rw [editDistance_eq_zero_iff] at hnearest
      refine List.inj_on_of_nodup_map nodup_names (List.getElem_mem _) hmem ?_
      exact hnearest.symm
  · intro hrow
    rw [← hrow]
    exact List.getElem_mem _

/-- Whatever distances are measured by, the two keys that are suggested are the nearest and the next
nearest. The edit distance is the least number of edits, and by it a name is known exactly if the first
key suggested has that name, and then for that key. -/
theorem suggestions_nearest (name : String) :
    (∀ metric : Metric, ∃ first second, NearestTwo metric name first second ∧
      suggestWith metric name = [table[first].name, table[second].name]) ∧
    (∃ first second, NearestTwo editDistance name first second ∧
      suggest name = [table[first].name, table[second].name] ∧
      ∀ code, resolve name = some code ↔ table[first] = ⟨name, code⟩) ∧
    (∀ other : String, IsLeast {n | Edits n name.toList other.toList} (editDistance name other)) ∧
    (Std.HashMap.ofList (table.map fun key => (key.name, key.code)))[name]? = resolve name := by
  refine ⟨fun metric => suggestWith_nearest metric name, ?_, ?_, getElem?_ofList_table name⟩
  · obtain ⟨first, second, hnearest, hsuggest⟩ := suggestWith_nearest editDistance name
    exact ⟨first, second, hnearest, hsuggest, resolve_iff_first hnearest⟩
  · exact editDistance_isLeast name

end Key
end HandlerScript
