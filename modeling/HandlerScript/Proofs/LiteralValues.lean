import HandlerScript.Proofs.Number.Correct
import HandlerScript.Proofs.Number.Text
import HandlerScript.Proofs.Passage
import HandlerScript.Proofs.Printable
import HandlerScript.Proofs.Spans

/-!
# What number literals stand for

The whole text of a literal counts: its sign, all its digits and its power of ten. It stands for the
value nearest to the number that is written, or for nothing if that is out of range.
-/

namespace HandlerScript

/-! ## The number that is written -/

namespace Numeral

variable {n : Numeral}

/-- The number without its sign. -/
def size (n : Numeral) : ℚ :=
  (digitsValue n.whole + digitsValue n.fraction / 10 ^ n.fraction.length) * 10 ^ n.power

/-- The number that is written, not rounded. -/
def exact (n : Numeral) : ℚ := if n.negative then -n.size else n.size

theorem size_nonneg (n : Numeral) : 0 ≤ n.size := by
  rw [size]
  positivity

theorem abs_exact (n : Numeral) : |n.exact| = n.size := by
  rw [exact]
  split
  · rw [abs_neg, abs_of_nonneg n.size_nonneg]
  · exact abs_of_nonneg n.size_nonneg

theorem size_eq (n : Numeral) :
    n.size = digitsValue (n.whole ++ n.fraction) * 10 ^ (n.power - n.fraction.length) := by
  rw [size, digitsValue_append, zpow_sub₀ (by norm_num), zpow_natCast]
  push_cast
  field_simp

theorem isFinite_value_iff (n : Numeral) : n.value.isFinite ↔ |n.exact| < 2 ^ 1024 - 2 ^ 970 := by
  rw [abs_exact, size_eq]
  exact Binary64.isFinite_ofDecimal_iff n.negative

theorem isNearest_iff {v : Binary64} (hsign : v.negative = n.negative)
    (h : |n.exact| < 2 ^ 1024 - 2 ^ 970) : v.IsNearest n.exact ↔ v = n.value := by
  rw [abs_exact, size_eq] at h
  rw [exact, size_eq, value, ← hsign]
  exact Binary64.isNearest_iff_eq_ofDecimal h

end Numeral

/-! ## Reading one literal -/

section

variable {source : String} {n : Numeral}

theorem NumeralText.parse_eq_ok (h : NumeralText n source.toList) (hfinite : n.value.isFinite) :
    parse source = .ok [.number ⟨.start, Position.start.advanceAll source.toList⟩ n.value] := by
  refine (parse_eq_ok_iff _ _).mpr ⟨?_, ?_⟩
  · exact .of_atom (.number h hfinite) fun _ => delimited_nil
  · simp [Node.depthAll, Node.depth]

theorem NumeralText.parse_eq_error (h : NumeralText n source.toList)
    (hfinite : n.value.isFinite = false) :
    ∃ d, parse source = .error d ∧ d.message = "malformed number literal" := by
  have hstall : Stall (listsIn []) source.toList [] .malformedNumber :=
    .outOfRange h delimited_nil hfinite
  let f : Failure := ⟨.malformedNumber, .start source.toList,
    ⟨⟨Position.start.advanceAll source.toList, []⟩, [⟨.topLevel, .start⟩]⟩⟩
  have hbreaks : Breaks f [] [] .start ([] ++ source.toList) := by
    refine .stall .nil (by simp [Node.depthAll, listsIn]) rfl hstall ⟨rfl, fun _ => ?_⟩
    rw [List.append_nil]
    rfl
  exact ⟨_, hbreaks.parse_eq (by simp), rfl⟩

end

/-! ## Numbers in scripts -/

theorem Node.AllProper.proper_of_mem {node : Node} {nodes : List Node} (h : Node.AllProper nodes)
    (hnode : node ∈ nodes) : node.Proper := by
  induction hnode with
  | head => exact h.1
  | tail _ _ ih => exact ih h.2

theorem Node.Within.proper {node : Node} {nodes : List Node} (h : node.Within nodes)
    (hnodes : Node.AllProper nodes) : node.Proper := by
  induction h with
  | here hnode => exact hnodes.proper_of_mem hnode
  | inside hlist _ ih => exact ih (hnodes.proper_of_mem hlist)

/-- A literal that is not out of range is read as one number, the value that is nearest to what is
written, with the sign that is written. Any other literal is malformed. So all numbers in scripts are
finite. -/
theorem literals_rounded :
    (∀ (source : String) (n : Numeral), NumeralText n source.toList →
      (|n.exact| < 2 ^ 1024 - 2 ^ 970 →
        ∃ v : Binary64,
          parse source = .ok [.number ⟨.start, Position.start.advanceAll source.toList⟩ v] ∧
          v.negative = n.negative ∧ v.IsNearest n.exact ∧
          ∀ w : Binary64, w.negative = n.negative → w.IsNearest n.exact → w = v) ∧
      (2 ^ 1024 - 2 ^ 970 ≤ |n.exact| →
        ∃ d, parse source = .error d ∧ d.message = "malformed number literal")) ∧
    ∀ (source : String) (nodes : List Node) (span : Location) (v : Binary64),
      parse source = .ok nodes → (Node.number span v).Within nodes → v.isFinite := by
  refine ⟨fun source n hn => ⟨fun hlimit => ?_, fun hlimit => ?_⟩, ?_⟩
  · have hparse := hn.parse_eq_ok (n.isFinite_value_iff.mpr hlimit)
    refine ⟨n.value, hparse, rfl, (Numeral.isNearest_iff rfl hlimit).mpr rfl, ?_⟩
    intro w hsign hw
    exact (Numeral.isNearest_iff hsign hlimit).mp hw
  · refine hn.parse_eq_error ?_
    rw [Bool.eq_false_iff, ne_eq, n.isFinite_value_iff]
    exact not_lt.mpr hlimit
  · intro source nodes span v hparse hnode
    obtain ⟨hread, -⟩ := (parse_eq_ok_iff source nodes).mp hparse
    exact hnode.proper hread.allProper

/-- Halfway between two values, the one with the even significand is taken. -/
theorem literals_rounded_halfway :
    let digits := ['9', '0', '0', '7', '1', '9', '9', '2', '5', '4', '7', '4', '0', '9', '9', '3']
    let halfway : Numeral := ⟨true, digits, [], 0⟩
    let large : Numeral := ⟨false, ['1'], [], 309⟩
    (NumeralText halfway "-9007199254740993".toList ∧ |halfway.exact| < 2 ^ 1024 - 2 ^ 970 ∧
      ∃ v : Binary64,
        parse "-9007199254740993" =
          .ok [.number ⟨.start, Position.start.advanceAll "-9007199254740993".toList⟩ v] ∧
        v.negative = true ∧ v.IsNearest halfway.exact ∧
        ∀ w : Binary64, w.negative = true → w.IsNearest halfway.exact → w = v) ∧
    (NumeralText large "1e309".toList ∧ 2 ^ 1024 - 2 ^ 970 ≤ |large.exact| ∧
      ∃ d, parse "1e309" = .error d ∧ d.message = "malformed number literal") ∧
    ∃ nodes span v, parse "(f -0)" = .ok nodes ∧ (Node.number span v).Within nodes ∧
      v.isFinite = true := by
  intro digits halfway large
  obtain ⟨hliterals, hscripts⟩ := literals_rounded
  have hhalfway : NumeralText halfway "-9007199254740993".toList := by
    have htext : "-9007199254740993".toList = ['-'] ++ (digits ++ ([] ++ [])) := by decide
    rw [htext]
    exact .mk .minus ⟨by simp [digits], by simp [digits]⟩ .none .none
  have hlarge : NumeralText large "1e309".toList := by
    have hpower : PowerText 309 ['e', '3', '0', '9'] :=
      @PowerText.some 'e' false [] ['3', '0', '9'] (.inl rfl) .none ⟨by simp, by simp⟩
    have htext : "1e309".toList = [] ++ (['1'] ++ ([] ++ ['e', '3', '0', '9'])) := by decide
    rw [htext]
    exact .mk .none ⟨by simp, by simp⟩ .none hpower
  have hbelow : |halfway.exact| < 2 ^ 1024 - 2 ^ 970 :=
    halfway.isFinite_value_iff.mp (by decide +kernel)
  have habove : 2 ^ 1024 - 2 ^ 970 ≤ |large.exact| :=
    not_lt.mp (mt large.isFinite_value_iff.mpr (by decide +kernel))
  have hparse : parse "(f -0)" = .ok [.list ⟨.start, ⟨1, 7⟩⟩
      [.symbol ⟨⟨1, 2⟩, ⟨1, 3⟩⟩ "f", .number ⟨⟨1, 4⟩, ⟨1, 6⟩⟩ ⟨true, 0⟩]] := by
    cbv
  have hwithin : (Node.number ⟨⟨1, 4⟩, ⟨1, 6⟩⟩ ⟨true, 0⟩).Within [.list ⟨.start, ⟨1, 7⟩⟩
      [.symbol ⟨⟨1, 2⟩, ⟨1, 3⟩⟩ "f", .number ⟨⟨1, 4⟩, ⟨1, 6⟩⟩ ⟨true, 0⟩]] :=
    .inside List.mem_cons_self (.here (by simp))
  exact ⟨⟨hhalfway, hbelow, (hliterals _ halfway hhalfway).1 hbelow⟩,
    ⟨hlarge, habove, (hliterals _ large hlarge).2 habove⟩,
    _, _, _, hparse, hwithin, hscripts _ _ _ _ hparse hwithin⟩

end HandlerScript
