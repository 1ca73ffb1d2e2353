import HandlerScript.Proofs.Compiling
import Mathlib

/-!
# What is missing

Where a script breaks off in an open list, closing what is open is all that it needs. After any other
fault no number of closing parentheses is of help.
-/

namespace HandlerScript

/-! ## Open lists -/

/-- Whether a text breaks off in a string, and there after a backslash. -/
inductive Place where
  | code
  | string
  | escape
  deriving DecidableEq, Repr

structure Scan where
  place : Place
  lists : Nat
  deriving DecidableEq, Repr

namespace Scan

def step (s : Scan) (c : Char) : Scan :=
  match s.place with
  | .code =>
    if c = '(' then ⟨.code, s.lists + 1⟩
    else if c = ')' then ⟨.code, s.lists - 1⟩
    else if c = '"' then ⟨.string, s.lists⟩
    else s
  | .string =>
    if c = '"' then ⟨.code, s.lists⟩
    else if c = '\\' then ⟨.escape, s.lists⟩
    else s
  | .escape => ⟨.string, s.lists⟩

def after (s : Scan) (text : List Char) : Scan := text.foldl step s

@[simp] theorem after_nil (s : Scan) : s.after [] = s := rfl

@[simp] theorem after_cons (s : Scan) (c : Char) (text : List Char) :
    s.after (c :: text) = (s.step c).after text := rfl

@[simp] theorem after_append (s : Scan) (text other : List Char) :
    s.after (text ++ other) = (s.after text).after other := List.foldl_append

end Scan

/-- How many lists are open where the script ends. -/
def openLists (source : String) : Nat := ((⟨.code, 0⟩ : Scan).after source.toList).lists

/-! ## What is read leaves the open lists as they are -/

/-- Not a character that opens or closes anything. -/
def IsPlain (c : Char) : Prop := c ≠ '(' ∧ c ≠ ')' ∧ c ≠ '"'

theorem Scan.step_plain {c : Char} (d : Nat) (h : IsPlain c) :
    (⟨.code, d⟩ : Scan).step c = ⟨.code, d⟩ := by
  obtain ⟨hopen, hclose, hquote⟩ := h
  simp [step, hopen, hclose, hquote]

theorem Scan.after_plain {text : List Char} (d : Nat) (h : ∀ c ∈ text, IsPlain c) :
    (⟨.code, d⟩ : Scan).after text = ⟨.code, d⟩ := by
  induction text with
  | nil => rfl
  | cons c text ih =>
    obtain ⟨hc, htext⟩ := List.forall_mem_cons.mp h
    rw [after_cons, step_plain d hc, ih htext]

theorem plain_of_not_isDelimiter {c : Char} (h : isDelimiter c = false) : IsPlain c := by
  simp only [isDelimiter, Bool.or_eq_false_iff, beq_eq_false_iff_ne] at h
  exact ⟨h.1.1.2, h.1.2, h.2⟩

theorem plain_of_isBlank {c : Char} (h : isBlank c) : IsPlain c := by
  refine ⟨?_, ?_, ?_⟩ <;> rintro rfl <;> exact absurd h (by decide)

theorem QuotedText.scan {value inside : List Char} (h : QuotedText value inside) (d : Nat) :
    (⟨.string, d⟩ : Scan).after inside = ⟨.string, d⟩ := by
  induction h with
  | nil => rfl
  | plain hquote hback _ ih => simpa [Scan.step, hquote, hback] using ih
  | escape _ _ ih => exact ih

theorem NumeralText.not_isDelimiter {n : Numeral} {text : List Char} (h : NumeralText n text) :
    ∀ c ∈ text, isDelimiter c = false := by
  have hdigits : ∀ digits, Digits digits → ∀ c ∈ digits, isDelimiter c = false :=
    fun digits h c hc => inner_isDigit.not_isDelimiter (h.2 c hc)
  have hsigns : ∀ negative sign, SignText negative sign → ∀ c ∈ sign, isDelimiter c = false := by
    rintro _ _ (_ | _ | _) <;> simp [isDelimiter, isBlank]
  obtain ⟨hsign, hwhole, hfraction, hpower⟩ := h
  simp only [List.forall_mem_append]
  refine ⟨hsigns _ _ hsign, hdigits _ hwhole, ?_, ?_⟩
  · cases hfraction with
    | none => simp
    | some h => exact List.forall_mem_cons.mpr ⟨by decide, hdigits _ h⟩
  · cases hpower with
    | none => simp
    | some he hsign h =>
      refine List.forall_mem_cons.mpr ⟨?_, List.forall_mem_append.mpr ⟨hsigns _ _ hsign, hdigits _ h⟩⟩
      rcases he with rfl | rfl <;> decide

theorem KeyText.not_isDelimiter {name : List Char} (h : KeyText name) :
    ∀ c ∈ '@' :: name, isDelimiter c = false :=
  List.forall_mem_cons.mpr ⟨by decide, fun c hc => inner_isAlphanum.not_isDelimiter (h.2 c hc)⟩

theorem SymbolText.not_isDelimiter {name : List Char} (h : SymbolText name) :
    ∀ c ∈ name, isDelimiter c = false :=
  fun c hc => inner_isSymbolPart.not_isDelimiter (h.isSymbolPart c hc)

variable {admits : Numeral → Prop}

theorem AtomText.scan {span : Location} {word : List Char} {node : Node}
    (h : AtomText admits span word node) (d : Nat) :
    (⟨.code, d⟩ : Scan).after word = ⟨.code, d⟩ := by
  cases h with
  | string h =>
    change (⟨.string, d⟩ : Scan).after (_ ++ ['"']) = _
    rw [Scan.after_append, h.scan]
    rfl
  | key h => exact Scan.after_plain d fun c hc => plain_of_not_isDelimiter (h.not_isDelimiter c hc)
  | number h => exact Scan.after_plain d fun c hc => plain_of_not_isDelimiter (h.not_isDelimiter c hc)
  | symbol h => exact Scan.after_plain d fun c hc => plain_of_not_isDelimiter (h.not_isDelimiter c hc)

theorem Reads.scan {after text : List Char} {p : Position} {nodes : List Node}
    (h : Reads admits after p text nodes) (d : Nat) :
    (⟨.code, d⟩ : Scan).after text = ⟨.code, d⟩ := by
  induction h generalizing d with
  | nil => rfl
  | blank hc _ ih => rw [Scan.after_cons, Scan.step_plain d (plain_of_isBlank hc), ih]
  | atom hatom _ _ ih => rw [Scan.after_append, hatom.scan, ih]
  | list _ _ _ ihinside ih =>
    change (⟨.code, d + 1⟩ : Scan).after (_ ++ ')' :: _) = _
    rw [Scan.after_append, ihinside]
    exact ih d

/-! ## What is open where reading gives up -/

section

variable {f : Failure} {read left : List Char} {scopes : List Scope} {p : Position}

theorem Failure.Halts.openLists {taken : List Char} (h : f.Halts scopes p taken left) :
    f.reader.openLists = listsIn scopes := by
  have hscope : listsIn (f.fault.scope p) = 0 := by cases f.fault <;> rfl
  rw [h.reader, Reader.openLists, ← listsIn, listsIn_append, hscope, Nat.zero_add]

theorem Stall.unclosed_inv {lists : Nat} {taken : List Char} {fault : Fault}
    (h : Stall lists taken left fault) (hfault : fault = .listTerminator) :
    taken = [] ∧ left = [] ∧ 0 < lists := by
  cases h <;> first | exact ⟨rfl, rfl, ‹_›⟩ | cases hfault

theorem Breaks.openLists_le (h : Breaks f left scopes p read) :
    listsIn scopes ≤ f.reader.openLists ∧ f.reader.openLists ≤ nestingLimit := by
  induction h with
  | stall _ hdepth _ _ hhalts =>
    rw [hhalts.openLists, listsIn_scopesAt]
    omega
  | list _ _ _ _ _ ih =>
    rw [listsIn_list, listsIn_scopesAt] at ih
    omega

theorem Breaks.scan (h : Breaks f left scopes p read) (hfault : f.fault = .listTerminator) :
    left = [] ∧ 0 < f.reader.openLists ∧
      (⟨.code, listsIn scopes⟩ : Scan).after read = ⟨.code, f.reader.openLists⟩ := by
  induction h with
  | stall hdone _ _ hstall hhalts =>
    obtain ⟨rfl, rfl, hlists⟩ := hstall.unclosed_inv hfault
    rw [List.append_nil, hdone.scan, hhalts.openLists, listsIn_scopesAt]
    exact ⟨rfl, hlists, rfl⟩
  | list hdone _ _ _ _ ih =>
    obtain ⟨hleft, hlists, hscan⟩ := ih
    rw [listsIn_list, listsIn_scopesAt] at hscan
    rw [Scan.after_append, hdone.scan]
    exact ⟨hleft, hlists, hscan⟩

/-! ## Completing what was begun -/

theorem QuotedText.append {value inside value' inside' : List Char} (h : QuotedText value inside)
    (h' : QuotedText value' inside') : QuotedText (value ++ value') (inside ++ inside') := by
  induction h with
  | nil => exact h'
  | plain hquote hback _ ih => exact .plain hquote hback ih
  | escape hescape _ ih => exact .escape hescape ih

theorem Stall.mended {lists : Nat} {taken : List Char} {fault : Fault}
    (h : Stall lists taken left fault) (hadmits : ∀ n, admits n) :
    taken = [] ∨ ∃ ending, ∀ span, ∃ node, AtomText admits span (taken ++ ending) node := by
  have hescape : ∀ {value inside}, QuotedText value inside → ∃ ending, ∀ span, ∃ node,
      AtomText admits span ('"' :: (inside ++ ['\\']) ++ ending) node := by
    intro value inside h
    refine ⟨['n', '"'], fun span => ⟨.string span (String.ofList (value ++ ['\n'])), ?_⟩⟩
    have hinside : QuotedText (value ++ ['\n']) (inside ++ ['\\', 'n']) :=
      h.append (.escape .lineFeed .nil)
    simpa using AtomText.string hinside
  cases h with
  | unclosed | unopened | tooDeep | noNode => exact .inl rfl
  | unterminated h => exact .inr ⟨['"'], fun span => ⟨_, .string h⟩⟩
  | unescaped h | badEscape h => exact .inr (hescape h)
  | unnamed => exact .inr ⟨['a'], fun span => ⟨_, .key ⟨by simp, List.forall_mem_singleton.mpr rfl⟩⟩⟩
  | gluedKey h => exact .inr ⟨[], fun span => ⟨_, by simpa using .key h⟩⟩
  | brokenNumeral h =>
    obtain ⟨n, hn⟩ := h.mended
    exact .inr ⟨['0'], fun span => ⟨_, .number hn (hadmits n)⟩⟩
  | gluedNumeral h =>
    exact .inr ⟨[], fun span => ⟨_, by simpa using .number h.numeralText (hadmits _)⟩⟩
  | outOfRange h => exact .inr ⟨[], fun span => ⟨_, by simpa using .number h (hadmits _)⟩⟩
  | gluedSymbol h => exact .inr ⟨[], fun span => ⟨_, by simpa using .symbol h⟩⟩

/-- What was read before reading gave up can be completed: with the ending of an atom, if one was
begun, and then by closing the lists that are open. -/
theorem Breaks.completed (h : Breaks f left scopes p read) (hfinite : ∀ n, n.IsFinite → admits n)
    (hadmits : f.fault ≠ .listTerminator → ∀ n, admits n) {after : List Char}
    (hafter : Delimited after) :
    ∃ ending nodes, (f.fault = .listTerminator → ending = []) ∧
      Reads admits after p
        (read ++ (ending ++ List.replicate (f.reader.openLists - listsIn scopes) ')')) nodes ∧
      listsIn scopes + Node.depthAll nodes ≤ nestingLimit := by
  induction h generalizing after with
  | @stall scopes p q done taken nodes hdone hdepth hq hstall hhalts =>
    subst hq
    rw [hhalts.openLists, listsIn_scopesAt, Nat.sub_self, List.replicate_zero]
    have hdone : Reads admits (taken ++ left) p done nodes := hdone.mono hfinite
    have htaken : taken = [] ∨ f.fault ≠ .listTerminator ∧
        ∃ ending, ∀ span, ∃ node, AtomText admits span (taken ++ ending) node := by
      by_cases hfault : f.fault = .listTerminator
      · exact .inl (hstall.unclosed_inv hfault).1
      · exact (hstall.mended (hadmits hfault)).imp_right fun h => ⟨hfault, h⟩
    by_cases hnil : taken = []
    · subst hnil
      exact ⟨[], nodes, fun _ => rfl, by simpa using hdone.change_after fun _ => hafter, hdepth⟩
    · obtain ⟨hfault, ending, hending⟩ := htaken.resolve_left hnil
      obtain ⟨node, hatom⟩ :=
        hending ⟨p.advanceAll done, (p.advanceAll done).advanceAll (taken ++ ending)⟩
      have hnode : Reads admits after (p.advanceAll done) (taken ++ ending) [node] :=
        .of_atom hatom fun _ => hafter
      -- Something was taken, so nothing that is added changes where the node before it ends.
      have hdelimited : Delimited (taken ++ left) → Delimited (taken ++ ending ++ after) := by
        obtain ⟨c, taken, rfl⟩ := List.exists_cons_of_ne_nil hnil
        simp
      refine ⟨ending, nodes ++ [node], fun h => absurd h hfault, ?_, ?_⟩
      · simpa using hdone.append hnode hdelimited
      · simpa [Node.depthAll_append, Node.depthAll, hatom.depth] using hdepth
  | @list scopes p q done read nodes hdone hdepth hq hlimit hbreaks ih =>
    subst hq
    have hdone : Reads admits ('(' :: (read ++ left)) p done nodes := hdone.mono hfinite
    obtain ⟨ending, children, hending, hinside, hbound⟩ := @ih [')'] (by simp [isDelimiter])
    have hlists := hbreaks.openLists_le.1
    rw [listsIn_list, listsIn_scopesAt] at hinside hbound hlists
    obtain ⟨k, hk, hk'⟩ : ∃ k, f.reader.openLists - (listsIn scopes + 1) = k ∧
        f.reader.openLists - listsIn scopes = k + 1 := ⟨_, rfl, by omega⟩
    rw [hk] at hinside
    rw [hk', List.replicate_succ']
    obtain ⟨stop, hlist⟩ : ∃ stop, Reads admits after (p.advanceAll done)
        ('(' :: (read ++ (ending ++ List.replicate k ')') ++ [')']))
        [.list ⟨p.advanceAll done, stop⟩ children] := ⟨_, .list hinside rfl .nil⟩
    refine ⟨ending, nodes ++ [.list ⟨p.advanceAll done, stop⟩ children], hending, ?_, ?_⟩
    · simpa using hdone.append hlist (by simp)
    · simp only [Node.depthAll_append, Node.depthAll, Node.depth]
      omega

end

/-! ## Recoverable scripts -/

def closing (k : Nat) : String := String.ofList (List.replicate k ')')

theorem toList_append_closing (source : String) (k : Nat) :
    (source ++ closing k).toList = source.toList ++ List.replicate k ')' := by
  simp [closing]

theorem IsReading.closing_unique {source : String} {nodes nodes' : List Node} {j k : Nat}
    (h : IsReading (source ++ closing j) nodes) (h' : IsReading (source ++ closing k) nodes') :
    j ≤ k → j = k := by
  intro hle
  obtain ⟨m, rfl⟩ := Nat.exists_eq_add_of_le hle
  have hread := h.1
  have hread' := h'.1
  rw [toList_append_closing] at hread hread'
  have heq : source.toList ++ List.replicate (j + m) ')' ++ [] =
      source.toList ++ List.replicate j ')' ++ List.replicate m ')' := by
    simp [List.replicate_append_replicate]
  cases m with
  | zero => rfl
  | succ m =>
    obtain ⟨text, nodes'', htext, -, hrest⟩ :=
      hread.cut hread' (by simp [List.replicate_succ, isDelimiter]) closing_nil heq
    rw [htext, List.append_nil, List.append_cancel_left_eq] at heq
    subst heq
    obtain ⟨hnil, -⟩ := hrest.at_close (List.append_nil _)
    simp at hnil

theorem Breaks.not_closable {f : Failure} {source : String} {read left : List Char}
    (h : Breaks f left [] .start read) (htext : source.toList = read ++ left)
    (hfault : f.fault ≠ .listTerminator) {k : Nat} (hk : 1 ≤ k) (nodes : List Node) :
    ¬ IsReading (source ++ closing k) nodes := by
  rintro ⟨hread, hdepth⟩
  rw [toList_append_closing, htext, List.append_assoc] at hread
  have hfutile : Futile f.fault left (left ++ List.replicate k ')') := by
    obtain ⟨m, rfl⟩ := Nat.exists_eq_add_of_le' hk
    cases left with
    | nil => exact .closing hfault
    | cons => exact .same
  obtain ⟨-, hdeep⟩ := h.blocked hfutile (.inl fun _ => id) hread closing_nil (by simp [listsIn])
    (List.append_nil _)
  simp only [listsIn, List.countP_nil, Nat.zero_add] at hdeep
  omega

theorem Breaks.closable {f : Failure} {source : String} {read left : List Char}
    (h : Breaks f left [] .start read) (htext : source.toList = read ++ left)
    (hfault : f.fault = .listTerminator) :
    1 ≤ openLists source ∧ openLists source ≤ nestingLimit ∧
      ∃ nodes, IsReading (source ++ closing (openLists source)) nodes := by
  obtain ⟨rfl, hlists, hscan⟩ := h.scan hfault
  obtain ⟨-, hlimit⟩ := h.openLists_le
  rw [List.append_nil] at htext
  have hopen : openLists source = f.reader.openLists := by
    rw [openLists, htext]
    exact congrArg Scan.lists hscan
  obtain ⟨ending, nodes, hending, hread, hdepth⟩ :=
    h.completed (fun _ => id) (absurd hfault) delimited_nil
  obtain rfl := hending hfault
  rw [hopen]
  refine ⟨hlists, hlimit, nodes, ?_, ?_⟩
  · rw [toList_append_closing, htext]
    exact hread
  · simpa [listsIn] using hdepth

theorem Failure.severity_eq_recoverable_iff (f : Failure) :
    f.diagnostic.severity = .recoverable ↔ f.fault = .listTerminator := by
  rw [Failure.diagnostic]
  cases f.fault <;> simp [Fault.severity]

/-- A script that fails is recoverable exactly if closing parentheses after it make it one that can be
read. It takes as many of them as there are lists open, and no other number will do. -/
theorem recoverable_iff_closable (source : String) (d : Diagnostic) (h : compile source = .error d) :
    (d.severity = .recoverable ↔ ∃ k, 1 ≤ k ∧ ∃ nodes, parse (source ++ closing k) = .ok nodes) ∧
      (d.severity = .recoverable → 1 ≤ openLists source ∧ openLists source ≤ 128 ∧
        ∀ k, (∃ nodes, parse (source ++ closing k) = .ok nodes) ↔ k = openLists source) := by
  simp only [parse_eq_ok_iff]
  rcases compile_error_cases h with hparse | ⟨nodes, r, hparse, -, rfl⟩
  · rcases parse_cases source with ⟨nodes, hok, -⟩ | ⟨f, read, left, herror, -, htext, hbreaks⟩
    · simp [hok] at hparse
    obtain rfl : f.diagnostic = d := Except.error.inj (herror.symm.trans hparse)
    rw [f.severity_eq_recoverable_iff]
    by_cases hfault : f.fault = .listTerminator
    · obtain ⟨hpos, hlimit, nodes, hnodes⟩ := hbreaks.closable htext hfault
      refine ⟨⟨fun _ => ⟨_, hpos, nodes, hnodes⟩, fun _ => hfault⟩, fun _ => ⟨hpos, hlimit, ?_⟩⟩
      intro k
      constructor
      · rintro ⟨nodes', hnodes'⟩
        rcases Nat.le_total k (openLists source) with hle | hle
        · exact hnodes'.closing_unique hnodes hle
        · exact (hnodes.closing_unique hnodes' hle).symm
      · rintro rfl
        exact ⟨nodes, hnodes⟩
    · refine ⟨⟨fun h => absurd h hfault, ?_⟩, fun h => absurd h hfault⟩
      rintro ⟨k, hk, nodes, hnodes⟩
      exact absurd hnodes (hbreaks.not_closable htext hfault hk nodes)
  · -- What can be read as it stands has nothing left to close.
    have hsource : IsReading (source ++ closing 0) nodes := by
      simpa [closing] using (parse_eq_ok_iff source nodes).mp hparse
    refine ⟨⟨nofun, ?_⟩, nofun⟩
    rintro ⟨k, hk, nodes', hnodes'⟩
    have := hsource.closing_unique hnodes' (Nat.zero_le k)
    omega

theorem recoverable_iff_closable_unfinished :
    ∃ d, compile "(init (set x 5)" = .error d ∧ d.severity = .recoverable ∧
      ∀ k, (∃ nodes, parse ("(init (set x 5)" ++ closing k) = .ok nodes) ↔ k = 1 := by
  have hprogram : (Reader.start "(init (set x 5)".toList).program =
      .error (Reader.fail ⟨⟨⟨1, 16⟩, []⟩, [⟨.list, .start⟩, ⟨.topLevel, .start⟩]⟩ .listTerminator) := by
    cbv
  have hlists : openLists "(init (set x 5)" = 1 := by decide
  obtain ⟨-, -, hclosable⟩ := (recoverable_iff_closable _ _ (compile_of_program_error hprogram)).2 rfl
  rw [hlists] at hclosable
  exact ⟨_, compile_of_program_error hprogram, rfl, hclosable⟩

end HandlerScript
