import HandlerScript.Proofs.ViablePrefix

/-!
# Where faults are charged to

Going through the text that was read, without reading it, shows what is unfinished where reading gave
up: the lists that are open, and the string or word that was begun. That is enough to say where the
construct starts that a fault is reported from.
-/

namespace HandlerScript

/-! ## What is unfinished -/

/-- A string or a word that was begun, and the character it starts with. -/
structure Begun where
  start : Position
  first : Char
  deriving DecidableEq, Repr

/-- What is unfinished at the end of a text: the open lists by their parentheses, the innermost first,
and the string or the word that is not at its end. -/
structure Unfinished where
  here : Position
  place : Place
  lists : List Position
  atom : Option Begun
  deriving DecidableEq, Repr

namespace Unfinished

def step (u : Unfinished) (c : Char) : Unfinished :=
  match u.place with
  | .code =>
    if c = '(' then ⟨u.here.advance c, .code, u.here :: u.lists, none⟩
    else if c = ')' then ⟨u.here.advance c, .code, u.lists.tail, none⟩
    else if c = '"' then ⟨u.here.advance c, .string, u.lists, some ⟨u.here, c⟩⟩
    else if isBlank c then ⟨u.here.advance c, .code, u.lists, none⟩
    else ⟨u.here.advance c, .code, u.lists, some (u.atom.getD ⟨u.here, c⟩)⟩
  | .string =>
    if c = '"' then ⟨u.here.advance c, .code, u.lists, none⟩
    else if c = '\\' then ⟨u.here.advance c, .escape, u.lists, u.atom⟩
    else ⟨u.here.advance c, .string, u.lists, u.atom⟩
  | .escape => ⟨u.here.advance c, .string, u.lists, u.atom⟩

def after (u : Unfinished) (text : List Char) : Unfinished := text.foldl step u

@[simp] theorem after_nil (u : Unfinished) : u.after [] = u := rfl

@[simp] theorem after_cons (u : Unfinished) (c : Char) (text : List Char) :
    u.after (c :: text) = (u.step c).after text := rfl

@[simp] theorem after_append (u : Unfinished) (text other : List Char) :
    u.after (text ++ other) = (u.after text).after other := List.foldl_append

end Unfinished

/-- What is unfinished where a script breaks off after this text. -/
def unfinished (text : List Char) : Unfinished :=
  (⟨.start, .code, [], none⟩ : Unfinished).after text

/-! ## What a fault is charged to -/

namespace Fault

def isInString : Fault → Bool
  | unterminatedString | invalidEscape _ => true
  | _ => false

def isInKeyName : Fault → Bool
  | keyName | malformedKeyName => true
  | _ => false

/-- Neither in a string nor in a key name, and not a parenthesis too many. -/
def IsElsewhere (fault : Fault) : Prop :=
  fault.isInString = false ∧ fault.isInKeyName = false ∧ fault ≠ unexpectedClose

theorem scope_of_isInString {fault : Fault} (h : fault.isInString) (start : Position) :
    fault.scope start = [⟨.string, start⟩] := by
  cases fault <;> first | rfl | cases h

theorem scope_of_isInKeyName {fault : Fault} (h : fault.isInKeyName) (start : Position) :
    fault.scope start = [⟨.keyName, start⟩] := by
  cases fault <;> first | rfl | cases h

theorem scope_of_isElsewhere {fault : Fault} (h : fault.IsElsewhere) (start : Position) :
    fault.scope start = [] := by
  obtain ⟨hstring, hkeyName, -⟩ := h
  cases fault <;> first | rfl | simp [isInString, isInKeyName] at hstring hkeyName

end Fault

/-- With this unfinished and `left` to come, the fault is charged to what starts at the position. -/
inductive Charged (u : Unfinished) (left : List Char) : Fault → Position → Prop where
  | string {fault : Fault} {start : Position} : fault.isInString → u.atom = some ⟨start, '"'⟩ →
      Charged u left fault start
  | keyName {fault : Fault} {start : Position} : fault.isInKeyName → u.atom = some ⟨start, '@'⟩ →
      Charged u left fault start
  | close : u.lists = [] → left.head? = some ')' → Charged u left .unexpectedClose u.here
  | begun {fault : Fault} {start : Position} {first : Char} : fault.IsElsewhere → u.lists = [] →
      u.atom = some ⟨start, first⟩ → Charged u left fault start
  /-- The next character begins nothing. -/
  | unbegun {fault : Fault} : fault.IsElsewhere → u.lists = [] → u.atom = none → left ≠ [] →
      Charged u left fault u.here
  | oneList {fault : Fault} {list : Position} : fault.IsElsewhere → u.lists = [list] →
      Charged u left fault list
  | innerList {fault : Fault} {inner outer : Position} {others : List Position} :
      fault.IsElsewhere → u.lists = inner :: outer :: others → Charged u left fault outer

/-! ## What was read leaves the lists as they are -/

section

variable {admits : Numeral → Prop} {p : Position} {lists : List Position} {begun : Option Begun}
  {text : List Char}

theorem Unfinished.step_blank {c : Char} (h : isBlank c) :
    (⟨p, .code, lists, begun⟩ : Unfinished).step c = ⟨p.advance c, .code, lists, none⟩ := by
  obtain ⟨hopen, hclose, hquote⟩ := plain_of_isBlank h
  simp [step, hopen, hclose, hquote, h]

theorem Unfinished.step_word {c : Char} (h : isDelimiter c = false) :
    (⟨p, .code, lists, begun⟩ : Unfinished).step c =
      ⟨p.advance c, .code, lists, some (begun.getD ⟨p, c⟩)⟩ := by
  obtain ⟨hopen, hclose, hquote⟩ := plain_of_not_isDelimiter h
  have hblank : isBlank c = false := by
    simp only [isDelimiter, Bool.or_eq_false_iff] at h
    exact h.1.1.1
  simp [step, hopen, hclose, hquote, hblank]

theorem Unfinished.after_begun (begun : Begun) (h : ∀ c ∈ text, isDelimiter c = false) :
    (⟨p, .code, lists, some begun⟩ : Unfinished).after text =
      ⟨p.advanceAll text, .code, lists, some begun⟩ := by
  induction text generalizing p with
  | nil => rfl
  | cons c text ih =>
    obtain ⟨hc, htext⟩ := List.forall_mem_cons.mp h
    rw [after_cons, step_word hc]
    exact ih htext

theorem Unfinished.after_word {c : Char} {left : List Char}
    (h : ∀ d ∈ c :: text, isDelimiter d = false)
    (hbegun : begun = none ∨ Delimited (c :: text ++ left)) :
    (⟨p, .code, lists, begun⟩ : Unfinished).after (c :: text) =
      ⟨p.advanceAll (c :: text), .code, lists, some ⟨p, c⟩⟩ := by
  obtain ⟨hc, htext⟩ := List.forall_mem_cons.mp h
  obtain rfl : begun = none := by
    refine hbegun.resolve_right fun hdelimited => ?_
    rw [List.cons_append, delimited_cons, hc] at hdelimited
    cases hdelimited
  rw [after_cons, step_word hc]
  exact after_begun ⟨p, c⟩ htext

theorem QuotedText.unfinished {value inside : List Char} (h : QuotedText value inside) :
    (⟨p, .code, lists, begun⟩ : Unfinished).after ('"' :: inside) =
      ⟨p.advanceAll ('"' :: inside), .string, lists, some ⟨p, '"'⟩⟩ := by
  have hinside : ∀ q, (⟨q, .string, lists, some ⟨p, '"'⟩⟩ : Unfinished).after inside =
      ⟨q.advanceAll inside, .string, lists, some ⟨p, '"'⟩⟩ := by
    induction h with
    | nil => exact fun _ => rfl
    | plain hquote hback _ ih =>
      intro q
      simpa [Unfinished.step, hquote, hback] using ih _
    | escape _ _ ih => exact fun _ => ih _
  exact hinside _

variable (p lists) in
theorem AtomText.unfinished {span : Location} {word left : List Char} {node : Node}
    (h : AtomText admits span word node) (hbegun : begun = none ∨ Delimited (word ++ left)) :
    ∃ begun', (begun' = none ∨ node.IsBare) ∧
      (⟨p, .code, lists, begun⟩ : Unfinished).after word =
        ⟨p.advanceAll word, .code, lists, begun'⟩ := by
  obtain ⟨c, rest, hword, -⟩ := h.head
  have hbare : (∀ c ∈ word, isDelimiter c = false) →
      (⟨p, .code, lists, begun⟩ : Unfinished).after word =
        ⟨p.advanceAll word, .code, lists, some ⟨p, c⟩⟩ := by
    subst hword
    exact fun hword => Unfinished.after_word hword hbegun
  cases h with
  | @string value inside hinside =>
    refine ⟨none, .inl rfl, ?_⟩
    rw [← List.cons_append, Unfinished.after_append, hinside.unfinished, Position.advanceAll_append]
    rfl
  | key hname => exact ⟨_, .inr trivial, hbare hname.not_isDelimiter⟩
  | number hn => exact ⟨_, .inr trivial, hbare hn.not_isDelimiter⟩
  | symbol hname => exact ⟨_, .inr trivial, hbare hname.not_isDelimiter⟩

variable (lists) in
theorem Reads.unfinished {after : List Char} {nodes : List Node}
    (h : Reads admits after p text nodes) (hbegun : begun = none ∨ Delimited (text ++ after)) :
    ∃ begun', (begun' = none ∨ Delimited after) ∧
      (⟨p, .code, lists, begun⟩ : Unfinished).after text =
        ⟨p.advanceAll text, .code, lists, begun'⟩ := by
  induction h generalizing lists begun with
  | nil => exact ⟨begun, hbegun, rfl⟩
  | blank hc _ ih =>
    rw [Unfinished.after_cons, Unfinished.step_blank hc]
    exact ih lists (.inl rfl)
  | atom hatom hend _ ih =>
    rw [List.append_assoc] at hbegun
    obtain ⟨begun', hbegun', hword⟩ := hatom.unfinished _ lists hbegun
    rw [Unfinished.after_append, hword, Position.advanceAll_append]
    exact ih lists (hbegun'.imp_right hend)
  | @list _ inside text p stop _ _ _ hstop _ ihinside ih =>
    -- Inside, the list is the innermost one. What comes after it goes on with the lists as they were.
    obtain ⟨inner, -, hinside⟩ := @ihinside (p :: lists) none (.inl rfl)
    obtain ⟨begun', hbegun', htext⟩ := @ih lists none (.inl rfl)
    refine ⟨begun', hbegun', ?_⟩
    have hall : p.advanceAll ('(' :: (inside ++ ')' :: text)) = stop.advanceAll text := by
      simp [hstop, Position.advanceAll_append]
    change (⟨p.advance '(', .code, p :: lists, none⟩ : Unfinished).after (inside ++ ')' :: text) = _
    rw [Unfinished.after_append, hinside, hall, ← htext, hstop]
    rfl

/-! ## The scopes around a fault -/

/-- The scopes that open lists are read in: their own, and that of the outermost one as a whole. -/
def scopesOf : List Position → List Scope
  | [] => []
  | [list] => [⟨.list, list⟩, ⟨.topLevel, list⟩]
  | inner :: outer :: lists => ⟨.list, inner⟩ :: scopesOf (outer :: lists)

theorem listsIn_scopesOf (lists : List Position) : listsIn (scopesOf lists) = lists.length := by
  induction lists using scopesOf.induct with
  | case1 => rfl
  | case2 => rfl
  | case3 inner outer lists ih => simp only [scopesOf, listsIn_list, ih, List.length_cons]

theorem scopesOf_cons (q : Position) (lists : List Position) :
    ⟨.list, q⟩ :: scopesAt (scopesOf lists) q = scopesOf (q :: lists) := by
  match lists with
  | [] => rfl
  | [_] => rfl
  | _ :: _ :: _ => rfl

theorem blamedStart_of_kind {cursor : Cursor} {kind : ScopeKind} {scopes : List Scope}
    (h : kind ≠ .list) (start : Position) :
    (⟨cursor, ⟨kind, start⟩ :: scopes⟩ : Reader).blamedStart = start := by
  cases scopes with
  | nil => rfl
  | cons => simp [Reader.blamedStart, h]

theorem blamedStart_scopesOf (cursor : Cursor) (q : Position) (lists : List Position) :
    (⟨cursor, scopesAt (scopesOf lists) q⟩ : Reader).blamedStart =
      match lists with
      | [] => q
      | [list] => list
      | _ :: outer :: _ => outer := by
  match lists with
  | [] => rfl
  | [_] => rfl
  | [_, _] => rfl
  | _ :: _ :: _ :: _ => rfl

end

/-! ## What the reader charges -/

section

variable {lists : List Position} {begun : Option Begun} {q : Position} {taken left : List Char}
  {fault : Fault} {u : Unfinished}

theorem Charged.elsewhere (hfault : fault.IsElsewhere) (hlists : u.lists = lists)
    (hatom : (∃ first, u.atom = some ⟨q, first⟩) ∨ lists ≠ [] ∨
      u.atom = none ∧ u.here = q ∧ left ≠ []) (cursor : Cursor) :
    Charged u left fault
      (Reader.blamedStart ⟨cursor, fault.scope q ++ scopesAt (scopesOf lists) q⟩) := by
  rw [Fault.scope_of_isElsewhere hfault, List.nil_append, blamedStart_scopesOf]
  match lists with
  | [] =>
    rcases hatom with ⟨first, hatom⟩ | hne | ⟨hatom, rfl, hleft⟩
    · exact .begun hfault hlists hatom
    · exact absurd rfl hne
    · exact .unbegun hfault hlists hatom hleft
  | [_] => exact .oneList hfault hlists
  | _ :: _ :: _ => exact .innerList hfault hlists

/-- The fault and what it is charged to, with the lists as they were before the node. -/
def ChargedAt (lists : List Position) (q : Position) (left : List Char) (fault : Fault)
    (u : Unfinished) : Prop :=
  u.lists = lists ∧ ∀ cursor, Charged u left fault
    (Reader.blamedStart ⟨cursor, fault.scope q ++ scopesAt (scopesOf lists) q⟩)

theorem ChargedAt.word (hfault : fault.IsElsewhere) (hne : taken ≠ [])
    (hword : ∀ c ∈ taken, isDelimiter c = false)
    (hbegun : begun = none ∨ Delimited (taken ++ left)) :
    ChargedAt lists q left fault ((⟨q, .code, lists, begun⟩ : Unfinished).after taken) := by
  obtain ⟨c, rest, rfl⟩ := List.exists_cons_of_ne_nil hne
  rw [Unfinished.after_word hword hbegun]
  exact ⟨rfl, Charged.elsewhere hfault rfl (.inl ⟨c, rfl⟩)⟩

theorem ChargedAt.keyName (hfault : fault.isInKeyName)
    (hword : ∀ c ∈ '@' :: taken, isDelimiter c = false)
    (hbegun : begun = none ∨ Delimited ('@' :: taken ++ left)) :
    ChargedAt lists q left fault ((⟨q, .code, lists, begun⟩ : Unfinished).after ('@' :: taken)) := by
  rw [Unfinished.after_word hword hbegun]
  refine ⟨rfl, fun cursor => ?_⟩
  rw [Fault.scope_of_isInKeyName hfault, List.singleton_append, blamedStart_of_kind (by decide)]
  exact .keyName hfault rfl

theorem ChargedAt.string (hfault : fault.isInString) (hlists : u.lists = lists)
    (hatom : u.atom = some ⟨q, '"'⟩) : ChargedAt lists q left fault u := by
  refine ⟨hlists, fun cursor => ?_⟩
  rw [Fault.scope_of_isInString hfault, List.singleton_append, blamedStart_of_kind (by decide)]
  exact .string hfault hatom

theorem StartsNothing.not_isDelimiter {c : Char} (h : StartsNothing c) : isDelimiter c = false := by
  obtain ⟨-, -, hblank, hmark⟩ := h
  simp only [List.mem_cons, List.not_mem_nil, or_false, not_or] at hmark
  simp [isDelimiter, hblank, hmark]

theorem Stall.chargedAt (h : Stall lists.length taken left fault)
    (hbegun : begun = none ∨ Delimited (taken ++ left)) :
    ChargedAt lists q left fault ((⟨q, .code, lists, begun⟩ : Unfinished).after taken) := by
  have helsewhere : ∀ {fault : Fault}, fault.IsElsewhere → lists ≠ [] →
      ChargedAt lists q left fault (⟨q, .code, lists, begun⟩ : Unfinished) :=
    fun hfault hne => ⟨rfl, Charged.elsewhere hfault rfl (.inr (.inl hne))⟩
  cases h with
  | unclosed hlists =>
    exact helsewhere ⟨rfl, rfl, nofun⟩ (List.length_pos_iff.mp hlists)
  | unopened hlists =>
    obtain rfl := List.length_eq_zero_iff.mp hlists
    exact ⟨rfl, fun _ => .close rfl rfl⟩
  | tooDeep hlists =>
    refine helsewhere ⟨rfl, rfl, nofun⟩ ?_
    rintro rfl
    exact absurd hlists (by decide)
  | @noNode c _ hnothing =>
    obtain rfl : begun = none := by
      refine hbegun.resolve_right fun hdelimited => ?_
      rw [List.nil_append, delimited_cons, hnothing.not_isDelimiter] at hdelimited
      cases hdelimited
    exact ⟨rfl, Charged.elsewhere ⟨rfl, rfl, nofun⟩ rfl (.inr (.inr ⟨rfl, rfl, nofun⟩))⟩
  | unterminated hinside =>
    rw [hinside.unfinished]
    exact .string rfl rfl rfl
  | unescaped hinside | badEscape hinside =>
    rw [← List.cons_append, Unfinished.after_append, hinside.unfinished]
    exact .string rfl rfl rfl
  | unnamed => exact .keyName rfl (by simp; decide) hbegun
  | gluedKey hname => exact .keyName rfl hname.not_isDelimiter hbegun
  | brokenNumeral hbreak =>
    obtain ⟨n, hn⟩ := hbreak.mended
    refine .word ⟨rfl, rfl, nofun⟩ hbreak.ne_nil (fun c hc => ?_) hbegun
    exact hn.not_isDelimiter c (List.mem_append_left _ hc)
  | gluedNumeral hrun =>
    obtain ⟨c, rest, rfl, -⟩ := hrun.numeralText.head
    exact .word ⟨rfl, rfl, nofun⟩ nofun hrun.numeralText.not_isDelimiter hbegun
  | outOfRange hn =>
    obtain ⟨c, rest, rfl, -⟩ := hn.head
    exact .word ⟨rfl, rfl, nofun⟩ nofun hn.not_isDelimiter hbegun
  | gluedSymbol hname =>
    refine .word ⟨rfl, rfl, nofun⟩ ?_ hname.not_isDelimiter hbegun
    cases hname
    exact nofun

/-- Along the way to a stall, the lists that are gone into are those that going through the text finds
open, and the reader is in their scopes. -/
theorem Breaks.chargedAt {f : Failure} {read : List Char} {p : Position}
    (h : Breaks f left (scopesOf lists) p read) (hbegun : begun = none ∨ Delimited (read ++ left)) :
    ((⟨p, .code, lists, begun⟩ : Unfinished).after read).lists.length = f.reader.openLists ∧
      Charged ((⟨p, .code, lists, begun⟩ : Unfinished).after read) left f.fault
        f.reader.blamedStart := by
  generalize hscopes : scopesOf lists = scopes at h
  induction h generalizing lists begun with
  | @stall scopes p q done taken nodes hdone hdepth hq hstall hhalts =>
    subst hscopes hq
    rw [List.append_assoc] at hbegun
    obtain ⟨begun', hbegun', hafter⟩ := hdone.unfinished lists hbegun
    rw [listsIn_scopesOf] at hstall
    obtain ⟨hlists, hcharged⟩ := hstall.chargedAt (q := p.advanceAll done) hbegun'
    rw [Unfinished.after_append, hafter, hhalts.openLists, hhalts.reader]
    refine ⟨?_, hcharged _⟩
    rw [hlists, listsIn_scopesAt, listsIn_scopesOf]
  | @list scopes p q done read nodes hdone hdepth hq hlimit _ ih =>
    subst hscopes hq
    rw [List.append_assoc] at hbegun
    obtain ⟨begun', -, hafter⟩ := hdone.unfinished lists hbegun
    rw [Unfinished.after_append, hafter]
    exact ih (.inl rfl) (scopesOf_cons _ _).symm

end

/-- Where a script is rejected, what was read of it shows what the fault is charged to: the string or the
key name that it is in, the parenthesis that closes nothing, or else what is begun outside of all lists,
the only list that is open, or the list around the innermost one. -/
theorem failure_charged (source : String) (d : Diagnostic) (h : parse source = .error d) :
    ∃ f read left, (Reader.start source.toList).program = .error f ∧ d = f.diagnostic ∧
      source.toList = read ++ left ∧
      f.reader.cursor = ⟨Position.start.advanceAll read, left⟩ ∧
      (unfinished read).lists.length = f.reader.openLists ∧
      Charged (unfinished read) left f.fault d.location.start := by
  rcases parse_cases source with ⟨nodes, hok, -⟩ | ⟨f, read, left, herror, hprogram, htext, hbreaks⟩
  · simp [hok] at h
  obtain rfl : f.diagnostic = d := Except.error.inj (herror.symm.trans h)
  have hcharged := @Breaks.chargedAt [] none left f read .start hbreaks (.inl rfl)
  exact ⟨f, read, left, hprogram, rfl, htext, hbreaks.cursor, hcharged⟩

theorem failure_charged_outer_list :
    ∃ d, parse "(f (g (h) (k \"(\" 1x" = .error d ∧ d.location.start = ⟨1, 4⟩ ∧
      ∃ f read left, (Reader.start "(f (g (h) (k \"(\" 1x".toList).program = .error f ∧
        d = f.diagnostic ∧ "(f (g (h) (k \"(\" 1x".toList = read ++ left ∧
        f.reader.cursor = ⟨Position.start.advanceAll read, left⟩ ∧
        (unfinished read).lists.length = f.reader.openLists ∧
        Charged (unfinished read) left f.fault d.location.start := by
  have hprogram : (Reader.start "(f (g (h) (k \"(\" 1x".toList).program =
      .error ⟨.malformedNumber, ⟨⟨1, 18⟩, ['1', 'x']⟩,
        ⟨⟨⟨1, 19⟩, ['x']⟩,
          [⟨.list, ⟨1, 11⟩⟩, ⟨.list, ⟨1, 4⟩⟩, ⟨.list, .start⟩, ⟨.topLevel, .start⟩]⟩⟩ := by
    cbv
  have hparse := parse_of_program_error hprogram
  exact ⟨_, hparse, rfl, failure_charged _ _ hparse⟩

end HandlerScript
