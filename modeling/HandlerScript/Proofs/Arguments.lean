import HandlerScript.Command
import Mathlib.Data.List.Perm.Basic

/-!
# What arguments ask for

The words of a command may stand in any order, since each of them fills a slot of its own. What color
and how much logging is wanted has no bearing on the other slots.
-/

namespace HandlerScript

/-- These words are about what is written for people. -/
def Word.isCosmetic : Word → Bool
  | .setting "--color" _ | .flag "--verbose" | .flag "-v" => true
  | _ => false

namespace Options.Draft

variable {draft next middle last : Draft} {word first second : Word} {words words' : List Word}

/-! ## One word -/

/-- All that adding a word can do. -/
inductive Adds (draft : Draft) : Word → Draft → Prop where
  | script {name : String} : name ≠ "" → draft.script = none →
      Adds draft (.script name) { draft with script := some name }
  | emit {value : String} {emit : Emit} : draft.emit = none → emit? value = some emit →
      Adds draft (.setting "--emit" value) { draft with emit := some emit }
  | color {value : String} {color : Color} : draft.color = none → color? value = some color →
      Adds draft (.setting "--color" value) { draft with color := some color }
  | json : draft.json = false → Adds draft (.flag "--json") { draft with json := true }
  | verbose : draft.verbose = false → Adds draft (.flag "--verbose") { draft with verbose := true }
  | verboseLetter : draft.verbose = false → Adds draft (.flag "-v") { draft with verbose := true }

theorem add_eq_some_iff : draft.add word = some next ↔ draft.Adds word next := by
  constructor
  · intro h
    unfold add at h
    split at h <;> simp only [Option.ite_none_left_eq_some, Option.map_eq_some_iff, not_or,
      Bool.not_eq_true, Option.isSome_eq_false_iff, Option.isNone_iff_eq_none, Option.some.injEq,
      reduceCtorEq] at h
    · obtain ⟨⟨hname, hslot⟩, rfl⟩ := h
      exact .script hname hslot
    · obtain ⟨hslot, emit, hvalue, rfl⟩ := h
      exact .emit hslot hvalue
    · obtain ⟨hslot, color, hvalue, rfl⟩ := h
      exact .color hslot hvalue
    · obtain ⟨hslot, rfl⟩ := h
      exact .json hslot
    · obtain ⟨hslot, rfl⟩ := h
      exact .verbose hslot
    · obtain ⟨hslot, rfl⟩ := h
      exact .verboseLetter hslot
  · intro h
    cases h <;> simp_all [add]

/-! ## Any order -/

/-- Two words that can be added fill two slots, so they can be added the other way round. -/
theorem add_comm (hfirst : draft.add first = some middle) (hsecond : middle.add second = some last) :
    ∃ middle', draft.add second = some middle' ∧ middle'.add first = some last := by
  rw [add_eq_some_iff] at hfirst hsecond
  cases hfirst <;> cases hsecond <;> simp_all [add]

theorem bind_add_comm (draft : Draft) (first second : Word) :
    (draft.add first).bind (·.add second) = (draft.add second).bind (·.add first) := by
  ext last
  simp only [Option.bind_eq_some_iff]
  constructor <;> rintro ⟨middle, hfirst, hsecond⟩ <;> exact add_comm hfirst hsecond

theorem foldlM_add_perm (h : words.Perm words') (draft : Draft) :
    words.foldlM add draft = words'.foldlM add draft := by
  induction h generalizing draft with
  | nil => rfl
  | cons word _ ih => simp only [List.foldlM_cons, ih]
  | swap first second words =>
    simp only [List.foldlM_cons, Option.bind_eq_bind, ← Option.bind_assoc]
    rw [bind_add_comm]
  | trans _ _ ih ih' => exact (ih draft).trans (ih' draft)

/-! ## What is not for people -/

/-- The draft without what the cosmetic words say. -/
def core (draft : Draft) : Draft := { draft with color := none, verbose := false }

theorem add_core (h : draft.add word = some next) :
    if word.isCosmetic then next.core = draft.core else draft.core.add word = some next.core := by
  rw [add_eq_some_iff] at h
  cases h <;> simp_all [Word.isCosmetic, core, add]

theorem foldlM_add_core (h : words.foldlM add draft = some last) :
    (words.filter (!·.isCosmetic)).foldlM add draft.core = some last.core := by
  induction words generalizing draft with
  | nil =>
    cases h
    rfl
  | cons word words ih =>
    rw [List.foldlM_cons] at h
    obtain ⟨next, hadd, hrest⟩ := Option.bind_eq_some_iff.mp h
    have hcore := add_core hadd
    rw [List.filter_cons]
    split at hcore
    · next hcosmetic =>
      rw [hcosmetic, ← hcore]
      exact ih hrest
    · next hcosmetic =>
      rw [if_pos (by simpa using hcosmetic), List.foldlM_cons, hcore]
      exact ih hrest

end Options.Draft

/-! ## All words -/

namespace Options

variable {arguments arguments' : List String} {words words' : List Word} {options options' : Options}

theorem ofArguments_eq (h : Word.ofArguments arguments = some words) :
    ofArguments arguments = (words.foldlM Draft.add {}).bind Draft.finish := by
  unfold ofArguments
  rw [h]
  rfl

theorem ofArguments_perm (h : Word.ofArguments arguments = some words)
    (h' : Word.ofArguments arguments' = some words') (hperm : words.Perm words') :
    ofArguments arguments = ofArguments arguments' := by
  rw [ofArguments_eq h, ofArguments_eq h', Draft.foldlM_add_perm hperm]

/-- Both ask for the same of one script. -/
def Agree (options options' : Options) : Prop :=
  options.script = options'.script ∧ options.emit = options'.emit ∧ options.json = options'.json

theorem agree_of_core_eq {draft draft' : Draft} (h : draft.finish = some options)
    (h' : draft'.finish = some options') (hcore : draft.core = draft'.core) :
    options.Agree options' := by
  simp only [Draft.core, Draft.mk.injEq, and_true] at hcore
  obtain ⟨hscript, hemit, hjson⟩ := hcore
  obtain ⟨script, hdraft, heq⟩ := Option.bind_eq_some_iff.mp h
  obtain ⟨script', hdraft', heq'⟩ := Option.bind_eq_some_iff.mp h'
  cases heq
  cases heq'
  rw [hscript, hdraft'] at hdraft
  exact ⟨(Option.some.inj hdraft).symm, by simp only [hemit], hjson⟩

theorem agree_of_perm (h : Word.ofArguments arguments = some words)
    (h' : Word.ofArguments arguments' = some words')
    (hperm : (words.filter (!·.isCosmetic)).Perm (words'.filter (!·.isCosmetic)))
    (hoptions : ofArguments arguments = some options)
    (hoptions' : ofArguments arguments' = some options') : options.Agree options' := by
  rw [ofArguments_eq h] at hoptions
  rw [ofArguments_eq h'] at hoptions'
  obtain ⟨draft, hdraft, hfinish⟩ := Option.bind_eq_some_iff.mp hoptions
  obtain ⟨draft', hdraft', hfinish'⟩ := Option.bind_eq_some_iff.mp hoptions'
  have hcore := Draft.foldlM_add_core hdraft
  rw [Draft.foldlM_add_perm hperm, Draft.foldlM_add_core hdraft'] at hcore
  exact agree_of_core_eq hfinish hfinish' (Option.some.inj hcore).symm

end Options
end HandlerScript
