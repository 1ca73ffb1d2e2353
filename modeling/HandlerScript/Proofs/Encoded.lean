import HandlerScript.Encoding
import HandlerScript.Proofs.Acceptance
import HandlerScript.Proofs.Json.Writing
import HandlerScript.Proofs.Spans

/-!
# Encodings lose nothing

The JSON of nodes and of diagnostics can be decoded, and its text is read in one way. So the text of
an encoding tells what was encoded, if all numbers in it are finite.
-/

namespace HandlerScript

/-! ## Numbers in encodings -/

namespace Json

/-- What a float can be encoded as. -/
inductive IsFloat : Json → Prop where
  | null : IsFloat .null
  | real (x : Binary64) : IsFloat (.real x)

section

variable {part : Json}

theorem IsFloat.inside_float (h : IsFloat part) (x : Binary64) :
    part.Inside (float x) ↔ part = float x := by
  constructor
  · unfold float
    split <;> exact fun hinside => by cases hinside; rfl
  · rintro rfl
    exact .here

theorem IsFloat.inside_natural (h : IsFloat part) (value : Nat) :
    ¬ part.Inside (natural value) := by
  cases h <;> nofun

theorem IsFloat.inside_bool (h : IsFloat part) (value : Bool) : ¬ part.Inside (bool value) := by
  cases h <;> nofun

theorem IsFloat.inside_string (h : IsFloat part) (value : String) :
    ¬ part.Inside (string value) := by
  cases h <;> nofun

theorem IsFloat.inside_array (h : IsFloat part) (items : List Json) :
    part.Inside (array items) ↔ ∃ item ∈ items, part.Inside item := by
  constructor
  · intro hinside
    cases hinside with
    | here => cases h
    | item hitem hinside => exact ⟨_, hitem, hinside⟩
  · rintro ⟨item, hitem, hinside⟩
    exact .item hitem hinside

theorem IsFloat.inside_object (h : IsFloat part) (fields : List (String × Json)) :
    part.Inside (object fields) ↔ ∃ field ∈ fields, part.Inside field.2 := by
  constructor
  · intro hinside
    cases hinside with
    | here => cases h
    | field hfield hinside => exact ⟨_, hfield, hinside⟩
  · rintro ⟨field, hfield, hinside⟩
    exact .field hfield hinside

end

end Json

mutual

theorem Node.exists_number_of_inside {part : Json} (hpart : part.IsFloat) : (node : Node) →
    part.Inside node.toJson →
    ∃ span value, (Node.number span value).Within [node] ∧ part = .float value
  | .list span children, h => by
    have h : part.Inside (.array (Node.allToJson children)) := by
      simpa [toJson, Location.stopFields, Location.startFields, hpart.inside_object,
        hpart.inside_natural, hpart.inside_string] using h
    obtain ⟨item, hitem, hinside⟩ := (hpart.inside_array _).mp h
    obtain ⟨inner, value, hwithin, hvalue⟩ := exists_number_of_mem hpart children hitem hinside
    exact ⟨inner, value, hwithin.child, hvalue⟩
  | .symbol span name, h | .key span name, h | .string span name, h => by
    simp [toJson, nameJson, atomJson, Location.stopFields, Location.startFields,
      hpart.inside_object, hpart.inside_natural, hpart.inside_string] at h
  | .number span value, h => by
    have h : part = .float value := by
      simpa [toJson, atomJson, Location.stopFields, Location.startFields, hpart.inside_object,
        hpart.inside_natural, hpart.inside_string, hpart.inside_float] using h
    exact ⟨span, value, .here List.mem_cons_self, h⟩

theorem Node.exists_number_of_mem {part : Json} (hpart : part.IsFloat) : (nodes : List Node) →
    {item : Json} → item ∈ Node.allToJson nodes → part.Inside item →
    ∃ span value, (Node.number span value).Within nodes ∧ part = .float value
  | [], _, hitem, _ => by simp [allToJson] at hitem
  | node :: nodes, _, hitem, h => by
    rw [allToJson] at hitem
    rcases List.mem_cons.mp hitem with rfl | hitem
    · obtain ⟨span, value, hwithin, hvalue⟩ := exists_number_of_inside hpart node h
      exact ⟨span, value, hwithin.trans (.here List.mem_cons_self), hvalue⟩
    · obtain ⟨span, value, hwithin, hvalue⟩ := exists_number_of_mem hpart nodes hitem h
      exact ⟨span, value, hwithin.cons node, hvalue⟩

end

theorem exists_number_of_inside_encodeNodes {part : Json} (hpart : part.IsFloat)
    {nodes : List Node} (h : part.Inside (encodeNodes nodes)) :
    ∃ span value, (Node.number span value).Within nodes ∧ part = .float value := by
  obtain ⟨item, hitem, hinside⟩ := (hpart.inside_array _).mp h
  exact Node.exists_number_of_mem hpart nodes hitem hinside

theorem finite_encodeNodes (nodes : List Node) : (encodeNodes nodes).Finite := by
  intro x hx
  obtain ⟨span, value, -, hvalue⟩ := exists_number_of_inside_encodeNodes (.real x) hx
  unfold Json.float at hvalue
  split at hvalue
  · next hfinite =>
    cases hvalue
    exact hfinite
  · cases hvalue

theorem Diagnostic.finite_toJson (d : Diagnostic) : d.toJson.Finite := by
  intro x hx
  have hpart : (Json.real x).IsFloat := .real x
  simp [toJson, Location.stopFields, Location.startFields, hpart.inside_object,
    hpart.inside_natural, hpart.inside_string, hpart.inside_bool] at hx

/-! ## Finite nodes -/

/-- All numbers in the nodes are finite. -/
def Node.AllFinite (nodes : List Node) : Prop :=
  ∀ span value, (Node.number span value).Within nodes → value.isFinite

theorem Node.AllFinite.children {span : Location} {children : List Node}
    (h : Node.AllFinite [.list span children]) : Node.AllFinite children :=
  fun inner value hwithin => h inner value hwithin.child

theorem Node.AllFinite.head {node : Node} {nodes : List Node} (h : Node.AllFinite (node :: nodes)) :
    Node.AllFinite [node] :=
  fun span value hwithin => h span value (hwithin.trans (.here List.mem_cons_self))

theorem Node.AllFinite.tail {node : Node} {nodes : List Node} (h : Node.AllFinite (node :: nodes)) :
    Node.AllFinite nodes := fun span value hwithin => h span value (hwithin.cons node)

theorem Reads.allFinite {after text : List Char} {p : Position} {nodes : List Node}
    (h : Reads Numeral.IsFinite after p text nodes) : Node.AllFinite nodes := by
  intro span value hwithin
  induction h with
  | nil => exact absurd hwithin (Node.not_within_nil _)
  | blank _ _ ih => exact ih hwithin
  | atom hatom _ _ ih =>
    rcases Node.within_cons hwithin with rfl | ⟨_, _, rfl, -⟩ | hwithin
    · cases hatom with
      | number _ hfinite => exact hfinite
    · cases hatom
    · exact ih hwithin
  | list _ _ _ ihinside ih =>
    rcases Node.within_cons hwithin with heq | ⟨_, _, heq, hwithin⟩ | hwithin
    · cases heq
    · obtain ⟨-, rfl⟩ := Node.list.inj heq
      exact ihinside hwithin
    · exact ih hwithin

theorem not_null_inside {nodes : List Node} (h : Node.AllFinite nodes) :
    ¬ Json.null.Inside (encodeNodes nodes) := by
  intro hnull
  obtain ⟨span, value, hwithin, hvalue⟩ := exists_number_of_inside_encodeNodes .null hnull
  rw [Json.float, if_pos (h span value hwithin)] at hvalue
  cases hvalue

/-! ## Decoding -/

namespace Json

def natural? : Json → Option Nat
  | natural value => some value
  | _ => none

def real? : Json → Option Binary64
  | real x => some x
  | _ => none

def bool? : Json → Option Bool
  | bool value => some value
  | _ => none

def string? : Json → Option String
  | string value => some value
  | _ => none

/-- The value of a field, if it is of the kind that is asked for. Fields may stand in any order. -/
def field? {α : Type} (fields : List (String × Json)) (name : String) (kind : Json → Option α) :
    Option α :=
  (fields.lookup name).bind kind

def location? (fields : List (String × Json)) : Option Location := do
  let startRow ← field? fields "startRow" natural?
  let startCol ← field? fields "startCol" natural?
  let stopRow ← field? fields "endRow" natural?
  let stopCol ← field? fields "endCol" natural?
  return ⟨⟨startRow, startCol⟩, ⟨stopRow, stopCol⟩⟩

/-- The node that an object stands for. Only lists have children. -/
def objectNode? (fields : List (String × Json)) (children : Option (List Node)) : Option Node := do
  let span ← location? fields
  match ← field? fields "type" string? with
  | "list" => children.map (.list span)
  | "symbol" => (field? fields "ident" string?).map (.symbol span)
  | "str" => (field? fields "value" string?).map (.string span)
  | "num" => (field? fields "value" real?).map (.number span)
  | "key" => (field? fields "name" string?).map (.key span)
  | _ => none

mutual

def node? : Json → Option Node
  | object fields => objectNode? fields (children? fields)
  | _ => none

def children? : List (String × Json) → Option (List Node)
  | [] => none
  | (name, value) :: fields => if name = "children" then value.nodes? else children? fields

def nodes? : Json → Option (List Node)
  | array items => allNodes? items
  | _ => none

def allNodes? : List Json → Option (List Node)
  | [] => some []
  | item :: items => do
    let node ← item.node?
    let nodes ← allNodes? items
    return node :: nodes

end

def diagnostic? : Json → Option Diagnostic
  | object fields => do
    let location ← location? fields
    let message ← field? fields "msg" string?
    let isRecoverable ← field? fields "recoverable" bool?
    return ⟨if isRecoverable then .recoverable else .nonrecoverable, location, message⟩
  | _ => none

end Json

mutual

theorem Node.node?_toJson : (node : Node) → Node.AllFinite [node] →
    node.toJson.node? = some node
  | .list span children, h => by
    have hchildren := allNodes?_allToJson children h.children
    simp [toJson, Json.node?, Json.children?, Json.nodes?, Json.objectNode?, Json.location?,
      Json.field?, List.lookup, Json.natural?, Json.string?, Location.stopFields,
      Location.startFields, hchildren]
  | .symbol span name, _ | .key span name, _ | .string span value, _ => by
    simp [toJson, nameJson, atomJson, Json.node?, Json.objectNode?, Json.location?, Json.field?,
      List.lookup, Json.natural?, Json.string?, Location.stopFields, Location.startFields]
  | .number span value, h => by
    have hfloat : Json.float value = .real value := if_pos (h span value (.here List.mem_cons_self))
    simp [toJson, atomJson, hfloat, Json.node?, Json.objectNode?, Json.location?, Json.field?,
      List.lookup, Json.natural?, Json.string?, Json.real?, Location.stopFields,
      Location.startFields]

theorem Node.allNodes?_allToJson : (nodes : List Node) → Node.AllFinite nodes →
    Json.allNodes? (Node.allToJson nodes) = some nodes
  | [], _ => by rw [allToJson, Json.allNodes?]
  | node :: nodes, h => by
    rw [allToJson, Json.allNodes?, node?_toJson node h.head, allNodes?_allToJson nodes h.tail]
    rfl

end

theorem Diagnostic.diagnostic?_toJson (d : Diagnostic) : d.toJson.diagnostic? = some d := by
  obtain ⟨severity, location, message⟩ := d
  cases severity <;>
    simp [toJson, isRecoverable, Json.diagnostic?, Json.location?, Json.field?, List.lookup,
      Json.natural?, Json.string?, Json.bool?, Location.stopFields, Location.startFields]

/-! ## From the text -/

section

variable {α : Type} {decode : Json → Option α} {text : String} {a a' : α}

/-- The text is JSON, for a value that is decoded to `a`. -/
def Json.Decodes (decode : Json → Option α) (text : String) (a : α) : Prop :=
  ∃ v, Denotes text v ∧ decode v = some a

theorem Json.Decodes.unique (h : Decodes decode text a) (h' : Decodes decode text a') : a = a' := by
  obtain ⟨v, hv, ha⟩ := h
  obtain ⟨v', hv', ha'⟩ := h'
  obtain rfl := hv.unique hv'
  exact Option.some.inj (ha.symm.trans ha')

theorem Json.Decodes.iff_eq (h : Decodes decode text a) : Decodes decode text a' ↔ a' = a := by
  constructor
  · intro h'
    exact h'.unique h
  · rintro rfl
    exact h

end

theorem nodes?_encodeNodes {nodes : List Node} (h : Node.AllFinite nodes) :
    (encodeNodes nodes).nodes? = some nodes := by
  unfold encodeNodes Json.nodes?
  exact Node.allNodes?_allToJson nodes h

theorem decodes_encodeNodes {nodes : List Node} (h : Node.AllFinite nodes) :
    Json.Decodes Json.nodes? (encodeNodes nodes).compact nodes :=
  ⟨encodeNodes nodes, Json.denotes_compact (finite_encodeNodes nodes), nodes?_encodeNodes h⟩

theorem Diagnostic.decodes_toJson (d : Diagnostic) :
    Json.Decodes Json.diagnostic? d.toJson.compact d :=
  ⟨d.toJson, Json.denotes_compact d.finite_toJson, d.diagnostic?_toJson⟩

theorem allFinite_of_parse {source : String} {nodes : List Node}
    (h : parse source = .ok nodes) : Node.AllFinite nodes := by
  obtain ⟨hread, -⟩ := (parse_eq_ok_iff source nodes).mp h
  exact hread.allFinite

/-- The text of an encoding tells what was encoded, but for floats that are not finite, and no
script has any. Decoding the text gives what was encoded, and nothing else. -/
theorem encoding_lossless :
    (∀ nodes nodes' : List Node, Node.AllFinite nodes → Node.AllFinite nodes' →
      (encodeNodes nodes).compact = (encodeNodes nodes').compact → nodes = nodes') ∧
    (∀ d d' : Diagnostic, d.toJson.compact = d'.toJson.compact → d = d') ∧
    (∀ nodes decoded : List Node, Node.AllFinite nodes →
      (Json.Decodes Json.nodes? (encodeNodes nodes).compact decoded ↔ decoded = nodes)) ∧
    (∀ d decoded : Diagnostic,
      Json.Decodes Json.diagnostic? d.toJson.compact decoded ↔ decoded = d) ∧
    (∀ source nodes, parse source = .ok nodes → ¬ Json.null.Inside (encodeNodes nodes)) := by
  refine ⟨?_, ?_, ?_, ?_, ?_⟩
  · intro nodes nodes' h h' heq
    have hdecodes := decodes_encodeNodes h
    rw [heq] at hdecodes
    exact hdecodes.unique (decodes_encodeNodes h')
  · intro d d' heq
    have hdecodes := d.decodes_toJson
    rw [heq] at hdecodes
    exact hdecodes.unique d'.decodes_toJson
  · intro nodes decoded h
    constructor
    · intro hdecodes
      exact hdecodes.unique (decodes_encodeNodes h)
    · rintro rfl
      exact decodes_encodeNodes h
  · intro d decoded
    constructor
    · intro hdecodes
      exact hdecodes.unique d.decodes_toJson
    · rintro rfl
      exact decoded.decodes_toJson
  · intro source nodes hparse
    exact not_null_inside (allFinite_of_parse hparse)

end HandlerScript
