import HandlerScript.Proofs.Checked
import Mathlib.Data.List.Nodup

/-!
# Checking keeps what a script says

An expression that passed the check gives its node back, but for the places where `if` and `set` were
written. So checking loses nothing else, and every expression that could come from a script does.
-/

namespace HandlerScript

/-! ## Keys -/

namespace Key

theorem nodup_names : (table.map (·.name)).Nodup := by decide +kernel

theorem nodup_codes : (table.map (·.code)).Nodup := by decide +kernel

theorem find?_eq_some_of_mem {α : Type} [DecidableEq α] {field : Key → α}
    (hnodup : (table.map field).Nodup) {key : Key} (h : key ∈ table) :
    table.find? (field · = field key) = some key := by
  cases hfound : table.find? (field · = field key) with
  | none =>
    have hnone := List.find?_eq_none.mp hfound key h
    simp at hnone
  | some other =>
    have hfield : field other = field key := by simpa using List.find?_some hfound
    have hother := List.mem_of_find?_eq_some hfound
    rw [List.inj_on_of_nodup_map hnodup hother h hfield]

theorem resolve_eq_some_iff (name : String) (code : KeyCode) :
    resolve name = some code ↔ ⟨name, code⟩ ∈ table := by
  constructor
  · intro h
    obtain ⟨key, hfound, rfl⟩ := Option.map_eq_some_iff.mp h
    have hname : key.name = name := by simpa using List.find?_some hfound
    rw [← hname]
    exact List.mem_of_find?_eq_some hfound
  · intro h
    rw [resolve, find?_eq_some_of_mem nodup_names h]
    rfl

theorem name_eq_of_resolve {name name' : String} {code : KeyCode} (h : resolve name = some code)
    (h' : resolve name' = some code) : name = name' := by
  rw [resolve_eq_some_iff] at h h'
  exact (Key.mk.inj (List.inj_on_of_nodup_map nodup_codes h h' rfl)).1

/-- The name of the key with this code. -/
def nameOf (code : KeyCode) : String := ((table.find? (·.code = code)).map (·.name)).getD ""

theorem nameOf_code {key : Key} (h : key ∈ table) : nameOf key.code = key.name := by
  rw [nameOf, find?_eq_some_of_mem nodup_codes h]
  rfl

end Key

/-! ## Expressions and their nodes -/

mutual

/-- Calls are not named as forms are, and the code of a key is that of some key. -/
def Expr.WellFormed : Expr → Prop
  | .set _ _ value => value.WellFormed
  | .call _ name arguments =>
    name.text ≠ "if" ∧ name.text ≠ "set" ∧ Expr.AllWellFormed arguments
  | .cond _ condition body => condition.WellFormed ∧ Expr.AllWellFormed body
  | .key _ code => ∃ key ∈ Key.table, key.code = code
  | .get _ _ | .string _ _ | .number _ _ => True

def Expr.AllWellFormed : List Expr → Prop
  | [] => True
  | expr :: exprs => expr.WellFormed ∧ Expr.AllWellFormed exprs

end

/-- The elements of a list with one and the same location for a first `if` or `set`. -/
def Node.forgetHead : List Node → List Node
  | .symbol span name :: operands =>
    .symbol (if name = "if" ∨ name = "set" then default else span) name :: operands
  | nodes => nodes

mutual

/-- The node without the locations of the words `if` and `set` at the head of lists. -/
def Node.forgetFormHeads : Node → Node
  | .list span children => .list span (Node.forgetHead (Node.allForgetFormHeads children))
  | node => node

def Node.allForgetFormHeads : List Node → List Node
  | [] => []
  | node :: nodes => node.forgetFormHeads :: Node.allForgetFormHeads nodes

end

mutual

/-- The node that an expression comes from. It has no location for `if` and `set`. -/
def Expr.source : Expr → Node
  | .set span target value =>
    .list span [.symbol default "set", .symbol target.span target.text, value.source]
  | .get span name => .symbol span name
  | .call span name arguments =>
    .list span (.symbol name.span name.text :: Expr.allSources arguments)
  | .cond span condition body =>
    .list span (.symbol default "if" :: condition.source :: Expr.allSources body)
  | .string span value => .string span value
  | .number span value => .number span value
  | .key span code => .key span (Key.nameOf code)

def Expr.allSources : List Expr → List Node
  | [] => []
  | expr :: exprs => expr.source :: Expr.allSources exprs

end

/-! ## From the node and back -/

mutual

theorem Expr.check_source : (expr : Expr) → expr.WellFormed → expr.source.check = .ok expr
  | .set span target value, hvalue => by
    simp only [source, Node.check, Node.asName, Node.checkSet, check_source value hvalue, bind,
      Except.bind]
    rfl
  | .call span name arguments, ⟨hif, hset, harguments⟩ => by
    simp only [source, Node.check, Node.asName, checkAll_allSources arguments harguments, bind,
      Except.bind, if_neg hif, if_neg hset]
    rfl
  | .cond span condition body, ⟨hcondition, hbody⟩ => by
    simp only [source, Node.check, Node.asName, Node.checkIf, check_source condition hcondition,
      checkAll_allSources body hbody, bind, Except.bind]
    rfl
  | .key span code, ⟨found, hfound, hcode⟩ => by
    subst hcode
    have hresolve : Key.resolve found.name = some found.code :=
      (Key.resolve_eq_some_iff _ _).mpr hfound
    simp only [source, Node.check, Key.nameOf_code hfound, hresolve]
  | .get _ _, _ | .string _ _, _ | .number _ _, _ => rfl

theorem Expr.checkAll_allSources : (exprs : List Expr) → Expr.AllWellFormed exprs →
    Node.checkAll (Expr.allSources exprs) = .ok exprs
  | [], _ => rfl
  | expr :: exprs, ⟨hexpr, hexprs⟩ => by
    simp only [allSources, Node.checkAll, check_source expr hexpr,
      checkAll_allSources exprs hexprs, bind, Except.bind]
    rfl

end

theorem Node.forgetFormHeads_form {name : String} (h : name = "if" ∨ name = "set")
    (span headSpan : Location) (operands : List Node) :
    (Node.list span (.symbol headSpan name :: operands)).forgetFormHeads =
      .list span (.symbol default name :: Node.allForgetFormHeads operands) := by
  simp only [forgetFormHeads, allForgetFormHeads, forgetHead, if_pos h]

mutual

theorem Node.source_of_check : (node : Node) → ∀ {expr}, node.check = .ok expr →
    expr.WellFormed ∧ expr.source = node.forgetFormHeads
  | .symbol _ _, _, h | .string _ _, _, h | .number _ _, _, h => by
    cases h
    exact ⟨trivial, rfl⟩
  | .key span name, _, h => by
    obtain ⟨code, hcode, rfl⟩ := check_key_eq_ok h
    have hkey := (Key.resolve_eq_some_iff name code).mp hcode
    refine ⟨⟨_, hkey, rfl⟩, ?_⟩
    rw [Expr.source, Key.nameOf_code hkey]
    rfl
  | .list _ [], _, h => by cases h
  | .list span (head :: operands), _, h => by
    obtain ⟨name, rfl, ⟨hif, h⟩ | ⟨hset, h⟩ | ⟨hif, hset, arguments, harguments, rfl⟩⟩ :=
      check_list_eq_ok h
    · rw [forgetFormHeads_form (.inl hif), hif]
      exact source_of_checkIf span operands h
    · rw [forgetFormHeads_form (.inr hset), hset]
      exact source_of_checkSet span operands h
    · obtain ⟨hwell, hsource⟩ := sources_of_checkAll operands harguments
      refine ⟨⟨hif, hset, hwell⟩, ?_⟩
      have hform : ¬ (name.text = "if" ∨ name.text = "set") := not_or.mpr ⟨hif, hset⟩
      simp only [Expr.source, forgetFormHeads, allForgetFormHeads, forgetHead, if_neg hform, hsource]

theorem Node.source_of_checkIf (span : Location) : (operands : List Node) →
    ∀ {expr}, checkIf span operands = .ok expr → expr.WellFormed ∧
      expr.source = .list span (.symbol default "if" :: allForgetFormHeads operands)
  | [], _, h => by cases h
  | condition :: body, _, h => by
    obtain ⟨_, _, condition', body', heq, hcondition, hbody, rfl⟩ := checkIf_eq_ok h
    obtain ⟨rfl, rfl⟩ := List.cons.inj heq
    obtain ⟨hwell, hsource⟩ := source_of_check condition hcondition
    obtain ⟨hbodyWell, hbodySource⟩ := sources_of_checkAll body hbody
    exact ⟨⟨hwell, hbodyWell⟩, by simp only [Expr.source, allForgetFormHeads, hsource, hbodySource]⟩

theorem Node.source_of_checkSet (span : Location) : (operands : List Node) →
    ∀ {expr}, checkSet span operands = .ok expr → expr.WellFormed ∧
      expr.source = .list span (.symbol default "set" :: allForgetFormHeads operands)
  | [], _, h => by cases h
  | [_], _, h => by cases h
  | [target, value], _, h => by
    obtain ⟨name, _, value', heq, hvalue, rfl⟩ := checkSet_eq_ok h
    simp only [List.cons.injEq, and_true] at heq
    obtain ⟨rfl, rfl⟩ := heq
    obtain ⟨hwell, hsource⟩ := source_of_check value hvalue
    exact ⟨hwell, by simp only [Expr.source, allForgetFormHeads, forgetFormHeads, hsource]⟩
  | _ :: _ :: _ :: _, _, h => by cases h

theorem Node.sources_of_checkAll : (nodes : List Node) → ∀ {exprs}, checkAll nodes = .ok exprs →
    Expr.AllWellFormed exprs ∧ Expr.allSources exprs = allForgetFormHeads nodes
  | [], _, h => by
    cases h
    exact ⟨trivial, rfl⟩
  | node :: nodes, _, h => by
    obtain ⟨expr, exprs, hnode, hnodes, rfl⟩ := checkAll_cons_eq_ok h
    obtain ⟨hwell, hsource⟩ := source_of_check node hnode
    obtain ⟨hwells, hsources⟩ := sources_of_checkAll nodes hnodes
    exact ⟨⟨hwell, hwells⟩, by rw [Expr.allSources, allForgetFormHeads, hsource, hsources]⟩

end

/-- The expressions that checking gives are the well-formed ones. Two nodes that pass give the same
expression if they differ in the locations of `if` and `set` at most, and else two different ones; so
do the names of two keys. -/
theorem check_loses_form_heads_only :
    (∀ expr : Expr, expr.WellFormed ↔ ∃ node : Node, node.check = .ok expr) ∧
    (∀ (node node' : Node) (expr expr' : Expr), node.check = .ok expr → node'.check = .ok expr' →
      (expr = expr' ↔ node.forgetFormHeads = node'.forgetFormHeads)) ∧
    ∀ (name name' : String) (code : KeyCode),
      Key.resolve name = some code → Key.resolve name' = some code → name = name' := by
  refine ⟨fun expr => ⟨fun h => ⟨_, expr.check_source h⟩, ?_⟩, ?_, ?_⟩
  · rintro ⟨node, h⟩
    exact (node.source_of_check h).1
  · intro node node' expr expr' h h'
    obtain ⟨hwell, hsource⟩ := node.source_of_check h
    obtain ⟨hwell', hsource'⟩ := node'.source_of_check h'
    rw [← hsource, ← hsource']
    constructor
    · rintro rfl
      rfl
    · intro heq
      -- One node is checked with one result.
      have hchecked := expr.check_source hwell
      rw [heq, expr'.check_source hwell'] at hchecked
      exact (Except.ok.inj hchecked).symm
  · exact fun _ _ _ => Key.name_eq_of_resolve

end HandlerScript
