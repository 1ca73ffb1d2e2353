import HandlerScript.Reader.Atom

/-!
# Nodes of a script

Any node, and the lists that nodes nest in. Reading a node takes at least one character, so
reading comes to an end.
-/

namespace HandlerScript

/-- The nodes up to a closing parenthesis and the reader after it. -/
structure Items (size : Nat) where
  children : List Node
  next : Reader
  shorter : next.size < size

namespace Reader

theorem size_skipBlanks_le (r : Reader) : r.skipBlanks.size ≤ r.size :=
  Cursor.size_skipWhile_le _ _

mutual

/-- The first alternative that settles the matter: list, string, key name, number, symbol. -/
def node (r : Reader) : Attempt r.size :=
  (((r.list.orElse fun _ => r.string).orElse fun _ => r.keyName).orElse fun _ => r.number).orElse
    fun _ => r.symbol
termination_by 3 * r.size + 1

/-- A parenthesis, nodes, and the closing parenthesis. A list that would nest too deep takes
nothing. -/
def list (r : Reader) : Attempt r.size :=
  if hopen : r.peek = some '(' then
    if r.openLists < nestingLimit then
      have inside_shorter : (r.enter .list).next.size < r.size := Cursor.size_next_lt hopen
      match (r.enter .list).next.items with
      | .ok ⟨children, after, shorter⟩ =>
        .read (.list ⟨r.position, after.position⟩ children) after.leave
          (Nat.lt_trans shorter inside_shorter)
      | .error failure => .failed failure
    else .refused (r.fail .nestingTooDeep)
  else .refused (r.fail .expression)
termination_by 3 * r.size

/-- Nodes with blanks around them, up to the closing parenthesis, which is taken too. -/
def items (r : Reader) : Except Failure (Items r.size) :=
  have blanks_le := r.size_skipBlanks_le
  match hpeek : r.skipBlanks.peek with
  | none => .error (r.skipBlanks.fail .listTerminator)
  | some ')' =>
    .ok ⟨[], r.skipBlanks.next, Nat.lt_of_lt_of_le (Cursor.size_next_lt hpeek) blanks_le⟩
  | some _ =>
    match r.skipBlanks.node with
    | .read node next shorter =>
      match next.items with
      | .ok ⟨nodes, after, more⟩ => .ok ⟨node :: nodes, after, by omega⟩
      | .error failure => .error failure
    | .refused failure | .failed failure => .error failure
termination_by 3 * r.size + 2

end

/-- All nodes of a script. Each is read in a scope of its own, and no parenthesis may close what
was never opened. -/
def program (r : Reader) : Except Failure (List Node) :=
  have blanks_le := r.size_skipBlanks_le
  match r.skipBlanks.peek with
  | none => .ok []
  | some ')' => .error ((r.skipBlanks.enter .topLevel).fail .unexpectedClose)
  | some _ =>
    match (r.skipBlanks.enter .topLevel).node with
    | .read node next shorter =>
      have : next.leave.size < r.size := Nat.lt_of_lt_of_le shorter blanks_le
      match next.leave.program with
      | .ok nodes => .ok (node :: nodes)
      | .error failure => .error failure
    | .refused failure | .failed failure => .error failure
termination_by r.size

end Reader

/-- The nodes of a script, or a diagnostic for the first place where it cannot be read. -/
def parse (source : String) : Except Diagnostic (List Node) :=
  (Reader.start source.toList).program.mapError Failure.diagnostic

end HandlerScript
