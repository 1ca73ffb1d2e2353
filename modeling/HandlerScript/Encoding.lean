import HandlerScript.Diagnostic
import HandlerScript.Json
import HandlerScript.Tree

/-!
# Nodes and diagnostics as JSON

Every object holds the four numbers of a location beside what is its own, and its fields stand in
the order of their names.
-/

namespace HandlerScript

namespace Location

def stopFields (l : Location) : List (String × Json) :=
  [("endCol", .natural l.stop.col), ("endRow", .natural l.stop.row)]

def startFields (l : Location) : List (String × Json) :=
  [("startCol", .natural l.start.col), ("startRow", .natural l.start.row)]

end Location

namespace Node

/-- A node without children, which keeps its text or number in one field. -/
def atomJson (span : Location) (kind : String) (value : Json) : Json :=
  .object (span.stopFields ++ span.startFields ++ [("type", .string kind), ("value", value)])

/-- A node that is a name. The field of the name comes before the start of the location. -/
def nameJson (span : Location) (kind field : String) (name : String) : Json :=
  .object (span.stopFields ++ (field, .string name) :: span.startFields ++
    [("type", .string kind)])

mutual

def toJson : Node → Json
  | list span children =>
    .object (("children", .array (allToJson children)) :: span.stopFields ++ span.startFields ++
      [("type", .string "list")])
  | symbol span name => nameJson span "symbol" "ident" name
  | string span value => atomJson span "str" (.string value)
  | number span value => atomJson span "num" (.float value)
  | key span name => nameJson span "key" "name" name

def allToJson : List Node → List Json
  | [] => []
  | node :: nodes => node.toJson :: allToJson nodes

end

end Node

def encodeNodes (nodes : List Node) : Json := .array (Node.allToJson nodes)

def Diagnostic.toJson (d : Diagnostic) : Json :=
  .object (d.location.stopFields ++
    [("msg", .string d.message), ("recoverable", .bool d.isRecoverable)] ++
    d.location.startFields)

end HandlerScript
