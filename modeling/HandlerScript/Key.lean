/-!
# Keys

The names that may stand after an at sign, and the codes they stand for. A code is that of an ASCII
character, which may be a control character, or else a scan code with bit 30 set.

A wrong name is answered with the two nearest ones. Names at the same distance stay in the order of the
table.
-/

namespace HandlerScript

abbrev KeyCode := Int32

structure Key where
  name : String
  code : KeyCode
  deriving DecidableEq, Repr

namespace Key

/-- The code of a key that has none in ASCII. -/
def scancode (code : KeyCode) : KeyCode := code ||| 0x40000000

/-- Every key there is. The order decides between names that are equally close to a wrong one. -/
def table : List Key :=
  [⟨"backspace", 8⟩, ⟨"tab", 9⟩, ⟨"return", 13⟩, ⟨"escape", 27⟩, ⟨"space", 32⟩, ⟨"quote", 39⟩,
   ⟨"comma", 44⟩, ⟨"minus", 45⟩, ⟨"period", 46⟩, ⟨"slash", 47⟩, ⟨"0", 48⟩, ⟨"1", 49⟩, ⟨"2", 50⟩,
   ⟨"3", 51⟩, ⟨"4", 52⟩, ⟨"5", 53⟩, ⟨"6", 54⟩, ⟨"7", 55⟩, ⟨"8", 56⟩, ⟨"9", 57⟩, ⟨"semicolon", 59⟩,
   ⟨"equals", 61⟩, ⟨"leftbracket", 91⟩, ⟨"backslash", 92⟩, ⟨"rightbracket", 93⟩,
   ⟨"backquote", 96⟩, ⟨"a", 97⟩, ⟨"b", 98⟩, ⟨"c", 99⟩, ⟨"d", 100⟩, ⟨"e", 101⟩, ⟨"f", 102⟩,
   ⟨"g", 103⟩, ⟨"h", 104⟩, ⟨"i", 105⟩, ⟨"j", 106⟩, ⟨"k", 107⟩, ⟨"l", 108⟩, ⟨"m", 109⟩, ⟨"n", 110⟩,
   ⟨"o", 111⟩, ⟨"p", 112⟩, ⟨"q", 113⟩, ⟨"r", 114⟩, ⟨"s", 115⟩, ⟨"t", 116⟩, ⟨"u", 117⟩, ⟨"v", 118⟩,
   ⟨"w", 119⟩, ⟨"x", 120⟩, ⟨"y", 121⟩, ⟨"z", 122⟩, ⟨"delete", 127⟩, ⟨"capslock", scancode 57⟩,
   ⟨"f1", scancode 58⟩, ⟨"f2", scancode 59⟩, ⟨"f3", scancode 60⟩, ⟨"f4", scancode 61⟩,
   ⟨"f5", scancode 62⟩, ⟨"f6", scancode 63⟩, ⟨"f7", scancode 64⟩, ⟨"f8", scancode 65⟩,
   ⟨"f9", scancode 66⟩, ⟨"f10", scancode 67⟩, ⟨"f11", scancode 68⟩, ⟨"f12", scancode 69⟩,
   ⟨"printscreen", scancode 70⟩, ⟨"scrolllock", scancode 71⟩, ⟨"pause", scancode 72⟩,
   ⟨"insert", scancode 73⟩, ⟨"home", scancode 74⟩, ⟨"pageup", scancode 75⟩, ⟨"end", scancode 77⟩,
   ⟨"pagedown", scancode 78⟩, ⟨"right", scancode 79⟩, ⟨"left", scancode 80⟩,
   ⟨"down", scancode 81⟩, ⟨"up", scancode 82⟩, ⟨"numlock", scancode 83⟩,
   ⟨"kpdivide", scancode 84⟩, ⟨"kpmultiply", scancode 85⟩, ⟨"kpminus", scancode 86⟩,
   ⟨"kpplus", scancode 87⟩, ⟨"kpenter", scancode 88⟩, ⟨"kp1", scancode 89⟩, ⟨"kp2", scancode 90⟩,
   ⟨"kp3", scancode 91⟩, ⟨"kp4", scancode 92⟩, ⟨"kp5", scancode 93⟩, ⟨"kp6", scancode 94⟩,
   ⟨"kp7", scancode 95⟩, ⟨"kp8", scancode 96⟩, ⟨"kp9", scancode 97⟩, ⟨"kp0", scancode 98⟩,
   ⟨"kpperiod", scancode 99⟩, ⟨"lctrl", scancode 224⟩, ⟨"lshift", scancode 225⟩,
   ⟨"lalt", scancode 226⟩, ⟨"lgui", scancode 227⟩, ⟨"rctrl", scancode 228⟩,
   ⟨"rshift", scancode 229⟩, ⟨"ralt", scancode 230⟩, ⟨"rgui", scancode 231⟩]

def resolve (name : String) : Option KeyCode := (table.find? (·.name = name)).map (·.code)

end Key

/-! ## Edit distance -/

namespace EditDistance

/-- The distances from the empty text to each suffix of `b`, the longest suffix first. -/
def emptyRow : (b : List Char) → List Nat
  | [] => [0]
  | _ :: b => (b.length + 1) :: emptyRow b

/-- The row for `x :: a`, from the row for `a`. -/
def extendRow (x : Char) : (b : List Char) → (row : List Nat) → List Nat
  | [], row => [row.headD 0 + 1]
  | y :: b, row =>
    let later := extendRow x b row.tail
    let kept := row.tail.headD 0
    let deleted := row.headD 0
    let inserted := later.headD 0
    (if x = y then kept else min kept (min deleted inserted) + 1) :: later

/-- The distances from `a` to each suffix of `b`. -/
def row (a b : List Char) : List Nat := a.foldr (fun x later => extendRow x b later) (emptyRow b)

end EditDistance

def editDistance (a b : String) : Nat := (EditDistance.row a.toList b.toList).headD 0

/-! ## Suggestions -/

/-- How far apart two names are; the smaller, the closer. -/
abbrev Metric := String → String → Nat

namespace Key

/-- The two nearest names by a given metric, the nearest first. -/
def suggestWith (metric : Metric) (name : String) : List String :=
  let ranked := table.map fun key => (metric name key.name, key.name)
  ((ranked.mergeSort fun a b => a.1 ≤ b.1).take 2).map (·.2)

/-- The two nearest names by edit distance. -/
def suggest (name : String) : List String := suggestWith editDistance name

end Key

end HandlerScript
