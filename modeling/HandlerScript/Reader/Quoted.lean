import HandlerScript.Reader.Cursor

/-!
# The inside of a string

Characters stand for themselves, except that a quote ends the string and a backslash escapes the
character after it. Line feeds are allowed.
-/

namespace HandlerScript

def unescape : Char → Option Char
  | 'n' => some '\n'
  | 't' => some '\t'
  | '"' => some '"'
  | '\\' => some '\\'
  | _ => none

inductive Quoted where
  | closed (value : List Char) (after : Cursor)
  | unterminated (halted : Cursor)
  /-- No escape is written with this character. -/
  | badEscape (escaped : Char) (backslash halted : Cursor)
  deriving DecidableEq, Repr

/-- The same end, one character earlier. -/
def Quoted.push (char : Char) : Quoted → Quoted
  | .closed value after => .closed (char :: value) after
  | .unterminated halted => .unterminated halted
  | .badEscape escaped backslash halted => .badEscape escaped backslash halted

def Quoted.read (p : Position) : List Char → Quoted
  | [] => .unterminated ⟨p, []⟩
  | char :: rest =>
    if char = '"' then .closed [] ⟨p.advance char, rest⟩
    else if char = '\\' then
      match rest with
      | [] => .unterminated ⟨p.advance char, []⟩
      | escaped :: rest =>
        match unescape escaped with
        | none => .badEscape escaped ⟨p, char :: escaped :: rest⟩ ⟨p.advance char, escaped :: rest⟩
        | some decoded => (Quoted.read ((p.advance char).advance escaped) rest).push decoded
    else (Quoted.read (p.advance char) rest).push char

theorem Quoted.push_eq_closed {char : Char} {q : Quoted} {value : List Char} {after : Cursor}
    (h : q.push char = .closed value after) :
    ∃ value', value = char :: value' ∧ q = .closed value' after := by
  cases q <;> simp_all [Quoted.push]

theorem Quoted.size_after_lt {p : Position} {text value : List Char} {after : Cursor}
    (h : Quoted.read p text = .closed value after) : after.size < text.length := by
  fun_induction Quoted.read p text generalizing value with
  | case1 => simp at h
  | case2 => cases h; simp [Cursor.size]
  | case3 => simp at h
  | case4 => simp at h
  | case5 _ _ _ _ _ _ ih =>
    obtain ⟨_, _, hread⟩ := Quoted.push_eq_closed h
    have := ih hread
    simp only [List.length_cons]
    omega
  | case6 _ _ _ _ _ ih =>
    obtain ⟨_, _, hread⟩ := Quoted.push_eq_closed h
    have := ih hread
    simp only [List.length_cons]
    omega

end HandlerScript
