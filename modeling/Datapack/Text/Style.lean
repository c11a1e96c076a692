/-!
# Terminal styles

Text is set off with escape sequences when colours are enabled and left plain otherwise. `strip`
removes such sequences again.
-/

namespace Datapack.Text

inductive Style where
  | red | green | yellow | blue | purple | cyan | white | grey | orange
  | boldRed | boldGreen | boldYellow | boldBlue | boldPurple | boldCyan
  deriving DecidableEq, Repr

/-- The character that starts every sequence. -/
def escape : String := "\x1b"

/-- The sequence that ends every style. -/
def styleReset : String := escape ++ "[0m"

namespace Style

def parameters : Style → String
  | red => "31"
  | green => "32"
  | yellow => "33"
  | blue => "34"
  | purple => "35"
  | cyan => "36"
  | white => "37"
  | grey => "90"
  | orange => "38;5;208"
  | boldRed => "1;31"
  | boldGreen => "1;32"
  | boldYellow => "1;33"
  | boldBlue => "1;34"
  | boldPurple => "1;35"
  | boldCyan => "1;36"

def start (s : Style) : String := escape ++ "[" ++ s.parameters ++ "m"

def name : Style → String
  | red => "red"
  | green => "green"
  | yellow => "yellow"
  | blue => "blue"
  | purple => "purple"
  | cyan => "cyan"
  | white => "white"
  | grey => "grey"
  | orange => "orange"
  | boldRed => "bold_red"
  | boldGreen => "bold_green"
  | boldYellow => "bold_yellow"
  | boldBlue => "bold_blue"
  | boldPurple => "bold_purple"
  | boldCyan => "bold_cyan"

def all : List Style :=
  [red, green, yellow, blue, purple, cyan, white, grey, orange,
    boldRed, boldGreen, boldYellow, boldBlue, boldPurple, boldCyan]

def paint (colours : Bool) (s : Style) (text : String) : String :=
  if colours then s.start ++ text ++ styleReset else text

/-- A line in a style; its line break is left unstyled. -/
def paintLine (colours : Bool) (s : Style) (text : String) : String :=
  s.paint colours text ++ "\n"

end Style

/-- Characters that may stand between the bracket and the final letter of a sequence. -/
def isParameter (c : Char) : Bool := c.isDigit || c = ';'

/-- What follows a complete sequence whose opening characters have been read already. -/
def afterSequence? (cs : List Char) : Option (List Char) :=
  match cs.dropWhile isParameter with
  | c :: rest => if c.isAlpha then some rest else none
  | [] => none

theorem afterSequence?_length {cs rest : List Char} (h : afterSequence? cs = some rest) :
    rest.length < cs.length := by
  unfold afterSequence? at h
  have le : (cs.dropWhile isParameter).length ≤ cs.length :=
    (List.dropWhile_suffix isParameter).length_le
  split at h
  · rename_i c tail eq
    rw [eq] at le
    split at h
    · cases h
      simp only [List.length_cons] at le
      omega
    · cases h
  · cases h

def stripChars : List Char → List Char
  | [] => []
  | [c] => [c]
  | a :: b :: rest =>
    if a = '\x1b' ∧ b = '[' then
      match h : afterSequence? rest with
      | some rest' =>
        have := afterSequence?_length h
        stripChars rest'
      | none => a :: stripChars (b :: rest)
    else a :: stripChars (b :: rest)
termination_by cs => cs.length

def strip (s : String) : String := String.ofList (stripChars s.toList)

end Datapack.Text
