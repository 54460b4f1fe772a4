import RegexMachine.Program.Basic
import RegexMachine.Character.Literal

/-!
# Listings

The text of instructions, start filters and whole programs.
-/

namespace RegexMachine

/-- An optional number in a listing. -/
def optionText : Option Nat → String
  | some n => "Some(" ++ toString n ++ ")"
  | none => "None"

def CharTest.text : CharTest → String
  | one c => "One(" ++ Literal.char c ++ ")"
  | notOne c => "Notone(" ++ Literal.char c ++ ")"
  | set index => "Set(" ++ toString index ++ ")"

/-- A repetition bound in a listing. -/
def boundText (n : Int) : String := if n = unbounded then "inf" else toString n

def Payload.text : Payload → String
  | none => ""
  | atom test => "(" ++ test.text ++ ")"
  | atomCount test times => "(" ++ test.text ++ ", " ++ boundText times ++ ")"
  | multi chars => "(" ++ Literal.string (String.ofList chars) ++ ")"
  | group number => "(" ++ toString number ++ ")"
  | jump target => "(-> " ++ toString target ++ ")"
  | countedJump target limit => "(-> " ++ toString target ++ ", " ++ boundText limit ++ ")"
  | count initial => "(" ++ toString initial ++ ")"
  | capture g u => "(" ++ optionText g ++ ", " ++ optionText u ++ ")"

def Instruction.text (i : Instruction) : String :=
  i.opcode.name ++ (if i.direction = .backward then "-Rtl" else "") ++
    (if i.ignoreCase then "-Ci" else "") ++ i.payload.text

def Categories.text (k : Categories) : String :=
  let names := (if k.word then ["WORD"] else []) ++ (if k.notWord then ["NOT_WORD"] else []) ++
    (if k.digit then ["DIGIT"] else []) ++ (if k.notDigit then ["NOT_DIGIT"] else []) ++
    (if k.space then ["SPACE"] else []) ++ (if k.notSpace then ["NOT_SPACE"] else [])
  "ClassCategories(" ++ (if names.isEmpty then "0x0" else String.intercalate " | " names) ++ ")"

/-- A class in a listing: its first layer, and in it what is subtracted. -/
def CharClass.layersText : List ClassLayer → String
  | [] => "None"
  | l :: rest =>
      let range (r : Char × Char) := "(" ++ Literal.char r.1 ++ ", " ++ Literal.char r.2 ++ ")"
      let subtracted := layersText rest
      "CharClass \x7b negated: " ++ toString l.negated ++
        ", ranges: [" ++ String.intercalate ", " (l.ranges.map range) ++
        "], categories: " ++ l.categories.text ++ ", subtraction: " ++
        (if rest.isEmpty then subtracted else "Some(" ++ subtracted ++ ")") ++ " \x7d"

def CharClass.text (k : CharClass) : String := layersText (k.base :: k.subtracted)

def FilterMode.text : FilterMode → String
  | noSearch => "NoSearch"
  | leadingBeginning => "LeadingBeginning"
  | leadingStart => "LeadingStart"
  | leadingString chars => "LeadingString(" ++ Literal.string (String.ofList chars) ++ ")"
  | leadingChar c => "LeadingChar(" ++ Literal.char c ++ ")"
  | leadingCharIgnoreCase c => "LeadingCharIgnoreCase(" ++ Literal.char c ++ ")"
  | leadingSet k ignoreCase =>
      "LeadingSet \x7b class: " ++ k.text ++ ", ignore_case: " ++ toString ignoreCase ++ " \x7d"
  | trailingEnd => "TrailingEnd"
  | trailingChar c => "TrailingChar(" ++ Literal.char c ++ ")"

def StartFilter.text (f : StartFilter) : String :=
  "FindOptimizations \x7b mode: " ++ f.mode.text ++ ", right_to_left: " ++
    toString (f.direction == .backward) ++ " \x7d"

/-- A number right-aligned in four columns. -/
def addressText (n : Nat) : String :=
  let digits := toString n
  String.ofList (List.replicate (4 - digits.length) ' ') ++ digits

/-- One line for the groups and the filter, and one for each instruction. -/
def Program.text (p : Program) : String :=
  let line (i : Instruction × Nat) := addressText i.2 ++ ": " ++ i.1.text ++ "\n"
  "RegexProgram (" ++ toString p.groupCount ++ " groups, " ++ p.filter.text ++ ")\n" ++
    String.join (p.instructions.toList.zipIdx.map line)

end RegexMachine
