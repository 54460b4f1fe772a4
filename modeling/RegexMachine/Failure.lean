import RegexMachine.Program.Opcode

/-!
# Errors, faults and failures

An error is an outcome a caller must expect: a limit ran out, an argument was refused, or a tree
was too deep for strict analysis. A fault is a broken contract: a program that lacks an operand, a
stack that is popped when empty, a position that is not in the text. No match is neither.
-/

namespace RegexMachine

/-- A span of time, with the text that error messages and listings show for it. -/
structure Duration where
  nanoseconds : Nat
  deriving DecidableEq, Repr, Inhabited

namespace Duration

/-- `n` divided by `10 ^ places`, in decimal notation without trailing zeros. -/
def decimal (n places : Nat) : String :=
  let unit := Nat.pow 10 places
  let digits := (toString (unit + n % unit)).toList.drop 1
  let kept := (digits.reverse.dropWhile (· == '0')).reverse
  toString (n / unit) ++ (if kept.isEmpty then "" else "." ++ String.ofList kept)

/-- The duration in the largest of the units s, ms, µs and ns that makes its whole part positive. -/
def text (d : Duration) : String :=
  let n := d.nanoseconds
  if 1000000000 ≤ n then decimal n 9 ++ "s"
  else if 1000000 ≤ n then decimal n 6 ++ "ms"
  else if 1000 ≤ n then decimal n 3 ++ "µs"
  else toString n ++ "ns"

/-- The longest default limit, in nanoseconds. -/
def longestDefault : Nat := 0xffffffffffffffff

/-- The limit that a process keeps when told to use `limit` for patterns built without one. -/
def asDefault (limit : Option Duration) : Option Duration :=
  limit.map fun d => ⟨min d.nanoseconds longestDefault⟩

end Duration

inductive Error where
  | matchTimeout (limit : Duration)
  | invalidArgument (name message : String)
  | analysisIncomplete (depthLimit : Nat)
  | internal (message : String)
  deriving DecidableEq, Repr, Inhabited

namespace Error

def message : Error → String
  | matchTimeout limit => "match timed out after " ++ limit.text
  | invalidArgument name message => "invalid argument `" ++ name ++ "`: " ++ message
  | analysisIncomplete depthLimit =>
      "tree analysis exceeded depth limit " ++ toString depthLimit
  | internal message => "internal error: " ++ message

def isTimeout : Error → Bool
  | matchTimeout _ => true
  | _ => false

end Error

/-- The operands an instruction may carry. -/
inductive Operand where
  | jump | limit | atom | count | group | string | capture
  deriving DecidableEq, Repr, Inhabited

def Operand.name : Operand → String
  | jump => "jump"
  | limit => "limit"
  | atom => "atom"
  | count => "count"
  | group => "group"
  | string => "string"
  | capture => "capture"

/-- How an instruction is entered: by the flow of the program, or resumed from one of the two kinds
of choice point it may leave behind. -/
inductive EntryKind where
  | forward | backtracking | backtrackingSecond
  deriving DecidableEq, Repr, Inhabited

def EntryKind.name : EntryKind → String
  | forward => "Forward"
  | backtracking => "Backtracking"
  | backtrackingSecond => "BacktrackingSecond"

inductive Fault where
  | missingOperand (opcode : Opcode) (operand : Operand)
  | unexpectedEntry (opcode : Opcode) (entry : EntryKind) (address : Nat)
  | emptyValueStack
  | emptyTrail
  /-- An index, or a text position, that does not exist. -/
  | outOfBounds
  /-- A span that would end before it starts. -/
  | invertedSpan
  deriving DecidableEq, Repr, Inhabited

/-- The report of a fault; a position, index or span that cannot exist has none of its own. -/
def Fault.message? : Fault → Option String
  | missingOperand opcode operand =>
      some ("malformed program: " ++ opcode.name ++ " has no " ++ operand.name ++ " operand")
  | unexpectedEntry opcode entry address =>
      some ("malformed program: " ++ opcode.name ++ " entered as " ++ entry.name ++ " at " ++
        toString address)
  | emptyValueStack => some "value stack underflow"
  | emptyTrail => some "uncapture with an empty crawl stack"
  | outOfBounds | invertedSpan => none

/-- Why a call did not give an answer. -/
inductive Failure where
  | error (e : Error)
  | fault (f : Fault)
  /-- The steps granted to the call ran out before it was decided. -/
  | exhausted
  deriving DecidableEq, Repr, Inhabited

/-- A fault as the failure of a larger computation. -/
def Fault.guard {α : Type} : Except Fault α → Except Failure α
  | .ok a => .ok a
  | .error f => .error (.fault f)

/-- What a part of a computation returned, when the whole returned. -/
theorem exists_of_bind {ε α β : Type} {x : Except ε α} {f : α → Except ε β} {b : β}
    (h : (x >>= f) = .ok b) : ∃ a, x = .ok a ∧ f a = .ok b := by
  cases x with
  | error e => cases h
  | ok a => exact ⟨a, rfl, h⟩

end RegexMachine
