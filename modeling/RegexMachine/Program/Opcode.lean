/-!
# Opcodes
-/

namespace RegexMachine

/-- What an instruction does. Repetition of a single character is one family whose members differ
in the choice points they leave behind; general repetition uses the mark and count opcodes. -/
inductive Opcode where
  | char | multi | charRep | charLoop | charLoopAtomic | charLazy | backreference
  | bol | eol | boundary | nonBoundary | ecmaBoundary | nonEcmaBoundary
  | beginning | start | endZ | «end»
  | nothing | goto | stop | lazybranch
  | setmark | nullmark | getmark | capturemark | branchmark | lazybranchmark
  | setcount | nullcount | branchcount | lazybranchcount
  | setjump | backjump | forejump | testBackreference
  deriving DecidableEq, Repr, Inhabited

namespace Opcode

/-- The name of the opcode in listings. -/
def name : Opcode → String
  | char => "Char"
  | multi => "Multi"
  | charRep => "CharRep"
  | charLoop => "CharLoop"
  | charLoopAtomic => "CharLoopAtomic"
  | charLazy => "CharLazy"
  | backreference => "Backreference"
  | bol => "Bol"
  | eol => "Eol"
  | boundary => "Boundary"
  | nonBoundary => "NonBoundary"
  | ecmaBoundary => "EcmaBoundary"
  | nonEcmaBoundary => "NonEcmaBoundary"
  | beginning => "Beginning"
  | start => "Start"
  | endZ => "EndZ"
  | «end» => "End"
  | nothing => "Nothing"
  | goto => "Goto"
  | stop => "Stop"
  | lazybranch => "Lazybranch"
  | setmark => "Setmark"
  | nullmark => "Nullmark"
  | getmark => "Getmark"
  | capturemark => "Capturemark"
  | branchmark => "Branchmark"
  | lazybranchmark => "Lazybranchmark"
  | setcount => "Setcount"
  | nullcount => "Nullcount"
  | branchcount => "Branchcount"
  | lazybranchcount => "Lazybranchcount"
  | setjump => "Setjump"
  | backjump => "Backjump"
  | forejump => "Forejump"
  | testBackreference => "TestBackreference"

def all : List Opcode :=
  [char, multi, charRep, charLoop, charLoopAtomic, charLazy, backreference, bol, eol, boundary,
    nonBoundary, ecmaBoundary, nonEcmaBoundary, beginning, start, endZ, «end», nothing, goto, stop,
    lazybranch, setmark, nullmark, getmark, capturemark, branchmark, lazybranchmark, setcount,
    nullcount, branchcount, lazybranchcount, setjump, backjump, forejump, testBackreference]

/-- The opcode of a listing name. -/
def ofName? (s : String) : Option Opcode := all.find? (·.name == s)

end Opcode

end RegexMachine
