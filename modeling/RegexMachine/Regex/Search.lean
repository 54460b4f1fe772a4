import RegexMachine.Regex.Basic

/-!
# Searching

The first match of a text, and all matches one after the other. A search goes on where the last
match stopped; after an empty match it goes on one character further, while `\G` stays where the
match stopped. A scan that fails ends the search.
-/

namespace RegexMachine

/-- Where a search for further matches stands. -/
structure Search where
  text : Text
  /-- Where the last match stopped. -/
  textStart : Nat
  afterEmpty : Bool := false
  done : Bool := false
  deriving Inhabited

namespace Regex

def isMatch (text : Text) : RegexM Bool := do
  let start := text.origin (← get).direction
  return (← scan text start start).isSome

/-- A match of this regex. -/
def wrap (re : Regex) (text : Text) (spans : Spans) : Match :=
  { text, spans, names := re.names }

/-- The first match of a scan that starts at a boundary. -/
def findFrom (text : Text) (start : Nat) : RegexM (Option Match) := do
  let spans ← scan text start start
  return spans.map ((← get).wrap text)

def find (text : Text) : RegexM (Option Match) := do
  findFrom text (text.origin (← get).direction)

def findAt (text : Text) (start : Nat) : RegexM (Option Match) := do
  checkStart text start
  findFrom text start

/-- The search of a whole text. -/
def search (text : Text) : RegexM Search := do
  return { text, textStart := text.origin (← get).direction }

def searchAt (text : Text) (start : Nat) : RegexM Search := do
  checkStart text start
  return { text, textStart := start }

/-- Where the next scan of a search starts, if any is left. -/
def nextStart (direction : Direction) (s : Search) : Except Fault (Option Nat) := do
  if !s.afterEmpty then return some s.textStart
  if s.textStart = s.text.border direction then return none
  return some (← s.text.bump direction s.textStart)

/-- The search after a match with this span. -/
def after (direction : Direction) (s : Search) (span : Span) : Search :=
  { s with
    textStart :=
      match direction with
      | .forward => span.stop
      | .backward => span.start
    afterEmpty := span.length == 0 }

/-- The next match, or the error that ends the search. -/
def next (s : Search) : RegexM (Option (Except Error Match) × Search) := fun re =>
  if s.done then .ok (none, s) re
  else
    match nextStart re.direction s with
    | .error f => .error (.fault f) re
    | .ok none => .ok (none, { s with done := true }) re
    | .ok (some pos) =>
        match scan s.text s.textStart pos re with
        | .ok (some spans) re =>
            .ok (some (.ok (re.wrap s.text spans)), after re.direction s spans.whole) re
        | .ok none re => .ok (none, { s with done := true }) re
        | .error (.error e) re => .ok (some (.error e), { s with done := true }) re
        | .error e re => .error e re

/-- The next `n` results of a search. -/
def nextTimes : (n : Nat) → Search → RegexM (List (Option (Except Error Match)))
  | 0, _ => return []
  | n + 1, s => do
      let (item, s) ← next s
      return item :: (← nextTimes n s)

/-- Goes through at most `count` matches of a search, or all when there is no count. An error of a
scan is the error of the whole. -/
def foldMatches {σ : Type} (f : σ → Match → Except Fault σ) :
    (fuel : Nat) → (count : Option Nat) → Search → σ → RegexM σ
  | 0, _, _, _ => throw .exhausted
  | fuel + 1, count, s, acc => do
      match ← next s with
      | (none, _) => return acc
      | (some (.error e), _) => fail e
      | (some (.ok m), s) =>
          let acc ← lift (f acc m)
          let count := count.map (· - 1)
          if count = some 0 then return acc
          foldMatches f fuel count s acc

/-- The matches that are left in a search, and the error that ended it. -/
def collect : (fuel : Nat) → Search → RegexM (List Match × Option Error)
  | 0, _ => throw .exhausted
  | fuel + 1, s => do
      match ← next s with
      | (none, _) => return ([], none)
      | (some (.error e), _) => return ([], some e)
      | (some (.ok m), s) =>
          let (ms, e) ← collect fuel s
          return (m :: ms, e)

/-- All matches of a text, and the error that ended the search. -/
def findAll (text : Text) : RegexM (List Match × Option Error) := do
  collect (← get).patience (← search text)

def findAllAt (text : Text) (start : Nat) : RegexM (List Match × Option Error) := do
  let s ← searchAt text start
  collect (← get).patience s

end Regex

end RegexMachine
