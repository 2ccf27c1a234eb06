import Mathlib.Init

namespace Exposition

def blank (c : Char) : Bool := c == ' ' || c == '\t'

/-- The characters of a label name. -/
def labelChar (c : Char) : Bool := c.isAlphanum || c == '_'

/-- The characters of a metric name. -/
def nameChar (c : Char) : Bool := labelChar c || c == ':'

/-- A name is not empty and starts with no digit. -/
def isWord (allowed : Char → Bool) : List Char → Bool
  | [] => false
  | c :: rest => !c.isDigit && (c :: rest).all allowed

structure Word (allowed : Char → Bool) where
  text : List Char
  valid : isWord allowed text = true
  deriving DecidableEq, Repr

def Word.ofString {allowed : Char → Bool} (name : String)
    (valid : isWord allowed name.toList = true := by decide +kernel) : Word allowed :=
  ⟨name.toList, valid⟩

structure Label where
  key : Word labelChar
  value : List Char
  deriving DecidableEq, Repr

/-- A sample, its value read exactly. -/
structure Sample where
  name : Word nameChar
  labels : List Label
  value : Nat
  timestamp : Option Nat
  deriving DecidableEq, Repr

inductive Kind
  | counter
  | gauge
  | histogram
  | summary
  | untyped
  deriving DecidableEq, Repr

def Kind.spelling : Kind → String
  | .counter => "counter"
  | .gauge => "gauge"
  | .histogram => "histogram"
  | .summary => "summary"
  | .untyped => "untyped"

/-- What a line that is no comment says. The text of a `HELP` line is skipped. -/
inductive Entry
  | help (name : Word nameChar)
  | type (name : Word nameChar) (kind : Kind)
  | sample (sample : Sample)
  deriving DecidableEq, Repr

def skipBlanks (text : List Char) : List Char := text.dropWhile blank

def expect (c : Char) : List Char → Option (List Char)
  | [] => none
  | first :: rest => if first = c then some rest else none

def readWord (allowed : Char → Bool) (text : List Char) : Option (Word allowed × List Char) :=
  if valid : isWord allowed (text.takeWhile allowed) = true then
    some (⟨text.takeWhile allowed, valid⟩, text.dropWhile allowed)
  else none

/-- An unsigned decimal. -/
def readNumber (text : List Char) : Option (Nat × List Char) :=
  if text.takeWhile Char.isDigit = [] then none
  else some (Nat.ofDigitChars 10 (text.takeWhile Char.isDigit) 0, text.dropWhile Char.isDigit)

/-- The three escapes of a label value. -/
def unescape (c : Char) : Option Char :=
  if c = '\\' then some '\\'
  else if c = '"' then some '"'
  else if c = 'n' then some '\n'
  else none

/-- A label value from behind its opening quote, and the text behind its
closing one. -/
def readQuoted : List Char → Option (List Char × List Char)
  | [] => none
  | '"' :: rest => some ([], rest)
  | '\n' :: _ => none
  | ['\\'] => none
  | '\\' :: c :: rest => do
    let c ← unescape c
    let (value, rest) ← readQuoted rest
    return (c :: value, rest)
  | c :: rest => do
    let (value, rest) ← readQuoted rest
    return (c :: value, rest)

def readLabel (text : List Char) : Option (Label × List Char) := do
  let (key, text) ← readWord labelChar text
  let text ← expect '=' (skipBlanks text)
  let text ← expect '"' (skipBlanks text)
  let (value, text) ← readQuoted text
  return (⟨key, value⟩, text)

/-- A label ends the list or a comma lets `more` of it follow. -/
def readSeparator (more : List Char → Option (List Label × List Char)) (label : Label)
    (text : List Char) : Option (List Label × List Char) :=
  match skipBlanks text with
  | '}' :: rest => some ([label], rest)
  | ',' :: rest => do
    let (labels, rest) ← more rest
    return (label :: labels, rest)
  | _ => none

/-- The labels from behind the opening brace. Each takes at least one character,
so fuel for every character is enough. -/
def readLabels : Nat → List Char → Option (List Label × List Char)
  | 0, _ => none
  | fuel + 1, text =>
    match skipBlanks text with
    | '}' :: rest => some ([], rest)
    | text => do
      let (label, text) ← readLabel text
      readSeparator (readLabels fuel) label text

def readTimestamp (text : List Char) : Option Nat × List Char :=
  match readNumber (skipBlanks text) with
  | some (timestamp, rest) => (some timestamp, rest)
  | none => (none, text)

/-- The labels of a sample may be left out with their braces. -/
def readBraces (text : List Char) : Option (List Label × List Char) :=
  match skipBlanks text with
  | '{' :: text => readLabels text.length text
  | text => some ([], text)

/-- The value, an optional timestamp and the newline. -/
def readPoint (text : List Char) : Option ((Nat × Option Nat) × List Char) := do
  let (value, text) ← readNumber (skipBlanks text)
  let (timestamp, text) := readTimestamp text
  let text ← expect '\n' (skipBlanks text)
  return ((value, timestamp), text)

def readSample (text : List Char) : Option (Sample × List Char) := do
  let (name, text) ← readWord nameChar text
  let (labels, text) ← readBraces text
  let ((value, timestamp), text) ← readPoint text
  return (⟨name, labels, value, timestamp⟩, text)

def skipLine (text : List Char) : Option (List Char) :=
  expect '\n' (text.dropWhile (· != '\n'))

def readKind (text : List Char) : Option (Kind × List Char) := do
  let kind ← [Kind.counter, .gauge, .histogram, .summary, .untyped].find? fun kind =>
    kind.spelling.toList = text.takeWhile Char.isLower
  return (kind, text.dropWhile Char.isLower)

def helpKeyword : List Char := ['H', 'E', 'L', 'P']

def typeKeyword : List Char := ['T', 'Y', 'P', 'E']

def readHelp (text : List Char) : Option (Option Entry × List Char) := do
  let (name, text) ← readWord nameChar (skipBlanks text)
  let rest ← skipLine text
  return (some (.help name), rest)

def readType (text : List Char) : Option (Option Entry × List Char) := do
  let (name, text) ← readWord nameChar (skipBlanks text)
  let (kind, text) ← readKind (skipBlanks text)
  let rest ← expect '\n' (skipBlanks text)
  return (some (.type name kind), rest)

/-- A line from behind its hash sign. A line that starts with neither keyword is a comment. -/
def readMetadata (text : List Char) : Option (Option Entry × List Char) :=
  let keyword := (skipBlanks text).takeWhile Char.isUpper
  let after := (skipBlanks text).dropWhile Char.isUpper
  if keyword = helpKeyword ∧ after.head?.any blank then readHelp after
  else if keyword = typeKeyword ∧ after.head?.any blank then readType after
  else (skipLine text).map fun rest => (none, rest)

/-- One line with its newline. -/
def readLine (text : List Char) : Option (Option Entry × List Char) :=
  match skipBlanks text with
  | '\n' :: rest => some (none, rest)
  | '#' :: rest => readMetadata rest
  | text => do
    let (sample, rest) ← readSample text
    return (some (.sample sample), rest)

def readLines : Nat → List Char → Option (List Entry)
  | _, [] => some []
  | 0, _ :: _ => none
  | fuel + 1, text => do
    let (entry, rest) ← readLine text
    let entries ← readLines fuel rest
    return entry.toList ++ entries

/-- The text format, line by line. No line is empty of characters, so fuel for every
character is enough. -/
def readText (text : List Char) : Option (List Entry) := readLines text.length text

end Exposition
