import VerilogLayout.Data.Json
import VerilogLayout.Data.Value

/-!
# Tokens of TOML

The readers of strings, keys, dates, times and numbers. Each reads one token at the front of a text
and returns it with the text behind; a text that does not start with such a token gives nothing. A
number of too many digits and a date that no calendar has are errors of a `Reading`.
-/

namespace VerilogLayout.Toml

/-- A rule of the format is broken. -/
inductive Fault where
  | broken
deriving DecidableEq, Repr

/-- What is read, or why nothing is. -/
abbrev Reading (α : Type) := Except (ReadError Fault) α

namespace Reading

variable {α : Type}

/-- A rule is broken. -/
def broken : Reading α :=
  .error (.fault .broken)

/-- What has to be there. -/
def require : Option α → Reading α
  | some a => .ok a
  | none => broken

end Reading

/-- The white space inside a line. -/
def isSpace (c : CodePoint) : Bool :=
  c = ' ' || c = '\t'

/-- White space and line feeds. -/
def isSpaceOrFeed (c : CodePoint) : Bool :=
  isSpace c || c = '\n'

/-- `isControl c` holds for a control character, the tab left out. -/
def isControl (c : CodePoint) : Bool :=
  (c.toNat < 32 && c ≠ '\t') || c.toNat = 127

/-- What follows the white space of a line. -/
def skipSpace (s : Text) : Text :=
  s.dropWhile isSpace

/-- What follows a comment in front, which goes up to the end of the line. -/
def skipComment? : Text → Option Text
  | '#' :: s =>
      if (s.takeWhile (· ≠ .char '\n')).any isControl then none
      else some (s.dropWhile (· ≠ .char '\n'))
  | s => some s

/-! ## Strings -/

/-- The character that a single escaped letter stands for. -/
def escaped? : CodePoint → Option CodePoint
  | 'b' => some '\x08'
  | 't' => some '\t'
  | 'n' => some '\n'
  | 'f' => some '\x0c'
  | 'r' => some '\r'
  | '"' => some '"'
  | '\\' => some '\\'
  | _ => none

/-- The value of `count` hexadecimal digits in front, and what follows them. -/
def hexValue? (count : Nat) (s : Text) : Option (Nat × Text) :=
  let digits := s.take count
  if digits.length = count then
    (digits.mapM Json.hexDigit?).map fun values =>
      (values.foldl (fun n d => 16 * n + d) 0, s.drop count)
  else
    none

/-- The character that `count` hexadecimal digits name, and what follows them. -/
def hexChar? (count : Nat) (s : Text) : Option (CodePoint × Text) := do
  let (code, rest) ← hexValue? count s
  if code.isValidChar then some (CodePoint.ofNat code, rest) else none

/-- What an escape stands for, from behind its backslash, and what follows it. In a string of
several lines a backslash at the end of a line takes the white space behind it away. -/
def escape? (multiline : Bool) (s : Text) : Option (Text × Text) :=
  match s with
  | 'u' :: rest => (hexChar? 4 rest).map fun (c, rest) => ([c], rest)
  | 'U' :: rest => (hexChar? 8 rest).map fun (c, rest) => ([c], rest)
  | c :: rest =>
      if multiline && isSpaceOrFeed c then
        match skipSpace s with
        | [] => some ([], [])
        | '\n' :: rest => some ([], rest.dropWhile isSpaceOrFeed)
        | _ => none
      else
        (escaped? c).map fun c => ([c], rest)
  | [] => none

/-- The rest of a string in double quotes, and what follows it. The fuel bounds the characters. -/
def basicString? (multiline : Bool) : Nat → Text → Option (Text × Text)
  | 0, _ => none
  | _, [] => none
  | fuel + 1, c :: s =>
      if c = '"' && !multiline then some ([], s)
      else if c = '"' && Text.startsWith s "\"\"" then some ([], s.drop 2)
      else if c = '\\' then do
        let (front, rest) ← escape? multiline s
        let (back, rest) ← basicString? multiline fuel rest
        some (front ++ back, rest)
      else if isControl c && !(multiline && c = '\n') then none
      else (basicString? multiline fuel s).map fun (back, rest) => (c :: back, rest)

/-- The rest of a string in single quotes, and what follows it. -/
def literalString? (s : Text) : Option (Text × Text) :=
  let body := s.takeWhile (· ≠ .char '\'')
  match s.dropWhile (· ≠ .char '\'') with
  | _ :: rest => if body.any isControl then none else some (body, rest)
  | [] => none

/-- Up to two more quotes belong to a string that three of them close. -/
def moreQuotes (quote : CodePoint) (body rest : Text) : Text × Text :=
  let quotes := (rest.take 2).takeWhile (· = quote)
  (body ++ quotes, rest.drop quotes.length)

/-- The rest of a string of several lines, and what follows it. -/
def multilineString? (quote : CodePoint) (s : Text) : Option (Text × Text) :=
  let s := if s.head? = some (.char '\n') then s.tail else s
  let read :=
    if quote = '"' then basicString? true (s.length + 1) s
    else do
      let n ← Text.find? "'''" s
      let body := s.take n
      if body.any fun c => isControl c && c ≠ '\n' then none else some (body, s.drop (n + 3))
  read.map fun (body, rest) => moreQuotes quote body rest

/-- A string on one line, and what follows it. -/
def lineString? : Text → Option (Text × Text)
  | '"' :: s => basicString? false (s.length + 1) s
  | '\'' :: s => literalString? s
  | _ => none

/-- A string of any form, and what follows it. -/
def string? (s : Text) : Option (Text × Text) :=
  if Text.startsWith s "\"\"\"" then multilineString? '"' (s.drop 3)
  else if Text.startsWith s "'''" then multilineString? '\'' (s.drop 3)
  else lineString? s

/-! ## Keys -/

/-- A character of a key without quotes. -/
def isBare (c : CodePoint) : Bool :=
  c.isAlphanum || c = '-' || c = '_'

/-- One part of a key, and what follows it. -/
def keyPart? (s : Text) : Option (Text × Text) :=
  let bare := s.takeWhile isBare
  if bare.isEmpty then lineString? s else some (bare, s.drop bare.length)

/-- A key with points between its parts, and what follows it. The fuel bounds their number. -/
def key? : Nat → Text → Option (List Text × Text)
  | 0, _ => none
  | fuel + 1, s => do
      let (part, rest) ← keyPart? s
      match skipSpace rest with
      | '.' :: rest => do
          let (parts, rest) ← key? fuel (skipSpace rest)
          some (part :: parts, rest)
      | rest => some ([part], rest)

/-! ## Numbers -/

/-- The digits that go on a number, single underscores between them. -/
def moreDigits (isDigit : CodePoint → Bool) : Text → Text
  | '_' :: c :: s => if isDigit c then '_' :: c :: moreDigits isDigit s else []
  | c :: s => if isDigit c then c :: moreDigits isDigit s else []
  | [] => []

/-- The digits in front, of which the first is no underscore. -/
def digits (isDigit : CodePoint → Bool) : Text → Text
  | c :: s => if isDigit c then c :: moreDigits isDigit s else []
  | [] => []

/-- The value of digits to a base. -/
def valueOf (base : Nat) (s : Text) : Nat :=
  (s.filterMap Json.hexDigit?).foldl (fun n d => base * n + d) 0

/-- The marks of the bases with their digits. -/
def bases : List (CodePoint × Nat × (CodePoint → Bool)) :=
  [('x', 16, fun c => (Json.hexDigit? c).isSome), ('b', 2, fun c => c = '0' || c = '1'),
    ('o', 8, fun c => '0' ≤ c && c ≤ '7')]

/-- An integer to another base than ten, and what follows it. -/
def basedInteger? : Text → Option (Int × Text)
  | '0' :: mark :: s => do
      let (base, isDigit) ← bases.lookup mark
      let run := digits isDigit s
      if run.isEmpty then none else some (valueOf base run, s.drop run.length)
  | _ => none

/-- A fraction with its point. -/
def fractionPart : Text → Text
  | '.' :: s =>
      let run := digits CodePoint.isDigit s
      if run.isEmpty then [] else '.' :: run
  | _ => []

/-- `isSign c` holds for the signs of a number. -/
def isSign (c : CodePoint) : Bool :=
  c = '+' || c = '-'

/-- An exponent with its mark and sign. -/
def exponentPart : Text → Text
  | c :: s =>
      let sign := (s.take 1).takeWhile isSign
      let run := digits CodePoint.isDigit (s.drop sign.length)
      if (c = 'e' ∨ c = 'E') ∧ run ≠ [] then c :: sign ++ run else []
  | [] => []

/-- A number to the base ten, and what follows it. -/
def decimal? (s : Text) : Reading (Option (Value × Text)) :=
  let sign := (s.take 1).takeWhile isSign
  let body := s.drop sign.length
  let whole : Text := if body.head? = some (.char '0') then "0" else digits CodePoint.isDigit body
  let fraction := fractionPart (body.drop whole.length)
  let exponent := exponentPart (body.drop (whole.length + fraction.length))
  let number := sign ++ whole ++ fraction ++ exponent
  let rest := s.drop number.length
  let count := (whole.filter (· ≠ .char '_')).length
  if whole.isEmpty then
    .ok none
  else if !(fraction.isEmpty && exponent.isEmpty) then
    .ok ((Number.readFloat? number).map fun x => (.float x, rest))
  else if count ≤ Number.maxDigits then
    .ok (some (.int (Number.signed (sign = ("-" : Text)) (valueOf 10 whole)), rest))
  else
    .error (.limit (.digits (some count)))

/-- An infinity or a number that is none, and what follows it. -/
def special? (s : Text) : Option (Value × Text) :=
  let sign := (s.take 1).takeWhile isSign
  let word := (s.drop sign.length).take 3
  if word = ("inf" : Text) ∨ word = ("nan" : Text) then
    (Number.readFloat? (sign ++ word)).map fun x => (.float x, s.drop (sign.length + 3))
  else
    none

/-- A number of any form, and what follows it. -/
def number (s : Text) : Reading (Value × Text) :=
  match basedInteger? s with
  | some (n, rest) => .ok (.int n, rest)
  | none => do
      match ← decimal? s with
      | some result => .ok result
      | none => Reading.require (special? s)

/-! ## Dates and times -/

/-- The value of `count` digits in front, which must lie between `low` and `high`, and what follows
them. -/
def numeral? (count low high : Nat) (s : Text) : Option (Nat × Text) :=
  let run := s.take count
  let n := valueOf 10 run
  if run.length = count ∧ run.all CodePoint.isDigit ∧ low ≤ n ∧ n ≤ high then
    some (n, s.drop count)
  else
    none

/-- What follows a mark in front. -/
def behind? (mark : CodePoint) : Text → Option Text
  | c :: s => if c = mark then some s else none
  | [] => none

/-- The day in front, and what follows it. The calendar need not have it. -/
def day? (s : Text) : Option (Day × Text) := do
  let (year, rest) ← numeral? 4 0 9999 s
  let (month, rest) ← numeral? 2 1 12 (← behind? '-' rest)
  let (day, rest) ← numeral? 2 1 31 (← behind? '-' rest)
  some ({ year, month, day }, rest)

/-- The fraction of a second in front, in microseconds, and what follows it. -/
def microseconds (s : Text) : Nat × Text :=
  match s with
  | '.' :: after =>
      let run := after.takeWhile CodePoint.isDigit
      if run.isEmpty then (0, s)
      else (valueOf 10 ((run ++ List.replicate 6 (CodePoint.char '0')).take 6),
        after.drop run.length)
  | _ => (0, s)

/-- The time in front, and what follows it. -/
def time? (s : Text) : Option (DayTime × Text) := do
  let (hour, rest) ← numeral? 2 0 23 s
  let (minute, rest) ← numeral? 2 0 59 (← behind? ':' rest)
  let (second, rest) ← numeral? 2 0 59 (← behind? ':' rest)
  let (microsecond, rest) := microseconds rest
  some ({ hour, minute, second, microsecond }, rest)

/-- The zone in front by the minutes that it is ahead, if there is one, and what follows it. -/
def zone? (s : Text) : Option (Int × Text) :=
  match s with
  | c :: after =>
      if c = 'Z' ∨ c = 'z' then
        some (0, after)
      else if c = '+' ∨ c = '-' then do
        let (hours, rest) ← numeral? 2 0 23 after
        let (minutes, rest) ← numeral? 2 0 59 (← behind? ':' rest)
        some (Number.signed (c = '-') (60 * hours + minutes), rest)
      else
        none
  | [] => none

/-- The time that belongs to a day, with its zone, and what follows them. -/
def timeOfDay? (s : Text) : Option (DayTime × Option Int × Text) :=
  match s with
  | c :: after =>
      if c = 'T' ∨ c = 't' ∨ c = ' ' then do
        let (time, rest) ← time? after
        match zone? rest with
        | some (ahead, rest) => some (time, some ahead, rest)
        | none => some (time, none, rest)
      else
        none
  | [] => none

/-- The date or time in front, and what follows it. -/
def moment? (s : Text) : Reading (Option (Moment × Text)) :=
  match day? s with
  | none => .ok ((time? s).map fun (time, rest) => (.time time, rest))
  | some (day, rest) =>
      if day.isValid then
        match timeOfDay? rest with
        | some (time, ahead?, rest) => .ok (some (.dayTime day time ahead?, rest))
        | none => .ok (some (.day day, rest))
      else
        Reading.broken

end VerilogLayout.Toml
