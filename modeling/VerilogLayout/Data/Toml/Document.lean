import VerilogLayout.Data.Toml.Token

/-!
# TOML documents

`Toml.read?` reads the table that a document describes, unless the document breaks a rule of the
format or passes a limit. A table may be described in several places but opened by name in one only,
a value is given once, and an array or a table that is written as a value is complete as it stands;
`Marks` keep what these rules need.
-/

namespace VerilogLayout.Toml

/-- What is said of a document that breaks a rule of the format. -/
def faultMessage : Text := "<toml error>"

/-- The names that lead to a table or a value. -/
abbrev Key := List Text

/-! ## Tables by key -/

/-- Changes the table at `key` below a table; tables on the way are made, and of an array of tables
the last one is meant if `inArrays` says so. -/
def changeAt (inArrays : Bool) (change : Table → Option Table) : Key → Table → Option Table
  | [], table => change table
  | name :: key, table =>
      match table.get? name with
      | none => (changeAt inArrays change key []).map fun inner => table.insert name (.table inner)
      | some (.table inner) =>
          (changeAt inArrays change key inner).map fun inner => table.insert name (.table inner)
      | some (.list items) =>
          match inArrays, items.getLast? with
          | true, some (.table inner) =>
              (changeAt inArrays change key inner).map fun inner =>
                table.insert name (.list (items.dropLast ++ [.table inner]))
          | _, _ => none
      | some _ => none

/-- Gives a new name its value. -/
def define (name : Text) (value : Value) (table : Table) : Option Table :=
  match table.get? name with
  | none => some (table.insert name value)
  | some _ => none

/-- Puts an empty table behind the last one of an array of tables. -/
def extend (name : Text) (table : Table) : Option Table :=
  match table.get? name with
  | none => some (table.insert name (.list [.table []]))
  | some (.list items) => some (table.insert name (.list (items ++ [.table []])))
  | some _ => none

/-- The names in front of the last one. -/
def parent (key : Key) : Key :=
  key.dropLast

/-- The last name. -/
def stem (key : Key) : Text :=
  key.getLast?.getD []

/-! ## Marks -/

/-- What has been said about the tables of a document. -/
structure Marks where
  /-- Tables that cannot be opened by their name again. -/
  opened : List Key := []
  /-- Arrays and tables that are complete with all that is below them. -/
  complete : List Key := []
  /-- Tables that count as opened from the next table on. -/
  pending : List Key := []

namespace Marks

/-- `isComplete marks key` holds if a table at or above `key` is complete. -/
def isComplete (marks : Marks) (key : Key) : Bool :=
  marks.complete.any (·.isPrefixOf key)

/-- `isOpened marks key` holds if the table at `key` cannot be opened again. -/
def isOpened (marks : Marks) (key : Key) : Bool :=
  marks.opened.contains key

/-- Marks a table as opened. -/
def markOpened (marks : Marks) (key : Key) : Marks :=
  { marks with opened := key :: marks.opened }

/-- Marks a value as complete, if it has anything below it. -/
def addValue (marks : Marks) (key : Key) (value : Value) : Marks :=
  match value with
  | .list _ | .table _ => { marks with complete := key :: marks.complete }
  | _ => marks

/-- Lets the pending tables count as opened. -/
def settle (marks : Marks) : Marks :=
  { marks with opened := marks.pending ++ marks.opened, pending := [] }

/-- Forgets what is said about a table and all below it. -/
def forget (marks : Marks) (key : Key) : Marks :=
  { marks with
    opened := marks.opened.filter fun other => !key.isPrefixOf other
    complete := marks.complete.filter fun other => !key.isPrefixOf other }

end Marks

/-! ## Values -/

/-- What follows the white space, line feeds and comments in front. The fuel bounds the
comments. -/
def skipFiller? : Nat → Text → Option Text
  | 0, s => some s
  | fuel + 1, s => do
      let rest ← skipComment? (s.dropWhile isSpaceOrFeed)
      if rest.length = s.length then some s else skipFiller? fuel rest

/-- A value that is no array and no table, and what follows it. -/
def scalar (s : Text) : Reading (Value × Text) :=
  match s with
  | '"' :: _ | '\'' :: _ => Reading.require ((string? s).map fun (body, rest) => (.text body, rest))
  | _ =>
      if Text.startsWith s "true" then .ok (.bool true, s.drop 4)
      else if Text.startsWith s "false" then .ok (.bool false, s.drop 5)
      else do
        match ← moment? s with
        | some (moment, rest) => .ok (.moment moment, rest)
        | none => number s

mutual
/-- The value in front, and what follows it. Up to `room` calls may be open at once, of which a
value in an array takes two and one in a table three. The fuel bounds all calls. -/
def value (room : Nat) : (fuel : Nat) → Text → Reading (Value × Text)
  | 0, _ => Reading.broken
  | fuel + 1, s =>
      match s with
      | '[' :: rest =>
          ReadError.entering [] 2 room fun room => do
            let rest ← Reading.require (skipFiller? rest.length rest)
            match rest with
            | ']' :: rest => .ok (.list [], rest)
            | rest => (items room fuel rest).map fun (items, rest) => (.list items, rest)
      | '\x7b' :: rest =>
          ReadError.entering [] 3 room fun room =>
            match skipSpace rest with
            | '\x7d' :: rest => .ok (.table [], rest)
            | rest => (pairs room fuel {} [] rest).map fun (table, rest) => (.table table, rest)
      | _ => scalar s

/-- The items of an array from the first one on, and what follows the closing bracket. -/
def items (room : Nat) : (fuel : Nat) → Text → Reading (List Value × Text)
  | 0, _ => Reading.broken
  | fuel + 1, s => do
      let (value, rest) ← value room fuel s
      let rest ← Reading.require (skipFiller? rest.length rest)
      match rest with
      | ']' :: rest => .ok ([value], rest)
      | ',' :: rest => do
          let rest ← Reading.require (skipFiller? rest.length rest)
          match rest with
          | ']' :: rest => .ok ([value], rest)
          | rest => (items room fuel rest).map fun (items, rest) => (value :: items, rest)
      | _ => Reading.broken

/-- A key with its value, and what follows them. -/
def pair (room : Nat) : (fuel : Nat) → Text → Reading (Key × Value × Text)
  | 0, _ => Reading.broken
  | fuel + 1, s => do
      let (key, rest) ← Reading.require (key? (s.length + 1) s)
      match rest with
      | '=' :: rest => do
          let (value, rest) ← value room fuel (skipSpace rest)
          .ok (key, value, rest)
      | _ => Reading.broken

/-- The pairs of a table on one line from the first one on, and what follows the closing brace. -/
def pairs (room : Nat) : (fuel : Nat) → Marks → Table → Text → Reading (Table × Text)
  | 0, _, _, _ => Reading.broken
  | fuel + 1, marks, table, s => do
      let (key, value, rest) ← pair room fuel s
      if marks.isComplete key then
        Reading.broken
      else
        let table ←
          Reading.require (changeAt false (define (stem key) value) (parent key) table)
        match skipSpace rest with
        | '\x7d' :: rest => .ok (table, rest)
        | ',' :: rest => pairs room fuel (marks.addValue key value) table (skipSpace rest)
        | _ => Reading.broken
end

/-! ## Documents -/

/-- A document up to some line. -/
structure Document where
  table : Table := []
  marks : Marks := {}
  /-- The table that was opened last. -/
  header : Key := []

namespace Document

/-- The keys of the tables between the header and the last name of a key. -/
def between (header key : Key) : List Key :=
  (List.range (key.length - 1)).map fun n => header ++ key.take (n + 1)

/-- The document with one more pair. -/
def addPair? (doc : Document) (key : Key) (value : Value) : Option Document := do
  let whole := doc.header ++ key
  let path := between doc.header key
  if path.any doc.marks.isOpened || doc.marks.isComplete (parent whole) then
    none
  else
    let table ← changeAt true (define (stem key) value) (parent whole) doc.table
    let marks := { doc.marks with pending := path ++ doc.marks.pending }
    some { doc with table, marks := marks.addValue whole value }

/-- The document with a table opened by its name. -/
def openTable? (doc : Document) (key : Key) : Option Document := do
  -- The tables that dotted keys have made are closed by the next header.
  let marks := doc.marks.settle
  if marks.isOpened key || marks.isComplete key then
    none
  else
    let table ← changeAt true some key doc.table
    some { table, marks := marks.markOpened key, header := key }

/-- The document with one more table in an array of tables. -/
def extendArray? (doc : Document) (key : Key) : Option Document := do
  let marks := doc.marks.settle
  if marks.isComplete key then
    none
  else
    let table ← changeAt true (extend (stem key)) (parent key) doc.table
    some { table, marks := (marks.forget key).markOpened key, header := key }

/-- The document with the statement in front of a text, and what follows the statement. -/
def statement (room : Nat) (doc : Document) (s : Text) : Reading (Document × Text) :=
  match s with
  | '[' :: '[' :: rest => Reading.require do
      let (key, rest) ← key? (rest.length + 1) (skipSpace rest)
      let ']' :: ']' :: rest := rest | none
      some (← doc.extendArray? key, rest)
  | '[' :: rest => Reading.require do
      let (key, rest) ← key? (rest.length + 1) (skipSpace rest)
      let ']' :: rest := rest | none
      some (← doc.openTable? key, rest)
  | '#' :: _ => .ok (doc, s)
  | _ => do
      let (key, value, rest) ← pair room (2 * s.length + 2) s
      Reading.require ((doc.addPair? key value).map fun doc => (doc, rest))

/-- The document with the lines of a text. The fuel bounds their number. -/
def lines (room : Nat) : (fuel : Nat) → Document → Text → Reading Document
  | 0, _, _ => Reading.broken
  | fuel + 1, doc, s =>
      match skipSpace s with
      | [] => .ok doc
      | '\n' :: rest => lines room fuel doc rest
      | s => do
          let (doc, rest) ← doc.statement room s
          let rest ← Reading.require (skipComment? (skipSpace rest))
          match rest with
          | [] => .ok doc
          | '\n' :: rest => lines room fuel doc rest
          | _ => Reading.broken

end Document

/-- The table that a document describes. Up to `room` calls may be open at once. -/
def read? (room : Nat) (s : Text) : Reading Table :=
  let s := Text.replace "\r\n" "\n" s
  (Document.lines room (s.length + 1) {} s).map (·.table)

end VerilogLayout.Toml
