import VerilogLayout.Data.Limit
import VerilogLayout.Data.Moment
import VerilogLayout.Number.Spelling
import VerilogLayout.Text.Quoted

/-!
# Data of settings files and trees

A `Value` is what a settings file or a tree file holds before it is given a meaning. Tables keep
their keys in the order in which they were first written; `Value.shown` is the text of a value in
a message and `Value.plain` its text as an argument. Both pass a limit for some values, which
`Value.limit?` finds.
-/

namespace VerilogLayout

/-- A value of a data file. -/
inductive Value where
  | null
  | bool (b : Bool)
  | int (n : Int)
  | float (x : Float)
  | text (s : Text)
  | moment (m : Moment)
  | list (items : List Value)
  | table (entries : List (Text × Value))
deriving Inhabited

/-- A table: keys with their values, in order. -/
abbrev Table := List (Text × Value)

namespace Table

/-- The value of a key. -/
def get? (table : Table) (key : Text) : Option Value :=
  List.lookup key table

/-- Gives `key` a value: at the key's place if it has one, at the end if not. -/
def insert (table : Table) (key : Text) (value : Value) : Table :=
  match table with
  | [] => [(key, value)]
  | (k, v) :: rest => if k = key then (k, value) :: rest else (k, v) :: insert rest key value

/-- The last value of a key counts and the first place. -/
def ofEntries (entries : List (Text × Value)) : Table :=
  entries.foldl (fun table entry => table.insert entry.1 entry.2) []

/-- The last value given to a key is the one that is found. -/
theorem get?_insert_self (table : Table) (key : Text) (value : Value) :
    (table.insert key value).get? key = some value := by
  induction table with
  | nil => simp [insert, get?]
  | cons entry rest ih =>
    obtain ⟨k, v⟩ := entry
    by_cases h : k = key
    · subst h; simp [insert, get?]
    · have hbeq : (key == k) = false := by simpa using fun hk => h hk.symm
      simpa [insert, get?, List.lookup_cons, h, hbeq] using ih

end Table

namespace Value

mutual
/-- The text of a value in a message. -/
def shown : Value → Text
  | .null => "None"
  | .bool b => if b then "True" else "False"
  | .int n => Text.ofInt n
  | .float x => Number.shown.write x
  | .text s => Text.quoted s
  | .moment m => m.shown
  | .list items => "[" ++ List.intercalate ", " (shownItems items) ++ "]"
  | .table entries => "\x7b" ++ List.intercalate ", " (shownEntries entries) ++ "\x7d"

/-- The texts of the items of a list. -/
def shownItems : List Value → List Text
  | [] => []
  | item :: items => shown item :: shownItems items

/-- The texts of the entries of a table. -/
def shownEntries : List (Text × Value) → List Text
  | [] => []
  | (key, value) :: entries => (Text.quoted key ++ ": " ++ shown value) :: shownEntries entries
end

/-- The text of a value as an argument: a text and a moment stand for themselves. -/
def plain : Value → Text
  | .text s => s
  | .moment m => m.plain
  | value => shown value

/-- What is being done where a value is written. -/
def writing : Text := "getting the repr of an object"

mutual
/-- The first limit that writing a value passes where `room` values may be written at once. -/
def limit? (room : Nat) : Value → Option Limit
  | .int n => if Number.fits n then none else some (.digits none)
  | .list items => if room = 0 then some (.depth writing) else limitIn? (room - 1) items
  | .table entries => if room = 0 then some (.depth writing) else limitUnder? (room - 1) entries
  | _ => none

/-- The first limit that writing the items of a list passes. -/
def limitIn? (room : Nat) : List Value → Option Limit
  | [] => none
  | item :: items =>
      (if room = 0 then some (.depth writing) else limit? room item).or (limitIn? room items)

/-- The first limit that writing the entries of a table passes. -/
def limitUnder? (room : Nat) : List (Text × Value) → Option Limit
  | [] => none
  | (_, value) :: entries =>
      (if room = 0 then some (.depth writing) else limit? room value).or (limitUnder? room entries)
end

/-- The text of a value as an argument, if there is no limit to it. -/
def plain? (room : Nat) (value : Value) : Except Limit Text :=
  match value.limit? room with
  | none => .ok value.plain
  | some limit => .error limit

/-- The name of the kind of a value in a message. -/
def kindName : Value → Text
  | .null => "NoneType"
  | .bool _ => "bool"
  | .int _ => "int"
  | .float _ => "float"
  | .text _ => "str"
  | .moment m => m.kindName
  | .list _ => "list"
  | .table _ => "dict"

/-- `isEmpty v` holds for a value that says nothing: null, false, zero, an empty text, list or
table. -/
def isEmpty : Value → Bool
  | .null => true
  | .bool b => !b
  | .int n => n == 0
  | .float x => x == 0.0
  | .text s => s.isEmpty
  | .moment _ => false
  | .list items => items.isEmpty
  | .table entries => entries.isEmpty

end Value
end VerilogLayout
