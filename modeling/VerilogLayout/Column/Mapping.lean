import VerilogLayout.Column.Setting
import VerilogLayout.Data.Value
import VerilogLayout.Report
import VerilogLayout.Text.Blank

/-!
# Columns from settings

`Columns.ofMapping?` reads columns from keys and values. A key names a setting by what stands
behind its last point, keys that name none are passed over, and of two values for one setting the
last counts. Values are read in the order of the keys; only then are the numbers that remain
checked for their sign, in the order of the settings. The message of an error shows the value, and a
limit that this passes takes the place of the error.
-/

namespace VerilogLayout

/-- Why columns cannot be set. -/
inductive SettingError where
  /-- The value is a truth value. -/
  | truthValue (setting : Setting) (value : Bool)
  /-- The value is no integer and does not read as one. -/
  | unreadable (setting : Setting) (value : Value)
  /-- A value that has to be an integer as it stands is none. -/
  | noInteger (setting : Setting) (value : Value)
  | negative (setting : Setting) (n : Int)
  | unknownPreset (name : Text)
  /-- The value of a setting cannot be shown. -/
  | limit (passed : Limit)
deriving Inhabited

namespace SettingError

/-- The start of a message about a setting. -/
def about (setting : Setting) (rest : Text) : Text :=
  "Option '" ++ setting.name ++ "' must be " ++ rest

/-- The message of an error. -/
def message : SettingError → Text
  | .truthValue setting value => about setting ("an integer, got " ++ (Value.bool value).shown)
  | .unreadable setting value => about setting ("an integer, got " ++ value.shown)
  | .noInteger setting value => about setting ("an integer, got " ++ value.shown)
  | .negative setting n => about setting ("non-negative, got " ++ Text.ofInt n)
  | .unknownPreset name => "Unknown alignment style '" ++ name ++ "'"
  | limit passed => passed.message

/-- The hint of an error. -/
def hint? : SettingError → Option Text
  | .unreadable _ _ => some "Use a plain column number such as 40."
  | .noInteger _ _ => some "Column options are non-negative integers."
  | .truthValue _ _ | .negative _ _ | .unknownPreset _ | .limit _ => none

/-- What an error says that is about a setting. -/
def report? (e : SettingError) : Option Report :=
  match e with
  | .unknownPreset _ | .limit _ => none
  | e => some { topic := .settings, message := e.message, hint := e.hint? }

/-- The limit that showing the value passes. -/
def limit? (room : Nat) : SettingError → Option Limit
  | .unreadable _ value | .noInteger _ value => value.limit? room
  | .negative _ n => (Value.int n).limit? room
  | .truthValue _ _ | .unknownPreset _ | .limit _ => none

/-- The error, or the limit that showing the value passes. -/
def shownWithin (room : Nat) (e : SettingError) : SettingError :=
  match e.limit? room with
  | some passed => .limit passed
  | none => e

/-- An error whose value can be shown stays as it is. -/
theorem shownWithin_of_none {room : Nat} {e : SettingError} (h : e.limit? room = none) :
    e.shownWithin room = e := by
  rw [shownWithin, h]

/-- A limit takes the place of the error whose value passes it. -/
theorem shownWithin_of_some {room : Nat} {e : SettingError} {passed : Limit}
    (h : e.limit? room = some passed) : e.shownWithin room = .limit passed := by
  rw [shownWithin, h]

end SettingError

namespace Columns

/-- The integer that a value gives a setting. -/
def readValue? (room : Nat) (setting : Setting) : Value → Except SettingError Int
  | .bool b => .error (.truthValue setting b)
  | .int n => .ok n
  | value =>
      match (value.plain? room).toOption.bind fun text => Number.readInteger? (Text.trim text) with
      | some n => .ok n
      | none => .error ((SettingError.unreadable setting value).shownWithin room)

/-- The settings that a mapping names, with the integers it gives them. -/
def readEntries? (room : Nat) :
    List (Text × Value) → Except SettingError (List (Setting × Int))
  | [] => .ok []
  | (key, value) :: rest =>
      match Setting.ofName? (Text.afterLast '.' key) with
      | none => readEntries? room rest
      | some setting => do
          let n ← readValue? room setting value
          let others ← readEntries? room rest
          .ok ((setting, n) :: others)

/-- The keys that name no setting, up to the first value that cannot be read. -/
def ignoredKeys (room : Nat) : List (Text × Value) → List Text
  | [] => []
  | (key, value) :: rest =>
      match Setting.ofName? (Text.afterLast '.' key) with
      | none => key :: ignoredKeys room rest
      | some setting =>
          match readValue? room setting value with
          | .ok _ => ignoredKeys room rest
          | .error _ => []

/-- The last integer given to a setting. -/
def lastGiven? (given : List (Setting × Int)) (setting : Setting) : Option Int :=
  given.reverse.lookup setting

/-- The first setting whose last integer is negative, with that integer. -/
def firstNegative? (given : List (Setting × Int)) : Option (Setting × Int) :=
  Setting.all.findSome? fun setting =>
    match lastGiven? given setting with
    | some n => if n < 0 then some (setting, n) else none
    | none => none

/-- Columns with the last integers given to settings. -/
def withGiven (columns : Columns) (given : List (Setting × Int)) : Columns :=
  fun setting =>
    match lastGiven? given setting with
    | some n => n.toNat
    | none => columns setting

/-- Columns with new integers for settings, none of which may be negative. -/
def update? (room : Nat) (columns : Columns) (given : List (Setting × Int)) :
    Except SettingError Columns :=
  match firstNegative? given with
  | some (setting, n) => .error ((SettingError.negative setting n).shownWithin room)
  | none => .ok (columns.withGiven given)

/-- The columns that a mapping sets; the others keep their standard. -/
def ofMapping? (room : Nat) (entries : List (Text × Value)) : Except SettingError Columns := do
  let given ← readEntries? room entries
  standard.update? room given

/-- The first setting, in their order, whose new value is no integer or negative. -/
def firstMisfit? (values : List (Setting × Value)) : Option SettingError :=
  Setting.all.findSome? fun setting =>
    match values.reverse.lookup setting with
    | none => none
    | some (.int n) => if n < 0 then some (.negative setting n) else none
    | some value => some (.noInteger setting value)

/-- The integer that a value is. -/
def asInteger? : Value → Option Int
  | .int n => some n
  | _ => none

/-- Columns with new values for settings, which have to be integers as they stand. -/
def override? (room : Nat) (columns : Columns) (values : List (Setting × Value)) :
    Except SettingError Columns :=
  match firstMisfit? values with
  | some e => .error (e.shownWithin room)
  | none =>
      .ok (columns.withGiven (values.filterMap fun (setting, value) =>
        (asInteger? value).map (setting, ·)))

/-- The preset with a name. -/
def ofPreset? (name : Text) : Except SettingError Columns :=
  match preset? name with
  | some columns => .ok columns
  | none => .error (.unknownPreset name)

end Columns
end VerilogLayout
