import VerilogLayout.Text.Basic

/-!
# Column settings

A `Setting` is a column at which a field of a line starts, or the width of a bound of a range;
columns count from zero at the start of the line. A `Columns` gives every setting a number, and
`Columns.set` changes one of them.
-/

namespace VerilogLayout

/-- What can be set. -/
inductive Setting where
  /-- The column of the direction of a port. -/
  | portKeyword
  /-- The column of the sign of a port. -/
  | portSigning
  /-- The column of the range of a port. -/
  | portRange
  /-- The column of the names of a port declaration. -/
  | portName
  /-- The column of the semicolon of a port declaration. -/
  | portEnd
  /-- The column of the first word of a signal declaration. -/
  | signalKeyword
  /-- The column of the sign of a signal. -/
  | signalSigning
  /-- The column of the range of a signal. -/
  | signalRange
  /-- The column of the names of a signal declaration. -/
  | signalName
  /-- The column of the semicolon of a signal declaration. -/
  | signalEnd
  /-- The column of the first word of a parameter declaration. -/
  | parameterKeyword
  /-- The column of the name of a parameter. -/
  | parameterName
  /-- The column of the equals sign of a parameter. -/
  | parameterEquals
  /-- The column of the semicolon of a parameter declaration. -/
  | parameterEnd
  /-- The column of the first word of a continuous assignment. -/
  | assignKeyword
  /-- The column of the first target of an assignment. -/
  | assignTarget
  /-- The column of the first equals sign of an assignment, or 0 for a single space. -/
  | assignEquals
  /-- The column of the value of a parameter of an instance. -/
  | parameterValue
  /-- The column of the signal of a port of an instance. -/
  | portValue
  /-- The column of the first word of an array declaration. -/
  | arrayKeyword
  /-- The column of the sign of an array. -/
  | arraySigning
  /-- The column of the range of an array. -/
  | arrayRange
  /-- The column of the name of an array. -/
  | arrayName
  /-- The column of the dimensions of an array. -/
  | arrayDimensions
  /-- The column of the semicolon of an array declaration. -/
  | arrayEnd
  /-- The width of the upper bound of a range. -/
  | upperWidth
  /-- The width of the lower bound of a range. -/
  | lowerWidth
deriving DecidableEq, Repr

namespace Setting

/-- The name of a setting. -/
def name : Setting → Text
  | .portKeyword => "port_num1"
  | .portSigning => "port_num2"
  | .portRange => "port_num3"
  | .portName => "port_num4"
  | .portEnd => "port_num5"
  | .signalKeyword => "signal_num1"
  | .signalSigning => "signal_num2"
  | .signalRange => "signal_num3"
  | .signalName => "signal_num4"
  | .signalEnd => "signal_num5"
  | .parameterKeyword => "param_num1"
  | .parameterName => "param_num2"
  | .parameterEquals => "param_num3"
  | .parameterEnd => "param_num4"
  | .assignKeyword => "assign_num1"
  | .assignTarget => "assign_num2"
  | .assignEquals => "assign_num3"
  | .parameterValue => "inst_param_value_col"
  | .portValue => "inst_port_value_col"
  | .arrayKeyword => "array_num1"
  | .arraySigning => "array_num2"
  | .arrayRange => "array_num3"
  | .arrayName => "array_num4"
  | .arrayDimensions => "array_num5"
  | .arrayEnd => "array_num6"
  | .upperWidth => "upbound"
  | .lowerWidth => "lowbound"

/-- All settings, in the order in which they are declared and checked. -/
def all : List Setting :=
  [.portKeyword, .portSigning, .portRange, .portName, .portEnd, .signalKeyword, .signalSigning,
   .signalRange, .signalName, .signalEnd, .parameterKeyword, .parameterName, .parameterEquals,
   .parameterEnd, .assignKeyword, .assignTarget, .assignEquals, .parameterValue, .portValue,
   .arrayKeyword, .arraySigning, .arrayRange, .arrayName, .arrayDimensions, .arrayEnd,
   .upperWidth, .lowerWidth]

/-- The setting with a name. -/
def ofName? (name : Text) : Option Setting :=
  all.find? fun setting => setting.name = name

/-- Every setting is listed. -/
theorem mem_all (setting : Setting) : setting ∈ all := by
  cases setting <;> decide

end Setting

/-- A number for every setting. -/
abbrev Columns := Setting → Nat

namespace Columns

/-- The columns that hold where nothing is set. -/
def standard : Columns
  | .portKeyword => 4
  | .portSigning => 16
  | .portRange => 25
  | .portName => 50
  | .portEnd => 80
  | .signalKeyword => 4
  | .signalSigning => 16
  | .signalRange => 25
  | .signalName => 50
  | .signalEnd => 80
  | .parameterKeyword => 4
  | .parameterName => 25
  | .parameterEquals => 50
  | .parameterEnd => 80
  | .assignKeyword => 4
  | .assignTarget => 12
  | .assignEquals => 0
  | .parameterValue => 60
  | .portValue => 60
  | .arrayKeyword => 4
  | .arraySigning => 16
  | .arrayRange => 25
  | .arrayName => 50
  | .arrayDimensions => 60
  | .arrayEnd => 80
  | .upperWidth => 2
  | .lowerWidth => 2

/-- Narrow columns for short identifiers and small terminals. -/
def compact : Columns
  | .portKeyword => 4
  | .portSigning => 12
  | .portRange => 20
  | .portName => 32
  | .portEnd => 56
  | .signalKeyword => 4
  | .signalSigning => 12
  | .signalRange => 20
  | .signalName => 32
  | .signalEnd => 56
  | .parameterKeyword => 4
  | .parameterName => 16
  | .parameterEquals => 36
  | .parameterEnd => 56
  | .assignKeyword => 4
  | .assignTarget => 12
  | .assignEquals => 0
  | .parameterValue => 40
  | .portValue => 40
  | .arrayKeyword => 4
  | .arraySigning => 12
  | .arrayRange => 20
  | .arrayName => 32
  | .arrayDimensions => 44
  | .arrayEnd => 56
  | .upperWidth => 1
  | .lowerWidth => 1

/-- Generous columns for long, hierarchical names. -/
def wide : Columns
  | .portKeyword => 4
  | .portSigning => 20
  | .portRange => 32
  | .portName => 64
  | .portEnd => 100
  | .signalKeyword => 4
  | .signalSigning => 20
  | .signalRange => 32
  | .signalName => 64
  | .signalEnd => 100
  | .parameterKeyword => 4
  | .parameterName => 32
  | .parameterEquals => 64
  | .parameterEnd => 100
  | .assignKeyword => 4
  | .assignTarget => 16
  | .assignEquals => 48
  | .parameterValue => 72
  | .portValue => 72
  | .arrayKeyword => 4
  | .arraySigning => 20
  | .arrayRange => 32
  | .arrayName => 64
  | .arrayDimensions => 80
  | .arrayEnd => 100
  | .upperWidth => 3
  | .lowerWidth => 3

/-- The columns with one setting changed. -/
def set (columns : Columns) (setting : Setting) (n : Nat) : Columns :=
  fun other => if other = setting then n else columns other

/-- The presets by their names. -/
def presets : List (Text × Columns) :=
  [("standard", standard), ("compact", compact), ("wide", wide)]

/-- The preset with a name. -/
def preset? (name : Text) : Option Columns :=
  presets.lookup name

/-- The settings with their numbers, in order. -/
def toMapping (columns : Columns) : List (Text × Nat) :=
  Setting.all.map fun setting => (setting.name, columns setting)

/-- The number of the setting that a key names; what stands before the last point does not
matter. -/
def get? (columns : Columns) (key : Text) : Option Nat :=
  (Setting.ofName? (Text.afterLast '.' key)).map columns

@[simp]
theorem set_self (columns : Columns) (setting : Setting) (n : Nat) :
    columns.set setting n setting = n := by
  simp [set]

theorem set_of_ne (columns : Columns) {setting other : Setting} (n : Nat) (h : other ≠ setting) :
    columns.set setting n other = columns other := by
  simp [set, h]

end Columns
end VerilogLayout
