import VerilogLayout.Number.Integer

/-!
# Limits of reading and writing values

Values are read and written by calls inside of calls, for which the stack has room only up to some
depth, and an integer is turned into digits and back only up to `Number.maxDigits` of them. A
`Limit` is one of these that is passed, and `Depths` says how much room there is.
-/

namespace VerilogLayout

/-- A limit that is passed. -/
inductive Limit where
  /-- There is no room on the stack for `action`. -/
  | depth (action : Text)
  /-- An integer has too many digits. Their number is known if the integer is read. -/
  | digits (count? : Option Nat)
deriving DecidableEq, Repr

namespace Limit

/-- The limit in words. -/
def message : Limit → Text
  | .depth action =>
      let place : Text := if action.isEmpty then [] else " while " ++ action
      "maximum recursion depth exceeded" ++ place
  | .digits count? =>
      let count : Text :=
        match count? with
        | some count => ": value has " ++ Text.ofNat count ++ " digits"
        | none => ""
      "Exceeds the limit (" ++ Text.ofNat Number.maxDigits ++
        " digits) for integer string conversion" ++ count ++
        "; use sys.set_int_max_str_digits() to increase the limit"

/-- The name of the kind of error. -/
def kind : Limit → Text
  | .depth _ => "RecursionError"
  | .digits _ => "ValueError"

/-- `concernsStack l` holds if there is no room on the stack. -/
def concernsStack : Limit → Bool
  | .depth _ => true
  | .digits _ => false

end Limit

/-- How deep values may be nested, which is as deep as the stack has room for where they are read
and written. -/
structure Depths where
  /-- The brackets that may be open at once in the JSON of a configuration. -/
  json : Nat := 900
  /-- The calls that may be open at once while the TOML of a configuration is read. -/
  toml : Nat := 900
  /-- The values that may be written at once, one inside of the other. -/
  shown : Nat := 900
  /-- The brackets that may be open at once in the tree of a document. -/
  tree : Nat := 900
  /-- The brackets that may be open at once in a tree that a program has made. -/
  made : Nat := 900
deriving DecidableEq, Repr

/-- Why a text cannot be read. -/
inductive ReadError (φ : Type) where
  /-- The text breaks a rule of its format. -/
  | fault (fault : φ)
  | limit (limit : Limit)
deriving DecidableEq, Repr

namespace ReadError

variable {φ α : Type}

/-- Goes on reading if the stack has room for `calls` more calls. -/
def entering (action : Text) (calls room : Nat) (next : Nat → Except (ReadError φ) α) :
    Except (ReadError φ) α :=
  if calls ≤ room then next (room - calls) else .error (.limit (.depth action))

/-- One call fits where there is room for one more. -/
@[simp]
theorem entering_one (action : Text) (room : Nat) (next : Nat → Except (ReadError φ) α) :
    entering action 1 (room + 1) next = next room :=
  if_pos (Nat.le_add_left 1 room)

/-- No call fits where there is no room. -/
@[simp]
theorem entering_zero (action : Text) (calls : Nat) (next : Nat → Except (ReadError φ) α) :
    entering action (calls + 1) 0 next = .error (.limit (.depth action)) :=
  if_neg (Nat.not_succ_le_zero calls)

end ReadError

namespace Number

/-- `fits n` holds if an integer can be turned into digits. -/
def fits (n : Int) : Bool :=
  (Text.ofNat n.natAbs).length ≤ maxDigits

end Number
end VerilogLayout
