import VerilogLayout.Data.Value
import VerilogLayout.Text.Blank
import VerilogLayout.Tree.Node

/-!
# Trees from data

`Node.ofValue?` reads a tree from a data value and reports the first place that does not fit: the
fields of a node are looked at in the order name, value, children, leading comments, trailing
comments, those of a comment in the order text, kind, index, and children before what follows
them. A node may have `maxAncestors` nodes above it and no more.
-/

namespace VerilogLayout

/-- What does not fit. -/
inductive Misfit where
  | noNode
  | noComment
  | missing
  | noString
  | noList
  | badKind
  | unreadableIndex
  | fractionalIndex
  | endlessIndex
  | noIndex
  | tooDeep
deriving DecidableEq, Repr

namespace Misfit

/-- The misfit in words. -/
def message : Misfit → Text
  | .noNode => "Input should be a valid dictionary or instance of SyntaxNode"
  | .noComment => "Input should be a valid dictionary or instance of CommentInfo"
  | .missing => "Field required"
  | .noString => "Input should be a valid string"
  | .noList => "Input should be a valid list"
  | .badKind => "Input should be 'line' or 'block'"
  | .unreadableIndex => "Input should be a valid integer, unable to parse string as an integer"
  | .fractionalIndex => "Input should be a valid integer, got a number with a fractional part"
  | .endlessIndex => "Input should be a finite number"
  | .noIndex => "Input should be a valid integer"
  | .tooDeep => "Recursion error - maximum validation depth exceeded"

end Misfit

/-- A misfit and the keys and positions on the way to it. -/
structure Mismatch where
  path : List Text := []
  misfit : Misfit
deriving DecidableEq, Repr

namespace Mismatch

/-- The mismatch seen from one level up. -/
def under (key : Text) (mismatch : Mismatch) : Mismatch :=
  { mismatch with path := key :: mismatch.path }

/-- The path, if it is not empty, and the misfit. -/
def message (mismatch : Mismatch) : Text :=
  if mismatch.path.isEmpty then
    mismatch.misfit.message
  else
    List.intercalate "." mismatch.path ++ ": " ++ mismatch.misfit.message

end Mismatch

/-- The number of nodes that a node or a comment may have above it. -/
def maxAncestors : Nat := 254

namespace Table

/-- The value under the first of the keys that the table has, with that key. -/
def getAny? (table : Table) : List Text → Option (Text × Value)
  | [] => none
  | key :: keys =>
      match table.get? key with
      | some value => some (key, value)
      | none => getAny? table keys

end Table

namespace Value

/-- The text under a key that must be there. -/
def textField? (table : Table) (key : Text) : Except Mismatch Text :=
  match Table.get? table key with
  | none => .error ⟨[key], .missing⟩
  | some (.text s) => .ok s
  | some _ => .error ⟨[key], .noString⟩

/-- The index that a value stands for. -/
def index? : Value → Except Misfit Int
  | .int n => .ok n
  | .bool b => .ok (if b then 1 else 0)
  | .text s =>
      match Number.readIndex? s with
      | some n => .ok n
      | none => .error .unreadableIndex
  | .float x =>
      match Number.Real.ofFloat x with
      | .finite negative value =>
          if value.numerator % value.denominator = 0 then
            .ok (Number.signed negative (value.numerator / value.denominator))
          else
            .error .fractionalIndex
      | _ => .error .endlessIndex
  | _ => .error .noIndex

end Value

namespace CommentKind

/-- The form of a comment by its first characters. -/
def ofText (s : Text) : CommentKind :=
  if Text.startsWith s "//" then .line else .block

/-- The form that a word names, blanks around it and case ignored. -/
def ofWord? (s : Text) : Option CommentKind :=
  let word := Text.lower (Text.trim s)
  if word = ("line" : Text) then some .line
  else if word = ("block" : Text) then some .block
  else none

end CommentKind

namespace Comment

/-- The form that a comment's table gives or, if it says nothing, the one its text shows. -/
def kindOf? (text : Text) : Option Value → Except Mismatch CommentKind
  | none => .ok (.ofText (Text.trimLeft text))
  | some value =>
      if value.isEmpty then
        .ok (.ofText (Text.trimLeft text))
      else
        match value with
        | .text s =>
            match CommentKind.ofWord? s with
            | some kind => .ok kind
            | none => .error ⟨["kind"], .badKind⟩
        | _ => .error ⟨["kind"], .badKind⟩

/-- The keys of a comment's index, the first one there counts. -/
def indexKeys : List Text :=
  ["originalTokenIndex", "original_token_index"]

/-- The comment that a value stands for. -/
def ofValue? : Value → Except Mismatch Comment
  | .table table => do
      let text ← Value.textField? table "text"
      let kind ← kindOf? text (Table.get? table "kind")
      match Table.getAny? table indexKeys with
      | none => .error ⟨["originalTokenIndex"], .missing⟩
      | some (key, value) =>
          match value.index? with
          | .ok index => .ok ⟨text, kind, index⟩
          | .error misfit => .error ⟨[key], misfit⟩
  | _ => .error ⟨[], .noComment⟩

/-- The comment with this text, whose first characters show its form, and the index that a value
stands for. -/
def ofText? (text : Text) (index : Value) : Except Mismatch Comment :=
  match index.index? with
  | .ok index => .ok ⟨text, .ofText text, index⟩
  | .error misfit => .error ⟨["original_token_index"], misfit⟩

end Comment

namespace Node

/-- The items of an optional list under one of the keys, each read by `read`. -/
def itemsField? {α : Type} (read : Value → Except Mismatch α) (table : Table) (keys : List Text) :
    Except Mismatch (List α) :=
  match Table.getAny? table keys with
  | none => .ok []
  | some (_, .null) => .ok []
  | some (key, .list items) =>
      (items.zipIdx.mapM fun (item, i) => (read item).mapError (Mismatch.under (Text.ofNat i)))
        |>.mapError (Mismatch.under key)
  | some (key, _) => .error ⟨[key], .noList⟩

/-- The comment that a value stands for, with `room` more nodes allowed above it. -/
def commentWithin? (room : Nat) (value : Value) : Except Mismatch Comment :=
  if room = 0 then .error ⟨[], .tooDeep⟩ else Comment.ofValue? value

/-- The optional lexeme of a node. -/
def valueField? (table : Table) : Except Mismatch (Option Text) :=
  match Table.get? table "value" with
  | none => .ok none
  | some .null => .ok none
  | some (.text s) => .ok (some s)
  | some _ => .error ⟨["value"], .noString⟩

/-- The node that a value stands for, with `room` more levels allowed. -/
def ofValueWithin? : Nat → Value → Except Mismatch Node
  | 0, _ => .error ⟨[], .tooDeep⟩
  | room + 1, .table table => do
      let name ← Value.textField? table "name"
      let value ← valueField? table
      let children ← itemsField? (ofValueWithin? room) table ["children"]
      let leading ← itemsField? (commentWithin? room) table ["leadingComments", "leading_comments"]
      let trailing ← itemsField? (commentWithin? room) table
        ["trailingComments", "trailing_comments"]
      .ok ⟨name, value, children, leading, trailing⟩
  | _ + 1, _ => .error ⟨[], .noNode⟩

/-- The tree that a value stands for. -/
def ofValue? (value : Value) : Except Mismatch Node :=
  ofValueWithin? (maxAncestors + 1) value

end Node
end VerilogLayout
