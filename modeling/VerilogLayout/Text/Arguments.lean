import VerilogLayout.Text.Basic

/-!
# Arguments of a command line

`Text.arguments?` cuts a command line into its arguments. Spaces, tabs and line ends separate
arguments; a pair of quotes may stand anywhere in one and keeps what it holds together. A backslash
protects the next character, but not between single quotes; between double quotes it protects only
a quote and a backslash and stands for itself otherwise.
-/

namespace VerilogLayout

/-- Why a command line has no arguments. -/
inductive ArgumentsFault where
  | openQuote
  | openEscape
deriving DecidableEq, Repr

namespace ArgumentsFault

/-- The fault in words. -/
def message : ArgumentsFault → Text
  | .openQuote => "No closing quotation"
  | .openEscape => "No escaped character"

end ArgumentsFault

namespace Text

/-- What the characters of a command line belong to. -/
inductive ArgumentState where
  /-- Between arguments. -/
  | outside
  | inside
  | singleQuoted
  | doubleQuoted
deriving DecidableEq, Repr

/-- `separates c` holds for a character between arguments. -/
def separates (c : CodePoint) : Bool :=
  c = ' ' || c = '\t' || c = '\r' || c = '\n'

/-- The arguments of a command line. -/
def arguments? (s : Text) : Except ArgumentsFault (List Text) :=
  go .outside [] s
where
  /-- `read` is the reversed part of the argument that is being read. -/
  go (state : ArgumentState) (read : Text) : Text → Except ArgumentsFault (List Text)
    | [] =>
        match state with
        | .outside => .ok []
        | .inside => .ok [read.reverse]
        | .singleQuoted | .doubleQuoted => .error .openQuote
    | ['\\'] =>
        match state with
        | .singleQuoted => .error .openQuote
        | _ => .error .openEscape
    | '\\' :: d :: s =>
        match state with
        | .singleQuoted => go .singleQuoted ('\\' :: read) (d :: s)
        | .doubleQuoted =>
            -- Any other character keeps its backslash.
            if d = '"' ∨ d = '\\' then go .doubleQuoted (d :: read) s
            else go .doubleQuoted (d :: '\\' :: read) s
        | _ => go .inside (d :: read) s
    | c :: s =>
        match state with
        | .singleQuoted =>
            if c = '\'' then go .inside read s else go .singleQuoted (c :: read) s
        | .doubleQuoted =>
            if c = '"' then go .inside read s else go .doubleQuoted (c :: read) s
        | state =>
            if separates c then
              match state with
              | .inside => (go .outside [] s).map (read.reverse :: ·)
              | _ => go .outside [] s
            else if c = '\'' then go .singleQuoted read s
            else if c = '"' then go .doubleQuoted read s
            else go .inside (c :: read) s

end Text
end VerilogLayout
