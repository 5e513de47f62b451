import VerilogLayout.Text.Basic

/-!
# Source text without comments

`withoutComments` first replaces the block comments that are closed by a space each and then cuts
the line comments. An opening without a closing behind it is no comment.
-/

namespace VerilogLayout.Template

/-- The text with a space for every block comment. -/
def withoutBlockComments (s : Text) : Text :=
  match s with
  | [] => []
  | '/' :: '*' :: rest =>
      match Text.find? "*/" rest with
      | some n => ' ' :: withoutBlockComments (rest.drop (n + 2))
      | none => s
  | c :: rest => c :: withoutBlockComments rest
termination_by s.length
decreasing_by
  · simp only [List.length_drop, List.length_cons]; omega
  · simp

/-- The text without line comments; the line feeds stay. -/
def withoutLineComments : Text → Text :=
  go false
where
  /-- `inComment` says that the line is a comment from here on. -/
  go (inComment : Bool) : Text → Text
    | [] => []
    | '\n' :: s => '\n' :: go false s
    | c :: s =>
        if inComment then go true s
        else if c = '/' ∧ s.head? = some (.char '/') then go true s
        else c :: go false s

/-- The text without comments. -/
def withoutComments (s : Text) : Text :=
  withoutLineComments (withoutBlockComments s)

end VerilogLayout.Template
