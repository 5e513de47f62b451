import VerilogLayout.Render.Basic

/-!
# Statements

Blocks, conditions, choices, loops and timing controls share one rule for what follows a header:
`body` keeps the `begin` of a block on the header's line and puts anything else on the next line,
one level deeper. A block that holds one assignment and no comment of its own loses its `begin`
and `end`.
-/

namespace VerilogLayout

namespace Node

/-- A block that starts with its keyword. -/
def opensBlock (node : Node) : Bool :=
  node.is Kind.isBlock && node.children.head?.any (isLexeme "begin")

/-- A node without comments of its own. -/
def isBare (node : Node) : Bool :=
  node.leading.isEmpty && node.trailing.isEmpty

/-- A procedural assignment inside of its wrappers. -/
def isAssignment (node : Node) : Bool :=
  node.unwrap.inner.is Kind.isSimpleAssignment

/-- A block whose `begin` and `end` can be dropped: it has no label and no declaration, holds one
assignment, and neither the block nor its keywords have a comment. -/
def isCollapsible (node : Node) : Bool :=
  match node.children with
  | [first, statement, last] =>
      node.kind? = some .seqBlock && first.isLexeme "begin" && last.isLexeme "end" &&
        node.isBare && first.isBare && last.isBare && !statement.isToken &&
        statement.isAssignment
  | _ => false

/-- A statement that fits on the line of its header: an assignment, a block that can be dropped,
or an empty statement. -/
def isSimple (node : Node) : Bool :=
  let inner := node.unwrap.inner
  inner.is Kind.isSimpleAssignment || inner.isCollapsible ||
    inner.tokens.map lexeme = [(";" : Text)]

/-- The leading comments of wrappers, outermost first. -/
def wrapperLeading (wrappers : List Node) : List Comment :=
  wrappers.flatMap leading

/-- The trailing comments of wrappers, innermost first. -/
def wrapperTrailing (wrappers : List Node) : List Comment :=
  wrappers.reverse.flatMap trailing

end Node

namespace Render

open Node

/-- The label of a block, with its colon, and the nodes behind it. -/
def splitLabel (nodes : List Node) : List Node × List Node :=
  match nodes with
  | first :: _ => if first.isLexeme ":" then (nodes.take 2, nodes.drop 2) else ([], nodes)
  | [] => ([], [])

/-- The children of a block behind its first keyword, without the last one, and that one. -/
def splitBlock (children : List Node) : List Node × Option Node :=
  let rest := children.drop 1
  match rest.getLast? with
  | some last => if last.isLexeme "end" then (rest.dropLast, some last) else (rest, none)
  | none => (rest, none)

/-- A block from its `begin` on. The comments `lead` go behind `begin` and `trail` behind `end`. -/
def block (format : Formatter) (node : Node) (level : Int) (lead trail : List Comment) :
    Render Text := do
  let first ← require node.children.head?
  let (inside, last) := splitBlock node.children
  let (label, statements) := splitLabel inside
  let title : Text :=
    match label with
    | [_, name] => "begin : " ++ name.text
    | _ => "begin"
  let comments ← inline (lead ++ Node.commentsAll (first :: label)) (indentFor (level + 1))
  let lines ← items format (level + 1) statements
  let close ← closingLine last "end" level trail
  pure (title ++ comments ++ "\n" ++ lines ++ close)

/-- What follows a header, and whether it ends with `end`. The comments of the header are written
with it. -/
def body (format : Formatter) (statement : Node) (level : Int) (comments : List Comment) :
    Render (Text × Bool) := do
  let unwrapped := statement.unwrap
  let inner := unwrapped.inner
  -- The block is written here and not by `format`, so the comments around it are taken along.
  if inner.opensBlock && !inner.isCollapsible then
    let lead := comments ++ wrapperLeading unwrapped.wrappers ++ inner.leading
    let trail := inner.trailing ++ wrapperTrailing unwrapped.wrappers
    let text ← block format inner level lead trail
    pure (" " ++ text, true)
  else
    let behind ← inline comments (indentFor level)
    let text ← format statement (level + 1) none
    pure (behind ++ "\n" ++ text, false)

/-- What follows `always` or `initial`: a timing control stays on the line of the keyword. -/
def timedBody (format : Formatter) (statement : Node) (level : Int) (comments : List Comment) :
    Render Text := do
  let unwrapped := statement.unwrap
  let inner := unwrapped.inner
  match inner.children with
  | control :: next :: others =>
      if inner.kind? = some .proceduralTimingControlStatement then
        let comments := comments ++ wrapperLeading unwrapped.wrappers ++ inner.leading ++
          control.comments
        let (text, _) ← body format ((next :: others).getLast (by simp)) level comments
        pure (" " ++ control.text ++ text)
      else
        pure (← body format statement level comments).1
  | _ => pure (← body format statement level comments).1

/-- A simple statement on the line of its header. -/
def inlineStatement (format : Formatter) (statement : Node) (level : Int) : Render Text := do
  let text ← format statement level none
  pure (Text.dropRightWhile (· = '\n') (stripIndent text level))

/-- A block, or the assignment inside of one that can be dropped. -/
def seqBlock (format : Formatter) (node : Node) (level : Int) : Render Text := do
  match node.children with
  | [_, statement, _] =>
      if node.isCollapsible then
        pure (stripIndent (← format statement level none) level)
      else
        block format node level [] []
  | _ => block format node level [] []

/-- A generate block, which may have no `begin`. -/
def generateBlock (format : Formatter) (node : Node) (level : Int) : Render Text := do
  if node.opensBlock then
    block format node level [] []
  else
    pure (stripIndent (← items format level node.children) level)

/-- A procedural assignment with its terminator. -/
def assignment (node : Node) (level : Int) (terminator : Option Node) : Render Text := do
  let comments ← endOfLine level (node :: terminator.toList)
  pure (node.text ++ terminatorText terminator ++ comments)

/-- A header with its condition in parentheses. -/
def header (keyword : Text) (condition : List Node) : Text :=
  keyword ++ " (" ++ joinedText condition ++ ")"

/-- The place for `else` behind a branch: on the line of an `end`, or on a line of its own. -/
def beforeElse (branch : Text) (isBlock : Bool) (level : Int) : Text :=
  if isBlock ∧ Text.trim (Text.afterLast '\n' (Text.dropLast branch)) = ("end" : Text) then
    Text.dropLast branch ++ " else"
  else
    branch ++ indentFor level ++ "else"

/-- The branches of a condition. -/
structure Branches where
  /-- The nodes from the keyword up to the closing parenthesis. -/
  head : List Node
  condition : List Node
  first : Node
  /-- The keyword of the second branch and that branch. -/
  second : Option (Node × Node)

/-- The branches of a condition with these children, if it has its parentheses and the first. -/
def Branches.ofChildren? (children : List Node) : Option Branches := do
  let (opening, closing) ← parens? children
  let first ← children[closing + 1]?
  let second := do
    let place ← indexOf? "else" children (closing + 2)
    let keyword ← children[place]?
    let branch ← children[place + 1]?
    some (keyword, branch)
  some
    { head := children.take (closing + 1)
      condition := between children (opening + 1) closing
      first
      second }

/-- A condition with its branches; a condition in the second branch continues the chain on the
line of its `else`. The comments `extra` belong behind the header, and the fuel bounds the length
of the chain. -/
def conditional (format : Formatter) : Nat → Node → Int → List Comment → Render Text
  | 0, _, _, _ => pure []
  | fuel + 1, node, level, extra => do
      match node.children, Branches.ofChildren? node.children with
      | keyword :: _, some branches =>
          let title := header keyword.text branches.condition
          let (text, isBlock) ← body format branches.first level
            (extra ++ Node.commentsAll branches.head)
          let text := title ++ text
          match branches.second with
          | none => pure text
          | some (elseToken, branch) =>
              let text := beforeElse text isBlock level
              let unwrapped := branch.unwrap
              let nested := unwrapped.inner
              -- A wrapper with comments of its own breaks the chain.
              if nested.is Kind.isConditional && unwrapped.wrappers.all isBare then
                let rest ← conditional format fuel nested level
                  (elseToken.comments ++ nested.leading)
                pure (text ++ " " ++ rest)
              else
                let (rest, _) ← body format branch level elseToken.comments
                pure (text ++ rest)
      | _, _ => woven node

/-- A choice between items. -/
def caseStatement (format : Formatter) (node : Node) (level : Int) : Render Text := do
  let children := node.children
  match children, parens? children with
  | keyword :: _, some (opening, closing) =>
      let close := children.getLast?.filter fun last =>
        last.isToken && Text.startsWith last.lexeme "endcase"
      let inside := children.drop (closing + 1)
      let statements := if close.isSome then inside.dropLast else inside
      let comments ← endOfLine level (children.take (closing + 1))
      let lines ← items format (level + 1) statements
      let last ← closingLine close ((close.map lexeme).getD "endcase") level []
      pure (header keyword.text (between children (opening + 1) closing) ++ comments ++ "\n" ++
        lines ++ last)
  | _, _ => woven node

/-- An item of a choice: its labels and a statement, on the line of the labels if it is simple and
the labels have no comment. -/
def caseItem (format : Formatter) (node : Node) (level : Int) : Render Text := do
  match node.children.getLast? with
  | none => pure []
  | some statement =>
      let head := node.children.dropLast
      let labels :=
        match indexOf? ":" node.children with
        | some colon => node.children.take colon
        | none => head
      let label :=
        List.intercalate ", " ((groups "," labels).map fun group => joinedText group.items)
      let comments := Node.commentsAll head
      let pending ← unwritten comments
      if statement.isSimple && pending.isEmpty then
        pure (label ++ ": " ++ (← inlineStatement format statement level))
      else
        let (text, _) ← body format statement level comments
        pure (label ++ ":" ++ text)

/-- The header of a loop. -/
def loopHeader (head : List Node) : Text :=
  match head, parens? head with
  | keyword :: _, some (opening, closing) =>
      let clauses := (groups ";" (between head (opening + 1) closing)).map fun group =>
        joinedText group.items
      keyword.text ++ " (" ++ List.intercalate "; " clauses ++ ")"
  | [keyword], none => keyword.text
  | _, _ => spacedText head

/-- A loop. -/
def loop (format : Formatter) (node : Node) (level : Int) : Render Text := do
  match node.children with
  | first :: second :: others =>
      let head := (first :: second :: others).dropLast
      let (text, _) ← body format ((second :: others).getLast (by simp)) level
        (Node.commentsAll head)
      pure (loopHeader head ++ text)
  | _ => woven node

/-- A statement behind a timing control. -/
def timingControl (format : Formatter) (node : Node) (level : Int) : Render Text := do
  match node.children with
  | control :: next :: others =>
      let statement := (next :: others).getLast (by simp)
      if statement.isSimple && control.trailing.isEmpty then
        pure (control.text ++ " " ++ (← inlineStatement format statement level))
      else
        let (text, _) ← body format statement level control.comments
        pure (control.text ++ text)
  | _ => woven node

/-- An `always` or `initial` construct. -/
def procedural (format : Formatter) (node : Node) (level : Int) : Render Text := do
  let keyword ← require node.children.head?
  let statement ← require node.children.getLast?
  let text ← timedBody format statement level keyword.comments
  pure (keyword.text ++ text)

end Render
end VerilogLayout
