import VerilogLayout.Data.Value
import VerilogLayout.Report

/-!
# Events

What the program does beside its answer is told by events. An `Event` names what has happened; its
severity, the part of the program that tells it and its wording follow from that. Functions that
have something to tell return their events in order, so a reader of the log can choose which of
them to see.
-/

namespace VerilogLayout

/-- How much an event matters. -/
inductive Severity where
  | debug
  | info
  | warning
  | error
deriving DecidableEq, Repr

namespace Severity

/-- The place of a severity in their order. -/
def rank : Severity → Nat
  | .debug => 0
  | .info => 1
  | .warning => 2
  | .error => 3

/-- The name of a severity. -/
def name : Severity → Text
  | .debug => "DEBUG"
  | .info => "INFO"
  | .warning => "WARNING"
  | .error => "ERROR"

end Severity

/-- The logger that everything in the program belongs to. -/
def rootLogger : Text := "hdlalign"

/-- A text is aligned line by line for want of a tree. -/
structure Fallback where
  reason : Text
  /-- The file, if the text comes from one. -/
  path : Option Text := none
  detail : Option Text := none
  /-- More to tell, which may replace what is told already. -/
  extras : Table := []
  /-- The logger that tells it. -/
  logger : Text := "hdlalign.formatting.fallback"

namespace Fallback

/-- What is known of a fallback, by keys. An empty path or detail is none. -/
def data (fallback : Fallback) : Table :=
  let path := (fallback.path.filter fun path => !path.isEmpty).getD "<memory>"
  let detail := fallback.detail.filter fun detail => !detail.isEmpty
  let known : Table := [("reason", .text fallback.reason), ("path", .text path)]
  let known : Table :=
    known ++ detail.toList.map fun detail => (("detail" : Text), Value.text detail)
  fallback.extras.foldl (fun table entry => table.insert entry.1 entry.2) known

/-- A fallback in words. -/
def message (fallback : Fallback) : Text :=
  "Syntax tree unavailable, using regex alignment (" ++ fallback.reason ++ ")"

end Fallback

/-- Something that has happened. -/
inductive Event where
  /-- A key names no setting. -/
  | settingIgnored (key : Text)
  | linesAligned (count : Nat)
  /-- Comments that no renderer has written go to the end. -/
  | commentsAppended (count : Nat)
  | formattingFailed (path : Option Text) (cause : Text)
  | templateMade (module : Text) (parameters ports : Nat)
  | treeLoaded (path root : Text)
  /-- A program is asked for a tree. -/
  | treeWanted (command : List Text)
  | treeMissing (report : Report)
  | treeMade (source root : Text) (tokens comments : Nat)
  | warned (source warning : Text)
  | fellBack (fallback : Fallback)

namespace Event

/-- The severity of an event. -/
def severity : Event → Severity
  | .settingIgnored _ | .linesAligned _ | .commentsAppended _ | .templateMade _ _ _
  | .treeLoaded _ _ | .treeMade _ _ _ _ => .debug
  | .treeWanted _ | .warned _ _ => .info
  | .treeMissing _ | .fellBack _ => .warning
  | .formattingFailed _ _ => .error

/-- The logger that tells an event. -/
def logger : Event → Text
  | .settingIgnored _ => "hdlalign.config"
  | .linesAligned _ => "hdlalign.formatting.fallback"
  | .commentsAppended _ | .formattingFailed _ _ => "hdlalign.formatting.core"
  | .templateMade _ _ _ => "hdlalign.instance"
  | .treeLoaded _ _ | .treeWanted _ => "hdlalign.syntax.loader"
  | .treeMissing _ | .treeMade _ _ _ _ | .warned _ _ => "hdlalign.cli.commands.format"
  | .fellBack fallback => fallback.logger

/-- The summary of a tree. -/
def summary (root : Text) (tokens comments : Nat) : Value :=
  .table
    [("root", .text root), ("tokens", .int tokens), ("comments", .int comments)]

/-- An event in words. -/
def message : Event → Text
  | .settingIgnored key => "Ignoring unknown alignment option " ++ Text.quoted key
  | .linesAligned count => "Regex alignment of " ++ Text.ofNat count ++ " lines"
  | .commentsAppended count =>
      "Appending " ++ Text.ofNat count ++ " comments not placed by any renderer"
  | .formattingFailed path _ => "Formatting failed for " ++ path.getD "<text>"
  | .templateMade module parameters ports =>
      "Instance template for " ++ module ++ ": " ++ Text.ofNat parameters ++ " parameters, " ++
        Text.ofNat ports ++ " ports"
  | .treeLoaded path root => "Loaded syntax tree " ++ path ++ " (root " ++ root ++ ")"
  | .treeWanted command => "Generating syntax tree: " ++ List.intercalate " " command
  | .treeMissing report => report.format
  | .treeMade source root tokens comments =>
      "Generated tree for " ++ source ++ ": " ++ (summary root tokens comments).shown
  | .warned source warning => source ++ ": " ++ warning
  | .fellBack fallback => fallback.message

/-- The error that an event is about, if there is one. -/
def cause? : Event → Option Text
  | .formattingFailed _ cause => some cause
  | _ => none

/-- What a fallback knows of itself. -/
def fallback? : Event → Option Fallback
  | .fellBack fallback => some fallback
  | _ => none

end Event
end VerilogLayout
