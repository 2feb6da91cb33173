/-
  WHAT THE COMMAND LINE ANSWERS.

  A block is read, expanded and folded as asked, and written with its selectors, if there are any.  A
  value that cannot be expanded ends the program with its message.
-/
import CssShorthand.CommandLine.Invocation
import CssShorthand.RuleSet

namespace CssShorthand

namespace CommandLine

/-- The name of the program. -/
def programName : String := "cssfold"

/-- What is said of the version. -/
def versionText : String := programName ++ " version 1.0.0\n"

/-- What a program leaves behind. -/
structure Response where
  exitCode : Nat
  output : Text
  errors : String

namespace Options

/-- The level from which on notices are shown. -/
def level (o : Options) : Level :=
  if o.debug then .debug else if o.verbose then .info else .warning

/-- The notices that are shown, a line each. -/
def shown (o : Options) (notices : List Notice) : String :=
  if o.quiet then ""
  else String.join ((Notice.atLeast o.level notices).map fun n => n.line ++ "\n")

/-- The work that is asked for. -/
def work (o : Options) : Edit Unit := do
  if o.expand then Edit.expandAll
  if o.contract then Edit.foldAll

/-- The selectors and declarations as they are written. -/
def written (o : Options) (selectors : List Text) (s : Store) : Text :=
  let declarations := s.text o.forceImportant
  let rule :=
    if selectors.isEmpty then declarations
    else RuleSet.ruleText (Text.join [','] selectors) declarations
  rule ++ ['\n']

/-- The answer for a block. -/
def respond (o : Options) (block : Text) : Response :=
  let parsed := Block.parse block
  let done := o.work.exec ⟨parsed.1, parsed.2⟩
  let log := o.shown done.2.notices
  match done.1 with
  | .ok _ => ⟨0, o.written (selectorTexts (o.selector.getD [])) done.2.store, log⟩
  | .error e => ⟨1, [], log ++ programName ++ ": error: " ++ e.message ++ "\n"⟩

end Options

end CommandLine

end CssShorthand
