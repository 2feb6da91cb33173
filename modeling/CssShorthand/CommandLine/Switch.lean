/-
  THE SWITCHES OF THE COMMAND LINE.
-/
import CssShorthand.Text.Basic

namespace CssShorthand

/-- A switch of the command line. -/
inductive Switch where
  | help
  | selector
  | expand
  | contract
  | forceImportant
  | verbose
  | debug
  | quiet
  | version
  deriving Repr, DecidableEq

namespace Switch

/-- All switches, in the order in which they are documented. -/
def all : List Switch :=
  [.help, .selector, .expand, .contract, .forceImportant, .verbose, .debug, .quiet, .version]

/-- How a switch is written: short, long or both. -/
def spellings : Switch → List String
  | .help => ["-h", "--help"]
  | .selector => ["-s", "--selector"]
  | .expand => ["-e", "--expand"]
  | .contract => ["-c", "--contract"]
  | .forceImportant => ["--force-important"]
  | .verbose => ["-v", "--verbose"]
  | .debug => ["-d", "--debug"]
  | .quiet => ["-q", "--quiet"]
  | .version => ["--version"]

/-- The name of the value that a switch takes, if it takes one. -/
def valueName? : Switch → Option String
  | .selector => some "selector"
  | _ => none

/-- Whether a switch takes a value. -/
def takesValue (s : Switch) : Bool := s.valueName?.isSome

/-- What a switch is for. -/
def purpose : Switch → String
  | .help => "Show this text and exit"
  | .selector =>
    "Comma-separated selectors of the rule, only declarations are printed when not given"
  | .expand => "Split shorthand properties into longhand properties"
  | .contract =>
    "Fold longhand properties into shorthand properties, after expansion when both are asked"
  | .forceImportant => "Mark all the declarations as important"
  | .verbose => "Show warnings and information messages"
  | .debug => "Show debugging messages"
  | .quiet => "Hide logging messages"
  | .version => "Print cssfold’s version number and exit"

/-- A spelling with the value that belongs to it. -/
def withValue (s : Switch) (spelling : String) : String :=
  match s.valueName? with
  | some name => spelling ++ " <" ++ name ++ ">"
  | none => spelling

/-- One entry of the documentation. -/
def entry (title purpose : String) : String :=
  ".. option:: " ++ title ++ "\n\n  " ++ purpose ++ ".\n\n"

/-- The documentation of the operand and of all switches but that for help. -/
def documentation : String :=
  entry "input" "Filename of the CSS declarations, or - for stdin" ++
    String.join ((all.filter (· != .help)).map fun s =>
      entry (String.intercalate ", " (s.spellings.map s.withValue)) s.purpose)

/-- The switch that is written exactly so. -/
def ofSpelling? (t : Text) : Option Switch := all.find? fun s => s.spellings.any fun w => w.toList == t

/-- The switches of which a spelling begins so. -/
def beginningWith (t : Text) : List Switch :=
  all.filter fun s => s.spellings.any fun w => t.isPrefixOf w.toList

end Switch

end CssShorthand
