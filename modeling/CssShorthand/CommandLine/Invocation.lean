/-
  READING THE COMMAND LINE.

  An argument is a switch, an operand, the divider `--` after which all is operand, or a switch that is
  not known.  Long switches may be cut short as long as only one fits.  A text may be attached to a
  switch after `=`, or directly to a short one: it is the value of the switch, or, where a short switch
  takes none, more short switches.

  Mistakes count only at the end of the line, but for what is attached in vain and values that are
  missing: so a switch that answers at once, such as `--version`, answers also where an unknown one
  stands on the line.
-/
import CssShorthand.CommandLine.Switch
import CssShorthand.Text.Digit

namespace CssShorthand

namespace CommandLine

/-- An argument of the command line. -/
inductive Argument where
  | operand (t : Text)
  | divider
  | switch (s : Switch) (isShort : Bool) (attached : Option Text)
  | unknown
  deriving Repr, DecidableEq

/-- What stands before the first `=`, and what after it. -/
def splitAtEquals : Text → Text × Option Text
  | [] => ([], none)
  | c :: t =>
    if c = '=' then ([], some t)
    else
      let more := splitAtEquals t
      (c :: more.1, more.2)

/-- Whether a text is a negative number: such an argument is an operand.  A newline at its end does not
    count. -/
def isNegativeNumber (t : Text) : Bool :=
  let body := match t.reverse with
    | '\n' :: r => r.reverse
    | _ => t
  match body with
  | '-' :: r =>
    match r.dropWhile Text.isDigit with
    | [] => !r.isEmpty
    | '.' :: f => !f.isEmpty && f.all Text.isDigit
    | _ => false
  | _ => false

/-- What an argument is that no switch begins. -/
def unmatched (t : Text) : Argument :=
  if isNegativeNumber t || t.contains ' ' then .operand t else .unknown

/-- What an argument of two dashes and more is; none if several switches fit. -/
def classifyLong (t : Text) : Option Argument :=
  let cut := splitAtEquals t
  match Switch.beginningWith cut.1 with
  | [] => some (unmatched t)
  | [s] => some (.switch s false cut.2)
  | _ => none

/-- What an argument is, before any divider; none if several switches fit. -/
def classify (t : Text) : Option Argument :=
  match t with
  | ['-'] => some (.operand t)
  | '-' :: c :: r =>
    match Switch.ofSpelling? t with
    | some s => some (.switch s (c != '-') none)
    | none =>
      let cut := splitAtEquals t
      match cut.2, Switch.ofSpelling? cut.1 with
      | some text, some s => some (.switch s (c != '-') (some text))
      | _, _ =>
        if c = '-' then classifyLong t
        else match Switch.ofSpelling? ['-', c] with
          | some s => some (.switch s true (some r))
          | none => some (unmatched t)
  | t => some (.operand t)

/-- What the arguments are; none if several switches fit one of them. -/
def classifyAll : List Text → Option (List Argument)
  | [] => some []
  | t :: ts =>
    if t = ['-', '-'] then some (.divider :: ts.map .operand)
    else
      match classify t, classifyAll ts with
      | some a, some as => some (a :: as)
      | _, _ => none

/-! ## Switches written together -/

/-- The switches of one argument: those that are complete, with their values, and the last one if it is
    still to find its value. -/
structure Group where
  complete : List (Switch × Text)
  pending : Option Switch
  deriving Repr, DecidableEq

/-- Puts a complete switch in front. -/
def Group.push (s : Switch) (g : Group) : Group := { g with complete := (s, []) :: g.complete }

/-- Reads what is attached to a switch: its value, or more short switches; none if it is neither. -/
def groupOf (s : Switch) (isShort : Bool) : Text → Option Group
  | [] => if s.takesValue then some ⟨[(s, [])], none⟩ else none
  | c :: t =>
    if s.takesValue then some ⟨[(s, c :: t)], none⟩
    else if !isShort then none
    else match Switch.ofSpelling? ['-', c] with
      | none => none
      | some next =>
        match t with
        | [] => some ⟨[(s, [])], some next⟩
        | d :: t => (groupOf next true (d :: t)).map (.push s)

/-- The switches of an argument. -/
def group (s : Switch) (isShort : Bool) (attached : Option Text) : Option Group :=
  match attached with
  | none => some ⟨[], some s⟩
  | some t => groupOf s isShort t

/-! ## Running the groups -/

example : groupOf .expand true "=c".toList = none := by decide +kernel
example : groupOf .expand true "cs=p".toList =
    some ⟨[(.expand, []), (.contract, []), (.selector, "=p".toList)], none⟩ := by decide +kernel

/-! ## The whole line -/

/-- What is asked for. -/
structure Options where
  selector : Option Text
  expand : Bool
  contract : Bool
  forceImportant : Bool
  verbose : Bool
  debug : Bool
  quiet : Bool
  deriving Repr, DecidableEq

/-- Nothing asked for. -/
def Options.initial : Options := ⟨none, false, false, false, false, false, false⟩

/-- What a command line asks for. -/
inductive Invocation where
  | run (input : Text) (options : Options)
  | help
  | version
  | misuse
  deriving Repr, DecidableEq

/-- What is read so far. -/
structure Progress where
  options : Options
  input : Option Text
  hasExtra : Bool

/-- Takes a switch in, with its value. -/
def Progress.take (p : Progress) (value : Text) : Switch → Except Invocation Progress
  | .help => .error .help
  | .version => .error .version
  | .selector => .ok { p with options := { p.options with selector := some value } }
  | .expand => .ok { p with options := { p.options with expand := true } }
  | .contract => .ok { p with options := { p.options with contract := true } }
  | .forceImportant => .ok { p with options := { p.options with forceImportant := true } }
  | .verbose => .ok { p with options := { p.options with verbose := true } }
  | .debug => .ok { p with options := { p.options with debug := true } }
  | .quiet => .ok { p with options := { p.options with quiet := true } }

/-- Takes switches in turn. -/
def Progress.takeAll (p : Progress) (switches : List (Switch × Text)) : Except Invocation Progress :=
  switches.foldlM (fun p s => p.take s.2 s.1) p

/-- The invocation at the end of the line: one operand and nothing more. -/
def Progress.finish (p : Progress) : Invocation :=
  match p.input, p.hasExtra with
  | some input, false => .run input p.options
  | _, _ => .misuse

/-- An argument that has no place. -/
def Progress.extra (p : Progress) : Progress := { p with hasExtra := true }

/-- Takes the switches of a group, the last of them with its value. -/
def Progress.takeGroup (p : Progress) (g : Group) (value : Text) : Except Invocation Progress :=
  p.takeAll (g.complete ++ (g.pending.map fun s => (s, value)).toList)

/-- Reads arguments on. -/
def readArguments (p : Progress) : List Argument → Invocation
  | [] => p.finish
  | .unknown :: as => readArguments p.extra as
  | .operand t :: as =>
    if p.input.isSome then readArguments p.extra as
    else match as with
      | .divider :: as => readArguments { p with input := some t } as
      | as => readArguments { p with input := some t } as
  | .divider :: as =>
    if p.input.isSome then readArguments p.extra as
    else match as with
      | .operand t :: as => readArguments { p with input := some t } as
      | as => readArguments p.extra as
  | .switch s isShort attached :: as =>
    match group s isShort attached with
    | none => .misuse
    | some g =>
      if g.pending.any (·.takesValue) then
        match as with
        | .operand t :: as =>
          match p.takeGroup g t with
          | .ok p => readArguments p as
          | .error i => i
        | _ => .misuse
      else match p.takeGroup g [] with
        | .ok p => readArguments p as
        | .error i => i

/-- What a command line asks for. -/
def Invocation.ofArguments (arguments : List Text) : Invocation :=
  match classifyAll arguments with
  | some as => readArguments ⟨.initial, none, false⟩ as
  | none => .misuse

end CommandLine

end CssShorthand
