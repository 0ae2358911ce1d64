/-
The options of the command line. Arguments are read from left to right,
and the first thing wrong with them, or a request for the version or the
help text, ends the reading.

An option takes its value from behind an equals sign or from the next
argument, which must not look like an option then. Globs and rules may
be given several times, everything else once.
-/
import EarlyReturn.Execution

namespace EarlyReturn.CommandLine

/-- How much is logged; it does not bear on the output. -/
inductive LogLevel where
  | trace
  | debug
  | info
  | warn
  | error
  deriving DecidableEq, Repr

def LogLevel.ofName? (name : Text) : Option LogLevel :=
  if name = "trace".toList then some .trace
  else if name = "debug".toList then some .debug
  else if name = "info".toList then some .info
  else if name = "warn".toList then some .warn
  else if name = "error".toList then some .error
  else none

def formatOfName? (name : Text) : Option Format :=
  if name = "text".toList then some .text
  else if name = "json".toList then some .json
  else if name = "diff".toList then some .diff
  else none

/-- The options read so far. -/
structure Options where
  root : Option Text := none
  patterns : List Text := []
  shapes : List Shape := []
  dryRun : Bool := false
  format : Option Format := none
  logLevel : Option LogLevel := none
  deriving DecidableEq, Repr

/-- What the arguments ask for. -/
inductive Request where
  | run (options : Options)
  | version
  | help
  deriving DecidableEq, Repr

/-- The options that take a value. -/
inductive Setting where
  | root
  | pattern
  | rule
  | format
  | logLevel
  deriving DecidableEq, Repr

def Setting.ofName? (name : Text) : Option Setting :=
  if name = "root".toList then some .root
  else if name = "pattern".toList then some .pattern
  else if name = "rule".toList then some .rule
  else if name = "format".toList then some .format
  else if name = "log-level".toList then some .logLevel
  else none

namespace Options

/-- Takes in the value of an option; nothing if the value is no good or
the option was given before. -/
def set? (options : Options) (setting : Setting) (value : Text) :
    Option Options :=
  match setting with
  | .root =>
    if options.root.isSome || value.isEmpty then none
    else some { options with root := some value }
  | .pattern => some { options with patterns := options.patterns ++ [value] }
  | .rule =>
    (Shape.ofName? value).map fun shape =>
      { options with shapes := options.shapes ++ [shape] }
  | .format =>
    if options.format.isSome then none
    else (formatOfName? value).map fun format =>
      { options with format := some format }
  | .logLevel =>
    if options.logLevel.isSome then none
    else (LogLevel.ofName? value).map fun level =>
      { options with logLevel := some level }

/-- The settings that the options describe. -/
def settings (options : Options) : Settings :=
  let settings := Settings.default
  let settings := match options.root with
    | some root => settings.withRoot root.bytes
    | none => settings
  ((settings.withPatterns options.patterns).withShapes
    options.shapes).withDryRun options.dryRun

end Options

/-- An argument as it looks before its meaning is known. -/
inductive Argument where
  /-- Two dashes and nothing else. -/
  | separator
  /-- `--name` or `--name=value`. -/
  | long (name : Text) (value? : Option Text)
  /-- A dash and one or more letters. -/
  | short (letter : Char)
  /-- Anything else, a single dash included. -/
  | plain (text : Text)
  deriving DecidableEq, Repr

def Argument.ofText (text : Text) : Argument :=
  match text with
  | ['-', '-'] => .separator
  | '-' :: '-' :: rest =>
    match rest.dropWhile (· ≠ '=') with
    | [] => .long rest none
    | _ :: value => .long (rest.takeWhile (· ≠ '=')) (some value)
  | '-' :: letter :: _ => .short letter
  | _ => .plain text

/-- Reads the arguments; nothing if they are not as they should be. -/
def read? : List Text → Options → Option Request
  | [], options => some (.run options)
  | argument :: rest, options =>
    match Argument.ofText argument with
    | .separator => if rest.isEmpty then some (.run options) else none
    | .plain _ => none
    | .short letter =>
      if letter = 'V' then some .version else if letter = 'h' then some .help
      else none
    | .long name (some value) =>
      match Setting.ofName? name with
      | some setting =>
        match options.set? setting value with
        | some options => read? rest options
        | none => none
      | none => none
    | .long name none =>
      if name = "version".toList then some .version
      else if name = "help".toList then some .help
      else if name = "dry-run".toList then
        if options.dryRun then none
        else read? rest { options with dryRun := true }
      else
        match Setting.ofName? name, rest with
        | some setting, value :: rest =>
          match Argument.ofText value with
          | .plain _ =>
            match options.set? setting value with
            | some options => read? rest options
            | none => none
          | _ => none
        | _, _ => none

end EarlyReturn.CommandLine
