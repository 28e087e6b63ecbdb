import Firestorm.Target

/-!
# Options of the command line

An argument is a switch, a parameter with its value, or the input. A switch or a parameter has a
short name of one letter behind a hyphen, or a long name behind two, or both. Short switches can
share one hyphen. The value of a parameter follows as the next argument, or in the same one: behind
a long name and an equals sign, or right behind a short name, where an equals sign may stand. Two
hyphens alone end the options.

## Main definitions

* `CommandLine.Switch`, `CommandLine.Parameter`, `CommandLine.UsageError`, `CommandLine.settings`,
  `CommandLine.Options`, `CommandLine.Request.ofArguments`.
-/

namespace Firestorm.CommandLine

/-- What is on or off. -/
inductive Switch
  | strip
  | verbose
  | dump
  | interpret
  | leaks
  | help
  | version
deriving Repr, DecidableEq, Inhabited

/-- What takes a value. -/
inductive Parameter
  | output
  | target
  | includeDirectory
  | argument
  | heap
deriving Repr, DecidableEq, Inhabited

namespace Switch

/-- All switches. -/
def all : List Switch := [strip, verbose, dump, interpret, leaks, help, version]

/-- The letter of a switch. -/
def short? : Switch → Option Char
  | strip => some 's'
  | verbose => some 'v'
  | dump => none
  | interpret => some 'r'
  | leaks => some 'l'
  | help => some 'h'
  | version => some 'V'

/-- The long name of a switch. -/
def long? : Switch → Option String
  | strip => some "strip"
  | verbose => none
  | dump => some "dump"
  | interpret => some "interpret"
  | leaks => some "leaks"
  | help => some "help"
  | version => some "version"

/-- Whether a switch may be given more than once. -/
def isRepeatable : Switch → Bool
  | verbose => true
  | _ => false

end Switch

namespace Parameter

/-- All parameters. -/
def all : List Parameter := [output, target, includeDirectory, argument, heap]

/-- The letter of a parameter. -/
def short? : Parameter → Option Char
  | output => some 'o'
  | target => some 't'
  | includeDirectory => some 'i'
  | argument => some 'a'
  | heap => none

/-- The long name of a parameter. -/
def long : Parameter → String
  | output => "output"
  | target => "target"
  | includeDirectory => "include"
  | argument => "arg"
  | heap => "heap"

/-- Whether a parameter may be given more than once. -/
def isRepeatable : Parameter → Bool
  | includeDirectory | argument => true
  | _ => false

/-- Whether the value of a parameter may look like an option. -/
def takesAnything : Parameter → Bool
  | argument => true
  | _ => false

end Parameter

/-- Why arguments cannot be understood. -/
inductive UsageError
  | unknownOption (text : String)
  | missingValue (parameter : Parameter)
  | unexpectedValue (switch : Switch)
  | repeatedSwitch (switch : Switch)
  | repeatedParameter (parameter : Parameter)
  | missingInput
  | unexpectedInput (text : String)
  | missingOutput
  | leaksWithoutInterpret
deriving Repr, DecidableEq, Inhabited

/-- A setting that arguments make. -/
inductive Setting
  | switch (switch : Switch)
  | parameter (parameter : Parameter) (value : String)
  | input (text : String)
deriving Repr, DecidableEq, Inhabited

/-- What one argument says: settings, settings before a parameter whose value comes next, or the end
of the options. -/
inductive Reading
  | settings (made : List Setting)
  | awaiting (made : List Setting) (parameter : Parameter)
  | endOfOptions
deriving Repr, DecidableEq, Inhabited

/-- What an argument with a long name says. -/
def readLong (text : List Char) : Except UsageError Reading :=
  let name := String.ofList (text.takeWhile (· != '='))
  let value? := match text.dropWhile (· != '=') with
    | [] => none
    | _ :: value => some (String.ofList value)
  match Switch.all.find? (·.long? == some name), Parameter.all.find? (·.long == name), value? with
  | some switch, _, none => .ok (.settings [.switch switch])
  | some switch, _, some _ => .error (.unexpectedValue switch)
  | none, some parameter, some value => .ok (.settings [.parameter parameter value])
  | none, some parameter, none => .ok (.awaiting [] parameter)
  | none, none, _ => .error (.unknownOption ("--" ++ name))

/-- What the letters of an argument say, behind the settings that were made by letters before. -/
def readShort (made : List Setting) : List Char → Except UsageError Reading
  | [] => .ok (.settings made)
  | c :: rest =>
    match Switch.all.find? (·.short? == some c), Parameter.all.find? (·.short? == some c) with
    | some switch, _ => readShort (made ++ [.switch switch]) rest
    | none, some parameter =>
      match rest with
      | [] => .ok (.awaiting made parameter)
      | '=' :: value => .ok (.settings (made ++ [.parameter parameter (String.ofList value)]))
      | value => .ok (.settings (made ++ [.parameter parameter (String.ofList value)]))
    | none, none => .error (.unknownOption (String.ofList ['-', c]))

/-- What an argument says. -/
def readArgument (text : String) : Except UsageError Reading :=
  match text.toList with
  | ['-', '-'] => .ok .endOfOptions
  | '-' :: '-' :: name => readLong name
  | '-' :: c :: letters => readShort [] (c :: letters)
  | _ => .ok (.settings [.input text])

/-- Whether an argument looks like an option. -/
def isOption (text : String) : Bool :=
  match text.toList with
  | '-' :: _ :: _ => true
  | _ => false

/-- The settings that arguments make, in order. -/
def settings : List String → Except UsageError (List Setting)
  | [] => .ok []
  | text :: rest =>
    match readArgument text with
    | .error e => .error e
    | .ok .endOfOptions => .ok (rest.map .input)
    | .ok (.settings made) => (settings rest).map (made ++ ·)
    | .ok (.awaiting made parameter) =>
      match rest with
      | [] => .error (.missingValue parameter)
      | value :: rest =>
        if parameter.takesAnything || !isOption value then
          (settings rest).map (made ++ [.parameter parameter value] ++ ·)
        else .error (.missingValue parameter)

/-- What is asked for. -/
structure Options where
  input : String
  output? : Option String
  target : String
  includeDirectories : List String
  arguments : List String
  heap : String
  strip : Bool
  dump : Bool
  interpret : Bool
  leaks : Bool
deriving Repr, DecidableEq, Inhabited

/-- What arguments ask for: a run with options, or a text about the program. -/
inductive Request
  | run (options : Options)
  | help
  | version
deriving Repr, DecidableEq, Inhabited

namespace Setting

/-- The values of a parameter. -/
def values (p : Parameter) (all : List Setting) : List String :=
  all.filterMap fun
    | .parameter q value => if q = p then some value else none
    | _ => none

/-- The inputs. -/
def inputs (all : List Setting) : List String :=
  all.filterMap fun
    | .input text => some text
    | _ => none

/-- Whether a switch is given. -/
def isOn (s : Switch) (all : List Setting) : Bool :=
  all.contains (.switch s)

/-- Nothing is given more often than it may be. -/
def checkRepeats (all : List Setting) : Except UsageError Unit := do
  for s in Switch.all do
    if !s.isRepeatable && 1 < all.count (.switch s) then throw (.repeatedSwitch s)
  for p in Parameter.all do
    if !p.isRepeatable && 1 < (values p all).length then throw (.repeatedParameter p)

end Setting

namespace Options

/-- The target if none is given. -/
def defaultTarget : String := (Target.native .x86).name

/-- The number of cells of the heap if none is given. -/
def defaultHeap : String := "1024"

/-- The options that settings give. -/
def ofSettings (all : List Setting) : Except UsageError Options := do
  Setting.checkRepeats all
  let input ← match Setting.inputs all with
    | [] => throw .missingInput
    | [input] => pure input
    | _ :: extra :: _ => throw (.unexpectedInput extra)
  let output? := (Setting.values .output all).head?
  let interpret := Setting.isOn .interpret all
  let leaks := Setting.isOn .leaks all
  if output?.isNone && !interpret then throw .missingOutput
  if leaks && !interpret then throw .leaksWithoutInterpret
  return { input, output?, interpret, leaks,
           target := (Setting.values .target all).head?.getD defaultTarget,
           includeDirectories := Setting.values .includeDirectory all,
           arguments := Setting.values .argument all,
           heap := (Setting.values .heap all).head?.getD defaultHeap,
           strip := Setting.isOn .strip all,
           dump := Setting.isOn .dump all }

end Options

/-- What arguments ask for. -/
def Request.ofArguments (arguments : List String) : Except UsageError Request := do
  let all ← settings arguments
  if Setting.isOn .help all then return .help
  if Setting.isOn .version all then return .version
  return .run (← Options.ofSettings all)

end Firestorm.CommandLine
