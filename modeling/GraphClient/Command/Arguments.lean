import GraphClient.Project.Config

/-!
# Arguments

A command line names a verb with paths and settings. General settings may stand before the verb as well
as behind it, where they count more.
-/

namespace GraphClient

/-- The options of the command line. -/
inductive Setting
  | verbose
  | quiet
  | config
  | format
  | strict
  | target
  | package
  | output
  | dryRun
  | help
  | version
deriving DecidableEq

/-- What a command does. -/
inductive Verb
  | check
  | generate
  | printSchema
  | version
deriving DecidableEq

/-- Where an argument stands: before the verb or behind it. -/
inductive Level
  | top
  | verb (verb : Verb)
deriving DecidableEq

/-- Why no command is run. -/
inductive Refusal
  | help
  | version
  | malformed
deriving DecidableEq

def Refusal.exitCode : Refusal → Nat
  | .help => 0
  | .version => 0
  | .malformed => 2

namespace Verb

def text : Verb → String
  | .check => "check"
  | .generate => "generate"
  | .printSchema => "print-schema"
  | .version => "version"

def all : List Verb := [.check, .generate, .printSchema, .version]

def ofText? (name : String) : Option Verb := all.find? fun verb => verb.text == name

def takesPaths : Verb → Bool
  | .version => false
  | _ => true

end Verb

namespace Setting

def all : List Setting :=
  [.verbose, .quiet, .config, .format, .strict, .target, .package, .output, .dryRun, .help,
    .version]

def text : Setting → String
  | .verbose => "verbose"
  | .quiet => "quiet"
  | .config => "config"
  | .format => "format"
  | .strict => "strict"
  | .target => "target"
  | .package => "package"
  | .output => "output"
  | .dryRun => "dry-run"
  | .help => "help"
  | .version => "version"

def letter? : Setting → Option Char
  | .verbose => some 'v'
  | .quiet => some 'q'
  | .config => some 'c'
  | .target => some 't'
  | .package => some 'p'
  | .output => some 'o'
  | .help => some 'h'
  | .version => some 'V'
  | _ => none

def takesValue : Setting → Bool
  | .config => true
  | .format => true
  | .target => true
  | .package => true
  | .output => true
  | _ => false

def isAllowed (level : Level) : Setting → Bool
  | .strict => level = .verb .check
  | .target => level = .verb .generate
  | .package => level = .verb .generate
  | .output => level = .verb .generate
  | .dryRun => level = .verb .generate
  | .version => level = .top
  | _ => true

def named? (level : Level) (name : String) : Option Setting :=
  all.find? fun setting => setting.isAllowed level && setting.text == name

def lettered? (level : Level) (letter : Char) : Option Setting :=
  all.find? fun setting => setting.isAllowed level && setting.letter? == some letter

end Setting

/-- How problems are reported. -/
inductive Format
  | human
  | json
deriving DecidableEq

def Format.ofText? (name : String) : Option Format :=
  if name = "human" then some .human else if name = "json" then some .json else none

def Language.named? (name : String) : Option Language :=
  Language.all.find? fun language => language.aliases.contains name

def Setting.isValid (value : String) : Setting → Bool
  | .config => value != ""
  | .output => value != ""
  | .format => (Format.ofText? value).isSome
  | .target => (Language.named? value).isSome
  | _ => true

/-- The arguments read so far. -/
structure Given where
  settings : List (Setting × String) := []
  paths : List String := []

namespace Given

def value? (given : Given) (setting : Setting) : Option String :=
  (given.settings.find? fun entry => entry.1 == setting).map Prod.snd

def has (given : Given) (setting : Setting) : Bool := (given.value? setting).isSome

/-- Adds a setting, which is given only once. Help and version end the reading. -/
def set (given : Given) (setting : Setting) (value : String) : Except Refusal Given :=
  match setting with
  | .help => .error .help
  | .version => .error .version
  | setting =>
    if given.has setting || !setting.isValid value then .error .malformed
    else .ok { given with settings := (setting, value) :: given.settings }

def addPath (given : Given) (path : String) : Except Refusal Given :=
  if path = "" then .error .malformed else .ok { given with paths := path :: given.paths }

def before (given above : Given) : Given :=
  { given with settings := given.settings ++ above.settings }

end Given

/-- What an argument looks like. -/
inductive Shape
  | divider
  | long (name : String) (value : Option String)
  | letters (letters : List Char)
  | word

/-- What an argument looks like. A dash alone is a word. -/
def Shape.ofText (argument : String) : Shape :=
  match argument.toList with
  | ['-', '-'] => .divider
  | '-' :: '-' :: rest =>
    let name := String.ofList (rest.takeWhile (· != '='))
    match rest.dropWhile (· != '=') with
    | _ :: value => .long name (some (String.ofList value))
    | [] => .long name none
  | '-' :: c :: rest => .letters (c :: rest)
  | _ => .word

/-- Letters behind a dash. The first one that has a value takes the letters behind it, or is left for
the next argument. -/
def readLetters (level : Level) : List Char → Given → Except Refusal (Given × Option Setting)
  | [], given => .ok (given, none)
  | letter :: rest, given =>
    match Setting.lettered? level letter with
    | none => .error .malformed
    | some setting =>
      if setting.takesValue then
        match rest with
        | [] => .ok (given, some setting)
        | '=' :: value => (given.set setting (String.ofList value)).map (·, none)
        | value => (given.set setting (String.ofList value)).map (·, none)
      else
        match given.set setting "" with
        | .ok given => readLetters level rest given
        | .error refusal => .error refusal

/-- A long name. One that has a value and none behind it is left for the next argument. -/
def readLong (level : Level) (name : String) (value : Option String) (given : Given) :
    Except Refusal (Given × Option Setting) :=
  match Setting.named? level name, value with
  | none, _ => .error .malformed
  | some setting, some value =>
    if setting.takesValue then (given.set setting value).map (·, none) else .error .malformed
  | some setting, none =>
    if setting.takesValue then .ok (given, some setting)
    else (given.set setting "").map (·, none)

/-- The next setting of an argument, which may be waiting for its value. -/
def readSetting (level : Level) (argument : String) (given : Given) :
    Except Refusal (Given × Option Setting) :=
  match Shape.ofText argument with
  | .long name value => readLong level name value given
  | .letters letters => readLetters level letters given
  | _ => .error .malformed

def readValue (setting : Setting) (argument : String) (given : Given) : Except Refusal Given :=
  match Shape.ofText argument with
  | .word => given.set setting argument
  | _ => .error .malformed

/-- The arguments behind a verb. `waiting` is a setting without its value. -/
def readVerb (verb : Verb) : Option Setting → List String → Given → Except Refusal Given
  | none, [], given => .ok given
  | some _, [], _ => .error .malformed
  | some setting, argument :: rest, given => do
    readVerb verb none rest (← readValue setting argument given)
  | none, argument :: rest, given =>
    match Shape.ofText argument with
    | .divider =>
      if verb.takesPaths || rest.isEmpty then rest.foldlM Given.addPath given
      else .error .malformed
    | .word => do
      if verb.takesPaths then readVerb verb none rest (← given.addPath argument)
      else .error .malformed
    | _ => do
      let (given, waiting) ← readSetting (.verb verb) argument given
      readVerb verb waiting rest given

/-- The names behind the word that asks for help: those of a verb, if any. -/
def readHelp (names : List String) : Refusal :=
  match names with
  | [] => .help
  | [name] => if name = "help" || (Verb.ofText? name).isSome then .help else .malformed
  | _ => .malformed

/-- All arguments: the verb, and what was given before and behind it. What was given before is `held`
until another setting follows or the verb is read, so that a request for help comes first. -/
def readTop : Option Setting → List String → (held : Except Refusal Given) →
    Except Refusal (Verb × Given)
  | _, [], _ => .error .malformed
  | some setting, argument :: rest, held => do
    match Shape.ofText argument with
    | .word => readTop none rest ((← held).set setting argument)
    | _ => .error .malformed
  | none, argument :: rest, held =>
    match Shape.ofText argument with
    | .divider => .error .malformed
    | .word =>
      if argument = "help" then .error (readHelp rest)
      else
        match Verb.ofText? argument with
        | none => .error .malformed
        | some verb => do
          let given ← readVerb verb none rest {}
          return (verb, given.before (← held))
    | _ => do
      let (given, waiting) ← readSetting .top argument (← held)
      readTop waiting rest (.ok given)

/-- A command with all its options. -/
structure Command where
  verb : Verb
  format : Format := .human
  quiet : Bool := false
  config : Option Path := none
  overrides : Overrides := {}
  strict : Bool := false
  dryRun : Bool := false

namespace Command

def ofGiven (verb : Verb) (given : Given) : Command where
  verb := verb
  format := ((given.value? .format).bind Format.ofText?).getD .human
  quiet := given.has .quiet
  config := (given.value? .config).map .mk
  overrides := {
    inputs := given.paths.reverse.map .mk
    target := (given.value? .target).bind Language.named?
    package := given.value? .package
    output := (given.value? .output).map .mk }
  strict := given.has .strict
  dryRun := given.has .dryRun

/-- **Reads the arguments of a command.** -/
def parse (arguments : List String) : Except Refusal Command := do
  let (verb, given) ← readTop none arguments (.ok {})
  return ofGiven verb given

end Command

end GraphClient
