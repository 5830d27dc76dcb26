import ArchivalQuery.Catalog
import ArchivalQuery.Decimal.Unsigned

/-! # Command line arguments

The arguments name a verb, its options, and options that may stand before or after the verb.  An
option takes its value from its own argument or from the next one; it may stand once before the verb
and once after it, and the one after it counts.
-/
namespace ArchivalQuery.CommandLine

inductive LogLevel
  | off | error | warn | info | debug | trace
deriving DecidableEq, Repr

namespace LogLevel

def all : List LogLevel := [off, error, warn, info, debug, trace]

def token : LogLevel → String
  | off => "off"
  | error => "error"
  | warn => "warn"
  | info => "info"
  | debug => "debug"
  | trace => "trace"

def directive (l : LogLevel) : String :=
  ",".intercalate (["arq", "archivum_cli", "archivum_config", "archivum_query"].map fun target =>
    target ++ "=" ++ l.token)

end LogLevel

inductive SettingsStyle
  | toml | json
deriving DecidableEq, Repr

namespace SettingsStyle

def all : List SettingsStyle := [toml, json]

def token : SettingsStyle → String
  | toml => "toml"
  | json => "json"

end SettingsStyle

inductive Command
  | check (input : String) (kind : RequestKind) (collection : Collection)
  | parse (input : String) (kind : RequestKind)
  | compile (input : String) (kind : RequestKind) (collection : Collection) (id : Option String)
  | config (style : SettingsStyle)
deriving DecidableEq, Repr

structure Invocation where
  command : Command
  logLevel : Option LogLevel
  verbose : Bool
  config : Option String
  maxRequestSize : Option UInt64
deriving DecidableEq, Repr

/-- The level in effect: the one named, or the one that verbosity stands for. -/
def Invocation.level (i : Invocation) : LogLevel :=
  i.logLevel.getD (if i.verbose then .debug else .off)

/-- Why the arguments give no run. -/
inductive Stop
  | help | version | usage
deriving DecidableEq, Repr

inductive Verb
  | check | parse | compile | config
deriving DecidableEq, Repr

namespace Verb

def all : List Verb := [check, parse, compile, config]

def token : Verb → String
  | check => "check"
  | parse => "parse"
  | compile => "compile"
  | config => "config"

def ofToken? (t : String) : Option Verb := wordOfToken? all token t

end Verb

/-- What an argument can set. -/
inductive Slot
  | logLevel | verbose | config | maxRequestSize
  | kind | collection | id | style | input
  | help | version
deriving DecidableEq, Repr

namespace Slot

/-- The options that stand before the verb or after it. -/
def common : List Slot := [logLevel, verbose, config, maxRequestSize, help]

def allowed : Option Verb → List Slot
  | none => version :: common
  | some .check => kind :: collection :: common
  | some .parse => kind :: common
  | some .compile => kind :: collection :: id :: common
  | some .config => style :: common

def long : Slot → String
  | logLevel => "log-level"
  | verbose => "verbose"
  | config => "config"
  | maxRequestSize => "max-request-size"
  | kind => "kind"
  | collection => "collection"
  | id => "id"
  | style => "format"
  | input => ""
  | help => "help"
  | version => "version"

def short? : Slot → Option Char
  | logLevel => some 'l'
  | verbose => some 'v'
  | config => some 'C'
  | kind => some 'k'
  | collection => some 'c'
  | style => some 'f'
  | help => some 'h'
  | version => some 'V'
  | maxRequestSize | id | input => none

def takesValue : Slot → Bool
  | verbose | help | version => false
  | _ => true

def ofLong? (verb : Option Verb) (name : String) : Option Slot :=
  (allowed verb).find? (·.long == name)

def ofShort? (verb : Option Verb) (c : Char) : Option Slot :=
  (allowed verb).find? (·.short? == some c)

end Slot

/-- What has been read on one side of the verb. -/
structure Reading where
  logLevel : Option LogLevel := none
  verbose : Bool := false
  config : Option String := none
  maxRequestSize : Option UInt64 := none
  kind : Option RequestKind := none
  collection : Option Collection := none
  id : Option String := none
  style : Option SettingsStyle := none
  input : Option String := none
  /-- A slot whose value is still to come, or is there and not yet examined. -/
  pending : Option (Slot × Option String) := none
  /-- Whether two dashes have ended the options. -/
  trailing : Bool := false

namespace Reading

def fill {α : Type} (place : Option α) (value : Option α) : Except Stop (Option α) :=
  match place, value with
  | none, some v => .ok (some v)
  | _, _ => .error .usage

def path? (text : String) : Option String := if text.isEmpty then none else some text

def assign (r : Reading) (slot : Slot) (text : String) : Except Stop Reading :=
  match slot with
  | .logLevel => do
    return { r with logLevel := ← fill r.logLevel (wordOfToken? LogLevel.all LogLevel.token text) }
  | .config => do return { r with config := ← fill r.config (path? text) }
  | .maxRequestSize => do
    let size := (Decimal.unsigned? UInt64.size text).map UInt64.ofNat
    return { r with maxRequestSize := ← fill r.maxRequestSize size }
  | .kind => do return { r with kind := ← fill r.kind (RequestKind.ofToken? text) }
  | .collection => do return { r with collection := ← fill r.collection (Collection.ofToken? text) }
  | .id => do return { r with id := ← fill r.id (some text) }
  | .style => do
    let style := wordOfToken? SettingsStyle.all SettingsStyle.token text
    return { r with style := ← fill r.style style }
  | .input => do return { r with input := ← fill r.input (path? text) }
  | .verbose | .help | .version => .error .usage

def settle (r : Reading) : Except Stop Reading :=
  match r.pending with
  | none => .ok r
  | some (slot, some text) => { r with pending := none }.assign slot text
  | some (_, none) => .error .usage

def raise (r : Reading) (slot : Slot) : Except Stop Reading := do
  let r ← r.settle
  match slot with
  | .help => .error .help
  | .version => .error .version
  | _ => if r.verbose then .error .usage else return { r with verbose := true }

/-- An option whose value may be in its own argument. -/
def option (r : Reading) (slot : Slot) (value : Option String) : Except Stop Reading := do
  let r ← r.settle
  match value with
  | some text => r.assign slot text
  | none => return { r with pending := some (slot, none) }

/-- An option by its long name, with what stands after an equals sign. -/
def longOption (verb : Option Verb) (r : Reading) (cs : List Char) : Except Stop Reading :=
  let name := String.ofList (cs.takeWhile (· != '='))
  let value := match cs.dropWhile (· != '=') with
    | [] => none
    | _ :: text => some (String.ofList text)
  match Slot.ofLong? verb name with
  | none => .error .usage
  | some slot =>
    if slot.takesValue then r.option slot value
    else if value.isSome then .error .usage
    else r.raise slot

/-- A cluster of options by their letters; the first that takes a value takes the rest of the
cluster, after an equals sign if there is one. -/
def shortOptions (verb : Option Verb) (r : Reading) : List Char → Except Stop Reading
  | [] => .ok r
  | c :: cs =>
    match Slot.ofShort? verb c with
    | none => .error .usage
    | some slot =>
      if slot.takesValue then
        r.option slot (match cs with
          | [] => none
          | '=' :: text => some (String.ofList text)
          | text => some (String.ofList text))
      else do shortOptions verb (← r.raise slot) cs

def positional (verb : Option Verb) (r : Reading) (text : String) : Except Stop Reading := do
  let takesInput := match verb with
    | some .check | some .parse | some .compile => true
    | _ => false
  let r ← r.settle
  if takesInput && r.input.isNone then return { r with pending := some (.input, some text) }
  else .error .usage

def awaits (r : Reading) : Option Slot :=
  match r.pending with
  | some (slot, none) => some slot
  | _ => none

def take (verb : Option Verb) (r : Reading) (arg : String) : Except Stop Reading :=
  if r.trailing then r.positional verb arg
  else match arg.toList with
    | ['-', '-'] => .ok { r with trailing := true }
    | '-' :: '-' :: cs => r.longOption verb cs
    | '-' :: c :: cs => r.shortOptions verb (c :: cs)
    | _ =>
      match r.awaits with
      | some slot => .ok { r with pending := some (slot, some arg) }
      | none => r.positional verb arg

/-- The options of both sides of the verb; those after it count. -/
def merge (after before : Reading) : Reading :=
  { after with
    logLevel := after.logLevel.or before.logLevel
    verbose := after.verbose || before.verbose
    config := after.config.or before.config
    maxRequestSize := after.maxRequestSize.or before.maxRequestSize }

def invocation (verb : Verb) (r : Reading) : Except Stop Invocation := do
  let kind := r.kind.getD .select
  let collection := r.collection.getD .units
  let command ← match verb, r.input with
    | .check, some input => .ok (Command.check input kind collection)
    | .parse, some input => .ok (Command.parse input kind)
    | .compile, some input => .ok (Command.compile input kind collection r.id)
    | .config, _ => .ok (Command.config (r.style.getD .toml))
    | _, none => .error .usage
  return ⟨command, r.logLevel, r.verbose, r.config, r.maxRequestSize⟩

end Reading

def afterVerb (verb : Verb) (args : List String) : Except Stop Reading := do
  let r ← (← args.foldlM (Reading.take (some verb)) {}).settle
  if verb ≠ .config && r.input.isNone then .error .usage
  return r

/-- What the arguments after the word for help ask for. -/
def afterHelp : List String → Stop
  | [] => .help
  | [word] => if word == "help" || (Verb.ofToken? word).isSome then .help else .usage
  | _ => .usage

def beforeVerb (r : Reading) : List String → Except Stop Invocation
  | [] => .error .usage
  | arg :: args =>
    if r.trailing || r.awaits.isSome then next args arg
    else if arg == "help" then .error (afterHelp args)
    else match Verb.ofToken? arg with
      | some verb => do
        let after ← afterVerb verb args
        (after.merge (← r.settle)).invocation verb
      | none => next args arg
where
  /-- Goes on with an argument that is no verb. -/
  next (args : List String) (arg : String) : Except Stop Invocation :=
    match r.take none arg with
    | .error stop => .error stop
    | .ok r => beforeVerb r args

def readArguments (args : List String) : Except Stop Invocation := beforeVerb {} args

end ArchivalQuery.CommandLine
