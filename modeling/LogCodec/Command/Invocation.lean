import LogCodec.Command.Argument
import LogCodec.Command.Basic

/-! # Invocations

    The first word of the arguments names a command, and what follows belongs
    to the command.  `Invocation.ofArguments` says what the program is asked
    for.  Arguments are taken from left to right: whatever is wrong, or asks for
    help, decides as soon as it is met.  That something is missing is found
    only at the end. -/

namespace LogCodec

/-- What the program is asked for. -/
inductive Invocation where
  | run (command : Command) (summary : Bool)
  | showHelp
  | showVersion
  | refused (fault : UsageFault)
deriving DecidableEq

namespace Invocation

/-! ### Kinds of commands -/

/-- What kind of command is meant. -/
inductive Kind where
  | encode
  | decode
  | search
deriving DecidableEq

namespace Kind

/-- The kind of command with this name. -/
def ofName? : String → Option Kind
  | "encode" => some encode
  | "decode" => some decode
  | "search" => some search
  | _ => none

/-- The settings that are known after the name of the command. -/
def known : Kind → List Setting
  | encode => [.help, .summary, .fourByte, .reference, .pattern, .patternSyntax, .timeZone]
  | decode => [.help, .summary, .epoch]
  | search => [.help, .summary, .ignoreCase, .after, .before, .epoch]

/-- How many words there may be. -/
def wordsMax? : Kind → Option Nat
  | encode => some 2
  | decode => some 1
  | search => none

end Kind

/-- The settings that are known before the name of the command. -/
def known : List Setting := [.help, .version, .summary]

/-! ### What was given -/

/-- The settings and words that were given. -/
structure Given where
  /-- The settings and their values, the last one first. -/
  settings : List (Setting × String)
  /-- The words, the last one first. -/
  words : List String
deriving DecidableEq

namespace Given

def empty : Given := ⟨[], []⟩

def has (g : Given) (s : Setting) : Bool := g.settings.any (·.1 = s)

/-- The value of a setting. -/
def value? (g : Given) (s : Setting) : Option String := g.settings.lookup s

/-- The value of a setting that is a text. -/
def text (g : Given) (s : Setting) : String := (g.value? s).getD ""

/-- The value of a setting that is a number. -/
def number? (g : Given) (s : Setting) : Option Int64 :=
  (g.value? s).bind fun value => (readNumber value).toOption

/-- How timestamps are to be written. -/
def style (g : Given) : TextLog.TimestampStyle := if g.has .epoch then .epoch else .date

/-- Adds a setting, unless it decides what the program does. -/
def addSetting (g : Given) (s : Setting) (value : String) : Except Invocation Given :=
  let added := { g with settings := (s, value) :: g.settings }
  if s = .help then .error .showHelp
  else if s = .version then .error .showVersion
  else if g.has s then .error (.refused (.repeated s))
  else if s.need = .number then
    match readNumber value with
    | .ok _ => .ok added
    | .error cause => .error (.refused (.notANumber s value cause))
  else .ok added

/-- Adds a word. -/
def addWord (g : Given) (kind : Kind) (word : String) : Except Invocation Given :=
  if kind.wordsMax? = some g.words.length then .error (.refused (.unexpectedWord word))
  else .ok { g with words := word :: g.words }

/-- Adds an item of the arguments. -/
def add (kind : Kind) (g : Given) : Argument.Item → Except Invocation Given
  | .setting s value => g.addSetting s value
  | .word word _ => g.addWord kind word
  | .wordsOnly => .ok g
  | .invalid fault => .error (.refused fault)

/-- The command of a kind that was given, if nothing is missing. -/
def command (g : Given) : Kind → Except UsageFault Command
  | .encode =>
    match g.words with
    | [output, input] =>
      if g.has .reference && !g.has .fourByte then .error (.needs .reference .fourByte)
      else
        .ok (.encode input output
          { width := if g.has .fourByte then .fourByte else .eightByte
            info := ⟨g.text .pattern, g.text .patternSyntax, g.text .timeZone⟩
            reference := g.number? .reference })
    | _ => .error .missingWord
  | .decode =>
    match g.words with
    | [input] => .ok (.decode input g.style)
    | _ => .error .missingWord
  | .search =>
    match g.words.reverse with
    | input :: query :: queries =>
      .ok (.search input
        ((query :: queries).map fun text => ⟨text, !g.has .ignoreCase⟩)
        (Interval.ofBounds (g.number? .after) (g.number? .before))
        g.style)
    | _ => .error .missingWord

end Given

/-! ### Reading all arguments -/

/-- The arguments of a command.  `summary` tells whether a summary was asked for
    before. -/
def ofCommand (kind : Kind) (summary : Bool) (arguments : List String) : Invocation :=
  match (Argument.items kind.known arguments).foldlM (Given.add kind) Given.empty with
  | .error decided => decided
  | .ok g =>
    match g.command kind with
    | .error fault => .refused fault
    | .ok command => .run command (summary || g.has .summary)

/-- The name that stands in the place of a command and asks for help. -/
def helpName : String := "help"

/-- The arguments after that name: nothing, or the name of one
    command. -/
def ofHelp : List String → Invocation
  | [] => .showHelp
  | [word] =>
    if word = helpName ∨ (Kind.ofName? word).isSome then .showHelp
    else .refused (.unknownCommand word)
  | _ :: word :: _ => .refused (.unknownCommand word)

/-- The items before the command, after some that were given. -/
def ofItems (g : Given) : List Argument.Item → Invocation
  | [] => .refused .missingCommand
  | .setting s value :: rest =>
    match g.addSetting s value with
    | .error decided => decided
    | .ok g => ofItems g rest
  | .word word after :: _ =>
    if word = helpName then ofHelp after
    else
      match Kind.ofName? word with
      | some kind => ofCommand kind (g.has .summary) after
      | none => .refused (.unknownCommand word)
  | .wordsOnly :: _ => .refused .missingCommand
  | .invalid fault :: _ => .refused fault

/-- What the program is asked for by its arguments. -/
def ofArguments (arguments : List String) : Invocation :=
  ofItems Given.empty (Argument.items known arguments)

end Invocation

end LogCodec
