import LogCodec.Text.Decimal
import LogCodec.Text.Utf8

/-! # Arguments

    The arguments of the program are words and settings.  A setting has a long
    name, as in `--epoch`, and perhaps a letter, as in `-e`.  Letters may be
    joined, as in `-es`.  The value of a setting is the argument after it, or
    stands in the same argument: `--after=5`, `-a5` and `-a=5` all mean the
    same.  After `--` every argument is a word, and `-` alone is a word too.

    `Argument.items` reads a list of arguments from left to right up to the
    first one that is wrong. -/

namespace LogCodec

/-! ### Settings -/

/-- What may be set by an argument. -/
inductive Setting where
  | help
  | version
  | summary
  | fourByte
  | reference
  | pattern
  | patternSyntax
  | timeZone
  | epoch
  | ignoreCase
  | after
  | before
deriving DecidableEq

namespace Setting

/-- What a setting needs beside its name. -/
inductive Need where
  /-- Nothing: it is set or not. -/
  | nothing
  /-- A signed 64-bit number.  It may follow as any argument. -/
  | number
  /-- A text.  An argument that starts with `-` does not follow as a text. -/
  | text
deriving DecidableEq

def need : Setting → Need
  | reference | after | before => .number
  | pattern | patternSyntax | timeZone => .text
  | _ => .nothing

def longName : Setting → String
  | help => "help"
  | version => "version"
  | summary => "summary"
  | fourByte => "four-byte"
  | reference => "reference-timestamp"
  | pattern => "timestamp-pattern"
  | patternSyntax => "timestamp-pattern-syntax"
  | timeZone => "tz-id"
  | epoch => "epoch"
  | ignoreCase => "ignore-case"
  | after => "after"
  | before => "before"

def letter? : Setting → Option Char
  | help => some 'h'
  | version => some 'V'
  | summary => some 's'
  | reference => some 'r'
  | epoch => some 'e'
  | ignoreCase => some 'i'
  | after => some 'a'
  | before => some 'b'
  | fourByte | pattern | patternSyntax | timeZone => none

/-- May the argument stand after the setting as its value? -/
def mayFollow (s : Setting) (argument : String) : Bool :=
  match s.need with
  | .nothing => false
  | .number => true
  | .text =>
    match argument.toList with
    | '-' :: _ :: _ => false
    | _ => true

end Setting

/-- The number that a text is, or why it is none. -/
def readNumber (text : String) : Except Decimal.Fault Int64 :=
  Decimal.readInt64 (Utf8.ofString text)

/-! ### Faults -/

/-- Why arguments are refused. -/
inductive UsageFault where
  | unknownSetting (argument : String)
  | unneededValue (setting : Setting)
  | missingValue (setting : Setting)
  | repeated (setting : Setting)
  | notANumber (setting : Setting) (value : String) (cause : Decimal.Fault)
  | unexpectedWord (word : String)
  | missingWord
  | unknownCommand (word : String)
  | missingCommand
  /-- A setting that is of use only together with another one. -/
  | needs (setting needed : Setting)
deriving DecidableEq

namespace UsageFault

/-- The text of a fault. -/
def message : UsageFault → String
  | unknownSetting argument => "unexpected argument '" ++ argument ++ "'"
  | unneededValue setting => "'--" ++ setting.longName ++ "' takes no value"
  | missingValue setting => "'--" ++ setting.longName ++ "' needs a value"
  | repeated setting => "'--" ++ setting.longName ++ "' is given more than once"
  | notANumber setting value cause =>
    "invalid value '" ++ value ++ "' for '--" ++ setting.longName ++ "': " ++ cause.message
  | unexpectedWord word => "unexpected argument '" ++ word ++ "'"
  | missingWord => "a required argument is missing"
  | unknownCommand word => "unknown command '" ++ word ++ "'"
  | missingCommand => "a command is missing"
  | needs setting needed => "'--" ++ setting.longName ++ "' needs '--" ++ needed.longName ++ "'"

end UsageFault

/-! ### Reading arguments -/

namespace Argument

/-- One thing that arguments say. -/
inductive Item where
  | setting (setting : Setting) (value : String)
  /-- A word, and the arguments after it. -/
  | word (text : String) (after : List String)
  /-- All that follows are words. -/
  | wordsOnly
  | invalid (fault : UsageFault)
deriving DecidableEq

/-- What one argument says. -/
inductive Shape where
  | word
  | wordsOnly
  /-- Settings, the last of which may need the next argument as its value. -/
  | settings (complete : List Item) (waiting : Option Setting)
deriving DecidableEq

/-- Adds a setting in front. -/
def Shape.cons (item : Item) : Shape → Shape
  | settings complete waiting => settings (item :: complete) waiting
  | shape => shape

/-- Reads joined letters. -/
def letters (known : List Setting) : List Char → Shape
  | [] => .settings [] none
  | c :: rest =>
    match known.find? (·.letter? = some c) with
    | none => .settings [.invalid (.unknownSetting ("-" ++ String.ofList (c :: rest)))] none
    | some s =>
      match s.need, rest with
      | .nothing, rest => (letters known rest).cons (.setting s "")
      | _, [] => .settings [] (some s)
      | _, '=' :: value => .settings [.setting s (String.ofList value)] none
      | _, value => .settings [.setting s (String.ofList value)] none

/-- Reads a long name, perhaps with a value after `=`. -/
def long (known : List Setting) (text : List Char) : Shape :=
  let name := String.ofList (text.takeWhile (· ≠ '='))
  match known.find? (·.longName = name) with
  | none => .settings [.invalid (.unknownSetting ("--" ++ name))] none
  | some s =>
    match s.need, text.dropWhile (· ≠ '=') with
    | .nothing, [] => .settings [.setting s ""] none
    | .nothing, _ => .settings [.invalid (.unneededValue s)] none
    | _, [] => .settings [] (some s)
    | _, _ :: value => .settings [.setting s (String.ofList value)] none

/-- Reads one argument where some settings are known. -/
def shape (known : List Setting) (argument : String) : Shape :=
  match argument.toList with
  | ['-', '-'] => .wordsOnly
  | '-' :: '-' :: text => long known text
  | '-' :: c :: rest => letters known (c :: rest)
  | _ => .word

/-- Arguments that are all words. -/
def words : List String → List Item
  | [] => []
  | word :: rest => .word word rest :: words rest

/-- What some arguments say where some settings are known.  Nothing counts after
    an item that is invalid. -/
def items (known : List Setting) : List String → List Item
  | [] => []
  | argument :: rest =>
    match shape known argument with
    | .word => .word argument rest :: items known rest
    | .wordsOnly => .wordsOnly :: words rest
    | .settings complete none => complete ++ items known rest
    | .settings complete (some s) =>
      complete ++
        match rest with
        | [] => [.invalid (.missingValue s)]
        | value :: rest =>
          if s.mayFollow value then .setting s value :: items known rest
          else [.invalid (.missingValue s)]

end Argument

end LogCodec
