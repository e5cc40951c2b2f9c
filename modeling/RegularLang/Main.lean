/-
  RegularLang.Main — the program: arguments in, text out.
-/

import RegularLang.CommandLine.Run

namespace RegularLang.CommandLine

def versionText : String := "regular-lang 0.1.0"

def usageText : String := "\n".intercalate [
  "usage: regular-lang [-v] COMMAND [OPTIONS] [REGEX]",
  "",
  "  accepts     decide whether a word matches (-w WORD)",
  "  complement  print a regex of the other words",
  "  minimize    print the minimal automaton and the regex read off it",
  "  dot         print the automaton after a stage (--stage STAGE)",
  "  suffix      print the length of a shortest word that ends in K times CH,",
  "              or -1 (-c CH -k K)",
  "",
  "  -f FILE     read the regex from a file",
  "  -p          the regex is in reverse Polish notation",
  "  -a LETTERS  more letters for the alphabet",
  "  -v          print every automaton on the way"]

def usageMessage : UsageError → String
  | .help | .version => ""
  | .noArguments | .noCommand => "a command is required"
  | .unknownCommand => "there is no such command"
  | .unknownArgument => "unexpected argument"
  | .missingArgument => "a required argument is missing"
  | .missingValue => "a value is missing"
  | .unexpectedValue => "a value is given to an option that takes none"
  | .valueNotAllowed | .malformedValue => "invalid value"
  | .conflict => "an argument cannot be used with another one"

def fail (code : UInt32) (message : String) : IO UInt32 := do
  IO.eprintln message
  return code

/-- The text of the file that a request names, if there is one. -/
def fileText (args : List Argument) : IO (Option (List Char)) := do
  match Request.read args with
  | .ok q =>
    match q.source with
    | .file path =>
      try return some (← IO.FS.readFile (String.ofList path)).toList
      catch _ => return none
    | .inline _ => return none
  | .error _ => return none

end RegularLang.CommandLine

open RegularLang.CommandLine in
def main (args : List String) : IO UInt32 := do
  let args := args.map String.toList
  let text ← fileText args
  match invoke args fun _ => text with
  | .usage .help =>
    IO.println usageText
    return 0
  | .usage .version =>
    IO.println versionText
    return 0
  | .usage e => fail 2 (usageMessage e ++ "\n\n" ++ usageText)
  | .unreadable => fail 1 "the file cannot be read"
  | .misread printed e =>
    IO.print (String.ofList printed)
    fail 1 e.message
  | .refused f => fail 101 (f.message?.getD "an index is out of range")
  | .done printed =>
    IO.print (String.ofList printed)
    return 0
