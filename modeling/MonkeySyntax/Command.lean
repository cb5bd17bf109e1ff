import MonkeySyntax.Parse.Parser

/-! Sessions, in which lines are read one at a time and each is answered by itself, and the command
line: what is asked for, and what is written for it. -/
namespace MonkeySyntax

inductive ReadFault
  | notFound
  | isDirectory
  | notText
deriving DecidableEq

def ReadFault.message : ReadFault → String
  | notFound => "No such file or directory (os error 2)"
  | isDirectory => "Is a directory (os error 21)"
  | notText => "stream did not contain valid UTF-8"

namespace Session

/-- What a session answers to a line. -/
inductive Mode
  | parse
  | tokens
deriving DecidableEq

def prompt : String := ">> "

def unlines (lines : List String) : String := String.join (lines.map (· ++ "\n"))

def errorReport (messages : List String) : String :=
  unlines ("parser errors:" :: messages.map ("\t" ++ ·))

def answerProgram (line : String) : String :=
  let parsed := parseText line defaultFile
  if parsed.isOk then parsed.program.render ++ "\n" else errorReport parsed.messages

def answerTokens (line : String) : String :=
  unlines (((tokenize line defaultFile).filter (·.kind ≠ .eof)).map Token.render)

def answer : Mode → String → String
  | .parse => answerProgram
  | .tokens => answerTokens

/-- The text of a line. A line feed at its end is no part of it, nor is a carriage return before
that line feed. -/
def lineText? (bytes : List UInt8) : Option String :=
  let line := if bytes.getLast? = some 10 then Text.dropLastIf 13 bytes.dropLast else bytes
  String.fromUTF8? ⟨line.toArray⟩

/-- What a session wrote, and what ended it if not the end of its input. -/
structure Transcript where
  output : String
  fault : Option ReadFault

/-- The answer to a line as it was read. A line that is no text has none and ends the session. -/
def reply (mode : Mode) (bytes : List UInt8) : Except ReadFault String :=
  match lineText? bytes with
  | none => .error .notText
  | some line => .ok (answer mode line)

/-- Replies to lines until one has no answer. A prompt is written before each line is read. -/
def answerLines (mode : Mode) : List (List UInt8) → Transcript
  | [] => ⟨prompt, none⟩
  | bytes :: later =>
    match reply mode bytes with
    | .error fault => ⟨prompt, some fault⟩
    | .ok text =>
      let rest := answerLines mode later
      ⟨prompt ++ text ++ rest.output, rest.fault⟩

def run (mode : Mode) (input : List UInt8) : Transcript :=
  answerLines mode (Text.pieces 10 input)

end Session

/-- What a path leads to. -/
inductive FileContent
  | missing
  | directory
  | bytes (content : ByteArray)

def FileContent.text : FileContent → Except ReadFault String
  | missing => .error .notFound
  | directory => .error .isDirectory
  | bytes content =>
    match String.fromUTF8? content with
    | some text => .ok text
    | none => .error .notText

structure Response where
  code : Nat
  stdout : String
  stderr : String

inductive Command
  | session (mode : Session.Mode)
  | parse (path : String)
  | lex (path : String)

namespace Command

def greeting : String :=
  "This is the Monkey programming language!\nFeel free to type in commands\n"

/-- The command that arguments ask for. Verbosity may be asked for anywhere; what it adds is a log
on the standard error, which is left out here. -/
def ofArgs? (args : List String) : Option Command :=
  match args.filter fun a => a ≠ "-v" ∧ a ≠ "--verbose" with
  | [] => some (.session .parse)
  | ["repl"] => some (.session .parse)
  | ["repl", "--tokens"] => some (.session .tokens)
  | ["parse", path] => some (.parse path)
  | ["lex", path] => some (.lex path)
  | _ => none

def path? : Command → Option String
  | session _ => none
  | parse path => some path
  | lex path => some path

/-- The name of a file in diagnostics: the last part of its path, if that is a name. -/
def fileName (path : String) : String :=
  match ((path.splitOn "/").filter fun part => part ≠ "" ∧ part ≠ ".").getLast? with
  | some part => if part = ".." then path else part
  | none => path

def readFailure (fault : ReadFault) : String := "Error: " ++ fault.message ++ "\n"

def parseResponse (path text : String) : Response :=
  let parsed := parseText text (fileName path)
  match parsed.toExcept with
  | .ok program => ⟨0, program.listing, ""⟩
  | .error diagnostics =>
    ⟨1, "", String.join (diagnostics.map (·.render text)) ++ diagnostics.length.repr ++
      " error(s) found\n"⟩

def lexResponse (path text : String) : Response :=
  ⟨0, Session.unlines ((tokenize text (fileName path)).map Token.render), ""⟩

def sessionResponse (mode : Session.Mode) (input : List UInt8) : Response :=
  let transcript := Session.run mode input
  match transcript.fault with
  | none => ⟨0, greeting ++ transcript.output, ""⟩
  | some fault => ⟨1, greeting ++ transcript.output, readFailure fault⟩

/-- The response to a command, where `file` is the content of its path and `input` the standard
input. -/
def respond (file : FileContent) (input : List UInt8) : Command → Response
  | session mode => sessionResponse mode input
  | parse path =>
    match file.text with
    | .ok text => parseResponse path text
    | .error fault => ⟨1, "", readFailure fault⟩
  | lex path =>
    match file.text with
    | .ok text => lexResponse path text
    | .error fault => ⟨1, "", readFailure fault⟩

end Command
end MonkeySyntax
