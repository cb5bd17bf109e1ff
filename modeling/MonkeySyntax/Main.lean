import MonkeySyntax.Command

/-! The program: it reads what a command needs, and writes the response. -/
namespace MonkeySyntax

def readContent (path : String) : IO FileContent := do
  try
    return .bytes (← IO.FS.readBinFile path)
  catch
    | .noFileOrDirectory .. => return .missing
    | .inappropriateType .. => return .directory
    | e => throw e

/-- The next line of a stream with its line feed; empty at the end of the stream. -/
partial def readLine (input : IO.FS.Stream) (line : List UInt8) : IO (List UInt8) := do
  match (← input.read 1).data.toList with
  | [] => return line.reverse
  | b :: _ => if b = 10 then return (b :: line).reverse else readLine input (b :: line)

/-- Replies to the lines of a stream as they come. -/
partial def converse (mode : Session.Mode) (input output : IO.FS.Stream) :
    IO (Option ReadFault) := do
  output.putStr Session.prompt
  output.flush
  let line ← readLine input []
  if line.isEmpty then return none
  match Session.reply mode line with
  | .error fault => return some fault
  | .ok text =>
    output.putStr text
    converse mode input output

def write (response : Response) : IO UInt32 := do
  (← IO.getStdout).putStr response.stdout
  (← IO.getStderr).putStr response.stderr
  return response.code.toUInt32

end MonkeySyntax

open MonkeySyntax

def main (args : List String) : IO UInt32 := do
  let stdout ← IO.getStdout
  match Command.ofArgs? args with
  | none => write ⟨2, "", "usage: monkey [-v] [repl [--tokens] | parse FILE | lex FILE]\n"⟩
  | some (.session mode) =>
    stdout.putStr Command.greeting
    match ← converse mode (← IO.getStdin) stdout with
    | none => return 0
    | some fault => write ⟨1, "", Command.readFailure fault⟩
  | some command =>
    let content ← match command.path? with
      | some path => readContent path
      | none => pure .missing
    write (command.respond content [])
