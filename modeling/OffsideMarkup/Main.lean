/-
OffsideMarkup.Main — the program around the library.

`check` reports what is wrong with a file, `ast` prints its tree as well, and `lsp` serves an editor
over the standard streams. A task of its own reads what the editor sends, so that messages which
come in while one is handled are in sight of it and the clock ticks while nothing comes in.
-/
import OffsideMarkup.Diagnostic.Render
import OffsideMarkup.Grammar.Offside
import OffsideMarkup.Json.Text
import OffsideMarkup.Protocol.Capabilities
import OffsideMarkup.Protocol.Frame
import OffsideMarkup.Session.Run
import OffsideMarkup.Tree.Dump

namespace OffsideMarkup.Program

/-! ## 1. Files -/

def usage : String :=
  "Tooling for efml templates\n\nUsage: efml <COMMAND>\n\nCommands:\n"
    ++ "  check <PATH>  Report the diagnostics of a file\n"
    ++ "  ast <PATH>    Print the syntax tree of a file\n"
    ++ "  lsp           Run the language server on stdin/stdout\n"

/-- Reads a file, prints the lines that `view` gives for it and reports its diagnostics. The result
says whether there is an error among them. -/
def examine (path : String) (view : SourceFile → List String) : IO Bool := do
  let text := (← IO.FS.readFile path).toList
  let file := SourceFile.ofText .html text
  for line in view file do
    IO.println line
  for d in file.diagnostics do
    match d.render? path text with
    | none => throw (IO.userError "a report does not fit on the terminal")
    | some lines =>
      for line in lines do
        IO.eprintln line
  return file.diagnostics.any (·.isError)

/-! ## 2. Messages on a stream -/

/-- Reads exactly so many bytes, or as many as there are. -/
partial def readBytes (input : IO.FS.Stream) (count : Nat) (read : ByteArray) : IO ByteArray := do
  if read.size ≥ count then return read
  let more ← input.read (USize.ofNat (count - read.size))
  if more.isEmpty then return read
  readBytes input count (read ++ more)

/-- Reads a header up to its empty line. -/
partial def readHeader (input : IO.FS.Stream) (length : Option Nat) : IO (Option Nat) := do
  let line ← input.getLine
  if line.isEmpty then return none
  if line.trimAscii.isEmpty then return length
  readHeader input ((Frame.length? line).or length)

/-- Reads a message, or nothing at the end of the stream. -/
def readJson (input : IO.FS.Stream) : IO (Option Json) := do
  match ← readHeader input none with
  | none => return none
  | some length =>
    let body ← readBytes input length .empty
    return (String.fromUTF8? body).bind Json.ofText?

def send (output : IO.FS.Stream) (j : Json) : IO Unit := do
  let fields := match j with
    | .obj fields => fields
    | _ => []
  output.putStr (Frame.enclose (Json.obj (("jsonrpc", .str "2.0") :: fields)).toText)
  output.flush

/-! ## 3. Serving -/

/-- What has come in and is not yet handled, and whether more may come. -/
structure Inbox where
  waiting : List ClientMessage
  isOpen : Bool

/-- Puts what the editor sends into the inbox, up to the message that ends the session. -/
partial def receive (input : IO.FS.Stream) (inbox : IO.Ref Inbox) : IO Unit := do
  match (← readJson input).bind ClientMessage.ofJson? with
  | some m =>
    inbox.modify fun i => { i with waiting := i.waiting ++ [m] }
    if !m.isExit then receive input inbox
  | none => inbox.modify fun i => { i with isOpen := false }

/-- Milliseconds between two ticks. -/
def tickLength : Nat := 100

/-- Handles what comes in until the session or the stream ends. -/
partial def serve (output : IO.FS.Stream) (inbox : IO.Ref Inbox) (session : Session)
    (lastTick : Nat) : IO Unit := do
  let found ← inbox.modifyGet fun i => (i, { i with waiting := [] })
  let now ← IO.monoMsNow
  let due := lastTick + tickLength ≤ now
  let events := (if found.waiting.isEmpty then [] else [Event.batch now found.waiting])
    ++ (if due then [Event.tick now] else [])
  let (session, sent) := session.run events
  for m in sent do
    send output m.toJson
  if session.isClosed || (!found.isOpen && found.waiting.isEmpty) then return ()
  if events.isEmpty then IO.sleep 5
  serve output inbox session (if due then now else lastTick)

/-- Answers the request that opens a session. The result is the configuration, if there is a
session at all. -/
partial def open? (input output : IO.FS.Stream) : IO (Option Config) := do
  match ← readJson input with
  | none => return none
  | some j =>
    let id := j.get? "id"
    match (j.get? "method").bind Json.str?, id with
    | some "initialize", some id =>
      send output (.obj [("id", id), ("result", introduction)])
      let options := (j.get? "params").bind (·.get? "initializationOptions")
      return some (Config.ofOptions options)
    | some "exit", none => return none
    | some _, some id =>
      send output (.obj [("id", id),
        ("error", .obj [("code", .num (-32002)), ("message", .str "expected initialize request")])])
      open? input output
    | _, _ => open? input output

/-- Serves an editor over the standard streams. -/
def serveEditor : IO Unit := do
  let input ← IO.getStdin
  let output ← IO.getStdout
  match ← open? input output with
  | none => return ()
  | some config =>
    let inbox ← IO.mkRef (Inbox.mk [] true)
    let _ ← IO.asTask (receive input inbox) Task.Priority.dedicated
    serve output inbox (.create config) (← IO.monoMsNow)

end OffsideMarkup.Program

open OffsideMarkup in
/-- Runs the command that the arguments name. -/
def main (args : List String) : IO UInt32 := do
  match args with
  | ["check", path] => return if ← Program.examine path fun _ => [] then 1 else 0
  | ["ast", path] =>
    let _ ← Program.examine path SourceFile.dump
    return 0
  | ["lsp"] =>
    Program.serveEditor
    return 0
  | ["--version"] =>
    IO.println "efml 0.1.0"
    return 0
  | ["--help"] =>
    IO.print Program.usage
    return 0
  | _ =>
    IO.eprint Program.usage
    return 2
