import TableClient.Tail

/-!
# The program

Prints the records of the latest stream of a table. The store is reached through the file at the
given path, to which requests are written and from which replies are read line by line.
-/

namespace TableClient.Tail

/-- Where the store is reached when no path is given: under the local data of the user. -/
def defaultSocket : IO String := do
  let directory :=
    match ← IO.getEnv "XDG_DATA_HOME", ← IO.getEnv "HOME" with
    | some data, _ => data
    | none, some home => home ++ "/.local/share"
    | none, none => "."
  return directory ++ "/" ++ storeName ++ "/server.sock"

/-- Sends a request and waits for its reply. -/
def send (connection : IO.FS.Handle) (request : Request) : IO Reply := do
  connection.putStr (request.line ++ "\n")
  connection.flush
  let line ← connection.getLine
  return readReply (if line.isEmpty then none else some line)

/-- Prints lines. -/
def printLines (lines : List String) : IO Unit := do
  let stdout ← IO.getStdout
  for line in lines do
    stdout.putStrLn line
  stdout.flush

/-- Goes on with the printing until it ends. -/
partial def proceed (connection : IO.FS.Handle) (options : Options) (state : Printing) :
    IO (Except Error Unit) := do
  let next ←
    match run {} options state with
    | .done next => pure next
    | .ask request receive => pure (receive (← send connection request))
  match next with
  | .again state =>
    printLines state.lines
    proceed connection options { state with lines := [] }
  | .after milliseconds state =>
    printLines state.lines
    IO.sleep (UInt32.ofNat milliseconds)
    proceed connection options { state with lines := [] }
  | .done result =>
    printLines result.lines
    return result.outcome

/-- Connects to the store and prints. -/
def connectAndPrint (options : Options) : IO UInt32 := do
  let stderr ← IO.getStderr
  let path ←
    match options.socket? with
    | some path => pure path
    | none => defaultSocket
  try
    let connection ← IO.FS.Handle.mk path .readWrite
    match ← proceed connection options {} with
    | .ok () => return 0
    | .error error =>
      stderr.putStrLn ("Error: " ++ error.message)
      return 1
  catch error =>
    stderr.putStrLn ("Error: " ++ (TransportError.io (toString error)).message)
    return 1

end TableClient.Tail

/-- Prints the records of a stream as the arguments say. -/
def main (arguments : List String) : IO UInt32 := do
  match TableClient.Tail.readOptions arguments with
  | .error error =>
    let stderr ← IO.getStderr
    stderr.putStrLn error.message
    return 1
  | .ok options => TableClient.Tail.connectAndPrint options
