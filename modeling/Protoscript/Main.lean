import Protoscript.CommandLine

/-! # The program

Reads the file that the arguments name and the standard input, and writes the answer. -/

set_option autoImplicit false

open Protoscript

/-- The bytes of a file, or why there are none. -/
def readSource (path : String) : IO (Except CommandLine.ReadError (List UInt8)) := do
  try
    let bytes ← IO.FS.readBinFile path
    return .ok bytes.data.toList
  catch
    | .noFileOrDirectory .. => return .error .missing
    | .inappropriateType .. => return .error .directory
    | e => return .error (.other (toString e))

/-- All that is left of a stream. -/
partial def readRest (stream : IO.FS.Stream) (read : ByteArray) : IO ByteArray := do
  let chunk ← stream.read 65536
  if chunk.isEmpty then return read else readRest stream (read ++ chunk)

def main (args : List String) : IO UInt32 := do
  let contents ← match CommandLine.request args with
    | .ok (.run path _) => readSource path
    | _ => pure (.error .missing)
  let stdin ← readRest (← IO.getStdin) .empty
  let response := CommandLine.respond args (fun _ => contents) stdin.data.toList (1 <<< 62)
  (← IO.getStdout).putStr response.stdout
  (← IO.getStderr).putStr response.stderr
  return response.exitCode.toUInt32
