import ImportClosure.CommandLine.Run
import ImportClosure.Tree.Document

/-!
# The program

Reads the file tree as a document from standard input and carries out the command line over it.
-/

open ImportClosure

def main (arguments : List String) : IO UInt32 := do
  let input ← (← IO.getStdin).readToEnd
  match (Json.read? input).bind FileTree.ofJson? with
  | none =>
    (← IO.getStderr).putStrLn "Error: standard input holds no file tree"
    return 1
  | some tree =>
    let outcome := CommandLine.execute tree arguments
    (← IO.getStdout).putStr outcome.output
    (← IO.getStderr).putStr outcome.complaint
    return outcome.exitCode.toUInt32
