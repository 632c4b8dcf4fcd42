/-
GrammarDiagram/Main.lean

The program: command lines run on the real disk.
-/
import GrammarDiagram.Command.Run

namespace GrammarDiagram.Command

/-- The code of the error that a part of a path is no folder. -/
def notAFolderCode : UInt32 := 20

/-- The code of the error that there is no room to write. -/
def noRoomCode : UInt32 := 28

/-- The fault behind an error of the disk. -/
def diskFault : IO.Error → FileFault
  | .inappropriateType _ code _ => if code = notAFolderCode then .notAFolder else .isFolder
  | .resourceExhausted _ code _ => if code = noRoomCode then .noRoom else .nameTooLong
  | .invalidArgument .. => .nameTooLong
  | _ => .missing

/-- Use a path on the disk, unless it cannot be one. -/
def withPath {α : Type} (path : String) (use : IO α) : IO (Except FileFault α) := do
  if path.toList.contains nullCharacter then return .error .nullCharacter
  try
    return .ok (← use)
  catch e => return .error (diskFault e)

/-- Files on the real disk.  A folder is known by the error of reading a byte of
it. -/
instance : Disk IO where
  inspect path := do
    match ← withPath path (IO.FS.withFile path .read fun h => h.read 1) with
    | .ok _ => return .ok .file
    | .error .isFolder => return .ok .folder
    | .error f => return .error f
  read path := withPath path (return (← IO.FS.readBinFile path).toList)
  write path text := withPath path <| IO.FS.withFile path .write fun h => do
    h.putStr text
    h.flush

end GrammarDiagram.Command

/-- Run the command line and print what it prints. -/
def main (args : List String) : IO UInt32 := do
  let o ← (GrammarDiagram.Command.run args : IO GrammarDiagram.Command.Outcome)
  IO.print o.output
  IO.eprint o.errors
  if o.status = 2 then
    IO.eprintln "Usage: gbnfgraph [OPTIONS] COMMAND [ARGS]..."
  match o.fault with
  | some f => IO.eprintln f.message
  | none => pure ()
  return o.status.toUInt32
