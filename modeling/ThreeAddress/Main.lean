import ThreeAddress.Command.Run

/-!
The command on the file system and the standard streams.
-/

namespace ThreeAddress.Command

def System.files : System IO where
  read path := try some <$> IO.FS.readFile path catch _ => return none
  write path text :=
    try
      IO.FS.writeFile path text
      return true
    catch _ => return false
  print text := IO.print text

end ThreeAddress.Command

open ThreeAddress.Command in
def main (words : List String) : IO UInt32 := do
  let outcome ← run .files words
  match outcome with
  | .done => return 0
  | .badUsage => IO.eprintln outcome.message
  | _ => IO.eprintln ("Compilation error: " ++ outcome.message)
  return outcome.exitCode
