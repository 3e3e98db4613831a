/-
# ClassChart.Main — the command

Copies what a run needs from the file system into a disk, runs the program on it, and puts what the
program wrote back: its output file, its standard output, its log. Patterns search below the working
directory; single files may be named anywhere.
-/
import ClassChart.Command.Program

open ClassChart

/-- How deep directories are searched. -/
def searchDepth : Nat := 64

/-- The names below a directory entry, the files without their contents. -/
def namesBelow : Nat → IO.FS.DirEntry → IO (String × Entry)
  | 0, e => pure (e.fileName, .directory [])
  | depth + 1, e => do
    if ← e.path.isDir then
      let inner ← (← e.path.readDir).mapM (namesBelow depth)
      pure (e.fileName, .directory inner.toList)
    else pure (e.fileName, .file ByteArray.empty)

/-- Puts the file at a path on the disk with its contents, if there is one. -/
def copyFile (d : Disk) (path : String) : IO Disk := do
  let file := (← IO.currentDir) / path
  if ← file.pathExists then
    if ← file.isDir then pure (d.put path (.directory []))
    else pure (d.put path (.file (← IO.FS.readBinFile file)))
  else pure d

/-- Puts the directory around a path on the disk, if it is there. -/
def copyParent (d : Disk) (path : String) : IO Disk := do
  match ((← IO.currentDir) / path).parent with
  | some parent => if ← parent.isDir then pure (d.put parent.toString (.directory [])) else pure d
  | none => pure d

/-- The disk that a command line is run on. -/
def gatherDisk (userSettings? : Option String) (argv : List String) : IO Disk := do
  let here ← IO.currentDir
  let names ← (← here.readDir).mapM (namesBelow searchDepth)
  let shown := Disk.ofWorking ((Path.parts here.toString).filter (· ≠ "")) names.toList
  match Args.parse argv with
  | .error _ => pure shown
  | .ok args =>
    let named ← (args.inputs ++ args.output.toList).foldlM copyFile shown
    let placed ← args.output.toList.foldlM copyParent named
    (wantedFiles placed userSettings? args).foldlM copyFile placed

/-- Writes the output file of a run back. -/
def writeBack (argv : List String) (e : Exit Disk) : IO Unit := do
  match Args.parse argv with
  | .ok { output := some path, .. } =>
    if e.code = 0 then
      match e.files.readText path with
      | .ok text => IO.FS.writeFile path text
      | .error _ => pure ()
  | _ => pure ()

def main (argv : List String) : IO UInt32 := do
  let userSettings? := (← IO.getEnv "HOME").map (· ++ "/.config/classmap/config.toml")
  let e := runProgram .standard (← gatherDisk userSettings? argv) userSettings? argv
  writeBack argv e
  IO.print e.stdout
  for line in e.notice.toList do
    IO.eprintln line
  for record in e.log do
    IO.eprintln ("[" ++ record.level.name ++ "] " ++ record.text)
  pure e.code.toUInt32
