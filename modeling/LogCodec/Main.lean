import LogCodec.Command.Perform

/-! # The program

    Runs the library on the files of the system. -/

namespace LogCodec

/-- What a failure of the system says about a file. -/
def FileFault.ofSystem (error : IO.Error) : FileFault :=
  match error with
  | .noFileOrDirectory .. => .notFound
  | .inappropriateType _ code _ => if code = 21 then .isAFolder else .notAFolder
  | .permissionDenied .. => .other "Permission denied (os error 13)"
  | error => .other (toString error)

/-- The operations on the files of the system. -/
def systemFiles : Files IO where
  standardInput := do
    try
      return Contents.ofBytes (← (← IO.getStdin).readBinToEnd).toList
    catch error =>
      return ⟨[], some (FileFault.ofSystem error).message⟩
  read path := do
    try
      return .ok (Contents.ofBytes (← IO.FS.readBinFile path).toList)
    catch error =>
      match FileFault.ofSystem error with
      | .isAFolder => return .ok ⟨[], some FileFault.isAFolder.message⟩
      | fault => return .error fault
  isSame path other := do
    try
      return (← IO.FS.realPath path) == (← IO.FS.realPath other)
    catch _ => return false
  create path := do
    try
      IO.FS.writeBinFile path ByteArray.empty
      return .ok ()
    catch error =>
      return .error (FileFault.ofSystem error)
  write path data := IO.FS.writeBinFile path (ByteArray.mk data.toArray)

/-- The text of the version. -/
def versionText : String := "lis (log IR stream)\nVersion: 0.1.0\nMSRV: 1.73.0\n\n"

end LogCodec

open LogCodec

/-- Compressed files are written without making them smaller. -/
def main (arguments : List String) : IO UInt32 := do
  let report ← (Invocation.ofArguments arguments).perform systemFiles Gzip.pack versionText
  let output ← IO.getStdout
  output.write (ByteArray.mk report.output.toArray)
  output.flush
  (← IO.getStderr).putStr report.notes
  return report.code.toUInt32
