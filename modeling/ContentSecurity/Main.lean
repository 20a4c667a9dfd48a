import ContentSecurity.CommandLine

/-!
The command line itself: it reads the file, prints the lines of the report and ends with its code.
-/
namespace ContentSecurity.CommandLine

/-- The contents of a file that can be opened. -/
def contentsOf (path : String) : IO (Option ByteArray) := do
  try
    return some (← IO.FS.readBinFile path)
  catch _ =>
    return none

end ContentSecurity.CommandLine

open ContentSecurity.CommandLine in
def main (arguments : List String) : IO UInt32 := do
  let report ← match Request.ofArguments arguments with
    | .usage => pure usage
    | .check path userAgent => do
      let contents ← contentsOf path
      pure (check path contents userAgent)
  for line in report.out do
    IO.println line
  for line in report.err do
    IO.eprintln line
  return UInt32.ofNat report.code
