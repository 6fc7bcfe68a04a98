import PerfectKeys.Tool.Execution

/-!
# The command line tool

Collects what a request depends on, the arguments, the log setting and the input file, and
writes out the answer.
-/

namespace PerfectKeys

/-- The octets of a file, or the words of the system for why it cannot be read. -/
def readOctets (path : String) : IO (Except String (List Octet)) := do
  try
    let contents ← IO.FS.readBinFile path
    return .ok contents.data.toList
  catch e => return .error (toString e)

/-- What is around a request. Only the file that it reads is looked at. -/
def readSurroundings (request : Request) : IO (Surroundings String) := do
  let result ←
    match request with
    | .run line =>
        match line.inputPath? with
        | some path => readOctets path
        | none => pure (.error "no file was named")
    | _ => pure (.error "no file was named")
  return ⟨id, fun _ => result, fun _ => "two lists of names are expected"⟩

end PerfectKeys

open PerfectKeys

/-- Runs the tool. Its status is two when the arguments make no sense. -/
def main (arguments : List String) : IO UInt32 := do
  let setting : LogSetting := ⟨(← IO.getEnv "RUST_LOG").getD ""⟩
  match Request.ofArguments arguments with
  | .error e =>
      IO.eprint (withLineFeeds setting.complaints)
      IO.eprintln s!"error: {e.message}\n\n{usageText}"
      return 2
  | .ok request =>
      let outcome := request.answer setting.filter (← readSurroundings request)
      IO.print outcome.output
      IO.eprint outcome.diagnostics
      return UInt32.ofNat outcome.status
