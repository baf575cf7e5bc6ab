import MajorityGraph.Demo.Run
import MajorityGraph.Text.Decimal

/-! The command-line entry point of the demonstration program. -/

open MajorityGraph

/-- Runs the demonstration program on the command-line arguments. -/
def main (args : List String) : IO UInt32 := do
  let start ← IO.monoNanosNow
  let stdout ← IO.getStdout
  let stderr ← IO.getStderr
  let (outcome, timed) := match Demo.Request.ofArgs args with
    | .run o => (Demo.runOptions o, true)
    | _ => (Demo.run args, false)
  for line in outcome.stdout do
    stdout.putStrLn line
  if timed && outcome.exitCode == 0 then
    let finish ← IO.monoNanosNow
    let secs := (finish - start).toFloat / 1.0e9
    stdout.putStrLn s!"Done in {Text.fixed 3 secs} s"
  stdout.flush
  for line in outcome.stderr do
    stderr.putStrLn line
  stderr.flush
  pure outcome.exitCode.toUInt32
