import SpokenOrder.CommandLine.Response

/-!
# The program

Reads the arguments and, if they hold no utterance, the input; interprets the utterances one after
another, with the time that each takes; and writes the reports.
-/

namespace SpokenOrder.CommandLine

/-- Writes lines to a stream. -/
def writeLines (stream : IO.FS.Stream) (lines : List String) : IO Unit :=
  lines.forM fun line => stream.putStrLn line

/-- Writes a response, and returns how the program ends. -/
def finish (r : Response) : IO UInt32 := do
  writeLines (← IO.getStdout) r.stdout
  writeLines (← IO.getStderr) r.stderr
  return r.exitCode.toUInt32

/-- Reads a stream to its end. -/
partial def readAll (stream : IO.FS.Stream) (read : ByteArray) : IO ByteArray := do
  let chunk ← stream.read 65536
  if chunk.isEmpty then return read else readAll stream (read ++ chunk)

/-- The input, unless it is not text. -/
def readInput? : IO (Option String) := do
  return String.fromUTF8? (← readAll (← IO.getStdin) .empty)

/-- Interprets an utterance and reports on it, with the time that was needed. -/
def answer (s : Settings) (terminal : Bool) (cart : Cart) (utterance : String) : IO Cart := do
  let start ← IO.monoNanosNow
  let scene ← IO.lazyPure fun _ => s.scene utterance
  let tokenizations ← IO.lazyPure fun _ => scene.lattice.heaviestTilings
  let tokenized ← IO.monoNanosNow
  let i ← IO.lazyPure fun _ => scene.weigh cart tokenizations
  let stop ← IO.monoNanosNow
  let timing := ⟨stop - start, tokenized - start, stop - tokenized⟩
  writeLines (← IO.getStdout) (s.report terminal utterance i timing)
  return i.cart

/-- Interprets the utterances in turn. -/
def answerAll (s : Settings) (utterances : List String) : IO UInt32 := do
  let terminal ← (← IO.getStdout).isTty
  let mut cart := Cart.empty
  for utterance in utterances do
    cart ← answer s terminal cart utterance
  return 0

/-- The whole program. -/
def program (arguments : List String) : IO UInt32 := do
  match Settings.ofArguments arguments with
  | .error stop => finish stop.response
  | .ok s =>
    let input ← if s.utterances.isEmpty then readInput? else pure (some "")
    match input.map s.utterancesFrom with
    | none =>
      finish ⟨2, [], ["error: failed to read stdin: stream did not contain valid UTF-8"]⟩
    | some [] => finish noInput
    | some utterances => answerAll s utterances

end SpokenOrder.CommandLine

/-- Interprets food and drink orders. -/
def main (arguments : List String) : IO UInt32 :=
  SpokenOrder.CommandLine.program arguments
