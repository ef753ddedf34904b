import Haml.Command.Failure

/-!
# Messages

What a run tells on standard error while it works.
-/

namespace Haml.Command

inductive Message where
  /-- A template has been converted to the file at `output`. -/
  | converted (output : Text) (dryRun : Bool)
  /-- All templates have been converted. -/
  | summary (count : Nat) (dryRun : Bool)
  | failed (failure : Failure)
  deriving DecidableEq, Repr

/-- The text of a message, with its line ends; `elapsed` is the time that the run has taken. -/
def Message.render (elapsed : Text) : Message → Text
  | .converted output dryRun =>
    ' ' :: ' ' :: (if dryRun then '·' else '✓') :: ' ' :: (output ++ ['\n'])
  | .summary count dryRun =>
    "\n✨ ".toList ++ (if dryRun then "Checked ".toList else "Converted ".toList)
      ++ Text.ofNat count ++ (if count = 1 then " file in ".toList else " files in ".toList)
      ++ elapsed ++ ['\n']
  | .failed failure => "error: ".toList ++ failure.message ++ ['\n']

end Haml.Command
