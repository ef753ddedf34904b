import Haml.Text.Basic

/-!
# Failures

The work with files fails, and so may the encoding of a report on them. A failure is a cause, and its
message is made from it.
-/

namespace Haml.Command

inductive AccessError where
  | notFound
  | notUtf8
  | isDirectory
  /-- Another reason, in the words of the system. -/
  | other (reason : Text)
  deriving DecidableEq, Repr

def AccessError.message : AccessError → Text
  | .notFound => "entity not found".toList
  | .notUtf8 => "stream did not contain valid UTF-8".toList
  | .isDirectory => "Is a directory (os error 21)".toList
  | .other reason => reason

/-- Why a run did not succeed. -/
inductive Failure where
  | access (path : Text) (error : AccessError)
  /-- The path is a file, but not a template. -/
  | notTemplate (path : Text)
  /-- The path is a directory without templates. -/
  | noTemplates (path : Text)
  /-- There is neither a path nor a template on standard input. -/
  | missingInput
  /-- A report cannot be encoded, for a reason in the words of the encoder. -/
  | encoding (reason : Text)
  deriving DecidableEq, Repr

def Failure.message : Failure → Text
  | .access path error => "failed to access ".toList ++ path ++ ": ".toList ++ error.message
  | .notTemplate path => path ++ " is not a .haml file".toList
  | .noTemplates path => "no .haml files found in ".toList ++ path
  | .missingInput => "no input: pass a file or directory, or use --stdin".toList
  | .encoding reason => "failed to encode report: ".toList ++ reason

end Haml.Command
