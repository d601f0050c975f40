import Mathlib.Data.List.TakeWhile

/-!
The identifiers every other module passes around: content ids, which are
compared and never opened, and ledger ids, which are formatted from a ledger
name and a branch and split back at the first colon.
-/

namespace FlureeDb.Core

/-- A content id: the multicodec of the content's kind and the multihash of
its bytes. -/
structure ContentId where
  codec : ℕ
  multihash : List UInt8
  deriving DecidableEq, Repr

def defaultBranch : String := "main"

structure LedgerIdParseError where
  message : String
  deriving DecidableEq, Repr

def LedgerIdParseError.invalidFormat (ledgerId : String) : LedgerIdParseError :=
  ⟨"Invalid ledger ID format '" ++ ledgerId ++ "': expected 'name' or 'name:branch'"⟩

def formatLedgerId (name branch : String) : String :=
  name ++ ":" ++ branch

/-- Split a `name[:branch]` ledger ID into its name and branch, applying the
default branch. The split is at the first colon; a branch may not hold
another. -/
def splitLedgerId (ledgerId : String) : Except LedgerIdParseError (String × String) :=
  let name := ledgerId.toList.takeWhile (· ≠ ':')
  match ledgerId.toList.dropWhile (· ≠ ':') with
  | [] =>
    if name = [] then .error (.invalidFormat ledgerId)
    else .ok (String.ofList name, defaultBranch)
  | _ :: branch =>
    if name = [] ∨ branch = [] then .error (.invalidFormat ledgerId)
    else if ':' ∈ branch then .error (.invalidFormat ledgerId)
    else .ok (String.ofList name, String.ofList branch)

example : splitLedgerId "mydb:main" = .ok ("mydb", "main") := by decide

example : splitLedgerId "mydb" = .ok ("mydb", "main") := by decide

end FlureeDb.Core
