import Mathlib

/-! The error message that the library keeps for `GetLastError`. -/
namespace Rv64Hook

/-- `error_buf` and `has_error`. -/
structure ErrorState where
  errorBuf : String
  hasError : Bool

namespace ErrorState

def clearError (s : ErrorState) : ErrorState := { s with hasError := false }

/-- `SetError`, for a formatted message; the buffer has 128 bytes. -/
def setError (_ : ErrorState) (tag message : String) : ErrorState where
  errorBuf := String.ofList (("[" ++ tag ++ "] " ++ message).toList.take 127)
  hasError := true

/-- `GetLastError`: the message, or null. -/
def getLastError (s : ErrorState) : Option String × ErrorState :=
  if s.hasError then (some s.errorBuf, { s with hasError := false }) else (none, s)

end ErrorState

/-- `%#llx` -/
def formatHex (n : ℕ) : String :=
  if n = 0 then "0" else "0x" ++ String.ofList (Nat.toDigits 16 n)

example : ((ErrorState.mk "" false).setError "Hook" (formatHex 0x1a2b)).getLastError.1 =
    some "[Hook] 0x1a2b" := by
  decide

/-! ### What a call reports -/

/-- Whatever was reported before, the call reports this message, or nothing. -/
def Reported (call : ErrorState → ErrorState) (message : Option String) : Prop :=
  ∀ err, (call err).getLastError.1 = message

theorem reported_clearError : Reported ErrorState.clearError none := fun _ => rfl

end Rv64Hook
