import Mathlib

/-!
# Errors of the agent subsystem
-/

namespace AgentOS

inductive AgentError where
  | badUserPointer
  | bufferTooSmall
  | protocolMalformed
  | notAnAgent
  | quotaExceeded
  | notFound
  | permissionDenied
  | internalError
  deriving DecidableEq, Repr

abbrev AgentResult (α : Type) := Except AgentError α

namespace AgentError

/-- The return value of a system call that fails with this error. -/
def intoIsize : AgentError → ℤ
  | badUserPointer => -1
  | bufferTooSmall => -2
  | protocolMalformed => -3
  | notAnAgent => -4
  | quotaExceeded => -5
  | notFound => -6
  | permissionDenied => -7
  | internalError => -8

theorem intoIsize_neg (e : AgentError) : e.intoIsize < 0 := by cases e <;> decide

theorem intoIsize_injective : Function.Injective intoIsize := by
  intro a b h
  cases a <;> cases b <;> first | rfl | exact absurd h (by decide)

end AgentError

end AgentOS
