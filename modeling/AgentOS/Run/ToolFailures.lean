import AgentOS.Run.ToolCalls

/-!
# Tool calls that fail

A tool call that fails after its request was read has changed the loop state, and does not change it
back. That happens when the bytes are no request and when a listing is longer than the ring; no other
answer can be too long. Everything else is as it was.
-/

namespace AgentOS

open Postcard

/-! ## Sizes of answers -/

namespace Kernel

section Listings

variable {k k' : Kernel} {req : ToolRequest}

end Listings

/-! ## What a failed call leaves -/

section Atomic

variable [KernelLayout] {k : Kernel} {t : ℕ} {tcb : TaskControlBlock} {ext : AgentExt}

end Atomic

section Sample

attribute [local instance] sampleLayout

end Sample

end Kernel

end AgentOS
