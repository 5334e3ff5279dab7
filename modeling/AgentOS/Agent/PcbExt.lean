import Mathlib

/-!
# The agent extension of a process

The fields a process gets when it becomes an agent. A process that is no agent has none of them.

Counters of 32 bits are natural numbers here; where the source computes with them, so do the
definitions that model it. `next_seq` has 64 bits and grows by one with a node, so it does not wrap.
-/

namespace AgentOS

inductive AgentType where
  | normal
  | system
  deriving DecidableEq, Repr

inductive LoopState where
  | idle
  | thinking
  | calling
  | observing
  | done
  deriving DecidableEq, Repr

/-- What the kernel remembers of a node of the context path. Its data lies in the path buffer, in the
user's memory. -/
structure PathNodeMeta where
  offsetInBuffer : ℕ
  len : ℕ
  /-- The clock when the node was written. -/
  writeTime : ℕ
  seq : ℕ
  deriving DecidableEq, Repr

inductive EvictPolicy where
  | fifo
  | lru
  deriving DecidableEq, Repr

structure PathQuota where
  maxNodes : ℕ
  maxBytes : ℕ
  policy : EvictPolicy
  deriving DecidableEq, Repr

structure AgentExt where
  agentType : AgentType
  heartbeatIntervalMs : ℕ
  loopState : LoopState
  contextAreaBase : ℕ
  contextAreaSize : ℕ
  pathMeta : List PathNodeMeta
  pathQuota : PathQuota
  pathUsedBytes : ℕ
  nextSeq : ℕ
  heartbeatLastMs : ℕ
  heartbeatPending : Bool
  fileEventPending : Bool
  /-- 32 bits of events. -/
  watchedEvents : ℕ
  mailbox : List (List UInt8)
  mailboxCapacity : ℕ
  deriving DecidableEq, Repr

/-- The extension of a new agent. -/
def AgentExt.new (agentType : AgentType) (contextAreaBase contextAreaSize maxNodes maxBytes : ℕ) :
    AgentExt where
  agentType := agentType
  heartbeatIntervalMs := 0
  loopState := .idle
  contextAreaBase := contextAreaBase
  contextAreaSize := contextAreaSize
  pathMeta := []
  pathQuota := ⟨maxNodes, maxBytes, .lru⟩
  pathUsedBytes := 0
  nextSeq := 0
  heartbeatLastMs := 0
  heartbeatPending := false
  fileEventPending := false
  watchedEvents := 0
  mailbox := []
  mailboxCapacity := 32

end AgentOS
