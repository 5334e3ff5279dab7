import AgentOS.Lib.LittleEndian
import AgentOS.Lib.Postcard

/-!
# The tool-call protocol

The request and response types shared by the kernel and user programs, and their frames: a magic
number and a version, little-endian, followed by a postcard body. Enumerations are encoded by the
position of their variant.
-/

namespace AgentOS

open LittleEndian Postcard

/-! ## Frames -/

def protoMagic : ℕ := 0xA9E47F00
def protoVersion : ℕ := 0x0001
def frameHeaderSize : ℕ := 6

inductive FrameError where
  | tooShort
  | badMagic
  | unsupportedVersion (version : ℕ)
  deriving DecidableEq, Repr

/-- Write the frame header to a buffer, which must have room for it. -/
def writeFrameHeader (buf : List UInt8) (_ : frameHeaderSize ≤ buf.length) : List UInt8 :=
  leBytes 4 protoMagic ++ leBytes 2 protoVersion ++ buf.drop frameHeaderSize

/-- Check the frame header and return the offset of the body. -/
def checkFrameHeader (buf : List UInt8) : Except FrameError ℕ :=
  if buf.length < frameHeaderSize then .error .tooShort
  else if leValue (buf.take 4) ≠ protoMagic then .error .badMagic
  else if leValue ((buf.drop 4).take 2) ≠ protoVersion then
    .error (.unsupportedVersion (leValue ((buf.drop 4).take 2)))
  else .ok frameHeaderSize

/-! ## Requests and responses -/

inductive ToolName where
  | systemStatus
  | queryProcess
  | readContext
  | sendMessage
  | queryFile
  deriving DecidableEq, Repr

namespace ToolName

def all : List ToolName := [systemStatus, queryProcess, readContext, sendMessage, queryFile]

def asStr : ToolName → String
  | systemStatus => "system_status"
  | queryProcess => "query_process"
  | readContext => "read_context"
  | sendMessage => "send_message"
  | queryFile => "query_file"

end ToolName

inductive ProcStatus where
  | running
  | ready
  | zombie
  | blocked
  deriving DecidableEq, Repr

inductive AgentTypeFilter where
  | any
  | normal
  | agent
  deriving DecidableEq, Repr

inductive ContextTargetType where
  | process
  | file
  | agent
  deriving DecidableEq, Repr

/-- Parameters, one variant for each tool. -/
inductive ToolParams where
  | systemStatus
  | queryProcess (status : Option ProcStatus) (ty : AgentTypeFilter)
  | readContext (targetType : ContextTargetType) (targetId : ℕ)
  | sendMessage (targetPid : ℕ) (payload : List UInt8)
  | queryFile (tag owner keyword : Option String) (useIndex : Bool)
  deriving DecidableEq, Repr

structure ToolRequest where
  reqId : ℕ
  tool : ToolName
  params : ToolParams
  deriving DecidableEq, Repr

inductive ToolStatus where
  | ok
  | toolNotFound
  | badParams
  | permissionDenied
  | quotaExceeded
  | internalError
  | notImplemented
  deriving DecidableEq, Repr

structure ToolResponse where
  reqId : ℕ
  status : ToolStatus
  resultOffset : ℕ
  resultLen : ℕ
  deriving DecidableEq, Repr

/-! ## Result types -/

structure ProcessInfo where
  pid : ℕ
  name : String
  status : ProcStatus
  isAgent : Bool
  deriving DecidableEq, Repr

structure FileInfo where
  inodeId : ℕ
  name : String
  size : ℕ
  tags : List String
  owner : Option String
  digestPreview : String
  deriving DecidableEq, Repr

structure SystemStatusInfo where
  totalProcs : ℕ
  agentProcs : ℕ
  runningProcs : ℕ
  memoryUsedBytes : ℕ
  uptimeTicks : ℕ
  deriving DecidableEq, Repr

structure ToolDescriptor where
  name : String
  doc : String
  deriving DecidableEq, Repr

/-! ## Encoding of enumerations -/

def encodeToolName : ToolName → List UInt8
  | .systemStatus => encodeVarint 0
  | .queryProcess => encodeVarint 1
  | .readContext => encodeVarint 2
  | .sendMessage => encodeVarint 3
  | .queryFile => encodeVarint 4

def encodeProcStatus : ProcStatus → List UInt8
  | .running => encodeVarint 0
  | .ready => encodeVarint 1
  | .zombie => encodeVarint 2
  | .blocked => encodeVarint 3

def encodeAgentTypeFilter : AgentTypeFilter → List UInt8
  | .any => encodeVarint 0
  | .normal => encodeVarint 1
  | .agent => encodeVarint 2

def encodeContextTargetType : ContextTargetType → List UInt8
  | .process => encodeVarint 0
  | .file => encodeVarint 1
  | .agent => encodeVarint 2

def encodeToolStatus : ToolStatus → List UInt8
  | .ok => encodeVarint 0
  | .toolNotFound => encodeVarint 1
  | .badParams => encodeVarint 2
  | .permissionDenied => encodeVarint 3
  | .quotaExceeded => encodeVarint 4
  | .internalError => encodeVarint 5
  | .notImplemented => encodeVarint 6

/-! ## Encoding of results -/

def encodeProcessInfo (p : ProcessInfo) : List UInt8 :=
  encodeVarint p.pid ++ encodeString p.name ++ encodeProcStatus p.status ++ encodeBool p.isAgent

def encodeFileInfo (f : FileInfo) : List UInt8 :=
  encodeVarint f.inodeId ++ encodeString f.name ++ encodeVarint f.size ++
    encodeSeq encodeString f.tags ++ encodeOption encodeString f.owner ++
    encodeString f.digestPreview

def encodeSystemStatusInfo (i : SystemStatusInfo) : List UInt8 :=
  encodeVarint i.totalProcs ++ encodeVarint i.agentProcs ++ encodeVarint i.runningProcs ++
    encodeVarint i.memoryUsedBytes ++ encodeVarint i.uptimeTicks

def encodeToolDescriptor (d : ToolDescriptor) : List UInt8 :=
  encodeString d.name ++ encodeString d.doc

/-- `QueryResult { items }`, a structure of one sequence. -/
def encodeQueryResult {α : Type} (enc : α → List UInt8) (items : List α) : List UInt8 :=
  encodeSeq enc items

/-! ## Encoding of requests and responses -/

def encodeToolParams : ToolParams → List UInt8
  | .systemStatus => encodeVarint 0
  | .queryProcess status ty =>
    encodeVarint 1 ++ encodeOption encodeProcStatus status ++ encodeAgentTypeFilter ty
  | .readContext targetType targetId =>
    encodeVarint 2 ++ encodeContextTargetType targetType ++ encodeVarint targetId
  | .sendMessage targetPid payload =>
    encodeVarint 3 ++ encodeVarint targetPid ++ encodeBytes payload
  | .queryFile tag owner keyword useIndex =>
    encodeVarint 4 ++ encodeOption encodeString tag ++ encodeOption encodeString owner ++
      encodeOption encodeString keyword ++ encodeBool useIndex

def encodeToolRequest (req : ToolRequest) : List UInt8 :=
  encodeVarint req.reqId ++ encodeToolName req.tool ++ encodeToolParams req.params

def encodeToolResponse (resp : ToolResponse) : List UInt8 :=
  encodeVarint resp.reqId ++ encodeToolStatus resp.status ++ encodeVarint resp.resultOffset ++
    encodeVarint resp.resultLen

/-- Write a frame with a body to a buffer: the length of the frame, and the buffer afterwards. -/
def encodeFrame (body out : List UInt8) : Except Postcard.Error (ℕ × List UInt8) :=
  if h : out.length < frameHeaderSize then .error .serializeBufferFull
  else
    let out := writeFrameHeader out (Nat.le_of_not_lt h)
    match push body (out.drop frameHeaderSize) with
    | .error e => .error e
    | .ok rest => .ok (frameHeaderSize + body.length, out.take frameHeaderSize ++ rest)

def encodeRequest (req : ToolRequest) (out : List UInt8) :
    Except Postcard.Error (ℕ × List UInt8) := encodeFrame (encodeToolRequest req) out

def encodeResponse (resp : ToolResponse) (out : List UInt8) :
    Except Postcard.Error (ℕ × List UInt8) := encodeFrame (encodeToolResponse resp) out

/-! ## Decoding of requests and responses -/

/-- An enumeration without fields, by the position of the variant. -/
def decodeVariant {α : Type} (variants : List α) : Decoder α := do
  let i ← decodeU32
  match variants[i]? with
  | some a => pure a
  | none => failure

def decodeToolName : Decoder ToolName := decodeVariant ToolName.all

def decodeProcStatus : Decoder ProcStatus := decodeVariant [.running, .ready, .zombie, .blocked]

def decodeAgentTypeFilter : Decoder AgentTypeFilter := decodeVariant [.any, .normal, .agent]

def decodeContextTargetType : Decoder ContextTargetType := decodeVariant [.process, .file, .agent]

def decodeToolParams : Decoder ToolParams := do
  let i ← decodeU32
  match i with
  | 0 => pure .systemStatus
  | 1 => do
    let status ← decodeOption decodeProcStatus
    let ty ← decodeAgentTypeFilter
    pure (.queryProcess status ty)
  | 2 => do
    let targetType ← decodeContextTargetType
    let targetId ← decodeU64
    pure (.readContext targetType targetId)
  | 3 => do
    let targetPid ← decodeU64
    let payload ← decodeBytes
    pure (.sendMessage targetPid payload)
  | 4 => do
    let tag ← decodeOption decodeString
    let owner ← decodeOption decodeString
    let keyword ← decodeOption decodeString
    let useIndex ← decodeBool
    pure (.queryFile tag owner keyword useIndex)
  | _ => failure

def decodeToolRequest : Decoder ToolRequest := do
  let reqId ← decodeU64
  let tool ← decodeToolName
  let params ← decodeToolParams
  pure ⟨reqId, tool, params⟩

inductive DecodeError where
  | frame (e : FrameError)
  | postcard
  deriving DecidableEq, Repr

def decodeRequest (buf : List UInt8) : Except DecodeError ToolRequest :=
  match checkFrameHeader buf with
  | .error e => .error (.frame e)
  | .ok bodyOff =>
    match fromBytes decodeToolRequest (buf.drop bodyOff) with
    | some req => .ok req
    | none => .error .postcard

def decodeToolStatus : Decoder ToolStatus :=
  decodeVariant [.ok, .toolNotFound, .badParams, .permissionDenied, .quotaExceeded, .internalError,
    .notImplemented]

def decodeToolResponse : Decoder ToolResponse := do
  let reqId ← decodeU64
  let status ← decodeToolStatus
  let resultOffset ← decodeU32
  let resultLen ← decodeU32
  pure ⟨reqId, status, resultOffset, resultLen⟩

def decodeResponse (buf : List UInt8) : Except DecodeError ToolResponse :=
  match checkFrameHeader buf with
  | .error e => .error (.frame e)
  | .ok bodyOff =>
    match fromBytes decodeToolResponse (buf.drop bodyOff) with
    | some resp => .ok resp
    | none => .error .postcard

example : decodeRequest [0x00, 0x7F, 0xE4, 0xA9, 1, 0, 7, 3, 3, 2, 1, 65]
    = .ok ⟨7, .sendMessage, .sendMessage 2 [65]⟩ := by decide

end AgentOS
