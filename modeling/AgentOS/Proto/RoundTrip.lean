import AgentOS.Proto

/-!
# Frames are read back

A frame decodes to the value it was made of, whatever follows it in the buffer, and no proper prefix
of it decodes at all. An encoder fails only on a buffer that is too small for the frame.

The fields of a value are numbers and byte strings of any size here, so it has to be said that they
fit the types they have in the source.
-/

namespace AgentOS

open LittleEndian Postcard

/-! ## Enumerations -/

/-- A variant at a position is read from the code of the position. -/
theorem reads_variant {α : Type} {variants : List α} {i : ℕ} {a : α} (hi : i < 2 ^ 32)
    (h : variants[i]? = some a) : Reads (decodeVariant variants) (encodeVarint i) a := by
  have hread : Reads (decodeVariant variants) (encodeVarint i ++ []) a := (reads_u32 hi).bind (by
    rw [h]
    exact reads_pure a)
  rwa [List.append_nil] at hread

theorem steady_decodeVariant {α : Type} (variants : List α) : Steady (decodeVariant variants) := by
  refine (steady_decodeVarintDigits _ _).bind fun i ↦ ?_
  split
  · exact steady_pure _
  · exact steady_failure

theorem reads_toolName (tool : ToolName) : Reads decodeToolName (encodeToolName tool) tool := by
  cases tool <;> exact reads_variant (by decide) rfl

theorem reads_procStatus (status : ProcStatus) :
    Reads decodeProcStatus (encodeProcStatus status) status := by
  cases status <;> exact reads_variant (by decide) rfl

theorem reads_agentTypeFilter (ty : AgentTypeFilter) :
    Reads decodeAgentTypeFilter (encodeAgentTypeFilter ty) ty := by
  cases ty <;> exact reads_variant (by decide) rfl

theorem reads_contextTargetType (targetType : ContextTargetType) :
    Reads decodeContextTargetType (encodeContextTargetType targetType) targetType := by
  cases targetType <;> exact reads_variant (by decide) rfl

theorem reads_toolStatus (status : ToolStatus) :
    Reads decodeToolStatus (encodeToolStatus status) status := by
  cases status <;> exact reads_variant (by decide) rfl

/-! ## Requests and responses -/

/-- A string is no longer than a machine word can say. -/
def StringFits (s : Option String) : Prop := ∀ t, s = some t → t.utf8ByteSize < 2 ^ 64

/-- The fields fit their types in the source. -/
def ToolParams.Fits : ToolParams → Prop
  | .systemStatus => True
  | .queryProcess _ _ => True
  | .readContext _ targetId => targetId < 2 ^ 64
  | .sendMessage targetPid payload => targetPid < 2 ^ 64 ∧ payload.length < 2 ^ 64
  | .queryFile tag owner keyword _ => StringFits tag ∧ StringFits owner ∧ StringFits keyword

structure ToolRequest.Fits (req : ToolRequest) : Prop where
  reqId : req.reqId < 2 ^ 64
  params : req.params.Fits

structure ToolResponse.Fits (resp : ToolResponse) : Prop where
  reqId : resp.reqId < 2 ^ 64
  resultOffset : resp.resultOffset < 2 ^ 32
  resultLen : resp.resultLen < 2 ^ 32

theorem reads_toolParams {params : ToolParams} (h : params.Fits) :
    Reads decodeToolParams (encodeToolParams params) params := by
  have tagged : ∀ {i : ℕ} {code : List UInt8} {f : ℕ → Decoder ToolParams}, i < 2 ^ 32 →
      Reads (f i) code params → Reads (decodeU32 >>= f) (encodeVarint i ++ code) params :=
    fun hi hcode ↦ (reads_u32 hi).bind hcode
  cases params with
  | systemStatus =>
    intro rest
    rw [decodeToolParams, bind_apply, encodeToolParams, reads_u32 (by decide)]
    rfl
  | queryProcess status ty =>
    rw [encodeToolParams, List.append_assoc]
    exact tagged (by decide) ((reads_option fun status _ ↦ reads_procStatus status).bind
      ((reads_agentTypeFilter ty).map _))
  | readContext targetType targetId =>
    rw [encodeToolParams, List.append_assoc]
    exact tagged (by decide) ((reads_contextTargetType targetType).bind ((reads_u64 h).map _))
  | sendMessage targetPid payload =>
    rw [encodeToolParams, List.append_assoc]
    exact tagged (by decide) ((reads_u64 h.1).bind ((reads_bytes h.2).map _))
  | queryFile tag owner keyword useIndex =>
    obtain ⟨htag, howner, hkeyword⟩ := h
    have string : ∀ {s : Option String}, StringFits s →
        Reads (decodeOption decodeString) (encodeOption encodeString s) s :=
      fun hs ↦ reads_option fun t ht ↦ reads_string (hs t ht)
    rw [encodeToolParams, List.append_assoc, List.append_assoc, List.append_assoc]
    exact tagged (by decide) ((string htag).bind ((string howner).bind
      ((string hkeyword).bind ((reads_bool useIndex).map _))))

theorem reads_toolRequest {req : ToolRequest} (h : req.Fits) :
    Reads decodeToolRequest (encodeToolRequest req) req := by
  rw [encodeToolRequest, List.append_assoc]
  exact (reads_u64 h.reqId).bind ((reads_toolName req.tool).bind ((reads_toolParams h.params).map _))

theorem reads_toolResponse {resp : ToolResponse} (h : resp.Fits) :
    Reads decodeToolResponse (encodeToolResponse resp) resp := by
  rw [encodeToolResponse, List.append_assoc, List.append_assoc]
  exact (reads_u64 h.reqId).bind ((reads_toolStatus resp.status).bind
    ((reads_u32 h.resultOffset).bind ((reads_u32 h.resultLen).map _)))

theorem steady_decodeToolParams : Steady decodeToolParams := by
  have hoption : Steady (decodeOption decodeString) := steady_decodeOption steady_decodeString
  refine (steady_decodeVarintDigits _ _).bind fun i ↦ ?_
  split
  · exact steady_pure _
  · exact (steady_decodeOption (steady_decodeVariant _)).bind fun _ ↦
      (steady_decodeVariant _).bind fun _ ↦ steady_pure _
  · exact (steady_decodeVariant _).bind fun _ ↦
      (steady_decodeVarintDigits _ _).bind fun _ ↦ steady_pure _
  · exact (steady_decodeVarintDigits _ _).bind fun _ ↦
      steady_decodeBytes.bind fun _ ↦ steady_pure _
  · exact hoption.bind fun _ ↦ hoption.bind fun _ ↦ hoption.bind fun _ ↦
      steady_decodeBool.bind fun _ ↦ steady_pure _
  · exact steady_failure

theorem steady_decodeToolRequest : Steady decodeToolRequest :=
  (steady_decodeVarintDigits _ _).bind fun _ ↦ (steady_decodeVariant _).bind fun _ ↦
    steady_decodeToolParams.bind fun _ ↦ steady_pure _

theorem steady_decodeToolResponse : Steady decodeToolResponse :=
  (steady_decodeVarintDigits _ _).bind fun _ ↦ (steady_decodeVariant _).bind fun _ ↦
    (steady_decodeVarintDigits _ _).bind fun _ ↦ (steady_decodeVarintDigits _ _).bind fun _ ↦
      steady_pure _

/-! ## Frames -/

section Frames

variable {α : Type}

/-- A frame with a body. -/
def frame (body : List UInt8) : List UInt8 := leBytes 4 protoMagic ++ leBytes 2 protoVersion ++ body

theorem length_frame (body : List UInt8) :
    (frame body).length = frameHeaderSize + body.length := by
  simp [frame, frameHeaderSize]
  omega

/-- The decoders of both kinds of frames. -/
def decodeFrame (dec : Decoder α) (buf : List UInt8) : Except DecodeError α :=
  match checkFrameHeader buf with
  | .error e => .error (.frame e)
  | .ok bodyOff =>
    match fromBytes dec (buf.drop bodyOff) with
    | some a => .ok a
    | none => .error .postcard

theorem checkFrameHeader_frame (body : List UInt8) :
    checkFrameHeader (frame body) = .ok frameHeaderSize := by
  rw [checkFrameHeader, if_neg (by rw [length_frame]; omega)]
  have hmagic : (frame body).take 4 = leBytes 4 protoMagic := by
    rw [frame, List.append_assoc]
    exact List.take_left' (length_leBytes 4 _)
  have hversion : ((frame body).drop 4).take 2 = leBytes 2 protoVersion := by
    rw [frame, List.append_assoc, List.drop_left' (length_leBytes 4 _)]
    exact List.take_left' (length_leBytes 2 _)
  rw [hmagic, hversion, if_neg (not_not.mpr (leValue_leBytes_of_lt (by decide))),
    if_neg (not_not.mpr (leValue_leBytes_of_lt (by decide)))]

theorem drop_frame (body : List UInt8) : (frame body).drop frameHeaderSize = body :=
  List.drop_left' rfl

/-- A frame is read, whatever follows it. -/
theorem decodeFrame_append {dec : Decoder α} {body : List UInt8} {a : α} (h : Reads dec body a)
    (more : List UInt8) : decodeFrame dec (frame body ++ more) = .ok a := by
  have hframe : frame body ++ more = frame (body ++ more) := by
    rw [frame, frame, List.append_assoc]
  rw [hframe, decodeFrame, checkFrameHeader_frame]
  dsimp only
  rw [drop_frame, fromBytes, h more]
  rfl

/-- Part of a frame is not. -/
theorem decodeFrame_take {dec : Decoder α} {body : List UInt8} {a : α} (h : Reads dec body a)
    (hsteady : Steady dec) {m : ℕ} (hm : m < (frame body).length) (b : α) :
    decodeFrame dec ((frame body).take m) ≠ .ok b := by
  have hlength : ((frame body).take m).length = m := List.length_take_of_le hm.le
  rw [length_frame] at hm
  rcases Nat.lt_or_ge m frameHeaderSize with hshort | hlong
  · rw [decodeFrame, checkFrameHeader, if_pos (by rwa [hlength])]
    exact nofun
  · have htake : (frame body).take m = frame (body.take (m - frameHeaderSize)) := by
      have hall : m ≥ (leBytes 4 protoMagic ++ leBytes 2 protoVersion).length := hlong
      rw [frame, List.take_append, List.take_of_length_le hall]
      rfl
    rw [htake, decodeFrame, checkFrameHeader_frame]
    dsimp only
    have hnone : dec (body.take (m - frameHeaderSize)) = none :=
      h.none_of_prefix hsteady (List.take_prefix _ _) (by rw [List.length_take]; omega)
    rw [drop_frame, fromBytes, hnone]
    exact nofun

theorem encodeFrame_eq (body out : List UInt8) : encodeFrame body out =
    if (frame body).length ≤ out.length then
      .ok ((frame body).length, frame body ++ out.drop (frame body).length)
    else .error .serializeBufferFull := by
  rw [encodeFrame]
  by_cases hshort : out.length < frameHeaderSize
  · rw [dif_pos hshort, if_neg (by rw [length_frame]; omega)]
  · have htail : (writeFrameHeader out (Nat.le_of_not_lt hshort)).drop frameHeaderSize =
        out.drop frameHeaderSize := List.drop_left' rfl
    have hhead : (writeFrameHeader out (Nat.le_of_not_lt hshort)).take frameHeaderSize =
        leBytes 4 protoMagic ++ leBytes 2 protoVersion := List.take_left' rfl
    rw [dif_neg hshort]
    simp only [htail, hhead, push_eq, List.length_drop, List.drop_drop, length_frame]
    by_cases hfits : body.length ≤ out.length - frameHeaderSize
    · rw [if_pos hfits, if_pos (by omega), frame]
      simp only [List.append_assoc]
    · rw [if_neg hfits, if_neg (by omega)]

/-- What an encoder and a decoder of frames owe each other, for a value and a buffer. -/
structure RoundTrips (encode : α → List UInt8 → Except Postcard.Error (ℕ × List UInt8))
    (decode : List UInt8 → Except DecodeError α) (code : List UInt8) (a : α) (out : List UInt8) :
    Prop where
  /-- Encoding fails exactly when the frame does not fit. -/
  full : encode a out = .error .serializeBufferFull ↔ out.length < code.length
  /-- Else it says how long the frame is, and writes it to the front of the buffer. -/
  fits : code.length ≤ out.length →
    ∃ out', encode a out = .ok (code.length, out') ∧ out'.take code.length = code
  reads : ∀ more, decode (code ++ more) = .ok a
  cut : ∀ m < code.length, ∀ b, decode (code.take m) ≠ .ok b

theorem roundTrips {encode : α → List UInt8 → Except Postcard.Error (ℕ × List UInt8)}
    {decode : List UInt8 → Except DecodeError α} {dec : Decoder α} {body : List UInt8} {a : α}
    (hencode : ∀ out, encode a out = encodeFrame body out)
    (hdecode : ∀ buf, decode buf = decodeFrame dec buf) (h : Reads dec body a)
    (hsteady : Steady dec) (out : List UInt8) : RoundTrips encode decode (frame body) a out where
  full := by
    rw [hencode, encodeFrame_eq]
    split_ifs with hfits
    · exact iff_of_false nofun (Nat.not_lt.mpr hfits)
    · exact iff_of_true rfl (Nat.lt_of_not_le hfits)
  fits hfits := by
    rw [hencode, encodeFrame_eq, if_pos hfits]
    exact ⟨_, rfl, List.take_left⟩
  reads more := (hdecode _).trans (decodeFrame_append h more)
  cut m hm b := by
    rw [hdecode]
    exact decodeFrame_take h hsteady hm b

end Frames

/-- The frame of a request. -/
def requestFrame (req : ToolRequest) : List UInt8 := frame (encodeToolRequest req)

/-- The frame of a response. -/
def responseFrame (resp : ToolResponse) : List UInt8 := frame (encodeToolResponse resp)

theorem decodeRequest_eq (buf : List UInt8) :
    decodeRequest buf = decodeFrame decodeToolRequest buf := by
  unfold decodeRequest decodeFrame
  cases checkFrameHeader buf with
  | error e => rfl
  | ok bodyOff =>
    dsimp only
    cases fromBytes decodeToolRequest (buf.drop bodyOff) <;> rfl

theorem decodeResponse_eq (buf : List UInt8) :
    decodeResponse buf = decodeFrame decodeToolResponse buf := by
  unfold decodeResponse decodeFrame
  cases checkFrameHeader buf with
  | error e => rfl
  | ok bodyOff =>
    dsimp only
    cases fromBytes decodeToolResponse (buf.drop bodyOff) <;> rfl

/-- **Requests and responses are read back** from every buffer that their frames fit in, and from no
part of a frame. -/
theorem frames_roundTrip :
    (∀ req : ToolRequest, req.Fits → ∀ out,
      RoundTrips encodeRequest decodeRequest (requestFrame req) req out) ∧
    ∀ resp : ToolResponse, resp.Fits → ∀ out,
      RoundTrips encodeResponse decodeResponse (responseFrame resp) resp out := by
  constructor
  · intro req h
    have hencode : ∀ out, encodeRequest req out = encodeFrame (encodeToolRequest req) out :=
      fun _ ↦ rfl
    exact roundTrips hencode decodeRequest_eq (reads_toolRequest h) steady_decodeToolRequest
  · intro resp h
    have hencode : ∀ out, encodeResponse resp out = encodeFrame (encodeToolResponse resp) out :=
      fun _ ↦ rfl
    exact roundTrips hencode decodeResponse_eq (reads_toolResponse h) steady_decodeToolResponse

/-- A frame of fourteen bytes in a buffer of sixteen. -/
theorem frames_roundTrip_message :
    RoundTrips encodeRequest decodeRequest
      (requestFrame ⟨300, .sendMessage, .sendMessage 2 [72, 105]⟩)
      ⟨300, .sendMessage, .sendMessage 2 [72, 105]⟩ (List.replicate 16 0) ∧
    RoundTrips encodeResponse decodeResponse (responseFrame ⟨300, .ok, 4096, 7⟩) ⟨300, .ok, 4096, 7⟩
      (List.replicate 16 0) :=
  ⟨frames_roundTrip.1 ⟨300, .sendMessage, .sendMessage 2 [72, 105]⟩
      ⟨by decide, show (2 : ℕ) < 2 ^ 64 ∧ ([72, 105] : List UInt8).length < 2 ^ 64 by decide⟩ _,
    frames_roundTrip.2 ⟨300, .ok, 4096, 7⟩ ⟨by decide, by decide, by decide⟩ _⟩

end AgentOS
