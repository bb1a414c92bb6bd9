import WlMatrix.Sockets.Slice

/-!
# WlMatrix — `P2PCommand` and `P2PCommandParser` (`sockets/msnp2p_command.rs`)

The MSNP2P direct-connection reader. A TCP read hands `parse_message` a chunk of bytes;
the parser prepends what it kept from the previous call, cuts the result into frames
(a `u32` little-endian length, then that many payload bytes), classifies each payload as
a `foo` marker, a 16-byte nonce or a transport packet, and keeps the trailing partial
frame for the next call. A length above 1400 ends the process (`std::process::exit(0)`).

The transport-packet decoder `P2PTransportPacket::try_from` lives outside these sources;
it is a parameter `tryFrom` of the model, an arbitrary partial function. Log output
(`info!`, `warn!`) is not modelled.
-/

namespace WlMatrix

/-- The error enum `crate::models::errors::Errors`, of which this file builds one variant. -/
inductive Errors where
  | PayloadDeserializeError
  deriving DecidableEq, Repr

/-- `P2PCommand`: three parallel fields, of which the constructors set at most one. -/
structure P2PCommand (Pkt : Type) where
  nonce : List UInt8
  isFoo : Bool
  data : Option Pkt
  deriving DecidableEq, Repr

namespace P2PCommand

variable {Pkt : Type}

/-- `P2PCommand::new()`. -/
def new : P2PCommand Pkt := ⟨[], false, none⟩

/-- `P2PCommand::foo()`. -/
def foo : P2PCommand Pkt := ⟨[], true, none⟩

/-- `P2PCommand::nonce(nonce)`. -/
def ofNonce (nonce : List UInt8) : P2PCommand Pkt := ⟨nonce, false, none⟩

/-- `P2PCommand::data(p2p_packet)`. -/
def ofData (p2pPacket : Pkt) : P2PCommand Pkt := ⟨[], false, some p2pPacket⟩

/-- `is_data()`. (`is_foo()` is the field `isFoo`.) -/
def isData (c : P2PCommand Pkt) : Bool := c.data.isSome

/-- `is_nonce()`. -/
def isNonce (c : P2PCommand Pkt) : Bool := !c.nonce.isEmpty

end P2PCommand

/-- `P2PCommandParser`: the bytes of the partial frame kept between two calls. -/
structure P2PCommandParser where
  incompleteCommand : List UInt8
  deriving DecidableEq, Repr

namespace P2PCommandParser

/-- `P2PCommandParser::new()`. -/
def new : P2PCommandParser := ⟨[]⟩

/-- `store_chunked(chunk)`. -/
def storeChunked (_self : P2PCommandParser) (chunk : List UInt8) : P2PCommandParser := ⟨chunk⟩

/-- `pop_chunked()`: `mem::take` of the buffer, which is left empty. -/
def popChunked (self : P2PCommandParser) : List UInt8 × P2PCommandParser :=
  (self.incompleteCommand, ⟨[]⟩)

/-- `get_payload_size(data)`: `LittleEndian::read_u32(&data[0..4]) as usize`. -/
def getPayloadSize (data : List UInt8) : Except Abort Nat :=
  match index data 0 4 with
  | .ok buf => readU32 buf
  | .error e => .error e

/-- `parseNonce(data)`: the first 16 bytes, or `PayloadDeserializeError` on fewer. The
outer `Except` is the slice index panicking, the inner one the function's `Result`. -/
def parseNonce {Pkt : Type} (data : List UInt8) : Except Abort (Except Errors (P2PCommand Pkt)) :=
  if data.length ≥ 16 then
    match index data 0 16 with
    | .ok nonce => .ok (.ok (.ofNonce nonce))
    | .error e => .error e
  else .ok (.error .PayloadDeserializeError)

/-- The bytes `"foo\0"`. -/
def fooBytes : List UInt8 := [102, 111, 111, 0]

section Loop

variable {Pkt ε : Type} (tryFrom : List UInt8 → Except ε Pkt)

/-- `parse_p2p_payload(data, _)`: `P2PCommand::data` of `P2PTransportPacket::try_from(data)`. -/
def parseP2pPayload (data : List UInt8) : Except ε (P2PCommand Pkt) :=
  match tryFrom data with
  | .ok p2pTransportPacket => .ok (.ofData p2pTransportPacket)
  | .error e => .error e

/-- The classification a complete frame's `content` gets in the loop of `parse_message`:
`none` where the code only logs a warning. -/
def commandOfContent (expectingNonce : Bool) (payloadSize : Nat) (content : List UInt8) :
    Except Abort (Option (P2PCommand Pkt)) :=
  if content = fooBytes then
    .ok (some .foo)
  else if payloadSize ≠ 16 ∨ !expectingNonce then
    .ok (parseP2pPayload tryFrom content).toOption
  else
    (parseNonce content).map Except.toOption

-- `hStart` and `hRest` are read only by `decreasing_by`, which the linter does not see.
set_option linter.unusedVariables false in
/-- The `loop` of `parse_message` from `current_slice`, with the commands `out` pushed so
far. It ends with the commands and the slice handed to `store_chunked`. -/
def parseLoop (expectingNonce : Bool) (currentSlice : List UInt8) (out : List (P2PCommand Pkt)) :
    Except Abort (List (P2PCommand Pkt) × List UInt8) :=
  if currentSlice.length ≥ 4 then
    match getPayloadSize currentSlice with
    | .error e => .error e
    | .ok payloadSize =>
      if payloadSize > 1400 then .error (.processExit 0) else
      match usizeAdd payloadSize 4 with
      | .error e => .error e
      | .ok frameEnd =>
        let isChunked := currentSlice.length < frameEnd
        if !isChunked then
          match usizeAdd 4 payloadSize with
          | .error e => .error e
          | .ok contentEnd =>
            match index currentSlice 4 contentEnd with
            | .error e => .error e
            | .ok content =>
              match commandOfContent tryFrom expectingNonce payloadSize content with
              | .error e => .error e
              | .ok command =>
              let out := out ++ command.toList
              match hStart : usizeAdd payloadSize 4 with
              | .error e => .error e
              | .ok restStart =>
                match hRest : index currentSlice restStart currentSlice.length with
                | .error e => .error e
                | .ok rest => parseLoop expectingNonce rest out
        else .ok (out, currentSlice)
  else .ok (out, currentSlice)
termination_by currentSlice.length
decreasing_by
  have hlen := length_of_index_eq_ok hRest
  have := eq_of_usizeAdd_eq_ok hStart
  omega

/-- `parse_message(message, expecting_nonce)`: the commands of every complete frame of
the kept bytes followed by `message`, and the parser keeping the rest. -/
def parseMessage (self : P2PCommandParser) (message : List UInt8) (expectingNonce : Bool) :
    Except Abort (List (P2PCommand Pkt) × P2PCommandParser) :=
  let (previousChunks, self) := self.popChunked
  match parseLoop tryFrom expectingNonce (previousChunks ++ message) [] with
  | .ok (out, stored) => .ok (out, self.storeChunked stored)
  | .error e => .error e

/-! ### What one iteration of the loop does

Four lemmas say everything an iteration can do, guards included: stop on fewer than four
bytes, exit on a declared size above 1400, stop on an incomplete frame, or classify one
complete frame and go on after it. No slice is out of range and no sum overflows on any of
these paths, so no other outcome exists. Later proofs cite these and never unfold
`parseLoop`. -/

variable {tryFrom} {expectingNonce : Bool} {currentSlice : List UInt8}
  {out : List (P2PCommand Pkt)}

theorem getPayloadSize_of_le {data : List UInt8} (h : 4 ≤ data.length) :
    getPayloadSize data = .ok (u32Le data) := by
  have h4 : 4 ≤ (data.take 4).length := by simp only [List.length_take]; omega
  simp only [getPayloadSize, index_of_le (Nat.zero_le 4) h, List.drop_zero, readU32_of_le h4,
    u32Le_take h]

theorem parseLoop_of_lt (h : currentSlice.length < 4) :
    parseLoop tryFrom expectingNonce currentSlice out = .ok (out, currentSlice) := by
  rw [parseLoop, if_neg (by omega)]

theorem parseLoop_of_oversize (h4 : 4 ≤ currentSlice.length) (hbig : 1400 < u32Le currentSlice) :
    parseLoop tryFrom expectingNonce currentSlice out = .error (.processExit 0) := by
  rw [parseLoop, if_pos h4, getPayloadSize_of_le h4]
  simp only [gt_iff_lt, hbig, if_true]

theorem parseLoop_of_chunked (h4 : 4 ≤ currentSlice.length) (hle : u32Le currentSlice ≤ 1400)
    (hshort : currentSlice.length < u32Le currentSlice + 4) :
    parseLoop tryFrom expectingNonce currentSlice out = .ok (out, currentSlice) := by
  rw [parseLoop, if_pos h4, getPayloadSize_of_le h4]
  simp only [gt_iff_lt, Nat.not_lt.mpr hle, if_false,
    usizeAdd_of_lt (show u32Le currentSlice + 4 < 2 ^ 32 by omega), hshort, decide_True,
    Bool.not_true, Bool.false_eq_true]

theorem parseLoop_of_complete (hle : u32Le currentSlice ≤ 1400)
    (hfits : u32Le currentSlice + 4 ≤ currentSlice.length) :
    parseLoop tryFrom expectingNonce currentSlice out =
      (commandOfContent tryFrom expectingNonce (u32Le currentSlice)
          ((currentSlice.take (4 + u32Le currentSlice)).drop 4)).bind fun command =>
        parseLoop tryFrom expectingNonce (currentSlice.drop (u32Le currentSlice + 4))
          (out ++ command.toList) := by
  have h4 : 4 ≤ currentSlice.length := by omega
  have hEnd := usizeAdd_of_lt (show u32Le currentSlice + 4 < 2 ^ 32 by omega)
  have hRest := index_of_le hfits (le_refl currentSlice.length)
  rw [List.take_length] at hRest
  rw [parseLoop, if_pos h4, getPayloadSize_of_le h4]
  simp only [gt_iff_lt, Nat.not_lt.mpr hle, if_false, hEnd,
    usizeAdd_of_lt (show 4 + u32Le currentSlice < 2 ^ 32 by omega),
    Nat.not_lt.mpr hfits, decide_False, Bool.not_false, if_true,
    index_of_le (show 4 ≤ 4 + u32Le currentSlice by omega)
      (show 4 + u32Le currentSlice ≤ currentSlice.length by omega)]
  split
  · next e he => rw [he]; rfl
  · next command he =>
    rw [he]
    -- the two dependent matches kept for `decreasing_by`
    split
    · next he' => rw [hEnd] at he'; cases he'
    · next restStart he' =>
      rw [hEnd] at he'; cases he'
      split
      · next he'' => rw [hRest] at he''; cases he''
      · next rest he'' => rw [hRest] at he''; cases he''; rfl

theorem parseMessage_eq (self : P2PCommandParser) (message : List UInt8) :
    parseMessage tryFrom self message expectingNonce =
      (parseLoop tryFrom expectingNonce (self.incompleteCommand ++ message) []).map
        fun r => (r.1, ⟨r.2⟩) := by
  simp only [parseMessage, popChunked]
  cases parseLoop tryFrom expectingNonce (self.incompleteCommand ++ message) [] <;> rfl

end Loop

end P2PCommandParser

end WlMatrix
