import WlMatrix.Sockets.FrameSpec

/-!
# WlMatrix — `parse_message` computes the frame decomposition

The loop of `parse_message` meets the declarative wire format of `FrameSpec`: on a buffer
that decomposes into the frames `payloads` and the rest `rest`, it exits when some length
prefix exceeds 1400 (`Oversize`) and otherwise returns the classified frames, in order,
and keeps exactly `rest` (`parseLoop_of_decomposes`). Every buffer decomposes, so this
describes every call:

* `parseMessage_spec` — the whole contract of one call;
* `parseMessage_ok_or_exit` — no slice index is out of range and no sum overflows, on any
  input: a call returns or takes the oversize exit;
* `incompleteCommand_bounded` — along any run of calls from `P2PCommandParser::new()`, the
  kept bytes are the rest of the decomposition of everything fed so far, a proper prefix
  of a frame of at most 1400 bytes, so at most 1403 bytes long.
-/

namespace WlMatrix

open P2PCommandParser

section

variable {Pkt ε : Type} (tryFrom : List UInt8 → Except ε Pkt) (expectingNonce : Bool)

/-- The commands of the frames `payloads`, in order: each classified, those the decoder
rejects dropped. -/
def frameCommands (payloads : List (List UInt8)) : List (P2PCommand Pkt) :=
  (payloads.filterMap (classify tryFrom expectingNonce)).map Command.toP2PCommand

variable {tryFrom expectingNonce} {p t w rest : List UInt8} {payloads : List (List UInt8)}
  {out : List (P2PCommand Pkt)}

theorem frameCommands_cons :
    frameCommands tryFrom expectingNonce (p :: payloads) =
      ((classify tryFrom expectingNonce p).map Command.toP2PCommand).toList ++
        frameCommands tryFrom expectingNonce payloads := by
  unfold frameCommands
  cases h : classify tryFrom expectingNonce p <;> simp [List.filterMap_cons, h]

theorem oversize_nil : Oversize [] rest ↔ 4 ≤ rest.length ∧ 1400 < u32Le rest := by
  simp [Oversize]

theorem oversize_cons :
    Oversize (p :: payloads) rest ↔ 1400 < p.length ∨ Oversize payloads rest := by
  simp only [Oversize, List.mem_cons, exists_eq_or_imp, or_assoc]

/-! ### The loop over the pieces of a decomposition -/

/-- On a buffer holding no whole frame the loop stops at once, or exits on its prefix. -/
theorem parseLoop_of_not_frameComplete (h : ¬ FrameComplete rest) :
    parseLoop tryFrom expectingNonce rest out =
      if 4 ≤ rest.length ∧ 1400 < u32Le rest then .error (.processExit 0)
      else .ok (out, rest) := by
  unfold FrameComplete at h
  by_cases h4 : 4 ≤ rest.length
  · by_cases hbig : 1400 < u32Le rest
    · rw [parseLoop_of_oversize h4 hbig, if_pos ⟨h4, hbig⟩]
    · rw [parseLoop_of_chunked h4 (by omega) (by omega), if_neg (by omega)]
  · rw [parseLoop_of_lt (by omega), if_neg (by omega)]

/-- One whole frame of at most 1400 bytes: classify it and go on after it. -/
theorem parseLoop_frame_append (hp : p.length ≤ 1400) :
    parseLoop tryFrom expectingNonce (frame p ++ t) out =
      parseLoop tryFrom expectingNonce t
        (out ++ ((classify tryFrom expectingNonce p).map Command.toP2PCommand).toList) := by
  have hu := u32Le_frame_append (show p.length < 2 ^ 32 by omega) t
  rw [parseLoop_of_complete (by omega) (by simp only [hu, List.length_append, length_frame]; omega),
    hu, content_frame_append, drop_frame_append, commandOfContent_eq_classify]
  rfl

/-- A frame declaring more than 1400 bytes ends the process. -/
theorem parseLoop_frame_append_oversize (hp : 1400 < p.length) (hlt : p.length < 2 ^ 32) :
    parseLoop tryFrom expectingNonce (frame p ++ t) out = .error (.processExit 0) :=
  parseLoop_of_oversize (by simp only [List.length_append, length_frame]; omega)
    (by rwa [u32Le_frame_append hlt])

/-- **The loop computes the decomposition.** -/
theorem parseLoop_of_decomposes (h : Decomposes w payloads rest) (out : List (P2PCommand Pkt)) :
    parseLoop tryFrom expectingNonce w out =
      if Oversize payloads rest then .error (.processExit 0)
      else .ok (out ++ frameCommands tryFrom expectingNonce payloads, rest) := by
  induction payloads generalizing w out with
  | nil =>
    obtain rfl : w = rest := by simpa using h.eq
    rw [parseLoop_of_not_frameComplete h.not_frameComplete]
    simp [oversize_nil, frameCommands]
  | cons p ps ih =>
    obtain ⟨t, rfl, ht⟩ := h.tail
    by_cases hp : p.length ≤ 1400
    · rw [parseLoop_frame_append hp, ih ht, frameCommands_cons]
      simp only [oversize_cons, Nat.not_lt.mpr hp, false_or, List.append_assoc]
    · rw [parseLoop_frame_append_oversize (by omega) (h.length_lt p (List.mem_cons_self p ps)),
        if_pos (oversize_cons.mpr (.inl (by omega)))]

theorem parseMessage_of_decomposes {self : P2PCommandParser} {message : List UInt8}
    (h : Decomposes (self.incompleteCommand ++ message) payloads rest) :
    parseMessage tryFrom self message expectingNonce =
      if Oversize payloads rest then .error (.processExit 0)
      else .ok (frameCommands tryFrom expectingNonce payloads, ⟨rest⟩) := by
  rw [parseMessage_eq, parseLoop_of_decomposes h]
  split <;> rfl

/-- Inversion of a call that returns: it kept the rest of a decomposition in which no
length prefix is over the ceiling, and returned that decomposition's commands. -/
theorem parseMessage_eq_ok {self self' : P2PCommandParser} {message : List UInt8}
    {cmds : List (P2PCommand Pkt)}
    (h : parseMessage tryFrom self message expectingNonce = .ok (cmds, self')) :
    ∃ payloads,
      Decomposes (self.incompleteCommand ++ message) payloads self'.incompleteCommand ∧
      ¬ Oversize payloads self'.incompleteCommand ∧
      cmds = frameCommands tryFrom expectingNonce payloads := by
  obtain ⟨d, hd, -⟩ := exists_unique_decomposes (self.incompleteCommand ++ message)
  rw [parseMessage_of_decomposes hd] at h
  split at h
  · cases h
  · next ho =>
    cases h
    exact ⟨d.1, hd, ho, rfl⟩

theorem kindCount_of_mem_frameCommands {c : P2PCommand Pkt}
    (hc : c ∈ frameCommands tryFrom expectingNonce payloads) : c.kindCount = 1 := by
  obtain ⟨c', -, rfl⟩ := List.mem_map.mp hc
  exact kindCount_toP2PCommand c'

end

/-! ### One call -/

section

variable {Pkt ε : Type}

/-- **The contract of one call.** The kept bytes followed by the message decompose in
exactly one way. The call exits iff a length prefix of that decomposition declares more
than 1400 bytes; otherwise it returns the classification of each frame, in order, and
keeps exactly the rest. Every command it returns has exactly one of the three kinds. -/
theorem parseMessage_spec (tryFrom : List UInt8 → Except ε Pkt) (self : P2PCommandParser)
    (message : List UInt8) (expectingNonce : Bool) :
    ∃ d : List (List UInt8) × List UInt8,
      (Decomposes (self.incompleteCommand ++ message) d.1 d.2 ∧
        ∀ d' : List (List UInt8) × List UInt8,
          Decomposes (self.incompleteCommand ++ message) d'.1 d'.2 → d' = d) ∧
      parseMessage tryFrom self message expectingNonce =
        (if Oversize d.1 d.2 then .error (.processExit 0)
        else .ok ((d.1.filterMap (classify tryFrom expectingNonce)).map Command.toP2PCommand,
          ⟨d.2⟩)) ∧
      ∀ cmds self', parseMessage tryFrom self message expectingNonce = .ok (cmds, self') →
        ∀ c ∈ cmds, c.kindCount = 1 := by
  obtain ⟨d, hd, huniq⟩ := exists_unique_decomposes (self.incompleteCommand ++ message)
  refine ⟨d, ⟨hd, huniq⟩, parseMessage_of_decomposes hd, fun cmds self' h c hc => ?_⟩
  obtain ⟨payloads, -, -, rfl⟩ := parseMessage_eq_ok h
  exact kindCount_of_mem_frameCommands hc

/-- **No panic.** On every input every slice the loop takes is in range and no `usize` sum
overflows: a call returns, or ends the process at the sanity ceiling. -/
theorem parseMessage_ok_or_exit (tryFrom : List UInt8 → Except ε Pkt) (self : P2PCommandParser)
    (message : List UInt8) (expectingNonce : Bool) :
    (∃ r, parseMessage tryFrom self message expectingNonce = .ok r) ∨
      parseMessage tryFrom self message expectingNonce = .error (.processExit 0) := by
  obtain ⟨d, hd, -⟩ := exists_unique_decomposes (self.incompleteCommand ++ message)
  rw [parseMessage_of_decomposes hd]
  split
  · exact .inr rfl
  · exact .inl ⟨_, rfl⟩

/-- **Round trip.** Commands written as frames, each at most 1400 bytes and each read
back as itself under the flag, are parsed back by a fresh parser, in order, with nothing
kept. -/
theorem parseMessage_encode {tryFrom : List UInt8 → Except ε Pkt} {toBytes : Pkt → List UInt8}
    {expectingNonce : Bool} (cs : List (Command Pkt))
    (hlen : ∀ c ∈ cs, (c.payload toBytes).length ≤ 1400)
    (hcls : ∀ c ∈ cs, classify tryFrom expectingNonce (c.payload toBytes) = some c) :
    parseMessage tryFrom P2PCommandParser.new
        (cs.map fun c => frame (c.payload toBytes)).flatten expectingNonce =
      .ok (cs.map Command.toP2PCommand, P2PCommandParser.new) := by
  have hd : Decomposes (P2PCommandParser.new.incompleteCommand ++
      (cs.map fun c => frame (c.payload toBytes)).flatten) (cs.map (Command.payload toBytes)) [] :=
    ⟨by simp [P2PCommandParser.new, Function.comp_def], fun p hp => by
      obtain ⟨c, hc, rfl⟩ := List.mem_map.mp hp
      exact Nat.lt_of_le_of_lt (hlen c hc) (by norm_num), by simp [FrameComplete]⟩
  have ho : ¬ Oversize (cs.map (Command.payload toBytes)) [] := by
    rintro (⟨_, hp, hbig⟩ | ⟨h4, -⟩)
    · obtain ⟨c, hc, rfl⟩ := List.mem_map.mp hp
      exact absurd (hlen c hc) (Nat.not_le.mpr hbig)
    · simp at h4
  have hcmds : frameCommands tryFrom expectingNonce (cs.map (Command.payload toBytes)) =
      cs.map Command.toP2PCommand := by
    simp only [frameCommands, List.filterMap_map, Function.comp_def]
    rw [List.filterMap_eq_map_iff_forall_eq_some.mpr hcls, List.map_id']
  rw [parseMessage_of_decomposes hd, if_neg ho, hcmds]
  rfl

/-- A `foo` marker and a nonce, written as frames, read back by a parser expecting a
nonce, with a decoder that accepts nothing. -/
theorem parseMessage_encode_foo_nonce :
    let cs : List (Command Unit) := [.foo, .nonce ⟨List.replicate 16 0, rfl⟩]
    let tryFrom : List UInt8 → Except Unit Unit := fun _ => .error ()
    ((∀ c ∈ cs, (c.payload fun _ => []).length ≤ 1400) ∧
        ∀ c ∈ cs, classify tryFrom true (c.payload fun _ => []) = some c) ∧
      parseMessage tryFrom P2PCommandParser.new
          (cs.map fun c => frame (c.payload fun _ => [])).flatten true =
        .ok (cs.map Command.toP2PCommand, P2PCommandParser.new) :=
  have hlen : ∀ c ∈ ([.foo, .nonce ⟨List.replicate 16 0, rfl⟩] : List (Command Unit)),
      (c.payload fun _ => []).length ≤ 1400 := by decide
  have hcls : ∀ c ∈ ([.foo, .nonce ⟨List.replicate 16 0, rfl⟩] : List (Command Unit)),
      classify (fun _ => (.error () : Except Unit Unit)) true (c.payload fun _ => []) =
        some c := by
    simp only [List.mem_cons, List.mem_singleton, List.not_mem_nil, or_false]
    rintro c (rfl | rfl)
    · exact classify_payload_foo true
    · exact classify_payload_nonce _
  ⟨⟨hlen, hcls⟩, parseMessage_encode _ hlen hcls⟩

/-! ### Runs of calls -/

/-- A proper prefix of a frame: fewer than four bytes, or a length prefix of at most 1400
followed by fewer bytes than it declares. -/
def PartialFrame (r : List UInt8) : Prop :=
  r.length < 4 ∨ 4 ≤ r.length ∧ u32Le r ≤ 1400 ∧ r.length < 4 + u32Le r

theorem PartialFrame.length_le {r : List UInt8} (h : PartialFrame r) : r.length ≤ 1403 := by
  unfold PartialFrame at h
  omega

theorem partialFrame_of_not_oversize {payloads : List (List UInt8)} {r : List UInt8}
    (hc : ¬ FrameComplete r) (ho : ¬ Oversize payloads r) : PartialFrame r := by
  simp only [Oversize, not_or, not_and, Nat.not_lt] at ho
  unfold FrameComplete at hc
  unfold PartialFrame
  omega

/-- The parsers one connection reaches after being fed `stream`: `P2PCommandParser::new()`,
then calls of `parse_message` that return, with any messages and any flags. -/
inductive Reachable (tryFrom : List UInt8 → Except ε Pkt) :
    List UInt8 → P2PCommandParser → Prop
  | new : Reachable tryFrom [] P2PCommandParser.new
  | parseMessage {stream message : List UInt8} {self self' : P2PCommandParser}
      {expectingNonce : Bool} {cmds : List (P2PCommand Pkt)}
      (hreach : Reachable tryFrom stream self)
      (hcall : P2PCommandParser.parseMessage tryFrom self message expectingNonce =
        .ok (cmds, self')) :
      Reachable tryFrom (stream ++ message) self'

/-- **The kept bytes stay bounded.** After every call of every run from
`P2PCommandParser::new()` in which no call exits, the kept bytes are the rest of the
decomposition of everything fed so far, and a proper prefix of a frame of at most 1400
bytes: at most 1403 bytes, whatever the peer sends. -/
theorem incompleteCommand_bounded {tryFrom : List UInt8 → Except ε Pkt} {stream : List UInt8}
    {self : P2PCommandParser} (h : Reachable tryFrom stream self) :
    (∃ payloads, Decomposes stream payloads self.incompleteCommand) ∧
      PartialFrame self.incompleteCommand ∧ self.incompleteCommand.length ≤ 1403 := by
  induction h with
  | new =>
    have hnil : ¬ FrameComplete [] := by simp [FrameComplete]
    exact ⟨⟨[], .nil hnil⟩, .inl (by simp [P2PCommandParser.new]),
      by simp [P2PCommandParser.new]⟩
  | parseMessage _ hcall ih =>
    obtain ⟨⟨payloads, hd⟩, -, -⟩ := ih
    obtain ⟨payloads', hd', ho, -⟩ := parseMessage_eq_ok hcall
    have hpart := partialFrame_of_not_oversize hd'.not_frameComplete ho
    exact ⟨⟨_, hd.append hd'⟩, hpart, hpart.length_le⟩

/-- A decoder that accepts nothing, for runs on fixed inputs. -/
def rejectAll (_ : List UInt8) : Except Unit Unit := .error ()

/-- A fresh parser fed the two bytes `04 00` of a length prefix keeps them. -/
theorem reachable_truncated_header : Reachable rejectAll [4, 0] ⟨[4, 0]⟩ :=
  .parseMessage .new (show parseMessage rejectAll P2PCommandParser.new [4, 0] false =
    .ok ([], ⟨[4, 0]⟩) by rw [parseMessage_eq, parseLoop_of_lt (by decide)]; rfl)

/-- The truncated length prefix `04 00` is kept whole. -/
theorem incompleteCommand_bounded_truncated_prefix :
    Reachable rejectAll [4, 0] ⟨[4, 0]⟩ ∧
      ((∃ payloads, Decomposes [4, 0] payloads [4, 0]) ∧ PartialFrame [4, 0] ∧
        [(4 : UInt8), 0].length ≤ 1403) :=
  ⟨reachable_truncated_header, incompleteCommand_bounded reachable_truncated_header⟩

end

end WlMatrix
