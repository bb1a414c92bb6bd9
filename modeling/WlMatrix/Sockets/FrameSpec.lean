import WlMatrix.Sockets.Msnp2pCommand

/-!
# WlMatrix — the MSNP2P wire format, stated declaratively

What `parse_message` is for, written without its loop. On the wire a frame is a `u32`
little-endian length followed by that many payload bytes (`frame`). Every byte string
splits in exactly one way into whole frames followed by a rest that holds no whole frame
(`Decomposes`, `exists_unique_decomposes`): the split depends on the bytes alone. A
payload becomes one of three commands (`Command`, `classify`), which the code represents
by the three parallel fields of `P2PCommand` (`Command.toP2PCommand`).
-/

namespace WlMatrix

/-! ### Frames and the unique decomposition of a buffer -/

/-- A frame: the payload's length as `u32` little-endian, then the payload. -/
def frame (payload : List UInt8) : List UInt8 := u32LeBytes payload.length ++ payload

/-- `r` starts with a whole frame: a length prefix and all the bytes it declares. -/
def FrameComplete (r : List UInt8) : Prop := 4 ≤ r.length ∧ u32Le r + 4 ≤ r.length

instance : DecidablePred FrameComplete := fun _ => instDecidableAnd

/-- `w` is the frames of `payloads`, in order, followed by a `rest` holding no whole frame.
A payload's length must fit its `u32` prefix. -/
structure Decomposes (w : List UInt8) (payloads : List (List UInt8)) (rest : List UInt8) :
    Prop where
  eq : w = (payloads.map frame).flatten ++ rest
  length_lt : ∀ p ∈ payloads, p.length < 2 ^ 32
  not_frameComplete : ¬ FrameComplete rest

variable {p q w rest : List UInt8} {payloads : List (List UInt8)}

@[simp] theorem length_frame (p : List UInt8) : (frame p).length = p.length + 4 := by
  simp only [frame, List.length_append, length_u32LeBytes]
  omega

theorem u32Le_frame_append (hp : p.length < 2 ^ 32) (t : List UInt8) :
    u32Le (frame p ++ t) = p.length := by
  rw [frame, List.append_assoc, u32Le_u32LeBytes_append hp]

theorem frameComplete_frame_append (hp : p.length < 2 ^ 32) (t : List UInt8) :
    FrameComplete (frame p ++ t) := by
  simp only [FrameComplete, u32Le_frame_append hp, List.length_append, length_frame]
  omega

/-- Two frames that start one buffer are the same frame. -/
theorem frame_append_inj {a b : List UInt8} (hp : p.length < 2 ^ 32) (hq : q.length < 2 ^ 32)
    (h : frame p ++ a = frame q ++ b) : p = q ∧ a = b := by
  have hlen : p.length = q.length := by
    rw [← u32Le_frame_append hp a, h, u32Le_frame_append hq b]
  obtain ⟨hpq, hab⟩ := List.append_inj h (by simp only [length_frame, hlen])
  refine ⟨?_, hab⟩
  simpa only [frame, hlen, List.append_cancel_left_eq] using hpq

theorem content_frame_append (p t : List UInt8) :
    ((frame p ++ t).take (4 + p.length)).drop 4 = p := by
  simp [frame, List.take_append_eq_append_take]

theorem drop_frame_append (p t : List UInt8) : (frame p ++ t).drop (p.length + 4) = t := by
  rw [← length_frame p, List.drop_left]

/-- A buffer that starts with a whole frame is that frame followed by what comes after. -/
theorem eq_frame_append_drop (h : FrameComplete w) :
    w = frame ((w.drop 4).take (u32Le w)) ++ w.drop (u32Le w + 4) := by
  have hk : ((w.drop 4).take (u32Le w)).length = u32Le w := by
    simp only [List.length_take, List.length_drop]
    exact Nat.min_eq_left (by unfold FrameComplete at h; omega)
  rw [frame, hk, u32LeBytes_u32Le h.1, List.append_assoc, Nat.add_comm, ← List.drop_drop,
    List.take_append_drop, List.take_append_drop]

theorem Decomposes.nil (h : ¬ FrameComplete w) : Decomposes w [] w :=
  ⟨by simp, by simp, h⟩

theorem Decomposes.cons (hp : p.length < 2 ^ 32) (h : Decomposes w payloads rest) :
    Decomposes (frame p ++ w) (p :: payloads) rest := by
  refine ⟨?_, ?_, h.not_frameComplete⟩
  · rw [h.eq]; simp
  · intro q hq
    rcases List.mem_cons.mp hq with rfl | hq
    · exact hp
    · exact h.length_lt q hq

theorem Decomposes.tail (h : Decomposes w (p :: payloads) rest) :
    ∃ t, w = frame p ++ t ∧ Decomposes t payloads rest :=
  ⟨_, by simpa using h.eq,
    ⟨rfl, fun r hr => h.length_lt r (List.mem_cons_of_mem p hr), h.not_frameComplete⟩⟩

/-- Decompositions compose: the rest of one, continued, decomposes on its own. -/
theorem Decomposes.append {m rest' : List UInt8} {payloads' : List (List UInt8)}
    (h : Decomposes w payloads rest) (h' : Decomposes (rest ++ m) payloads' rest') :
    Decomposes (w ++ m) (payloads ++ payloads') rest' := by
  refine ⟨?_, ?_, h'.not_frameComplete⟩
  · rw [h.eq, List.append_assoc, h'.eq]; simp
  · intro q hq
    rcases List.mem_append.mp hq with hq | hq
    · exact h.length_lt q hq
    · exact h'.length_lt q hq

/-- Inversion: a decomposition of a buffer holding a whole frame starts with that frame. -/
theorem Decomposes.of_cons (h : Decomposes (frame p ++ w) (q :: payloads) rest)
    (hp : p.length < 2 ^ 32) : p = q ∧ Decomposes w payloads rest := by
  obtain ⟨t, heq, ht⟩ := h.tail
  obtain ⟨rfl, rfl⟩ := frame_append_inj hp (h.length_lt q (List.mem_cons_self q payloads)) heq
  exact ⟨rfl, ht⟩

/-- **The decomposition is unique**: it depends on the bytes of the buffer alone. -/
theorem Decomposes.unique {payloads' : List (List UInt8)} {rest' : List UInt8}
    (h : Decomposes w payloads rest) (h' : Decomposes w payloads' rest') :
    payloads = payloads' ∧ rest = rest' := by
  induction payloads generalizing w payloads' with
  | nil =>
    have hw : w = rest := by simpa using h.eq
    cases payloads' with
    | nil => exact ⟨rfl, hw.symm.trans (by simpa using h'.eq)⟩
    | cons q qs =>
      have hq := h'.length_lt q (List.mem_cons_self q qs)
      have hc : FrameComplete w := by
        rw [h'.eq]; simpa using frameComplete_frame_append hq _
      exact absurd (hw ▸ hc) h.not_frameComplete
  | cons p ps ih =>
    have hp := h.length_lt p (List.mem_cons_self p ps)
    obtain ⟨t, rfl, htail⟩ := h.tail
    cases payloads' with
    | nil =>
      have hw' : frame p ++ t = rest' := by simpa using h'.eq
      exact absurd (hw' ▸ frameComplete_frame_append hp t) h'.not_frameComplete
    | cons q qs =>
      obtain ⟨rfl, h''⟩ := h'.of_cons hp
      obtain ⟨rfl, rfl⟩ := ih htail h''
      exact ⟨rfl, rfl⟩

/-- The decomposition, computed: peel whole frames off the front while there is one. -/
def splitFrames (w : List UInt8) : List (List UInt8) × List UInt8 :=
  if h : FrameComplete w then
    ((w.drop 4).take (u32Le w) :: (splitFrames (w.drop (u32Le w + 4))).1,
      (splitFrames (w.drop (u32Le w + 4))).2)
  else ([], w)
termination_by w.length
decreasing_by all_goals simp only [List.length_drop]; unfold FrameComplete at h; omega

theorem decomposes_splitFrames (w : List UInt8) :
    Decomposes w (splitFrames w).1 (splitFrames w).2 := by
  induction w using splitFrames.induct with
  | case1 w h ih =>
    rw [splitFrames, dif_pos h]
    have hk : ((w.drop 4).take (u32Le w)).length < 2 ^ 32 := by
      simpa only [List.length_take] using Nat.lt_of_le_of_lt (Nat.min_le_left _ _) (u32Le_lt w)
    have hcons := ih.cons hk
    rwa [← eq_frame_append_drop h] at hcons
  | case2 w h =>
    rw [splitFrames, dif_neg h]
    exact .nil h

theorem exists_unique_decomposes (w : List UInt8) :
    ∃! d : List (List UInt8) × List UInt8, Decomposes w d.1 d.2 :=
  ⟨splitFrames w, decomposes_splitFrames w, fun _ hd =>
    Prod.ext (hd.unique (decomposes_splitFrames w)).1 (hd.unique (decomposes_splitFrames w)).2⟩

/-! ### The sanity ceiling -/

/-- Some length prefix of the decomposition declares more than 1400 bytes: a frame's, or
the one at the start of the rest when the rest has four bytes. -/
def Oversize (payloads : List (List UInt8)) (rest : List UInt8) : Prop :=
  (∃ p ∈ payloads, 1400 < p.length) ∨ (4 ≤ rest.length ∧ 1400 < u32Le rest)

instance (payloads : List (List UInt8)) (rest : List UInt8) : Decidable (Oversize payloads rest) :=
  instDecidableOr

/-! ### Commands

The spec's command is a sum of three arms; the code's `P2PCommand` is three parallel
fields, which admit values of no kind or of two kinds. Every command the parser builds is
the image of one arm, so it has exactly one kind (`kindCount_toP2PCommand`). -/

/-- A nonce: exactly 16 bytes. -/
structure Nonce where
  bytes : List UInt8
  length_eq : bytes.length = 16
  deriving DecidableEq

/-- A command: exactly one of the three shapes. -/
inductive Command (Pkt : Type) where
  | foo
  | nonce (n : Nonce)
  | data (packet : Pkt)
  deriving DecidableEq

section Classify

variable {Pkt ε : Type}

/-- The classification of a whole frame's payload as the spec states it: `foo` for the
bytes `66 6F 6F 00`; else a nonce when the payload is 16 bytes long and a nonce is
expected; else the decoded transport packet; a payload the decoder rejects yields nothing. -/
def classify (tryFrom : List UInt8 → Except ε Pkt) (expectingNonce : Bool)
    (payload : List UInt8) : Option (Command Pkt) :=
  if payload = [0x66, 0x6F, 0x6F, 0x00] then some .foo
  else if h : payload.length = 16 ∧ expectingNonce = true then some (.nonce ⟨payload, h.1⟩)
  else match tryFrom payload with
    | .ok packet => some (.data packet)
    | .error _ => none

/-- The `P2PCommand` the code builds for a command. -/
def Command.toP2PCommand : Command Pkt → P2PCommand Pkt
  | .foo => .foo
  | .nonce n => .ofNonce n.bytes
  | .data packet => .ofData packet

/-- How many of `is_foo()`, `is_nonce()`, `is_data()` hold of a command. -/
def P2PCommand.kindCount (c : P2PCommand Pkt) : Nat := [c.isFoo, c.isNonce, c.isData].count true

theorem kindCount_toP2PCommand (c : Command Pkt) : c.toP2PCommand.kindCount = 1 := by
  cases c with
  | foo => rfl
  | nonce n =>
    have hne : n.bytes.isEmpty = false := by
      cases h : n.bytes with
      | nil => simpa [h] using n.length_eq
      | cons _ _ => rfl
    simp [Command.toP2PCommand, P2PCommand.kindCount, P2PCommand.ofNonce, P2PCommand.isNonce,
      P2PCommand.isData, hne]
  | data _ => rfl

/-- The code's inline classification of a whole frame, whose declared size is its
payload's length, is the spec's. -/
theorem commandOfContent_eq_classify (tryFrom : List UInt8 → Except ε Pkt)
    (expectingNonce : Bool) (payload : List UInt8) :
    P2PCommandParser.commandOfContent tryFrom expectingNonce payload.length payload =
      .ok ((classify tryFrom expectingNonce payload).map Command.toP2PCommand) := by
  unfold P2PCommandParser.commandOfContent classify
  by_cases hfoo : payload = P2PCommandParser.fooBytes
  · simp only [hfoo, if_true]; rfl
  · have hfoo' : payload ≠ [0x66, 0x6F, 0x6F, 0x00] := hfoo
    simp only [hfoo, hfoo', if_false]
    by_cases hn : payload.length = 16 ∧ expectingNonce = true
    · have hget : index payload 0 16 = .ok payload := by
        rw [index_of_le (by omega) (by omega), List.drop_zero, ← hn.1, List.take_length]
      simp only [hn, ne_eq, not_true_eq_false, Bool.not_true, Bool.false_eq_true, or_self,
        if_false, and_self, dif_pos, P2PCommandParser.parseNonce, ge_iff_le, le_refl, if_true,
        hget]
      rfl
    · have hn' : payload.length ≠ 16 ∨ !expectingNonce := by
        cases expectingNonce <;> simp_all
      simp only [hn', if_true, dif_neg hn, P2PCommandParser.parseP2pPayload]
      cases tryFrom payload <;> rfl

/-- The payload a command travels in, with `toBytes` writing a transport packet. -/
def Command.payload (toBytes : Pkt → List UInt8) : Command Pkt → List UInt8
  | .foo => [0x66, 0x6F, 0x6F, 0x00]
  | .nonce n => n.bytes
  | .data packet => toBytes packet

variable {tryFrom : List UInt8 → Except ε Pkt} {toBytes : Pkt → List UInt8}

theorem classify_payload_foo (expectingNonce : Bool) :
    classify tryFrom expectingNonce (Command.foo.payload toBytes) = some .foo := rfl

/-- A nonce reads back as itself exactly when nonces are expected. -/
theorem classify_payload_nonce (n : Nonce) :
    classify tryFrom true ((Command.nonce n).payload toBytes) = some (.nonce n) := by
  have hfoo : n.bytes ≠ [0x66, 0x6F, 0x6F, 0x00] := fun h => by simpa [h] using n.length_eq
  simp [classify, Command.payload, hfoo, n.length_eq]

end Classify

end WlMatrix
