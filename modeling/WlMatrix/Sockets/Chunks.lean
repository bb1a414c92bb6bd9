import WlMatrix.Sockets.ParseMessage

/-!
# WlMatrix — feeding a stream in chunks

TCP hands the reader its bytes in chunks that need not align with frames. Since a call
keeps exactly the rest of the decomposition of what it saw (`parseMessage_of_decomposes`),
and the rest of one decomposition followed by more bytes decomposes on its own
(`Decomposes.append`), two calls do what one call on the concatenation does
(`parseMessage_append`). By induction over the chunks, a read loop over any split of a
stream returns what one call on the whole stream returns (`parseChunks_eq`), from
`P2PCommandParser::new()` and from every parser a connection reaches.
-/

namespace WlMatrix

open P2PCommandParser

section

variable {Pkt ε : Type} (tryFrom : List UInt8 → Except ε Pkt) (expectingNonce : Bool)

/-- A connection's read loop: `parse_message` on each chunk in order, with one flag, and
the commands of all calls concatenated. The first exit ends the process, so the run. -/
def parseChunks (self : P2PCommandParser) :
    List (List UInt8) → Except Abort (List (P2PCommand Pkt) × P2PCommandParser)
  | [] => .ok ([], self)
  | chunk :: chunks =>
    match parseMessage tryFrom self chunk expectingNonce with
    | .error e => .error e
    | .ok (out, self') =>
      match parseChunks self' chunks with
      | .error e => .error e
      | .ok (rest, self'') => .ok (out ++ rest, self'')

variable {tryFrom expectingNonce}

theorem frameCommands_append (payloads payloads' : List (List UInt8)) :
    frameCommands tryFrom expectingNonce (payloads ++ payloads') =
      frameCommands tryFrom expectingNonce payloads ++
        frameCommands tryFrom expectingNonce payloads' := by
  simp only [frameCommands, List.filterMap_append, List.map_append]

theorem oversize_append {payloads payloads' : List (List UInt8)} {rest : List UInt8} :
    Oversize (payloads ++ payloads') rest ↔
      (∃ p ∈ payloads, 1400 < p.length) ∨ Oversize payloads' rest := by
  simp only [Oversize, List.mem_append, or_and_right, exists_or, or_assoc]

/-- A buffer whose first length prefix is over the ceiling decomposes with an oversize
prefix, whether or not that frame is whole. -/
theorem oversize_of_decomposes {x rest : List UInt8} {payloads : List (List UInt8)}
    (hd : Decomposes x payloads rest) (h4 : 4 ≤ x.length) (hbig : 1400 < u32Le x) :
    Oversize payloads rest := by
  cases payloads with
  | nil =>
    obtain rfl : x = rest := by simpa using hd.eq
    exact .inr ⟨h4, hbig⟩
  | cons q qs =>
    obtain ⟨t, rfl, -⟩ := hd.tail
    rw [u32Le_frame_append (hd.length_lt q (List.mem_cons_self q qs))] at hbig
    exact .inl ⟨q, List.mem_cons_self q qs, hbig⟩

/-- **Two calls are one call on the concatenation.** -/
theorem parseMessage_append (self : P2PCommandParser) (a b : List UInt8) :
    parseMessage tryFrom self (a ++ b) expectingNonce =
      match parseMessage tryFrom self a expectingNonce with
      | .error e => .error e
      | .ok (out, self') =>
        match parseMessage tryFrom self' b expectingNonce with
        | .error e => .error e
        | .ok (rest, self'') => .ok (out ++ rest, self'') := by
  obtain ⟨d, hd, -⟩ := exists_unique_decomposes (self.incompleteCommand ++ a)
  obtain ⟨d', hd', -⟩ := exists_unique_decomposes (d.2 ++ b)
  have hab : Decomposes (self.incompleteCommand ++ (a ++ b)) (d.1 ++ d'.1) d'.2 := by
    rw [← List.append_assoc]; exact hd.append hd'
  rw [parseMessage_of_decomposes hab, parseMessage_of_decomposes hd]
  by_cases ho : Oversize d.1 d.2
  · -- the exit of the first call is met again on the concatenation
    have ho' : Oversize (d.1 ++ d'.1) d'.2 := by
      rcases ho with hbig | ⟨h4, hbig⟩
      · exact oversize_append.mpr (.inl hbig)
      · refine oversize_append.mpr (.inr (oversize_of_decomposes hd' ?_ ?_))
        · simp only [List.length_append]; omega
        · rwa [u32Le_append h4]
    rw [if_pos ho, if_pos ho']
  · have hsmall : ¬ ∃ p ∈ d.1, 1400 < p.length := fun h => ho (.inl h)
    rw [if_neg ho]
    have hd'' : Decomposes ((⟨d.2⟩ : P2PCommandParser).incompleteCommand ++ b) d'.1 d'.2 := hd'
    simp only [parseMessage_of_decomposes hd'', oversize_append, hsmall, false_or]
    split <;> simp [frameCommands_append]

/-- A parser keeping a partial frame is left as it is by an empty message. -/
theorem parseMessage_nil_of_partialFrame {self : P2PCommandParser}
    (h : PartialFrame self.incompleteCommand) :
    parseMessage tryFrom self [] expectingNonce = .ok ([], self) := by
  rw [parseMessage_eq, List.append_nil]
  rcases h with hlt | ⟨h4, hle, hshort⟩
  · rw [parseLoop_of_lt hlt]; rfl
  · rw [parseLoop_of_chunked h4 hle (by omega)]; rfl

theorem partialFrame_of_parseMessage_eq_ok {self self' : P2PCommandParser} {message : List UInt8}
    {cmds : List (P2PCommand Pkt)}
    (h : parseMessage tryFrom self message expectingNonce = .ok (cmds, self')) :
    PartialFrame self'.incompleteCommand :=
  have ⟨_, hd, ho, _⟩ := parseMessage_eq_ok h
  partialFrame_of_not_oversize hd.not_frameComplete ho

/-- A read loop over chunks, from a parser keeping a partial frame, is one call on their
concatenation. -/
theorem parseChunks_eq {self : P2PCommandParser} (hself : PartialFrame self.incompleteCommand)
    (chunks : List (List UInt8)) :
    parseChunks tryFrom expectingNonce self chunks =
      parseMessage tryFrom self chunks.flatten expectingNonce := by
  induction chunks generalizing self with
  | nil => exact (parseMessage_nil_of_partialFrame hself).symm
  | cons chunk chunks ih =>
    rw [parseChunks, List.flatten_cons, parseMessage_append]
    cases h : parseMessage tryFrom self chunk expectingNonce with
    | error e => rfl
    | ok r => simp only [ih (partialFrame_of_parseMessage_eq_ok h)]

/-- Every parser a connection reaches keeps a partial frame. -/
theorem Reachable.partialFrame {stream : List UInt8} {self : P2PCommandParser}
    (h : Reachable tryFrom stream self) : PartialFrame self.incompleteCommand := by
  cases h with
  | new => exact .inl (by decide)
  | parseMessage _ hcall => exact partialFrame_of_parseMessage_eq_ok hcall

/-- **Chunk invariance from every reachable parser.** Whatever a connection has been fed
so far, the chunks that follow give what one call on their concatenation gives. -/
theorem parseChunks_eq_of_reachable {stream : List UInt8} {self : P2PCommandParser}
    (h : Reachable tryFrom stream self) (chunks : List (List UInt8)) :
    parseChunks tryFrom expectingNonce self chunks =
      parseMessage tryFrom self chunks.flatten expectingNonce :=
  parseChunks_eq h.partialFrame chunks

/-- The parser that kept the truncated prefix `04 00` is fed the rest of the prefix and
the payload in two chunks. -/
theorem parseChunks_eq_of_reachable_truncated_prefix :
    Reachable rejectAll [4, 0] ⟨[4, 0]⟩ ∧
      parseChunks rejectAll false ⟨[4, 0]⟩ [[0, 0, 102], [111, 111, 0]] =
        parseMessage rejectAll ⟨[4, 0]⟩ [[0, 0, 102], [111, 111, 0]].flatten false :=
  ⟨reachable_truncated_header, parseChunks_eq_of_reachable reachable_truncated_header _⟩

end

/-- **Chunk invariance.** Feeding a stream to `P2PCommandParser::new()` in any number of
chunks, cut anywhere (inside a length prefix, or into empty chunks), with one flag for
every call, gives what one call on the whole stream gives: the same exit, or the same
commands in the same order and the same kept bytes. After such a run an empty chunk
returns no command and changes nothing. -/
theorem parseChunks_new_eq {Pkt ε : Type} (tryFrom : List UInt8 → Except ε Pkt)
    (expectingNonce : Bool) (chunks : List (List UInt8)) :
    parseChunks tryFrom expectingNonce P2PCommandParser.new chunks =
        parseMessage tryFrom P2PCommandParser.new chunks.flatten expectingNonce ∧
      ∀ cmds self,
        parseChunks tryFrom expectingNonce P2PCommandParser.new chunks = .ok (cmds, self) →
        parseMessage tryFrom self [] expectingNonce = .ok ([], self) := by
  have hnew : PartialFrame P2PCommandParser.new.incompleteCommand := .inl (by decide)
  refine ⟨parseChunks_eq hnew chunks, fun cmds self h => ?_⟩
  rw [parseChunks_eq hnew] at h
  exact parseMessage_nil_of_partialFrame (partialFrame_of_parseMessage_eq_ok h)

end WlMatrix
