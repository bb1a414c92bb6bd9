import Mathlib

/-!
# WlMatrix — `EndpointId` (`shared/models/endpoint_id.rs`)

An endpoint id is an email address, optionally followed by `;` and the endpoint's GUID.
`Display` writes it so and `FromStr` reads it back by splitting on `;`. `EndpointGuid`,
its `Display` and `EndpointGuid::try_parse_str` are outside these sources: they are the
parameters `fmtGuid` and `tryParseStr`, and `CommandError` is left abstract.
-/

namespace WlMatrix

/-- `EndpointId`. -/
structure EndpointId (EndpointGuid : Type) where
  emailAddr : String
  endpointGuid : Option EndpointGuid
  deriving DecidableEq

/-- `s.split(';').collect()`. -/
def splitSemicolon (s : String) : List String := (s.data.splitOn ';').map String.mk

/-- A split has at least one piece, so `split[0]` is always in range. -/
theorem length_splitSemicolon_pos (s : String) : 0 < (splitSemicolon s).length := by
  rw [splitSemicolon, List.length_map, List.length_pos, List.splitOn]
  exact List.splitOnP_ne_nil _ _

/-- Splitting a text holding no `;` gives that text back, and splitting two such texts
joined by one `;` gives the two. -/
theorem splitSemicolon_of_not_mem {s : String} (h : ';' ∉ s.data) : splitSemicolon s = [s] := by
  have := List.splitOn_intercalate [s.data] ';' (by simpa using h) (by simp)
  rw [show [';'].intercalate [s.data] = s.data by simp [List.intercalate]] at this
  simp [splitSemicolon, this]

theorem splitSemicolon_append {s t : String} (hs : ';' ∉ s.data) (ht : ';' ∉ t.data) :
    splitSemicolon (s ++ ";" ++ t) = [s, t] := by
  have := List.splitOn_intercalate [s.data, t.data] ';' (by simp [hs, ht]) (by simp)
  rw [show [';'].intercalate [s.data, t.data] = s.data ++ ';' :: t.data by
    simp [List.intercalate]] at this
  simp [splitSemicolon, this]

section

variable {EndpointGuid CommandError : Type} (fmtGuid : EndpointGuid → String)
  (tryParseStr : String → Except CommandError EndpointGuid)

/-- `impl Display for EndpointId`: the email address, then `;` and the GUID if any. -/
def EndpointId.toString (e : EndpointId EndpointGuid) : String :=
  e.emailAddr ++
    match e.endpointGuid with
    | some endpointGuid => ";" ++ fmtGuid endpointGuid
    | none => ""

/-- `impl FromStr for EndpointId`: the first piece of the split is the email address, the
second, when there is one, the GUID. The defaults of `split[0]` and `split[1]` are never
taken: a split is never empty (`length_splitSemicolon_pos`) and `split[1]` is read only
when there are two pieces. -/
def EndpointId.fromStr (s : String) : Except CommandError (EndpointId EndpointGuid) :=
  let split := splitSemicolon s
  let emailAddr := split.headD ""
  if split.length ≥ 2 then
    match tryParseStr (split.getD 1 "") with
    | .ok endpointGuid => .ok ⟨emailAddr, some endpointGuid⟩
    | .error e => .error e
  else .ok ⟨emailAddr, none⟩

/-- **Parsing undoes `Display`** for an email address without `;`, when the GUID's text
has no `;` and `try_parse_str` reads it back. -/
theorem fromStr_toString (e : EndpointId EndpointGuid) (hemail : ';' ∉ e.emailAddr.data)
    (hfmt : ∀ g, ';' ∉ (fmtGuid g).data) (hparse : ∀ g, tryParseStr (fmtGuid g) = .ok g) :
    EndpointId.fromStr tryParseStr (e.toString fmtGuid) = .ok e := by
  obtain ⟨emailAddr, endpointGuid⟩ := e
  cases endpointGuid with
  | none =>
    simp [EndpointId.toString, EndpointId.fromStr, splitSemicolon_of_not_mem hemail]
  | some g =>
    simp only [EndpointId.toString, ← String.append_assoc, EndpointId.fromStr,
      splitSemicolon_append hemail (hfmt g)]
    simp [hparse g]

/-- **`Display` after parsing keeps the first two fields.** When the GUID's `Display`
writes back any text `try_parse_str` accepts, printing a parsed endpoint id gives the
parsed text up to its second `;`: the text itself when it has at most two fields, and
without the fields after the second one otherwise. -/
theorem toString_fromStr (hguid : ∀ t g, tryParseStr t = .ok g → fmtGuid g = t) {s : String}
    {e : EndpointId EndpointGuid} (h : EndpointId.fromStr tryParseStr s = .ok e) :
    (e.toString fmtGuid).data = [';'].intercalate ((s.data.splitOn ';').take 2) ∧
      ((splitSemicolon s).length ≤ 2 → e.toString fmtGuid = s) := by
  have hkeep : (e.toString fmtGuid).data = [';'].intercalate ((s.data.splitOn ';').take 2) := by
    simp only [EndpointId.fromStr, splitSemicolon] at h
    rcases hsp : s.data.splitOn ';' with _ | ⟨p₀, _ | ⟨p₁, rest⟩⟩
    · exact absurd hsp (List.splitOnP_ne_nil _ _)
    · simp only [hsp, List.map_cons, List.map_nil, List.length_singleton] at h
      cases h
      simp [EndpointId.toString, List.intercalate]
    · simp only [hsp, List.map_cons, List.length_cons, List.headD_cons, List.getD_cons_succ,
        List.getD_cons_zero] at h
      rw [if_pos (by omega)] at h
      cases hg : tryParseStr ⟨p₁⟩ with
      | error err => simp [hg] at h
      | ok g =>
        simp only [hg, Except.ok.injEq] at h
        subst h
        simp [EndpointId.toString, List.intercalate, hguid _ _ hg]
  refine ⟨hkeep, fun htwo => String.ext ?_⟩
  rw [hkeep, List.take_of_length_le (by simpa [splitSemicolon] using htwo),
    List.intercalate_splitOn]

end

/-- The round trip at `aeontest3@shl.local;guid`, for a GUID type of one value written
`guid`. -/
theorem fromStr_toString_aeontest3 :
    (';' ∉ "aeontest3@shl.local".data ∧ ';' ∉ "guid".data ∧
      ∀ g : Unit, (if "guid" = "guid" then .ok () else .error () : Except Unit Unit) = .ok g) ∧
    EndpointId.fromStr (fun s => if s = "guid" then .ok () else .error ())
        ((⟨"aeontest3@shl.local", some ()⟩ : EndpointId Unit).toString fun _ => "guid") =
      .ok ⟨"aeontest3@shl.local", some ()⟩ :=
  have hemail : ';' ∉ "aeontest3@shl.local".data := by decide
  have hguid : ';' ∉ "guid".data := by decide
  have hparse :
      ∀ g : Unit, (if "guid" = "guid" then .ok () else .error () : Except Unit Unit) = .ok g :=
    fun _ => if_pos rfl
  ⟨⟨hemail, hguid, hparse⟩, fromStr_toString _ _ _ hemail (fun _ => hguid) hparse⟩

/-- A third field is dropped: `a@b;guid;x` prints back as `a@b;guid`. -/
theorem toString_fromStr_third_field :
    (∀ t (g : Unit), (if t = "guid" then .ok () else .error () : Except Unit Unit) = .ok g →
        "guid" = t) ∧
      EndpointId.fromStr (fun t => if t = "guid" then .ok () else .error ()) "a@b;guid;x" =
        .ok ⟨"a@b", some ()⟩ ∧
      ((⟨"a@b", some ()⟩ : EndpointId Unit).toString fun _ => "guid").data =
          [';'].intercalate (("a@b;guid;x".data.splitOn ';').take 2) ∧
        ((splitSemicolon "a@b;guid;x").length ≤ 2 →
          (⟨"a@b", some ()⟩ : EndpointId Unit).toString (fun _ => "guid") = "a@b;guid;x") :=
  have hguid : ∀ t (g : Unit),
      (if t = "guid" then .ok () else .error () : Except Unit Unit) = .ok g → "guid" = t :=
    fun t _ h => by
      split at h
      · next ht => exact ht.symm
      · cases h
  have hfrom : EndpointId.fromStr (fun t => if t = "guid" then .ok () else .error ())
      "a@b;guid;x" = .ok ⟨"a@b", some ()⟩ := by rfl
  ⟨hguid, hfrom, toString_fromStr (fun _ => "guid") _ hguid hfrom⟩

end WlMatrix
