import WlMatrix.Utils.Emoji

/-!
# WlMatrix — translating back (`emoji_to_smiley` after `smiley_to_emoji`)

Ten entries of `EMOJI_TO_SMILEY_MAP` are the reverses of ten entries of
`SMILEY_TO_EMOJI_MAP`; the other smileys get an emoji with no way back. On a message in
which no two smileys overlap and no character begins one of the ten emoji,
`emoji_to_smiley(smiley_to_emoji(msg))` is `msg` with only the one-way smileys translated
(`emojiToSmiley_smileyToEmoji`), whatever the iteration orders of the two maps. A message
whose smileys all come back is returned unchanged.

The architecture:

* `Aligned` — a piece at which no emoji starts except as a whole: a character that begins
  no emoji, or one whole emoji. A list of aligned pieces is cut at its emoji
  (`tokens_of_aligned`), since no emoji is a prefix of another or starts inside one.
* `markPiece` — the first translation with the ten emoji kept as pieces. It renders as
  `replacePieceAll` does (`render_flatMap_markPiece`), and on the cut of a message its
  pieces are aligned, so it is the cut the second translation works on.
* `find?_key` — in a map with distinct keys the lookup of an entry's key finds that entry;
  with it the two translations of one smiley compose to the one-way translation
  (`render_markPiece_replacePieceAll`).
-/

namespace WlMatrix

/-! ### Re-cutting a text at the emoji -/

/-- A piece at which no key of `ks` starts except as a whole: a character that begins no
key, or a whole key. -/
def Aligned (ks : List (List Char)) : Piece → Prop
  | .char c => ∀ k ∈ ks, k.head? ≠ some c
  | .smiley k => k ∈ ks

/-- **Aligned pieces cut their text at the keys**, for non-empty keys of which none is a
prefix of another or starts inside another. -/
theorem tokens_of_aligned {ks : List (List Char)} (hov : OverlapFree ks)
    (hne : ∀ k ∈ ks, k ≠ []) {rs : List Piece} (h : ∀ r ∈ rs, Aligned ks r) :
    Tokens ks rs := by
  induction rs with
  | nil => exact .nil
  | cons r rs ih =>
    have hrest := ih fun r' hr' => h r' (List.mem_cons_of_mem r hr')
    have hr := h r (List.mem_cons_self r rs)
    cases r with
    | char c =>
      refine .char (fun k hk hpre => hr k hk ?_) hrest
      obtain ⟨d, t, rfl⟩ := List.exists_cons_of_ne_nil (hne k hk)
      obtain ⟨rfl, -⟩ := List.cons_prefix_cons.mp hpre
      rfl
    | smiley k =>
      refine .smiley hr (fun k' hk' hpre => ?_) (fun j hj0 hj k' hk' hpre => ?_) hrest
      · rcases List.prefix_or_prefix_of_prefix hpre (List.prefix_append k _) with hp | hp
        · exact (hov k hr k' hk').1 hp
        · exact ((hov k' hk' k hr).1 hp).symm
      · rw [List.drop_append_of_le_length hj.le] at hpre
        have hinside := (hov k hr k' hk').2 j hj hj0
        rcases List.prefix_or_prefix_of_prefix hpre (List.prefix_append (k.drop j) _) with
          hp | hp
        · exact hinside.1 hp
        · exact hinside.2 hp

/-! ### The first translation, with the emoji kept whole -/

/-- A smiley's emoji as pieces: one piece when it is among the keys `ks`, else its
characters. -/
def markValue (ks : List (List Char)) (v : List Char) : List Piece :=
  if v ∈ ks then [.smiley v] else v.map .char

/-- `replacePieceAll` with the values among `ks` kept as pieces. -/
def markPiece (entries : List (String × String)) (ks : List (List Char)) : Piece → List Piece
  | .char c => [.char c]
  | .smiley k =>
    match entries.find? (fun e => e.1.data = k) with
    | some e => markValue ks e.2.data
    | none => [.smiley k]

@[simp] theorem render_markValue (ks : List (List Char)) (v : List Char) :
    render (markValue ks v) = v := by
  unfold markValue
  split <;> simp [Piece.chars]

theorem render_flatMap_congr {f g : Piece → List Piece} {ps : List Piece}
    (h : ∀ p ∈ ps, render (f p) = render (g p)) :
    render (ps.flatMap f) = render (ps.flatMap g) := by
  induction ps with
  | nil => rfl
  | cons p ps ih =>
    simp only [List.flatMap_cons, render_append, h p (List.mem_cons_self p ps),
      ih fun q hq => h q (List.mem_cons_of_mem p hq)]

theorem render_flatMap_markPiece (entries : List (String × String)) (ks : List (List Char))
    (ps : List Piece) :
    render (ps.flatMap (markPiece entries ks)) =
      render (ps.flatMap (replacePieceAll entries)) := by
  refine render_flatMap_congr fun p _ => ?_
  cases p with
  | char c => rfl
  | smiley k =>
    simp only [markPiece, replacePieceAll]
    cases entries.find? (fun e => e.1.data = k) <;> simp

/-! ### Lookups in a map with distinct keys -/

/-- The lookup of an entry's key finds that entry. -/
theorem find?_key {E : List (String × String)} (hnd : (E.map fun e => e.1.data).Nodup)
    {e : String × String} (he : e ∈ E) : E.find? (fun e' => e'.1.data = e.1.data) = some e := by
  cases h : E.find? (fun e' => e'.1.data = e.1.data) with
  | none => exact absurd (List.find?_eq_none.mp h e he) (by simp)
  | some e' =>
    have hkey : e'.1.data = e.1.data := by simpa using List.find?_some h
    exact congrArg some (List.inj_on_of_nodup_map hnd (List.mem_of_find?_eq_some h) he hkey)

/-- Every piece of a cut is a character or one of the keys. -/
theorem Tokens.mem_keys {ks : List (List Char)} {ps : List Piece} (h : Tokens ks ps)
    {k : List Char} (hk : Piece.smiley k ∈ ps) : k ∈ ks := by
  induction h with
  | nil => simp at hk
  | char _ _ ih => exact ih (by simpa using hk)
  | @smiley key _ hkey _ _ _ ih =>
    rcases List.mem_cons.mp hk with h | h
    · cases h; exact hkey
    · exact ih h

/-! ### The two maps

Checks on the tables, as in `Emoji`: the emoji that `emoji_to_smiley` knows are sent back
to the smiley they came from, and the other emoji have no character that begins one of
them. -/

/-- The entries of `SMILEY_TO_EMOJI_MAP` whose emoji `EMOJI_TO_SMILEY_MAP` does not know. -/
def oneWayMap : List (String × String) := smileyToEmojiMap.filter fun e => e.2.data ∉ emojis

theorem nodup_oneWayMap : (oneWayMap.map fun e => e.1.data).Nodup :=
  nodup_smileys.sublist ((List.filter_sublist _).map _)

theorem mem_emojiToSmileyMap_swap :
    ∀ e ∈ smileyToEmojiMap, e.2.data ∈ emojis → (e.2, e.1) ∈ emojiToSmileyMap := by
  have h : (smileyToEmojiMap.all fun e =>
      !emojis.contains e.2.data || emojiToSmileyMap.contains (e.2, e.1)) = true := by decide
  intro e he hv
  simp only [List.all_eq_true] at h
  simpa [hv] using h e he

theorem head_ne_of_mem_oneWay :
    ∀ e ∈ smileyToEmojiMap, e.2.data ∉ emojis →
      ∀ c ∈ e.2.data, ∀ k ∈ emojis, k.head? ≠ some c := by
  have h : (smileyToEmojiMap.all fun e => emojis.contains e.2.data ||
      e.2.data.all fun c => emojis.all fun k => k.head? != some c) = true := by decide
  intro e he hv
  simp only [List.all_eq_true] at h
  simpa [hv] using h e he

/-! ### One smiley, there and back -/

/-- A smiley's emoji, translated back: the smiley itself when `EMOJI_TO_SMILEY_MAP` knows
the emoji, else the emoji; that is the one-way translation of the smiley. -/
theorem render_markPiece_replacePieceAll {k : List Char} (hk : k ∈ smileys) :
    render ((markPiece smileyToEmojiMap emojis (.smiley k)).flatMap
        (replacePieceAll emojiToSmileyMap)) =
      render (replacePieceAll oneWayMap (.smiley k)) := by
  obtain ⟨e, he, rfl⟩ := List.mem_map.mp hk
  simp only [markPiece, find?_key nodup_smileys he, markValue]
  by_cases hv : e.2.data ∈ emojis
  · have hback : emojiToSmileyMap.find? (fun e' => e'.1.data = e.2.data) = some (e.2, e.1) :=
      find?_key nodup_emojis (mem_emojiToSmileyMap_swap e he hv)
    have hnone : oneWayMap.find? (fun e' => e'.1.data = e.1.data) = none := by
      refine List.find?_eq_none.mpr fun e' he' hkey => ?_
      obtain ⟨he'', hv'⟩ := List.mem_filter.mp he'
      obtain rfl := List.inj_on_of_nodup_map nodup_smileys he'' he (by simpa using hkey)
      simp [hv] at hv'
    simp [hv, replacePieceAll, hback, hnone, Piece.chars]
  · have hsome : oneWayMap.find? (fun e' => e'.1.data = e.1.data) = some e :=
      find?_key nodup_oneWayMap (List.mem_filter.mpr ⟨he, by simpa using hv⟩)
    simp [hv, replacePieceAll, hsome, flatMap_replacePieceAll_chars]

/-- On the cut of a message none of whose characters begins an emoji, the first
translation's pieces are aligned at the emoji. -/
theorem aligned_markPiece {ps : List Piece} (hps : Tokens smileys ps)
    (hlead : ∀ c ∈ render ps, ∀ k ∈ emojis, k.head? ≠ some c) :
    ∀ r ∈ ps.flatMap (markPiece smileyToEmojiMap emojis), Aligned emojis r := by
  intro r hr
  obtain ⟨p, hp, hr⟩ := List.mem_flatMap.mp hr
  cases p with
  | char c =>
    obtain rfl : r = .char c := by simpa [markPiece] using hr
    exact hlead c (List.mem_flatMap.mpr ⟨_, hp, List.mem_singleton_self c⟩)
  | smiley k =>
    obtain ⟨e, he, rfl⟩ := List.mem_map.mp (hps.mem_keys hp)
    simp only [markPiece, find?_key nodup_smileys he, markValue] at hr
    split at hr
    · next hv =>
      obtain rfl : r = .smiley e.2.data := by simpa using hr
      exact hv
    · next hv =>
      obtain ⟨c, hc, rfl⟩ := List.mem_map.mp hr
      exact head_ne_of_mem_oneWay e he hv c hc

/-! ### The round trip -/

/-- **`emoji_to_smiley` after `smiley_to_emoji` translates only the one-way smileys.** On
a message without overlapping smileys in which no character begins one of the emoji of
`EMOJI_TO_SMILEY_MAP`, the two translations, in any iteration orders of their maps, give
the message with each smiley whose emoji has no way back replaced by that emoji, and every
other character, the ten smileys that come back included, as it was. -/
theorem emojiToSmiley_smileyToEmoji (msg : String) (h : NoOverlap smileys msg.data)
    (hlead : ∀ c ∈ msg.data, ∀ k ∈ emojis, k.head? ≠ some c)
    (order₁ : IterOrder smileyToEmojiMap) (order₂ : IterOrder emojiToSmileyMap) :
    emojiToSmiley order₂ (smileyToEmoji order₁ msg) = replaceEntries oneWayMap msg := by
  obtain ⟨ps, hps, hrender⟩ := exists_tokens keysOver_smileys msg.data h
  have hmsg : msg = ⟨render ps⟩ := by rw [hrender]
  have hcut := tokens_of_aligned overlapFree_emojis (fun k hk => (keysOver_emojis k hk).1)
    (aligned_markPiece hps (hrender ▸ hlead))
  -- the first translation, written on the cut the second one works on
  have hthere : smileyToEmoji order₁ msg =
      ⟨render (ps.flatMap (markPiece smileyToEmojiMap emojis))⟩ := by
    rw [hmsg, smileyToEmoji,
      replaceEntries_render keysOver_smileys
        (fun e he => separatedEntry_smileyToEmojiMap e (order₁.perm.mem_iff.mp he)) hps,
      replacePieceAll_perm order₁.perm ((order₁.perm.map _).nodup_iff.mpr nodup_smileys),
      render_flatMap_markPiece]
  have honeWay : replaceEntries oneWayMap msg =
      ⟨render (ps.flatMap (replacePieceAll oneWayMap))⟩ := by
    rw [hmsg]
    exact replaceEntries_render keysOver_smileys
      (fun e he => separatedEntry_smileyToEmojiMap e (List.mem_filter.mp he).1) hps
  rw [hthere, honeWay, emojiToSmiley,
    replaceEntries_render keysOver_emojis
      (fun e he => separatedEntry_emojiToSmileyMap e (order₂.perm.mem_iff.mp he)) hcut,
    replacePieceAll_perm order₂.perm ((order₂.perm.map _).nodup_iff.mpr nodup_emojis),
    List.flatMap_assoc]
  refine congrArg String.mk (render_flatMap_congr fun p hp => ?_)
  cases p with
  | char c => rfl
  | smiley k => exact render_markPiece_replacePieceAll (hps.mem_keys hp)

/-- The repository's test message `hi:);)` with a heart `(L)`: the two winks come back,
the heart stays an emoji. -/
theorem emojiToSmiley_smileyToEmoji_heart :
    (NoOverlap smileys "hi:);)(L)".data ∧
        ∀ c ∈ "hi:);)(L)".data, ∀ k ∈ emojis, k.head? ≠ some c) ∧
      emojiToSmiley (.source _) (smileyToEmoji (.source _) "hi:);)(L)") =
        replaceEntries oneWayMap "hi:);)(L)" :=
  have hno : NoOverlap smileys "hi:);)(L)".data := by decide
  have hlead : ∀ c ∈ "hi:);)(L)".data, ∀ k ∈ emojis, k.head? ≠ some c := by decide
  ⟨⟨hno, hlead⟩, emojiToSmiley_smileyToEmoji _ hno hlead _ _⟩

end WlMatrix
