import WlMatrix.Utils.Emoji

/-!
# WlMatrix — what a translation leaves in a message

`smiley_to_emoji` leaves no smiley in any message, whatever the iteration order of its map
and whether or not smileys overlap (`smileyToEmoji_no_smiley`); `emoji_to_smiley` leaves
none of its emoji (`emojiToSmiley_no_emoji`).

Keys are written in one alphabet and values in the other, and no value is empty, so an
inserted value is a wall no key occurrence crosses. A text in the keys' alphabet that
occurs in the result of `replace(key, value)` therefore occurs in the input, at a position
where the scan copied a character and so found no `key` (`occurs_replaceScan`). Hence
`replace(key, value)` removes every occurrence of `key` and creates no occurrence of any
other key, and the loop over a map's entries ends with none of its keys.
-/

namespace WlMatrix

section Scan

variable {keyChar : Char → Bool} {key value k : List Char}

/-- What starts the result of the scan in the keys' alphabet starts its input. -/
theorem keyPrefix_replaceScan (hkey : key ≠ []) (hv : value ≠ [])
    (hva : ∀ c ∈ value, keyChar c = false) (s : List Char) :
    KeyPrefix keyChar (replaceScan key value 0 s) s := by
  obtain ⟨n, hn⟩ : ∃ n, s.length = n := ⟨_, rfl⟩
  induction n using Nat.strong_induction_on generalizing s with
  | _ n ih =>
  cases s with
  | nil => exact fun _ _ h => h
  | cons c cs =>
    by_cases hpre : key <+: c :: cs
    · rw [ replaceScan_of_prefix hkey hpre]
      exact keyPrefix_of_value_append hv hva _ _
    · rw [ replaceScan_cons_of_not_prefix hpre]
      exact (ih cs.length (by simp [← hn]) cs rfl).append_left [c]

/-- A text of the keys' alphabet does not start at a character outside it. -/
theorem not_prefix_cons_of_keyChar_false {c : Char} {w : List Char} (hk : k ≠ [])
    (hkc : ∀ c ∈ k, keyChar c) (hc : keyChar c = false) : ¬ k <+: c :: w := by
  obtain ⟨d, t, rfl⟩ := List.exists_cons_of_ne_nil hk
  intro hp
  obtain ⟨rfl, -⟩ := List.cons_prefix_cons.mp hp
  simp [hc] at hkc

/-- **An occurrence in the result is an occurrence in the input** at which `key` does not
start, for a non-empty text `k` of the keys' alphabet. -/
theorem occurs_replaceScan (hkey : key ≠ []) (hv : value ≠ [])
    (hva : ∀ c ∈ value, keyChar c = false) (hk : k ≠ []) (hkc : ∀ c ∈ k, keyChar c)
    (s : List Char) (i : Nat) (h : k <+: (replaceScan key value 0 s).drop i) :
    ∃ j, k <+: s.drop j ∧ ¬ key <+: s.drop j := by
  obtain ⟨n, hn⟩ : ∃ n, s.length = n := ⟨_, rfl⟩
  induction n using Nat.strong_induction_on generalizing s i with
  | _ n ih =>
  cases s with
  | nil => simp [replaceScan, hk] at h
  | cons c cs =>
    by_cases hpre : key <+: c :: cs
    · rw [ replaceScan_of_prefix hkey hpre] at h
      by_cases hi : i < value.length
      · -- the occurrence would start inside the inserted value
        rw [List.drop_append_of_le_length hi.le, List.drop_eq_getElem_cons hi] at h
        exact absurd h (not_prefix_cons_of_keyChar_false hk hkc (hva _ (List.getElem_mem hi)))
      · -- it starts after the value, in the scan of the rest
        rw [List.drop_append_eq_append_drop, List.drop_of_length_le (by omega),
          List.nil_append] at h
        have hlen : ((c :: cs).drop key.length).length < n := by
          have := List.length_pos.mpr hkey
          simp only [List.length_drop, List.length_cons] at hn ⊢
          omega
        obtain ⟨j, hj, hnj⟩ := ih _ hlen _ _ h rfl
        exact ⟨key.length + j, by rwa [← List.drop_drop], by rwa [← List.drop_drop]⟩
    · rw [ replaceScan_cons_of_not_prefix hpre] at h
      cases i with
      | zero =>
        have hk' := (keyPrefix_replaceScan hkey hv hva cs).append_left [c] k hkc
          (by simpa using h)
        exact ⟨0, by simpa using hk', by simpa using hpre⟩
      | succ i =>
        obtain ⟨j, hj, hnj⟩ := ih cs.length (by simp [← hn]) cs i (by simpa using h) rfl
        exact ⟨j + 1, by simpa using hj, by simpa using hnj⟩

end Scan

/-! ### The loop over a map -/

/-- After the loop over the entries of a map, a text of the keys' alphabet occurs in the
result only if it occurred in the message and is no entry's key. -/
theorem occurs_replaceEntries {keyChar : Char → Bool} {ks : List (List Char)}
    {entries : List (String × String)} (hks : KeysOver keyChar ks)
    (hE : ∀ e ∈ entries, SeparatedEntry keyChar ks e) {k : List Char}
    (hk : k ≠ [] ∧ ∀ c ∈ k, keyChar c) (msg : String) (i : Nat)
    (h : k <+: (replaceEntries entries msg).data.drop i) :
    (∃ j, k <+: msg.data.drop j) ∧ ∀ e ∈ entries, e.1.data ≠ k := by
  induction entries generalizing msg i with
  | nil => exact ⟨⟨i, h⟩, by simp⟩
  | cons e es ih =>
    obtain ⟨hkey, hv, hva⟩ := hE e (List.mem_cons_self e es)
    have hne := (hks _ hkey).1
    obtain ⟨⟨j, hj⟩, hes⟩ := ih (fun e' he' => hE e' (List.mem_cons_of_mem e he')) _ i h
    simp only [strReplace, if_neg hne] at hj
    obtain ⟨j', hj', hnj'⟩ := occurs_replaceScan hne hv hva hk.1 hk.2 _ j hj
    refine ⟨⟨j', hj'⟩, fun e' he' => ?_⟩
    rcases List.mem_cons.mp he' with rfl | he'
    · exact fun hek => hnj' (hek ▸ hj')
    · exact hes e' he'

/-! ### The two translations -/

/-- **`smiley_to_emoji` leaves no smiley**, in any message and any iteration order of
`SMILEY_TO_EMOJI_MAP`, overlapping smileys included. -/
theorem smileyToEmoji_no_smiley (msg : String) (order : IterOrder smileyToEmojiMap) :
    ∀ k ∈ smileys, ∀ i, ¬ k <+: (smileyToEmoji order msg).data.drop i := by
  intro k hk i hpre
  obtain ⟨e, he, rfl⟩ := List.mem_map.mp hk
  exact (occurs_replaceEntries keysOver_smileys
    (fun e' he' => separatedEntry_smileyToEmojiMap e' (order.perm.mem_iff.mp he'))
    (keysOver_smileys _ hk) msg i hpre).2 e (order.perm.mem_iff.mpr he) rfl

/-- `:(H)`, where `:(` and `(H)` overlap, keeps neither of them. -/
theorem smileyToEmoji_no_smiley_overlap :
    (":(".data ∈ smileys ∧ "(H)".data ∈ smileys) ∧
      ∀ i, ¬ ":(".data <+: (smileyToEmoji (.source _) ":(H)").data.drop i ∧
        ¬ "(H)".data <+: (smileyToEmoji (.source _) ":(H)").data.drop i :=
  have hfrown : ":(".data ∈ smileys := by decide
  have hcool : "(H)".data ∈ smileys := by decide
  ⟨⟨hfrown, hcool⟩, fun i => ⟨smileyToEmoji_no_smiley _ _ _ hfrown i,
    smileyToEmoji_no_smiley _ _ _ hcool i⟩⟩

/-- **`emoji_to_smiley` leaves none of its emoji**, in any message and any iteration order
of `EMOJI_TO_SMILEY_MAP`. -/
theorem emojiToSmiley_no_emoji (msg : String) (order : IterOrder emojiToSmileyMap) :
    ∀ k ∈ emojis, ∀ i, ¬ k <+: (emojiToSmiley order msg).data.drop i := by
  intro k hk i hpre
  obtain ⟨e, he, rfl⟩ := List.mem_map.mp hk
  exact (occurs_replaceEntries keysOver_emojis
    (fun e' he' => separatedEntry_emojiToSmileyMap e' (order.perm.mem_iff.mp he'))
    (keysOver_emojis _ hk) msg i hpre).2 e (order.perm.mem_iff.mpr he) rfl

/-- The message of the repository's `test_emojis_to_smiley` keeps neither of its emoji. -/
theorem emojiToSmiley_no_emoji_test_message :
    ("🙂".data ∈ emojis ∧ "😉".data ∈ emojis) ∧
      ∀ i, ¬ "🙂".data <+: (emojiToSmiley (.source _) "hi🙂😉").data.drop i ∧
        ¬ "😉".data <+: (emojiToSmiley (.source _) "hi🙂😉").data.drop i :=
  have hsmile : "🙂".data ∈ emojis := by decide
  have hwink : "😉".data ∈ emojis := by decide
  ⟨⟨hsmile, hwink⟩, fun i => ⟨emojiToSmiley_no_emoji _ _ _ hsmile i,
    emojiToSmiley_no_emoji _ _ _ hwink i⟩⟩

end WlMatrix
