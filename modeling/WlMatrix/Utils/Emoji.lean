import Mathlib

/-!
# WlMatrix — smiley translation (`utils/emoji.rs`)

`smiley_to_emoji` rewrites a message by folding `String::replace(key, value)` over the
entries of `SMILEY_TO_EMOJI_MAP`, a `HashMap` whose iteration order is chosen at random
for each process. The model takes that order as an argument: any enumeration of the
map's entries.

The result depends on the order when two smileys overlap in the message (`:(H)` holds
`:(` and `(H)`). It does not when no two occurrences overlap: every smiley is ASCII and
every emoji is not, so a replacement neither creates nor destroys another smiley's
occurrence, and each occurrence becomes its own emoji whatever the order.
-/

namespace WlMatrix

/-! ### `str::replace` -/

/-- The scan of `str::replace` for a non-empty pattern: `skip` characters of the last match
are still to be dropped. -/
def replaceScan (pat rep : List Char) : Nat → List Char → List Char
  | _, [] => []
  | skip + 1, _ :: cs => replaceScan pat rep skip cs
  | 0, c :: cs =>
    if pat.isPrefixOf (c :: cs) then rep ++ replaceScan pat rep (pat.length - 1) cs
    else c :: replaceScan pat rep 0 cs

/-- `s.replace(from, to)`: the matches of `from`, found left to right without overlap,
replaced by `to`. An empty `from` matches at every character boundary. -/
def strReplace (s «from» «to» : String) : String :=
  if «from».data = [] then ⟨«to».data ++ (s.data.map fun c => c :: «to».data).flatten⟩
  else ⟨replaceScan «from».data «to».data 0 s.data⟩

/-! ### The maps and the two translations -/

/-- The entries of `SMILEY_TO_EMOJI_MAP`, in source order. -/
def smileyToEmojiMap : List (String × String) := [
  (":)", "🙂"),
  (":D", "😁"),
  (";)", "😉"),
  (":-O", "😮"),
  (":P", "😋"),
  ("(H)", "😎"),
  (":@", "😡"),
  (":$", "😳"),
  (":S", "😵‍💫"),
  (":(", "🙁"),
  (":\x27(", "😭"),
  (":|", "😐️"),
  ("(6)", "😈"),
  ("(A)", "😇"),
  ("(L)", "❤️"),
  ("(U)", "💔"),
  ("(M)", "💬"),
  ("(@)", "🐱"),
  ("(&)", "🐶"),
  ("(S)", "🌜️"),
  ("(*)", "⭐️"),
  ("(~)", "🎞️"),
  ("(8)", "🎵"),
  ("(E)", "📧"),
  ("(F)", "🌹"),
  ("(W)", "🥀"),
  ("(O)", "🕒"),
  ("(K)", "💋"),
  ("(G)", "🎁"),
  ("(^)", "🎂"),
  ("(P)", "📷"),
  ("(I)", "💡"),
  ("(C)", "☕"),
  ("(T)", "📞"),
  ("(\x7b)", "🧍‍♂️"),
  ("(\x7d)", "🧍🏾‍♀️"),
  ("(B)", "🍺"),
  ("(D)", "🍸"),
  ("(Z)", "🧍‍♂️"),
  ("(X)", "🧍‍♀️"),
  ("(Y)", "👍"),
  ("(N)", "👎"),
  (":[", "🦇"),
  ("(nnh)", "🐐"),
  ("(#)", "☀️"),
  ("(R)", "🌈"),
  (":-#", "🤐"),
  ("8o|", "😬"),
  ("8-|", "🤓"),
  ("^o)", "🤨"),
  (":-*", "🤐"),
  ("+o(", "🤮"),
  ("(sn)", "🐌"),
  ("(tu)", "🐢"),
  ("(pl)", "🍽️"),
  ("(||)", "🥣"),
  ("(pi)", "🍕"),
  ("(so)", "⚽"),
  ("(au)", "🚗"),
  ("(ap)", "✈️"),
  ("(um)", "☂️"),
  ("(ip)", "🏝️"),
  ("(co)", "🖥️"),
  ("(mp)", "📱"),
  ("(brb)", "👋"),
  ("(st)", "🌧️"),
  ("(h5)", "🖐️"),
  ("(mo)", "🪙"),
  ("(bah)", "🐑"),
  (":^)", "🤔"),
  ("*-)", "🤔"),
  ("(li)", "🌩️"),
  ("<:o)", "🥳"),
  ("8-)", "🙄"),
  ("|-)", "😴"),
  ("(\x27.\x27)", "🐰")]

/-- The entries of `EMOJI_TO_SMILEY_MAP`, in source order. -/
def emojiToSmileyMap : List (String × String) := [
  ("🙂", ":)"),
  ("😁", ":D"),
  ("😉", ";)"),
  ("😮", ":-O"),
  ("😋", ":P"),
  ("😎", "(H)"),
  ("😡", ":@"),
  ("😵‍💫", ":S"),
  ("😳", ":$"),
  ("🙁", ":(")]

/-- The loop shared by the two translations: `msg = msg.replace(key, value)` for each entry
`(key, value)` in the map's iteration order `entries`. -/
def replaceEntries (entries : List (String × String)) (msg : String) : String :=
  entries.foldl (fun msg entry => strReplace msg entry.1 entry.2) msg

/-- An order in which `HashMap::iter()` may enumerate a map with the entries `map`: the
entries, permuted. A `HashMap` picks it at random for each process. -/
structure IterOrder (map : List (String × String)) where
  entries : List (String × String)
  perm : entries.Perm map

/-- The entries in the order the source writes them. -/
def IterOrder.source (map : List (String × String)) : IterOrder map := ⟨map, .refl _⟩

/-- The reverse of an order. -/
def IterOrder.reverse {map : List (String × String)} (order : IterOrder map) : IterOrder map :=
  ⟨order.entries.reverse, (List.reverse_perm _).trans order.perm⟩

/-- `smiley_to_emoji(msg)`, when `SMILEY_TO_EMOJI_MAP.iter()` enumerates the map in `order`. -/
def smileyToEmoji (order : IterOrder smileyToEmojiMap) (msg : String) : String :=
  replaceEntries order.entries msg

/-- `emoji_to_smiley(msg)`, when `EMOJI_TO_SMILEY_MAP.iter()` enumerates the map in `order`. -/
def emojiToSmiley (order : IterOrder emojiToSmileyMap) (msg : String) : String :=
  replaceEntries order.entries msg

/-! ### `str::replace` one step at a time -/

section Replace

variable {pat rep : List Char}

theorem replaceScan_skip (skip : Nat) (s : List Char) :
    replaceScan pat rep skip s = replaceScan pat rep 0 (s.drop skip) := by
  induction skip generalizing s with
  | zero => rfl
  | succ k ih =>
    cases s with
    | nil => rfl
    | cons c cs => simp only [replaceScan, ih, List.drop_succ_cons]

/-- A match at the front is replaced and skipped. -/
theorem replaceScan_of_prefix (hpat : pat ≠ []) {s : List Char} (h : pat <+: s) :
    replaceScan pat rep 0 s = rep ++ replaceScan pat rep 0 (s.drop pat.length) := by
  obtain ⟨t, rfl⟩ := h
  cases pat with
  | nil => exact absurd rfl hpat
  | cons p ps => simp [replaceScan, replaceScan_skip]

theorem replaceScan_cons_of_not_prefix {c : Char} {cs : List Char} (h : ¬ pat <+: c :: cs) :
    replaceScan pat rep 0 (c :: cs) = c :: replaceScan pat rep 0 cs := by
  simp [replaceScan, h]

/-- Characters at which no match starts are copied. -/
theorem replaceScan_append_of_not_prefix {x s : List Char}
    (h : ∀ j < x.length, ¬ pat <+: (x ++ s).drop j) :
    replaceScan pat rep 0 (x ++ s) = x ++ replaceScan pat rep 0 s := by
  induction x with
  | nil => rfl
  | cons c x ih =>
    have h0 : ¬ pat <+: c :: (x ++ s) := h 0 (by simp)
    rw [List.cons_append, replaceScan_cons_of_not_prefix h0,
      ih fun j hj => h (j + 1) (by simp only [List.length_cons]; omega)]
    rfl

end Replace

/-! ### A message cut at its smileys

A message in which no two smileys overlap is a list of pieces: a character at which no
smiley starts, or one whole smiley at which no other smiley starts and inside which none
starts (`Tokens`). On such a list `str::replace` of a smiley replaces exactly its pieces
(`replaceScan_render`). -/

/-- A piece of a message. -/
inductive Piece where
  | char (c : Char)
  | smiley (key : List Char)
  deriving DecidableEq

/-- The characters of a piece. -/
def Piece.chars : Piece → List Char
  | .char c => [c]
  | .smiley key => key

/-- The characters of a list of pieces. -/
def render (ps : List Piece) : List Char := ps.flatMap Piece.chars

@[simp] theorem render_nil : render [] = [] := rfl

@[simp] theorem render_cons (p : Piece) (ps : List Piece) :
    render (p :: ps) = p.chars ++ render ps := rfl

@[simp] theorem render_append (ps qs : List Piece) :
    render (ps ++ qs) = render ps ++ render qs := by
  simp [render]

@[simp] theorem render_map_char (cs : List Char) : render (cs.map .char) = cs := by
  induction cs with
  | nil => rfl
  | cons c cs ih => simp [ih, Piece.chars]

/-- `ps` cuts its characters at the occurrences of the keys `ks`. -/
inductive Tokens (ks : List (List Char)) : List Piece → Prop
  | nil : Tokens ks []
  | char {c : Char} {ps : List Piece} (hnone : ∀ k ∈ ks, ¬ k <+: c :: render ps)
      (hrest : Tokens ks ps) : Tokens ks (.char c :: ps)
  | smiley {key : List Char} {ps : List Piece} (hkey : key ∈ ks)
      (hfirst : ∀ k ∈ ks, k <+: key ++ render ps → k = key)
      (hinner : ∀ j, 0 < j → j < key.length →
        ∀ k ∈ ks, ¬ k <+: (key ++ render ps).drop j)
      (hrest : Tokens ks ps) : Tokens ks (.smiley key :: ps)

/-- The pieces after `replace(key, value)`: each smiley `key` becomes the characters of
`value`. -/
def replacePiece (key value : List Char) : Piece → List Piece
  | .char c => [.char c]
  | .smiley k => if k = key then value.map .char else [.smiley k]

variable {ks : List (List Char)} {ps : List Piece} {key value : List Char}

/-- **`str::replace` of a key acts piece by piece.** -/
theorem replaceScan_render (hkey : key ∈ ks) (hne : key ≠ []) (h : Tokens ks ps) :
    replaceScan key value 0 (render ps) = render (ps.flatMap (replacePiece key value)) := by
  induction h with
  | nil => rfl
  | @char c ps hnone _ ih =>
    simp only [render_cons, Piece.chars, List.singleton_append,
      replaceScan_cons_of_not_prefix (hnone key hkey), ih]
    rfl
  | @smiley k ps _ hfirst hinner _ ih =>
    by_cases hk : k = key
    · subst hk
      rw [render_cons, Piece.chars, replaceScan_of_prefix hne (List.prefix_append _ _),
        List.drop_left, ih]
      simp [replacePiece]
    · have hcopy : ∀ j < k.length, ¬ key <+: (k ++ render ps).drop j := by
        intro j hj
        rcases Nat.eq_zero_or_pos j with rfl | hj0
        · exact fun hp => hk (hfirst key hkey hp).symm
        · exact hinner j hj0 hj key hkey
      rw [render_cons, Piece.chars, replaceScan_append_of_not_prefix hcopy, ih]
      simp [replacePiece, hk, Piece.chars]

/-! ### A replacement keeps the cut

Keys are written in one alphabet (`keyChar`, ASCII for the smileys) and every value in
the other, so a text in the keys' alphabet that starts somewhere in the replaced message
started at the same place before: it cannot reach into an inserted value
(`keyPrefix_render_replace`). -/

section Alphabet

variable {keyChar : Char → Bool}

/-- Every text of the keys' alphabet that starts `y` also starts `y'`. -/
def KeyPrefix (keyChar : Char → Bool) (y y' : List Char) : Prop :=
  ∀ k : List Char, (∀ c ∈ k, keyChar c) → k <+: y → k <+: y'

theorem KeyPrefix.append_left {y y' : List Char} (x : List Char) (h : KeyPrefix keyChar y y') :
    KeyPrefix keyChar (x ++ y) (x ++ y') := by
  induction x with
  | nil => exact h
  | cons c x ih =>
    intro k hk hpre
    rcases List.prefix_cons_iff.mp hpre with rfl | ⟨t, rfl, ht⟩
    · exact List.nil_prefix
    · exact List.cons_prefix_cons.mpr
        ⟨rfl, ih t (fun d hd => hk d (List.mem_cons_of_mem c hd)) ht⟩

theorem keyPrefix_of_value_append (hv : value ≠ []) (hva : ∀ c ∈ value, keyChar c = false)
    (z w : List Char) : KeyPrefix keyChar (value ++ z) w := by
  intro k hk hpre
  obtain ⟨v, vs, rfl⟩ := List.exists_cons_of_ne_nil hv
  cases k with
  | nil => exact List.nil_prefix
  | cons c t =>
    obtain ⟨rfl, -⟩ := List.cons_prefix_cons.mp hpre
    simp [hva c (List.mem_cons_self c vs)] at hk

theorem keyPrefix_render_replace (hv : value ≠ []) (hva : ∀ c ∈ value, keyChar c = false)
    (ps : List Piece) :
    KeyPrefix keyChar (render (ps.flatMap (replacePiece key value))) (render ps) := by
  induction ps with
  | nil => exact fun _ _ h => h
  | cons p ps ih =>
    cases p with
    | char c => simpa [replacePiece, Piece.chars] using ih.append_left [c]
    | smiley k =>
      by_cases hk : k = key
      · subst hk
        simpa [replacePiece, Piece.chars] using keyPrefix_of_value_append hv hva _ _
      · simpa [replacePiece, Piece.chars, hk] using ih.append_left k

/-- The keys are non-empty texts of the alphabet `keyChar`. -/
def KeysOver (keyChar : Char → Bool) (ks : List (List Char)) : Prop :=
  ∀ k ∈ ks, k ≠ [] ∧ ∀ c ∈ k, keyChar c

theorem Tokens.chars_append {qs : List Piece} (hks : KeysOver keyChar ks)
    (hva : ∀ c ∈ value, keyChar c = false) (h : Tokens ks qs) :
    Tokens ks (value.map .char ++ qs) := by
  induction value with
  | nil => exact h
  | cons v vs ih =>
    refine .char (fun k hk hpre => ?_) (ih fun c hc => hva c (List.mem_cons_of_mem v hc))
    obtain ⟨hne, hchars⟩ := hks k hk
    obtain ⟨c, t, rfl⟩ := List.exists_cons_of_ne_nil hne
    obtain ⟨rfl, -⟩ := List.cons_prefix_cons.mp hpre
    simpa [hva c (List.mem_cons_self c vs)] using hchars c (List.mem_cons_self c t)

/-- **A replacement keeps the cut.** -/
theorem Tokens.replace (hks : KeysOver keyChar ks) (hv : value ≠ [])
    (hva : ∀ c ∈ value, keyChar c = false) (h : Tokens ks ps) :
    Tokens ks (ps.flatMap (replacePiece key value)) := by
  have window (x : List Char) (qs : List Piece) (k : List Char) (hk : k ∈ ks)
      (hpre : k <+: x ++ render (qs.flatMap (replacePiece key value))) : k <+: x ++ render qs :=
    (keyPrefix_render_replace hv hva qs).append_left x k (hks k hk).2 hpre
  induction h with
  | nil => exact .nil
  | @char c ps hnone _ ih =>
    exact .char (fun k hk hpre => hnone k hk (window [c] ps k hk hpre)) ih
  | @smiley k ps hkey hfirst hinner _ ih =>
    by_cases hk : k = key
    · simpa [replacePiece, hk] using Tokens.chars_append hks hva ih
    · simp only [List.flatMap_cons, replacePiece, hk, if_false, List.singleton_append]
      refine .smiley hkey (fun k' hk' hpre => hfirst k' hk' (window k ps k' hk' hpre))
        (fun j hj0 hj k' hk' hpre => hinner j hj0 hj k' hk' ?_) ih
      rw [List.drop_append_of_le_length hj.le] at hpre ⊢
      exact window _ ps k' hk' hpre

end Alphabet

/-! ### The loop over the entries -/

@[simp] theorem replaceEntries_nil (msg : String) : replaceEntries [] msg = msg := rfl

@[simp] theorem replaceEntries_cons (e : String × String) (entries : List (String × String))
    (msg : String) :
    replaceEntries (e :: entries) msg = replaceEntries entries (strReplace msg e.1 e.2) := rfl

/-- The pieces after the loop over `entries`: a smiley becomes the value of the first entry
with its key. -/
def replacePieceAll (entries : List (String × String)) : Piece → List Piece
  | .char c => [.char c]
  | .smiley k =>
    match entries.find? (fun e => e.1.data = k) with
    | some e => e.2.data.map .char
    | none => [.smiley k]

/-- An entry of a map: a key among `ks` and a non-empty value written outside the keys'
alphabet. -/
def SeparatedEntry (keyChar : Char → Bool) (ks : List (List Char)) (e : String × String) :
    Prop :=
  e.1.data ∈ ks ∧ e.2.data ≠ [] ∧ ∀ c ∈ e.2.data, keyChar c = false

theorem flatMap_replacePieceAll_chars (entries : List (String × String)) (cs : List Char) :
    (cs.map .char).flatMap (replacePieceAll entries) = cs.map .char := by
  induction cs with
  | nil => rfl
  | cons c cs ih => simp [replacePieceAll, ih]

theorem replacePiece_flatMap_replacePieceAll (e : String × String)
    (entries : List (String × String)) (p : Piece) :
    (replacePiece e.1.data e.2.data p).flatMap (replacePieceAll entries) =
      replacePieceAll (e :: entries) p := by
  cases p with
  | char c => rfl
  | smiley k =>
    by_cases hk : k = e.1.data
    · subst hk
      simp [replacePiece, replacePieceAll, flatMap_replacePieceAll_chars]
    · simp [replacePiece, replacePieceAll, hk, Ne.symm hk]

/-- **The loop replaces each smiley piece by its entry's value.** -/
theorem replaceEntries_render {keyChar : Char → Bool} {entries : List (String × String)}
    (hks : KeysOver keyChar ks) (hE : ∀ e ∈ entries, SeparatedEntry keyChar ks e)
    (h : Tokens ks ps) :
    replaceEntries entries ⟨render ps⟩ =
      ⟨render (ps.flatMap (replacePieceAll entries))⟩ := by
  induction entries generalizing ps with
  | nil =>
    have hsingle : replacePieceAll [] = fun p => [p] := by
      funext p; cases p <;> rfl
    simp [hsingle]
  | cons e es ih =>
    obtain ⟨hkey, hv, hva⟩ := hE e (List.mem_cons_self e es)
    have hne := (hks _ hkey).1
    have hstep : strReplace ⟨render ps⟩ e.1 e.2 =
        ⟨render (ps.flatMap (replacePiece e.1.data e.2.data))⟩ := by
      simp only [strReplace, if_neg hne, replaceScan_render hkey hne h]
    rw [replaceEntries_cons, hstep,
      ih (fun e' he' => hE e' (List.mem_cons_of_mem e he')) (h.replace hks hv hva),
      List.flatMap_assoc]
    simp only [replacePiece_flatMap_replacePieceAll]

private theorem find?_eq_of_perm {α : Type} {l₁ l₂ : List α} {p : α → Bool}
    (hp : l₁.Perm l₂) (huniq : ∀ a ∈ l₁, ∀ b ∈ l₁, p a → p b → a = b) :
    l₁.find? p = l₂.find? p := by
  cases h₁ : l₁.find? p with
  | none =>
    exact (List.find?_eq_none.mpr fun x hx => List.find?_eq_none.mp h₁ x (hp.mem_iff.mpr hx)).symm
  | some a =>
    have ha := hp.mem_iff.mp (List.mem_of_find?_eq_some h₁)
    cases h₂ : l₂.find? p with
    | none => exact absurd (List.find?_some h₁) (List.find?_eq_none.mp h₂ a ha)
    | some b =>
      exact congrArg some (huniq a (List.mem_of_find?_eq_some h₁) b
        (hp.mem_iff.mpr (List.mem_of_find?_eq_some h₂)) (List.find?_some h₁)
        (List.find?_some h₂))

/-- With distinct keys, the value each smiley gets does not depend on the entries' order. -/
theorem replacePieceAll_perm {E₁ E₂ : List (String × String)} (hp : E₁.Perm E₂)
    (hnd : (E₁.map fun e => e.1.data).Nodup) : replacePieceAll E₁ = replacePieceAll E₂ := by
  funext p
  cases p with
  | char c => rfl
  | smiley k =>
    have huniq :
        ∀ a ∈ E₁, ∀ b ∈ E₁, decide (a.1.data = k) → decide (b.1.data = k) → a = b :=
      fun a ha b hb hak hbk =>
        List.inj_on_of_nodup_map hnd ha hb
          ((of_decide_eq_true hak).trans (of_decide_eq_true hbk).symm)
    simp only [replacePieceAll, find?_eq_of_perm hp huniq]

/-! ### Messages without overlapping smileys -/

/-- No two occurrences of the keys `ks` in `s` overlap: two occurrences that share a
position are the same occurrence. -/
def NoOverlap (ks : List (List Char)) (s : List Char) : Prop :=
  ∀ i < s.length, ∀ k ∈ ks, k <+: s.drop i →
    ∀ j < s.length, ∀ k' ∈ ks, k' <+: s.drop j →
      (i = j ∧ k = k') ∨ i + k.length ≤ j ∨ j + k'.length ≤ i

instance (ks : List (List Char)) (s : List Char) : Decidable (NoOverlap ks s) :=
  inferInstanceAs (Decidable (∀ i < s.length, ∀ k ∈ ks, k <+: s.drop i →
    ∀ j < s.length, ∀ k' ∈ ks, k' <+: s.drop j →
      (i = j ∧ k = k') ∨ i + k.length ≤ j ∨ j + k'.length ≤ i))

theorem NoOverlap.drop {s : List Char} (h : NoOverlap ks s) (n : Nat) :
    NoOverlap ks (s.drop n) := by
  intro i hi k hk hpre j hj k' hk' hpre'
  simp only [List.drop_drop, List.length_drop] at hi hj hpre hpre'
  rcases h (n + i) (by omega) k hk hpre (n + j) (by omega) k' hk' hpre' with
    ⟨hij, rfl⟩ | hij | hij
  · exact .inl ⟨by omega, rfl⟩
  · exact .inr (.inl (by omega))
  · exact .inr (.inr (by omega))

/-- No key is a prefix of another, and no key starts inside a key: occurrences of such
keys never overlap (`noOverlap_of_overlapFree`). -/
def OverlapFree (ks : List (List Char)) : Prop :=
  ∀ k ∈ ks, ∀ k' ∈ ks, (k' <+: k → k' = k) ∧
    ∀ j < k.length, 0 < j → ¬ k' <+: k.drop j ∧ ¬ k.drop j <+: k'

instance (ks : List (List Char)) : Decidable (OverlapFree ks) :=
  inferInstanceAs (Decidable (∀ k ∈ ks, ∀ k' ∈ ks, (k' <+: k → k' = k) ∧
    ∀ j < k.length, 0 < j → ¬ k' <+: k.drop j ∧ ¬ k.drop j <+: k'))

/-- An occurrence of `k` at `i` and one of `k'` at `j` with `i < j < i + |k|` contradict an
overlap-free key set. -/
private theorem not_overlap_of_lt {ks : List (List Char)} (h : OverlapFree ks) {s k k' : List Char}
    (hk : k ∈ ks) (hk' : k' ∈ ks) {i j : Nat} (hpre : k <+: s.drop i) (hpre' : k' <+: s.drop j)
    (hij : i < j) (hji : j < i + k.length) : False := by
  have hdrop : (s.drop i).drop (j - i) = s.drop j := by
    rw [List.drop_drop]; congr 1; omega
  have hk'' := hpre.drop (j - i)
  rw [hdrop] at hk''
  have := (h k hk k' hk').2 (j - i) (by omega) (by omega)
  rcases List.prefix_or_prefix_of_prefix hpre' hk'' with hp | hp
  · exact this.1 hp
  · exact this.2 hp

theorem noOverlap_of_overlapFree {ks : List (List Char)} (h : OverlapFree ks) (s : List Char) :
    NoOverlap ks s := by
  intro i _ k hk hpre j _ k' hk' hpre'
  rcases Nat.lt_trichotomy i j with hij | rfl | hji
  · by_cases hfar : i + k.length ≤ j
    · exact .inr (.inl hfar)
    · exact (not_overlap_of_lt h hk hk' hpre hpre' hij (by omega)).elim
  · refine .inl ⟨rfl, ?_⟩
    rcases List.prefix_or_prefix_of_prefix hpre hpre' with hp | hp
    · exact (h k' hk' k hk).1 hp
    · exact ((h k hk k' hk').1 hp).symm
  · by_cases hfar : j + k'.length ≤ i
    · exact .inr (.inr hfar)
    · exact (not_overlap_of_lt h hk' hk hpre' hpre hji (by omega)).elim

/-- A message without overlapping smileys is cut at its smileys. -/
theorem exists_tokens {keyChar : Char → Bool} (hks : KeysOver keyChar ks) (s : List Char)
    (h : NoOverlap ks s) :
    ∃ ps, Tokens ks ps ∧ render ps = s := by
  obtain ⟨n, hn⟩ : ∃ n, s.length = n := ⟨_, rfl⟩
  induction n using Nat.strong_induction_on generalizing s with
  | _ n ih =>
  cases s with
  | nil => exact ⟨[], .nil, rfl⟩
  | cons c cs =>
    by_cases hkey : ∃ k ∈ ks, k <+: c :: cs
    · obtain ⟨k, hk, hpre⟩ := hkey
      have hlen : 0 < k.length := List.length_pos.mpr (hks k hk).1
      have hle : k.length ≤ (c :: cs).length := hpre.length_le
      obtain ⟨ps, hps, hrender⟩ :=
        ih _ (by simp only [List.length_drop]; omega) _ (h.drop k.length) rfl
      have hs : k ++ render ps = c :: cs := by rw [hrender]; exact List.prefix_iff_eq_append.mp hpre
      refine ⟨.smiley k :: ps,
        .smiley hk (fun k' hk' hpre' => ?_) (fun j hj0 hj k' hk' hpre' => ?_) hps,
        by simpa [Piece.chars] using hs⟩
      · rw [hs] at hpre'
        have := List.length_pos.mpr (hks k' hk').1
        rcases h 0 (by simp) k hk hpre 0 (by simp) k' hk' hpre' with ⟨-, rfl⟩ | hov | hov
        · rfl
        all_goals omega
      · rw [hs] at hpre'
        rcases h 0 (by simp) k hk hpre j (by omega) k' hk' hpre' with ⟨hj', -⟩ | hov | hov
        all_goals omega
    · obtain ⟨ps, hps, hrender⟩ :=
        ih cs.length (by simp [← hn]) cs (by simpa using h.drop 1) rfl
      exact ⟨.char c :: ps,
        .char (fun k hk hpre => hkey ⟨k, hk, by rwa [hrender] at hpre⟩) hps,
        by simp [Piece.chars, hrender]⟩

/-- Two enumerations of one map with distinct keys give the same text on a message in
which no two of its keys overlap. -/
theorem replaceEntries_perm {keyChar : Char → Bool}
    {entries entries₁ entries₂ : List (String × String)}
    (hks : KeysOver keyChar (entries.map fun e => e.1.data))
    (hsep : ∀ e ∈ entries, SeparatedEntry keyChar (entries.map fun e => e.1.data) e)
    (hnd : (entries.map fun e => e.1.data).Nodup) {msg : String}
    (h : NoOverlap (entries.map fun e => e.1.data) msg.data)
    (h₁ : entries₁.Perm entries) (h₂ : entries₂.Perm entries) :
    replaceEntries entries₁ msg = replaceEntries entries₂ msg := by
  obtain ⟨ps, hps, hrender⟩ := exists_tokens hks msg.data h
  have hmsg : msg = ⟨render ps⟩ := by rw [hrender]
  rw [hmsg, replaceEntries_render hks (fun e he => hsep e (h₁.mem_iff.mp he)) hps,
    replaceEntries_render hks (fun e he => hsep e (h₂.mem_iff.mp he)) hps,
    replacePieceAll_perm (h₁.trans h₂.symm) ((h₁.map _).nodup_iff.mpr hnd)]

/-! ### `smiley_to_emoji` -/

/-- A character of the ASCII range, the smileys' alphabet. -/
def isAsciiChar (c : Char) : Bool := c.toNat < 128

/-- The smileys: the keys of `SMILEY_TO_EMOJI_MAP`. -/
def smileys : List (List Char) := smileyToEmojiMap.map fun e => e.1.data

theorem keysOver_smileys : KeysOver isAsciiChar smileys := by
  have h : (smileys.all fun k => !k.isEmpty && k.all isAsciiChar) = true := by decide
  simpa [KeysOver, List.all_eq_true, List.isEmpty_iff] using h

theorem separatedEntry_smileyToEmojiMap :
    ∀ e ∈ smileyToEmojiMap, SeparatedEntry isAsciiChar smileys e := by
  have h : (smileyToEmojiMap.all fun e =>
      !e.2.data.isEmpty && e.2.data.all fun c => !isAsciiChar c) = true := by decide
  intro e he
  simp only [List.all_eq_true, Bool.and_eq_true, Bool.not_eq_true', List.isEmpty_eq_false] at h
  exact ⟨List.mem_map_of_mem _ he, (h e he).1, fun c hc => by simpa using (h e he).2 c hc⟩

/-- The smileys are distinct: so are their codes, read as numbers in base 128. -/
theorem nodup_smileys : smileys.Nodup :=
  List.Nodup.of_map (fun k => (k.map Char.toNat).foldr (fun c code => c + 128 * code) 0)
    (by decide)

/-- **The result depends on the map's order.** `:(H)` holds both `:(` and `(H)`: replacing
`(H)` first gives `:😎`, replacing `:(` first gives `🙁H)`. -/
theorem smileyToEmoji_depends_on_order :
    ¬ ∀ (msg : String) (order₁ order₂ : IterOrder smileyToEmojiMap),
        smileyToEmoji order₁ msg = smileyToEmoji order₂ msg := fun h =>
  absurd (h ":(H)" (.source _) ⟨(":(", "🙁") :: smileyToEmojiMap.erase (":(", "🙁"),
    (List.perm_cons_erase (show (":(", "🙁") ∈ smileyToEmojiMap by decide)).symm⟩)
    (by decide)

/-- **Without overlapping smileys the order does not matter.** Every enumeration of
`SMILEY_TO_EMOJI_MAP` turns a message in which no two smileys overlap into the same text:
each smiley replaced by its own emoji. -/
theorem smileyToEmoji_eq_of_noOverlap (msg : String) (h : NoOverlap smileys msg.data)
    (order₁ order₂ : IterOrder smileyToEmojiMap) :
    smileyToEmoji order₁ msg = smileyToEmoji order₂ msg :=
  replaceEntries_perm keysOver_smileys separatedEntry_smileyToEmojiMap nodup_smileys h
    order₁.perm order₂.perm

/-- The message of the repository's `test_smileys_to_emoji`, in the map's source order and in
the reverse order. -/
theorem smileyToEmoji_eq_of_noOverlap_test_message :
    NoOverlap smileys "hi:);)".data ∧
      smileyToEmoji (.source _) "hi:);)" = smileyToEmoji (IterOrder.source _).reverse "hi:);)" :=
  have hno : NoOverlap smileys "hi:);)".data := by decide
  ⟨hno, smileyToEmoji_eq_of_noOverlap "hi:);)" hno _ _⟩

/-! ### `emoji_to_smiley` -/

/-- The emoji: the keys of `EMOJI_TO_SMILEY_MAP`. -/
def emojis : List (List Char) := emojiToSmileyMap.map fun e => e.1.data

theorem keysOver_emojis : KeysOver (fun c => !isAsciiChar c) emojis := by
  have h : (emojis.all fun k => !k.isEmpty && k.all fun c => !isAsciiChar c) = true := by decide
  simpa [KeysOver, List.all_eq_true, List.isEmpty_iff] using h

theorem separatedEntry_emojiToSmileyMap :
    ∀ e ∈ emojiToSmileyMap, SeparatedEntry (fun c => !isAsciiChar c) emojis e := by
  have h :
      (emojiToSmileyMap.all fun e => !e.2.data.isEmpty && e.2.data.all isAsciiChar) = true := by
    decide
  intro e he
  simp only [List.all_eq_true, Bool.and_eq_true, Bool.not_eq_true', List.isEmpty_eq_false] at h
  exact ⟨List.mem_map_of_mem _ he, (h e he).1, fun c hc => by simpa using (h e he).2 c hc⟩

theorem nodup_emojis : emojis.Nodup := by decide

theorem overlapFree_emojis : OverlapFree emojis := by decide

/-- **`emoji_to_smiley` does not depend on the map's order**, on any message: no two of its
emoji can overlap. -/
theorem emojiToSmiley_eq (msg : String) (order₁ order₂ : IterOrder emojiToSmileyMap) :
    emojiToSmiley order₁ msg = emojiToSmiley order₂ msg :=
  replaceEntries_perm keysOver_emojis separatedEntry_emojiToSmileyMap nodup_emojis
    (noOverlap_of_overlapFree overlapFree_emojis msg.data) order₁.perm order₂.perm

end WlMatrix
