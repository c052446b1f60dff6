import Mathlib.Data.List.Nodup
import Agentihooks.NatsPayload.Encoding

namespace NatsPayload

open Chunks

theorem text_utf8 (chars : List Char) : text (utf8 chars) = some chars := by
  have hd : ByteArray.mk chars.utf8Encode.data = chars.utf8Encode := rfl
  simp [text, utf8, hd]

theorem after_cons {c : Char} (rest : List Char) (h : JsonText.blank c = false) : after c (c :: rest) = some rest := by
  simp [after, skip, h]

theorem after_blank {b c : Char} (rest : List Char) (h : JsonText.blank b) : after c (b :: rest) = after c rest := by
  simp [after, skip, h]

theorem blank_of_isDigit {c : Char} (h : c.isDigit) : JsonText.blank c = false := by
  by_contra hb
  simp only [JsonText.blank, Bool.not_eq_false, Bool.or_eq_true, decide_eq_true_eq] at hb
  obtain ((rfl | rfl) | rfl) | rfl := hb <;> revert h <;> decide

theorem skip_toDigits (n : ℕ) (rest : List Char) :
    skip (' ' :: (Nat.toDigits 10 n ++ rest)) = Nat.toDigits 10 n ++ rest := by
  have hd : ∀ c ∈ Nat.toDigits 10 n, c.isDigit :=
    fun _ hc => Nat.isDigit_of_mem_toDigits (by decide) (by decide) hc
  have hs : JsonText.blank ' ' := by decide
  cases he : Nat.toDigits 10 n
  case nil         => exact absurd he Nat.toDigits_ne_nil
  case cons c text =>
    have hb : JsonText.blank c = false := blank_of_isDigit (hd c (he ▸ List.mem_cons_self))
    simp [skip, hs, hb]

theorem pair_printed (token : String) (count : ℕ) :
    pair (['['] ++ JsonText.quote true token.toList ++ [',', ' '] ++ Nat.toDigits 10 count ++ [']']) = some (token, count) := by
  have hn : JsonText.natural (Nat.toDigits 10 count ++ [']']) = some (count, [']']) := by
    refine JsonText.natural_toDigits count [']'] fun c hc => ?_
    cases hc
    decide
  simp only [pair, JsonText.quote, List.append_assoc, List.cons_append, List.nil_append]
  rw [after_cons _ (by decide), Option.bind_eq_bind, Option.bind_some, after_cons _ (by decide)]
  simp only [Option.bind_eq_bind, Option.bind_some, JsonText.scan_quote, skip_toDigits, hn,
    after_cons _ (show JsonText.blank ',' = false by decide), after_cons _ (show JsonText.blank ']' = false by decide)]
  simp [skip]

theorem loads_dumps (token : String) (count : ℕ) : loads (dumps token count) = some (token, count) := by
  rw [loads, dumps, text_utf8, Option.bind_some, pair_printed]

theorem chunkKey_inj (token : String) : Function.Injective (chunkKey token) := by
  intro i j h
  have hd : Nat.toDigits 10 i = Nat.toDigits 10 j := by simpa [chunkKey] using congrArg String.toList h
  rw [← Nat.ofDigitChars_ten_toDigits (n := i), hd, Nat.ofDigitChars_ten_toDigits]

variable {bucket : Bucket} {entries : List (String × Bytes)}

theorem write_of_not_mem {key : String} (h : key ∉ entries.map Prod.fst) :
    entries.foldl Bucket.write bucket key = bucket key := by
  induction entries generalizing bucket
  case nil                   => rfl
  case cons entry entries hi =>
    rw [List.map_cons, List.mem_cons, not_or] at h
    rw [List.foldl_cons, hi h.right, Bucket.write, Function.update_of_ne h.left]

theorem write_of_mem {key : String} {chunk : Bytes} (hd : (entries.map Prod.fst).Nodup) (h : (key, chunk) ∈ entries) :
    entries.foldl Bucket.write bucket key = some chunk := by
  induction entries generalizing bucket
  case nil                   => cases h
  case cons entry entries hi =>
    rw [List.map_cons, List.nodup_cons] at hd
    rw [List.foldl_cons]
    cases h
    case head   => rw [write_of_not_mem hd.left, Bucket.write, Function.update_self]
    case tail h => exact hi hd.right h

variable {zlib : Zlib} {limit : ℕ} {value : Bytes}

theorem inflate_packed : inflate zlib (packed zlib value) = some value := by
  simp [inflate, packed, zlib.inverts]

theorem pages_nodup (token : String) : ((pages token limit value).chunks.map Prod.fst).Nodup := by
  rw [pages, List.map_map]
  exact List.Nodup.map (chunkKey_inj token) List.nodup_range

theorem pages_read (token : String) :
    (List.range (pieceCount limit value)).mapM
        (fun index => (pages token limit value).chunks.foldl Bucket.write bucket (chunkKey token index)) =
      some ((List.range (pieceCount limit value)).map (piece limit value)) := by
  have hn : ((List.range (pieceCount limit value)).map (piece limit value)).length = pieceCount limit value := by
    rw [List.length_map, List.length_range]
  nth_rewrite 1 [← hn]
  refine List.mapM_range fun index chunk hc => write_of_mem (pages_nodup token) ?_
  rw [List.getElem?_map, Option.map_eq_some_iff] at hc
  obtain ⟨i, hi, rfl⟩ := hc
  obtain ⟨hn, rfl⟩ := List.getElem?_eq_some_iff.mp hi
  rw [List.length_range] at hn
  exact List.mem_map.mpr ⟨index, List.mem_range.mpr hn, by rw [List.getElem_range]⟩

-- The pages are found behind the reference and put together again.
theorem decode_pages (token : String) (h : 0 < limit) :
    decode zlib ((pages token limit value).chunks.foldl Bucket.write bucket) (pages token limit value).stored =
      inflate zlib value := by
  have hl : loads ((pages token limit value).stored.drop pagedMark.length) = some (token, pieceCount limit value) := by
    rw [pages, reference, List.drop_left, loads_dumps]
  have hp : pagedMark <+: (pages token limit value).stored := List.prefix_append ..
  simp only [decode, if_pos hp, hl, pages_read, flatten_all h]

theorem decode_whole (h : ¬ pagedMark <+: value) : decode zlib bucket value = inflate zlib value :=
  if_neg h

theorem length_piece (index : ℕ) : (piece limit value index).length ≤ limit :=
  List.length_take_le ..

theorem pages_ne_nil (token : String) (hl : 0 < limit) (hv : limit < value.length) :
    (pages token limit value).chunks ≠ [] := by
  have hs : value.length ≤ pieceCount limit value * limit := length_le_pieces hl
  have hc : pieceCount limit value ≠ 0 := by
    intro hz
    rw [hz, Nat.zero_mul] at hs
    omega
  simpa [pages] using hc

-- Every value comes back from what is returned and the chunks in the bucket, whatever else the bucket holds. Nothing
-- that is stored is over the limit, and the mark of a paged value says whether there are chunks.
theorem encode_round_trip (zlib : Zlib) (bucket : Bucket) (value : Bytes) (limit : ℕ) (scope nonce : String)
    (hl : 128 ≤ limit)
    (hf : Paged zlib limit value →
      (reference (scope ++ "." ++ nonce) (pieceCount limit (packed zlib value))).length ≤ limit) :
    ∃ encoded, encode zlib value limit scope nonce = .ok encoded ∧
      decode zlib (encoded.chunks.foldl Bucket.write bucket) encoded.stored = some value ∧
      encoded.stored.length ≤ limit ∧ (∀ chunk ∈ encoded.chunks, chunk.2.length ≤ limit) ∧
      (pagedMark <+: encoded.stored ↔ encoded.chunks ≠ []) := by
  have hb : ¬ limit < 128 := by omega
  by_cases hv : value.length ≤ limit ∧ ¬ Marked value
  case pos =>
    have hp : ¬ pagedMark <+: value := fun h => hv.right (.inr h)
    have hi : inflate zlib value = some value := if_neg fun h => hv.right (.inl h)
    have he : encode zlib value limit scope nonce = .ok ⟨[], value⟩ := by rw [encode, if_neg hb, if_pos hv]
    exact ⟨_, he, (decode_whole hp).trans hi, hv.left, by simp, by simp [hp]⟩
  case neg =>
    by_cases hc : (packed zlib value).length ≤ limit
    case pos =>
      have hp : ¬ pagedMark <+: packed zlib value := not_paged_of_compressed _
      have he : encode zlib value limit scope nonce = .ok ⟨[], packed zlib value⟩ := by
        rw [encode, if_neg hb, if_neg hv, if_pos hc]
      exact ⟨_, he, (decode_whole hp).trans inflate_packed, hc, by simp, by simp [hp]⟩
    case neg =>
      have hn : limit < (packed zlib value).length := Nat.lt_of_not_le hc
      have he : encode zlib value limit scope nonce = .ok (pages (scope ++ "." ++ nonce) limit (packed zlib value)) := by
        rw [encode, if_neg hb, if_neg hv, if_neg hc]
      have hp : pagedMark <+: (pages (scope ++ "." ++ nonce) limit (packed zlib value)).stored :=
        List.prefix_append ..
      have hs : ∀ chunk ∈ (pages (scope ++ "." ++ nonce) limit (packed zlib value)).chunks,
          chunk.2.length ≤ limit := by
        intro chunk hm
        obtain ⟨index, _, rfl⟩ := List.mem_map.mp hm
        exact length_piece index
      have hz : 0 < limit := by omega
      exact ⟨_, he, (decode_pages _ hz).trans inflate_packed, hf ⟨hv, hn⟩, hs, by simp [hp, pages_ne_nil _ hz hn]⟩

-- A codec whose tokens are printed by `print` encodes to the same bytes.
theorem encode_of_codec {Owner : Type} {codec : Codec Owner} {print : Token Owner → String} {token : Token Owner}
    {scope nonce : String} (hc : codec.compress = zlib.compress)
    (hd : ∀ token count, codec.dumps token count = dumps (print token) count)
    (ht : print token = scope ++ "." ++ nonce) (hl : 128 ≤ limit) :
    ∃ encoded, encode zlib value limit scope nonce = .ok encoded ∧
      Chunks.encode codec limit token value = ⟨encoded.chunks.map Prod.snd, encoded.stored⟩ := by
  have hb : ¬ limit < 128 := by omega
  by_cases hv : value.length ≤ limit ∧ ¬ Marked value
  case pos => exact ⟨⟨[], value⟩, by rw [encode, if_neg hb, if_pos hv], by rw [Chunks.encode, if_pos hv]; rfl⟩
  case neg =>
    rw [encode, if_neg hb, if_neg hv, Chunks.encode, if_neg hv, hc]
    by_cases hp : (packed zlib value).length ≤ limit
    case pos => exact ⟨_, if_pos hp, if_pos hp⟩
    case neg =>
      refine ⟨_, if_neg hp, (if_neg hp).trans ?_⟩
      simp only [hd, ht, pages, List.map_map]
      rfl

-- Every byte once, which is compressed to a block of these bytes as they are.
def everyByte : Bytes :=
  (List.range 256).map fun n => n.toUInt8

def storedBlock : Bytes :=
  [0x78, 0x9c, 1, 0, 1, 0xff, 0xfe] ++ everyByte ++ [0xad, 0xf6, 0x7f, 0x81]

def blockZlib : Zlib where
  compress v   := if v = everyByte then storedBlock else 0 :: v
  decompress v := if v = storedBlock then some everyByte else some (v.drop 1)
  inverts v    := by
    by_cases hv : v = everyByte
    case pos => simp [hv]
    case neg =>
      have hs : 0 :: v ≠ storedBlock := fun h => absurd (List.cons.inj h).left (by decide)
      simp [hv, hs]

theorem encode_round_trip_every_byte :
    ∃ encoded, encode blockZlib everyByte 128 "5f1c.0" "8e0a" = .ok encoded ∧
      decode blockZlib (encoded.chunks.foldl Bucket.write fun _ => none) encoded.stored = some everyByte ∧
      encoded.stored.length ≤ 128 ∧ (∀ chunk ∈ encoded.chunks, chunk.2.length ≤ 128) ∧
      (pagedMark <+: encoded.stored ↔ encoded.chunks ≠ []) :=
  encode_round_trip blockZlib (fun _ => none) everyByte 128 "5f1c.0" "8e0a" (by decide) fun _ => by decide +kernel

end NatsPayload
