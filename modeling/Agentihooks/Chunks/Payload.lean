import Mathlib.Data.List.Basic
import Mathlib.Order.Nat
import Agentihooks.Library.Lists

-- The stored form of a value: as it is when it is small, else compressed, and a value that is still too large is cut
-- into chunks under a token and replaced by a reference to them.

namespace Chunks

abbrev Bytes := List UInt8

-- The owner is the hash of the key, `base` the revision that the write expects.
structure Token (Owner : Type) where
  owner : Owner
  base  : ℕ
  nonce : ℕ
  deriving DecidableEq

-- The compression and the printed form of a reference, each with what undoes it.
structure Codec (Owner : Type) where
  compress   : Bytes → Bytes
  decompress : Bytes → Option Bytes
  dumps      : Token Owner → ℕ → Bytes
  loads      : Bytes → Option (Token Owner × ℕ)
  inflated   : ∀ v, decompress (compress v) = some v
  parsed     : ∀ token count, loads (dumps token count) = some (token, count)

def compressedMark : Bytes :=
  0 :: "agentihooks-state-zlib:".toList.map fun c => c.toNat.toUInt8

def pagedMark : Bytes :=
  0 :: "agentihooks-state-pages:".toList.map fun c => c.toNat.toUInt8

def Marked (value : Bytes) : Prop :=
  compressedMark <+: value ∨ pagedMark <+: value

instance (value : Bytes) : Decidable (Marked value) :=
  inferInstanceAs (Decidable (_ ∨ _))

def piece (limit : ℕ) (value : Bytes) (index : ℕ) : Bytes :=
  (value.drop (index * limit)).take limit

def pieceCount (limit : ℕ) (value : Bytes) : ℕ :=
  (value.length + limit - 1) / limit

-- What a write stages and what it stores under its key.
structure Encoded where
  pieces : List Bytes
  stored : Bytes

variable {Owner : Type}

def encode (codec : Codec Owner) (limit : ℕ) (token : Token Owner) (value : Bytes) : Encoded :=
  if value.length ≤ limit ∧ ¬ Marked value then ⟨[], value⟩
  else
    let packed := compressedMark ++ codec.compress value
    if packed.length ≤ limit then ⟨[], packed⟩
    else
      let count := pieceCount limit packed
      ⟨(List.range count).map (piece limit packed), pagedMark ++ codec.dumps token count⟩

-- The reference that a stored value is.
def reference (codec : Codec Owner) (value : Bytes) : Option (Token Owner × ℕ) :=
  if pagedMark <+: value then codec.loads (value.drop pagedMark.length) else none

def tokenOf (codec : Codec Owner) (value : Bytes) : Option (Token Owner) :=
  (reference codec value).map Prod.fst

def inflate (codec : Codec Owner) (value : Bytes) : Option Bytes :=
  if compressedMark <+: value then codec.decompress (value.drop compressedMark.length) else some value

def decode (codec : Codec Owner) (read : Token Owner → ℕ → Option Bytes) (value : Bytes) : Option Bytes :=
  if pagedMark <+: value then
    match codec.loads (value.drop pagedMark.length) with
    | none                => none
    | some (token, count) =>
      match (List.range count).mapM (read token) with
      | none        => none
      | some chunks => inflate codec chunks.flatten
  else inflate codec value

variable {codec : Codec Owner} {limit : ℕ} {token : Token Owner} {value : Bytes}

theorem not_paged_of_compressed (rest : Bytes) : ¬ pagedMark <+: compressedMark ++ rest := by
  intro h
  have hc : compressedMark <+: compressedMark ++ rest := List.prefix_append ..
  have hp := List.prefix_of_prefix_length_le hc h (by decide +kernel)
  revert hp
  decide +kernel

theorem inflate_packed : inflate codec (compressedMark ++ codec.compress value) = some value := by
  simp [inflate, codec.inflated]

theorem reference_paged (count : ℕ) :
    reference codec (pagedMark ++ codec.dumps token count) = some (token, count) := by
  simp [reference, codec.parsed]

theorem flatten_pieces (limit : ℕ) (value : Bytes) (count : ℕ) :
    ((List.range count).map (piece limit value)).flatten = value.take (count * limit) := by
  induction count
  case zero          => simp
  case succ count hi =>
    rw [List.range_succ, List.map_append, List.flatten_append, hi, Nat.succ_mul, List.take_add]
    simp [piece]

theorem length_le_pieces (h : 0 < limit) : value.length ≤ pieceCount limit value * limit := by
  have hd := Nat.div_add_mod (value.length + limit - 1) limit
  have hm := Nat.mod_lt (value.length + limit - 1) h
  rw [Nat.mul_comm] at hd
  rw [pieceCount]
  omega

theorem flatten_all (h : 0 < limit) :
    ((List.range (pieceCount limit value)).map (piece limit value)).flatten = value := by
  rw [flatten_pieces, List.take_of_length_le (length_le_pieces h)]

-- What is stored either stands for itself or names the write's own token and has the staged pieces behind it.
inductive Encoding (codec : Codec Owner) (token : Token Owner) (value : Bytes) : Encoded → Prop
  | whole {stored : Bytes} :
    ¬ pagedMark <+: stored → inflate codec stored = some value → Encoding codec token value ⟨[], stored⟩
  | paged {pieces : List Bytes} :
    inflate codec pieces.flatten = some value →
    Encoding codec token value ⟨pieces, pagedMark ++ codec.dumps token pieces.length⟩

theorem encoding (hl : 0 < limit) : Encoding codec token value (encode codec limit token value) := by
  unfold encode
  split_ifs with hv
  case pos =>
    have ⟨_, hm⟩ := hv
    exact .whole (fun h => hm (.inr h)) (if_neg fun h => hm (.inl h))
  case neg =>
    dsimp only
    split_ifs
    case pos => exact .whole (not_paged_of_compressed _) inflate_packed
    case neg =>
      have hp : inflate codec ((List.range (pieceCount limit (compressedMark ++ codec.compress value))).map
          (piece limit (compressedMark ++ codec.compress value))).flatten = some value := by
        rw [flatten_all hl, inflate_packed]
      have he : Encoding codec token value _ := .paged hp
      simpa using he

namespace Encoding

variable {encoded : Encoded} {read : Token Owner → ℕ → Option Bytes}

theorem reference_eq (h : Encoding codec token value encoded) {other : Token Owner} {count : ℕ}
    (hr : reference codec encoded.stored = some (other, count)) :
    other = token ∧ count = encoded.pieces.length := by
  cases h
  case whole hn _ => simp [reference, hn] at hr
  case paged =>
    rw [reference_paged] at hr
    exact ⟨(congrArg Prod.fst (Option.some.inj hr)).symm, (congrArg Prod.snd (Option.some.inj hr)).symm⟩

theorem tokenOf_eq (h : Encoding codec token value encoded) {other : Token Owner}
    (ht : tokenOf codec encoded.stored = some other) : other = token := by
  obtain ⟨⟨_, count⟩, hr, rfl⟩ := Option.map_eq_some_iff.mp ht
  exact (h.reference_eq hr).left

theorem tokenOf_of_piece (h : Encoding codec token value encoded) {i : ℕ} (hi : i < encoded.pieces.length) :
    tokenOf codec encoded.stored = some token := by
  cases h
  case whole => exact absurd hi (Nat.not_lt_zero i)
  case paged => rw [tokenOf, reference_paged, Option.map_some]

-- A value whose pieces are all read back is decoded to the bytes written.
theorem decode_eq (h : Encoding codec token value encoded)
    (hr : ∀ index chunk, encoded.pieces[index]? = some chunk → read token index = some chunk) :
    decode codec read encoded.stored = some value := by
  cases h
  case whole hn hi => simp [decode, hn, hi]
  case paged pieces hi =>
    have hm : (List.range pieces.length).mapM (read token) = some pieces := List.mapM_range hr
    simp [decode, codec.parsed, hm, hi]

end Encoding

end Chunks
