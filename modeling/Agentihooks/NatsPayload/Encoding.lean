import Agentihooks.Chunks.Payload
import Agentihooks.Library.JsonText

-- How a value of any length is put into a bucket whose entries are limited: the callbacks of the two functions are a
-- bucket, and the pages of a large value lie in it under keys with the token that its reference names.

namespace NatsPayload

open Chunks (Bytes compressedMark pagedMark Marked piece pieceCount)

structure Zlib where
  compress   : Bytes → Bytes
  decompress : Bytes → Option Bytes
  inverts    : ∀ v, decompress (compress v) = some v

def utf8 (text : List Char) : Bytes :=
  (String.ofList text).toUTF8.data.toList

def text (bytes : Bytes) : Option (List Char) :=
  (ByteArray.mk bytes.toArray).utf8Decode?.map (·.toList)

-- The printed form of the pair of a token and a count, and the pair that a text of that shape prints.
def dumps (token : String) (count : ℕ) : Bytes :=
  utf8 (['['] ++ JsonText.quote true token.toList ++ [',', ' '] ++ Nat.toDigits 10 count ++ [']'])

def skip (text : List Char) : List Char :=
  text.dropWhile JsonText.blank

def after (c : Char) (text : List Char) : Option (List Char) :=
  match skip text with
  | []        => none
  | d :: rest => if d = c then some rest else none

def pair (text : List Char) : Option (String × ℕ) := do
  let text ← after '[' text
  let text ← after '"' text
  let (token, text) ← JsonText.scan text
  let text ← after ',' text
  let (count, text) ← JsonText.natural (skip text)
  let text ← after ']' text
  if skip text = [] then some (.ofList token, count) else none

def loads (bytes : Bytes) : Option (String × ℕ) :=
  (text bytes).bind pair

abbrev Bucket := String → Option Bytes

def Bucket.write (bucket : Bucket) (entry : String × Bytes) : Bucket :=
  Function.update bucket entry.1 (some entry.2)

def chunkKey (token : String) (index : ℕ) : String :=
  "_chunks." ++ token ++ "." ++ .ofList (Nat.toDigits 10 index)

def packed (zlib : Zlib) (value : Bytes) : Bytes :=
  compressedMark ++ zlib.compress value

def reference (token : String) (count : ℕ) : Bytes :=
  pagedMark ++ dumps token count

-- The chunks in the order they are written, and the value returned.
structure Encoded where
  chunks : List (String × Bytes)
  stored : Bytes

-- The pages of a value under one token, and the reference that stands for it.
def pages (token : String) (limit : ℕ) (value : Bytes) : Encoded :=
  let count := pieceCount limit value
  ⟨(List.range count).map fun index => (chunkKey token index, piece limit value index), reference token count⟩

inductive ValueError
  | budget

variable (zlib : Zlib)

-- The nonce is the random half of the token.
def encode (value : Bytes) (limit : ℕ) (scope nonce : String) : Except ValueError Encoded :=
  if limit < 128 then .error .budget
  else if value.length ≤ limit ∧ ¬ Marked value then .ok ⟨[], value⟩
  else
    let value := packed zlib value
    if value.length ≤ limit then .ok ⟨[], value⟩
    else .ok (pages (scope ++ "." ++ nonce) limit value)

def inflate (value : Bytes) : Option Bytes :=
  if compressedMark <+: value then zlib.decompress (value.drop compressedMark.length) else some value

def decode (bucket : Bucket) (value : Bytes) : Option Bytes :=
  if pagedMark <+: value then
    match loads (value.drop pagedMark.length) with
    | none                => none
    | some (token, count) =>
      match (List.range count).mapM fun index => bucket (chunkKey token index) with
      | none        => none
      | some chunks => inflate zlib chunks.flatten
  else inflate zlib value

-- The values that are cut into chunks.
def Paged (limit : ℕ) (value : Bytes) : Prop :=
  ¬ (value.length ≤ limit ∧ ¬ Marked value) ∧ limit < (packed zlib value).length

end NatsPayload
