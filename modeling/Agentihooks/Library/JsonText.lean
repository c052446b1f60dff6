import Mathlib.Data.List.Basic
import Mathlib.Data.List.TakeWhile
import Mathlib.Data.Char
import Mathlib.Tactic.IntervalCases

-- The JSON text of strings and of natural numbers, in characters: how it is printed, and how it is read. Control
-- characters are always escaped, and in ASCII text so is every character outside the printable range.

namespace JsonText

-- The four digits of a unit of sixteen bits.
def unit (n : ℕ) : List Char :=
  [Nat.digitChar (n / 4096 % 16), Nat.digitChar (n / 256 % 16), Nat.digitChar (n / 16 % 16), Nat.digitChar (n % 16)]

-- The short escapes, as the character meant and the letter written.
def short : List (Char × Char) :=
  [('"', '"'), ('\\', '\\'), ('\n', 'n'), ('\r', 'r'), ('\t', 't'), ('\x0c', 'f'), ('\x08', 'b')]

def letter (c : Char) : Option Char :=
  (short.find? (·.1 = c)).map (·.2)

def escape (ascii : Bool) (c : Char) : List Char :=
  match letter c with
  | some e => ['\\', e]
  | none   =>
    if 0x20 ≤ c.toNat ∧ (ascii → c.toNat ≤ 0x7e) then [c]
    else if c.toNat < 0x10000 then '\\' :: 'u' :: unit c.toNat
    else
      '\\' :: 'u' :: unit (0xd800 + (c.toNat - 0x10000) / 0x400) ++
        '\\' :: 'u' :: unit (0xdc00 + (c.toNat - 0x10000) % 0x400)

def quote (ascii : Bool) (text : List Char) : List Char :=
  '"' :: text.flatMap (escape ascii) ++ ['"']

def digit (c : Char) : Option ℕ :=
  if '0' ≤ c ∧ c ≤ '9' then some (c.toNat - 48)
  else if 'a' ≤ c ∧ c ≤ 'f' then some (c.toNat - 87)
  else if 'A' ≤ c ∧ c ≤ 'F' then some (c.toNat - 55)
  else none

def unitOf (a b c d : Char) : Option ℕ :=
  match digit a, digit b, digit c, digit d with
  | some a, some b, some c, some d => some (a * 4096 + b * 256 + c * 16 + d)
  | _, _, _, _                     => none

-- What an escape letter other than `u` or `/` stands for.
def meant (e : Char) : Option Char :=
  if e = '/' then some '/' else (short.find? (·.2 = e)).map (·.1)

-- The characters up to the closing quote and the text behind it. A surrogate without its partner is no character.
def scan : List Char → Option (List Char × List Char)
  | [] => none
  | c :: rest =>
    if c = '"' then some ([], rest)
    else if c ≠ '\\' then
      if c.toNat < 0x20 then none else (scan rest).map fun read => (c :: read.1, read.2)
    else
      match rest with
      | 'u' :: a :: b :: c :: d :: rest =>
        match unitOf a b c d with
        | none      => none
        | some high =>
          if 0xd800 ≤ high ∧ high ≤ 0xdbff then
            match rest with
            | '\\' :: 'u' :: a :: b :: c :: d :: rest =>
              match unitOf a b c d with
              | none     => none
              | some low =>
                if 0xdc00 ≤ low ∧ low ≤ 0xdfff then
                  (scan rest).map fun read =>
                    (Char.ofNat (0x10000 + (high - 0xd800) * 0x400 + (low - 0xdc00)) :: read.1, read.2)
                else none
            | _ => none
          else if 0xdc00 ≤ high ∧ high ≤ 0xdfff then none
          else (scan rest).map fun read => (Char.ofNat high :: read.1, read.2)
      | e :: rest =>
        match meant e with
        | none   => none
        | some c => (scan rest).map fun read => (c :: read.1, read.2)
      | [] => none

def blank (c : Char) : Bool :=
  c = ' ' || c = '\t' || c = '\n' || c = '\r'

-- A number has no leading zero.
def natural (text : List Char) : Option (ℕ × List Char) :=
  let digits := text.takeWhile Char.isDigit
  if digits = [] ∨ (digits.head? = some '0' ∧ digits ≠ ['0']) then none
  else some (Nat.ofDigitChars 10 digits 0, text.dropWhile Char.isDigit)

theorem digit_digitChar {n : ℕ} (h : n < 16) : digit (Nat.digitChar n) = some n := by
  interval_cases n <;> decide

theorem unitOf_unit {n : ℕ} (h : n < 0x10000) :
    unitOf (Nat.digitChar (n / 4096 % 16)) (Nat.digitChar (n / 256 % 16)) (Nat.digitChar (n / 16 % 16))
      (Nat.digitChar (n % 16)) = some n := by
  have hd (m : ℕ) : digit (Nat.digitChar (m % 16)) = some (m % 16) := digit_digitChar (Nat.mod_lt _ (by omega))
  simp only [unitOf, hd]
  congr 1
  omega

theorem mem_short_of_letter {c e : Char} (h : letter c = some e) : (c, e) ∈ short := by
  obtain ⟨⟨c', e'⟩, hf, rfl⟩ := Option.map_eq_some_iff.mp h
  have hc := List.find?_some hf
  obtain rfl : c' = c := by simpa using hc
  exact List.mem_of_find?_eq_some hf

theorem letter_sound {c e : Char} (h : letter c = some e) : e ≠ 'u' ∧ meant e = some c := by
  have hs : ∀ s ∈ short, s.2 ≠ 'u' ∧ meant s.2 = some s.1 := by decide
  exact hs _ (mem_short_of_letter h)

theorem ne_of_letter_none {c : Char} (h : letter c = none) : c ≠ '"' ∧ c ≠ '\\' := by
  constructor <;> rintro rfl <;> revert h <;> decide

theorem scan_letter {e c : Char} (rest : List Char) (hu : e ≠ 'u') (h : meant e = some c) :
    scan ('\\' :: e :: rest) = (scan rest).map fun read => (c :: read.1, read.2) := by
  have hs : ('\\' : Char) ≠ '"' := by decide
  rw [scan, if_neg hs, if_neg (not_not.mpr rfl), h]
  exact fun _ _ _ _ _ he _ => hu he

theorem scan_plain {c : Char} (rest : List Char) (hq : c ≠ '"') (hb : c ≠ '\\') (hc : ¬ c.toNat < 0x20) :
    scan (c :: rest) = (scan rest).map fun read => (c :: read.1, read.2) := by
  rw [scan.eq_def]
  simp only [hq, hb, hc, if_false, ne_eq, not_false_eq_true, if_true]

theorem scan_close (rest : List Char) : scan ('"' :: rest) = some ([], rest) := by
  rw [scan.eq_def]
  simp only [if_true]

theorem scan_unit {n : ℕ} (rest : List Char) (h : n < 0xd800 ∨ 0xdfff < n ∧ n < 0x10000) :
    scan ('\\' :: 'u' :: unit n ++ rest) = (scan rest).map fun read => (Char.ofNat n :: read.1, read.2) := by
  have hs : ('\\' : Char) ≠ '"' := by decide
  have hu := unitOf_unit (n := n) (by omega)
  have hh : ¬ (0xd800 ≤ n ∧ n ≤ 0xdbff) := by omega
  have hl : ¬ (0xdc00 ≤ n ∧ n ≤ 0xdfff) := by omega
  simp only [unit, List.cons_append, List.nil_append]
  rw [scan]
  simp only [hs, if_false, ne_eq, not_true_eq_false, hu, hh, hl]

theorem scan_pair {n : ℕ} (rest : List Char) (h : n < 0x100000) :
    scan ('\\' :: 'u' :: unit (0xd800 + n / 0x400) ++ '\\' :: 'u' :: unit (0xdc00 + n % 0x400) ++ rest) =
      (scan rest).map fun read => (Char.ofNat (0x10000 + n) :: read.1, read.2) := by
  have hs : ('\\' : Char) ≠ '"' := by decide
  have hh := unitOf_unit (n := 0xd800 + n / 0x400) (by omega)
  have hl := unitOf_unit (n := 0xdc00 + n % 0x400) (by omega)
  have hhigh : 0xd800 ≤ 0xd800 + n / 0x400 ∧ 0xd800 + n / 0x400 ≤ 0xdbff := by omega
  have hlow : 0xdc00 ≤ 0xdc00 + n % 0x400 ∧ 0xdc00 + n % 0x400 ≤ 0xdfff := by omega
  have hn : 0x10000 + (0xd800 + n / 0x400 - 0xd800) * 0x400 + (0xdc00 + n % 0x400 - 0xdc00) = 0x10000 + n := by omega
  simp only [unit, List.cons_append, List.nil_append]
  rw [scan]
  simp only [hs, if_false, ne_eq, not_true_eq_false, hh, hl, hhigh, hlow, hn, and_self, if_true]

theorem scan_escape (ascii : Bool) (c : Char) (rest : List Char) :
    scan (escape ascii c ++ rest) = (scan rest).map fun read => (c :: read.1, read.2) := by
  have hv : c.toNat < 0xd800 ∨ 0xdfff < c.toNat ∧ c.toNat < 0x110000 := c.valid
  unfold escape
  split
  case h_1 e he => exact scan_letter rest (letter_sound he).left (letter_sound he).right
  case h_2 he =>
    have ⟨hq, hb⟩ := ne_of_letter_none he
    split_ifs with hp hu
    case pos =>
      exact scan_plain rest hq hb (by omega)
    case pos =>
      rw [scan_unit rest (by omega), Char.ofNat_toNat]
    case neg =>
      have hn : 0x10000 + (c.toNat - 0x10000) = c.toNat := by omega
      rw [scan_pair rest (by omega), hn, Char.ofNat_toNat]

-- What is quoted is read back, up to the closing quote.
theorem scan_quote (ascii : Bool) (text rest : List Char) :
    scan (text.flatMap (escape ascii) ++ '"' :: rest) = some (text, rest) := by
  induction text
  case nil            => exact scan_close rest
  case cons c text hi => rw [List.flatMap_cons, List.append_assoc, scan_escape, hi, Option.map_some]

theorem toDigits_head {n : ℕ} (h : (Nat.toDigits 10 n).head? = some '0') : Nat.toDigits 10 n = ['0'] := by
  induction n using Nat.strongRecOn
  case ind n hi =>
    by_cases hn : n < 10
    case pos =>
      rw [Nat.toDigits_of_lt_base hn] at h ⊢
      simpa using h
    case neg =>
      rw [Nat.toDigits_of_base_le (by decide) (by omega)] at h
      have hh : (Nat.toDigits 10 (n / 10)).head? = some '0' := by
        rwa [List.head?_append_of_ne_nil _ Nat.toDigits_ne_nil] at h
      have hz := congrArg (Nat.ofDigitChars 10 · 0) (hi (n / 10) (by omega) hh)
      rw [Nat.ofDigitChars_ten_toDigits] at hz
      have hzero : n / 10 = 0 := hz
      omega

theorem natural_toDigits (n : ℕ) (rest : List Char) (h : ∀ c, rest.head? = some c → ¬ c.isDigit) :
    natural (Nat.toDigits 10 n ++ rest) = some (n, rest) := by
  have hd : ∀ c ∈ Nat.toDigits 10 n, c.isDigit :=
    fun _ hc => Nat.isDigit_of_mem_toDigits (by decide) (by decide) hc
  have ht : (Nat.toDigits 10 n ++ rest).takeWhile Char.isDigit = Nat.toDigits 10 n := by
    rw [List.takeWhile_append_of_pos hd]
    cases rest <;> simp_all
  have hr : (Nat.toDigits 10 n ++ rest).dropWhile Char.isDigit = rest := by
    rw [List.dropWhile_append_of_pos hd]
    cases rest <;> simp_all
  have hz : ¬ (Nat.toDigits 10 n = [] ∨ ((Nat.toDigits 10 n).head? = some '0' ∧ Nat.toDigits 10 n ≠ ['0'])) := by
    rintro (hn | ⟨hh, hn⟩)
    case inl => exact Nat.toDigits_ne_nil hn
    case inr => exact hn (toDigits_head hh)
  simp only [natural, ht, hr, if_neg hz, Nat.ofDigitChars_ten_toDigits]

end JsonText
