import Mathlib.Data.List.Basic

-- Text as a program with Unicode strings sees it.

namespace Text

-- The characters that count as white space.
def space (c : Char) : Bool :=
  c.val ∈ [0x20, 0x85, 0xa0, 0x1680, 0x2028, 0x2029, 0x202f, 0x205f, 0x3000] ||
    (0x9 ≤ c.val && c.val ≤ 0xd) || (0x1c ≤ c.val && c.val ≤ 0x1f) || (0x2000 ≤ c.val && c.val ≤ 0x200a)

def strip (text : String) : String :=
  .ofList ((text.toList.dropWhile space).reverse.dropWhile space).reverse

def lstrip (text : String) : String :=
  .ofList (text.toList.dropWhile space)

def rstrip (text : String) : String :=
  .ofList (text.toList.reverse.dropWhile space).reverse

-- `word` is what there is of the current word, the last character first.
def wordsFrom (word : List Char) : List Char → List String
  | []        => if word = [] then [] else [.ofList word.reverse]
  | c :: rest =>
    if space c then (if word = [] then wordsFrom [] rest else .ofList word.reverse :: wordsFrom [] rest)
    else wordsFrom (c :: word) rest

def words (text : String) : List String :=
  wordsFrom [] text.toList

-- The characters that end a line.
def ends (c : Char) : Bool :=
  c.val ∈ [0xa, 0xb, 0xc, 0xd, 0x1c, 0x1d, 0x1e, 0x85, 0x2028, 0x2029]

-- `line` is what there is of the current line, the last character first.
def linesFrom (line : List Char) : List Char → List String
  | []                   => if line = [] then [] else [.ofList line.reverse]
  | '\r' :: '\n' :: rest => .ofList line.reverse :: linesFrom [] rest
  | c :: rest            => if ends c then .ofList line.reverse :: linesFrom [] rest else linesFrom (c :: line) rest

def splitlines (text : String) : List String :=
  linesFrom [] text.toList

end Text
