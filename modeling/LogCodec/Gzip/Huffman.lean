import LogCodec.Gzip.Bits

/-! # Canonical prefix codes

    A code is given by the length of the code word of each symbol, zero for a
    symbol that is not used.  Words of one length are consecutive numbers in
    the order of their symbols, and shorter words come first.  The words are
    kept in a binary tree, which is walked bit by bit.  That bits are no word is
    found with the first bit that leads out of the tree. -/

namespace LogCodec.Gzip

/-- A tree of code words. -/
inductive CodeTree where
  /-- No word starts here. -/
  | empty
  /-- A word ends here. -/
  | leaf (symbol : Nat)
  | node (zero one : CodeTree)

namespace CodeTree

/-- Adds a word. -/
def insert (symbol : Nat) : List Bool → CodeTree → CodeTree
  | [], _ => leaf symbol
  | bit :: word, tree =>
    let (zero, one) :=
      match tree with
      | node zero one => (zero, one)
      | _ => (empty, empty)
    if bit then node zero (insert symbol word one) else node (insert symbol word zero) one

/-- The greatest length of a word. -/
def lengthMax : Nat := 15

/-- A number of `length` bits, the most significant first. -/
def word (length value : Nat) : List Bool :=
  ((List.range length).map value.testBit).reverse

/-- The words of the symbols with one length, of which the first is `first`. -/
def insertAll (length first : Nat) (symbols : List Nat) (tree : CodeTree) : CodeTree :=
  (symbols.zipIdx).foldl
    (fun tree (symbol, index) => insert symbol (word length (first + index)) tree) tree

/-- The tree of a list of lengths.  It has a node at the root even without words,
    so that a bit is read before reading fails. -/
def ofLengths (lengths : List Nat) : CodeTree :=
  ((List.range lengthMax).foldl
    (fun (first, tree) n =>
      let symbols := (lengths.zipIdx.filter fun entry => entry.1 == n + 1).map Prod.snd
      ((first + symbols.length) * 2, insertAll (n + 1) first symbols tree))
    (0, node empty empty)).2

/-- Do the words use up all sequences of bits? -/
def isComplete (lengths : List Nat) : Bool :=
  (lengths.filter (· ≠ 0)).foldl (fun used length => used + 1 <<< (lengthMax - length)) 0 ==
    1 <<< lengthMax

/-- Is there no word, or only one of a single bit? -/
def isMinimal (lengths : List Nat) : Bool :=
  let used := lengths.filter (· ≠ 0)
  used = [] || used = [1]

/-- Can symbols be coded with these lengths?  A code that is not complete must be
    minimal. -/
def isUsable (lengths : List Nat) : Bool := isComplete lengths || isMinimal lengths

/-- Reads one word. -/
def read : CodeTree → Bits → Except Stop (Nat × Bits)
  | empty, _ => .error .corrupt
  | leaf symbol, b => .ok (symbol, b)
  | node zero one, b =>
    match b.bit with
    | .error stop => .error stop
    | .ok (true, b) => one.read b
    | .ok (false, b) => zero.read b

end CodeTree

end LogCodec.Gzip
