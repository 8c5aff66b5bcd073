import CleanCopy.Text.Basic

namespace CleanCopy.Ignore

def slash : UInt8 := 47

/-- What stretches of a path are compared with. Sets hold inclusive ranges of characters. -/
inductive Token where
  | char (c : Char)
  | one
  | run
  | set (negated : Bool) (ranges : List (Char × Char))
  /-- nothing, or directories -/
  | leading
  /-- anything below a directory -/
  | trailing
  /-- a slash, or directories between two slashes -/
  | between
  | choice (branches : List (List Token))

abbrev Glob := List Token

/-- The ranges of bytes that a range of characters stands for: the bytes of both ends by themselves,
and all from the last one of the first end to the first one of the other. -/
def byteRanges (lo hi : Char) : List (UInt8 × UInt8) :=
  let single (b : UInt8) := (b, b)
  let low := String.utf8EncodeChar lo
  let high := String.utf8EncodeChar hi
  if lo = hi then low.map single
  else
    match low.getLast?, high.head? with
    | some a, some b => low.dropLast.map single ++ (a, b) :: high.tail.map single
    | _, _ => []

def setAccepts (negated : Bool) (ranges : List (Char × Char)) (b : UInt8) : Bool :=
  (ranges.any fun (lo, hi) => (byteRanges lo hi).any fun (x, y) => x ≤ b && b ≤ y) != negated

def afterAny : List UInt8 → List (List UInt8)
  | [] => [[]]
  | b :: bs => (b :: bs) :: afterAny bs

def afterRun : List UInt8 → List (List UInt8)
  | [] => [[]]
  | b :: bs => (b :: bs) :: if b = slash then [] else afterRun bs

/-- What is left after any bytes of which the last one is a slash. -/
def afterDirs : List UInt8 → List (List UInt8)
  | [] => []
  | b :: bs => if b = slash then bs :: afterDirs bs else afterDirs bs

def afterOne (p : UInt8 → Bool) : List UInt8 → List (List UInt8)
  | [] => []
  | b :: bs => if p b then [bs] else []

namespace Token

mutual

/-- Whether a token says nothing: a choice with nothing to choose from. -/
def isVoid : Token → Bool
  | choice branches => areAllVoid branches
  | _ => false

def isVoidGlob : List Token → Bool
  | [] => true
  | t :: ts => t.isVoid && isVoidGlob ts

def areAllVoid : List (List Token) → Bool
  | [] => true
  | ts :: more => isVoidGlob ts && areAllVoid more

end

mutual

def rests : Token → List UInt8 → List (List UInt8)
  | char c, bs =>
    let code := String.utf8EncodeChar c
    if code.isPrefixOf bs then [bs.drop code.length] else []
  | one, bs => afterOne (· ≠ slash) bs
  | run, bs => afterRun bs
  | set negated ranges, bs => afterOne (setAccepts negated ranges) bs
  | leading, bs => bs :: afterDirs bs
  | trailing, bs => (afterOne (· = slash) bs).flatMap afterAny
  | between, bs => (afterOne (· = slash) bs).flatMap fun rest => rest :: afterDirs rest
  | choice branches, bs => if areAllVoid branches then [bs] else restsOfAny branches bs

def restsOfAll : List Token → List UInt8 → List (List UInt8)
  | [], bs => [bs]
  | t :: ts, bs => (t.rests bs).flatMap (restsOfAll ts)

def restsOfAny : List (List Token) → List UInt8 → List (List UInt8)
  | [], _ => []
  | ts :: more, bs => (if isVoidGlob ts then [] else restsOfAll ts bs) ++ restsOfAny more bs

end

end Token

/-- Whether a glob takes a whole path; two stars alone take every one. -/
def Glob.accepts (g : Glob) (path : List UInt8) : Bool :=
  match g with
  | [.leading] => true
  | _ => (Token.restsOfAll g path).any List.isEmpty

end CleanCopy.Ignore
