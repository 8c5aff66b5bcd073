import CleanCopy.Text.Blank

namespace CleanCopy.Text

/-- Writes every run of two or more gaps as one space; `inRun` tells that a run has been written. -/
def collapseFrom (inRun : Bool) : Text → Text
  | [] => []
  | c :: cs =>
    if isGap c then
      if inRun then collapseFrom true cs
      else (if cs.head?.any isGap then ' ' else c) :: collapseFrom true cs
    else c :: collapseFrom false cs

def collapse (t : Text) : Text := collapseFrom false t

def spaceOutFrom (inRun : Bool) : Text → Text
  | [] => []
  | c :: cs =>
    if isGap c then if inRun then spaceOutFrom true cs else ' ' :: spaceOutFrom true cs
    else c :: spaceOutFrom false cs

def spaceOut (t : Text) : Text := spaceOutFrom false t

/-- Drops the gaps before and after the characters of `p`; `touching` tells that one was just written. -/
def tightenFrom (p : Char → Bool) (touching : Bool) : Text → Text
  | [] => []
  | c :: cs =>
    if isGap c then
      if touching || (cs.dropWhile isGap).head?.any p then tightenFrom p touching cs
      else c :: tightenFrom p false cs
    else c :: tightenFrom p (p c) cs

def tighten (p : Char → Bool) (t : Text) : Text := tightenFrom p false t

/-- Drops the gaps that fill the space between `first` and `second`; `touching` tells that `first` was
just written. -/
def closeUpFrom (first second : Char) (touching : Bool) : Text → Text
  | [] => []
  | c :: cs =>
    if isGap c && touching then
      if (cs.dropWhile isGap).head? = some second then closeUpFrom first second true cs
      else c :: closeUpFrom first second false cs
    else c :: closeUpFrom first second (c = first) cs

def closeUp (first second : Char) (t : Text) : Text := closeUpFrom first second false t

end CleanCopy.Text
