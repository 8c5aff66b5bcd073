import CleanCopy.Text.Basic

namespace CleanCopy.Xml

/-- What a reader of markup meets, in order. Text is raw; `malformed` ends the stream. -/
inductive Event where
  | start (name : Text)
  | empty (name : Text)
  | stop (name : Text)
  | text (raw : Text)
  | cdata (body : Text)
  /-- a comment, an instruction or a declaration -/
  | aside
  | malformed
  deriving DecidableEq, Repr

def isSpace (c : Char) : Bool := c == ' ' || c == '\t' || c == '\n' || c == '\r'

/-- The inside of a tag and what follows it; a `>` between quotes does not end the tag. -/
def tag? (quote : Option Char) : Text → Option (Text × Text)
  | [] => none
  | c :: cs =>
    match quote with
    | none =>
      if c = '>' then some ([], cs)
      else
        (tag? (if c = '\'' || c = '\"' then some c else none) cs).map fun (a, b) => (c :: a, b)
    | some q => (tag? (if c = q then none else some q) cs).map fun (a, b) => (c :: a, b)

/-- The text up to the first `>` at which `ends` holds of what was read, last first, and the rest. -/
def upTo? (ends : Text → Bool) (read : Text) : Text → Option (Text × Text)
  | [] => none
  | c :: cs => if c = '>' && ends read then some (read.reverse, cs) else upTo? ends (c :: read) cs

theorem tag?_length {q : Option Char} {t a b : Text} (h : tag? q t = some (a, b)) :
    b.length < t.length := by
  induction t generalizing q a b with
  | nil => simp [tag?] at h
  | cons c cs ih =>
    simp only [tag?] at h
    split at h
    · split at h
      · cases h; simp
      · obtain ⟨⟨_, _⟩, hr, he⟩ := Option.map_eq_some_iff.1 h
        cases he
        exact Nat.lt_succ_of_lt (ih hr)
    · obtain ⟨⟨_, _⟩, hr, he⟩ := Option.map_eq_some_iff.1 h
      cases he
      exact Nat.lt_succ_of_lt (ih hr)

theorem upTo?_length {ends : Text → Bool} {read t a b : Text}
    (h : upTo? ends read t = some (a, b)) : b.length < t.length := by
  induction t generalizing read with
  | nil => simp [upTo?] at h
  | cons c cs ih =>
    simp only [upTo?] at h
    split at h
    · cases h; simp
    · exact Nat.lt_succ_of_lt (ih h)

def tagName (inside : Text) : Text := inside.takeWhile (!isSpace ·)

def startTag (opened : List Text) (inside : Text) : Event × List Text :=
  if inside.getLast? = some '/' then (.empty (tagName inside.dropLast), opened)
  else (.start (tagName inside), tagName inside :: opened)

def stopName (inside : Text) : Text :=
  match inside.dropEndWhile isSpace with
  | [] => inside
  | name => name

/-- An end tag closes the element opened last, and no other. -/
def stopTag (opened : List Text) (inside : Text) : Event × List Text :=
  match opened with
  | name :: outer => if stopName inside = name then (.stop name, outer) else (.malformed, outer)
  | [] => (.malformed, [])

def endsComment (read : Text) : Bool := read.startsWith ['-', '-'] && 4 < read.length

def endsCdata (read : Text) : Bool := read.startsWith [']', ']']

/-- A declaration ends where as many brackets have been closed in it as opened. -/
def endsDoctype (read : Text) : Bool := read.count '<' == read.count '>'

def doctype (read : Text) : Event :=
  if "!DOCTYPE".toList.map Char.toLower = Text.asciiLower (read.take 8)
    && (read.drop 8).any (!isSpace ·) then .aside else .malformed

def declaration? (t : Text) : Option (Event × Text) :=
  match t with
  | _ :: '[' :: _ => (upTo? endsCdata [] t).map fun (read, rest) =>
    (match Text.after? "![CDATA[".toList read with
      | some body => .cdata body.dropLast.dropLast
      | none => .malformed, rest)
  | _ :: '-' :: _ => (upTo? endsComment [] t).map fun (read, rest) =>
    (if read.startsWith ['!', '-', '-'] then .aside else .malformed, rest)
  | _ :: c :: _ =>
    if c = 'D' || c = 'd' then
      (upTo? endsDoctype [] t).map fun (read, rest) => (doctype read, rest)
    else none
  | _ => none

def instruction? (t : Text) : Option (Event × Text) :=
  (upTo? (·.head? == some '?') [] t).map fun (read, rest) =>
    (if 1 < read.length then .aside else .malformed, rest)

def markup? (opened : List Text) (t : Text) : Option (Event × List Text × Text) :=
  match t with
  | '!' :: _ => (declaration? t).map fun (e, rest) => (e, opened, rest)
  | '?' :: _ => (instruction? t).map fun (e, rest) => (e, opened, rest)
  | '/' :: _ => (tag? none t).map fun (inside, rest) =>
    let (e, opened) := stopTag opened (inside.drop 1)
    (e, opened, rest)
  | _ => (tag? none t).map fun (inside, rest) =>
    let (e, opened) := startTag opened inside
    (e, opened, rest)

theorem declaration?_length {t rest : Text} {e : Event} (h : declaration? t = some (e, rest)) :
    rest.length < t.length := by
  unfold declaration? at h
  split at h
  · obtain ⟨⟨_, _⟩, hr, he⟩ := Option.map_eq_some_iff.1 h
    cases he
    exact upTo?_length hr
  · obtain ⟨⟨_, _⟩, hr, he⟩ := Option.map_eq_some_iff.1 h
    cases he
    exact upTo?_length hr
  · split at h
    · obtain ⟨⟨_, _⟩, hr, he⟩ := Option.map_eq_some_iff.1 h
      cases he
      exact upTo?_length hr
    · cases h
  · cases h

theorem markup?_length {opened names : List Text} {t rest : Text} {e : Event}
    (h : markup? opened t = some (e, names, rest)) : rest.length < t.length := by
  unfold markup? at h
  split at h <;> obtain ⟨⟨_, _⟩, hr, he⟩ := Option.map_eq_some_iff.1 h <;> cases he
  · exact declaration?_length hr
  · obtain ⟨⟨_, _⟩, hu, hv⟩ := Option.map_eq_some_iff.1 hr
    cases hv
    exact upTo?_length hu
  · exact tag?_length hr
  · exact tag?_length hr

/-- The events of a text, while the elements `opened` are open, innermost first. -/
def eventsFrom (opened : List Text) (t : Text) : List Event :=
  match t with
  | [] => []
  | '<' :: rest =>
    match h : markup? opened rest with
    | none => [.malformed]
    | some (.malformed, _, _) => [.malformed]
    | some (e, names, rest') =>
      have := markup?_length h
      e :: eventsFrom names rest'
  | c :: cs =>
    .text (c :: cs.takeWhile (· ≠ '<')) :: eventsFrom opened (cs.dropWhile (· ≠ '<'))
  termination_by t.length
  decreasing_by
    · simp only [List.length_cons]; omega
    · have := (List.dropWhile_sublist (fun x : Char => decide (x ≠ '<')) (l := cs)).length_le
      simp only [List.length_cons]; omega

/-- The events of a text, of which a byte-order mark at the start is no part. -/
def events (t : Text) : List Event :=
  match t with
  | '\uFEFF' :: rest => eventsFrom [] rest
  | t => eventsFrom [] t

end CleanCopy.Xml
