import CleanCopy.Glob.Pattern

namespace CleanCopy.Glob

/-- Splits a class after its opening bracket into body and rest. A bracket right after the opening
or after the mark of negation is a member. -/
def classBody? (t : Text) : Option (Text × Text) :=
  let mark := t.takeOne fun c => c = '!' || c = '^'
  let first := mark.2.takeOne (· = ']')
  (Text.cut? [']'] first.2).map fun (members, rest) => (mark.1 ++ first.1 ++ members, rest)

def escapeMember (c : Char) : Text :=
  if ['\\', '[', ']', '^', '&', '~'].contains c then ['\\', c] else [c]

def writeClass : Text → Text
  | '!' :: members => ['[', '^'] ++ members.flatMap escapeMember ++ [']']
  | '^' :: members => ['[', '^'] ++ members.flatMap escapeMember ++ [']']
  | members => '[' :: members.flatMap escapeMember ++ [']']

def escape (c : Char) : Text := if Pattern.isMeta c then ['\\', c] else [c]

theorem classBody?_length {t body rest : Text} (h : classBody? t = some (body, rest)) :
    rest.length ≤ t.length := by
  obtain ⟨⟨members, after⟩, hc, he⟩ := Option.map_eq_some_iff.1 h
  obtain ⟨-, rfl⟩ := Prod.mk.inj he
  exact Nat.le_trans (Text.cut?_length hc)
    (Nat.le_trans (Text.takeOne_length _ _) (Text.takeOne_length _ _))

def writeSteps : Text → Text
  | [] => []
  | '*' :: rest => '.' :: '*' :: writeSteps rest
  | '?' :: rest => '.' :: writeSteps rest
  | '[' :: rest =>
    match h : classBody? rest with
    | some (body, after) =>
      have := classBody?_length h
      writeClass body ++ writeSteps after
    | none => '\\' :: '[' :: writeSteps rest
  | c :: rest => escape c ++ writeSteps rest
  termination_by t => t.length

def write (glob : Text) : Text := '^' :: writeSteps glob ++ ['$']

/-- The pattern of a glob; nothing when a range in it runs backwards. -/
def compile? (glob : Text) : Option Pattern := Pattern.read? (write glob)

end CleanCopy.Glob
