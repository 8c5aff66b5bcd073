import CleanCopy.Text.Basic

namespace CleanCopy.Text

def toBytes (t : Text) : ByteArray := (String.ofList t).toUTF8

def ofBytes? (b : ByteArray) : Option Text := (String.fromUTF8? b).map String.toList

theorem ofBytes?_toBytes (t : Text) : ofBytes? t.toBytes = some t := by
  have h : String.fromUTF8? (String.ofList t).toUTF8 = some (String.ofList t) :=
    dif_pos (String.ofList t).isValidUTF8
  rw [ofBytes?, toBytes, h, Option.map_some, String.toList_ofList]

/-- The lines of a file that can be read before the first one that is no text. A carriage return
before a line feed goes with it. -/
def linesOfBytes (bytes : List UInt8) : List Text :=
  match (bytes.splitOn 10).reverse with
  | [] => []
  | final :: ended =>
    let ended := ended.map fun l => if l.getLast? = some 13 then l.dropLast else l
    readable ((final :: ended).reverse)
where
  readable : List (List UInt8) → List Text
    | [] => []
    | l :: ls =>
      match ofBytes? ⟨l.toArray⟩ with
      | some t => t :: readable ls
      | none => []

end CleanCopy.Text
