/-! Texts of a fixed least width. -/

namespace MiniLua.Text

def padLeft (width : Nat) (fill : Char) (text : String) : String :=
  String.ofList (List.replicate (width - text.length) fill) ++ text

def padRight (width : Nat) (text : String) : String :=
  text ++ String.ofList (List.replicate (width - text.length) ' ')

/-- A number in hexadecimal digits. -/
def hexText (width n : Nat) : String := padLeft width '0' (String.ofList (Nat.toDigits 16 n))

end MiniLua.Text
