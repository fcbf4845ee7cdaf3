/-! Hexadecimal text of numbers: lower case, either as short as the number or filled with zeros to
    eight digits, which is the width of a machine word. -/

namespace MipsOnArm.Text

/-- Fills `s` on the left with `fill` up to `width` characters; longer text is kept whole. -/
def padLeft (width : Nat) (fill : Char) (s : String) : String :=
  "".pushn fill (width - s.length) ++ s

/-- The digits of `n` in base sixteen, without leading zeros. -/
def hexDigits (n : Nat) : String :=
  String.ofList (Nat.toDigits 16 n)

/-- Short form with its mark, as in `0x1f`. -/
def hex (n : Nat) : String :=
  "0x" ++ hexDigits n

/-- Eight digits without a mark, as in `00a98001`. -/
def hexWord (n : Nat) : String :=
  padLeft 8 '0' (hexDigits n)

/-- Eight digits with the mark, as in `0x00001000`. -/
def hexAddress (n : Nat) : String :=
  "0x" ++ hexWord n

end MipsOnArm.Text
