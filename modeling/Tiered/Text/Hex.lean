/-! Hexadecimal text in lower case. -/
namespace Tiered.Text

/-- Base-sixteen digits of `n`, filled with zeros on the left up to `width`. -/
def hex (width n : Nat) : String :=
  let digits := Nat.toDigits 16 n
  String.ofList (List.replicate (width - digits.length) '0' ++ digits)

end Tiered.Text
