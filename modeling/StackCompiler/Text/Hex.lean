/-!
Hexadecimal text with a least number of digits.
-/
namespace StackCompiler

/-- Lower-case hexadecimal digits of `n`, filled with zeros on the left up to `width`. -/
def hex (width n : Nat) : String :=
  let digits := Nat.toDigits 16 n
  String.ofList (List.replicate (width - digits.length) '0' ++ digits)

end StackCompiler
