/-! Counts with leading zeros, so that they line up. -/
namespace CellTiming.Text

def zeroPadded (width n : Nat) : String :=
  let digits := toString n
  String.ofList (List.replicate (width - digits.length) '0') ++ digits

end CellTiming.Text
