/-!
# Aligned text

Text set flush right in a column.
-/

namespace StackFlow.Text

def alignRight (width : Nat) (text : String) : String :=
  String.ofList (List.replicate (width - text.length) ' ' ++ text.toList)

end StackFlow.Text
