import GraphRelay.Command.Arguments
import GraphRelay.Command.Failure
import GraphRelay.Message.KeyValue
import GraphRelay.Single.Reading
import GraphRelay.Text.Blank

/-!
# Pushing

The message that a push sends: ids and values as lists of words, the values row by row.
-/
namespace GraphRelay.Push

/-- The items between the commas of a list; blanks around them and empty items do not count. -/
def listItems (text : String) : List String :=
  ((text.splitOn ",").map Text.trim).filter fun item => !item.isEmpty

/-- Reads every item of the list given for an option. -/
def readList {α : Type} (read : String → Option α) (option text : String) :
    Except Failure (List α) :=
  (listItems text).mapM fun item =>
    match read item with
    | some a => .ok a
    | none => .error (.badItem option item)

def message (request : PushRequest) : Except Failure KeyValue := do
  let ids ← readList (Decimal.parse? UInt64.size) "--ids" request.ids
  let values ← readList Single.parse? "--values" request.values
  if ids.isEmpty || values.length % ids.length ≠ 0 then
    .error (.unevenValues values.length ids.length)
  let width := values.length / ids.length
  let idTensor ← (Tensor.ofIds ids).mapError .fault
  let shape : List Int64 := [.ofNat ids.length, .ofNat width]
  let valueTensor ← (Tensor.ofFloatBits shape values).mapError .fault
  pure (.push request.rank request.name idTensor valueTensor)

end GraphRelay.Push
