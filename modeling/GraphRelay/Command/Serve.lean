import GraphRelay.Command.Outline
import GraphRelay.Link.Inbound
import GraphRelay.Single.Notation
import GraphRelay.Transfer.KeyValue

/-!
# Serving

Receiving key/value messages until every sender has announced its end.
-/
namespace GraphRelay

structure MessageReport where
  sender : PeerId
  kind : MessageKind
  rank : Int32
  name : Option String
  ids : List Int64
  /-- The bit patterns of the values. -/
  values : List UInt32
  deriving DecidableEq, Repr

namespace MessageReport

def ofMessage (sender : PeerId) (m : KeyValue) : Except Fault MessageReport := do
  let ids ← (m.ids.map Tensor.toInt64s).getD (.ok [])
  let values ← (m.values.map Tensor.toFloatBits).getD (.ok [])
  pure ⟨sender, m.kind, m.rank, m.name, ids, values⟩

/-- Numbers in text reports: from 0.0001 to below 10 to the 16th without an exponent. -/
def textLayout : Single.Layout := ⟨-4, 16, .upper⟩

/-- Numbers in structured reports. -/
def outlineLayout : Single.Layout := ⟨-6, 13, .even⟩

/-- A value in a text report. -/
def valueText (bits : UInt32) : String :=
  match Single.ofBits bits with
  | .finite negative x => textLayout.signed negative x
  | .infinite negative => if negative then "-inf" else "inf"
  | .notANumber => "NaN"

/-- A value in a structured report, which knows no infinity. -/
def valueOutline (bits : UInt32) : Outline :=
  match Single.ofBits bits with
  | .finite negative x => .number (outlineLayout.signed negative x)
  | _ => .null

def text (r : MessageReport) : String :=
  let ids := quoteList (r.ids.map fun i => toString i.toInt)
  let values := quoteList (r.values.map valueText)
  s!"from={r.sender.toInt} kind=" ++ r.kind.name ++ s!" rank={r.rank.toInt} name=" ++
    r.name.getD "-" ++ " ids=" ++ ids ++ " values=" ++ values ++ "\n"

def outline (r : MessageReport) : Outline :=
  .members [("sender", .int r.sender.toInt), ("kind", .text r.kind.name),
    ("rank", .int r.rank.toInt), ("name", r.name.elim .null .text),
    ("ids", .list (r.ids.map fun i => .int i.toInt)),
    ("values", .list (r.values.map valueOutline))]

end MessageReport

namespace Serve

/-- Receives at most `n` messages while senders remain: the reports, and the fault that ended it. -/
def receiveReports {σ : Type} [Inbox σ] :
    Nat → List PeerId → σ → List MessageReport × Option Fault
  | 0, _, _ => ([], none)
  | n + 1, remaining, r =>
    if remaining.isEmpty then ([], none)
    else
      match KeyValue.receive.run.run r with
      | (.error f, _) => ([], some f)
      | (.ok (sender, m), r) =>
        if m.kind = .final then receiveReports n (remaining.filter (· ≠ sender)) r
        else
          match MessageReport.ofMessage sender m with
          | .error f => ([], some f)
          | .ok report =>
            let (reports, fault) := receiveReports n remaining r
            (report :: reports, fault)

/-- The reports of all messages until every sender has announced its end. -/
def reports (r : Inbound) : List MessageReport × Option Fault :=
  receiveReports (r.unread + r.queued + 1) r.senders r

end Serve

end GraphRelay
