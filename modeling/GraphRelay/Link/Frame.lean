import GraphRelay.Fault
import GraphRelay.Wire.Word

/-!
# Frames

A payload on a stream is its length followed by its bytes. A stream reaches its reader in reads that
need not respect frames; `next` puts the next frame together from as many reads as it takes.
-/
namespace GraphRelay

namespace Frame

def encode (payload : Bytes) : Bytes := Wire.count payload.length ++ payload

/-- The bytes of several payloads in a row. -/
def encodeAll (payloads : List Bytes) : Bytes := payloads.flatMap encode

/-- What successive reads yield; none of them is empty. -/
abbrev Reads := List Bytes

/-- One read of at most `room` bytes and what is left for later ones. Nothing is read at the end. -/
def read (room : Nat) : Reads → Bytes × Reads
  | [] => ([], [])
  | chunk :: rest =>
    if chunk.length ≤ room then (chunk, rest) else (chunk.take room, chunk.drop room :: rest)

/-- Reads until `wanted` bytes have come or the stream ends; says which bytes have come. -/
def fill (wanted : Nat) (reads : Reads) : Bytes × Reads :=
  if wanted = 0 then ([], reads)
  else
    match read wanted reads with
    | ([], rest) => ([], rest)
    | (b :: bs, rest) =>
      let (more, rest) := fill (wanted - (bs.length + 1)) rest
      (b :: bs ++ more, rest)
termination_by wanted

inductive Next where
  | frame (payload : Bytes) (rest : Reads)
  /-- The stream ended where a frame could have begun. -/
  | ended
  | failed (fault : Fault)
  deriving DecidableEq, Repr

/-- The next frame of a stream whose frames may have at most `limit` bytes. -/
def next (limit : Nat) (reads : Reads) : Next :=
  let (header, reads) := fill 8 reads
  if header.isEmpty then .ended
  else if header.length < 8 then .failed (.system "recv" "unexpected end of file")
  else
    let length := Wire.unword header
    if limit < length then .failed (.frameOversized length limit)
    else
      let (payload, reads) := fill length reads
      if payload.length < length then .failed (.system "recv" "failed to fill whole buffer")
      else .frame payload reads

/-- Up to `n` frames from the front of a stream, and what comes after them. -/
def nextMany (limit : Nat) : Nat → Reads → List Bytes × Next
  | 0, reads => ([], next limit reads)
  | n + 1, reads =>
    match next limit reads with
    | .frame payload rest =>
      let (payloads, last) := nextMany limit n rest
      (payload :: payloads, last)
    | other => ([], other)

/-- All frames of a stream and the fault that ended it, if any. Every frame takes eight bytes. -/
def readAll (limit : Nat) (reads : Reads) : List Bytes × Option Fault :=
  match nextMany limit reads.flatten.length reads with
  | (payloads, .failed f) => (payloads, some f)
  | (payloads, _) => (payloads, none)

end Frame

end GraphRelay
