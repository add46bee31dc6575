import GraphRelay.Fault
import GraphRelay.Wire.Word

/-!
# Reading a message

A reader consumes the bytes of one message from its front and knows how long the message was, so
that a refusal can say where the message ended too early or went on too long.
-/
namespace GraphRelay.Wire

structure Cursor where
  /-- The length of the whole message. -/
  total : Nat
  /-- What has not been read yet. -/
  rest : Bytes
  deriving DecidableEq, Repr

namespace Cursor

def start (bs : Bytes) : Cursor := ⟨bs.length, bs⟩

def offset (c : Cursor) : Nat := c.total - c.rest.length

end Cursor

abbrev Reader := StateT Cursor (Except Fault)

namespace Reader

/-- The next `n` bytes. -/
def take (n : Nat) : Reader Bytes := fun c =>
  if n ≤ c.rest.length then .ok (c.rest.take n, { c with rest := c.rest.drop n })
  else .error (.truncated n c.offset c.total)

def int32 : Reader Int32 := toInt32 <$> take 4

def int64 : Reader Int64 := toInt64 <$> take 8

def count : Reader Nat := unword <$> take 8

/-- How many bytes are left. -/
def remaining : Reader Nat := fun c => .ok (c.rest.length, c)

/-- Reads the same thing `n` times. -/
def many {α : Type} (n : Nat) (r : Reader α) : Reader (List α) :=
  match n with
  | 0 => pure []
  | n + 1 => do
    let a ← r
    let rest ← many n r
    pure (a :: rest)

/-- Fails unless every byte was read. -/
def finish : Reader Unit := fun c =>
  if c.rest.isEmpty then .ok ((), c)
  else .error (.trailing c.rest.length c.total)

/-- The outcome of reading `bs` from their start. -/
def run {α : Type} (r : Reader α) (bs : Bytes) : Except Fault α :=
  match r (.start bs) with
  | .ok (a, _) => .ok a
  | .error f => .error f

end Reader

end GraphRelay.Wire
