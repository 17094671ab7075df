import BlockCodec.Message.Handler
import BlockCodec.Text.Record

/-!
# Values for logs

Streams, tables and the contexts of handlers as records, without what they read or write.
-/

namespace BlockCodec

open Text (flag quote record)

def Input.describe {σ : Type} (input : Input σ) : String :=
  record "InputStream" [("bytes_left", toString input.left), ("bytes_read", toString input.taken),
    ("bounded", flag input.bounded)]

def Output.describe {κ : Type} (output : Output κ) : String :=
  record "OutputStream" [("sizing", flag output.isSizing), ("max_size", toString output.limit),
    ("bytes_written", toString output.written)]

def Table.describe {Ref : Type} (table : Table Ref) : String :=
  record "MessageDescriptor" [("name", quote table.name),
    ("fields", toString table.fields.length), ("size", toString table.size)]

/-- A payload of which `length` bytes are left. -/
def Payload.describe (payload : Payload) (length : Nat) : String :=
  record "Delimited" [("field", quote payload.field), ("len", toString length),
    ("depth", toString payload.depth)]

def ElementWriter.describe {Ref : Type} (writer : ElementWriter Ref) (sizing : Bool) : String :=
  record "ElementWriter" [("field", quote writer.field.name), ("sizing", flag sizing),
    ("depth", toString writer.depth)]

end BlockCodec
