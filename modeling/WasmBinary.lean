import WasmBinary.Leb128.Number
import WasmBinary.Module.Run
import WasmBinary.Names
import WasmBinary.Proofs.Framing
import WasmBinary.Proofs.Truncation
import WasmBinary.Proofs.UniqueReading
import WasmBinary.Proofs.Violation
import WasmBinary.Proofs.Leb128.Stream
import WasmBinary.Proofs.Leb128.Padding
import WasmBinary.Proofs.Atomicity
import WasmBinary.Proofs.Parallel
import WasmBinary.Proofs.FlatReader
import WasmBinary.Proofs.Boundaries
import WasmBinary.Proofs.Log
import WasmBinary.Proofs.SelfDelimiting
import WasmBinary.Proofs.PartialOutput
import WasmBinary.Proofs.Names.Payload
import WasmBinary.Proofs.Leb128.Value
import WasmBinary.Proofs.Locals
import WasmBinary.Proofs.Order
import WasmBinary.Proofs.Names.Framing
import WasmBinary.Proofs.Leb128.Length
import WasmBinary.Proofs.Equality
import WasmBinary.Proofs.Layout
import WasmBinary.Proofs.Leb128.Sign
import WasmBinary.Proofs.EqualImages
