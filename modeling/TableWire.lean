import TableWire.Filter.Text
import TableWire.Proofs.Buffer.Corruption
import TableWire.Proofs.Buffer.Truncation
import TableWire.Proofs.Filter.Printing
import TableWire.Proofs.Filter.Recovery
import TableWire.Proofs.Buffer.Concatenation
import TableWire.Proofs.Buffer.Blame
import TableWire.Proofs.Buffer.Normalisation
import TableWire.Proofs.Filter.Blame
import TableWire.Proofs.Filter.Spacing
import TableWire.Proofs.Filter.Unambiguous
import TableWire.Proofs.Filter.Meaning
import TableWire.Proofs.Filter.Regrouping
import TableWire.Proofs.Filter.Message
import TableWire.Proofs.Buffer.Limit
import TableWire.Proofs.Filter.Substitution
import TableWire.Proofs.Filter.Embedding
import TableWire.Proofs.Buffer.Flattening
import TableWire.Proofs.Value.Delimited
import TableWire.Proofs.Crc8.Detection
import TableWire.Proofs.Buffer.Agreement
import TableWire.Proofs.Value.Number
import TableWire.Proofs.Record.Faithful
import TableWire.Proofs.Filter.Munching
import TableWire.Proofs.Filter.Arity
import TableWire.Proofs.Buffer.Progress
import TableWire.Proofs.Reports
