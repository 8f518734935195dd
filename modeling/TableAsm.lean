import TableAsm.Command.Directory
import TableAsm.Main
import TableAsm.Proofs.Alignment
import TableAsm.Proofs.Deferral
import TableAsm.Proofs.Matching
import TableAsm.Proofs.RoundTrip
import TableAsm.Selector.Text
import TableAsm.Proofs.LookUp
import TableAsm.Proofs.Overflow
import TableAsm.Proofs.Diagnosis
import TableAsm.Proofs.Parts
import TableAsm.Proofs.Selection
import TableAsm.Proofs.Variants
import TableAsm.Proofs.Extent
import TableAsm.Proofs.Stream
import TableAsm.Proofs.LabelNames
import TableAsm.Proofs.Range
import TableAsm.Proofs.Address
import TableAsm.Proofs.Interchange
import TableAsm.Proofs.RegisterLists
import TableAsm.Proofs.SingleInstruction
import TableAsm.Proofs.StoredData
import TableAsm.Proofs.Folding
import TableAsm.Proofs.SpanWrites
import TableAsm.Proofs.Join
import TableAsm.Proofs.Listings
import TableAsm.Proofs.Realignment
