import TableStore.Main
import TableStore.Request
import TableStore.Proofs.Synchrony
import TableStore.Proofs.Reopening
import TableStore.Proofs.RecordKeys
import TableStore.Proofs.Alignment
import TableStore.Proofs.Fidelity
import TableStore.Proofs.GeneratedKeys
import TableStore.Proofs.TakenKeys
import TableStore.Proofs.Batch
import TableStore.Proofs.Replay
import TableStore.Proofs.ExactOrder
import TableStore.Proofs.Conditions
import TableStore.Proofs.Definitions
import TableStore.Proofs.Separation
import TableStore.Proofs.Restoring
import TableStore.Proofs.Deletion
import TableStore.Proofs.Insertion
import TableStore.Proofs.Slices
import TableStore.Proofs.Relocation
import TableStore.Proofs.LiteralRows
import TableStore.Proofs.Layout
import TableStore.Proofs.Tails
import TableStore.Proofs.Operands
import TableStore.Proofs.Bounds
import TableStore.Proofs.WrittenValues
import TableStore.Proofs.SettledTypes
import TableStore.Proofs.SettledRecords
import TableStore.Proofs.Semicolons
import TableStore.Proofs.AdditionOrder
import TableStore.Proofs.DumpedColumns
import TableStore.Proofs.Names
