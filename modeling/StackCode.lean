import StackCode.Proofs.ArrayBounds
import StackCode.Proofs.Atomicity
import StackCode.Proofs.Boxes
import StackCode.Proofs.Callers
import StackCode.Proofs.CapturedValues
import StackCode.Proofs.CopyPaths
import StackCode.Proofs.ExpectedOpcodes
import StackCode.Proofs.FieldPositions
import StackCode.Proofs.HeapShapes
import StackCode.Proofs.Integrity
import StackCode.Proofs.Lenses
import StackCode.Proofs.OperatorTypes
import StackCode.Proofs.PoolKeys
import StackCode.Proofs.Pooling
import StackCode.Proofs.Results
import StackCode.Proofs.ScopeOrder
import StackCode.Proofs.Signatures
import StackCode.Proofs.Spilling
import StackCode.Proofs.StackSafety
import StackCode.Proofs.TypeSafety
import StackCode.TypeBuilder
