import ConfigClasses.Proofs.Atomicity
import ConfigClasses.Proofs.BodyOnce
import ConfigClasses.Proofs.Chain
import ConfigClasses.Proofs.EvaluationOrder
import ConfigClasses.Proofs.Growth
import ConfigClasses.Proofs.Heritage
import ConfigClasses.Proofs.InProgress
import ConfigClasses.Proofs.InternalError
import ConfigClasses.Proofs.Kinship
import ConfigClasses.Proofs.NearestBinding
import ConfigClasses.Proofs.NormalNames
import ConfigClasses.Proofs.Numbering
import ConfigClasses.Proofs.Overrun
import ConfigClasses.Proofs.Ownership
import ConfigClasses.Proofs.ParentSequence
import ConfigClasses.Proofs.Reentrancy
import ConfigClasses.Proofs.Reference
import ConfigClasses.Proofs.Refusal
import ConfigClasses.Proofs.Representation
import ConfigClasses.Proofs.Retry
import ConfigClasses.Proofs.SettledInheritance
import ConfigClasses.Proofs.TableIndex
import ConfigClasses.Proofs.Termination
import ConfigClasses.Proofs.WorkingScope
