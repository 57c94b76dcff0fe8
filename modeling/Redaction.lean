import Redaction.Session
import Redaction.Value.Restorable
import Redaction.Proofs.Aftermath
import Redaction.Proofs.Likeness
import Redaction.Proofs.Restoration
import Redaction.Proofs.Addressing
import Redaction.Proofs.PathEffect
import Redaction.Proofs.PathRun
import Redaction.Proofs.WorkingCopy
import Redaction.Proofs.Simultaneity
import Redaction.Proofs.Substitution
import Redaction.Proofs.Noninterference
import Redaction.Proofs.Reading
import Redaction.Proofs.Instantiation
import Redaction.Proofs.Ascent
import Redaction.Proofs.ConcretePaths
import Redaction.Proofs.Statelessness
import Redaction.Proofs.Appearance
import Redaction.Proofs.Layers
import Redaction.Proofs.Spelling
import Redaction.Proofs.Tiling
import Redaction.Proofs.Copying
import Redaction.Proofs.Siblings
import Redaction.Proofs.Endings
import Redaction.Proofs.TreeWrites
import Redaction.Proofs.Overwriting
import Redaction.Proofs.Matches
import Redaction.Proofs.Unshared
import Redaction.Proofs.UnsharedCopy
import Redaction.Proofs.Turns
import Redaction.Proofs.TreeKeeping
import Redaction.Proofs.Members
import Redaction.Proofs.Rebuilding
import Redaction.Proofs.OutputModes
import Redaction.Proofs.Questions
import Redaction.Proofs.Composition
import Redaction.Proofs.Refusals
import Redaction.Proofs.Encoding
import Redaction.Proofs.Interruption
import Redaction.Proofs.Thawing
import Redaction.Proofs.Accounting
import Redaction.Proofs.Causes
import Redaction.Proofs.Admission
import Redaction.Proofs.Derivation
import Redaction.Proofs.Lookups
import Redaction.Proofs.Tally
