import CleanCopy.Main
import CleanCopy.Proofs.Lex.Splitting
import CleanCopy.Proofs.Run.Faithful
import CleanCopy.Proofs.Run.Fatal
import CleanCopy.Proofs.Run.Inside
import CleanCopy.Proofs.Run.Relocate
import CleanCopy.Proofs.Run.Rerun
import CleanCopy.Proofs.Run.Setup
import CleanCopy.Proofs.Run.Structured
import CleanCopy.Proofs.Scrub.Again
import CleanCopy.Proofs.Scrub.Bodies
import CleanCopy.Proofs.Scrub.Loss
import CleanCopy.Proofs.Scrub.Normal
import CleanCopy.Proofs.Scrub.Respaced
import CleanCopy.Proofs.Scrub.Returns
import CleanCopy.Proofs.Scrub.Sweep
import CleanCopy.Proofs.Scrub.Literals
import CleanCopy.Proofs.Scrub.Across
import CleanCopy.Proofs.Scrub.BlockOnly
import CleanCopy.Proofs.Lex.Encoded
import CleanCopy.Proofs.Scrub.Regions
import CleanCopy.Proofs.Scrub.LineCuts
import CleanCopy.Proofs.Scrub.LineEnds
import CleanCopy.Proofs.Select.Exclusion
import CleanCopy.Proofs.Project.Owner
import CleanCopy.Proofs.Glob.Class
import CleanCopy.Proofs.Glob.Meaning
import CleanCopy.Proofs.Run.SuperFlat
import CleanCopy.Proofs.Select.Discovery
import CleanCopy.Proofs.Settings.Nearest
import CleanCopy.Proofs.Xml.Reference
import CleanCopy.Proofs.Xml.Reading
import CleanCopy.Proofs.Project.AssemblyName
import CleanCopy.Proofs.Scrub.Slices
import CleanCopy.Proofs.Text.Canonical
import CleanCopy.Proofs.Scrub.Removal
import CleanCopy.Proofs.Scrub.Compact
