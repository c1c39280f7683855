import RdfTurtle.Document.Items
import RdfTurtle.Scanner.Operation
import RdfTurtle.Proofs.Transparency
import RdfTurtle.Proofs.Rereading
import RdfTurtle.Proofs.Completion
import RdfTurtle.Proofs.Exhaustion
import RdfTurtle.Proofs.Composition
import RdfTurtle.Proofs.StrictDecoding
import RdfTurtle.Proofs.Places
import RdfTurtle.Proofs.Recognition.Points
import RdfTurtle.Proofs.Recognition.Numerals
import RdfTurtle.Proofs.Recognition.Escapes
import RdfTurtle.Proofs.Relaxing
import RdfTurtle.Proofs.Directives
import RdfTurtle.Proofs.LenientDecoding
import RdfTurtle.Proofs.BlankRuns
import RdfTurtle.Proofs.Captures
import RdfTurtle.Proofs.Fillings
import RdfTurtle.Proofs.Legibility
import RdfTurtle.Proofs.Recognition.Viable
