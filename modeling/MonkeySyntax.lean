import MonkeySyntax.Main
import MonkeySyntax.Proofs.Accuracy
import MonkeySyntax.Proofs.Boundaries
import MonkeySyntax.Proofs.Caret
import MonkeySyntax.Proofs.Concatenation
import MonkeySyntax.Proofs.CorrectPrefix
import MonkeySyntax.Proofs.Derivation
import MonkeySyntax.Proofs.Height
import MonkeySyntax.Proofs.Isolation
import MonkeySyntax.Proofs.Layout
import MonkeySyntax.Proofs.Levels
import MonkeySyntax.Proofs.LineAt
import MonkeySyntax.Proofs.Lines
import MonkeySyntax.Proofs.MaximalMunch
import MonkeySyntax.Proofs.Nesting
import MonkeySyntax.Proofs.Numerals
import MonkeySyntax.Proofs.Operations
import MonkeySyntax.Proofs.Pieces
import MonkeySyntax.Proofs.Registered
import MonkeySyntax.Proofs.Rendering
import MonkeySyntax.Proofs.Replayed
import MonkeySyntax.Proofs.Termination
import MonkeySyntax.Proofs.Transcript
import MonkeySyntax.Proofs.UniqueListing
import MonkeySyntax.Proofs.Yield
import MonkeySyntax.Scan.Lexer
