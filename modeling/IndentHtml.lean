import IndentHtml.Main
import IndentHtml.Source.Store
import IndentHtml.Proofs.Agreeing
import IndentHtml.Proofs.Blanks
import IndentHtml.Proofs.Building
import IndentHtml.Proofs.Collisions
import IndentHtml.Proofs.Completion
import IndentHtml.Proofs.Confinement
import IndentHtml.Proofs.Decoding
import IndentHtml.Proofs.Elements
import IndentHtml.Proofs.Entities
import IndentHtml.Proofs.Expansion
import IndentHtml.Proofs.Histories
import IndentHtml.Proofs.Idempotence
import IndentHtml.Proofs.Indentation
import IndentHtml.Proofs.Isolation
import IndentHtml.Proofs.Leftmost
import IndentHtml.Proofs.Likeness
import IndentHtml.Proofs.Lookup
import IndentHtml.Proofs.Margins
import IndentHtml.Proofs.Markers
import IndentHtml.Proofs.Nesting
import IndentHtml.Proofs.NormalForm
import IndentHtml.Proofs.Obstacles
import IndentHtml.Proofs.Outline
import IndentHtml.Proofs.Outputs
import IndentHtml.Proofs.Passes
import IndentHtml.Proofs.Pieces
import IndentHtml.Proofs.Places
import IndentHtml.Proofs.Plain
import IndentHtml.Proofs.Printing
import IndentHtml.Proofs.Recognition
import IndentHtml.Proofs.Scanning
import IndentHtml.Proofs.Seeding
import IndentHtml.Proofs.Spacing
import IndentHtml.Proofs.Spelling
import IndentHtml.Proofs.Splicing
import IndentHtml.Proofs.Targets
import IndentHtml.Proofs.Templates
import IndentHtml.Proofs.Trees
import IndentHtml.Proofs.Walking
import IndentHtml.Proofs.Watching
import IndentHtml.Proofs.Writing
