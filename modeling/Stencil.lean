import Stencil.Main
import Stencil.Proofs.Tree.AllowList
import Stencil.Proofs.Tree.Rerender
import Stencil.Proofs.Tree.Rounds
import Stencil.Proofs.Value.Merging
import Stencil.Proofs.Tree.Precedence
import Stencil.Proofs.Tree.Pointwise
import Stencil.Proofs.Tree.Lookups
import Stencil.Proofs.Inspect.Acceptance
import Stencil.Proofs.Inspect.Location
import Stencil.Proofs.Json.Numeral
import Stencil.Proofs.Cli.Stages
import Stencil.Proofs.Template.Find
import Stencil.Proofs.Placeholder.Written
import Stencil.Proofs.Placeholder.Choice
import Stencil.Proofs.Template.Embedded
import Stencil.Proofs.Value.KeyPaths
import Stencil.Proofs.Path.Walk
import Stencil.Proofs.Template.Staged
import Stencil.Proofs.Value.Absorption
import Stencil.Proofs.Cast.Repeated
import Stencil.Proofs.Numeric.Script
import Stencil.Proofs.Cast.Booleans
import Stencil.Proofs.Cast.Integers
import Stencil.Proofs.Cast.Doubles
import Stencil.Proofs.Document.Sniff
