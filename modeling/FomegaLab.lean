import FomegaLab.Config.Document
import FomegaLab.Config.Parse
import FomegaLab.Conversion
import FomegaLab.Harness.Suite
import FomegaLab.Machine.CEK
import FomegaLab.Machine.CK
import FomegaLab.Named.Alpha
import FomegaLab.Named.Close
import FomegaLab.Named.Kinding
import FomegaLab.Named.Normal
import FomegaLab.Named.Typing
import FomegaLab.NameScope
import FomegaLab.Positional.Enumerate
import FomegaLab.Property.Laws
import FomegaLab.Search.Index
import FomegaLab.Text.Faults
import FomegaLab.Text.Fields
import FomegaLab.Text.Pretty
import FomegaLab.Text.Shown
import FomegaLab.Proofs.Erasure
import FomegaLab.Proofs.Machine.Discharge
import FomegaLab.Proofs.Machine.LockStep
import FomegaLab.Proofs.Nameless.Syntax
import FomegaLab.Proofs.Nameless.Occurrence
import FomegaLab.Proofs.Nameless.Reduction
import FomegaLab.Proofs.Nameless.Kinding
import FomegaLab.Proofs.Nameless.Termination
import FomegaLab.Proofs.Nameless.Terms
import FomegaLab.Proofs.Nameless.TermSubst
import FomegaLab.Proofs.Named.Nameless
import FomegaLab.Proofs.Named.Distances
import FomegaLab.Proofs.Named.Subst
import FomegaLab.Proofs.Named.TermSubst
import FomegaLab.Proofs.Named.SubstLaws
import FomegaLab.Proofs.Runs
import FomegaLab.Proofs.Named.Normal
import FomegaLab.Proofs.Named.Kinding
import FomegaLab.Proofs.Named.NormalForm
import FomegaLab.Proofs.Typing.Judgement
import FomegaLab.Proofs.Typing.Nameless
import FomegaLab.Proofs.Typing.Inference
import FomegaLab.Proofs.Typing.Alpha
import FomegaLab.Proofs.Typing.Replacement
import FomegaLab.Proofs.Typing.Substitution
import FomegaLab.Proofs.Typing.Regularity
import FomegaLab.Proofs.Machine.TypeSafety
import FomegaLab.Proofs.Machine.Meaning
import FomegaLab.Proofs.Machine.Termination
import FomegaLab.Proofs.Machine.ClosedRuns
import FomegaLab.Proofs.Machine.BoundNames
import FomegaLab.Proofs.Listing
import FomegaLab.Proofs.Positional.Denotation
import FomegaLab.Proofs.Positional.Steps
import FomegaLab.Proofs.Positional.Membership
import FomegaLab.Proofs.Positional.TermDenotation
import FomegaLab.Proofs.Positional.TypeListing
import FomegaLab.Proofs.Positional.NormalListing
import FomegaLab.Proofs.Positional.TermListing
import FomegaLab.Proofs.Positional.EnoughFuel
import FomegaLab.Proofs.Positional.Substitution
import FomegaLab.Proofs.Positional.Normalization
import FomegaLab.Proofs.Conversion.Types
import FomegaLab.Proofs.Conversion.Kinding
import FomegaLab.Proofs.Conversion.Commutation
import FomegaLab.Proofs.Conversion.Instantiation
import FomegaLab.Proofs.Conversion.Terms
import FomegaLab.Proofs.Conversion.Faithful
import FomegaLab.Proofs.Text.Words
import FomegaLab.Proofs.Conversion.Binders
import FomegaLab.Proofs.NameScope
import FomegaLab.Proofs.Text.Layout
import FomegaLab.Proofs.Text.Reading
import FomegaLab.Proofs.Text.Unambiguous
import FomegaLab.Proofs.Text.Shown
import FomegaLab.Proofs.Search.Visits
import FomegaLab.Proofs.Search.Counterexample
import FomegaLab.Proofs.Harness.Endings
import FomegaLab.Proofs.Harness.Modes
import FomegaLab.Proofs.Harness.Strategies
import FomegaLab.Proofs.Harness.Suites
import FomegaLab.Proofs.Property.Blame
import FomegaLab.Proofs.Config.Settings
import FomegaLab.Proofs.Config.Accepted
import FomegaLab.Proofs.Config.Overrides
