import UntypedLambda.Canonical.Nameless
import UntypedLambda.Main
import UntypedLambda.Proofs.AlphaEquivalence
import UntypedLambda.Proofs.AlphaInvariance
import UntypedLambda.Proofs.Completeness
import UntypedLambda.Proofs.Operands
import UntypedLambda.Proofs.Parsing
import UntypedLambda.Proofs.PrintedNormalForms
import UntypedLambda.Proofs.Redefinition
import UntypedLambda.Proofs.Scripts
import UntypedLambda.Proofs.ShownDefinitions
import UntypedLambda.Proofs.SourceRoundTrip
import UntypedLambda.Proofs.Transparency
import UntypedLambda.Resolution.Lexical
import UntypedLambda.Proofs.BigStep
import UntypedLambda.Proofs.OwnBinders
import UntypedLambda.Proofs.WeakHeads
import UntypedLambda.Proofs.FixedPoints
import UntypedLambda.Proofs.FreeNames
import UntypedLambda.Proofs.Hints
import UntypedLambda.Proofs.Places
import UntypedLambda.Proofs.LexicalScope
import UntypedLambda.Proofs.KeptNames
import UntypedLambda.Proofs.ChosenNames
import UntypedLambda.Proofs.Rereading
import UntypedLambda.Proofs.FunctionDefinitions
import UntypedLambda.Proofs.MinimalPrinting
import UntypedLambda.Proofs.PrefixCode
import UntypedLambda.Proofs.RefusedDefinitions
import UntypedLambda.Proofs.ChurchNumerals
import UntypedLambda.Proofs.CanonicalScope
import UntypedLambda.Proofs.NameHistories
