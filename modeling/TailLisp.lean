import TailLisp.Command
import TailLisp.Main
import TailLisp.Proofs.Acceptance
import TailLisp.Proofs.RecursionMeaning
import TailLisp.Proofs.Footprint
import TailLisp.Proofs.Grammar
import TailLisp.Proofs.TableGrammar
import TailLisp.Proofs.PatternOrder
import TailLisp.Proofs.HelperOrder
import TailLisp.Proofs.ContextBalance
import TailLisp.Proofs.LoopEntry
import TailLisp.Proofs.OwnNames
import TailLisp.Proofs.NamedFunctions
import TailLisp.Proofs.SourceLayout
import TailLisp.Proofs.Derivation
import TailLisp.Proofs.ExpansionSteps
import TailLisp.Proofs.PrintedForms
import TailLisp.Proofs.LoopEndings
import TailLisp.Proofs.Places
import TailLisp.Proofs.Checking
import TailLisp.Proofs.BoundNames
import TailLisp.Proofs.Tables
import TailLisp.Proofs.SettingsFile
import TailLisp.Proofs.Temporaries
