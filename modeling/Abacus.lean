import Abacus.Main
import Abacus.Proofs.CommandLine.Figures
import Abacus.Proofs.Evaluation.Stray
import Abacus.Proofs.Parse.Displayed
import Abacus.Proofs.Parse.Follow
import Abacus.Proofs.Parse.Handmade
import Abacus.Proofs.Parse.Minimal
import Abacus.Proofs.Parse.Operands
