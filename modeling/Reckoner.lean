import Reckoner.Main
import Reckoner.Proofs.Assignment.Agreement
import Reckoner.Proofs.CommandLine.Arguments
import Reckoner.Proofs.Dialogue.Independence
import Reckoner.Proofs.Dialogue.Retyping
import Reckoner.Proofs.Dialogue.Script
import Reckoner.Proofs.Dialogue.Store
import Reckoner.Proofs.Infix.Decomposition
import Reckoner.Proofs.Infix.Excess
import Reckoner.Proofs.Infix.Exchange
import Reckoner.Proofs.Infix.Expression
import Reckoner.Proofs.Infix.Extension
import Reckoner.Proofs.Infix.LeadingSign
import Reckoner.Proofs.Infix.Misnesting
import Reckoner.Proofs.Infix.Unspaced
import Reckoner.Proofs.Numeral.Normal
import Reckoner.Proofs.Postfix.Frame
import Reckoner.Proofs.Postfix.Order
import Reckoner.Proofs.Postfix.Spaced
