import FiniteAutomata.Proofs.Closure
import FiniteAutomata.Proofs.Completion
import FiniteAutomata.Proofs.Continuation
import FiniteAutomata.Proofs.Counting
import FiniteAutomata.Proofs.Delimiter
import FiniteAutomata.Proofs.Directions
import FiniteAutomata.Proofs.Documents
import FiniteAutomata.Proofs.EmptySymbol
import FiniteAutomata.Proofs.LastAlphabet
import FiniteAutomata.Proofs.Letters
import FiniteAutomata.Proofs.Merging
import FiniteAutomata.Proofs.Removal
import FiniteAutomata.Proofs.Resaving
import FiniteAutomata.Proofs.Retargeting
import FiniteAutomata.Proofs.SetAlgebra
import FiniteAutomata.Proofs.Simulations
import FiniteAutomata.Proofs.SingleState
import FiniteAutomata.Proofs.SymbolLists
import FiniteAutomata.Proofs.Traversals
import FiniteAutomata.Proofs.Trim
import FiniteAutomata.Proofs.Unchanged
import FiniteAutomata.Proofs.Undoing
import FiniteAutomata.Proofs.Usefulness
import FiniteAutomata.Proofs.Validation
import FiniteAutomata.Proofs.Verdict
