import SelectionTree.Conversion
import SelectionTree.Loading
import SelectionTree.Log
import SelectionTree.Node.Equality
import SelectionTree.Proofs.Inlining
import SelectionTree.Proofs.Offences
import SelectionTree.Proofs.Paths
import SelectionTree.Proofs.Rebuilding
import SelectionTree.Proofs.Splicing
import SelectionTree.Proofs.Siblings
import SelectionTree.Proofs.Spreads
import SelectionTree.Proofs.Substitution
import SelectionTree.Proofs.Answers
import SelectionTree.Proofs.Declarations
import SelectionTree.Proofs.Blanking
import SelectionTree.Proofs.Locations
import SelectionTree.Proofs.TreeJson
import SelectionTree.Proofs.QueryText
import SelectionTree.Proofs.Resolution
import SelectionTree.Proofs.Swapping
import SelectionTree.Proofs.Termination
import SelectionTree.Proofs.Regrouping
import SelectionTree.Proofs.Journal
import SelectionTree.Proofs.Variables
