import EventScript.Main
import EventScript.Proofs.Interpretation.Agreement
import EventScript.Proofs.Resets
import EventScript.Proofs.Operands
import EventScript.Proofs.Baseline
import EventScript.Proofs.Streams.Identity
import EventScript.Proofs.Disposal
import EventScript.Proofs.Interpretation.Evaluation
import EventScript.Proofs.References
import EventScript.Proofs.Parsing.Precedence
import EventScript.Proofs.Storage
import EventScript.Proofs.Dispatch
import EventScript.Proofs.Containment
import EventScript.Proofs.Arrays
import EventScript.Proofs.Integers
import EventScript.Proofs.Positions
import EventScript.Proofs.Strings
import EventScript.Proofs.Substrings
import EventScript.Proofs.Tables
import EventScript.Proofs.Refusals
