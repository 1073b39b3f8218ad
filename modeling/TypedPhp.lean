import TypedPhp.Compare.Log
import TypedPhp.Main
import TypedPhp.Proofs.Compare.Verdict
import TypedPhp.Proofs.Double.ReadBack
import TypedPhp.Proofs.Expr.Height
import TypedPhp.Proofs.Expr.Initializers
import TypedPhp.Proofs.Program.Construction
import TypedPhp.Proofs.Program.DumpRows
import TypedPhp.Proofs.Program.Grouped
import TypedPhp.Proofs.Program.Hedged
import TypedPhp.Proofs.Program.Layout
import TypedPhp.Proofs.Program.ReadBack
import TypedPhp.Proofs.Program.Recursion
import TypedPhp.Proofs.Program.Typing
import TypedPhp.Proofs.Read.RoundTrip
import TypedPhp.Proofs.Read.Separation
import TypedPhp.Proofs.Read.Statements
import TypedPhp.Proofs.Read.Types
import TypedPhp.Proofs.Rounds
import TypedPhp.Proofs.Scope.Stack
import TypedPhp.Proofs.Stmt.Footprint
import TypedPhp.Proofs.SymbolTable.Discipline
import TypedPhp.Proofs.SymbolTable.Lookup
import TypedPhp.Proofs.Stmt.Surroundings
import TypedPhp.Proofs.Stmt.Labels
import TypedPhp.Proofs.Stmt.Nesting
import TypedPhp.Proofs.Stmt.Assignments
import TypedPhp.Proofs.Runs.Distinct
import TypedPhp.Proofs.Syntax.Signs
