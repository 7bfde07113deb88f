import Lox.Main
import Lox.Proofs.Scanning.Partition
import Lox.Proofs.Grammar.Completeness
import Lox.Proofs.Grammar.Recovery
import Lox.Proofs.Grammar.Earliest
import Lox.Proofs.Evaluation.Confinement
import Lox.Proofs.Scoping.BoundUses
import Lox.Proofs.Scoping.Violations
import Lox.Proofs.Scoping.Balance
import Lox.Proofs.Scoping.ForLoops
import Lox.Proofs.Sessions.Renaming
import Lox.Proofs.Sessions.Gates
import Lox.Proofs.Sessions.Returns
import Lox.Proofs.Sessions.ExpressionMode
import Lox.Proofs.Scoping.Accesses
import Lox.Proofs.Sessions.ScopeTree
import Lox.Proofs.Sessions.Exhaustion
import Lox.Proofs.Sessions.Functions
import Lox.Proofs.Syntax.Unambiguous
import Lox.Proofs.Evaluation.LogicalChains
import Lox.Proofs.Scanning.Rendering
import Lox.Proofs.Grammar.MissingSemicolon
