import ShellSyntax.Position
import ShellSyntax.CharClass
import ShellSyntax.Token
import ShellSyntax.Token.Canonical
import ShellSyntax.Reader
import ShellSyntax.Reader.Session
import ShellSyntax.Automaton
import ShellSyntax.Lexer
import ShellSyntax.LongestMatch
import ShellSyntax.Trace
import ShellSyntax.Command
import ShellSyntax.Command.Build
import ShellSyntax.Proofs.Position
import ShellSyntax.Proofs.Reader.Items
import ShellSyntax.Proofs.Reader.Enumeration
import ShellSyntax.Proofs.Reader.Session
import ShellSyntax.Proofs.Lexeme
import ShellSyntax.Proofs.Automaton.Outcome
import ShellSyntax.Proofs.Automaton.Scan
import ShellSyntax.Proofs.Automaton.Account
import ShellSyntax.Proofs.Legible
import ShellSyntax.Proofs.Partition
import ShellSyntax.Proofs.FirstFault
import ShellSyntax.Proofs.Canonical
import ShellSyntax.Proofs.Family
import ShellSyntax.Proofs.NormalForm
import ShellSyntax.Proofs.Shift
import ShellSyntax.Proofs.Concatenation
import ShellSyntax.Proofs.Beginnings
import ShellSyntax.Proofs.Relabelling
import ShellSyntax.Proofs.Exchange
import ShellSyntax.Proofs.QuotedBody
import ShellSyntax.Proofs.FaultLine
import ShellSyntax.Proofs.Trace.Quoted
import ShellSyntax.Proofs.Trace.Record
import ShellSyntax.Proofs.Trace
import ShellSyntax.Proofs.Trace.Readback
import ShellSyntax.Proofs.Command.Built
import ShellSyntax.Proofs.Trace.Record
