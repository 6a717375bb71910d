import Munch.Automaton
import Munch.Command
import Munch.Command.Folder
import Munch.Command.Outcome
import Munch.Command.Path
import Munch.Compile
import Munch.Defect
import Munch.Dfa
import Munch.Dfa.Minimal
import Munch.Dfa.Subset
import Munch.Draw
import Munch.Lexeme
import Munch.Main
import Munch.Nfa
import Munch.Nfa.Fragment
import Munch.Numbering
import Munch.Pattern
import Munch.Pattern.Endpoints
import Munch.Pattern.Flaw
import Munch.Proofs.AsciiRanges
import Munch.Proofs.BlockComment
import Munch.Proofs.Blocks
import Munch.Proofs.Canonical
import Munch.Proofs.Checked
import Munch.Proofs.CheckedGrowth
import Munch.Proofs.Closure
import Munch.Proofs.CodePoints
import Munch.Proofs.Combinators
import Munch.Proofs.Compiled
import Munch.Proofs.Coverage
import Munch.Proofs.Digits
import Munch.Proofs.DirectLexer
import Munch.Proofs.Discovery
import Munch.Proofs.EntryText
import Munch.Proofs.ErrorLine
import Munch.Proofs.Extension
import Munch.Proofs.FirstFlaw
import Munch.Proofs.Folders
import Munch.Proofs.Follow
import Munch.Proofs.Fragment
import Munch.Proofs.Frontier
import Munch.Proofs.Grammar
import Munch.Proofs.GraphSize
import Munch.Proofs.Inverted
import Munch.Proofs.JsonRoundTrip
import Munch.Proofs.JsonValue
import Munch.Proofs.Language
import Munch.Proofs.Layout
import Munch.Proofs.Lexing
import Munch.Proofs.LineByLine
import Munch.Proofs.LineGrammar
import Munch.Proofs.LineText
import Munch.Proofs.Matching
import Munch.Proofs.Members
import Munch.Proofs.Merging
import Munch.Proofs.Minimal
import Munch.Proofs.NormalText
import Munch.Proofs.Numbering
import Munch.Proofs.Partition
import Munch.Proofs.Parts
import Munch.Proofs.PathNames
import Munch.Proofs.Pieces
import Munch.Proofs.RandomPatterns
import Munch.Proofs.Reduced
import Munch.Proofs.Refinement
import Munch.Proofs.Restart
import Munch.Proofs.RoundTrip
import Munch.Proofs.Row
import Munch.Proofs.RowText
import Munch.Proofs.RuleExits
import Munch.Proofs.RuleGraph
import Munch.Proofs.Run
import Munch.Proofs.Safety
import Munch.Proofs.Sampling
import Munch.Proofs.Scanning
import Munch.Proofs.Shortlex
import Munch.Proofs.SilentSearch
import Munch.Proofs.Simulation
import Munch.Proofs.SingleMatch
import Munch.Proofs.Spelling
import Munch.Proofs.Stages
import Munch.Proofs.Subset
import Munch.Proofs.TableLines
import Munch.Proofs.Thompson
import Munch.Proofs.Tiling
import Munch.Proofs.Trim
import Munch.Proofs.Truncation
import Munch.Proofs.Verdict
import Munch.Proofs.Walk
import Munch.Proofs.Worklist
import Munch.Proofs.WrittenTables
import Munch.Row
import Munch.Rule
import Munch.Scan
import Munch.TableJson
import Munch.TableJson.Reader
import Munch.TableJson.Value
import Munch.TableText
import Munch.TableText.Entry
import Munch.TableText.LineError
import Munch.TableText.Reader
import Munch.Tables
import Munch.Text.Alphabetic
import Munch.Text.CodePoints
import Munch.Text.Digits
import Munch.Text.Extender
import Munch.Text.Identifier
import Munch.Text.Lines
import Munch.Text.Numeric
import Munch.Text.Printable
import Munch.Text.Quoted
import Munch.Text.Utf8
import Munch.TokenKind
