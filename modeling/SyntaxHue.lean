import SyntaxHue.Command.Run
import SyntaxHue.Main
import SyntaxHue.Token.Stream
import SyntaxHue.Proofs.Place
import SyntaxHue.Proofs.Pattern
import SyntaxHue.Proofs.Trim
import SyntaxHue.Proofs.Builtin
import SyntaxHue.Proofs.Decoding
import SyntaxHue.Proofs.Tokenizer.Keep
import SyntaxHue.Proofs.Tokenizer.Rules
import SyntaxHue.Proofs.Tokenizer.Unbounded
import SyntaxHue.Proofs.Tokenizer.Termination
import SyntaxHue.Proofs.Tokenizer.Split
import SyntaxHue.Proofs.Tokenizer.Reach
import SyntaxHue.Proofs.Grammar.InPlace
import SyntaxHue.Proofs.Grammar.Atomic
import SyntaxHue.Proofs.Grammar.Definition
import SyntaxHue.Proofs.Grammar.Compile
import SyntaxHue.Proofs.Grammar.Handles
import SyntaxHue.Proofs.Grammar.Reachable
import SyntaxHue.Proofs.Grammar.Update
import SyntaxHue.Proofs.Highlighter
import SyntaxHue.Proofs.Setup
import SyntaxHue.Proofs.Stream.Edits
import SyntaxHue.Proofs.Stream.Rooted
import SyntaxHue.Proofs.Tokenizer.Splice
import SyntaxHue.Proofs.Tokenizer.Rescan
import SyntaxHue.Proofs.Regex.Leftmost
import SyntaxHue.Proofs.Regex.Exact
import SyntaxHue.Proofs.Regex.Passes
import SyntaxHue.Proofs.Json.Literal
import SyntaxHue.Proofs.Json.Text
import SyntaxHue.Proofs.Json.Quote
import SyntaxHue.Proofs.Json.Found
import SyntaxHue.Proofs.Json.Scan
import SyntaxHue.Proofs.Tokenizer.Spans
import SyntaxHue.Proofs.Json.Apart
import SyntaxHue.Proofs.Tokenizer.Invariant
import SyntaxHue.Proofs.Tokenizer.Canonical
import SyntaxHue.Proofs.Tokenizer.Moments
import SyntaxHue.Proofs.Tokenizer.Guard
import SyntaxHue.Proofs.Tokenizer.Checked
import SyntaxHue.Proofs.Tokenizer.Safe
import SyntaxHue.Proofs.Tokenizer.Silent
import SyntaxHue.Proofs.Tokenizer.Greedy
import SyntaxHue.Proofs.Grammar.Faults
import SyntaxHue.Proofs.Grammar.Insert
import SyntaxHue.Proofs.Grammar.Extend
import SyntaxHue.Proofs.Grammar.Rest
import SyntaxHue.Proofs.Markup.Unique
import SyntaxHue.Proofs.Json.Lexeme
import SyntaxHue.Proofs.Json.Value
import SyntaxHue.Proofs.Grammar.Format
import SyntaxHue.Proofs.Json.Unique
import SyntaxHue.Proofs.Token.Dump
import SyntaxHue.Proofs.Element
import SyntaxHue.Proofs.Hooks
import SyntaxHue.Proofs.Markup.Wrap
import SyntaxHue.Proofs.Markup.Tags
import SyntaxHue.Proofs.Text.Fold
import SyntaxHue.Proofs.Regex.Read
import SyntaxHue.Proofs.Markup.InlinedPattern
import SyntaxHue.Proofs.Markup.Inlined
import SyntaxHue.Proofs.Stages
