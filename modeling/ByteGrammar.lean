import ByteGrammar.Format.Delimited
import ByteGrammar.Format.DigitTree
import ByteGrammar.Format.Parentheses
import ByteGrammar.Format.Setting
import ByteGrammar.Format.Token
import ByteGrammar.Grammar.Depth
import ByteGrammar.Grammar.Rules
import ByteGrammar.Parser.Successive
import ByteGrammar.Proofs.Conservation
import ByteGrammar.Proofs.CoreMeaning
import ByteGrammar.Proofs.FoldMeaning
import ByteGrammar.Proofs.HardError
import ByteGrammar.Proofs.Locality
import ByteGrammar.Proofs.Refusal
import ByteGrammar.Proofs.Suffix
import ByteGrammar.Proofs.Termination
import ByteGrammar.Storage.Workbench
import ByteGrammar.Value.Action
import ByteGrammar.Proofs.Recognition
import ByteGrammar.Proofs.Unfolding
import ByteGrammar.Proofs.Parser.Matches
import ByteGrammar.Proofs.Workbench
import ByteGrammar.Proofs.DigitTree
import ByteGrammar.Proofs.Repetition.Turns
import ByteGrammar.Proofs.Repetition.Trace
import ByteGrammar.Proofs.Repetition.OneOrMore
import ByteGrammar.Proofs.Repetition.Limit
import ByteGrammar.Proofs.Grouping
import ByteGrammar.Proofs.Factoring
import ByteGrammar.Proofs.Lookahead
import ByteGrammar.Proofs.Delimited
import ByteGrammar.Proofs.Parentheses
import ByteGrammar.Proofs.Decimal
import ByteGrammar.Proofs.Setting
import ByteGrammar.Proofs.LiteralChoice
import ByteGrammar.Proofs.Token
import ByteGrammar.Proofs.Causes
