import Css.Error.Report
import Css.Proofs.Cascade.Fallbacks
import Css.Proofs.Cascade.Layers
import Css.Proofs.Cursor.Rule
import Css.Proofs.Declaration.Coverage
import Css.Proofs.Media.Reference
import Css.Proofs.Media.RoundTrip
import Css.Proofs.Modules.Manifest
import Css.Proofs.Modules.Targets
import Css.Proofs.Nesting.Sequence
import Css.Proofs.Output.Positions
import Css.Proofs.Rule.Frames
import Css.Proofs.Rule.Minified
import Css.Proofs.Rule.Styling
import Css.Proofs.Rule.Warnings
import Css.Proofs.Selector.Sequence
import Css.Proofs.Sheet.Idempotence
import Css.Proofs.Sheet.Kept
import Css.Proofs.Sheet.Newer
import Css.Proofs.SourceMap.Decoding
import Css.Proofs.Target.Query
import Css.Proofs.Token.Leaves
import Css.Proofs.Token.Urls
import Css.Proofs.Value.Range
