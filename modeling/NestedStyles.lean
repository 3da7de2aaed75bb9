import NestedStyles.Build.Disk
import NestedStyles.Main
import NestedStyles.Proofs.AutoSheet
import NestedStyles.Proofs.ChoiceOrder
import NestedStyles.Proofs.DroppedReports
import NestedStyles.Proofs.DuplicateWarnings
import NestedStyles.Proofs.EitherForm
import NestedStyles.Proofs.Failures
import NestedStyles.Proofs.FiledLeaves
import NestedStyles.Proofs.Hyphens
import NestedStyles.Proofs.ImportedFiles
import NestedStyles.Proofs.Indented
import NestedStyles.Proofs.Intact
import NestedStyles.Proofs.LastFiled
import NestedStyles.Proofs.LayerStatements
import NestedStyles.Proofs.MarkedBlock
import NestedStyles.Proofs.MediaMap
import NestedStyles.Proofs.ModePlace
import NestedStyles.Proofs.ModeSheet
import NestedStyles.Proofs.NestedVisits
import NestedStyles.Proofs.Outcomes
import NestedStyles.Proofs.PathAlternatives
import NestedStyles.Proofs.Precedence
import NestedStyles.Proofs.QuotedText
import NestedStyles.Proofs.ReadOptions
import NestedStyles.Proofs.ReadTree
import NestedStyles.Proofs.RuleBlocks
import NestedStyles.Proofs.Schedules
import NestedStyles.Proofs.ThemeLeaves
import NestedStyles.Proofs.TopLevel
import NestedStyles.Proofs.Unresolved
import NestedStyles.Proofs.UrlQuotes
import NestedStyles.Proofs.ValueTexts
import NestedStyles.Proofs.WalkOrder
import NestedStyles.Proofs.WellNestedSheet
import NestedStyles.Proofs.WithoutAuto
