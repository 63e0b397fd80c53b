import PredictiveParsing.Main
import PredictiveParsing.Proofs.CommandLine.JsonAnswers
import PredictiveParsing.Proofs.Facts.Analyses
import PredictiveParsing.Proofs.Forest.Attaching
import PredictiveParsing.Proofs.Forest.JsonText
import PredictiveParsing.Proofs.Numbering.FreshNames
import PredictiveParsing.Proofs.Parser.LeftRecursion
import PredictiveParsing.Proofs.Parser.LiveCells
import PredictiveParsing.Proofs.Parser.Prefixes
import PredictiveParsing.Proofs.Parser.RoundTrip
import PredictiveParsing.Proofs.Parser.SententialForms
import PredictiveParsing.Proofs.Parser.TrailingInput
import PredictiveParsing.Proofs.Renumbering.AddedRule
import PredictiveParsing.Proofs.Renumbering.RuleOrder
import PredictiveParsing.Proofs.Report.LatexTable
import PredictiveParsing.Proofs.Report.PlainTable
import PredictiveParsing.Proofs.Report.TableViews
