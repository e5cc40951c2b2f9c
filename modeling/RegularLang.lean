import RegularLang.Regex.Order
import RegularLang.Regex.Derivative
import RegularLang.Language
import RegularLang.Infix.Grammar
import RegularLang.Postfix.Grammar
import RegularLang.Automaton.Basic
import RegularLang.Automaton.Edit
import RegularLang.Dot.Reader
import RegularLang.Guarded.Basic
import RegularLang.Guarded.Stages
import RegularLang.Guarded.Pipelines
import RegularLang.Main
import RegularLang.Proofs.Automaton.Merged
import RegularLang.Proofs.Automaton.Edited
import RegularLang.Proofs.Automaton.Indistinguishable
import RegularLang.Proofs.Automaton.Routes
import RegularLang.Proofs.Built
import RegularLang.Proofs.CommandLine
import RegularLang.Proofs.Construction
import RegularLang.Proofs.Dot
import RegularLang.Proofs.Expansion
import RegularLang.Proofs.Infix.Rendered
import RegularLang.Proofs.Infix.Spliced
import RegularLang.Proofs.Infix.Viable
import RegularLang.Proofs.NormalForm
import RegularLang.Proofs.Notations
import RegularLang.Proofs.Postfix
import RegularLang.Proofs.Removal
import RegularLang.Proofs.Subsets
import RegularLang.Proofs.Suffix
import RegularLang.Proofs.TrailingBlanks
import RegularLang.Proofs.Guarded.Basic
import RegularLang.Proofs.Guarded.Simplified
import RegularLang.Proofs.Guarded.EpsilonFree
import RegularLang.Proofs.Guarded.Trimmed
import RegularLang.Proofs.Guarded.Determinized
import RegularLang.Proofs.Guarded.Eliminated
import RegularLang.Proofs.Guarded.Walked
import RegularLang.Proofs.Guarded.Pipelines
import RegularLang.Proofs.Guarded.Queue
