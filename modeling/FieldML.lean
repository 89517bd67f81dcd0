import FieldML.Check.Basic
import FieldML.Check.Declare
import FieldML.Check.Fault
import FieldML.Check.Generalize
import FieldML.Check.Infer
import FieldML.Check.Pattern
import FieldML.Check.Program
import FieldML.Check.TypeExpr
import FieldML.CommandLine
import FieldML.Core
import FieldML.Coverage
import FieldML.Coverage.Case
import FieldML.Diagnostic
import FieldML.Eval
import FieldML.Eval.Machine
import FieldML.Eval.Match
import FieldML.Eval.Primitive
import FieldML.Fields
import FieldML.Json
import FieldML.KindEnv
import FieldML.Log
import FieldML.Main
import FieldML.Parser.Basic
import FieldML.Parser.Expr
import FieldML.Parser.Operator
import FieldML.Parser.Pattern
import FieldML.Parser.Program
import FieldML.Parser.TypeExpr
import FieldML.Primitive
import FieldML.Proofs.Bare
import FieldML.Proofs.Binders
import FieldML.Proofs.Check.Application
import FieldML.Proofs.Check.Basic
import FieldML.Proofs.Check.Change
import FieldML.Proofs.Check.Consistency
import FieldML.Proofs.Check.Coverage
import FieldML.Proofs.Check.Declare
import FieldML.Proofs.Check.Exhaustiveness
import FieldML.Proofs.Check.Generalize
import FieldML.Proofs.Check.Infer
import FieldML.Proofs.Check.MissingArm
import FieldML.Proofs.Check.Order
import FieldML.Proofs.Check.Pattern
import FieldML.Proofs.Check.PatternType
import FieldML.Proofs.Check.Polymorphism
import FieldML.Proofs.Check.Program
import FieldML.Proofs.Check.QuantifierOrder
import FieldML.Proofs.Check.Register
import FieldML.Proofs.Check.Scheme
import FieldML.Proofs.Check.State
import FieldML.Proofs.Check.TypeExpr
import FieldML.Proofs.Check.UnusedArms
import FieldML.Proofs.Coverage.Levels
import FieldML.Proofs.Coverage.Matrix
import FieldML.Proofs.Coverage.Missing
import FieldML.Proofs.Coverage.Useful
import FieldML.Proofs.Coverage.Value
import FieldML.Proofs.Data.Basic
import FieldML.Proofs.Data.Check
import FieldML.Proofs.Data.Eval
import FieldML.Proofs.Data.Print
import FieldML.Proofs.Data.Program
import FieldML.Proofs.Data.Text
import FieldML.Proofs.Eval.Alike
import FieldML.Proofs.Eval.Equality
import FieldML.Proofs.Eval.Form
import FieldML.Proofs.Eval.Frames
import FieldML.Proofs.Eval.Lexical
import FieldML.Proofs.Eval.Limits
import FieldML.Proofs.Eval.Primitive
import FieldML.Proofs.Eval.Quiet
import FieldML.Proofs.Fields
import FieldML.Proofs.Ground
import FieldML.Proofs.Layout.Check
import FieldML.Proofs.Layout.Grammar
import FieldML.Proofs.Layout.Infer
import FieldML.Proofs.Layout.Pattern
import FieldML.Proofs.Layout.Program
import FieldML.Proofs.Layout.Syntax
import FieldML.Proofs.Layout.Ty
import FieldML.Proofs.Layout.Unify
import FieldML.Proofs.Layout.Variants
import FieldML.Proofs.Nesting
import FieldML.Proofs.OneVariable
import FieldML.Proofs.Parser.Basic
import FieldML.Proofs.Parser.Chain
import FieldML.Proofs.Parser.Expr
import FieldML.Proofs.Parser.Hygiene
import FieldML.Proofs.Parser.Names
import FieldML.Proofs.Parser.Nesting
import FieldML.Proofs.Parser.Recursion
import FieldML.Proofs.Place.Check
import FieldML.Proofs.Place.Expr
import FieldML.Proofs.Place.Grammar
import FieldML.Proofs.Place.Infer
import FieldML.Proofs.Place.Lexer
import FieldML.Proofs.Place.Pieces
import FieldML.Proofs.Place.Parser
import FieldML.Proofs.Place.Program
import FieldML.Proofs.Place.Source
import FieldML.Proofs.Place.Syntax
import FieldML.Proofs.Place.Ty
import FieldML.Proofs.Place.Unify
import FieldML.Proofs.Quantifier.Complete
import FieldML.Proofs.Quantifier.Depth
import FieldML.Proofs.Quantifier.Formed
import FieldML.Proofs.Quantifier.Nameless
import FieldML.Proofs.Quantifier.Parts
import FieldML.Proofs.Quantifier.Rules
import FieldML.Proofs.Quantifier.Sound
import FieldML.Proofs.Quantifier.Substitution
import FieldML.Proofs.Reading.CaseText
import FieldML.Proofs.Reading.Expr
import FieldML.Proofs.Reading.Lexeme
import FieldML.Proofs.Reading.Parser
import FieldML.Proofs.Reading.Pattern
import FieldML.Proofs.Reading.PrintedType
import FieldML.Proofs.Reading.Token
import FieldML.Proofs.Reading.TypeExpr
import FieldML.Proofs.Reading.TypeMeaning
import FieldML.Proofs.Reading.TypeText
import FieldML.Proofs.Scope.Check
import FieldML.Proofs.Scope.Core
import FieldML.Proofs.Scope.Eval
import FieldML.Proofs.Scope.Program
import FieldML.Proofs.Script.Basic
import FieldML.Proofs.Script.Counter
import FieldML.Proofs.Script.Ends
import FieldML.Proofs.Script.Fresh
import FieldML.Proofs.Script.FreshDeclare
import FieldML.Proofs.Script.FreshInfer
import FieldML.Proofs.Script.Program
import FieldML.Proofs.Simple
import FieldML.Proofs.Substitution
import FieldML.Proofs.Tape.Basic
import FieldML.Proofs.Tape.Exprs
import FieldML.Proofs.Tape.Follows
import FieldML.Proofs.Tape.Forms
import FieldML.Proofs.Tape.Programs
import FieldML.Proofs.Typing.Complete
import FieldML.Proofs.Typing.Constructor
import FieldML.Proofs.Typing.Declare
import FieldML.Proofs.Typing.Generalize
import FieldML.Proofs.Typing.Live
import FieldML.Proofs.Typing.Meaning
import FieldML.Proofs.Typing.Mono
import FieldML.Proofs.Typing.Pattern
import FieldML.Proofs.Typing.Poly
import FieldML.Proofs.Typing.Program
import FieldML.Proofs.Typing.Rules
import FieldML.Proofs.Typing.Signature
import FieldML.Proofs.Typing.Sound
import FieldML.Proofs.Typing.Steps
import FieldML.Proofs.Unify.Acyclic
import FieldML.Proofs.Unify.Alike
import FieldML.Proofs.Unify.Apart
import FieldML.Proofs.Unify.Clear
import FieldML.Proofs.Unify.Constraint
import FieldML.Proofs.Unify.Expansion
import FieldML.Proofs.Unify.Fuel
import FieldML.Proofs.Unify.General
import FieldML.Proofs.Unify.Granted
import FieldML.Proofs.Unify.Merge
import FieldML.Proofs.Unify.Mirror
import FieldML.Proofs.Unify.Nodes
import FieldML.Proofs.Unify.Plain
import FieldML.Proofs.Unify.Rank
import FieldML.Proofs.Unify.Region
import FieldML.Proofs.Unify.Rules
import FieldML.Proofs.Unify.Session
import FieldML.Proofs.Unify.Skeleton
import FieldML.Proofs.Unify.Solution
import FieldML.Proofs.Unify.Transparent
import FieldML.Run
import FieldML.Settings
import FieldML.Source.Range
import FieldML.Substitution
import FieldML.Syntax
import FieldML.Syntax.Depth
import FieldML.Syntax.Nesting
import FieldML.Text.ClusterTables
import FieldML.Text.CodePointSet
import FieldML.Text.Decimal
import FieldML.Text.Graphemes
import FieldML.Text.Letters
import FieldML.Text.Quoted
import FieldML.Text.Segmentation
import FieldML.Token
import FieldML.Token.Lexer
import FieldML.Toml
import FieldML.Toml.Parser
import FieldML.Ty
import FieldML.Ty.Erase
import FieldML.Ty.Printer
import FieldML.Ty.Vars
import FieldML.Unify
import FieldML.Unify.Contradiction
import FieldML.Value
import FieldML.VariantEnv
