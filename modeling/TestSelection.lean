import TestSelection.Context.Stored
import TestSelection.Description.Stored
import TestSelection.Examples
import TestSelection.Expr.Outline
import TestSelection.Proofs.Expr.Cache
import TestSelection.Proofs.Expr.Evaluation
import TestSelection.Proofs.Expr.RoundTrip
import TestSelection.Proofs.Filter.RequirementFaults
import TestSelection.Proofs.Group.Selection
import TestSelection.Proofs.Group.Validity
import TestSelection.Proofs.Scan.Ids
import TestSelection.Proofs.Tag.Requirement
import TestSelection.Run.Chain
import TestSelection.Scan.Files
import TestSelection.Proofs.Scan.Account
import TestSelection.Proofs.Group.Yield
import TestSelection.Proofs.Group.Addition
import TestSelection.Proofs.Group.Exclusion
import TestSelection.Proofs.Group.Order
import TestSelection.Proofs.Context.Changes
import TestSelection.Proofs.Filter.ExcludeList
import TestSelection.Proofs.Suite.DirectoryName
import TestSelection.Proofs.Suite.Inheritance
import TestSelection.Proofs.Letters
import TestSelection.Proofs.ModuleSpec
import TestSelection.Proofs.Suite.Validity
import TestSelection.Proofs.Scan.DefaultModules
import TestSelection.Proofs.Context.VmOption
import TestSelection.Proofs.Expr.SharedCache
import TestSelection.Proofs.Filter.Calls
import TestSelection.Proofs.Suite.TableInForce
import TestSelection.Proofs.Log
import TestSelection.Proofs.Scan.Walk
import TestSelection.Proofs.Comment.Segment
import TestSelection.Proofs.Group.Circles
import TestSelection.Proofs.Expr.Comparison
import TestSelection.Proofs.Expr.Logic
import TestSelection.Proofs.Filter.Keywords
import TestSelection.Proofs.Decimal.Numeral
import TestSelection.Proofs.Filter.DeclaredKeys
import TestSelection.Proofs.Expr.ByteWalk
import TestSelection.Proofs.Tag.Folding
import TestSelection.Proofs.Suite.PropertyName
import TestSelection.Proofs.Context.Reference
import TestSelection.Proofs.Run.Layer
import TestSelection.Proofs.Tag.Independence
import TestSelection.Proofs.Tag.Splitting
import TestSelection.Proofs.Tag.FlatView
import TestSelection.Proofs.Comment.Positions
import TestSelection.Proofs.Comment.Runs
import TestSelection.Proofs.Group.TokenPath
import TestSelection.Proofs.Group.Properties
import TestSelection.Proofs.Scan.DefaultAction
import TestSelection.Proofs.Group.WholeFolders
import TestSelection.Proofs.Group.Covering
import TestSelection.Proofs.Group.Wildcard
import TestSelection.Proofs.Suite.Climbing
import TestSelection.Proofs.Suite.UsualForm
