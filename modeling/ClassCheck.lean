import ClassCheck.Analysis
import ClassCheck.Compilation
import ClassCheck.Diagnostic.Template
import ClassCheck.Log
import ClassCheck.Scope.Forest
import ClassCheck.Proofs.Chains
import ClassCheck.Proofs.Registration
import ClassCheck.Proofs.Links
import ClassCheck.Proofs.Ancestry
import ClassCheck.Proofs.BreadthFirst
import ClassCheck.Proofs.Environments
import ClassCheck.Proofs.HierarchyShape
import ClassCheck.Proofs.Coverage
import ClassCheck.Proofs.Judgements
import ClassCheck.Proofs.RecordedTypes
import ClassCheck.Proofs.MemberTables
import ClassCheck.Proofs.Traversal
import ClassCheck.Proofs.Gate
import ClassCheck.Proofs.Declarations
import ClassCheck.Proofs.OwnMembers
import ClassCheck.Proofs.VisibleMembers
import ClassCheck.Proofs.FaithfulTable
import ClassCheck.Proofs.QuietRules
import ClassCheck.Proofs.QuietTyping
import ClassCheck.Proofs.QuietBodies
import ClassCheck.Proofs.QuietClasses
import ClassCheck.Proofs.Acceptance
import ClassCheck.Proofs.Overriding
import ClassCheck.Proofs.PartsFirst
import ClassCheck.Proofs.Faces
import ClassCheck.Proofs.Confinement
import ClassCheck.Proofs.Mirrors
import ClassCheck.Proofs.DeclarationOrder
import ClassCheck.Proofs.BodyEdits
import ClassCheck.Proofs.IndependentBodies
import ClassCheck.Proofs.Settling
import ClassCheck.Proofs.CallLog
import ClassCheck.Proofs.Annotations
import ClassCheck.Proofs.DroppedDuplicates
import ClassCheck.Proofs.AcceptedMembers
import ClassCheck.Proofs.LeafClass
import ClassCheck.Proofs.UnmentionedName
import ClassCheck.Proofs.ReportSites
import ClassCheck.Proofs.UnrelatedClass
import ClassCheck.Proofs.DiagnosticPlaces
import ClassCheck.Proofs.PhaseOrder
import ClassCheck.Proofs.RestoredScopes
import ClassCheck.Proofs.SpecialNames
import ClassCheck.Proofs.SubtypeOrder
import ClassCheck.Proofs.StrayBreaks
import ClassCheck.Proofs.VoidValues
import ClassCheck.Proofs.ErrorOperands
import ClassCheck.Proofs.Conversions
import ClassCheck.Proofs.Preorder
import ClassCheck.Proofs.NearestBinding
import ClassCheck.Proofs.UndoneScopes
import ClassCheck.Proofs.TypeText
