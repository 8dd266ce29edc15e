import ObjectInit.Proofs.Ancestors
import ObjectInit.Proofs.Assumptions
import ObjectInit.Proofs.CallPaths
import ObjectInit.Proofs.CallerEnvironments
import ObjectInit.Proofs.Captures
import ObjectInit.Proofs.CharacterRanges
import ObjectInit.Proofs.ClassParameters
import ObjectInit.Proofs.Cycles
import ObjectInit.Proofs.EarlyReads
import ObjectInit.Proofs.Entries
import ObjectInit.Proofs.Failures
import ObjectInit.Proofs.FileSpans
import ObjectInit.Proofs.Lattice
import ObjectInit.Proofs.LazyFields
import ObjectInit.Proofs.LocalMethods
import ObjectInit.Proofs.Log
import ObjectInit.Proofs.Members
import ObjectInit.Proofs.NestedCreations
import ObjectInit.Proofs.NormalForms
import ObjectInit.Proofs.Overloads
import ObjectInit.Proofs.Overriding
import ObjectInit.Proofs.Placement
import ObjectInit.Proofs.Preorder
import ObjectInit.Proofs.Refusals
import ObjectInit.Proofs.Snippets
import ObjectInit.Proofs.TraitOuters
import ObjectInit.Proofs.Trust
import ObjectInit.Proofs.Twins
import ObjectInit.Proofs.Universes
import ObjectInit.Proofs.WaysOutwards
import ObjectInit.Proofs.Widening
import ObjectInit.Report.Session
import ObjectInit.Store.Snapshot
