import DesignHierarchy.Browser
import DesignHierarchy.Call
import DesignHierarchy.DottedPath
import DesignHierarchy.DottedPath.Slices
import DesignHierarchy.Error
import DesignHierarchy.Ident
import DesignHierarchy.InstanceIndex.Basic
import DesignHierarchy.InstanceIndex.Estimate
import DesignHierarchy.InstanceIndex.Pass
import DesignHierarchy.InstanceIndex.Roster
import DesignHierarchy.Journal
import DesignHierarchy.Memo
import DesignHierarchy.Proofs.Arena
import DesignHierarchy.Proofs.ArrayIndices
import DesignHierarchy.Proofs.Browsing
import DesignHierarchy.Proofs.Build
import DesignHierarchy.Proofs.Cancel
import DesignHierarchy.Proofs.Candidates
import DesignHierarchy.Proofs.Contents
import DesignHierarchy.Proofs.Contract
import DesignHierarchy.Proofs.DesignWalk
import DesignHierarchy.Proofs.Elaboration
import DesignHierarchy.Proofs.Growth
import DesignHierarchy.Proofs.Halting
import DesignHierarchy.Proofs.Hierarchy
import DesignHierarchy.Proofs.Identity
import DesignHierarchy.Proofs.Insertion
import DesignHierarchy.Proofs.Lineage
import DesignHierarchy.Proofs.LoadOrder
import DesignHierarchy.Proofs.Loaded
import DesignHierarchy.Proofs.Numbering
import DesignHierarchy.Proofs.Paths
import DesignHierarchy.Proofs.Places
import DesignHierarchy.Proofs.Precedence
import DesignHierarchy.Proofs.Progress
import DesignHierarchy.Proofs.Questions
import DesignHierarchy.Proofs.Reach
import DesignHierarchy.Proofs.Recursion
import DesignHierarchy.Proofs.Reloading
import DesignHierarchy.Proofs.Remembering
import DesignHierarchy.Proofs.Renumber
import DesignHierarchy.Proofs.Replay
import DesignHierarchy.Proofs.Retracing
import DesignHierarchy.Proofs.Reveal
import DesignHierarchy.Proofs.Room
import DesignHierarchy.Proofs.RoundTrip
import DesignHierarchy.Proofs.ScopeGraph
import DesignHierarchy.Proofs.Shortcut
import DesignHierarchy.Proofs.Suspension
import DesignHierarchy.Proofs.Sweep
import DesignHierarchy.Proofs.Switching
import DesignHierarchy.Proofs.Symbols
import DesignHierarchy.Proofs.Tour
import DesignHierarchy.Proofs.Traversal
import DesignHierarchy.Proofs.Unambiguous
import DesignHierarchy.Proofs.Walk
import DesignHierarchy.Run
import DesignHierarchy.Scope.Expand
import DesignHierarchy.Scope.Locate
import DesignHierarchy.Scope.Node
import DesignHierarchy.Scope.Tree
import DesignHierarchy.Source.Path
import DesignHierarchy.Source.Position
import DesignHierarchy.Symbol.Basic
import DesignHierarchy.Symbol.Decl
import DesignHierarchy.Symbol.Kind
import DesignHierarchy.Table
import DesignHierarchy.Target
import DesignHierarchy.Trie
import DesignHierarchy.Workspace.Basic
import DesignHierarchy.Workspace.Lookup
import DesignHierarchy.Workspace.Store
import DesignHierarchy.Proofs.Occurrences
import DesignHierarchy.Proofs.Bytes
import DesignHierarchy.Proofs.Slicing
import DesignHierarchy.Proofs.Catalog
import DesignHierarchy.Workspace.Catalog
