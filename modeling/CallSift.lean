import CallSift.CommandLine
import CallSift.Main
import CallSift.Proofs.Analysis.Normal
import CallSift.Proofs.Record.RoundTrip
import CallSift.Proofs.Walk.Candidates
import CallSift.Proofs.Walk.Extents
import CallSift.Proofs.Walk.Failure
import CallSift.Syntax.Document
import CallSift.Proofs.AllowList.Filter
import CallSift.Proofs.Analysis.Provenance
import CallSift.Proofs.Path.Names
import CallSift.Proofs.FileSystem.Tree
import CallSift.Proofs.FileSystem.Follow
import CallSift.Proofs.Archive.Unpack
import CallSift.Proofs.Analysis.ReadOnly
import CallSift.Proofs.FileSystem.Subtree
import CallSift.Proofs.FileSystem.Below
import CallSift.Proofs.Record.FileInfo
import CallSift.Proofs.Analysis.Places
import CallSift.Proofs.Analysis.Unpacked
import CallSift.Proofs.Archive.Stored
import CallSift.Proofs.FileSystem.Under
import CallSift.Proofs.FileSystem.Write
import CallSift.Proofs.Discovery
import CallSift.Proofs.Run.Failed
import CallSift.Proofs.Run.Persisted
import CallSift.Proofs.Run.Recovery
import CallSift.Proofs.Walk.Header
import CallSift.Proofs.Walk.Pattern
import CallSift.Proofs.Analysis.PackageName
import CallSift.Proofs.Discovery.Named
import CallSift.Proofs.Syntax.Alias
import CallSift.Proofs.Syntax.Faulty
import CallSift.Proofs.Extraction.Rejection
import CallSift.Proofs.Path.Steps
import CallSift.Proofs.Path.Canonical
import CallSift.Proofs.Path.Relative
import CallSift.Proofs.Analysis.Composition
import CallSift.Proofs.Analysis.Located
import CallSift.Proofs.Walk.Order
import CallSift.Proofs.Walk.Parts
import CallSift.Proofs.Archive.Suffix
import CallSift.Proofs.Walk.Comments
import CallSift.Proofs.Walk.Alike
import CallSift.Proofs.Json.Quoted
import CallSift.Proofs.Json.Grammar
import CallSift.Proofs.AllowList.Layout
import CallSift.Proofs.FileSystem.Added
import CallSift.Proofs.Discovery.Again
import CallSift.Proofs.Run.Repeated
