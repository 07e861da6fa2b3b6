import ZipMount.Access
import ZipMount.Archive.Image
import ZipMount.Archive.Members
import ZipMount.Archive.Tree
import ZipMount.Archives.Copy
import ZipMount.Archives.Open
import ZipMount.Attributes
import ZipMount.Cache.Basic
import ZipMount.Cache.Callers
import ZipMount.Contents
import ZipMount.Diagnosis
import ZipMount.Error
import ZipMount.Failure
import ZipMount.FileSystem
import ZipMount.FileUri
import ZipMount.Files
import ZipMount.Host.Basic
import ZipMount.Host.Calls
import ZipMount.Host.Lookup
import ZipMount.Host.Walk
import ZipMount.Locator
import ZipMount.MemberKey
import ZipMount.Mounting.Close
import ZipMount.Mounting.Drop
import ZipMount.Mounting.Open
import ZipMount.Operations.Changing
import ZipMount.Operations.Reading
import ZipMount.Operations.Target
import ZipMount.Options.Basic
import ZipMount.Options.File
import ZipMount.Path
import ZipMount.Pathname
import ZipMount.Proofs.Action
import ZipMount.Proofs.Archive.RoundTrip
import ZipMount.Proofs.Archives.Aftermath
import ZipMount.Proofs.Archives.Apart
import ZipMount.Proofs.Archives.Calling
import ZipMount.Proofs.Archives.Close
import ZipMount.Proofs.Archives.Confined
import ZipMount.Proofs.Archives.Copy
import ZipMount.Proofs.Archives.Create
import ZipMount.Proofs.Archives.CutShort
import ZipMount.Proofs.Archives.Destination
import ZipMount.Proofs.Archives.Directories
import ZipMount.Proofs.Archives.Entry
import ZipMount.Proofs.Archives.Merge
import ZipMount.Proofs.Archives.Mirror
import ZipMount.Proofs.Archives.Occupied
import ZipMount.Proofs.Archives.Pack
import ZipMount.Proofs.Archives.Relative
import ZipMount.Proofs.Archives.Reproducible
import ZipMount.Proofs.Archives.Restore
import ZipMount.Proofs.Archives.Source
import ZipMount.Proofs.Archives.Staged
import ZipMount.Proofs.Archives.Target
import ZipMount.Proofs.Archives.Unpack
import ZipMount.Proofs.Cache.Callers
import ZipMount.Proofs.Cache.Closing
import ZipMount.Proofs.Cache.Requests
import ZipMount.Proofs.Cache.Runs
import ZipMount.Proofs.Calling
import ZipMount.Proofs.Calls
import ZipMount.Proofs.Changing
import ZipMount.Proofs.Errands.Run
import ZipMount.Proofs.Errands.Together
import ZipMount.Proofs.Errands.Twin
import ZipMount.Proofs.Events
import ZipMount.Proofs.Except
import ZipMount.Proofs.FileUri
import ZipMount.Proofs.Folding
import ZipMount.Proofs.Granted
import ZipMount.Proofs.Host.Absolute
import ZipMount.Proofs.Host.Calls
import ZipMount.Proofs.Host.Changes
import ZipMount.Proofs.Host.Frame
import ZipMount.Proofs.Host.Lookup
import ZipMount.Proofs.Host.Names
import ZipMount.Proofs.Host.NewFile
import ZipMount.Proofs.Host.Plain
import ZipMount.Proofs.Host.Reach
import ZipMount.Proofs.Host.Walk
import ZipMount.Proofs.Host.WellFormed
import ZipMount.Proofs.Letters
import ZipMount.Proofs.Listing
import ZipMount.Proofs.Locator
import ZipMount.Proofs.MemberKey
import ZipMount.Proofs.MemberPath
import ZipMount.Proofs.Members.Decoded
import ZipMount.Proofs.Members.InStep
import ZipMount.Proofs.Members.Run
import ZipMount.Proofs.Members.Shows
import ZipMount.Proofs.Members.Texts
import ZipMount.Proofs.Mounting.Calls
import ZipMount.Proofs.Mounting.Kept
import ZipMount.Proofs.Mounting.Lifetime
import ZipMount.Proofs.Mounting.Nested
import ZipMount.Proofs.Mounting.Open
import ZipMount.Proofs.Mounting.Registry
import ZipMount.Proofs.Mounting.Release
import ZipMount.Proofs.Mounting.Settled
import ZipMount.Proofs.Mounting.Stamp
import ZipMount.Proofs.NewFile
import ZipMount.Proofs.Options
import ZipMount.Proofs.Pathname
import ZipMount.Proofs.RootedPath
import ZipMount.Proofs.Rose.Node
import ZipMount.Proofs.Rose.Run
import ZipMount.Proofs.Rose.Simulation
import ZipMount.Proofs.SamePath
import ZipMount.Proofs.Text
import ZipMount.Proofs.Time.Calendar
import ZipMount.Proofs.Time.Dos
import ZipMount.Proofs.Time.Years
import ZipMount.Proofs.Tree.Covered
import ZipMount.Proofs.Tree.Dated
import ZipMount.Proofs.Tree.DefaultWalk
import ZipMount.Proofs.Tree.Laws
import ZipMount.Proofs.Tree.Outline
import ZipMount.Proofs.Tree.Overlay
import ZipMount.Proofs.Tree.Parents
import ZipMount.Proofs.Tree.Reachable
import ZipMount.Proofs.Tree.Visits
import ZipMount.Proofs.Tree.Walk
import ZipMount.Proofs.Tree.WellFormed
import ZipMount.Proofs.World
import ZipMount.Provider
import ZipMount.Table
import ZipMount.Text.Cp437
import ZipMount.Text.Letters
import ZipMount.Text.Pieces
import ZipMount.Text.Printable
import ZipMount.Text.Quoted
import ZipMount.Text.Utf8
import ZipMount.Time.Calendar
import ZipMount.Time.Dos
import ZipMount.Time.Instant
import ZipMount.Toml.Document
import ZipMount.Toml.Lexeme
import ZipMount.Toml.Node
import ZipMount.World
import ZipMount.Zip.Crc32
import ZipMount.Zip.Deflate
import ZipMount.Zip.DeflateCode
import ZipMount.Zip.Entry
import ZipMount.Zip.Inflate
import ZipMount.Zip.Layout
import ZipMount.Zip.Reader
import ZipMount.Zip.Writer
